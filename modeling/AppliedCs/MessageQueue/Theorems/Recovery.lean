import AppliedCs.Lib.Transition
import AppliedCs.MessageQueue.Theorems.Segment

namespace MessageQueue

open Codec Transition Segment Message List

section Recovery

variable [Checksum] {w : Written} {ms : List Written} {torn : Bytes}

theorem minimal_frame (w : Written) : 57 ≤ w.frame.length := by
  have hkey : 4 ≤ (encodeKey w.1.key).length := by
    cases w.1.key
    case none => rw [encodeKey, length_encodeBE]
    case some =>
      rw [encodeKey, encodeSized, length_append]
      exact Nat.le_add_right ..
  have hid := w.1.id.length
  rw [length_frame]
  simp only [serialize, encodeFields, encodeSized, length_append, length_cons, length_encodeBE]
  omega

-- A segment and what its appends have returned for which messages.
namespace AppendRun

structure State where
  segment : Segment
  appended : List (ℕ × Written) := []

def step (s : State) (w : Written) : Option State :=
  match s.segment.append w.1 w.2 with
  | (segment, .ok offset) => some ⟨segment, s.appended ++ [(offset, w)]⟩
  | (segment, .error _) => some { s with segment }

-- The message can be read back, and its position is not cut.
def storable (s : State) (w : Written) : Prop :=
  w.Stored ∧ (s.segment.Fits w → s.segment.file.length + w.frame.length < UInt32.size)

instance {s : State} : DecidablePred (storable s) := fun w =>
  decidable_of_iff ((w.Valid ∧ (w.1.serialize w.2).length < UInt32.size) ∧
    (s.segment.size + w.frame.length ≤ s.segment.maxSize →
      s.segment.file.length + w.frame.length < UInt32.size))
    (and_congr_left' ⟨fun h => ⟨h.1, h.2⟩, fun h => ⟨h.valid, h.small⟩⟩)

-- A segment that holds messages without anything behind them goes on to do so.
structure Inv (base : ℕ) (ms : List Written) (s : State) : Prop where
  holds : s.segment.Holds (ms ++ s.appended.map Prod.snd) []
  baseEq : s.segment.baseOffset = base
  writable : s.segment.readOnly = false
  offsets : ∀ i (h : i < s.appended.length), s.appended[i].1 = base + (ms.length + i)

theorem Inv.step (h : Inv base ms s) (ho : storable s w) (hs : AppendRun.step s w = some s') :
    Inv base ms s' := by
  obtain ⟨hw, hsmall⟩ := ho
  by_cases hf : s.segment.Fits w
  case neg =>
    rw [AppendRun.step, append_full h.writable hw.small hf] at hs
    cases hs
    exact h
  obtain ⟨s₁, hs₁, ha⟩ := append_fits h.writable hw.small hf
  rw [AppendRun.step, hs₁] at hs
  cases hs
  have hsmall : s₁.file.length < UInt32.size := by
    rw [ha.file, length_append]
    exact hsmall hf
  refine ⟨?_, ha.baseOffset.trans h.baseEq, ha.readOnly.trans h.writable, fun i hi => ?_⟩
  · rw [map_append, ← append_assoc]
    exact ha.holds h.holds hw hsmall
  · rw [length_append, length_singleton] at hi
    by_cases hlt : i < s.appended.length
    case pos => rw [getElem_append_left hlt, h.offsets i hlt]
    case neg =>
      obtain rfl : i = s.appended.length := by omega
      simp only [getElem_concat_length]
      rw [h.holds.next, h.baseEq, length_append, length_map]

theorem Inv.read (h : Inv base ms s) :
    ∀ p ∈ s.appended, s.segment.read p.1 = .ok { p.2.1 with offset := .ofNat p.1 } := by
  intro p hp
  obtain ⟨i, hi, rfl⟩ := getElem_of_mem hp
  have hlt : ms.length + i < (ms ++ s.appended.map Prod.snd).length := by
    rw [length_append, length_map]
    omega
  have hr := h.holds.read hlt
  rw [h.baseEq, ← h.offsets i hi, getElem_append_right (by omega)] at hr
  simpa using hr

theorem Inv.init (hs : s.Holds ms []) (hr : s.readOnly = false) : Inv s.baseOffset ms ⟨s, []⟩ :=
  ⟨(append_nil ms).symm ▸ hs, rfl, hr, nofun⟩

theorem read_appended (hs : s.Holds ms []) (hr : s.readOnly = false)
    (r : Reaches step storable ⟨s, []⟩ s') :
    ∀ p ∈ s'.appended, s'.segment.read p.1 = .ok { p.2.1 with offset := .ofNat p.1 } := by
  have hi := r.invariant (Inv.init hs hr) fun h ho hs => h.step ho hs
  exact hi.read

theorem appended_full (hr : s.readOnly = false) (hsize : s.size = s.file.length)
    (hfull : s.file.length + 57 ≤ s.maxSize → UInt32.size ≤ s.file.length + 57)
    (r : Reaches step storable ⟨s, []⟩ s') : s'.appended = [] := by
  have hi : s' = ⟨s, []⟩ := by
    refine r.invariant (P := (· = ⟨s, []⟩)) rfl fun {s₁ s₂ w} h ho hs => ?_
    subst h
    have hf : ¬ s.Fits w := by
      intro hf
      have hmin := minimal_frame w
      have hsmall := ho.2 hf
      rw [Fits] at hf
      simp only at hsmall
      omega
    rw [step, append_full hr ho.1.small hf] at hs
    cases hs
    rfl
  rw [hi]

end AppendRun

open AppendRun

-- A segment that was opened again has the messages `ms` and goes on from there.
structure Segment.Recovered (s : Segment) (ms : List Written) : Prop where
  next : s.nextOffset = s.baseOffset + ms.length
  read : ∀ i (h : i < ms.length),
    s.read (s.baseOffset + i) = .ok { ms[i].1 with offset := .ofNat (s.baseOffset + i) }
  appended : ∀ s', Reaches step storable ⟨s, []⟩ s' →
    ∀ p ∈ s'.appended, s'.segment.read p.1 = .ok { p.2.1 with offset := .ofNat p.1 }

namespace Segment

variable {file : Bytes} {maxSize : ℕ}

-- A length without its message is counted as a message.
theorem nextOffset_torn (h : file = ms.flatMap Written.frame ++ torn) (hs : ∀ w ∈ ms, w.Stored)
    (hsmall : file.length < UInt32.size) (hd : (decodeBE 4 torn).map (·.1) = some n)
    (hn : torn.length < 4 + n) :
    (Segment.open file base maxSize).nextOffset = base + ms.length + 1 := by
  have hlen : position Written.frame ms ms.length + torn.length = file.length := by
    rw [position_length, h, length_append]
  have hfour : 4 ≤ torn.length := Nat.le_of_not_lt fun hlt => by
    rw [decodeBE_eq_none hlt] at hd
    cases hd
  have hms := length_le_flatMap frame_pos ms ([] : Bytes)
  rw [append_nil, ← position_length] at hms
  obtain ⟨rounds, hr⟩ := Nat.exists_eq_add_of_le' (show ms.length + 2 ≤ file.length by omega)
  obtain ⟨index, -, heq⟩ := scanIndex_messages base (rounds + 2) h hs hsmall (indexedAs_empty base)
    (Nat.zero_add ms.length)
  have hend : Segment.readLength file (position Written.frame ms ms.length + (4 + n)) = none := by
    rw [Segment.readLength, drop_eq_nil_of_le (by omega), decodeBE_eq_none (by decide)]
    rfl
  change (scanIndex file 0 base ∅ file.length).2 = _
  rw [hr, Nat.add_comm ms.length, ← Nat.add_assoc]
  refine (congrArg Prod.snd heq).trans ?_
  rw [scanIndex, readLength_tail h, hd]
  simp only
  rw [scanIndex, hend]

omit [Checksum] in
-- The lowest byte of the length that is read is one of the zeros of the next length.
theorem decodeBE_torn (rest : Bytes) (hpos : 0 < torn.length) (ht : torn.length < 4) :
    ∃ n rest', decodeBE 4 (torn ++ 0 :: 0 :: 0 :: rest) = some (256 * n, rest') := by
  rcases torn with _ | ⟨a, _ | ⟨b, _ | ⟨c, _ | _⟩⟩⟩
  case nil => cases hpos
  case cons.nil =>
    exact ⟨a.toNat * 65536, rest, by simp [decodeBE, takeBytes, decodeLE]; omega⟩
  case cons.cons.nil =>
    exact ⟨b.toNat * 256 + a.toNat * 65536, 0 :: rest,
      by simp [decodeBE, takeBytes, decodeLE]; omega⟩
  case cons.cons.cons.nil =>
    exact ⟨c.toNat + b.toNat * 256 + a.toNat * 65536, 0 :: 0 :: rest, by
      simp [decodeBE, takeBytes, decodeLE]; omega⟩
  case cons.cons.cons.cons => simp only [length_cons] at ht; omega

theorem read_behind_torn {s : Segment}
    (h : s.Contains ms (torn ++ Written.frame (plainMessage [], [])))
    (hn : s.nextOffset = s.baseOffset + ms.length + 1) (hpos : 0 < torn.length)
    (ht : torn.length < 4)
    (m : Message) : s.read (s.baseOffset + ms.length) ≠ .ok m := by
  obtain ⟨j, hj, hp, hc⟩ := h.locate ms.length
  have hsub : s.baseOffset + ms.length - (s.baseOffset + j) = ms.length - j := by omega
  have hframe : Written.frame (plainMessage [], []) =
      0 :: 0 :: 0 :: 53 :: (plainMessage []).serialize [] := by
    rw [Written.frame, frame, length_serialize_plain]
    rfl
  obtain ⟨n, rest, hd⟩ := decodeBE_torn (53 :: (plainMessage []).serialize []) hpos ht
  have hlen : readLength s.file (position Written.frame ms ms.length) = some (256 * n) := by
    rw [readLength_tail h.file, hframe, hd]
    rfl
  rw [read, if_neg (by omega)]
  simp only [hp, hc, hsub]
  rw [h.skip (by omega), Nat.add_sub_cancel' hj, ok_bind, hlen]
  simp only
  have hbehind : (s.file.drop (position Written.frame ms ms.length + 4)).length <
      57 + torn.length := by
    rw [length_drop, h.file, length_append, position_length, length_append, length_frame,
      length_serialize_plain]
    simp only [length_nil]
    omega
  cases n
  case zero =>
    -- There is no message without any bytes.
    exact fun h => by cases h
  case succ n =>
    rw [readMessage, takeBytes_eq_none (by omega), error_bind]
    exact fun h => by cases h

-- The bytes of a message that was cut off within its body begin with its length.
theorem decodeBE_cut (hw : w.Stored) (hp : torn <+: w.frame) (hne : torn ≠ w.frame)
    (hfour : 4 ≤ torn.length) :
    ∃ n, (decodeBE 4 torn).map (·.1) = some n ∧ torn.length < 4 + n := by
  refine ⟨(w.1.serialize w.2).length, ?_, ?_⟩
  · have hpre : encodeBE 4 (w.1.serialize w.2).length <+: w.frame := prefix_append ..
    obtain ⟨rest, rfl⟩ := prefix_of_prefix_length_le hpre hp (length_encodeBE .. ▸ hfour)
    rw [decodeBE_inverts 4 _ hw.small, Option.map_some]
  · rw [← length_frame]
    exact Nat.lt_of_le_of_ne hp.length_le fun heq => hne (hp.eq_of_length heq)

variable {s : Segment}

theorem Holds.recovered (h : s.Holds ms torn) (hr : s.readOnly = false)
    (ht : torn = [] ∨ (s.file.length + 57 ≤ s.maxSize → UInt32.size ≤ s.file.length + 57)) :
    s.Recovered ms where
  next := h.next
  read _ := h.read
  appended s' r := by
    rcases ht with rfl | hfull
    case inl => exact read_appended h hr r
    case inr =>
      rw [appended_full hr h.size hfull r]
      nofun

-- A message that is appended behind a part of a length is lost.
theorem Holds.not_recovered (h : s.Holds ms torn) (hr : s.readOnly = false)
    (hi : s.bytesSinceIndex < indexInterval) (hpos : 0 < torn.length) (ht : torn.length < 4)
    (hroom : s.file.length + 57 ≤ s.maxSize) (hsmall : s.file.length + 57 < UInt32.size) :
    ¬ s.Recovered ms := by
  intro hrec
  have hstored : Written.Stored (plainMessage [], []) :=
    ⟨⟨.refl _, nofun, Nat.zero_le _, nofun⟩, length_serialize_plain [] ▸ by decide⟩
  have hlen : (Written.frame (plainMessage [], [])).length = 57 := by
    rfl
  have hfits : s.Fits (plainMessage [], []) := by
    rw [Fits, h.size]
    exact hroom
  obtain ⟨s', hs', ha⟩ := append_fits hr hstored.small hfits
  have hstep : step ⟨s, []⟩ (plainMessage [], []) =
      some ⟨s', [(s.nextOffset, plainMessage [], [])]⟩ := by
    rw [step, hs']
    rfl
  have hread := hrec.appended _ (.single ⟨_, ⟨hstored, fun _ => hlen ▸ hsmall⟩, hstep⟩) _
    mem_cons_self
  have hindex := ha.index.resolve_right fun h => absurd h.1 (Nat.not_le.mpr hi)
  have hc : s'.Contains ms (torn ++ Written.frame (plainMessage [], [])) :=
    ⟨by rw [ha.file, h.file, append_assoc], by rw [hindex, ha.baseOffset]; exact h.index, h.stored⟩
  have hnext : s'.nextOffset = s'.baseOffset + ms.length + 1 := by
    rw [ha.nextOffset, h.next, ha.baseOffset]
  rw [h.next, ← ha.baseOffset] at hread
  exact read_behind_torn hc hnext hpos ht _ hread

-- How many bytes of the next message the cut leaves decides.
theorem open_recovered_iff (h : file = ms.flatMap Written.frame ++ torn)
    (hs : ∀ w ∈ ms, w.Stored) (ht : Torn Written.frame Written.Stored torn)
    (hsmall : file.length < UInt32.size) :
    (Segment.open file base maxSize).Recovered ms ↔ torn.length = 0 ∨ torn.length < 4 ∧
      (file.length + 57 ≤ maxSize → UInt32.size ≤ file.length + 57) := by
  by_cases hfour : torn.length < 4
  case pos =>
    have hh := open_holds base maxSize h hfour hs hsmall
    constructor
    · intro hrec
      by_contra hne
      have hroom : file.length + 57 ≤ maxSize ∧ file.length + 57 < UInt32.size := by omega
      exact hh.not_recovered rfl (by decide : 0 < indexInterval)
        (by omega) hfour hroom.1 hroom.2 hrec
    · rintro (hz | ⟨-, hfull⟩)
      · exact hh.recovered rfl (.inl (eq_nil_of_length_eq_zero hz))
      · exact hh.recovered rfl (.inr hfull)
  case neg =>
    refine iff_of_false (fun hrec => ?_) (by omega)
    rcases ht with rfl | ⟨w, hw, hp, hne⟩
    case inl => exact hfour (by decide)
    case inr =>
      obtain ⟨n, hd, hn⟩ := decodeBE_cut hw hp hne (by omega)
      have hnext := hrec.next
      rw [nextOffset_torn h hs hsmall hd hn] at hnext
      change base + ms.length + 1 = base + ms.length at hnext
      omega

end Segment

-- A log file that was cut is recovered if the cut is between two messages, or if so little of a
-- message is left behind that it is ignored and nothing can be appended any more.
theorem recovery_iff {base max₀ : ℕ} {s : State}
    (r : Reaches step storable ⟨.new [] base max₀, []⟩ s) (cut maxSize : ℕ) :
    let file := s.segment.file.take cut
    let stored := complete Written.frame (s.appended.map Prod.snd) cut
    let torn := file.length - (stored.flatMap Written.frame).length
    (Segment.open file base maxSize).Recovered stored ↔ torn = 0 ∨ torn < 4 ∧
      (file.length + 57 ≤ maxSize → UInt32.size ≤ file.length + 57) := by
  have hnew : (Segment.new [] base max₀).Holds [] [] :=
    ⟨⟨rfl, nofun, nofun⟩, rfl, (by decide : 0 < UInt32.size), rfl⟩
  have hi := r.invariant (Inv.init hnew rfl) fun hi ho hs => hi.step ho hs
  have hfile := hi.holds.file
  rw [nil_append, append_nil] at hfile
  have hstored := hi.holds.stored
  rw [nil_append] at hstored
  obtain ⟨torn, ht, heq⟩ := take_flatMap Written.frame _ hstored cut
  rw [← hfile] at heq
  intro file stored
  have hlen : file.length - (stored.flatMap Written.frame).length = torn.length := by
    rw [show file = stored.flatMap Written.frame ++ torn from heq, length_append,
      Nat.add_sub_cancel_left]
  simp only [hlen]
  refine Segment.open_recovered_iff heq (fun w hw => ?_) ht ?_
  · exact hstored w ((complete_isPrefix Written.frame _ cut).subset hw)
  · exact Nat.lt_of_le_of_lt (length_take_le' ..) hi.holds.small

end Recovery

section Examples

local instance recoveryChecksum : Checksum := ⟨crc32⟩

-- Two messages without payloads, of which the second is cut off.
theorem recovery_iff_two : ∃ s : AppendRun.State,
    Reaches AppendRun.step AppendRun.storable ⟨.new [] 5 1000, []⟩ s ∧
      (Segment.open (s.segment.file.take 57) 5 1000).Recovered [(plainMessage [], [])] ∧
      ¬ (Segment.open (s.segment.file.take 58) 5 1000).Recovered [(plainMessage [], [])] := by
  obtain ⟨s, r, ha, hl⟩ : ∃ s, Reaches AppendRun.step AppendRun.storable ⟨.new [] 5 1000, []⟩ s ∧
      s.appended.map Prod.snd = [(plainMessage [], []), (plainMessage [], [])] ∧
      s.segment.file.length = 114 :=
    Reaches.exists_of_run [(plainMessage [], []), (plainMessage [], [])] (by decide +kernel)
  have h₁ := recovery_iff r 57 1000
  have h₂ := recovery_iff r 58 1000
  simp only [length_take, ha, hl] at h₁ h₂
  exact ⟨s, r, h₁.mpr (by decide +kernel), fun h => absurd (h₂.mp h) (by decide +kernel)⟩

-- The rest of a message is counted, and a message behind the rest of a length cannot be read.
theorem cut_not_recovered : ∃ s : AppendRun.State,
    Reaches AppendRun.step AppendRun.storable ⟨.new [] 5 1000, []⟩ s ∧
      complete Written.frame (s.appended.map Prod.snd) 100 = [(plainMessage [], [])] ∧
      (Segment.open (s.segment.file.take 100) 5 1000).nextOffset = 7 ∧
      ((Segment.open (s.segment.file.take 58) 5 1000).append (plainMessage []) []).2 = .ok 6 ∧
      ((Segment.open (s.segment.file.take 58) 5 1000).append (plainMessage []) []).1.read 6 =
        .error (.error (.serialization "Message too short")) :=
  Reaches.exists_of_run [(plainMessage [], []), (plainMessage [], [])] (by decide +kernel)

end Examples

end MessageQueue
