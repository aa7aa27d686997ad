import AppliedCs.Lib.Records
import AppliedCs.MessageQueue.Segment
import AppliedCs.MessageQueue.Theorems.Message

namespace MessageQueue

open Codec Segment List Message

variable [Checksum] {w : Written} {ws : List Written} {rest tail : Bytes} {i j n : ℕ}

def Written.frame (w : Written) : Bytes :=
  Segment.frame w.1 w.2

-- What can be read back from a file.
structure Written.Stored (w : Written) : Prop where
  valid : w.Valid
  small : (w.1.serialize w.2).length < UInt32.size

open Written

theorem length_frame : w.frame.length = 4 + (w.1.serialize w.2).length := by
  rw [Written.frame, Segment.frame, length_append, length_encodeBE]

theorem frame_pos (w : Written) : 0 < w.frame.length := by
  rw [length_frame]
  omega

def plainMessage (payload : Bytes) : Message where
  id := ⟨.replicate 16 1, rfl⟩
  key := none
  payload := payload
  headers := ∅
  timestamp := 0
  offset := 0
  partition := 0

theorem length_serialize_plain (payload : Bytes) :
    ((plainMessage payload).serialize []).length = 53 + payload.length := by
  simp only [serialize, encodeFields, plainMessage, encodeKey,
    encodeSized, length_append, length_cons, length_encodeBE, length_replicate,
    flatMap_nil, length_nil]
  omega

-- The messages as they are read, with their offsets.
def numbered (offset : ℕ) : List Written → List Message
  | [] => []
  | w :: ws => { w.1 with offset := .ofNat offset } :: numbered (offset + 1) ws

namespace Segment

variable {s : Segment} {file : Bytes} {p : ℕ}

theorem readLength_frame (hw : (w.1.serialize w.2).length < UInt32.size)
    (h : file.drop p = w.frame ++ rest) : readLength file p = some (w.1.serialize w.2).length := by
  rw [Written.frame, frame, append_assoc] at h
  rw [readLength, h, decodeBE_inverts 4 _ hw, Option.map_some]

theorem readMessage_frame (h : file.drop p = w.frame ++ rest) :
    readMessage file p (w.1.serialize w.2).length = deserialize (w.1.serialize w.2) := by
  have hd : file.drop (p + 4) = w.1.serialize w.2 ++ rest := by
    rw [← drop_drop, h, Written.frame, frame]
    exact drop_left' (length_encodeBE ..)
  rw [readMessage, hd, takeBytes_append]

def IndexedAs (index : MemoryIndex) (baseOffset : ℕ) (ws : List Written) : Prop :=
  ∀ e ∈ index.entries, ∃ i < ws.length,
    e.1 = baseOffset + i ∧ e.2.toNat = position Written.frame ws i

-- The messages at the beginning of the file, with what stands behind them.
structure Contains (s : Segment) (ws : List Written) (tail : Bytes) : Prop where
  file : s.file = ws.flatMap Written.frame ++ tail
  index : IndexedAs s.offsetIndex s.baseOffset ws
  stored : ∀ w ∈ ws, w.Stored

structure Holds (s : Segment) (ws : List Written) (tail : Bytes) : Prop extends
    s.Contains ws tail where
  size : s.size = s.file.length
  small : s.file.length < UInt32.size
  next : s.nextOffset = s.baseOffset + ws.length

theorem indexedAs_empty (base : ℕ) : IndexedAs ∅ base ws :=
  fun _ he => absurd he not_mem_nil

section

variable (h : file = ws.flatMap Written.frame ++ tail)

include h

theorem drop_file (hi : i < ws.length) : file.drop (position Written.frame ws i) =
      ws[i].frame ++ ((ws.drop (i + 1)).flatMap Written.frame ++ tail) := by
  rw [h, drop_position, drop_eq_getElem_cons hi, flatMap_cons, append_assoc]

theorem readLength_file (hs : ∀ w ∈ ws, w.Stored)
    (hi : i < ws.length) : readLength file (position Written.frame ws i) =
      some (ws[i].1.serialize ws[i].2).length :=
  readLength_frame (hs _ (getElem_mem hi)).small (drop_file h hi)

theorem readLength_tail : readLength file (position Written.frame ws ws.length) =
      (decodeBE 4 tail).map (·.1) := by
  rw [readLength, h, drop_position, drop_length]
  rfl

end

theorem Contains.readLength (h : s.Contains ws tail) (hi : i < ws.length) :
    readLength s.file (position Written.frame ws i) = some (ws[i].1.serialize ws[i].2).length :=
  readLength_file h.file h.stored hi

theorem Contains.readMessage (h : s.Contains ws tail) (hi : i < ws.length) :
    readMessage s.file (position Written.frame ws i) (ws[i].1.serialize ws[i].2).length =
      .ok ws[i].1 := by
  have hw := h.stored _ (getElem_mem hi)
  rw [readMessage_frame (drop_file h.file hi), deserialize_serialize hw.valid hw.small]

theorem position_next (hi : i < ws.length) : position Written.frame ws (i + 1) =
      position Written.frame ws i + (4 + (ws[i].1.serialize ws[i].2).length) := by
  rw [position_succ hi, length_frame]

-- The index leads to the beginning of a message that is not behind the one that is looked for.
theorem Contains.locate (h : s.Contains ws tail) (i : ℕ) : ∃ j ≤ i,
    ((s.offsetIndex.lookup (s.baseOffset + i)).getD 0).toNat = position Written.frame ws j ∧
      s.findOffsetAtPosition ((s.offsetIndex.lookup (s.baseOffset + i)).getD 0) =
        s.baseOffset + j := by
  have hlt {a b : ℕ} (ha : a < b) (hb : b < ws.length) :
      position Written.frame ws a < position Written.frame ws b :=
    position_lt frame_pos ha hb.le
  rw [MemoryIndex.lookup, findOffsetAtPosition]
  cases hl : s.offsetIndex.entries.reverse.find? (·.1 ≤ s.baseOffset + i)
  case none =>
    refine ⟨0, Nat.zero_le _, rfl, ?_⟩
    have hn : s.offsetIndex.entries.reverse.find? (·.2 ≤ 0) = none := by
      rw [find?_eq_none] at hl ⊢
      intro e he hp
      obtain ⟨j, hj, hoff, hpos⟩ := h.index e (mem_reverse.mp he)
      have hgt := hl e he
      simp only [decide_eq_true_eq, UInt32.le_iff_toNat_le, hpos, hoff] at hp hgt
      have := hlt (a := 0) (b := j) (by omega) hj
      simp only [UInt32.toNat_zero] at hp
      omega
    simp only [Option.map_none, Option.getD_none, hn, Nat.add_zero]
  case some e =>
    have he := mem_reverse.mp (mem_of_find?_eq_some hl)
    have hle := find?_some hl
    obtain ⟨j, hj, hoff, hpos⟩ := h.index e he
    simp only [decide_eq_true_eq, hoff] at hle
    refine ⟨j, by omega, hpos, ?_⟩
    simp only [Option.map_some, Option.getD_some]
    cases hf : s.offsetIndex.entries.reverse.find? (·.2 ≤ e.2)
    case none =>
      rw [find?_eq_none] at hf
      exact absurd (decide_eq_true (UInt32.le_refl e.2)) (hf e (mem_reverse.mpr he))
    case some e' =>
      -- No later message begins at or before this position.
      have hmax := s.offsetIndex.sorted.le_of_find?_reverse hf he
        (decide_eq_true (UInt32.le_refl _))
      have hle' := find?_some hf
      obtain ⟨j', hj', hoff', hpos'⟩ := h.index e' (mem_reverse.mp (mem_of_find?_eq_some hf))
      simp only [decide_eq_true_eq, UInt32.le_iff_toNat_le, hpos, hpos'] at hle'
      have : ¬ j < j' := fun hjj => absurd (hlt hjj hj') (Nat.not_lt.mpr hle')
      simp only
      omega

theorem Contains.skip (h : s.Contains ws tail) (hi : j + n ≤ ws.length) :
    skip s.file (position Written.frame ws j) n =
      .ok (position Written.frame ws (j + n)) := by
  induction n generalizing j
  case zero => rfl
  case succ n hn =>
    have hj : j < ws.length := by omega
    rw [skip, h.readLength hj]
    simp only
    rw [← position_next hj, hn (by omega), Nat.add_right_comm, Nat.add_assoc]

theorem Holds.read (h : s.Holds ws tail) (hi : i < ws.length) :
    s.read (s.baseOffset + i) = .ok { ws[i].1 with offset := .ofNat (s.baseOffset + i) } := by
  obtain ⟨j, hj, hp, hc⟩ := h.locate i
  have hr : ¬ (s.baseOffset + i < s.baseOffset ∨ s.baseOffset + i ≥ s.nextOffset) := by
    rw [h.next]
    omega
  have hn : s.baseOffset + i - (s.baseOffset + j) = i - j := by omega
  rw [Segment.read, if_neg hr]
  simp only [hp, hc, hn]
  rw [h.skip (by omega), Nat.add_sub_cancel' hj, ok_bind, h.readLength hi]
  simp only
  rw [h.readMessage hi]
  rfl

theorem Contains.skipRange (h : s.Contains ws tail) (hi : j + n ≤ ws.length) :
    skipRange s.file (position Written.frame ws j) (s.baseOffset + j) n =
      (position Written.frame ws (j + n), s.baseOffset + (j + n)) := by
  induction n generalizing j
  case zero => rfl
  case succ n hn =>
    have hj : j < ws.length := by omega
    have hjn : j + 1 + n = j + (n + 1) := by omega
    rw [skipRange, h.readLength hj]
    simp only
    rw [← position_next hj, Nat.add_assoc, hn (by omega), hjn]

theorem Holds.readMessages (h : s.Holds ws tail) :
    readMessages s.file (position Written.frame ws i) (s.baseOffset + i) s.nextOffset n =
      .ok (numbered (s.baseOffset + i) ((ws.drop i).take n)) := by
  induction n generalizing i
  case zero => rfl
  case succ n hn =>
    rw [readMessages, h.next]
    by_cases hi : i < ws.length
    case neg =>
      rw [if_neg (by omega), drop_eq_nil_of_le (by omega)]
      rfl
    have hn := hn (i := i + 1)
    rw [h.next] at hn
    rw [if_pos (by omega), h.readLength hi]
    simp only
    rw [h.readMessage hi, ok_bind, ← position_next hi, Nat.add_assoc, hn, ok_bind,
      drop_eq_getElem_cons hi, take_succ_cons]
    rfl

theorem Holds.readRange [Allocation] (h : s.Holds ws tail) (hn : n ≤ Allocation.maxMessages) :
    s.readRange (s.baseOffset + i) n =
      .ok (numbered (s.baseOffset + i) ((ws.drop i).take n)) := by
  rw [Segment.readRange, if_neg (Nat.not_lt.mpr hn), h.next]
  by_cases hi : i < ws.length
  case neg =>
    rw [if_pos (by omega), drop_eq_nil_of_le (by omega)]
    cases n <;> rfl
  obtain ⟨j, hj, hp, hc⟩ := h.locate i
  have hsub : s.baseOffset + i - (s.baseOffset + j) = i - j := by omega
  rw [if_neg (by omega)]
  simp only [hp, hc, hsub]
  rw [h.skipRange (by omega), Nat.add_sub_cancel' hj, ← h.next]
  exact h.readMessages

-- Whether the segment takes the message.
def Fits (s : Segment) (w : Written) : Prop :=
  s.size + w.frame.length ≤ s.maxSize

theorem append_full (hr : s.readOnly = false) (hw : (w.1.serialize w.2).length < UInt32.size)
    (hf : ¬ s.Fits w) : s.append w.1 w.2 = (s, .error (.error .storageFull)) := by
  have hlen := length_frame (w := w)
  simp only [Fits, hlen] at hf
  rw [append, if_neg (by simp [hr])]
  simp only [Nat.mod_eq_of_lt hw]
  rw [if_pos (by omega)]

-- What a successful append changes.
structure Appended (s s' : Segment) (w : Written) : Prop where
  baseOffset : s'.baseOffset = s.baseOffset
  maxSize : s'.maxSize = s.maxSize
  readOnly : s'.readOnly = s.readOnly
  nextOffset : s'.nextOffset = s.nextOffset + 1
  file : s'.file = s.file ++ w.frame
  size : s'.size = s.size + w.frame.length
  index : s'.offsetIndex = s.offsetIndex ∨ indexInterval ≤ s.bytesSinceIndex ∧
    s'.offsetIndex = s.offsetIndex.insert s.nextOffset (.ofNat s.size)

theorem append_fits (hr : s.readOnly = false) (hw : (w.1.serialize w.2).length < UInt32.size)
    (hf : s.Fits w) : ∃ s', s.append w.1 w.2 = (s', .ok s.nextOffset) ∧ s.Appended s' w := by
  have hlen := length_frame (w := w)
  simp only [Fits, hlen] at hf
  rw [Segment.append, if_neg (by simp [hr])]
  simp only [Nat.mod_eq_of_lt hw]
  rw [if_neg (by omega)]
  split
  case isTrue hb => exact ⟨_, rfl, rfl, rfl, rfl, rfl, rfl, by simp only; omega, .inr ⟨hb, rfl⟩⟩
  case isFalse => exact ⟨_, rfl, rfl, rfl, rfl, rfl, rfl, by simp only; omega, .inl rfl⟩

theorem Appended.holds (ha : s.Appended s' w) (h : s.Holds ws []) (hw : w.Stored)
    (hs : s'.file.length < UInt32.size) : s'.Holds (ws ++ [w]) [] where
  file := by
    rw [ha.file, h.file, flatMap_append, flatMap_singleton, append_nil, append_nil]
  size := by rw [ha.size, h.size, ha.file, length_append]
  small := hs
  next := by rw [ha.nextOffset, h.next, ha.baseOffset, length_append]; rfl
  stored := forall_mem_append.mpr ⟨h.stored, forall_mem_singleton.mpr hw⟩
  index e he := by
    have hold (he : e ∈ s.offsetIndex.entries) : ∃ i < (ws ++ [w]).length,
        e.1 = s'.baseOffset + i ∧ e.2.toNat = position Written.frame (ws ++ [w]) i := by
      obtain ⟨i, hi, ho, hp⟩ := h.index e he
      refine ⟨i, by rw [length_append]; omega, ha.baseOffset ▸ ho, ?_⟩
      rw [hp, position_append hi.le]
    rcases ha.index with heq | ⟨-, heq⟩ <;> rw [heq] at he
    case inl => exact hold he
    case inr =>
      rcases SortedList.mem_insert he with rfl | he
      case inr => exact hold he
      case inl =>
        refine ⟨ws.length, by rw [length_append]; exact Nat.lt_succ_self _, ?_, ?_⟩
        · rw [h.next, ha.baseOffset]
        · rw [position_append (Nat.le_refl _), position_length, ← append_nil (ws.flatMap _),
            ← h.file, ← h.size]
          exact UInt32.toNat_ofNat_of_lt' (h.size ▸ h.small)

theorem scanIndex_messages (base rounds : ℕ) (h : file = ws.flatMap Written.frame ++ tail)
    (hs : ∀ w ∈ ws, w.Stored) (hsmall : file.length < UInt32.size) (hi : IndexedAs index base ws)
    (hn : i + n = ws.length) :
    ∃ index', IndexedAs index' base ws ∧
      scanIndex file (position Written.frame ws i) (base + i) index (rounds + n) =
        scanIndex file (position Written.frame ws ws.length) (base + ws.length) index' rounds := by
  induction n generalizing i index
  case zero => exact ⟨index, hi, by rw [← hn]; rfl⟩
  case succ n ih =>
    have hlt : i < ws.length := by omega
    have hpos : position Written.frame ws i < UInt32.size := by
      have hle : position Written.frame ws i ≤ position Written.frame ws ws.length :=
        position_mono hlt.le
      rw [position_length] at hle
      rw [h, length_append] at hsmall
      omega
    have hi' : IndexedAs (index.insert (base + i)
        (.ofNat (position Written.frame ws i))) base ws := by
      intro e he
      rcases SortedList.mem_insert he with rfl | he
      case inl => exact ⟨i, hlt, rfl, UInt32.toNat_ofNat_of_lt' hpos⟩
      case inr => exact hi e he
    obtain ⟨index', hi', heq⟩ := ih hi' (by omega : i + 1 + n = ws.length)
    refine ⟨index', hi', ?_⟩
    rw [← Nat.add_assoc, scanIndex, readLength_file h hs hlt]
    simp only
    rw [← position_next hlt, Nat.add_assoc, heq]

theorem length_le_file (h : file = ws.flatMap Written.frame ++ tail) : ws.length ≤ file.length :=
  h ▸ length_le_flatMap frame_pos ws tail

theorem open_holds (base maxSize : ℕ) (h : file = ws.flatMap Written.frame ++ tail)
    (ht : tail.length < 4) (hs : ∀ w ∈ ws, w.Stored) (hsmall : file.length < UInt32.size) :
    (Segment.open file base maxSize).Holds ws tail := by
  obtain ⟨rounds, hr⟩ := Nat.exists_eq_add_of_le' (length_le_file h)
  obtain ⟨index, hi, heq⟩ := scanIndex_messages base rounds h hs hsmall (indexedAs_empty base)
    (Nat.zero_add ws.length)
  have hend : scanIndex file 0 base ∅ file.length = (index, base + ws.length) := by
    rw [hr]
    refine heq.trans ?_
    cases rounds
    case zero => rfl
    case succ => rw [scanIndex, readLength_tail h, decodeBE_eq_none ht]; rfl
  refine ⟨⟨h, ?_, hs⟩, rfl, hsmall, ?_⟩
  · change IndexedAs (scanIndex file 0 base ∅ file.length).1 base ws
    rw [hend]
    exact hi
  · change (scanIndex file 0 base ∅ file.length).2 = base + ws.length
    rw [hend]

end Segment

end MessageQueue
