import AppliedCs.Lib.Transition
import AppliedCs.MessageQueue.Theorems.Segment

namespace MessageQueue

open Codec Transition SegmentManager Segment List

section Log

variable [Checksum] {w : Written} {ws ws₁ ws₂ : List Written} {i n base : ℕ}

section Numbered

omit [Checksum]

theorem length_numbered : (numbered base ws).length = ws.length := by
  induction ws generalizing base
  case nil => rfl
  case cons _ hi => exact congrArg (· + 1) hi

theorem numbered_append :
    numbered base (ws₁ ++ ws₂) = numbered base ws₁ ++ numbered (base + ws₁.length) ws₂ := by
  induction ws₁ generalizing base
  case nil => rfl
  case cons w ws₁ hi =>
    rw [cons_append, numbered, hi, numbered, length_cons, Nat.add_assoc,
      Nat.add_comm 1, cons_append]

theorem getLast?_numbered (base : ℕ) (hne : ws ≠ []) (h : base + ws.length ≤ UInt64.size) :
    ((numbered base ws).getLast?.map fun m => m.offset.toNat + 1) = some (base + ws.length) := by
  obtain ⟨ws, w, rfl⟩ := eq_nil_or_concat ws |>.resolve_left hne
  rw [concat_eq_append, length_append, length_singleton] at h ⊢
  rw [numbered_append, numbered, numbered, getLast?_append]
  refine congrArg some ?_
  change (UInt64.ofNat (base + ws.length)).toNat + 1 = _
  rw [UInt64.toNat_ofNat_of_lt' (by omega), Nat.add_assoc]

end Numbered

-- The messages of a list of segments, of which each begins where the one before ends.
def Covers : ℕ → List Segment → List Written → Prop
  | _,    [],      ws => ws = []
  | base, s :: ss, ws => ∃ ws₁ ws₂, ws = ws₁ ++ ws₂ ∧ s.baseOffset = base ∧ s.Holds ws₁ [] ∧
    ws₁ ≠ [] ∧ Covers (base + ws₁.length) ss ws₂

namespace Covers

variable {s : Segment} {ss : List Segment}

theorem base_lt (h : Covers base ss ws) (hs : s ∈ ss) :
    base ≤ s.baseOffset ∧ s.nextOffset ≤ base + ws.length ∧ s.baseOffset < s.nextOffset := by
  induction ss generalizing base ws
  case nil => cases hs
  case cons s' ss hi =>
    obtain ⟨ws₁, ws₂, rfl, hb, hh, hne, hc⟩ := h
    rw [length_append]
    rcases mem_cons.mp hs with rfl | hs
    case inl =>
      have := length_pos_iff.mpr hne
      have := hh.next
      omega
    case inr =>
      have := hi hc hs
      omega

theorem map (h : Covers base ss ws) (hb : ∀ s, (f s).baseOffset = s.baseOffset)
    (hf : ∀ {s ws}, Holds s ws [] → (f s).Holds ws []) : Covers base (ss.map f) ws := by
  induction ss generalizing base ws
  case nil => exact h
  case cons s ss hi =>
    obtain ⟨ws₁, ws₂, rfl, hb', hh, hne, hc⟩ := h
    exact ⟨ws₁, ws₂, rfl, (hb s).trans hb', hf hh, hne, hi hc⟩

theorem append (h : Covers base ss ws₁) (hb : s.baseOffset = base + ws₁.length)
    (hs : s.Holds ws₂ [])
    (hne : ws₂ ≠ []) : Covers base (ss ++ [s]) (ws₁ ++ ws₂) := by
  induction ss generalizing base ws₁
  case nil =>
    obtain rfl : ws₁ = [] := h
    exact ⟨ws₂, [], (append_nil _).symm, hb, hs, hne, rfl⟩
  case cons s' ss hi =>
    obtain ⟨ws₁, ws₃, rfl, hb', hh, hne', hc⟩ := h
    refine ⟨ws₁, ws₃ ++ ws₂, append_assoc .., hb', hh, hne', hi hc ?_⟩
    rw [hb, length_append, Nat.add_assoc]

theorem find (h : Covers base ss ws) (hi : i < ws.length) : ∃ s,
    ss.reverse.find? (fun s => s.baseOffset ≤ base + i ∧ base + i < s.nextOffset) = some s ∧
      s.read (base + i) = .ok { ws[i].1 with offset := .ofNat (base + i) } := by
  induction ss generalizing base ws i
  case nil =>
    rw [show ws = [] from h] at hi
    exact absurd hi (Nat.not_lt_zero _)
  case cons s ss hind =>
    obtain ⟨ws₁, ws₂, rfl, rfl, hh, hne, hc⟩ := h
    rw [reverse_cons, find?_append]
    by_cases hlt : i < ws₁.length
    case pos =>
      have hn : ss.reverse.find? (fun s' =>
          s'.baseOffset ≤ s.baseOffset + i ∧ s.baseOffset + i < s'.nextOffset) = none := by
        refine find?_eq_none.mpr fun s' hs' => ?_
        have := hc.base_lt (mem_reverse.mp hs')
        simp only [decide_eq_true_eq]
        omega
      have hself : s.baseOffset ≤ s.baseOffset + i ∧ s.baseOffset + i < s.nextOffset := by
        rw [hh.next]
        omega
      refine ⟨s, by rw [hn, find?_singleton, if_pos (decide_eq_true hself)]; rfl, ?_⟩
      rw [hh.read hlt, getElem_append_left hlt]
    case neg =>
      have hle : ws₁.length ≤ i := by omega
      have hi₂ : i - ws₁.length < ws₂.length := by rw [length_append] at hi; omega
      obtain ⟨s', hf, hr⟩ := hind hc hi₂
      have heq : s.baseOffset + ws₁.length + (i - ws₁.length) = s.baseOffset + i := by omega
      rw [heq] at hf hr
      refine ⟨s', by rw [hf]; rfl, ?_⟩
      rw [hr, getElem_append_right hle]

theorem readSegments_zero [Allocation] : readSegments acc current 0 ss = .ok (acc, current, 0) := by
  cases ss <;> rfl

-- The messages from `i` on, up to `n` of them, the offset behind them and how many are missing.
theorem readSegments [Allocation] (h : Covers base ss ws) (acc : List Message)
    (hn : n ≤ Allocation.maxMessages) (hl : base + ws.length ≤ UInt64.size) :
    readSegments acc (base + i) n ss =
      .ok (acc ++ numbered (base + i) ((ws.drop i).take n),
        base + i + ((ws.drop i).take n).length, n - ((ws.drop i).take n).length) := by
  induction ss generalizing base ws acc i n
  case nil =>
    rw [show ws = [] from h, drop_nil, take_nil, numbered, append_nil]
    rfl
  case cons s ss hind =>
    by_cases hz : n = 0
    case pos =>
      rw [hz, readSegments_zero, take_zero, numbered, append_nil]
      rfl
    obtain ⟨ws₁, ws₂, rfl, rfl, hh, hne, hc⟩ := h
    rw [length_append] at hl
    rw [readSegments, hh.next, if_neg hz, drop_append]
    by_cases hlt : i < ws₁.length
    case neg =>
      -- The range begins behind this segment.
      have hi : s.baseOffset + i = s.baseOffset + ws₁.length + (i - ws₁.length) := by omega
      have hnil : ws₁.drop i = [] := drop_eq_nil_of_le (by omega)
      rw [hnil, nil_append, if_pos (by omega), hi, hind hc acc hn (by omega)]
    rw [if_neg (by omega), if_pos (by omega), hh.readRange hn, ok_bind, take_append,
      Nat.sub_eq_zero_of_le hlt.le, drop_zero]
    have hlen : ((ws₁.drop i).take n).length = min n (ws₁.length - i) := by
      rw [length_take, length_drop]
    have hnil : (ws₁.drop i).take n ≠ [] := by
      rw [← length_pos_iff, hlen]
      omega
    have hlast := getLast?_numbered (s.baseOffset + i) hnil (by rw [hlen]; omega)
    simp only [hlast, Option.getD_some, length_numbered]
    by_cases hmore : n ≤ ws₁.length - i
    case pos =>
      -- The range ends in this segment.
      rw [length_drop, Nat.sub_eq_zero_of_le hmore, take_zero, append_nil, hlen,
        Nat.min_eq_left hmore, Nat.sub_self, readSegments_zero]
    have hcur : s.baseOffset + i + ((ws₁.drop i).take n).length =
        s.baseOffset + ws₁.length + 0 := by rw [hlen]; omega
    have hrem : n - ((ws₁.drop i).take n).length = n - (ws₁.drop i).length := by
      rw [hlen, length_drop]
      omega
    rw [hcur, hrem, hind hc _ (by omega) (by omega), drop_zero, numbered_append, hcur,
      append_assoc, length_append, ← Nat.add_assoc, hcur, ← Nat.sub_sub, hrem]

end Covers

-- What the manager of the segments holds for the messages that were appended.
structure SegmentManager.Holds (m : SegmentManager) (log₁ log₂ : List Written) : Prop where
  covers : Covers 0 m.segments log₁
  base : m.activeSegment.baseOffset = log₁.length
  active : m.activeSegment.Holds log₂ []
  writable : m.activeSegment.readOnly = false
  maxSize : m.activeSegment.maxSize = m.maxSegmentSize
  small : m.maxSegmentSize < UInt32.size

namespace SegmentManager

variable {m : SegmentManager} {log₁ log₂ : List Written}

theorem Holds.endOffset (h : m.Holds log₁ log₂) : m.endOffset = (log₁ ++ log₂).length := by
  rw [SegmentManager.endOffset, h.active.next, h.base, length_append]

theorem Holds.read (h : m.Holds log₁ log₂) (hi : i < (log₁ ++ log₂).length) :
    m.read i = .ok { (log₁ ++ log₂)[i].1 with offset := .ofNat i } := by
  rw [SegmentManager.read, h.base]
  by_cases hlt : i < log₁.length
  case pos =>
    obtain ⟨s, hf, hr⟩ := h.covers.find hlt
    rw [Nat.zero_add] at hf hr
    rw [if_neg (by omega), hf]
    simp only
    rw [hr, getElem_append_left hlt]
  case neg =>
    have hi₂ : i - log₁.length < log₂.length := by rw [length_append] at hi; omega
    have hr := h.active.read hi₂
    rw [h.base, Nat.add_sub_cancel' (by omega)] at hr
    rw [if_pos (by omega), hr, getElem_append_right (by omega)]

theorem Holds.readRange [Allocation] (h : m.Holds log₁ log₂) (hn : n ≤ Allocation.maxMessages)
    (hl : log₁.length ≤ UInt64.size) :
    m.readRange i n = .ok (numbered i (((log₁ ++ log₂).drop i).take n)) := by
  have hs := h.covers.readSegments [] (i := i) hn (by omega)
  rw [Nat.zero_add] at hs
  rw [SegmentManager.readRange, hs, ok_bind, nil_append, drop_append, take_append, h.base]
  have hlen : ((log₁.drop i).take n).length = min n (log₁.length - i) := by
    rw [length_take, length_drop]
  by_cases hmore : n ≤ log₁.length - i
  case pos =>
    have hrem : n - ((log₁.drop i).take n).length = 0 := by
      omega
    simp only [hrem]
    rw [if_neg fun h => Nat.lt_irrefl 0 h.1, length_drop, Nat.sub_eq_zero_of_le hmore,
      take_zero, append_nil]
    rfl
  -- All of the inactive segments behind `i` have been read.
  have hcur : i + ((log₁.drop i).take n).length = log₁.length + (i - log₁.length) := by
    omega
  have hrem : n - ((log₁.drop i).take n).length = n - (log₁.drop i).length := by
    rw [length_drop]
    omega
  have hr := h.active.readRange (i := i - log₁.length) (n := n - (log₁.drop i).length) (by omega)
  rw [h.base] at hr
  simp only [hcur, hrem]
  rw [if_pos ⟨by rw [length_drop]; omega, by omega⟩, hr, ok_bind, numbered_append, hcur]
  rfl

-- The segments of a manager, the active one at the end.
def all (m : SegmentManager) : List Segment :=
  m.segments ++ [m.activeSegment]

variable (h : m.Holds log₁ log₂)

include h

theorem Holds.sorted : SortedList.Sorted Prod.fst (m.all.map fun s => (s.baseOffset, s.file)) := by
  refine pairwise_map.mpr <| pairwise_append.mpr ⟨?_, pairwise_singleton .., ?_⟩
  · have hc := h.covers
    generalize (0 : ℕ) = base at hc
    generalize m.segments = ss at hc
    clear h
    induction ss generalizing base log₁
    case nil => exact .nil
    case cons s ss hi =>
      obtain ⟨ws₁, ws₂, -, hb, hh, hne, hc⟩ := hc
      refine .cons (fun s' hs' => ?_) (hi _ hc)
      have := length_pos_iff.mpr hne
      have := hc.base_lt hs'
      omega
  · intro s hs s' hs'
    rw [mem_singleton.mp hs']
    have := h.covers.base_lt hs
    have := h.base
    omega

theorem Holds.dir_entries : m.dir.entries = m.all.map fun s => (s.baseOffset, s.file) := by
  have hf : m.dir = (m.all.map fun s => (s.baseOffset, s.file)).foldl
      (fun dir e => dir.insert e.1 e.2) ∅ := by
    rw [foldl_map]
    rfl
  rw [hf]
  exact SortedMap.entries_foldl_insert (m := ∅) h.sorted

theorem Holds.roll (hne : log₂ ≠ []) : m.roll.Holds (log₁ ++ log₂) [] := by
  have hnext : m.activeSegment.nextOffset = (log₁ ++ log₂).length := h.endOffset
  have hfile : m.dir.get? m.activeSegment.nextOffset = none := by
    cases hg : m.dir.get? m.activeSegment.nextOffset
    case none => rfl
    case some f =>
      -- Every segment begins before the end of the log.
      have hm := h.dir_entries ▸ SortedMap.get?_eq_some.mp hg
      obtain ⟨s, hs, he⟩ := mem_map.mp hm
      have hb : s.baseOffset = m.activeSegment.nextOffset := congrArg Prod.fst he
      rw [hnext, length_append] at hb
      have := length_pos_iff.mpr hne
      rcases mem_append.mp hs with hs | hs
      case inl =>
        have := h.covers.base_lt hs
        omega
      case inr =>
        rw [mem_singleton.mp hs, h.base] at hb
        omega
  have hactive : { m.activeSegment with readOnly := true }.Holds log₂ [] := ⟨⟨h.active.file,
    h.active.index, h.active.stored⟩, h.active.size, h.active.small, h.active.next⟩
  refine ⟨h.covers.append (by simpa using h.base) hactive hne, hnext, ?_, rfl, rfl, h.small⟩
  rw [SegmentManager.roll, hfile]
  exact ⟨⟨rfl, nofun, nofun⟩, rfl, (by decide : 0 < UInt32.size), rfl⟩

theorem Holds.appendActive (hw : w.Stored)
    (hf : m.activeSegment.Fits w) : ∃ m', m.appendActive w.1 w.2 = (m', .ok m.endOffset) ∧
      m'.Holds log₁ (log₂ ++ [w]) := by
  obtain ⟨s, hs, ha⟩ := append_fits h.writable hw.small hf
  have hsmall : s.file.length < UInt32.size := by
    have hm := h.maxSize
    have hsize := h.active.size
    have hlt := h.small
    rw [Fits] at hf
    rw [ha.file, length_append]
    omega
  refine ⟨{ m with activeSegment := s }, by rw [SegmentManager.appendActive, hs]; rfl, h.covers, ?_,
    ha.holds h.active hw hsmall, ?_, ?_, h.small⟩
  · exact ha.baseOffset.trans h.base
  · exact ha.readOnly.trans h.writable
  · exact ha.maxSize.trans h.maxSize

theorem Holds.append (hw : w.Stored) (hf : w.frame.length ≤ m.maxSegmentSize) :
    ∃ m' log₁' log₂', m.append w.1 w.2 = (m', .ok (log₁ ++ log₂).length) ∧ m'.Holds log₁' log₂' ∧
      log₁' ++ log₂' = log₁ ++ log₂ ++ [w] := by
  have hempty (hnil : log₂ = []) : m.activeSegment.size = 0 := by
    rw [h.active.size, h.active.file, hnil]
    rfl
  -- A new segment takes the message.
  have hroll (hne : log₂ ≠ []) :
      ∃ m', m.roll.appendActive w.1 w.2 = (m', .ok (log₁ ++ log₂).length) ∧
      m'.Holds (log₁ ++ log₂) [w] := by
    have hr := h.roll hne
    have hfit : m.roll.activeSegment.Fits w := by
      rw [Fits, hr.active.size, hr.active.file]
      exact (Nat.zero_add _).symm ▸ hf
    obtain ⟨m', hm, hh⟩ := hr.appendActive hw hfit
    exact ⟨m', by rw [hm, hr.endOffset, append_nil], hh⟩
  by_cases hfull : m.activeSegment.isFull
  case pos =>
    have hne : log₂ ≠ [] := fun hnil => by
      have hge := of_decide_eq_true hfull
      have := frame_pos w
      rw [hempty hnil, h.maxSize] at hge
      omega
    obtain ⟨m', hm, hh⟩ := hroll hne
    refine ⟨m', _, _, ?_, hh, rfl⟩
    simp only [SegmentManager.append, if_pos hfull, hm]
  by_cases hfit : m.activeSegment.Fits w
  case pos =>
    obtain ⟨m', hm, hh⟩ := h.appendActive hw hfit
    refine ⟨m', _, _, ?_, hh, (append_assoc ..).symm⟩
    simp only [SegmentManager.append, if_neg hfull, hm, h.endOffset]
  have hne : log₂ ≠ [] := fun hnil => hfit <| by
    rw [Fits, hempty hnil, h.maxSize, Nat.zero_add]
    exact hf
  obtain ⟨m', hm, hh⟩ := hroll hne
  have ha : m.appendActive w.1 w.2 = (m, .error (.error .storageFull)) := by
    rw [SegmentManager.appendActive, append_full h.writable hw.small hfit]
  refine ⟨m', _, _, ?_, hh, rfl⟩
  simp only [SegmentManager.append, if_neg hfull, ha, hm]

theorem Holds.reopen {maxSegmentSize : ℕ} (hmax : maxSegmentSize < UInt32.size) :
    (new m.dir maxSegmentSize).Holds log₁ log₂ := by
  have hopen {s : Segment} {ws : List Written} (hs : s.Holds ws []) :
      (Segment.open s.file s.baseOffset maxSegmentSize).Holds ws [] :=
    Segment.open_holds _ _ hs.file (by decide) hs.stored hs.small
  have hentries : m.dir.entries.map (fun e => Segment.open e.2 e.1 maxSegmentSize) =
      m.segments.map (fun s => Segment.open s.file s.baseOffset maxSegmentSize) ++
        [Segment.open m.activeSegment.file m.activeSegment.baseOffset maxSegmentSize] := by
    rw [h.dir_entries, map_map, all, map_append]
    rfl
  simp only [new, hentries, getLast?_concat, dropLast_concat, map_map]
  refine ⟨h.covers.map (fun _ => rfl) fun hs => ?_, h.base, hopen h.active, rfl, rfl, hmax⟩
  have ho := hopen hs
  exact ⟨⟨ho.file, ho.index, ho.stored⟩, ho.size, ho.small, ho.next⟩

end SegmentManager

namespace SegmentRun

-- The manager and the messages that were appended.
structure State where
  manager : SegmentManager
  log : List Written := []

inductive Event
  | append (w : Written)
  | reopen (maxSegmentSize : ℕ)

def step (s : State) : Event → Option State
  | .append w =>
    some ⟨(s.manager.append w.1 w.2).1, s.log ++ [w]⟩
  | .reopen maxSegmentSize =>
    some { s with manager := .new s.manager.dir maxSegmentSize }

-- Messages fit into one segment, and their parts are not longer than a length with a sign can tell.
def Careful (s : State) : Event → Prop
  | .append w =>
    w.Valid ∧ w.frame.length ≤ s.manager.maxSegmentSize ∧ s.log.length < UInt64.size
  | .reopen maxSegmentSize => maxSegmentSize < UInt32.size

instance {s : State} : DecidablePred (Careful s) := fun event => by
  cases event <;> (dsimp only [Careful]; infer_instance)

def Inv (s : State) : Prop :=
  s.log.length ≤ UInt64.size ∧ ∃ log₁ log₂, s.log = log₁ ++ log₂ ∧ s.manager.Holds log₁ log₂

theorem stored_of_fits {m : SegmentManager} (h : m.Holds log₁ log₂) (hv : w.Valid)
    (hf : w.frame.length ≤ m.maxSegmentSize) : w.Stored where
  valid := hv
  small := by
    have := h.small
    rw [length_frame] at hf
    omega

theorem Inv.append (h : Inv s) (hc : Careful s (.append w)) :
    (s.manager.append w.1 w.2).2 = .ok s.log.length ∧
      Inv ⟨(s.manager.append w.1 w.2).1, s.log ++ [w]⟩ := by
  obtain ⟨hlen, log₁, log₂, heq, hm⟩ := h
  obtain ⟨hv, hf, hlt⟩ := hc
  obtain ⟨m', log₁', log₂', ha, hm', heq'⟩ := hm.append (stored_of_fits hm hv hf) hf
  rw [ha]
  refine ⟨by rw [heq], ?_, log₁', log₂', by rw [heq', heq], hm'⟩
  rw [length_append]
  exact hlt

theorem inv_of_reaches {maxSegmentSize : ℕ} (hmax : maxSegmentSize < UInt32.size)
    (r : Reaches step Careful ⟨.new ∅ maxSegmentSize, []⟩ s) : Inv s := by
  refine r.invariant ⟨Nat.zero_le _, [], [], rfl, ?_⟩ fun {s s' e} h ho hs => ?_
  case refine_1 =>
    exact ⟨rfl, rfl, ⟨⟨rfl, nofun, nofun⟩, rfl, (by decide : 0 < UInt32.size), rfl⟩, rfl, rfl, hmax⟩
  case refine_2 =>
    cases e <;> cases hs
    case append => exact (h.append ho).2
    case reopen =>
      obtain ⟨hlen, log₁, log₂, heq, hm⟩ := h
      exact ⟨hlen, log₁, log₂, heq, hm.reopen ho⟩

-- The log is a sequence that only grows at its end.
theorem log_is_sequence [Allocation] {maxSegmentSize : ℕ} (hmax : maxSegmentSize < UInt32.size)
    {s : State} (r : Reaches step Careful ⟨.new ∅ maxSegmentSize, []⟩ s) :
    s.manager.endOffset = s.log.length ∧
      (∀ w, Careful s (.append w) → (s.manager.append w.1 w.2).2 = .ok s.log.length) ∧
      (∀ o (h : o < s.log.length), s.manager.read o = .ok { s.log[o].1 with offset := .ofNat o }) ∧
      ∀ start n, n ≤ Allocation.maxMessages →
        s.manager.readRange start n = .ok (numbered start ((s.log.drop start).take n)) := by
  have h := inv_of_reaches hmax r
  refine ⟨?_, fun w hc => (h.append hc).1, ?_⟩ <;> obtain ⟨hlen, log₁, log₂, heq, hm⟩ := h
  · rw [heq, hm.endOffset]
  · obtain ⟨manager, log⟩ := s
    obtain rfl : log = log₁ ++ log₂ := heq
    refine ⟨fun o ho => hm.read ho, fun start n hn => hm.readRange hn ?_⟩
    rw [length_append] at hlen
    omega

theorem read_long (hk : w.1.key = none) (h : maxLength < w.1.payload.length)
    (hf : w.frame.length ≤ 0xFFFFFFFF) :
    ((SegmentManager.new ∅ 0xFFFFFFFF).append w.1 w.2).1.read 0 = .error .panic := by
  have hsmall : (w.1.serialize w.2).length < UInt32.size := by
    rw [length_frame] at hf
    exact Nat.lt_of_lt_of_le (by omega) (by decide : 0xFFFFFFFF ≤ UInt32.size)
  have hfits : (SegmentManager.new ∅ 0xFFFFFFFF).activeSegment.Fits w := by
    rw [Segment.Fits]
    exact (Nat.zero_add _).symm ▸ hf
  obtain ⟨s, hs, ha⟩ := Segment.append_fits rfl hsmall hfits
  have hindex : s.offsetIndex = ∅ := ha.index.resolve_right fun h => absurd h.1 (by decide)
  have hfile : s.file.drop 0 = w.frame ++ [] := by
    rw [append_nil]
    exact ha.file
  have hactive : (SegmentManager.new ∅ 0xFFFFFFFF).append w.1 w.2 =
      ({ SegmentManager.new ∅ 0xFFFFFFFF with activeSegment := s }, .ok 0) := by
    have hfull : ¬ (SegmentManager.new ∅ 0xFFFFFFFF).activeSegment.isFull := by decide
    simp only [SegmentManager.append, if_neg hfull, SegmentManager.appendActive, hs]
    rfl
  have hbase : s.baseOffset = 0 := ha.baseOffset
  have hnext : s.nextOffset = 1 := ha.nextOffset
  rw [hactive, SegmentManager.read]
  simp only [hbase]
  rw [if_pos (Nat.le_refl 0), Segment.read, hbase, hnext, if_neg (by omega), hindex]
  have hlookup : ((MemoryIndex.lookup ∅ 0).getD 0).toNat = 0 := rfl
  simp only [hlookup, Nat.zero_sub, Segment.skip, ok_bind]
  rw [Segment.readLength_frame hsmall hfile]
  simp only
  rw [Segment.readMessage_frame hfile, Message.deserialize_long hk h hsmall]
  rfl

end SegmentRun

end Log

namespace SegmentRun

section Examples

local instance logChecksum : Checksum := ⟨crc32⟩

local instance logAllocation : Allocation where
  maxMessages := 100

def sampleMessage (key : Option Bytes) (payload : Bytes) : Message :=
  { plainMessage payload with key, headers := (∅ : Headers).insert "a" [1], timestamp := 5 }

def sampleWritten (key : Option Bytes) (payload : Bytes) : Written :=
  (sampleMessage key payload, [("a", [1])])

-- Three messages in two segments.
theorem log_is_sequence_three : ∃ s : State,
    Reaches step Careful ⟨.new ∅ 150, []⟩ s ∧ s.manager.segments.length = 1 ∧
      s.manager.read 1 = .ok { sampleMessage (some []) [7] with offset := 1 } ∧
      s.manager.readRange 1 5 =
        .ok (numbered 1 [sampleWritten (some []) [7], sampleWritten none [7, 8]]) := by
  obtain ⟨s, r, hl, hs⟩ : ∃ s, Reaches step Careful ⟨.new ∅ 150, []⟩ s ∧
      s.log = [sampleWritten none [], sampleWritten (some []) [7], sampleWritten none [7, 8]] ∧
      s.manager.segments.length = 1 :=
    Reaches.exists_of_run [.append (sampleWritten none []), .append (sampleWritten (some []) [7]),
      .reopen 140, .append (sampleWritten none [7, 8])] (by decide +kernel)
  obtain ⟨-, -, hread, hrange⟩ := log_is_sequence (by decide) r
  obtain ⟨manager, log⟩ := s
  obtain rfl : log = _ := hl
  exact ⟨_, r, hs, hread 1 (Nat.lt_of_sub_eq_succ rfl), hrange 1 5 (by decide)⟩

theorem plain_payload_unreadable (h : maxLength < n) (hn : 57 + n ≤ 0xFFFFFFFF) :
    ∃ (s : State) (w : Written), Reaches step anyEvent ⟨.new ∅ 0xFFFFFFFF, []⟩ s ∧ s.log = [w] ∧
      w.2.Perm w.1.headers.entries ∧ w.frame.length ≤ 0xFFFFFFFF ∧
      s.manager.read 0 = .error .panic := by
  have hlen : (plainMessage (.replicate n 0)).payload.length = n := length_replicate
  have hf : (Written.frame (plainMessage (.replicate n 0), [])).length ≤ 0xFFFFFFFF := by
    rw [length_frame, length_serialize_plain, length_replicate]
    omega
  exact ⟨_, _, .single ⟨.append (plainMessage (.replicate n 0), []), trivial, rfl⟩, rfl,
    .refl _, hf, read_long rfl (hlen.symm ▸ h) hf⟩

-- A message with a payload of 2 GiB is appended, but cannot be read.
theorem long_payload_unreadable : ∃ (s : State) (w : Written),
    Reaches step anyEvent ⟨.new ∅ 0xFFFFFFFF, []⟩ s ∧ s.log = [w] ∧
      w.2.Perm w.1.headers.entries ∧ w.frame.length ≤ 0xFFFFFFFF ∧
      s.manager.read 0 = .error .panic :=
  plain_payload_unreadable (n := 0x80000000) (by decide) (by decide)

end Examples

end SegmentRun

end MessageQueue
