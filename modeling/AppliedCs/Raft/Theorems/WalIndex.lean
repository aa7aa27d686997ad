import AppliedCs.Raft.Theorems.Wal

namespace Raft

open Codec Transition WriteAheadLog List

namespace IndexedLog

variable {w : IndexedLog} {dir : Directory}

inductive Event
  -- The process starts on some directory.
  | new (dir : Directory)
  | append (entries : List LogEntry)
  | truncateSuffix (fromIndex : ℕ)
  | compact (upTo : ℕ)

def step (crc : Bytes → UInt32) (w : IndexedLog) : Event → Option IndexedLog
  | .new dir => (new crc dir).toOption
  | .append entries => some (w.append crc entries)
  | .truncateSuffix fromIndex => some (w.truncateSuffix fromIndex)
  | .compact upTo => some (w.compact upTo)

-- The index has the keys of the entries.
def Consistent (w : IndexedLog) : Prop :=
  ∀ i, i ∈ w.index.keys ↔ i ∈ w.entries.map (·.index)

-- No file begins with a whole record whose checksum is right.
def Blank (crc : Bytes → UInt32) (dir : Directory) : Prop :=
  ∀ base ∈ dir.keys, readRecord crc (dir.file base) = none

-- The log starts on files without entries, and it is only truncated while it is empty.
def Unharmed (crc : Bytes → UInt32) (w : IndexedLog) : Event → Prop
  | .new dir => Blank crc dir
  | .append _ | .compact _ => True
  | .truncateSuffix _ => w.entries = []

section New

theorem readSegment_eq_nil : readSegment crc buffer = .ok [] ↔ readRecord crc buffer = none := by
  cases buffer
  case nil => exact iff_of_true rfl rfl
  case cons b buffer =>
    rw [readSegment, length_cons, readRecords]
    rcases readRecord crc (b :: buffer) with _ | ⟨_ | e, rest⟩
    · simp
    · simp
    · cases h : readRecords (readRecord crc) buffer.length rest <;> simp [h, Except.map]

theorem mapM_flatten_eq_nil {α β ε : Type} {f : α → Except ε (List β)} {l : List α} :
    (l.mapM f).map flatten = .ok [] ↔ ∀ a ∈ l, f a = .ok [] := by
  induction l
  case nil => simp [pure, Except.pure, Except.map]
  case cons a l hi =>
    rw [forall_mem_cons, ← hi, mapM_cons]
    rcases f a with e | bs
    · simp [bind, Except.bind, Except.map]
    · rcases l.mapM f with e | bss
      · simp [bind, Except.bind, Except.map]
      · simp [bind, Except.bind, pure, Except.pure, Except.map]

theorem recover_eq_nil : recover crc dir = .ok [] ↔ Blank crc dir := by
  rw [recover, mapM_flatten_eq_nil]
  exact forall_congr' fun base => by rw [mem_bases, readSegment_eq_nil]; rfl

theorem new_consistent_iff (h : new crc dir = .ok w) : w.Consistent ↔ Blank crc dir := by
  rw [← recover_eq_nil]
  rw [new, WriteAheadLog.new] at h
  cases hr : recover crc dir
  case error e => simp [hr, Except.map] at h
  case ok es =>
    simp only [hr, Except.map, Except.ok.injEq] at h
    subst h
    simp [Consistent, eq_nil_iff_forall_not_mem]

end New

theorem mem_keys_foldl {entries : List LogEntry} :
    i ∈ (entries.foldl (indexEntry segmentId) p).1.keys ↔
      i ∈ p.1.keys ∨ i ∈ entries.map (·.index) := by
  induction entries generalizing p
  case nil => simp
  case cons e entries hi =>
    rw [foldl_cons, hi, indexEntry, SortedMap.mem_keys_insert, map_cons, mem_cons]
    tauto

theorem Consistent.append (h : w.Consistent) (entries : List LogEntry) :
    (w.append crc entries).Consistent := by
  intro i
  rw [IndexedLog.append, mem_keys_foldl, h i, ← mem_append, ← map_append]
  rfl

theorem Consistent.compact (h : w.Consistent) (upTo : ℕ) : (w.compact upTo).Consistent := by
  intro i
  simp only [IndexedLog.compact, WriteAheadLog.compact, SortedMap.mem_keys_filter, h i, mem_map,
    mem_filter]
  grind

-- The index keeps what the log drops, and drops what the log keeps.
theorem Consistent.truncateSuffix_iff (h : w.Consistent) (fromIndex : ℕ) :
    (w.truncateSuffix fromIndex).Consistent ↔ w.entries = [] := by
  simp only [Consistent, IndexedLog.truncateSuffix, WriteAheadLog.truncateSuffix,
    SortedMap.mem_keys_filter, h _, mem_map, mem_filter]
  constructor
  case mp =>
    intro hc
    refine eq_nil_iff_forall_not_mem.mpr fun e he => ?_
    have := hc e.index
    grind
  case mpr =>
    intro hnil
    simp [hnil]

theorem Consistent.step (h : w.Consistent) (hu : Unharmed crc w e) (hs : step crc w e = some w') :
    w'.Consistent := by
  cases e
  case new dir =>
    cases hn : new crc dir
    case error => simp [IndexedLog.step, hn, Except.toOption] at hs
    case ok w₁ =>
      obtain rfl : w₁ = w' := by simpa [IndexedLog.step, hn, Except.toOption] using hs
      exact (new_consistent_iff hn).mpr hu
  case append entries => cases hs; exact h.append entries
  case truncateSuffix fromIndex => cases hs; exact (h.truncateSuffix_iff fromIndex).mpr hu
  case compact upTo => cases hs; exact h.compact upTo

end IndexedLog

open IndexedLog

theorem wal_index_matches_entries {crc : Bytes → UInt32} {w : IndexedLog}
    (r : Reaches (step crc) (Unharmed crc) {} w) (i : ℕ) :
    i ∈ w.index.keys ↔ i ∈ w.entries.map (·.index) :=
  r.invariant (P := Consistent) (fun _ => by simp) Consistent.step i

section Sample

instance (crc : Bytes → UInt32) (w : IndexedLog) (e : Event) : Decidable (Unharmed crc w e) :=
  match e with
  | .new dir => inferInstanceAs <|
    Decidable <| ∀ base ∈ dir.keys, readRecord crc (dir.file base) = none
  | .append _ | .compact _ => .isTrue trivial
  | .truncateSuffix _ => inferInstanceAs <| Decidable <| w.entries = []

def noOpAt (index : ℕ) : LogEntry where
  term := 1
  index := index
  command := .noOp
  entryType := .noOp

theorem wal_index_matches_entries_compacted :
    ∃ w, Reaches (step crc32) (Unharmed crc32) {} w ∧ 3 ∈ w.index.keys ∧ 1 ∉ w.index.keys := by
  obtain ⟨w, r, hw⟩ : ∃ w, Reaches (step crc32) (Unharmed crc32) {} w ∧
      w.entries = [noOpAt 2, noOpAt 3] :=
    Reaches.exists_of_run [.new ∅, .truncateSuffix 1, .append [noOpAt 1, noOpAt 2], .compact 1,
      .append [noOpAt 3]] (by decide +kernel)
  refine ⟨w, r, ?_, ?_⟩ <;> rw [wal_index_matches_entries r, hw] <;> decide

-- Truncating at 2 leaves entry 1 and the position of entry 2. After a restart no position is known.
theorem wal_index_differs_from_entries : (∃ w, Reaches (step crc32) anyEvent {} w ∧
      w.entries.map (·.index) = [1] ∧ w.index.keys = [2]) ∧
    ∃ w, Reaches (step crc32) anyEvent {} w ∧
      w.entries.map (·.index) = [1] ∧ w.index.keys = [] :=
  ⟨Reaches.exists_of_run [.append [noOpAt 1, noOpAt 2], .truncateSuffix 2] (by decide +kernel),
    Reaches.exists_of_run [.new <| AList.insert 1 (record crc32 (noOpAt 1)) ∅]
      (by decide +kernel)⟩

end Sample

end Raft
