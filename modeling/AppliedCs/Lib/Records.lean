import AppliedCs.Lib.Codec
import Mathlib.Data.List.Infix

-- Files of records that are read front to back, up to the first place where no whole record is
-- found. Writing may be cut off at any byte, which leaves the beginning of a record at the end.
namespace Codec

open List

variable {α ε : Type*} {d : Decoder (Except ε α)} {frame : α → Bytes} {as : List α} {torn : Bytes}

-- A record can be malformed, which ends the reading with an error.
def readRecords (d : Decoder (Except ε α)) : ℕ → Bytes → Except ε (List α)
  | 0, _ => .ok []
  | fuel + 1, bs =>
    match d bs with
    | none => .ok []
    | some (.error e, _) => .error e
    | some (.ok a, rest) => (readRecords d fuel rest).map (a :: ·)

-- Whole records are read back, and nothing is made of the beginning of one.
structure Frames (d : Decoder (Except ε α)) (frame : α → Bytes) (valid : α → Prop) : Prop where
  pos : ∀ a, 0 < (frame a).length
  read : ∀ a, valid a → ∀ rest, d (frame a ++ rest) = some (.ok a, rest)
  torn : ∀ a, valid a → ∀ bs, bs <+: frame a → bs ≠ frame a → d bs = none

-- The beginning of a record, possibly nothing of it, but not all.
def Torn (frame : α → Bytes) (valid : α → Prop) (bs : Bytes) : Prop :=
  bs = [] ∨ ∃ a, valid a ∧ bs <+: frame a ∧ bs ≠ frame a

theorem length_le_flatMap (h : ∀ a, 0 < (frame a).length) (as : List α) (rest : Bytes) :
    as.length ≤ (as.flatMap frame ++ rest).length := by
  induction as
  case nil => exact Nat.zero_le _
  case cons a as hi =>
    have := h a
    simp only [flatMap_cons, length_append, length_cons] at hi ⊢
    omega

section

variable (h : ∀ a ∈ as, ∀ rest, d (frame a ++ rest) = some (.ok a, rest))

include h

theorem readRecords_append : readRecords d (as.length + fuel) (as.flatMap frame ++ bs) =
    (readRecords d fuel bs).map (as ++ ·) := by
  induction as
  case nil =>
    rw [length_nil, Nat.zero_add, flatMap_nil, nil_append]
    cases readRecords d fuel bs <;> rfl
  case cons a as hi =>
    have hread := h a mem_cons_self (as.flatMap frame ++ bs)
    rw [length_cons, Nat.add_right_comm, flatMap_cons, append_assoc]
    simp only [readRecords, hread, hi fun b hb => h b (mem_cons_of_mem a hb)]
    cases readRecords d fuel bs <;> rfl

theorem readRecords_flatMap (ht : d torn = none) (hf : as.length ≤ fuel) :
    readRecords d fuel (as.flatMap frame ++ torn) = .ok as := by
  obtain ⟨fuel, rfl⟩ := Nat.exists_eq_add_of_le hf
  rw [readRecords_append h]
  cases fuel <;> simp [readRecords, ht, Except.map]

theorem readRecords_error (ht : d torn = some (.error e, rest)) (hf : as.length < fuel) :
    readRecords d fuel (as.flatMap frame ++ torn) = .error e := by
  obtain ⟨fuel, rfl⟩ := Nat.exists_eq_add_of_lt hf
  rw [Nat.add_assoc, readRecords_append h]
  simp [readRecords, ht, Except.map]

end

theorem Frames.length_le (h : Frames d frame valid) (as : List α) (rest : Bytes) :
    as.length ≤ (as.flatMap frame ++ rest).length :=
  length_le_flatMap h.pos as rest

theorem Frames.readRecords (h : Frames d frame valid) (hnil : d [] = none)
    (hv : ∀ a ∈ as, valid a) (ht : Torn frame valid torn) (hf : as.length ≤ fuel) :
    readRecords d fuel (as.flatMap frame ++ torn) = .ok as := by
  refine readRecords_flatMap (fun a ha => h.read a (hv a ha)) ?_ hf
  rcases ht with rfl | ⟨a, ha, hp, hne⟩
  · exact hnil
  · exact h.torn a ha _ hp hne

-- The records that are complete within the first `cut` bytes.
def complete (frame : α → Bytes) : List α → ℕ → List α
  | [], _ => []
  | a :: as, cut =>
    if (frame a).length ≤ cut then a :: complete frame as (cut - (frame a).length) else []

theorem complete_isPrefix (frame : α → Bytes) (as : List α) (cut : ℕ) :
    complete frame as cut <+: as := by
  induction as generalizing cut
  case nil => exact prefix_rfl
  case cons a as hi =>
    unfold complete
    split
    case isTrue => exact prefix_cons_inj a |>.mpr (hi _)
    case isFalse => exact nil_prefix

theorem take_flatMap (frame : α → Bytes) (as : List α) (hv : ∀ a ∈ as, valid a) (cut : ℕ) :
    ∃ torn, Torn frame valid torn ∧
      (as.flatMap frame).take cut = (complete frame as cut).flatMap frame ++ torn := by
  induction as generalizing cut
  case nil => exact ⟨[], .inl rfl, by simp [complete]⟩
  case cons a as hi =>
    unfold complete
    split
    case isTrue hle =>
      have ⟨torn, ht, heq⟩ := hi (fun b hb => hv b (mem_cons_of_mem a hb)) (cut - (frame a).length)
      refine ⟨torn, ht, ?_⟩
      rw [flatMap_cons, take_append, take_of_length_le hle, heq, flatMap_cons, append_assoc]
    case isFalse hlt =>
      have hlt := not_le.mp hlt
      refine ⟨(frame a).take cut, .inr ⟨a, hv a mem_cons_self, take_prefix _ _, ?_⟩, ?_⟩
      · intro heq
        have := congrArg length heq
        rw [length_take] at this
        omega
      · rw [flatMap_cons, take_append_of_le_length hlt.le]
        rfl

-- Where the record `i` begins.
def position (frame : α → Bytes) (as : List α) (i : ℕ) : ℕ :=
  ((as.take i).flatMap frame).length

theorem position_length : position frame as as.length = (as.flatMap frame).length := by
  rw [position, take_length]

theorem drop_position (frame : α → Bytes) (as : List α) (i : ℕ) (rest : Bytes) :
    (as.flatMap frame ++ rest).drop (position frame as i) = (as.drop i).flatMap frame ++ rest := by
  conv_lhs => rw [← take_append_drop i as]
  rw [flatMap_append, append_assoc, position, take_append_drop, drop_left]

theorem position_succ (hi : i < as.length) :
    position frame as (i + 1) = position frame as i + (frame as[i]).length := by
  rw [position, take_succ_eq_append_getElem hi, flatMap_append, length_append,
    position, flatMap_singleton]

theorem position_append (hi : i ≤ as.length) :
    position frame (as ++ as') i = position frame as i := by
  rw [position, take_append_of_le_length hi, position]

theorem position_mono (hij : i ≤ j) : position frame as i ≤ position frame as j := by
  have h : as.take i = (as.take j).take i := by rw [take_take, Nat.min_eq_left hij]
  rw [position, h]
  exact ((List.take_prefix i (as.take j)).flatMap frame).length_le

theorem position_lt (hpos : ∀ a, 0 < (frame a).length) (hij : i < j) (hj : j ≤ as.length) :
    position frame as i < position frame as j := by
  have hi : i < as.length := Nat.lt_of_lt_of_le hij hj
  have hm : position frame as (i + 1) ≤ position frame as j := position_mono hij
  have h := hpos as[i]
  rw [position_succ hi] at hm
  omega

end Codec
