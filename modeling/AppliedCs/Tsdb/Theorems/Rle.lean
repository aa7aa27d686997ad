import AppliedCs.Tsdb.Rle
import AppliedCs.Tsdb.Theorems.Wal

namespace Tsdb

open Codec WalEntry List

def encodeRun (r : UInt64 × UInt64) : Bytes :=
  encodeVarint r.1 ++ encodeVarint r.2

def expandRun (r : UInt64 × UInt64) : List UInt64 :=
  replicate r.2.toNat r.1

variable {runs : List (UInt64 × UInt64)} {vs : List UInt64}

theorem decodeRuns_flatMap (hf : (runs.flatMap encodeRun).length ≤ fuel) :
    decodeRuns fuel (runs.flatMap encodeRun) = .ok (runs.flatMap expandRun) := by
  induction runs generalizing fuel
  case nil => cases fuel <;> rfl
  case cons r runs hi =>
    have hp := length_encodeVarint_pos r.1
    have hne : encodeVarint r.2 ++ runs.flatMap encodeRun ≠ [] :=
      append_ne_nil_of_left_ne_nil (encodeVarint_ne_nil _) _
    rw [flatMap_cons, encodeRun, append_assoc] at hf ⊢
    simp only [length_append] at hf
    cases fuel
    case zero => omega
    case succ fuel =>
      have hrest := @hi fuel (by omega)
      rw [decodeRuns, takeVarint_encodeVarint, ok_bind]
      · simp only [List.isEmpty_iff, if_neg hne, takeVarint_encodeVarint, ok_bind, hrest]
        rfl
      · exact fun h => encodeVarint_ne_nil _ (append_eq_nil_iff.mp h).1

namespace RleEncoder

variable {e : RleEncoder}

-- The run that is not in the buffer yet.
def pending (e : RleEncoder) : List (UInt64 × UInt64) :=
  e.currentValue.toList.map (·, e.runLength)

-- The encoder has taken the values `vs`.
def Encodes (e : RleEncoder) (vs : List UInt64) : Prop :=
  ∃ runs, e.buffer = runs.flatMap encodeRun ∧ (runs ++ e.pending).flatMap expandRun = vs

theorem Encodes.encode (h : e.Encodes vs) (hl : vs.length + 1 < UInt64.size) :
    (e.encode v).Encodes (vs ++ [v]) := by
  obtain ⟨runs, hb, rfl⟩ := h
  obtain ⟨_ | w, n, buffer⟩ := e
  case none => exact ⟨runs, hb, by simp [RleEncoder.encode, pending, expandRun]⟩
  case some =>
    simp only [RleEncoder.encode]
    split
    case isTrue hw =>
      have hn : (n + 1).toNat = n.toNat + 1 := by
        have hle : n.toNat + 1 < UInt64.size := by
          simp [pending, expandRun] at hl
          omega
        rw [UInt64.toNat_add]
        exact Nat.mod_eq_of_lt hle
      exact ⟨runs, hb, by simp [pending, expandRun, hn, hw, replicate_succ']⟩
    case isFalse =>
      refine ⟨runs ++ [(w, n)], ?_, by simp [pending, expandRun]⟩
      simp [flushRun, encodeRun, show buffer = _ from hb]

theorem Encodes.encodeAll (h : e.Encodes vs) (hl : (vs ++ l).length < UInt64.size) :
    (e.encodeAll l).Encodes (vs ++ l) := by
  induction l generalizing e vs
  case nil => simpa [RleEncoder.encodeAll] using h
  case cons u l hi =>
    rw [append_cons] at hl ⊢
    exact hi (h.encode (by simp at hl ⊢; omega)) hl

theorem finish_eq (hb : e.buffer = runs.flatMap encodeRun) :
    e.finish = (runs ++ e.pending).flatMap encodeRun := by
  obtain ⟨_ | w, n, buffer⟩ := e <;> simp_all [finish, flushRun, pending, encodeRun]

end RleEncoder

theorem rle_round_trip (h : vs.length < UInt64.size) : rleDecompress (rleCompress vs) = .ok vs := by
  have hnil : RleEncoder.Encodes {} [] := ⟨[], rfl, rfl⟩
  have ⟨runs, hb, hv⟩ := hnil.encodeAll (l := vs) h
  rw [rleCompress, rleDecompress, RleEncoder.finish_eq hb, decodeRuns_flatMap le_rfl, hv]
  rfl

theorem rle_round_trip_two_runs : rleDecompress (rleCompress [7, 7, 7, 300]) = .ok [7, 7, 7, 300] :=
  rle_round_trip (by decide)

end Tsdb
