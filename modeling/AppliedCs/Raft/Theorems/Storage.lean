import AppliedCs.Raft.Storage
import Mathlib.Algebra.Order.BigOperators.Group.List

namespace Raft

open Codec

namespace KeyValues

variable {m₁ m₂ : KeyValues}

-- The number of bytes that the pairs of a map take.
def pairSize (key value : Bytes) : ℕ :=
  (8 + key.length) + (8 + value.length)

def weight (m : KeyValues) : ℕ :=
  (m.entries.map fun p => pairSize p.1 p.2).sum

theorem length_encode (m : KeyValues) : m.encode.length = 8 + m.weight := by
  have hp : ∀ p, (encodePair p).length = pairSize p.1 p.2 := by
    simp [encodePair, encodeBytes, pairSize, Nat.add_assoc]
  simp [encode, encodeSeq, weight, List.length_flatMap, hp]

theorem weight_congr (h : ∀ key, m₁.lookup key = m₂.lookup key) : m₁.weight = m₂.weight := by
  have hp : m₁.entries.Perm m₂.entries := by
    refine List.lookup_ext m₁.nodupKeys m₂.nodupKeys fun key value => ?_
    have := h key
    simp only [AList.lookup] at this
    rw [this]
  exact (hp.map _).sum_nat

theorem weight_insert_le (m : KeyValues) (key value : Bytes) :
    weight (m.insert key value) ≤ pairSize key value + m.weight := by
  exact Nat.add_le_add_left (((List.kerase_sublist key m.entries).map _).sum_le_sum (by simp)) _

theorem weight_foldl_insert_le (ps : List (Bytes × Bytes)) (m : KeyValues) :
    weight (ps.foldl (fun m p => m.insert p.1 p.2) m) ≤
      (ps.map fun p => pairSize p.1 p.2).sum + m.weight := by
  induction ps generalizing m
  case nil => simp
  case cons p ps hi =>
    have := hi (m.insert p.1 p.2)
    have := m.weight_insert_le p.1 p.2
    simp only [List.foldl_cons, List.map_cons, List.sum_cons]
    omega

theorem weight_le_of_decode (h : decode bs = some (m, rest)) : 8 + m.weight ≤ bs.length := by
  have ⟨⟨ps, rest'⟩, hd, he⟩ := Option.map_eq_some_iff.mp h
  cases he
  have hlen := decodeSeq_consumes (decodePair_consumes decodeBytes_consumes decodeBytes_consumes)
    _ _ _ hd
  have hle := weight_foldl_insert_le ps ∅
  have hz : weight ∅ = 0 := rfl
  simp only [pairSize] at hle hlen
  omega

-- What a receiver that expects a file with a snapshot makes of the bytes of a map.
def readAsSnapshot (m : KeyValues) : Option (Snapshot × KeyValues) :=
  (Snapshot.decode m.encode).bind fun (snapshot, _) =>
    (decode snapshot.data).map fun (data, _) => (snapshot, data)

end KeyValues

theorem Snapshot.length_of_decode (h : Snapshot.decode bs = some (s, rest)) :
    24 + s.data.length ≤ bs.length := by
  have ⟨⟨⟨index, term, data⟩, rest'⟩, hd, he⟩ := Option.map_eq_some_iff.mp h
  cases he
  have := decodePair_consumes (decodeLE_consumes 8)
    (decodePair_consumes (decodeLE_consumes 8) decodeBytes_consumes) _ _ _ hd
  simp only at *
  omega

-- The header of the snapshot takes bytes that the map inside it lacks.
theorem KeyValues.lookup_ne_of_readAsSnapshot {m : KeyValues}
    (h : m.readAsSnapshot = some (s, data)) : ¬∀ key, data.lookup key = m.lookup key := by
  intro heq
  have ⟨⟨s', _⟩, hs, h⟩ := Option.bind_eq_some_iff.mp h
  have ⟨⟨data', _⟩, hd, he⟩ := Option.map_eq_some_iff.mp h
  cases he
  have := Snapshot.length_of_decode hs
  have := weight_le_of_decode hd
  have := weight_congr heq
  have := m.length_encode
  omega

theorem SnapshotStore.writeAt_eq_append (h : file.length = offset) (chunk : Bytes) :
    writeAt file offset chunk = file ++ chunk := by
  subst h
  unfold writeAt
  split
  case isTrue h => simp [h]
  case isFalse h => simp

end Raft
