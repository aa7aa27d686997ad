import AppliedCs.Lib.Bits
import AppliedCs.Tsdb.Gorilla

namespace Tsdb

open Bits List

theorem shiftRight_and_one (byte : UInt8) (j : Fin 8) :
    (byte >>> UInt8.ofNat j &&& 1 == 1) = byte.toNat.testBit j := by
  have hj : (UInt8.ofNat j).toNat % 8 = j := by simp
  rw [Bool.eq_iff_iff, beq_iff_eq, ← UInt8.toNat_inj, UInt8.toNat_and, UInt8.toNat_shiftRight, hj]
  simp [Nat.testBit, Nat.and_comm 1, Nat.and_one_is_mod]

theorem testBit_one_shiftLeft :
    ∀ i j : Fin 8, ((1 : UInt8) <<< UInt8.ofNat j).toNat.testBit i = decide (i = j) := by
  decide

theorem testBit_or_shiftLeft (byte : UInt8) (i j : Fin 8) :
    (byte ||| 1 <<< UInt8.ofNat j).toNat.testBit i = (byte.toNat.testBit i || decide (i = j)) := by
  rw [UInt8.toNat_or, Nat.testBit_or, testBit_one_shiftLeft]

namespace BitBuffer

variable {b : BitBuffer} {bits : List Bool}

-- The bits that have been written. Those of the current byte that are still free are zero.
structure Holds (b : BitBuffer) (bits : List Bool) : Prop where
  room : b.bitCount < 8
  free : ∀ i < 8 - b.bitCount, b.currentByte.toNat.testBit i = false
  bits : bits = ofBytes b.data ++ (toBits 8 b.currentByte.toNat).take b.bitCount

theorem holds_empty : Holds {} [] where
  room := by decide
  free := by simp
  bits := rfl

theorem Holds.writeBit (h : b.Holds bits) (bit : Bool) :
    (b.writeBit bit).Holds (bits ++ [bit]) := by
  have hr := h.room
  let byte := if bit then b.currentByte ||| 1 <<< UInt8.ofNat (7 - b.bitCount) else b.currentByte
  -- The write changes the first free bit only.
  have hb (i : ℕ) (hi : i < 8) :
      byte.toNat.testBit i = if i = 7 - b.bitCount then bit else b.currentByte.toNat.testBit i := by
    have hf := h.free (7 - b.bitCount) (by omega)
    have ho := testBit_or_shiftLeft b.currentByte ⟨i, hi⟩ ⟨7 - b.bitCount, by omega⟩
    cases bit <;> simp only [byte] <;> grind
  have ht : (toBits 8 byte.toNat).take (b.bitCount + 1) =
      (toBits 8 b.currentByte.toNat).take b.bitCount ++ [bit] := by
    rw [take_toBits_succ hr, hb _ (by omega), if_pos rfl]
    congr 1
    exact take_toBits_congr fun i hi hk => by rw [hb i hi, if_neg (by omega)]
  rw [BitBuffer.writeBit]
  split
  case isTrue hk =>
    refine ⟨by simp, by simp, ?_⟩
    rw [hk, take_of_length_le (by simp)] at ht
    simp [h.bits, ofBytes, ← ht, byte]
  case isFalse hk =>
    refine ⟨by simp; omega, fun i hi => ?_, by simp [h.bits, ← ht, byte]⟩
    change i < 8 - (b.bitCount + 1) at hi
    exact (hb i (by omega)).trans <| (if_neg (by omega)).trans <| h.free i (by omega)

theorem Holds.writeBits (h : b.Holds bits) (value : BitVec 64) (n : ℕ) :
    (b.writeBits value n).Holds (bits ++ toBits n value.toNat) := by
  induction n generalizing b bits
  case zero => simpa [BitBuffer.writeBits, toBits] using h
  case succ n hi =>
    have hb : (value >>> n &&& 1 == 1) = value.toNat.testBit n := by
      rw [Bool.eq_iff_iff, beq_iff_eq, ← BitVec.toNat_inj]
      simp [Nat.testBit, Nat.and_comm 1, Nat.and_one_is_mod]
    have := hi (h.writeBit (value.toNat.testBit n))
    rw [append_assoc] at this
    rwa [BitBuffer.writeBits, hb]

-- The last byte is filled up with zeros.
theorem Holds.finish (h : b.Holds bits) : ∃ pad, ofBytes b.finish = bits ++ pad := by
  rw [BitBuffer.finish]
  split
  case isTrue =>
    refine ⟨(toBits 8 b.currentByte.toNat).drop b.bitCount, ?_⟩
    simp [h.bits, ofBytes]
  case isFalse hk =>
    simp [h.bits, show b.bitCount = 0 by omega]

end BitBuffer

namespace BitReader

variable {r : BitReader} {rest : List Bool}

-- The bits that are still to be read.
structure Ahead (r : BitReader) (bits : List Bool) : Prop where
  inside : r.bitIndex < 8
  bits : bits = (ofBytes (r.data.drop r.byteIndex)).drop r.bitIndex

theorem ahead_start (data : List UInt8) : Ahead { data } (ofBytes data) :=
  ⟨by simp, rfl⟩

theorem Ahead.readBit (h : r.Ahead (bit :: rest)) :
    ∃ r', r.readBit = .ok (bit, r') ∧ r'.Ahead rest := by
  have hi := h.inside
  have hd : r.byteIndex < r.data.length := by
    by_contra hn
    have hb := h.bits
    rw [drop_eq_nil_of_le (Nat.le_of_not_lt hn)] at hb
    simp [ofBytes] at hb
  have hb := h.bits
  rw [drop_eq_getElem_cons hd, ofBytes, flatMap_cons,
    drop_append_of_le_length (by simp; omega), drop_toBits hi, cons_append] at hb
  obtain ⟨rfl, rfl⟩ := cons.inj hb
  have hs := shiftRight_and_one r.data[r.byteIndex] ⟨7 - r.bitIndex, by omega⟩
  simp only [BitReader.readBit, getElem?_eq_getElem hd, hs]
  split
  case isTrue hk =>
    refine ⟨_, rfl, by simp, ?_⟩
    simp [hk, ofBytes, drop_of_length_le]
  case isFalse hk =>
    refine ⟨_, rfl, by simp; omega, ?_⟩
    rw [drop_eq_getElem_cons hd, ofBytes, flatMap_cons, drop_append_of_le_length (by simp; omega)]

theorem Ahead.readBitsFrom (h : r.Ahead (toBits n v ++ rest)) :
    ∃ r', r.readBitsFrom result n = .ok (BitVec.ofNat 64 (result.toNat * 2 ^ n + v % 2 ^ n), r') ∧
      r'.Ahead rest := by
  induction n generalizing r result
  case zero => exact ⟨r, by simp [BitReader.readBitsFrom, Nat.mod_one], h⟩
  case succ n hi =>
    obtain ⟨r₁, h₁, ha₁⟩ := h.readBit
    obtain ⟨r₂, h₂, ha₂⟩ := @hi r₁ (result <<< 1 ||| BitVec.ofNat 64 (v.testBit n).toNat) ha₁
    refine ⟨r₂, ?_, ha₂⟩
    rw [BitReader.readBitsFrom, h₁]
    refine h₂.trans ?_
    rw [shiftLeft_one_or, mod_two_pow_succ, BitVec.ofNat_add, BitVec.ofNat_mul,
      BitVec.ofNat_toNat, BitVec.setWidth_eq, ← BitVec.ofNat_mul, ← BitVec.ofNat_add]
    congr 3
    ring

theorem Ahead.readBits (h : r.Ahead (toBits n v ++ rest)) (hv : v < 2 ^ n) :
    ∃ r', r.readBits n = .ok (BitVec.ofNat 64 v, r') ∧ r'.Ahead rest := by
  obtain ⟨r', hr, ha⟩ := @Ahead.readBitsFrom _ _ _ _ 0 h
  exact ⟨r', by simpa [BitReader.readBits, Nat.mod_eq_of_lt hv] using hr, ha⟩

end BitReader

end Tsdb
