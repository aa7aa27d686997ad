import AppliedCs.Lib.Codec
import Mathlib.Data.Nat.Bitwise

-- Numbers as lists of bits, highest bit first.
namespace Bits

open Codec

def toBits : ℕ → ℕ → List Bool
  | 0,     _ => []
  | n + 1, v => v.testBit n :: toBits n v

def ofBytes (bs : Bytes) : List Bool :=
  bs.flatMap (toBits 8 ·.toNat)

@[simp]
theorem length_toBits : (toBits n v).length = n := by
  induction n <;> simp [toBits, *]

theorem getElem_toBits (h : i < (toBits n v).length) : (toBits n v)[i] = v.testBit (n - 1 - i) := by
  induction n generalizing i
  case zero => simp at h
  case succ n hi =>
    cases i
    case zero => simp [toBits]
    case succ i => simp [toBits, hi, Nat.sub_sub, Nat.add_comm]

theorem take_toBits_succ (h : k < n) :
    (toBits n v).take (k + 1) = (toBits n v).take k ++ [v.testBit (n - 1 - k)] := by
  rw [List.take_succ_eq_append_getElem (by simpa using h), getElem_toBits]

theorem drop_toBits (h : k < n) :
    (toBits n v).drop k = v.testBit (n - 1 - k) :: (toBits n v).drop (k + 1) := by
  rw [List.drop_eq_getElem_cons (by simpa using h), getElem_toBits]

-- The first bits are the highest ones.
theorem take_toBits_congr (h : ∀ i < n, n - k ≤ i → v.testBit i = w.testBit i) :
    (toBits n v).take k = (toBits n w).take k := by
  refine List.ext_getElem (by simp) fun i h₁ h₂ => ?_
  simp at h₁
  simp only [List.getElem_take, getElem_toBits]
  exact h _ (by omega) (by omega)

theorem mod_two_pow_succ : v % 2 ^ (n + 1) = (v.testBit n).toNat * 2 ^ n + v % 2 ^ n := by
  rw [Nat.mod_pow_succ, Nat.toNat_testBit, Nat.mul_comm, Nat.add_comm]

-- A bit is read behind those before it.
theorem shiftLeft_one_or (x : BitVec w) (bit : Bool) :
    x <<< 1 ||| BitVec.ofNat w bit.toNat = BitVec.ofNat w (x.toNat * 2 + bit.toNat) := by
  have hd : x <<< 1 &&& BitVec.ofNat w bit.toNat = 0 := by
    ext i hi
    cases bit <;> cases i <;> simp
  rw [← BitVec.add_eq_or_of_and_eq_zero _ _ hd, BitVec.ofNat_add, BitVec.ofNat_mul,
    BitVec.ofNat_toNat, BitVec.setWidth_eq, BitVec.shiftLeft_eq_mul_twoPow]
  congr 2
  exact BitVec.eq_of_toNat_eq (by simp [BitVec.toNat_twoPow])

end Bits
