import Mathlib.Order.Defs.LinearOrder
import Mathlib.Tactic.Common

-- Positions in a stream that are counted modulo `2 ^ 32` from some base.
namespace SerialNumber

scoped instance uint32Order : LinearOrder UInt32 where
  le_refl := UInt32.le_refl
  le_trans _ _ _ := UInt32.le_trans
  lt_iff_le_not_ge _ _ := by simpa [UInt32.not_le] using UInt32.le_of_lt
  le_antisymm _ _ := UInt32.le_antisymm
  le_total := UInt32.le_total
  toDecidableLE := inferInstance
  toDecidableEq := inferInstance
  toDecidableLT := inferInstance

def number (b : UInt32) (n : ℕ) : UInt32 :=
  b + UInt32.ofNat n

@[simp]
theorem number_zero : number b 0 = b :=
  UInt32.add_zero b

theorem number_add : number b (m + n) = number b m + UInt32.ofNat n := by
  rw [number, number, UInt32.ofNat_add, UInt32.add_assoc]

theorem toNat_number_sub_of_le (h : n ≤ m) (hm : m < UInt32.size) :
    (number b m - number b n).toNat = m - n := by
  obtain ⟨k, rfl⟩ := Nat.exists_eq_add_of_le h
  have hk : number b (n + k) - number b n = UInt32.ofNat k := by grind [number_add]
  rw [hk, Nat.add_sub_cancel_left,
    UInt32.toNat_ofNat_of_lt' (Nat.lt_of_le_of_lt (Nat.le_add_left k n) hm)]

theorem toNat_number_sub_of_gt (h : m < n) (hn : n < UInt32.size) :
    (number b m - number b n).toNat = UInt32.size - (n - m) := by
  have hk : number b m - number b n = -(number b n - number b m) := by grind
  have hs := toNat_number_sub_of_le (b := b) (Nat.le_of_lt h) hn
  rw [hk, UInt32.toNat_neg, hs]
  exact Nat.mod_eq_of_lt (by omega)

theorem zero_lt_toInt32 (a : UInt32) : 0 < a.toInt32 ↔ 0 < a.toNat ∧ a.toNat < UInt32.size / 2 := by
  have ha := a.toNat_lt
  have hi : a.toInt32.toInt = a.toBitVec.toInt := rfl
  rw [Int32.lt_iff_toInt_lt, hi, BitVec.toInt_eq_toNat_cond]
  simp only [UInt32.size, Int32.toInt_zero, UInt32.toNat_toBitVec]
  split <;> omega

-- The sign of the difference tells which of two positions is the later one, as long as they are
-- less than half the range apart.
theorem after_iff (hm : m < UInt32.size / 2) (hn : n < UInt32.size / 2) :
    0 < (number b m - number b n).toInt32 ↔ n < m := by
  rw [zero_lt_toInt32]
  rcases Nat.lt_or_ge m n with hlt | hle
  · rw [toNat_number_sub_of_gt hlt (by omega)]
    omega
  · rw [toNat_number_sub_of_le hle (by omega)]
    omega

end SerialNumber
