import Mathlib.Data.Nat.Bitwise

namespace Quickbloom.Data

/-! # Single bits and low masks of words -/

variable {width : Nat}

theorem getLsbD_one_shiftLeft {bit : Nat} (inside : bit < width) (t : Nat) :
    ((1 : BitVec width) <<< bit).getLsbD t = decide (t = bit) := by
  have power : (1 : BitVec width) <<< bit = BitVec.twoPow width bit := rfl
  rw [power, BitVec.getLsbD_twoPow]
  simp [inside, eq_comm]

theorem shifted_bit (positive : 0 < width) (word : BitVec width) (t : Nat) :
    (word >>> t &&& 1).toNat = (word.getLsbD t).toNat := by
  have one : (1 : BitVec width).toNat = 1 := BitVec.toNat_one positive
  rw [BitVec.toNat_and, one, Nat.and_one_is_mod, BitVec.toNat_ushiftRight,
    Nat.shiftRight_eq_div_pow, ← BitVec.testBit_toNat, Nat.toNat_testBit]

section Masks

variable {k : Nat} {mask : BitVec width}

theorem mask_width (ones : mask.toNat + 1 = 2 ^ k) : k ≤ width := by
  have bound := mask.isLt
  exact (Nat.pow_le_pow_iff_right (by omega)).mp (by omega : 2 ^ k ≤ 2 ^ width)

/-- One less than a power of two is a low mask. -/
theorem low_mask_toNat {word : BitVec width} (power : word.toNat = 2 ^ k) :
    (word - 1).toNat + 1 = 2 ^ k := by
  have nonzero := Nat.two_pow_pos k
  have positive : 0 < width := by
    by_contra narrow
    obtain rfl : width = 0 := by omega
    have fits := word.isLt
    omega
  have one : (1 : BitVec width).toNat = 1 := BitVec.toNat_one positive
  rw [BitVec.toNat_sub_of_le (by rw [BitVec.le_def]; omega), one, power]
  exact Nat.sub_add_cancel nonzero

theorem and_mask_toNat (ones : mask.toNat + 1 = 2 ^ k) (word : BitVec width) :
    (word &&& mask).toNat = word.toNat % 2 ^ k := by
  have value : mask.toNat = 2 ^ k - 1 := by omega
  rw [BitVec.toNat_and, value, Nat.and_two_pow_sub_one_eq_mod]

theorem mask_bit (ones : mask.toNat + 1 = 2 ^ k) (t : Nat) : mask.getLsbD t = decide (t < k) := by
  have value : mask.toNat = 2 ^ k - 1 := by omega
  rw [← BitVec.testBit_toNat, value, Nat.testBit_two_pow_sub_one]

end Masks

end Quickbloom.Data
