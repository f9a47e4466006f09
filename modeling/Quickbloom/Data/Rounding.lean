import Mathlib.Analysis.SpecialFunctions.Log.Basic
import Mathlib.Data.Int.Log

namespace Quickbloom.Data

/-! # Values with a relative error -/

section Near

variable {K : Type} [Field K] [LinearOrder K] [IsStrictOrderedRing K] {part exact value : K}

/-- The value is off by at most a part of the exact one. -/
def Near (part exact value : K) : Prop := |value - exact| ≤ exact * part

theorem Near.le {limit : K} (near : Near part exact value) (bound : exact ≤ limit)
    (nonneg : 0 ≤ 1 + part) : value ≤ limit * (1 + part) := by
  have upper := (abs_le.mp near).2
  have scaled := mul_le_mul_of_nonneg_right bound nonneg
  rw [mul_add, mul_one] at scaled
  linarith

theorem Near.ge {limit : K} (near : Near part exact value) (bound : limit ≤ exact)
    (nonneg : 0 ≤ 1 - part) : limit * (1 - part) ≤ value := by
  have lower := (abs_le.mp near).1
  have scaled := mul_le_mul_of_nonneg_right bound nonneg
  rw [mul_sub, mul_one] at scaled
  linarith

theorem Near.zero (near : Near part 0 value) : value = 0 := by
  rw [Near, zero_mul, sub_zero] at near
  exact abs_nonpos_iff.mp near

end Near

end Quickbloom.Data
