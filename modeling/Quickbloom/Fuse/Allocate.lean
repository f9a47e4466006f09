import Mathlib.Analysis.Complex.ExponentialBounds
import Quickbloom.Data.Rounding
import Quickbloom.Fuse.Placing

namespace Quickbloom.Fuse

open Quickbloom.Data Quickbloom.Machine
open Quickbloom.Source (Uint32 Uint64)
open Quickbloom.Source.BinaryFuse

/-! # Allocation

The sizes come out of `double` arithmetic. It is enough that each operation and
each logarithm is close to the exact value.
-/

/-- What the sizes need of the floating-point arithmetic. -/
structure Accurate (lib : Libc) : Prop where
  nearest : ∀ x, x = 0 ∨ 1 / 2 ^ 64 ≤ x → x ≤ 2 ^ 64 → Near (1 / 2 ^ 50) x (lib.nearest x)
  log : ∀ x : ℚ, 1 ≤ x → x ≤ 2 ^ 64 → Near (1 / 2 ^ 50) (Real.log x) (lib.log x : ℝ)

section Arithmetic

variable {lib : Libc} {x lower upper : ℚ}

theorem Accurate.nearest_le (accurate : Accurate lib) (normal : x = 0 ∨ 1 / 2 ^ 64 ≤ x)
    (bound : x ≤ upper) (fits : upper ≤ 2 ^ 64) :
    lib.nearest x ≤ upper * (1 + 1 / 2 ^ 50) :=
  (accurate.nearest x normal (bound.trans fits)).le bound (by norm_num)

theorem Accurate.le_nearest (accurate : Accurate lib) (normal : x = 0 ∨ 1 / 2 ^ 64 ≤ x)
    (fits : x ≤ 2 ^ 64) (bound : lower ≤ x) : lower * (1 - 1 / 2 ^ 50) ≤ lib.nearest x :=
  (accurate.nearest x normal fits).ge bound (by norm_num)

theorem Accurate.log_le (accurate : Accurate lib) {n : Nat} (small : n ≤ 64) (positive : 1 ≤ x)
    (bound : x ≤ 2 ^ n) : lib.log x ≤ n * 0.6932 := by
  have fits : (x : ℝ) ≤ 2 ^ n := by exact_mod_cast bound
  have wide : x ≤ 2 ^ 64 := bound.trans (pow_le_pow_right₀ (by norm_num) small)
  have start : (0 : ℝ) < x := by exact_mod_cast lt_of_lt_of_le one_pos positive
  have exact : Real.log x ≤ n * 0.6931471808 := by
    calc Real.log x ≤ Real.log (2 ^ n) := Real.log_le_log start fits
      _ = n * Real.log 2 := Real.log_pow 2 n
      _ ≤ n * 0.6931471808 := mul_le_mul_of_nonneg_left Real.log_two_lt_d9.le (by positivity)
  have near := (accurate.log x positive wide).le exact (by norm_num)
  have count : (0 : ℝ) ≤ n := by positivity
  rw [← Rat.cast_le (K := ℝ)]
  push_cast
  norm_num at near ⊢
  linarith

theorem Accurate.le_log (accurate : Accurate lib) {n : Nat} (bound : 2 ^ n ≤ x)
    (fits : x ≤ 2 ^ 64) : n * 0.6931 ≤ lib.log x := by
  have above : (2 : ℝ) ^ n ≤ x := by exact_mod_cast bound
  have positive : 1 ≤ x := (one_le_pow₀ (by norm_num)).trans bound
  have exact : n * 0.6931471803 ≤ Real.log x := by
    calc n * 0.6931471803 ≤ n * Real.log 2 :=
          mul_le_mul_of_nonneg_left Real.log_two_gt_d9.le (by positivity)
      _ = Real.log (2 ^ n) := (Real.log_pow 2 n).symm
      _ ≤ Real.log x := Real.log_le_log (by positivity) above
  have near := (accurate.log x positive fits).ge exact (by norm_num)
  have count : (0 : ℝ) ≤ n := by positivity
  rw [← Rat.cast_le (K := ℝ)]
  push_cast
  norm_num at near ⊢
  linarith

theorem Accurate.one_le_log (accurate : Accurate lib) (bound : 3 ≤ x) (fits : x ≤ 2 ^ 64) :
    0.99 ≤ lib.log x := by
  have above : (3 : ℝ) ≤ x := by exact_mod_cast bound
  have exact : 1 ≤ Real.log x := by
    rw [Real.le_log_iff_exp_le (by linarith)]
    exact (Real.exp_one_lt_d9.le.trans (by norm_num)).trans above
  have near := (accurate.log x (by linarith) fits).ge exact (by norm_num)
  rw [← Rat.cast_le (K := ℝ)]
  norm_num at near ⊢
  linarith

end Arithmetic

theorem toUint32_int (whole : ℤ) (nonneg : 0 ≤ whole) (fits : whole < 2 ^ 32) :
    toUint32 whole = .ok (BitVec.ofInt 32 whole) := by
  have sign : ¬ (whole : ℚ) < 0 := by simpa using nonneg
  rw [toUint32, if_neg sign, Int.floor_intCast, if_pos ⟨nonneg, fits⟩]

theorem ofInt_toNat (whole : ℤ) (nonneg : 0 ≤ whole) (fits : whole < 2 ^ 32) :
    ((BitVec.ofInt 32 whole).toNat : ℤ) = whole := by
  rw [BitVec.toNat_ofInt]
  omega

theorem shiftedOne_ofInt (whole : ℤ) (nonneg : 0 ≤ whole) (fits : whole < 32) :
    shiftedOne (BitVec.ofInt 32 whole) = .ok ((1 : Uint32) <<< whole.toNat) := by
  have value := ofInt_toNat whole nonneg (by omega)
  have amount : (BitVec.ofInt 32 whole).toNat = whole.toNat := by omega
  rw [shiftedOne, amount, if_neg (by omega)]

section Sizes

variable {lib : Libc} {size : Uint32}

/-- The logarithm of 3.33, which is no `double` itself. -/
theorem Accurate.base_bounds (accurate : Accurate lib) :
    0.99 ≤ lib.log (lib.nearest 3.33) ∧ lib.log (lib.nearest 3.33) ≤ 1.4 := by
  have lower := accurate.le_nearest (.inr (by norm_num)) (by norm_num) (le_refl (3.33 : ℚ))
  have upper := accurate.nearest_le (.inr (by norm_num)) (le_refl (3.33 : ℚ)) (by norm_num)
  norm_num at lower upper
  constructor
  · apply accurate.one_le_log <;> norm_num <;> linarith
  · have bound := accurate.log_le (n := 2) (x := lib.nearest 3.33) (by norm_num)
      (by norm_num; linarith) (by norm_num; linarith)
    norm_num at bound ⊢
    linarith

theorem Accurate.quotient_bounds (accurate : Accurate lib) (positive : 1 ≤ size.toNat) :
    0 ≤ lib.nearest (lib.log size.toNat / lib.log (lib.nearest 3.33)) ∧
      lib.nearest (lib.log size.toNat / lib.log (lib.nearest 3.33)) ≤ 22.5 := by
  have small := size.isLt
  obtain ⟨base, base_upper⟩ := accurate.base_bounds
  have one : (1 : ℚ) ≤ size.toNat := by exact_mod_cast positive
  have wide : (size.toNat : ℚ) ≤ 2 ^ 32 := by exact_mod_cast small.le
  have upper := accurate.log_le (n := 32) (by norm_num) one wide
  have lower := accurate.le_log (n := 0) one (wide.trans (by norm_num))
  generalize lib.log (lib.nearest 3.33) = divisor at *
  have above : lib.log size.toNat / divisor ≤ 22.41 := by
    rw [div_le_iff₀ (by linarith)]
    norm_num at upper base ⊢
    linarith
  have below : 0 ≤ lib.log size.toNat / divisor := by
    apply div_nonneg <;> norm_num at lower ⊢ <;> linarith
  have normal : lib.log size.toNat / divisor = 0 ∨ 1 / 2 ^ 64 ≤ lib.log size.toNat / divisor := by
    by_cases single : size.toNat = 1
    · left
      have zero := accurate.log_le (n := 0) (x := size.toNat) (by norm_num) one (by simp [single])
      have none : lib.log size.toNat = 0 := by
        norm_num at zero lower
        linarith
      rw [none, zero_div]
    · right
      have two : (2 : ℚ) ^ 1 ≤ size.toNat := by
        exact_mod_cast (by omega : 2 ^ 1 ≤ size.toNat)
      have more := accurate.le_log (n := 1) two (wide.trans (by norm_num))
      rw [le_div_iff₀ (by linarith)]
      norm_num at more ⊢
      linarith
  constructor
  · have rounded := accurate.le_nearest normal (above.trans (by norm_num)) below
    simpa using rounded
  · have rounded := accurate.nearest_le normal above (by norm_num)
    norm_num at rounded ⊢
    linarith

theorem segmentLength_returns (accurate : Accurate lib) (positive : 1 ≤ size.toNat) :
    ∃ e, 2 ≤ e ∧ e ≤ 24 ∧
      binaryFuseCalculateSegmentLength lib 3 size = .ok ((1 : Uint32) <<< e) := by
  obtain ⟨lower, upper⟩ := accurate.quotient_bounds positive
  simp only [binaryFuseCalculateSegmentLength, ↓reduceIte]
  generalize lib.nearest (lib.log size.toNat / lib.log (lib.nearest 3.33)) = quotient at *
  have sum : (2.25 : ℚ) ≤ quotient + 2.25 := by linarith
  have bound : quotient + 2.25 ≤ 24.75 := by
    norm_num at upper ⊢
    linarith
  have normal : (1 : ℚ) / 2 ^ 64 ≤ quotient + 2.25 := le_trans (by norm_num) sum
  have above := accurate.nearest_le (.inr normal) bound (by norm_num)
  have below := accurate.le_nearest (.inr normal) (bound.trans (by norm_num)) sum
  generalize lib.nearest (quotient + 2.25) = result at *
  have two : 2 ≤ ⌊result⌋ := by
    rw [Int.le_floor]
    norm_num at below ⊢
    linarith
  have most : ⌊result⌋ < 25 := by
    rw [Int.floor_lt]
    norm_num at above ⊢
    linarith
  refine ⟨⌊result⌋.toNat, by omega, by omega, ?_⟩
  have converted := toUint32_int ⌊result⌋ (by omega) (by omega)
  have shifted := shiftedOne_ofInt ⌊result⌋ (by omega) (by omega)
  simp only [converted, Checked.ok_bind, shifted]

theorem Accurate.million_bounds (accurate : Accurate lib) :
    3 ≤ lib.nearest (0.25 * lib.log 1000000) ∧ lib.nearest (0.25 * lib.log 1000000) ≤ 3.4662 := by
  have upper := accurate.log_le (n := 20) (x := 1000000) (by norm_num) (by norm_num) (by norm_num)
  have lower := accurate.le_log (n := 19) (x := 1000000) (by norm_num) (by norm_num)
  generalize lib.log 1000000 = value at *
  norm_num at upper lower
  have above : 0.25 * value ≤ 3.4661 := by
    norm_num
    linarith
  have below : 3.2 ≤ 0.25 * value := by
    norm_num
    linarith
  have rounded := accurate.nearest_le (.inr (le_trans (by norm_num) below)) above (by norm_num)
  have rounded_lower := accurate.le_nearest (.inr (le_trans (by norm_num) below))
    (above.trans (by norm_num)) below
  constructor
  · norm_num at rounded_lower ⊢
    linarith
  · norm_num at rounded ⊢
    linarith

theorem binaryFuseMax_eq (a b : ℚ) : binaryFuseMax a b = max a b := by
  rw [binaryFuseMax, max_def']
  grind

/-- The size factor from `2 ^ n` keys on. -/
theorem Accurate.factor_le (accurate : Accurate lib) {n : Nat} {limit : ℚ} (some_ : 1 ≤ n)
    (many : 2 ^ n ≤ size.toNat) (enough : 3.4662 ≤ limit * (n * 0.6931)) (fits : limit ≤ 8) :
    binaryFuseCalculateSizeFactor lib 3 size ≤
      max 1.125 ((0.875 + limit * (1 + 1 / 2 ^ 50)) * (1 + 1 / 2 ^ 50)) := by
  have small := size.isLt
  have wide : (size.toNat : ℚ) ≤ 2 ^ 32 := by exact_mod_cast small.le
  have above : (2 : ℚ) ^ n ≤ size.toNat := by exact_mod_cast many
  have one : (1 : ℚ) ≤ size.toNat := (one_le_pow₀ (by norm_num)).trans above
  have lower := accurate.le_log above (wide.trans (by norm_num))
  have upper := accurate.log_le (n := 32) (by norm_num) one wide
  have count : (1 : ℚ) ≤ n := by exact_mod_cast some_
  obtain ⟨least, most⟩ := accurate.million_bounds
  rw [binaryFuseCalculateSizeFactor, if_pos rfl, binaryFuseMax_eq]
  apply max_le_max_left
  generalize lib.nearest (0.25 * lib.log 1000000) = dividend at *
  have divisor : 0 < lib.log size.toNat := by linarith
  have positive : 0 < limit := by
    by_contra nonpositive
    have bound : limit * (n * 0.6931) ≤ 0 := mul_nonpos_of_nonpos_of_nonneg (by linarith) (by linarith)
    linarith
  have ratio : dividend / lib.log size.toNat ≤ limit := by
    rw [div_le_iff₀ divisor]
    have scaled := mul_le_mul_of_nonneg_left lower positive.le
    linarith
  have normal : 1 / 2 ^ 64 ≤ dividend / lib.log size.toNat := by
    rw [le_div_iff₀ divisor]
    norm_num at upper ⊢
    linarith
  have quotient := accurate.nearest_le (.inr normal) ratio (fits.trans (by norm_num))
  have nonneg := accurate.le_nearest (.inr normal) (ratio.trans (fits.trans (by norm_num)))
    (div_nonneg (by linarith) divisor.le)
  rw [zero_mul] at nonneg
  apply accurate.nearest_le (.inr (le_trans (by norm_num) (le_add_of_nonneg_right nonneg)))
  · linarith
  · norm_num at quotient ⊢
    linarith

theorem factor_ge : 1.125 ≤ binaryFuseCalculateSizeFactor lib 3 size := by
  rw [binaryFuseCalculateSizeFactor, if_pos rfl, binaryFuseMax_eq]
  exact le_max_left _ _

theorem Accurate.factor_many (accurate : Accurate lib) (many : 2 ^ 20 ≤ size.toNat) :
    binaryFuseCalculateSizeFactor lib 3 size ≤ 1.1255 := by
  have factor := accurate.factor_le (n := 20) (by norm_num) many
    (by norm_num : (3.4662 : ℚ) ≤ 0.2501 * ((20 : ℕ) * 0.6931)) (by norm_num)
  exact factor.trans (by norm_num)

/-- Few keys get up to 5.9 cells each, many keys hardly more than 1.125. -/
theorem Accurate.product_le (accurate : Accurate lib) (two : 2 ≤ size.toNat)
    (many : size.toNat ≤ 3800000000) :
    size.toNat * binaryFuseCalculateSizeFactor lib 3 size ≤ 4277000000 := by
  have keys : (size.toNat : ℚ) ≤ 3800000000 := by exact_mod_cast many
  have nonneg : (0 : ℚ) ≤ size.toNat := by positivity
  by_cases few : size.toNat ≤ 2 ^ 20
  · have fewer : (size.toNat : ℚ) ≤ 2 ^ 20 := by exact_mod_cast few
    have factor := accurate.factor_le (n := 1) (le_refl _) two
      (by norm_num : (3.4662 : ℚ) ≤ 5.01 * ((1 : ℕ) * 0.6931)) (by norm_num)
    have bound : binaryFuseCalculateSizeFactor lib 3 size ≤ 5.9 := factor.trans (by norm_num)
    have product := mul_le_mul_of_nonneg_left bound nonneg
    norm_num at product ⊢
    linarith
  · have bound := accurate.factor_many (show 2 ^ 20 ≤ size.toNat by omega)
    have product := mul_le_mul_of_nonneg_left bound nonneg
    norm_num at product ⊢
    linarith

theorem capacity_returns (accurate : Accurate lib) (two : 2 ≤ size.toNat)
    (many : size.toNat ≤ 3800000000) :
    ∃ capacity : Uint32, toUint32 (roundDouble
        (lib.nearest (size.toNat * binaryFuseCalculateSizeFactor lib 3 size))) = .ok capacity ∧
      size.toNat ≤ capacity.toNat ∧ capacity.toNat ≤ 2 ^ 32 - 2 ^ 22 ∧
      (2 ^ 20 ≤ size.toNat → 1000 * capacity.toNat ≤ 1126 * size.toNat) := by
  have keys : (2 : ℚ) ≤ size.toNat := by exact_mod_cast two
  have most_keys : (size.toNat : ℚ) ≤ 3800000000 := by exact_mod_cast many
  have upper := accurate.product_le two many
  have lower : (size.toNat : ℚ) * 1.125 ≤ size.toNat * binaryFuseCalculateSizeFactor lib 3 size :=
    mul_le_mul_of_nonneg_left factor_ge (by linarith)
  have spare : 2 ^ 20 ≤ size.toNat →
      size.toNat * binaryFuseCalculateSizeFactor lib 3 size ≤ size.toNat * 1.1255 :=
    fun large => mul_le_mul_of_nonneg_left (accurate.factor_many large) (by linarith)
  generalize size.toNat * binaryFuseCalculateSizeFactor lib 3 size = product at *
  have normal : (1 : ℚ) / 2 ^ 64 ≤ product := le_trans (by norm_num; linarith) lower
  have above := accurate.nearest_le (.inr normal) upper (by norm_num)
  have below := accurate.le_nearest (.inr normal) (upper.trans (by norm_num)) lower
  have tight : 2 ^ 20 ≤ size.toNat →
      lib.nearest product ≤ size.toNat * 1.1255 * (1 + 1 / 2 ^ 50) := by
    intro large
    exact accurate.nearest_le (.inr normal) (spare large) (by norm_num; linarith)
  generalize lib.nearest product = result at *
  have whole : (size.toNat : ℚ) ≤ result := by
    norm_num at below
    linarith
  have most : result + 1 / 2 < 4290772992 := by
    norm_num at above ⊢
    linarith
  have floor_lower : (size.toNat : ℤ) ≤ ⌊result + 1 / 2⌋ := by
    rw [Int.le_floor]
    push_cast
    linarith
  have floor_upper : ⌊result + 1 / 2⌋ < 4290772992 := by
    rw [Int.floor_lt]
    exact_mod_cast most
  have value := ofInt_toNat ⌊result + 1 / 2⌋ (by omega) (by omega)
  refine ⟨BitVec.ofInt 32 ⌊result + 1 / 2⌋, ?_, by omega, by omega, fun large => ?_⟩
  · rw [roundDouble, if_neg (by linarith)]
    exact toUint32_int _ (by omega) (by omega)
  · have floor_le := Int.floor_le (result + 1 / 2)
    have keys_large : (1048576 : ℚ) ≤ size.toNat := by exact_mod_cast large
    have bound : (1000 * ⌊result + 1 / 2⌋ : ℚ) ≤ 1126 * size.toNat := by
      have product_tight := tight large
      norm_num at product_tight
      linarith
    have bound_int : 1000 * ⌊result + 1 / 2⌋ ≤ 1126 * (size.toNat : ℤ) := by exact_mod_cast bound
    omega

end Sizes

section Shape

variable {lib : Libc} {size : Uint32} {e : Nat} {segmentLength capacity : Uint32}

/-- The number of segments that the capacity fills, rounded up. -/
theorem segments_toNat (length : segmentLength.toNat = 2 ^ e) (bound : e ≤ 18)
    (fits : capacity.toNat ≤ 2 ^ 32 - 2 ^ 20) :
    ((capacity + segmentLength - 1) / segmentLength).toNat =
      (capacity.toNat + (2 ^ e - 1)) / 2 ^ e := by
  have small : 2 ^ e ≤ 2 ^ 18 := Nat.pow_le_pow_right (by omega) bound
  have positive := Nat.two_pow_pos e
  have one : (1 : Uint32).toNat = 1 := rfl
  rw [BitVec.toNat_udiv, BitVec.toNat_sub, BitVec.toNat_add, one, length]
  congr 1
  omega

theorem segments_twice (length : segmentLength.toNat = 2 ^ e) (bound : e ≤ 18)
    {segments : Uint32} (fits : segments.toNat * 2 ^ e ≤ 2 ^ 32 - 2 ^ 20) :
    ((segments - (3 - 1) + 3 - 1) * segmentLength + segmentLength - 1) / segmentLength =
      segments := by
  have positive := Nat.two_pow_pos e
  have back : segments - (3 - 1) + 3 - 1 = segments := by grind
  have product : (segments * segmentLength).toNat = segments.toNat * 2 ^ e := by
    rw [BitVec.toNat_mul, length, Nat.mod_eq_of_lt (by omega)]
  rw [back]
  apply BitVec.eq_of_toNat_eq
  rw [segments_toNat length bound (product ▸ fits), product, Nat.mul_comm,
    Nat.mul_add_div positive, Nat.div_eq_of_lt (by omega), Nat.add_zero]

/-- All but the last two segments can hold the first cell of a hash. -/
theorem segmentCount_toNat (segments : Uint32) :
    (if segments ≤ 3 - 1 then 1 else segments - (3 - 1)).toNat = max 1 (segments.toNat - 2) := by
  have two : ((3 - 1 : Uint32)).toNat = 2 := rfl
  by_cases few : segments ≤ 3 - 1
  · rw [if_pos few]
    rw [BitVec.le_def, two] at few
    change 1 = _
    omega
  · rw [if_neg few]
    rw [BitVec.le_def, two] at few
    rw [BitVec.toNat_sub_of_le (by rw [BitVec.le_def, two]; omega), two]
    omega

/-- The filter with the segments that a capacity needs. -/
def laidOut (size segmentLength capacity : Uint32) (granted : Bool) (filter : BinaryFuse8) :
    BinaryFuse8 :=
  let segments := (capacity + segmentLength - 1) / segmentLength
  let segmentCount := if segments ≤ 3 - 1 then 1 else segments - (3 - 1)
  let arrayLength := (segmentCount + 3 - 1) * segmentLength
  { filter with
    size, segmentLength, segmentCount, arrayLength
    segmentLengthMask := segmentLength - 1
    segmentCountLength := segmentCount * segmentLength
    fingerprints := if granted then List.replicate arrayLength.toNat 0 else [] }

theorem laidOut_shaped (length : segmentLength.toNat = 2 ^ e) (positive : 1 ≤ e) (bound : e ≤ 18)
    (fits : capacity.toNat ≤ 2 ^ 32 - 2 ^ 22) (granted : Bool) (filter : BinaryFuse8) :
    Shaped e (laidOut size segmentLength capacity granted filter) ∧
    capacity.toNat ≤ (laidOut size segmentLength capacity granted filter).arrayLength.toNat ∧
    (laidOut size segmentLength capacity granted filter).arrayLength.toNat ≤
      max (3 * 2 ^ e) (capacity.toNat + 2 ^ e) := by
  generalize enough : (capacity + segmentLength - 1) / segmentLength = segments
  generalize starts : (if segments ≤ 3 - 1 then 1 else segments - (3 - 1)) = count
  have small : 2 ^ e ≤ 2 ^ 18 := Nat.pow_le_pow_right (by omega) bound
  have two : 2 ^ 1 ≤ 2 ^ e := Nat.pow_le_pow_right (by omega) positive
  have one : (1 : Uint32).toNat = 1 := rfl
  have filled := segments_toNat length bound (show capacity.toNat ≤ 2 ^ 32 - 2 ^ 20 by omega)
  rw [enough] at filled
  have counted := segmentCount_toNat segments
  rw [starts] at counted
  have lower : segments.toNat * 2 ^ e ≤ capacity.toNat + (2 ^ e - 1) := by
    rw [filled]
    exact Nat.div_mul_le_self _ _
  have upper : capacity.toNat ≤ segments.toNat * 2 ^ e := by
    rw [filled]
    have divided := Nat.div_add_mod (capacity.toNat + (2 ^ e - 1)) (2 ^ e)
    have rest := Nat.mod_lt (capacity.toNat + (2 ^ e - 1)) (Nat.two_pow_pos e)
    rw [Nat.mul_comm] at divided
    omega
  have most : (count.toNat + 2) * 2 ^ e ≤ max (3 * 2 ^ e) (capacity.toNat + 2 ^ e) := by
    by_cases few : segments.toNat ≤ 3
    · exact (Nat.mul_le_mul_right _ (by omega)).trans (le_max_left _ _)
    · have filling : (count.toNat + 2) * 2 ^ e ≤ segments.toNat * 2 ^ e :=
        Nat.mul_le_mul_right _ (by omega)
      exact le_max_of_le_right (by omega)
  have least : segments.toNat * 2 ^ e ≤ (count.toNat + 2) * 2 ^ e :=
    Nat.mul_le_mul_right _ (by omega)
  have fewer : count.toNat * 2 ^ e ≤ (count.toNat + 2) * 2 ^ e :=
    Nat.mul_le_mul_right _ (by omega)
  have last : count + 3 - 1 = count + 2 := by grind
  have more : (count + 3 - 1).toNat = count.toNat + 2 := by
    have counts : (count.toNat + 2) * 2 ^ 1 ≤ (count.toNat + 2) * 2 ^ e :=
      Nat.mul_le_mul_left _ two
    have value : (2 : Uint32).toNat = 2 := rfl
    rw [last, BitVec.toNat_add, value, Nat.mod_eq_of_lt (by omega)]
  have array : ((count + 3 - 1) * segmentLength).toNat = (count.toNat + 2) * 2 ^ e := by
    rw [BitVec.toNat_mul, more, length, Nat.mod_eq_of_lt (by omega)]
  simp only [laidOut, enough, starts]
  refine ⟨⟨positive, bound, length, ?_, ?_, ?_, array⟩, by omega, array ▸ most⟩
  · change (segmentLength - 1).toNat + 1 = 2 ^ e
    rw [BitVec.toNat_sub_of_le (by rw [BitVec.le_def, one, length]; omega), one, length]
    omega
  · change 0 < count.toNat
    omega
  · change (count * segmentLength).toNat = count.toNat * 2 ^ e
    rw [BitVec.toNat_mul, length, Nat.mod_eq_of_lt (by omega)]

end Shape

section Call

variable {lib : Libc} {size : Uint32}

/-- No segment is longer than `2 ^ 18` cells. -/
theorem cappedLength_returns (size : Uint32) (accurate : Accurate lib) :
    ∃ segmentLength, (if size = 0 then pure 4
        else binaryFuseCalculateSegmentLength lib (3 : Uint32).toNat size) = .ok segmentLength ∧
      ∃ e, 2 ≤ e ∧ e ≤ 18 ∧
        (if 262144 < segmentLength then 262144 else segmentLength : Uint32).toNat = 2 ^ e := by
  by_cases none : size = 0
  · exact ⟨4, by rw [if_pos none]; rfl, 2, le_refl _, by omega, rfl⟩
  · have positive : 1 ≤ size.toNat := by
      have apart : size.toNat ≠ (0 : Uint32).toNat := fun same => none (BitVec.eq_of_toNat_eq same)
      change size.toNat ≠ 0 at apart
      omega
    obtain ⟨e, lower, upper, returned⟩ := segmentLength_returns accurate positive
    have value := one_shiftLeft_toNat (show e ≤ 31 by omega)
    have most : (262144 : Uint32).toNat = 2 ^ 18 := rfl
    refine ⟨(1 : Uint32) <<< e, by rw [if_neg none]; exact returned, ?_⟩
    by_cases long : (262144 : Uint32) < (1 : Uint32) <<< e
    · exact ⟨18, by omega, le_refl _, by rw [if_pos long]; rfl⟩
    · rw [BitVec.lt_def, most, value, Nat.pow_lt_pow_iff_right (by omega)] at long
      refine ⟨e, lower, by omega, ?_⟩
      rw [if_neg (by rwa [BitVec.lt_def, most, value, Nat.pow_lt_pow_iff_right (by omega)]), value]

theorem allocatedCapacity_returns (accurate : Accurate lib) (many : size.toNat ≤ 3800000000) :
    ∃ capacity : Uint32, (if size ≤ 1 then pure 0
        else toUint32 (roundDouble (lib.nearest (size.toNat *
          (if size ≤ 1 then 0 else binaryFuseCalculateSizeFactor lib (3 : Uint32).toNat size))))) =
        .ok capacity ∧
      (size.toNat ≤ capacity.toNat ∨ size.toNat ≤ 1) ∧ capacity.toNat ≤ 2 ^ 32 - 2 ^ 22 ∧
      (2 ^ 20 ≤ size.toNat → 1000 * capacity.toNat ≤ 1126 * size.toNat) := by
  have one : (1 : Uint32).toNat = 1 := rfl
  by_cases few : size ≤ 1
  · have single := few
    rw [BitVec.le_def, one] at single
    exact ⟨0, by rw [if_pos few]; rfl, .inr single, Nat.zero_le _, fun large => by omega⟩
  · have two := few
    rw [BitVec.le_def, one] at two
    obtain ⟨capacity, returned, enough, fits, spare⟩ :=
      capacity_returns accurate (show 2 ≤ size.toNat by omega) many
    exact ⟨capacity, by rw [if_neg few, if_neg few]; exact returned, .inl enough, fits, spare⟩

/-- The filter an allocation leaves. -/
structure Allocated (lib : Libc) (size : Uint32) (filter : BinaryFuse8) (granted : Bool) (e : Nat)
    (after : BinaryFuse8) : Prop where
  served : granted = lib.calloc after.arrayLength.toNat 1
  shaped : Shaped e after
  long : 2 ≤ e
  sized : after.size = size
  seed : after.seed = filter.seed
  room : size.toNat ≤ after.arrayLength.toNat
  spare : 2 ^ 20 ≤ size.toNat →
    1000 * after.arrayLength.toNat ≤ 1126 * size.toNat + 1000 * 2 ^ 18
  fingerprints : after.fingerprints =
    if granted then List.replicate after.arrayLength.toNat 0 else []

/-- The two values that can fail, and then the geometry. -/
theorem allocate_steps (lib : Libc) (size : Uint32) (filter : BinaryFuse8) :
    binaryFuse8Allocate lib size filter = do
      let segmentLength ← (if size = 0 then pure 4
        else binaryFuseCalculateSegmentLength lib (3 : Uint32).toNat size : Checked Uint32)
      let capacity ← (if size ≤ 1 then pure 0
        else toUint32 (roundDouble (lib.nearest (size.toNat *
          (if size ≤ 1 then 0 else binaryFuseCalculateSizeFactor lib (3 : Uint32).toNat size)))) :
        Checked Uint32)
      let cut := if 262144 < segmentLength then 262144 else segmentLength
      let segments := (((capacity + cut - 1) / cut - (3 - 1) + 3 - 1) * cut + cut - 1) / cut
      let segmentCount := if segments ≤ 3 - 1 then 1 else segments - (3 - 1)
      let arrayLength := (segmentCount + 3 - 1) * cut
      let granted := lib.calloc arrayLength.toNat 1
      return (granted,
        { filter with
          size, segmentCount, arrayLength
          segmentLength := cut
          segmentLengthMask := cut - 1
          segmentCountLength := segmentCount * cut
          fingerprints := if granted then List.replicate arrayLength.toNat 0 else [] }) := by
  by_cases none : size = 0
  · have few : size ≤ 1 := none ▸ (by decide : (0 : Uint32) ≤ 1)
    simp only [binaryFuse8Allocate, if_pos none, if_pos few]
  · by_cases few : size ≤ 1
    · simp only [binaryFuse8Allocate, if_neg none, if_pos few]
    · simp only [binaryFuse8Allocate, if_neg none, if_neg few]

theorem allocate_eq {segmentLength capacity : Uint32} {e : Nat}
    (lengthReturned : (if size = 0 then pure 4
      else binaryFuseCalculateSegmentLength lib (3 : Uint32).toNat size) = .ok segmentLength)
    (length : (if 262144 < segmentLength then 262144 else segmentLength : Uint32).toNat = 2 ^ e)
    (capacityReturned : (if size ≤ 1 then pure 0
      else toUint32 (roundDouble (lib.nearest (size.toNat *
        (if size ≤ 1 then 0 else binaryFuseCalculateSizeFactor lib (3 : Uint32).toNat size))))) =
      .ok capacity)
    (bound : e ≤ 18) (fits : capacity.toNat ≤ 2 ^ 32 - 2 ^ 22) (filter : BinaryFuse8) :
    ∃ granted, binaryFuse8Allocate lib size filter = .ok (granted, laidOut size
        (if 262144 < segmentLength then 262144 else segmentLength) capacity granted filter) ∧
      granted = lib.calloc (laidOut size (if 262144 < segmentLength then 262144
        else segmentLength) capacity granted filter).arrayLength.toNat 1 := by
  rw [allocate_steps, lengthReturned, Checked.ok_bind, capacityReturned, Checked.ok_bind]
  simp only [Checked.pure_eq_ok]
  generalize (if 262144 < segmentLength then 262144 else segmentLength : Uint32) = cut at *
  have small : 2 ^ e ≤ 2 ^ 18 := Nat.pow_le_pow_right (by omega) bound
  have filled := segments_toNat length bound (show capacity.toNat ≤ 2 ^ 32 - 2 ^ 20 by omega)
  have product : ((capacity + cut - 1) / cut).toNat * 2 ^ e ≤ 2 ^ 32 - 2 ^ 20 := by
    rw [filled]
    exact (Nat.div_mul_le_self _ _).trans (by omega)
  rw [segments_twice length bound product]
  exact ⟨_, rfl, rfl⟩

theorem allocate_returns (accurate : Accurate lib) (many : size.toNat ≤ 3800000000)
    (filter : BinaryFuse8) :
    ∃ granted after e, binaryFuse8Allocate lib size filter = .ok (granted, after) ∧
      Allocated lib size filter granted e after := by
  obtain ⟨segmentLength, lengthReturned, e, long, bound, length⟩ :=
    cappedLength_returns size accurate
  obtain ⟨capacity, capacityReturned, enough, fits, spare⟩ :=
    allocatedCapacity_returns accurate many
  obtain ⟨granted, ran, served⟩ := allocate_eq lengthReturned length capacityReturned bound fits filter
  obtain ⟨shaped, room, most⟩ :=
    @laidOut_shaped size _ _ _ length (by omega) bound fits granted filter
  have small : 2 ^ e ≤ 2 ^ 18 := Nat.pow_le_pow_right (by omega) bound
  have segment : 2 ^ 2 ≤ 2 ^ e := Nat.pow_le_pow_right (by omega) long
  have array := shaped.array
  have count := shaped.count
  refine ⟨granted, _, e, ran, served, shaped, long, rfl, rfl, ?_, fun large => ?_, rfl⟩
  · rcases enough with filled | single
    · omega
    · rw [array]
      exact single.trans (Nat.mul_pos (by omega) (by omega))
  · have tight := spare large
    omega

end Call

end Quickbloom.Fuse
