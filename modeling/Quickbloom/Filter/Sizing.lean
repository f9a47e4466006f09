import Quickbloom.Filter.Construct
import Quickbloom.Source.Util
import Mathlib.Tactic.Linarith
import Mathlib.Tactic.NormNum
import Mathlib.Tactic.Positivity

namespace Quickbloom.Filter

open Quickbloom.Machine Quickbloom.Source

/-! # Sizing

The estimate of `qb_estimate_bits` as a number: one block for no items, the
budget of the formula but at least one block for a valid rate, and 32 bits an
item, taken modulo `2 ^ 64`, for an invalid one.
-/

def isRate (fp : Double) : Bool := Double.lt (.finite 0) fp && Double.lt fp (.finite 1)

section Estimate

variable (log : Double → ℚ) (n : SizeT) (fp : Double)

def bitsPerItem : ℚ := -log fp / ln2Sq

def estimate : Nat :=
  if n = 0 then 256
  else if isRate fp = true then ⌊max (n.toNat * bitsPerItem log fp) 256 + 1 / 2⌋₊
  else 32 * n.toNat % 2 ^ 64

/-- The budget before it is raised to a block and before it wraps. -/
def budget : Nat :=
  if isRate fp = true then ⌊n.toNat * bitsPerItem log fp + 1 / 2⌋₊ else 32 * n.toNat

end Estimate

section Eval

variable {build : Build} {log : Double → ℚ} {n : SizeT} {fp : Double}

theorem toSizeT_eq {x : ℚ} (positive : 0 ≤ x) :
    toSizeT x = if ⌊x⌋₊ < 2 ^ 64 then .ok (BitVec.ofNat 64 ⌊x⌋₊) else .error .conversionRange := by
  have whole : ((⌊x⌋₊ : Nat) : Int) = ⌊x⌋ := Int.natCast_floor_eq_floor positive
  simp only [toSizeT, if_neg (not_lt.mpr positive), ← whole, BitVec.ofInt_natCast]
  have range : (0 ≤ ((⌊x⌋₊ : Nat) : Int) ∧ ((⌊x⌋₊ : Nat) : Int) < 2 ^ 64) ↔ ⌊x⌋₊ < 2 ^ 64 := by
    omega
  simp only [range]

theorem formula_eq : -(n.toNat : ℚ) * log fp / ln2Sq = n.toNat * bitsPerItem log fp := by
  rw [bitsPerItem, neg_mul, neg_div, neg_div, mul_neg, mul_div_assoc]

theorem qbEstimateBits_eq (release : build.ndebug = true) :
    qbEstimateBits build log n fp =
      if estimate log n fp < 2 ^ 64 then .ok (BitVec.ofNat 64 (estimate log n fp))
      else .error .conversionRange := by
  by_cases none : n = 0
  · have small : estimate log n fp = 256 := by rw [estimate, if_pos none]
    rw [qbEstimateBits, if_pos none, small]
    rfl
  · by_cases rate : isRate fp = true
    · have both : Double.lt (.finite 0) fp = true ∧ Double.lt fp (.finite 1) = true := by
        simpa [isRate] using rate
      have raised : (if n.toNat * bitsPerItem log fp < 256 then 256
          else n.toNat * bitsPerItem log fp) = max (n.toNat * bitsPerItem log fp) 256 :=
        (max_def_lt _ _).symm
      have value : estimate log n fp = ⌊max (n.toNat * bitsPerItem log fp) 256 + 1 / 2⌋₊ := by
        rw [estimate, if_neg none, if_pos rate]
      have positive : 0 ≤ max (n.toNat * bitsPerItem log fp) 256 + 1 / 2 := by positivity
      simp only [qbEstimateBits, if_neg none, release, both, formula_eq, raised, value,
        ← toSizeT_eq positive]
      rfl
    · have value : estimate log n fp = 32 * n.toNat % 2 ^ 64 := by
        rw [estimate, if_neg none, if_neg rate]
      have invalid : (!Double.lt (.finite 0) fp || !Double.lt fp (.finite 1)) = true := by
        rw [← Bool.not_and]
        exact congrArg Bool.not (Bool.eq_false_of_not_eq_true rate)
      have product : n * 32 = BitVec.ofNat 64 (32 * n.toNat % 2 ^ 64) := by
        apply BitVec.eq_of_toNat_eq
        rw [BitVec.toNat_mul, BitVec.toNat_ofNat, Nat.mod_mod, Nat.mul_comm]
        rfl
      have small : 32 * n.toNat % 2 ^ 64 < 2 ^ 64 := Nat.mod_lt _ (by omega)
      rw [value, if_pos small, ← product]
      simp only [qbEstimateBits, if_neg none, release, invalid]
      rfl

/-- The call returns, its result is one block or more and at least the budget,
and `qb_new` makes no smaller filter of it. -/
structure SizedFor (build : Build) (log : Double → ℚ) (n : SizeT) (fp : Double) (bits : SizeT) :
    Prop where
  returned : qbEstimateBits build log n fp = .ok bits
  block : 256 ≤ bits.toNat
  whole : budget log n fp ≤ bits.toNat
  built : ∀ heap, ∃ result, qbNew heap bits = .ok result ∧
    ∀ b, result = some b → bits.toNat ≤ 32 * b.bits.length

theorem qbNew_covers_iff (bits : SizeT) :
    (∀ heap, ∃ result, qbNew heap bits = .ok result ∧
      ∀ b, result = some b → bits.toNat ≤ 32 * b.bits.length) ↔ bits.toNat + 255 < 2 ^ 64 := by
  refine ⟨?_, ?_⟩
  · intro covers
    by_contra wraps
    have size := bits.isLt
    have requested : requestedBlocks bits = 1 := by
      rw [requestedBlocks]
      omega
    obtain ⟨k, bound, _, built⟩ := qbNew_rounds ampleHeap
      (show requestedBlocks bits ≤ 2 ^ 31 by omega)
    obtain ⟨result, returned, covered⟩ := covers ampleHeap
    rw [built, if_pos ⟨rfl, rfl⟩] at returned
    cases returned
    have top : 2 ^ k ≤ 2 ^ 31 := Nat.pow_le_pow_right (by omega) bound
    have words := (emptyFilter_wellFormed bound).words
    have small := covered _ rfl
    omega
  · intro exact heap
    rcases Nat.lt_or_ge (2 ^ 31) (requestedBlocks bits) with large | small
    · exact ⟨none, qbNew_refuses heap large, fun b returned => by cases returned⟩
    · obtain ⟨k, bound, least, built⟩ := qbNew_rounds heap small
      refine ⟨_, built, ?_⟩
      intro b returned
      split at returned
      · cases returned
        have covered : requestedBlocks bits ≤ 2 ^ k := least.1.2
        rw [requestedBlocks, Nat.mod_eq_of_lt exact] at covered
        rw [(emptyFilter_wellFormed bound).words]
        omega
      · cases returned

theorem SizedFor.toNat_eq {bits : SizeT} (release : build.ndebug = true)
    (sized : SizedFor build log n fp bits) : bits.toNat = estimate log n fp := by
  have returned := sized.returned
  rw [qbEstimateBits_eq release] at returned
  split at returned
  · rename_i small
    cases returned
    rw [BitVec.toNat_ofNat, Nat.mod_eq_of_lt small]
  · cases returned

theorem sizedFor_iff (release : build.ndebug = true) :
    (∃ bits, SizedFor build log n fp bits) ↔
      256 ≤ estimate log n fp ∧ budget log n fp ≤ estimate log n fp ∧
        estimate log n fp + 255 < 2 ^ 64 := by
  refine ⟨?_, ?_⟩
  · intro some
    obtain ⟨bits, sized⟩ := some
    rw [← sized.toNat_eq release]
    exact ⟨sized.block, sized.whole, (qbNew_covers_iff bits).mp sized.built⟩
  · intro bounds
    obtain ⟨block, whole, exact⟩ := bounds
    have small : estimate log n fp < 2 ^ 64 := by omega
    have value : (BitVec.ofNat 64 (estimate log n fp)).toNat = estimate log n fp := by
      rw [BitVec.toNat_ofNat, Nat.mod_eq_of_lt small]
    refine ⟨BitVec.ofNat 64 (estimate log n fp), ?_, ?_, ?_, ?_⟩
    · rw [qbEstimateBits_eq release, if_pos small]
    · rwa [value]
    · rwa [value]
    · exact (qbNew_covers_iff _).mpr (by rwa [value])

theorem bitsPerItem_pos (negative : log fp < 0) : 0 < bitsPerItem log fp := by
  have divisor : (0 : ℚ) < ln2Sq := by norm_num [ln2Sq]
  exact div_pos (neg_pos.mpr negative) divisor

theorem estimate_rate (rate : isRate fp = true) :
    estimate log n fp = ⌊max (n.toNat * bitsPerItem log fp) 256 + 1 / 2⌋₊ := by
  by_cases none : n = 0
  · subst none
    have empty : max (((0 : SizeT).toNat : ℚ) * bitsPerItem log fp) 256 + 1 / 2 = 256 + 1 / 2 := by
      simp
    rw [estimate, if_pos rfl, empty]
    exact ((Nat.floor_eq_iff (by norm_num)).mpr (by norm_num)).symm
  · rw [estimate, if_neg none, if_pos rate]

theorem sized_rate_iff (rate : isRate fp = true) :
    (256 ≤ estimate log n fp ∧ budget log n fp ≤ estimate log n fp ∧
      estimate log n fp + 255 < 2 ^ 64) ↔
    n.toNat * bitsPerItem log fp + 1 / 2 + 255 < 2 ^ 64 := by
  have value : estimate log n fp = ⌊max (n.toNat * bitsPerItem log fp) 256 + 1 / 2⌋₊ :=
    estimate_rate rate
  have block : 256 ≤ estimate log n fp := by
    rw [value]
    apply Nat.le_floor
    have raised := le_max_right (n.toNat * bitsPerItem log fp) 256
    push_cast
    linarith
  have whole : budget log n fp ≤ estimate log n fp := by
    rw [value, budget, if_pos rate]
    apply Nat.floor_mono
    have raised := le_max_left (n.toNat * bitsPerItem log fp) 256
    linarith
  have positive : 0 ≤ max (n.toNat * bitsPerItem log fp) 256 + 1 / 2 := by positivity
  have fits : estimate log n fp < 2 ^ 64 - 255 ↔
      max (n.toNat * bitsPerItem log fp) 256 + 1 / 2 < ((2 ^ 64 - 255 : Nat) : ℚ) := by
    rw [value]
    exact Nat.floor_lt positive
  have bound : ((2 ^ 64 - 255 : Nat) : ℚ) = 2 ^ 64 - 255 := by norm_num
  rw [bound] at fits
  refine ⟨?_, ?_⟩
  · intro bounds
    have below := fits.mp (by omega)
    have raised := le_max_left (n.toNat * bitsPerItem log fp) 256
    linarith
  · intro below
    refine ⟨block, whole, ?_⟩
    have small : max (n.toNat * bitsPerItem log fp) 256 < 2 ^ 64 - 255 - 1 / 2 :=
      max_lt (by linarith) (by norm_num)
    have estimated := fits.mpr (by linarith)
    omega

theorem estimate_invalid (invalid : ¬ isRate fp = true) :
    estimate log n fp = if n.toNat = 0 then 256 else 32 * n.toNat % 2 ^ 64 := by
  have same : n = 0 ↔ n.toNat = 0 := BitVec.toNat_inj.symm
  simp only [estimate, if_neg invalid, same]

theorem sized_invalid_iff (invalid : ¬ isRate fp = true) :
    (256 ≤ estimate log n fp ∧ budget log n fp ≤ estimate log n fp ∧
      estimate log n fp + 255 < 2 ^ 64) ↔
    n.toNat = 0 ∨ 8 ≤ n.toNat ∧ 32 * n.toNat + 255 < 2 ^ 64 := by
  rw [estimate_invalid invalid, budget, if_neg invalid]
  split <;> omega

/-- The sizes of both counts are good and in the order of the counts. -/
def SizedInOrder (build : Build) (log : Double → ℚ) (fp : Double) (fewer more : SizeT) : Prop :=
  ∃ small large, SizedFor build log fewer fp small ∧ SizedFor build log more fp large ∧
    small.toNat ≤ large.toNat

/-- The products of the function stay in range, `qb_new` rounds without a wrap,
and an invalid rate is not met by a count whose 32 bits an item are no block. -/
def SizingRange (log : Double → ℚ) (fp : Double) (n : SizeT) : Prop :=
  if isRate fp = true then n.toNat * bitsPerItem log fp + 1 / 2 + 255 < 2 ^ 64
  else n.toNat = 0 ∨ 8 ≤ n.toNat ∧ 32 * n.toNat + 255 < 2 ^ 64

theorem sized_range_iff (release : build.ndebug = true) :
    (∃ bits, SizedFor build log n fp bits) ↔ SizingRange log fp n := by
  rw [sizedFor_iff release, SizingRange]
  by_cases rate : isRate fp = true
  · rw [if_pos rate, sized_rate_iff rate]
  · rw [if_neg rate, sized_invalid_iff rate]

theorem estimate_mono (negative : isRate fp = true → log fp < 0) {more : SizeT}
    (ordered : n.toNat ≤ more.toNat) (range : SizingRange log fp more) :
    estimate log n fp ≤ estimate log more fp := by
  by_cases rate : isRate fp = true
  · have positive := bitsPerItem_pos (negative rate)
    have counts : (n.toNat : ℚ) ≤ more.toNat := by exact_mod_cast ordered
    rw [estimate_rate rate, estimate_rate rate]
    apply Nat.floor_mono
    gcongr
  · rw [SizingRange, if_neg rate] at range
    rw [estimate_invalid rate, estimate_invalid rate]
    split <;> split <;> omega

/-- In a release build the sizes of two counts are as they should be exactly if
both counts are in range at this rate. -/
theorem qbEstimateBits_sized_iff {build : Build} {log : Double → ℚ} (release : build.ndebug = true)
    (negative : ∀ fp, isRate fp = true → log fp < 0) (fp : Double) {fewer more : SizeT}
    (ordered : fewer.toNat ≤ more.toNat) :
    SizedInOrder build log fp fewer more ↔
      SizingRange log fp fewer ∧ SizingRange log fp more := by
  refine ⟨?_, ?_⟩
  · intro sized
    obtain ⟨small, large, first, second, _⟩ := sized
    exact ⟨(sized_range_iff release).mp ⟨small, first⟩,
      (sized_range_iff release).mp ⟨large, second⟩⟩
  · intro ranges
    obtain ⟨small, first⟩ := (sized_range_iff release).mpr ranges.1
    obtain ⟨large, second⟩ := (sized_range_iff release).mpr ranges.2
    refine ⟨small, large, first, second, ?_⟩
    rw [first.toNat_eq release, second.toNat_eq release]
    exact estimate_mono (negative fp) ordered ranges.2

end Eval

theorem qbEstimateBits_sized_iff_half :
    SizedInOrder { ndebug := true } (fun _ => -0.6931471805599453) (.finite (1 / 2)) 0 2000 := by
  have negative : ∀ fp, isRate fp = true → (fun _ : Double => (-0.6931471805599453 : ℚ)) fp < 0 := by
    intro fp _
    norm_num
  have rate : isRate (.finite (1 / 2)) = true := by norm_num [isRate, Double.lt]
  have few : (0 : SizeT).toNat = 0 := rfl
  have many : (2000 : SizeT).toNat = 2000 := rfl
  apply (qbEstimateBits_sized_iff rfl negative (.finite (1 / 2)) (by decide)).mpr
  rw [SizingRange, SizingRange, if_pos rate, if_pos rate, few, many]
  norm_num [bitsPerItem, ln2Sq]

/-- A logarithm of the right sign at every rate, and 0 at 1. -/
def signedLog (fp : Double) : ℚ := if isRate fp = true then -0.6931471805599453 else 0

/-- At the invalid rate 1 the product for `2 ^ 59` items wraps to no bit at all,
and one item gets 32 bits, fewer than no item does. -/
theorem qbEstimateBits_unordered :
    (∀ fp, isRate fp = true → signedLog fp < 0) ∧
    qbEstimateBits { ndebug := true } signedLog (1 <<< 59) (.finite 1) = .ok 0 ∧
    ¬ SizedInOrder { ndebug := true } signedLog (.finite 1) 1 (1 <<< 59) ∧
    qbEstimateBits { ndebug := true } signedLog 0 (.finite 1) = .ok 256 ∧
    qbEstimateBits { ndebug := true } signedLog 1 (.finite 1) = .ok 32 ∧
    ¬ SizedInOrder { ndebug := true } signedLog (.finite 1) 0 1 := by
  have negative : ∀ fp, isRate fp = true → signedLog fp < 0 := by
    intro fp rate
    rw [signedLog, if_pos rate]
    norm_num
  have many : qbEstimateBits { ndebug := true } signedLog (1 <<< 59) (.finite 1) = .ok 0 := by
    decide
  have none : qbEstimateBits { ndebug := true } signedLog 0 (.finite 1) = .ok 256 := by decide
  have one : qbEstimateBits { ndebug := true } signedLog 1 (.finite 1) = .ok 32 := by decide
  refine ⟨negative, many, ?_, none, one, ?_⟩
  · intro sized
    obtain ⟨small, large, first, second, _⟩ := sized
    have returned := second.returned
    rw [many] at returned
    cases returned
    exact absurd second.block (by decide)
  · intro sized
    obtain ⟨small, large, _, second, _⟩ := sized
    have returned := second.returned
    rw [one] at returned
    cases returned
    exact absurd second.block (by decide)

end Quickbloom.Filter
