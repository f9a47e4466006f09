import Mathlib.Data.Set.Card
import Mathlib.Order.Interval.Finset.Nat

namespace Quickbloom.Data

/-! # Words reduced to a range by multiplication

Word `x` of `words` goes to place `x * n / words` of `n`. The words of one place
are consecutive, and the places share the words out evenly.
-/

/-- The first word that goes to place `j`. -/
def firstWord (words n j : Nat) : Nat := (j * words + n - 1) / n

variable {words n x j : Nat}

theorem firstWord_le_iff (positive : 0 < n) : firstWord words n j ≤ x ↔ j * words ≤ x * n := by
  rw [firstWord, Nat.div_le_iff_le_mul_add_pred positive, Nat.mul_comm n x]
  omega

theorem scaled_iff (positive : 0 < n) (nonempty : 0 < words) :
    x * n / words = j ↔ firstWord words n j ≤ x ∧ x < firstWord words n (j + 1) := by
  rw [firstWord_le_iff positive, ← Nat.not_le, firstWord_le_iff positive, Nat.not_le,
    Nat.div_eq_iff nonempty, Nat.add_mul, Nat.one_mul]
  omega

theorem firstWord_last (positive : 0 < n) : firstWord words n n = words := by
  have split : n * words + n - 1 = (n - 1) + n * words := by omega
  rw [firstWord, split, Nat.add_mul_div_left _ _ positive, Nat.div_eq_of_lt (by omega),
    Nat.zero_add]

theorem firstWord_mono {i : Nat} (ordered : i ≤ j) : firstWord words n i ≤ firstWord words n j := by
  have products : i * words ≤ j * words := Nat.mul_le_mul_right _ ordered
  exact Nat.div_le_div_right (by omega)

/-- A place gets its even share of the words, rounded down or up. -/
theorem firstWord_next (positive : 0 < n) :
    firstWord words n j + words / n ≤ firstWord words n (j + 1) ∧
      firstWord words n (j + 1) ≤ firstWord words n j + words / n + 1 := by
  have split : (j + 1) * words + n - 1 = j * words + n - 1 + words := by
    rw [Nat.add_mul, Nat.one_mul]
    omega
  have sum : firstWord words n (j + 1) = firstWord words n j + words / n +
      if n ≤ (j * words + n - 1) % n + words % n then 1 else 0 := by
    rw [firstWord, split, Nat.add_div positive, firstWord]
  rw [sum]
  split <;> omega

theorem scaled_lt (positive : 0 < n) (inside : x < words) : x * n / words < n :=
  Nat.div_lt_of_lt_mul (Nat.mul_lt_mul_of_pos_right inside positive)

theorem ncard_scaled {width : Nat} (positive : 0 < n) (place : j < n) :
    {word : BitVec width | word.toNat * n / 2 ^ width = j}.ncard =
      firstWord (2 ^ width) n (j + 1) - firstWord (2 ^ width) n j := by
  have last : firstWord (2 ^ width) n (j + 1) ≤ 2 ^ width := by
    have whole : firstWord (2 ^ width) n n = 2 ^ width := firstWord_last positive
    exact Nat.le_trans (firstWord_mono place) (Nat.le_of_eq whole)
  have image : BitVec.toNat '' {word : BitVec width | word.toNat * n / 2 ^ width = j} =
      Finset.Ico (firstWord (2 ^ width) n j) (firstWord (2 ^ width) n (j + 1)) := by
    ext x
    rw [Finset.coe_Ico, Set.mem_Ico, ← scaled_iff positive (Nat.two_pow_pos width)]
    refine ⟨?_, ?_⟩
    · intro found
      obtain ⟨word, goes, rfl⟩ := found
      exact goes
    · intro goes
      have bounds := (scaled_iff positive (Nat.two_pow_pos width)).mp goes
      have value : (BitVec.ofNat width x).toNat = x := by
        rw [BitVec.toNat_ofNat]
        exact Nat.mod_eq_of_lt (by omega)
      exact ⟨BitVec.ofNat width x, by rwa [Set.mem_ofPred_eq, value], value⟩
  have injective : Function.Injective (BitVec.toNat : BitVec width → Nat) :=
    fun _ _ same => BitVec.eq_of_toNat_eq same
  rw [← Set.ncard_image_of_injective _ injective, image, Set.ncard_coe_finset, Nat.card_Ico]

end Quickbloom.Data
