import Mathlib.Algebra.Group.Nat.Defs
import Mathlib.Data.Nat.Log
import Quickbloom.Machine.Loop
import Quickbloom.Machine.Returns

namespace Quickbloom.Machine

/-! # Loops that double a word until it is large enough

Up to the top power of two such a loop ends at the first power that is not too
small. Above it the word is shifted out, and the loop goes on with 0.
-/

/-- The top power of two is shifted out. -/
theorem doubled_toNat {pow2 : BitVec 64} {j : Nat} (power : pow2.toNat = 2 ^ j) :
    (pow2 <<< 1).toNat = 2 ^ (j + 1) % 2 ^ 64 := by
  rw [BitVec.toNat_shiftLeft, Nat.shiftLeft_eq, power, ← Nat.pow_add]

def doubleUntil (need : BitVec 64) : Nat → BitVec 64 → Checked (BitVec 64) :=
  whileM (fun pow2 => .ok (decide (pow2 < need))) (fun pow2 => .ok (pow2 <<< 1))

variable {need : BitVec 64} {s fuel : Nat} {start : BitVec 64}

theorem doubleUntil_returns (power : start.toNat = 2 ^ s) (bound : need.toNat ≤ 2 ^ 63)
    (enough : 64 - s < fuel) :
    ∃ pow2 j, doubleUntil need fuel start = .ok pow2 ∧ pow2.toNat = 2 ^ j ∧ s ≤ j ∧
      need.toNat ≤ 2 ^ j ∧ ∀ i, s ≤ i → i < j → 2 ^ i < need.toNat := by
  obtain ⟨pow2, returned, ⟨j, value, above, below⟩, stopped⟩ :=
    @whileM_invariant _ (fun pow2 : BitVec 64 => .ok (decide (pow2 < need)))
      (fun pow2 => .ok (pow2 <<< 1))
      (fun pow2 => ∃ j, pow2.toNat = 2 ^ j ∧ s ≤ j ∧ ∀ i, s ≤ i → i < j → 2 ^ i < need.toNat)
      (fun pow2 => 64 - Nat.log 2 pow2.toNat) (by
        intro pow2 kept
        obtain ⟨j, value, above, below⟩ := kept
        by_cases again : pow2 < need
        · right
          have current : 2 ^ j < need.toNat := by rwa [BitVec.lt_def, value] at again
          have small : j < 63 :=
            (Nat.pow_lt_pow_iff_right (by omega)).mp (Nat.lt_of_lt_of_le current bound)
          have next : (pow2 <<< 1).toNat = 2 ^ (j + 1) := by
            have room : 2 ^ (j + 1) ≤ 2 ^ 63 := Nat.pow_le_pow_right (by omega) small
            rw [doubled_toNat value]
            exact Nat.mod_eq_of_lt (Nat.lt_of_le_of_lt room (by decide))
          refine ⟨pow2 <<< 1, by rw [decide_eq_true again], rfl, ⟨j + 1, next, by omega, ?_⟩, ?_⟩
          · intro i first smaller
            rcases Nat.lt_succ_iff_lt_or_eq.mp smaller with earlier | rfl
            · exact below i first earlier
            · exact current
          · rw [next, value, Nat.log_pow (by omega), Nat.log_pow (by omega)]
            omega
        · left
          rw [decide_eq_false again])
      fuel start ⟨s, power, le_rfl, fun i first smaller => absurd smaller (by omega)⟩
      (by rw [power, Nat.log_pow (by omega)]; exact enough)
  refine ⟨pow2, j, returned, value, above, ?_, below⟩
  simpa [BitVec.lt_def, value] using stopped

theorem doubleUntil_returned (power : start.toNat = 2 ^ s) {pow2 : BitVec 64}
    (returned : doubleUntil need fuel start = .ok pow2) : need.toNat ≤ 2 ^ 63 := by
  have first : s ≤ 63 := by
    by_contra large
    have top : 2 ^ 64 ≤ 2 ^ s := Nat.pow_le_pow_right (by omega) (by omega)
    have fits := start.isLt
    omega
  obtain ⟨small, stopped⟩ := whileM_returned (m := Checked)
    (fun pow2 : BitVec 64 => pow2 = 0 ∨ ∃ j ≤ 63, pow2.toNat = 2 ^ j)
    (by
      intro pow2 next kept _ doubled
      cases Checked.returns_iff.mp doubled
      rcases kept with rfl | ⟨j, bound, value⟩
      · exact .inl (by decide)
      · have product := doubled_toNat value
        by_cases top : j = 63
        · subst top
          exact .inl (BitVec.eq_of_toNat_eq product)
        · have room : 2 ^ (j + 1) ≤ 2 ^ 63 := Nat.pow_le_pow_right (by omega) (by omega)
          rw [Nat.mod_eq_of_lt (by omega)] at product
          exact .inr ⟨j + 1, by omega, product⟩)
    (.inr ⟨s, first, power⟩) returned
  have value : pow2.toNat ≤ 2 ^ 63 := by
    rcases small with rfl | ⟨j, bound, value⟩
    · exact Nat.zero_le _
    · rw [value]
      exact Nat.pow_le_pow_right (by omega) bound
  have covered : ¬ pow2 < need := by simpa using Checked.returns_iff.mp stopped
  rw [BitVec.lt_def] at covered
  omega

/-- What was returned is the first power of two that is not too small. -/
theorem doubleUntil_first (power : start.toNat = 2 ^ s) {pow2 : BitVec 64}
    (returned : doubleUntil need fuel start = .ok pow2) :
    ∃ j, pow2.toNat = 2 ^ j ∧ s ≤ j ∧ need.toNat ≤ 2 ^ j ∧
      ∀ i, s ≤ i → i < j → 2 ^ i < need.toNat := by
  obtain ⟨other, j, again, value, first⟩ :=
    doubleUntil_returns power (doubleUntil_returned power returned) (show 64 - s < 65 by omega)
  cases whileM_unique returned again
  exact ⟨j, value, first⟩

end Quickbloom.Machine
