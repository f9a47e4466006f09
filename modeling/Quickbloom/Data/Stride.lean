import Quickbloom.Data.Bits
import Mathlib.Data.Nat.ModEq
import Mathlib.Data.Nat.Prime.Basic
import Mathlib.Data.Set.Card

namespace Quickbloom.Data

/-! # Strided walks in a power-of-two table

A walk adds the same stride to a machine word and masks the sum before each
visit. It comes back to a place only after a whole round if the stride has no
divisor in common with the size of the table.
-/

def walk (size start stride i : Nat) : Nat := (start + i * stride) % size

section Walk

variable {size start stride : Nat}

theorem walk_injective (coprime : size.Coprime stride) {i j : Nat} (first : i < size)
    (second : j < size) (same : walk size start stride i = walk size start stride j) : i = j := by
  have sums : start + i * stride ≡ start + j * stride [MOD size] := same
  have products : i * stride ≡ j * stride [MOD size] := Nat.ModEq.add_left_cancel' start sums
  exact (Nat.ModEq.cancel_right_of_coprime coprime products).eq_of_lt_of_lt first second

/-- The places that the first `count` steps visit. -/
def visited (size start stride count : Nat) : Set Nat :=
  {place | ∃ i < count, place = walk size start stride i}

@[simp] theorem visited_zero : visited size start stride 0 = ∅ := by
  ext place
  simp [visited]

theorem visited_succ (count : Nat) :
    visited size start stride (count + 1) =
      insert (walk size start stride count) (visited size start stride count) := by
  ext place
  simp only [visited, Set.mem_ofPred_eq, Set.mem_insert_iff, Nat.lt_succ_iff_lt_or_eq, or_and_right,
    exists_or, exists_eq_left, or_comm]

theorem visited_subset_iff {count : Nat} {places : Set Nat} :
    visited size start stride count ⊆ places ↔ ∀ i < count, walk size start stride i ∈ places := by
  refine ⟨?_, ?_⟩
  · intro inside i bound
    exact inside ⟨i, bound, rfl⟩
  · intro each place visits
    obtain ⟨i, bound, rfl⟩ := visits
    exact each i bound

theorem visited_eq_image (count : Nat) :
    visited size start stride count = walk size start stride '' Finset.range count := by
  ext place
  simp [visited, eq_comm]

theorem ncard_visited (coprime : size.Coprime stride) {count : Nat} (within : count ≤ size) :
    (visited size start stride count).ncard = count := by
  have apart : Set.InjOn (walk size start stride) (Finset.range count) := by
    intro i first j second same
    simp only [Finset.coe_range, Set.mem_Iio] at first second
    exact walk_injective coprime (by omega) (by omega) same
  rw [visited_eq_image, apart.ncard_image, Set.ncard_coe_finset, Finset.card_range]

end Walk

section Words

variable {width k : Nat} {mask : BitVec width}

/-- The sums may wrap: the size of the table divides the number of words. -/
theorem walk_word (ones : mask.toNat + 1 = 2 ^ k) (start stride : BitVec width) (i : Nat) :
    ((start + BitVec.ofNat width i * stride) &&& mask).toNat =
      walk (2 ^ k) start.toNat stride.toNat i := by
  have divides : 2 ^ k ∣ 2 ^ width := Nat.pow_dvd_pow 2 (mask_width ones)
  have product : (BitVec.ofNat width i * stride).toNat = i * stride.toNat % 2 ^ width := by
    simp [BitVec.toNat_mul]
  rw [and_mask_toNat ones, BitVec.toNat_add, product, Nat.add_mod_mod, Nat.mod_mod_of_dvd _ divides]
  rfl

theorem odd_coprime {stride : BitVec width} (odd : stride.toNat % 2 = 1) :
    (2 ^ k).Coprime stride.toNat :=
  Nat.Coprime.pow_left k (Nat.coprime_two_left.mpr (Nat.odd_iff.mpr odd))

end Words

end Quickbloom.Data
