import Quickbloom.Data.Scaling
import Quickbloom.Data.Spread
import Quickbloom.Filter.Geometry
import Quickbloom.Source.Impala

namespace Quickbloom.Impala

open Quickbloom.Data Quickbloom.Machine
open Quickbloom.Filter (upperHalf_lt upperHalf_toNat)
open Quickbloom.Source (Uint32 Uint64)
open Quickbloom.Source.Impala

/-! # Blocks selected by multiplication

The block index is the upper half of a product modulo `2 ^ 64`. It is below the
number of blocks also where the product wraps.
-/

def rangeIndex (n : Nat) (h : Uint64) : Nat := h.toNat / 2 ^ 32 * n % 2 ^ 64 / 2 ^ 32

theorem blockFor_eq (b : BloomT) (h : Uint64) :
    blockFor b h = 8 * rangeIndex b.nblocks.toNat h := by
  rw [blockFor, rangeIndex, BitVec.toNat_ushiftRight, BitVec.toNat_mul, upperHalf_toNat,
    Nat.shiftRight_eq_div_pow, Nat.mul_comm]

section Index

variable {n : Nat}

theorem rangeIndex_small (few : n ≤ 2 ^ 32) (h : Uint64) :
    rangeIndex n h = h.toNat / 2 ^ 32 * n / 2 ^ 32 := by
  have upper := upperHalf_lt h
  have product : h.toNat / 2 ^ 32 * n ≤ (2 ^ 32 - 1) * 2 ^ 32 :=
    Nat.mul_le_mul (by omega) few
  rw [rangeIndex, Nat.mod_eq_of_lt (by omega)]

theorem rangeIndex_below (n : Nat) (h : Uint64) : rangeIndex n h < 2 ^ 32 := by
  have small : h.toNat / 2 ^ 32 * n % 2 ^ 64 < 2 ^ 64 := Nat.mod_lt _ (by omega)
  rw [rangeIndex]
  omega

theorem rangeIndex_lt (positive : 0 < n) (h : Uint64) : rangeIndex n h < n := by
  by_cases few : n ≤ 2 ^ 32
  · rw [rangeIndex_small few]
    exact scaled_lt positive (upperHalf_lt h)
  · have below := rangeIndex_below n h
    omega

/-- The hashes that select one of at most `2 ^ 32` blocks. -/
theorem ncard_rangeIndex (positive : 0 < n) (few : n ≤ 2 ^ 32) {j : Nat} (block : j < n) :
    {h : Uint64 | rangeIndex n h = j}.ncard =
      (firstWord (2 ^ 32) n (j + 1) - firstWord (2 ^ 32) n j) * 2 ^ 32 := by
  have lower : {part : Uint32 | part.toNat / 2 ^ 32 = 0}.ncard = 2 ^ 32 :=
    ncard_upperBits (by omega) (by omega)
  have joined := ncard_parts (m := 32) (n := 32) (fun upper => upper * n / 2 ^ 32 = j)
    fun part => part.toNat / 2 ^ 32 = 0
  rw [lower, ncard_scaled positive block] at joined
  rw [← joined]
  congr 1
  ext h
  have small : ((h.setWidth 32 : Uint32).toNat) / 2 ^ 32 = 0 :=
    Nat.div_eq_of_lt (BitVec.isLt _)
  simp only [Set.mem_ofPred_eq, rangeIndex_small few, small, and_true]

end Index

/-- Whatever the number of blocks, every hash selects a block of the filter. Up
to `2 ^ 32` blocks share the hashes out evenly, to within the hashes of one
upper half, and these are all the filters in which every block is selected. -/
theorem blockFor_spread (b : BloomT) (positive : 0 < b.nblocks.toNat) :
    (∀ h, ∃ j < b.nblocks.toNat, blockFor b h = 8 * j) ∧
    (b.nblocks.toNat ≤ 2 ^ 32 → ∀ j < b.nblocks.toNat,
      2 ^ 32 / b.nblocks.toNat * 2 ^ 32 ≤ {h | blockFor b h = 8 * j}.ncard ∧
      {h | blockFor b h = 8 * j}.ncard ≤ (2 ^ 32 / b.nblocks.toNat + 1) * 2 ^ 32) ∧
    ((∀ j < b.nblocks.toNat, ∃ h, blockFor b h = 8 * j) ↔ b.nblocks.toNat ≤ 2 ^ 32) := by
  have selects (j : Nat) (h : Uint64) :
      blockFor b h = 8 * j ↔ rangeIndex b.nblocks.toNat h = j := by
    rw [blockFor_eq]
    omega
  have even (few : b.nblocks.toNat ≤ 2 ^ 32) {j : Nat} (block : j < b.nblocks.toNat) :
      2 ^ 32 / b.nblocks.toNat * 2 ^ 32 ≤ {h | blockFor b h = 8 * j}.ncard ∧
      {h | blockFor b h = 8 * j}.ncard ≤ (2 ^ 32 / b.nblocks.toNat + 1) * 2 ^ 32 := by
    obtain ⟨least, most⟩ := @firstWord_next (2 ^ 32) _ j positive
    simp only [selects, ncard_rangeIndex positive few block]
    generalize 2 ^ 32 / b.nblocks.toNat = share at least most ⊢
    exact ⟨Nat.mul_le_mul_right _ (by omega), Nat.mul_le_mul_right _ (by omega)⟩
  refine ⟨?_, fun few j block => even few block, ?_, ?_⟩
  · intro h
    exact ⟨_, rangeIndex_lt positive h, blockFor_eq b h⟩
  · intro all
    by_contra many
    obtain ⟨h, selected⟩ := all (2 ^ 32) (by omega)
    have below := rangeIndex_below b.nblocks.toNat h
    rw [(selects _ h).mp selected] at below
    exact absurd below (lt_irrefl _)
  · intro few j block
    have share : 0 < 2 ^ 32 / b.nblocks.toNat := Nat.div_pos few positive
    have counted := (even few block).1
    obtain ⟨h, selected⟩ : {h | blockFor b h = 8 * j}.Nonempty :=
      Set.nonempty_of_ncard_ne_zero (by omega)
    exact ⟨h, selected⟩

theorem blockFor_spread_three :
    (∀ h, ∃ j < 3, blockFor ⟨List.replicate 24 0, 3⟩ h = 8 * j) ∧
    (∀ j < 3, ∃ h, blockFor ⟨List.replicate 24 0, 3⟩ h = 8 * j) :=
  ⟨(blockFor_spread ⟨List.replicate 24 0, 3⟩ (by decide)).1,
    (blockFor_spread ⟨List.replicate 24 0, 3⟩ (by decide)).2.2.mpr (by decide)⟩

end Quickbloom.Impala
