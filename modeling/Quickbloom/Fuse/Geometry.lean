import Quickbloom.Data.Bits
import Quickbloom.Source.BinaryFuse
import Mathlib.Tactic.FinCases
import Mathlib.Tactic.Ring

namespace Quickbloom.Fuse

open Quickbloom.Data Quickbloom.Machine
open Quickbloom.Source (Uint32 Uint64)
open Quickbloom.Source.BinaryFuse

/-! # Geometry of a binary fuse filter

The array is a row of segments of `2 ^ e` cells. A hash has a cell in each of
three consecutive segments, so its cells are distinct and inside the array.
-/

structure Shaped (e : Nat) (filter : BinaryFuse8) : Prop where
  positive : 1 ≤ e
  bound : e ≤ 18
  length : filter.segmentLength.toNat = 2 ^ e
  mask : filter.segmentLengthMask.toNat + 1 = 2 ^ e
  count : 0 < filter.segmentCount.toNat
  counts : filter.segmentCountLength.toNat = filter.segmentCount.toNat * 2 ^ e
  array : filter.arrayLength.toNat = (filter.segmentCount.toNat + 2) * 2 ^ e

/-- Positions are counted modulo three. -/
instance threePositions : NeZero 3 := ⟨by omega⟩

/-- The cell of a hash at each of its three positions. -/
def cell (filter : BinaryFuse8) (hash : Uint64) (position : Fin 3) : Nat :=
  (binaryFuse8Hash (BitVec.ofNat 64 position.val) hash filter).toNat

theorem mulhi_toNat (a b : Uint64) : (binaryFuseMulhi a b).toNat = a.toNat * b.toNat / 2 ^ 64 := by
  have left := a.isLt
  have right := b.isLt
  have product : a.toNat * b.toNat < 2 ^ 64 * 2 ^ 64 := Nat.mul_lt_mul'' left right
  have wide : 2 ^ 64 * 2 ^ 64 = 2 ^ 128 := by decide
  rw [wide] at product
  have high : a.toNat * b.toNat / 2 ^ 64 < 2 ^ 64 := Nat.div_lt_of_lt_mul (wide ▸ product)
  rw [binaryFuseMulhi, BitVec.toNat_setWidth, BitVec.toNat_ushiftRight, BitVec.toNat_mul,
    BitVec.toNat_setWidth, BitVec.toNat_setWidth, Nat.mod_eq_of_lt (by omega : a.toNat < 2 ^ 128),
    Nat.mod_eq_of_lt (by omega : b.toNat < 2 ^ 128), Nat.mod_eq_of_lt product,
    Nat.shiftRight_eq_div_pow, Nat.mod_eq_of_lt high]

/-- The halves of a product of two words. -/
theorem high_halves (a0 a1 b0 b1 : Nat) :
    (a1 * 2 ^ 32 + a0) * (b1 * 2 ^ 32 + b0) / 2 ^ 64 =
      a1 * b1 + (a1 * b0 + a0 * b0 / 2 ^ 32 + a0 * b1 % 2 ^ 32) / 2 ^ 32 + a0 * b1 / 2 ^ 32 := by
  have split : (a1 * 2 ^ 32 + a0) * (b1 * 2 ^ 32 + b0) =
      a1 * b1 * 2 ^ 64 + (a1 * b0 + a0 * b1) * 2 ^ 32 + a0 * b0 := by ring
  rw [split]
  generalize a1 * b1 = p11
  generalize a1 * b0 = p10
  generalize a0 * b1 = p01
  generalize a0 * b0 = p00
  omega

/-- The multiplication without a 128-bit type loses no carry. -/
theorem mulhiParts_eq_mulhi (a b : Uint64) : binaryFuseMulhiParts a b = binaryFuseMulhi a b := by
  have left := a.isLt
  have right := b.isLt
  have bound (x : Uint64) : x.toNat / 2 ^ 32 < 2 ^ 32 := by omega
  have low (x : Uint64) : ((x.setWidth 32).setWidth 64 : Uint64).toNat = x.toNat % 2 ^ 32 := by
    rw [BitVec.toNat_setWidth, BitVec.toNat_setWidth]
    omega
  have high (x : Uint64) : (x >>> 32).toNat = x.toNat / 2 ^ 32 := by
    rw [BitVec.toNat_ushiftRight, Nat.shiftRight_eq_div_pow]
  have product (x y : Uint64) (xs : x.toNat < 2 ^ 32) (ys : y.toNat < 2 ^ 32) :
      (x * y).toNat = x.toNat * y.toNat ∧ x.toNat * y.toNat ≤ (2 ^ 32 - 1) * (2 ^ 32 - 1) := by
    have most : x.toNat * y.toNat ≤ (2 ^ 32 - 1) * (2 ^ 32 - 1) :=
      Nat.mul_le_mul (by omega) (by omega)
    exact ⟨by rw [BitVec.toNat_mul, Nat.mod_eq_of_lt (by omega)], most⟩
  apply BitVec.eq_of_toNat_eq
  rw [mulhi_toNat, binaryFuseMulhiParts]
  generalize a0_eq : (((a.setWidth 32).setWidth 64) : Uint64) = a0
  generalize b0_eq : (((b.setWidth 32).setWidth 64) : Uint64) = b0
  generalize a1_eq : a >>> 32 = a1
  generalize b1_eq : b >>> 32 = b1
  have a0_val : a0.toNat = a.toNat % 2 ^ 32 := a0_eq ▸ low a
  have b0_val : b0.toNat = b.toNat % 2 ^ 32 := b0_eq ▸ low b
  have a1_val : a1.toNat = a.toNat / 2 ^ 32 := a1_eq ▸ high a
  have b1_val : b1.toNat = b.toNat / 2 ^ 32 := b1_eq ▸ high b
  have a_split : a.toNat = a1.toNat * 2 ^ 32 + a0.toNat := by omega
  have b_split : b.toNat = b1.toNat * 2 ^ 32 + b0.toNat := by omega
  obtain ⟨p11, p11_le⟩ := product a1 b1 (by omega) (by omega)
  obtain ⟨p01, p01_le⟩ := product a0 b1 (by omega) (by omega)
  obtain ⟨p10, p10_le⟩ := product a1 b0 (by omega) (by omega)
  obtain ⟨p00, p00_le⟩ := product a0 b0 (by omega) (by omega)
  have whole := high_halves a0.toNat a1.toNat b0.toNat b1.toNat
  have fits : a.toNat * b.toNat / 2 ^ 64 < 2 ^ 64 := by
    rw [← mulhi_toNat]
    exact BitVec.isLt _
  rw [← a_split, ← b_split] at whole
  simp only [BitVec.toNat_add, high, low, p11, p01, p10, p00]
  omega
section Cells

variable {e : Nat} {filter : BinaryFuse8}

/-- The cell of a hash at position 0. -/
def home (filter : BinaryFuse8) (hash : Uint64) : Nat :=
  hash.toNat * filter.segmentCountLength.toNat / 2 ^ 64

theorem mulhi_home (hash : Uint64) :
    (binaryFuseMulhi hash (filter.segmentCountLength.setWidth 64)).toNat = home filter hash := by
  have small := filter.segmentCountLength.isLt
  rw [mulhi_toNat, BitVec.toNat_setWidth, Nat.mod_eq_of_lt (by omega), home]

theorem Shaped.home_segment (shaped : Shaped e filter) (hash : Uint64) :
    home filter hash / 2 ^ e < filter.segmentCount.toNat := by
  have below : home filter hash < filter.segmentCount.toNat * 2 ^ e := by
    rw [← shaped.counts, home]
    apply Nat.div_lt_of_lt_mul
    have positive : 0 < filter.segmentCountLength.toNat := by
      rw [shaped.counts]
      exact Nat.mul_pos shaped.count (Nat.two_pow_pos e)
    exact Nat.mul_lt_mul_of_pos_right hash.isLt positive
  rw [Nat.mul_comm] at below
  exact Nat.div_lt_of_lt_mul below

/-- Position `i` lies `i` segments above position 0, wherever the masked bits
of the hash move it within its segment. -/
theorem Shaped.cell_segment (shaped : Shaped e filter) (hash : Uint64) (position : Fin 3) :
    cell filter hash position / 2 ^ e = home filter hash / 2 ^ e + position.val := by
  have few := position.isLt
  have segment := shaped.home_segment hash
  have small := filter.arrayLength.isLt
  rw [shaped.array] at small
  have width : 2 ^ e ≤ 2 ^ 18 := Nat.pow_le_pow_right (by omega) shaped.bound
  have start : home filter hash < 2 ^ 32 := by
    have inside := Nat.lt_mul_of_div_lt segment (Nat.two_pow_pos e)
    have more : filter.segmentCount.toNat * 2 ^ e ≤ (filter.segmentCount.toNat + 2) * 2 ^ e :=
      Nat.mul_le_mul_right _ (by omega)
    omega
  have offset : position.val * 2 ^ e ≤ 2 * 2 ^ 18 := Nat.mul_le_mul (by omega) width
  have placed : (binaryFuseMulhi hash (filter.segmentCountLength.setWidth 64) +
      BitVec.ofNat 64 position.val * filter.segmentLength.setWidth 64).toNat =
      home filter hash + position.val * 2 ^ e := by
    have lengthFits := filter.segmentLength.isLt
    rw [BitVec.toNat_add, mulhi_home, BitVec.toNat_mul, BitVec.toNat_ofNat, BitVec.toNat_setWidth,
      Nat.mod_eq_of_lt (by omega : filter.segmentLength.toNat < 2 ^ 64),
      Nat.mod_eq_of_lt (by omega : position.val < 2 ^ 64), shaped.length,
      Nat.mod_eq_of_lt (by omega : position.val * 2 ^ e < 2 ^ 64), Nat.mod_eq_of_lt (by omega)]
  generalize within : ((hash &&& ((1 : Uint64) <<< 36 - 1)) >>>
    (36 - 18 * BitVec.ofNat 64 position.val)) &&& filter.segmentLengthMask.setWidth 64 = moved
  have masked : moved.toNat < 2 ^ e := by
    have maskFits := filter.segmentLengthMask.isLt
    have maskSize := shaped.mask
    rw [← within, BitVec.toNat_and]
    apply Nat.and_lt_two_pow
    rw [BitVec.toNat_setWidth, Nat.mod_eq_of_lt (by omega)]
    omega
  have quotient : ((home filter hash + position.val * 2 ^ e) ^^^ moved.toNat) / 2 ^ e =
      home filter hash / 2 ^ e + position.val := by
    rw [Nat.xor_div_two_pow, Nat.div_eq_of_lt masked, Nat.xor_zero,
      Nat.add_mul_div_right _ _ (Nat.two_pow_pos e)]
  have fits : (home filter hash + position.val * 2 ^ e) ^^^ moved.toNat < 2 ^ 32 := by
    have inside : ((home filter hash + position.val * 2 ^ e) ^^^ moved.toNat) / 2 ^ e <
        filter.segmentCount.toNat + 2 := by omega
    have below := Nat.lt_mul_of_div_lt inside (Nat.two_pow_pos e)
    omega
  simp only [cell, binaryFuse8Hash, within]
  rw [BitVec.toNat_setWidth, BitVec.toNat_xor, placed, Nat.mod_eq_of_lt fits, quotient]

theorem Shaped.cell_lt (shaped : Shaped e filter) (hash : Uint64) (position : Fin 3) :
    cell filter hash position < filter.arrayLength.toNat := by
  have few := position.isLt
  have segment := shaped.home_segment hash
  have place := shaped.cell_segment hash position
  rw [shaped.array]
  exact Nat.lt_mul_of_div_lt (by omega) (Nat.two_pow_pos e)

theorem Shaped.cell_injective (shaped : Shaped e filter) (hash : Uint64) :
    Function.Injective (cell filter hash) := by
  intro left right same
  have first := shaped.cell_segment hash left
  have second := shaped.cell_segment hash right
  rw [same, second] at first
  exact Fin.ext (by omega)

/-- A query looks at the cells the population used: the segments are no longer
than the 18 bits of the hash that either one reads for a position. -/
theorem Shaped.hashBatch (shaped : Shaped e filter) (hash : Uint64) :
    binaryFuse8HashBatch hash filter =
      { h0 := binaryFuse8Hash 0 hash filter
        h1 := binaryFuse8Hash 1 hash filter
        h2 := binaryFuse8Hash 2 hash filter } := by
  have bound := shaped.bound
  have maskBit := mask_bit shaped.mask
  have none : (hash &&& ((1 : Uint64) <<< 36 - 1)) >>> (36 - 18 * (0 : Uint64)) = 0 := by
    apply BitVec.eq_of_getLsbD_eq
    intro t inside
    have amount : (36 - 18 * (0 : Uint64)).toNat = 36 := by decide
    have low : ((1 : Uint64) <<< 36 - 1).getLsbD (36 + t) = decide (36 + t < 36) :=
      mask_bit (by decide) _
    rw [BitVec.ushiftRight_eq', amount, BitVec.getLsbD_ushiftRight, BitVec.getLsbD_and, low]
    simp
  have bits (start : Nat) (word : Uint64) (inside : start + 18 ≤ 36)
      (shift : word.toNat = start) :
      (((hash &&& ((1 : Uint64) <<< 36 - 1)) >>> word) &&&
        filter.segmentLengthMask.setWidth 64).setWidth 32 =
      (hash >>> start).setWidth 32 &&& filter.segmentLengthMask := by
    apply BitVec.eq_of_getLsbD_eq
    intro t lane
    have low : ((1 : Uint64) <<< 36 - 1).getLsbD (start + t) = decide (start + t < 36) :=
      mask_bit (by decide) _
    have wide : t < 64 := by omega
    simp only [BitVec.getLsbD_setWidth, BitVec.getLsbD_and, BitVec.ushiftRight_eq', shift,
      BitVec.getLsbD_ushiftRight, low, maskBit, lane, wide, decide_true, Bool.true_and]
    by_cases small : t < e
    · have read : start + t < 36 := by omega
      simp [small, read]
    · simp [small]
  have first : binaryFuse8Hash 0 hash filter =
      (binaryFuseMulhi hash (filter.segmentCountLength.setWidth 64)).setWidth 32 := by
    simp only [binaryFuse8Hash, none]
    simp
  have second := bits 18 (36 - 18 * 1) (by omega) (by decide)
  have third := bits 0 (36 - 18 * 2) (by omega) (by decide)
  rw [first]
  simp only [binaryFuse8HashBatch, binaryFuse8Hash, BinaryHashes.mk.injEq, true_and,
    BitVec.setWidth_xor, second, third]
  have lengthOne : ((1 : Uint64) * filter.segmentLength.setWidth 64).setWidth 32 =
      filter.segmentLength := by
    apply BitVec.eq_of_toNat_eq
    have one : (1 : Uint64).toNat = 1 := rfl
    simp only [BitVec.toNat_setWidth, BitVec.toNat_mul, one]
    omega
  have lengthTwo : ((2 : Uint64) * filter.segmentLength.setWidth 64).setWidth 32 =
      filter.segmentLength + filter.segmentLength := by
    apply BitVec.eq_of_toNat_eq
    have two : (2 : Uint64).toNat = 2 := rfl
    simp only [BitVec.toNat_setWidth, BitVec.toNat_mul, two, BitVec.toNat_add]
    omega
  refine ⟨?_, ?_⟩
  · rw [BitVec.setWidth_add _ _ (by omega), lengthOne]
  · rw [BitVec.setWidth_add _ _ (by omega), lengthTwo, BitVec.add_assoc, BitVec.ushiftRight_zero]

end Cells

end Quickbloom.Fuse
