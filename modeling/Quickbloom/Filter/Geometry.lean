import Quickbloom.Filter.Contents
import Mathlib.Data.Nat.Log

namespace Quickbloom.Filter

open Quickbloom.Machine Quickbloom.Source

/-! # Geometry

The three quantities the constructors compute separately belong to one block
count `2 ^ k`. Every probe is in bounds because they do.
-/

structure HeaderOf (k : Nat) (b : BloomT) : Prop where
  bound : k ≤ 31
  blocks : b.nblocksMask.toNat + 1 = 2 ^ k
  shift : b.idxShift.toNat = 32 - k

structure WellFormed (k : Nat) (b : BloomT) : Prop extends HeaderOf k b where
  words : b.bits.length = 8 * 2 ^ k

section Header

variable {k : Nat} {b : BloomT}

theorem HeaderOf.withBits (header : HeaderOf k b) (bits : Words) :
    HeaderOf k { b with bits } :=
  ⟨header.bound, header.blocks, header.shift⟩

theorem HeaderOf.nblocks_toNat (header : HeaderOf k b) : (b.nblocksMask + 1).toNat = 2 ^ k := by
  have top : 2 ^ k ≤ 2 ^ 31 := Nat.pow_le_pow_right (by omega) header.bound
  rw [BitVec.toNat_add]
  change (b.nblocksMask.toNat + 1) % 2 ^ 64 = 2 ^ k
  rw [header.blocks]
  exact Nat.mod_eq_of_lt (by omega)

/-- The right shift of the upper half selects the top `k` bits of the hash. -/
theorem HeaderOf.blockFor_eq (header : HeaderOf k b) (h : Uint64) :
    blockFor b h = .ok (8 * blockIndex k h) := by
  have bound := header.bound
  have defined : ¬ 64 ≤ b.idxShift.toNat := by
    rw [header.shift]
    omega
  have index : ((((h >>> 32).setWidth 32 : Uint32).setWidth 64 : SizeT) >>> b.idxShift.toNat).toNat =
      blockIndex k h := by
    rw [header.shift, BitVec.toNat_ushiftRight, upperHalf_toNat, Nat.shiftRight_eq_div_pow,
      blockIndex_upperHalf (by omega)]
  simp only [blockFor, if_neg defined, index, Nat.mul_comm]

theorem block_inside {words block : Nat} (length : words = 8 * 2 ^ k) (selected : block < 2 ^ k) :
    8 * block + 8 ≤ words := by
  omega

theorem HeaderOf.inside (header : HeaderOf k b) {words : Nat} (length : words = 8 * 2 ^ k)
    (h : Uint64) : 8 * blockIndex k h + 8 ≤ words := by
  have bound := header.bound
  exact block_inside length (blockIndex_lt (by omega) h)

theorem WellFormed.withBits (valid : WellFormed k b) {bits : Words}
    (length : bits.length = 8 * 2 ^ k) : WellFormed k { b with bits } :=
  ⟨valid.toHeaderOf.withBits bits, length⟩

theorem HeaderOf.unique {other : BloomT} (header : HeaderOf k b) (same : HeaderOf k other) :
    b.nblocksMask = other.nblocksMask ∧ b.idxShift = other.idxShift := by
  refine ⟨?_, ?_⟩
  · apply BitVec.eq_of_toNat_eq
    have left := header.blocks
    have right := same.blocks
    omega
  · exact BitVec.eq_of_toNat_eq (header.shift.trans same.shift.symm)

/-- Filters of one geometry with the same cells are the same filter. -/
theorem WellFormed.ext {other : BloomT} (valid : WellFormed k b) (same : WellFormed k other)
    (cells : contents b.bits = contents other.bits) : b = other := by
  obtain ⟨mask, shift⟩ := valid.toHeaderOf.unique same.toHeaderOf
  have bits := contents_injective valid.words same.words cells
  cases b
  cases other
  simp_all only

end Header

def emptyFilter (k : Nat) : BloomT where
  bits := List.replicate (8 * 2 ^ k) 0
  nblocksMask := BitVec.ofNat 64 (2 ^ k - 1)
  idxShift := BitVec.ofNat 32 (32 - k)

theorem emptyFilter_wellFormed {k : Nat} (bound : k ≤ 31) : WellFormed k (emptyFilter k) := by
  have positive : 0 < 2 ^ k := Nat.two_pow_pos k
  have small : 2 ^ k ≤ 2 ^ 31 := Nat.pow_le_pow_right (by omega) bound
  refine ⟨⟨bound, ?_, ?_⟩, by simp [emptyFilter]⟩
  · simp only [emptyFilter, BitVec.toNat_ofNat]
    omega
  · simp only [emptyFilter, BitVec.toNat_ofNat]
    omega

theorem emptyFilter_contents (k : Nat) : contents (emptyFilter k).bits = ∅ := contents_zero _

end Quickbloom.Filter
