import Quickbloom.Data.Bits
import Quickbloom.Probe.Sets
import Quickbloom.Source.Filter

namespace Quickbloom.Filter

open Quickbloom.Data Quickbloom.Machine Quickbloom.Source

/-! # What the words of a filter mean

A cell is a bit of a lane of a block. The array stands for the set of its set
cells, and a hash probes one cell in each lane of one block.
-/

abbrev Cell := Nat × Fin 8 × Nat

/-- The bit of `lane` that a hash selects: the top five bits of its salted lower half. -/
def lanePosition (lane : Fin 8) (h : Uint64) : Nat :=
  ((h.setWidth 32 * maskSalt lane) >>> 27).toNat

/-- The block that a hash selects among `2 ^ k`: its top `k` bits. -/
def blockIndex (k : Nat) (h : Uint64) : Nat := h.toNat / 2 ^ (64 - k)

def probe (k : Nat) (h : Uint64) : Set Cell :=
  {cell | cell.1 = blockIndex k h ∧ cell.2.2 = lanePosition cell.2.1 h}

def contents (bits : Words) : Set Cell :=
  {cell | ∃ word, bits[8 * cell.1 + cell.2.1]? = some word ∧ word.getLsbD cell.2.2 = true}

def maskCells (block : Nat) (mask : M256i) : Set Cell :=
  {cell | cell.1 = block ∧ (mask cell.2.1).getLsbD cell.2.2 = true}

def laneCells (block : Nat) (mask : M256i) (lanes : List (Fin 8)) : Set Cell :=
  {cell | cell.1 = block ∧ cell.2.1 ∈ lanes ∧ (mask cell.2.1).getLsbD cell.2.2 = true}

theorem lanePosition_lt (lane : Fin 8) (h : Uint64) : lanePosition lane h < 32 := by
  have bound := (h.setWidth 32 * maskSalt lane).isLt
  rw [lanePosition, BitVec.toNat_ushiftRight, Nat.shiftRight_eq_div_pow]
  omega

theorem blockIndex_lt {k : Nat} (bound : k ≤ 64) (h : Uint64) : blockIndex k h < 2 ^ k := by
  apply Nat.div_lt_of_lt_mul
  rw [← Nat.pow_add, Nat.sub_add_cancel bound]
  exact h.isLt

theorem upperHalf_lt (h : Uint64) : h.toNat / 2 ^ 32 < 2 ^ 32 :=
  Nat.div_lt_of_lt_mul (by
    rw [← Nat.pow_add]
    exact h.isLt)

/-- The upper half of a hash, cast to 32 bits and back to 64. -/
theorem upperHalf_toNat (h : Uint64) :
    (((h >>> 32).setWidth 32 : Uint32).setWidth 64 : SizeT).toNat = h.toNat / 2 ^ 32 := by
  have upper := upperHalf_lt h
  rw [BitVec.toNat_setWidth, BitVec.toNat_setWidth, BitVec.toNat_ushiftRight,
    Nat.shiftRight_eq_div_pow, Nat.mod_eq_of_lt upper, Nat.mod_eq_of_lt (by omega)]

theorem blockIndex_upperHalf {k : Nat} (bound : k ≤ 32) (h : Uint64) :
    h.toNat / 2 ^ 32 / 2 ^ (32 - k) = blockIndex k h := by
  have width : 2 ^ 32 * 2 ^ (32 - k) = 2 ^ (64 - k) := by
    rw [← Nat.pow_add]
    congr 1
    omega
  rw [Nat.div_div_eq_div_mul, width, blockIndex]

theorem maskFor_bit (h : Uint64) (lane : Fin 8) (t : Nat) :
    (maskFor (h.setWidth 32) lane).getLsbD t = decide (t = lanePosition lane h) := by
  change ((1 : Uint32) <<< lanePosition lane h).getLsbD t = _
  exact getLsbD_one_shiftLeft (lanePosition_lt lane h) t

theorem maskCells_maskFor (k : Nat) (h : Uint64) :
    maskCells (blockIndex k h) (maskFor (h.setWidth 32)) = probe k h := by
  ext cell
  simp only [maskCells, probe, Set.mem_ofPred_eq, maskFor_bit, decide_eq_true_eq]

section Lanes

variable {block : Nat} {mask : M256i} {cells : Set Cell}

theorem laneCells_subset {lanes : List (Fin 8)} :
    laneCells block mask lanes ⊆ maskCells block mask :=
  fun _ present => ⟨present.1, present.2.2⟩

theorem maskCells_subset (covered : ∀ lane, laneCells block mask [lane] ⊆ cells) :
    maskCells block mask ⊆ cells :=
  fun cell present => covered cell.2.1 ⟨present.1, List.mem_singleton_self _, present.2⟩

end Lanes

section Vectors

variable {bits : Words} {block : Nat}

theorem mem_contents_iff (inside : 8 * block + 8 ≤ bits.length) (lane : Fin 8) (t : Nat) :
    (block, lane, t) ∈ contents bits ↔ (readVector bits (8 * block) lane).getLsbD t = true := by
  have found := readVector_eq inside lane
  refine ⟨?_, ?_⟩
  · intro present
    obtain ⟨word, selected, bit⟩ := present
    rw [found] at selected
    cases selected
    exact bit
  · intro bit
    exact ⟨_, found, bit⟩

/-- ORing a mask into a block adds the cells of the mask. -/
theorem contents_writeVector (inside : 8 * block + 8 ≤ bits.length) (mask : M256i) :
    contents (writeVector bits (8 * block) (mm256OrSi256 (readVector bits (8 * block)) mask)) =
      contents bits ∪ maskCells block mask := by
  ext ⟨index, lane, t⟩
  by_cases same : index = block
  · subst same
    rw [Set.mem_union, mem_contents_iff inside]
    simp only [contents, maskCells, Set.mem_ofPred_eq, writeVector_lane inside, Option.some.injEq,
      exists_eq_left', mm256OrSi256, BitVec.getLsbD_or, Bool.or_eq_true, true_and]
  · have apart : 8 * index + lane < 8 * block ∨ 8 * block + 8 ≤ 8 * index + lane := by omega
    simp only [contents, maskCells, Set.mem_union, Set.mem_ofPred_eq,
      writeVector_frame inside _ apart, same, false_and, or_false]

theorem contents_set (inside : 8 * block + 8 ≤ bits.length) (mask : M256i) (lane : Fin 8) :
    contents (bits.set (8 * block + lane) (readVector bits (8 * block) lane ||| mask lane)) =
      contents bits ∪ laneCells block mask [lane] := by
  have selected := readVector_eq inside lane
  have bound : 8 * block + lane < bits.length := by omega
  ext ⟨index, other, t⟩
  simp only [contents, laneCells, Set.mem_union, Set.mem_ofPred_eq, List.mem_singleton,
    List.getElem?_set]
  by_cases same : 8 * block + lane.val = 8 * index + other.val
  · obtain ⟨rfl, rfl⟩ : index = block ∧ other = lane := ⟨by omega, Fin.ext (by omega)⟩
    simp only [bound, ↓reduceIte, selected, Option.some.injEq, exists_eq_left', BitVec.getLsbD_or,
      Bool.or_eq_true, true_and]
  · have apart : ¬ (index = block ∧ other = lane ∧ (mask other).getLsbD t = true) := by
      intro both
      obtain ⟨rfl, rfl, _⟩ := both
      exact same rfl
    simp only [same, ↓reduceIte, apart, or_false]

theorem subword_readVector_iff (inside : 8 * block + 8 ≤ bits.length) (mask : M256i) :
    (∀ lane, Subword (mask lane) (readVector bits (8 * block) lane)) ↔
      maskCells block mask ⊆ contents bits := by
  refine ⟨?_, ?_⟩
  · intro sub cell placed
    obtain ⟨index, lane, t⟩ := cell
    obtain ⟨same, bit⟩ := placed
    change index = block at same
    subst same
    exact (mem_contents_iff inside lane t).mpr (sub lane t bit)
  · intro sub lane t bit
    exact (mem_contents_iff inside lane t).mp (sub ⟨rfl, bit⟩)

end Vectors

theorem subword_of_contents {left right : Words} {blocks : Nat}
    (leftLength : left.length = 8 * blocks) (rightLength : right.length = 8 * blocks)
    (sub : contents left ⊆ contents right) {index : Nat} {word : BitVec 32}
    (selected : left[index]? = some word) :
    ∃ kept, right[index]? = some kept ∧ Subword word kept := by
  have split : 8 * (index / 8) + index % 8 = index := Nat.div_add_mod index 8
  obtain ⟨bound, _⟩ := List.getElem?_eq_some_iff.mp selected
  have inside : index < right.length := by omega
  refine ⟨right[index], List.getElem?_eq_getElem inside, ?_⟩
  intro t bit
  have cell : (index / 8, (⟨index % 8, Nat.mod_lt _ (by omega)⟩ : Fin 8), t) ∈ contents left :=
    ⟨word, by rwa [split], bit⟩
  obtain ⟨kept, found, present⟩ := sub cell
  rw [split, List.getElem?_eq_getElem inside, Option.some.injEq] at found
  rwa [found]

/-- Whole blocks are determined by their set cells. -/
theorem contents_injective {left right : Words} {blocks : Nat}
    (leftLength : left.length = 8 * blocks) (rightLength : right.length = 8 * blocks)
    (same : contents left = contents right) : left = right := by
  apply List.ext_getElem (leftLength.trans rightLength.symm)
  intro index leftBound rightBound
  obtain ⟨upper, foundUpper, above⟩ := subword_of_contents leftLength rightLength same.subset
    (List.getElem?_eq_getElem leftBound)
  obtain ⟨lower, foundLower, below⟩ := subword_of_contents rightLength leftLength same.symm.subset
    (List.getElem?_eq_getElem rightBound)
  rw [List.getElem?_eq_getElem rightBound, Option.some.injEq] at foundUpper
  rw [List.getElem?_eq_getElem leftBound, Option.some.injEq] at foundLower
  subst foundUpper foundLower
  exact above.antisymm below

theorem contents_zero (count : Nat) : contents (List.replicate count 0) = ∅ := by
  ext cell
  simp only [contents, Set.mem_ofPred_eq, Set.mem_empty_iff_false, iff_false, not_exists, not_and]
  intro word selected
  rw [List.eq_of_mem_replicate (List.mem_of_getElem? selected)]
  simp

end Quickbloom.Filter
