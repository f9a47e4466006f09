import Quickbloom.Classic.Batches
import Quickbloom.Filter.Membership
import Quickbloom.Filter.Parquet
import Quickbloom.Impala.Blocks
import Quickbloom.Impala.Xxh64

namespace Quickbloom.Impala

open Quickbloom.Machine Quickbloom.Probe
open Quickbloom.Classic (Item Batch)
open Quickbloom.Filter (Cell ampleHeap blockMask_eq contents contents_zero laneCells
  lanePosition maskCells maskFor_bit orLanes_contents reports_iff_lanes requestedBlocks requestedBlocks_eq
  subword_readVector_iff testLanes_hit)
open Quickbloom.Source (Uint64 SizeT Heap maskFor sbbfBlockBytes)
open Quickbloom.Source.Impala

/-! # Runs of inserts and queries on the scalar filter

Any number of blocks is allowed here, not only a power of two.
-/

/-- The hash that an item goes by: a key is hashed with seed 0. -/
def itemHash : Item → Uint64
  | .key _ bytes _ => xxhValue bytes 0
  | .prehash h => h

def insertItem (b : BloomT) : Item → Checked BloomT
  | .key data bytes _ => bloomInsert b data bytes.length
  | .prehash h => bloomInsertPrehash b h

def containsItem (b : BloomT) : Item → Checked Nat
  | .key data bytes _ => bloomContains b data bytes.length
  | .prehash h => bloomContainsPrehash b h

def insertBatch (b : BloomT) : Batch → Checked BloomT
  | .single item => insertItem b item
  | .keys data batch _ => bloomInsertBulk b data batch.klen batch.n
  | .prehashes data hashes _ => bloomInsertPrehashBulk b data hashes.length

def containsBatch (b : BloomT) : Batch → Checked Nat
  | .single item => containsItem b item
  | .keys data batch _ => bloomContainsBulk b data batch.klen batch.n
  | .prehashes data hashes _ => bloomContainsPrehashBulk b data hashes.length

def insertRun (b : BloomT) (batches : List Batch) : Checked BloomT := batches.foldlM insertBatch b

theorem insertItem_eq (b : BloomT) (item : Item) :
    insertItem b item = bloomInsertPrehash b (itemHash item) := by
  cases item with
  | key data bytes holds =>
      rw [insertItem, bloomInsert, xxh64_eq, qbXxh64_eq holds]
      rfl
  | prehash h => rfl

theorem containsItem_eq (b : BloomT) (item : Item) :
    containsItem b item = bloomContainsPrehash b (itemHash item) := by
  cases item with
  | key data bytes holds =>
      rw [containsItem, bloomContains, xxh64_eq, qbXxh64_eq holds]
      rfl
  | prehash h => rfl

def probe (n : Nat) (h : Uint64) : Set Cell :=
  {cell | cell.1 = rangeIndex n h ∧ cell.2.2 = lanePosition cell.2.1 h}

/-- A filter of `n` blocks whose array is there. -/
structure Sized (n : Nat) (b : BloomT) : Prop where
  positive : 0 < n
  nblocks : b.nblocks.toNat = n
  words : b.bits.length = 8 * n

section Steps

variable {n : Nat} {b : BloomT}

theorem Sized.inside (sized : Sized n b) (h : Uint64) :
    8 * rangeIndex n h + 8 ≤ b.bits.length := by
  have block := rangeIndex_lt sized.positive h
  rw [sized.words]
  omega

theorem laneCells_probe (n : Nat) (h : Uint64) :
    laneCells (rangeIndex n h) (maskFor (h.setWidth 32)) (List.finRange 8) = probe n h := by
  ext cell
  simp only [laneCells, probe, Set.mem_ofPred_eq, List.mem_finRange, true_and, maskFor_bit,
    decide_eq_true_eq]

theorem Sized.insert (sized : Sized n b) (h : Uint64) :
    ∃ after, bloomInsertPrehash b h = .ok after ∧ Sized n after ∧ after.nblocks = b.nblocks ∧
      contents after.bits = contents b.bits ∪ probe n h := by
  obtain ⟨words, set, length, cells⟩ :=
    orLanes_contents (maskFor (h.setWidth 32)) (sized.inside h) (List.finRange 8)
  rw [laneCells_probe] at cells
  refine ⟨{ b with bits := words }, ?_, ⟨sized.positive, sized.nblocks, length.trans sized.words⟩,
    rfl, cells⟩
  have offset : blockFor b h = 8 * rangeIndex n h := by rw [blockFor_eq, sized.nblocks]
  simp only [bloomInsertPrehash, offset, blockMask_eq, set, Checked.ok_bind, Checked.pure_eq_ok]

theorem Sized.contains (sized : Sized n b) (h : Uint64) :
    ∃ found, bloomContainsPrehash b h = .ok found ∧ found ≤ 1 ∧
      (found ≠ 0 ↔ Reports (probe n) (contents b.bits) h) := by
  have inside := sized.inside h
  obtain ⟨found, small, tested, covered⟩ :=
    testLanes_hit (maskFor (h.setWidth 32)) inside (List.finRange 8)
  refine ⟨found, ?_, small, ?_⟩
  · have offset : blockFor b h = 8 * rangeIndex n h := by rw [blockFor_eq, sized.nblocks]
    simp only [bloomContainsPrehash, offset, blockMask_eq, tested]
  · simp only [List.mem_finRange, true_imp_iff] at covered
    rw [covered, subword_readVector_iff inside, Reports, ← laneCells_probe]
    simp only [laneCells, maskCells, List.mem_finRange, true_and]

theorem implements (n : Nat) (nblocks : SizeT) :
    Implements (fun item => probe n (itemHash item)) (fun b => Sized n b ∧ b.nblocks = nblocks)
      (fun b => contents b.bits) insertItem containsItem where
  insert := by
    intro b item valid
    obtain ⟨after, set, sized, same, cells⟩ := valid.1.insert (itemHash item)
    exact ⟨after, (insertItem_eq b item).trans set, ⟨sized, same.trans valid.2⟩, cells⟩
  contains := by
    intro b item valid
    obtain ⟨found, returned, small, exact⟩ := valid.1.contains (itemHash item)
    exact ⟨found, (containsItem_eq b item).trans returned, small, exact⟩

end Steps

/-- The allocator serves one of the two requests for the array of `b`. -/
def ArrayServed (heap : Heap) (b : BloomT) : Prop :=
  heap.posixMemalign 32 (32 * b.nblocks.toNat) = true ∨ heap.malloc (32 * b.nblocks.toNat) = true

theorem bloomNew_returned {heap : Heap} {nbits : SizeT} {b : BloomT}
    (returned : bloomNew heap nbits = .ok b) :
    b.nblocks.toNat = requestedBlocks nbits ∧
      (ArrayServed heap b → b.bits = List.replicate (8 * b.nblocks.toNat) 0) ∧
      (¬ ArrayServed heap b → b.bits = []) := by
  generalize counted : (if (nbits + 255) / 256 = 0 then 1 else (nbits + 255) / 256 : SizeT) = nblocks
  have blocks : nblocks.toNat = requestedBlocks nbits := by rw [← counted, requestedBlocks_eq]
  have few : nblocks.toNat ≤ 2 ^ 56 := by
    rw [blocks, requestedBlocks]
    omega
  have bytes : (nblocks * sbbfBlockBytes).toNat = 32 * nblocks.toNat := by
    rw [BitVec.toNat_mul, Nat.mul_comm 32]
    exact Nat.mod_eq_of_lt (by change nblocks.toNat * 32 < 2 ^ 64; omega)
  have words : 32 * nblocks.toNat / 4 = 8 * nblocks.toNat := by omega
  simp only [bloomNew, counted, bytes, words] at returned
  cases header : heap.malloc sizeofBloomT with
  | false =>
      rw [header] at returned
      cases returned
  | true =>
      rw [header] at returned
      have made := Except.ok.inj returned
      subst made
      refine ⟨blocks, ?_, ?_⟩
      · intro served
        exact if_pos ((Bool.or_eq_true _ _).mpr served)
      · intro refused
        exact if_neg fun granted => refused ((Bool.or_eq_true _ _).mp granted)

/-- Each lane of the block of `h` has the bit of `h` from some inserted hash. -/
def Covered (b : BloomT) (inserted : List Uint64) (h : Uint64) : Prop :=
  ∀ lane, ∃ earlier ∈ inserted,
    blockFor b earlier = blockFor b h ∧ lanePosition lane earlier = lanePosition lane h

theorem reports_iff_covered (b : BloomT) (inserted : List Uint64) (h : Uint64) :
    Reports (probe b.nblocks.toNat) (insertAll (probe b.nblocks.toNat) ∅ inserted) h ↔
      Covered b inserted h := by
  have same (left right : Uint64) : blockFor b left = blockFor b right ↔
      rangeIndex b.nblocks.toNat left = rangeIndex b.nblocks.toNat right := by
    rw [blockFor_eq, blockFor_eq]
    omega
  simp only [Covered, same]
  exact reports_iff_lanes (rangeIndex b.nblocks.toNat) inserted h

end Quickbloom.Impala
