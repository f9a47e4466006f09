import Quickbloom.Classic.Batches
import Quickbloom.Filter.Copies
import Quickbloom.Krassovsky.Batch
import Quickbloom.Krassovsky.Construct

namespace Quickbloom.Krassovsky

open Quickbloom.Data Quickbloom.Machine Quickbloom.Probe
open Quickbloom.Classic (Item Batch firstHash)
open Quickbloom.Filter (KeyBatch PowersFrom ampleHeap batchKey batchKey_holds batchKey_length
  krassovsky_bloomHash_eq)
open Quickbloom.Source (Uint64 SizeT Heap)
open Quickbloom.Source.Krassovsky

/-! # Runs of inserts and queries through all entry points

Bulk calls go through the 8-way path as far as it reaches.
-/

variable (table : MaskTable)

def insertItem (b : BloomT) : Item → Checked BloomT
  | .key data bytes _ => bloomInsert table b data bytes.length
  | .prehash h => bloomInsertPrehash table b h

def containsItem (b : BloomT) : Item → Checked Nat
  | .key data bytes _ => bloomContains table b data bytes.length
  | .prehash h => bloomContainsPrehash table b h

def insertBatch (b : BloomT) : Batch → Checked BloomT
  | .single item => insertItem table b item
  | .keys data batch _ => bloomInsertBulk table b data batch.klen batch.n
  | .prehashes data hashes _ => bloomInsertPrehashBulk table b data hashes.length

def containsBatch (b : BloomT) : Batch → Checked Nat
  | .single item => containsItem table b item
  | .keys data batch _ => bloomContainsBulk table b data batch.klen batch.n
  | .prehashes data hashes _ => bloomContainsPrehashBulk table b data hashes.length

def insertRun (b : BloomT) (batches : List Batch) : Checked BloomT :=
  batches.foldlM (insertBatch table) b

theorem insertItem_eq (b : BloomT) (item : Item) :
    insertItem table b item = bloomInsertPrehash table b item.hash := by
  cases item with
  | key data bytes holds =>
      rw [insertItem, bloomInsert, krassovsky_bloomHash_eq holds]
      rfl
  | prehash h => rfl

theorem containsItem_eq (b : BloomT) (item : Item) :
    containsItem table b item = bloomContainsPrehash table b item.hash := by
  cases item with
  | key data bytes holds =>
      rw [containsItem, bloomContains, krassovsky_bloomHash_eq holds]
      rfl
  | prehash h => rfl

section Keys

variable {data : Pointer Byte} {batch : KeyBatch}

/-- The hash of key `i` of a batch. -/
def batchHash (batch : KeyBatch) (i : Nat) : Uint64 :=
  firstHash (batchKey batch.bytes batch.klen i)

theorem mapM_ok {α β : Type} {body : α → Checked β} {value : α → β} {items : List α}
    (returns : ∀ item ∈ items, body item = .ok (value item)) :
    items.mapM body = .ok (items.map value) := by
  induction items with
  | nil => rfl
  | cons item rest ih =>
      rw [List.mapM_cons, returns item (by simp), Checked.ok_bind,
        ih (fun other member => returns other (by simp [member]))]
      rfl

theorem keyHash_eq (holds : data.Holds batch.bytes) {i : Nat} (within : i < batch.n) :
    bloomHash (data.add (i * batch.klen)) batch.klen = .ok (batchHash batch i) := by
  have part : (data.add (i * batch.klen)).Holds (batchKey batch.bytes batch.klen i) :=
    batchKey_holds holds
  have hashed := krassovsky_bloomHash_eq part
  rwa [batchKey_length batch.sized within] at hashed

theorem hash16Batch_eq (holds : data.Holds batch.bytes) (fast : batch.klen = 16) {i : Nat}
    (within : i + 8 ≤ batch.n) :
    hash16Batch data i = .ok ((List.range 8).map fun j => batchHash batch (i + j)) := by
  apply mapM_ok
  intro j member
  have inside : j < 8 := List.mem_range.mp member
  have hashed : bloomHash (data.add ((i + j) * batch.klen)) batch.klen = .ok (batchHash batch (i + j)) :=
    keyHash_eq holds (by omega)
  rw [bloomHash, if_pos fast] at hashed
  rwa [← fast]

theorem read_batch {hash : Nat → Uint64} {i : Nat} :
    ∀ j < 8, (Pointer.start ((List.range 8).map fun j => hash (i + j))).read j = .ok (hash (i + j)) := by
  intro j inside
  have entry := Pointer.start_holds ((List.range 8).map fun j => hash (i + j)) j (by simpa using inside)
  rw [entry, List.getElem_map, List.getElem_range]

theorem keys_hashes (holds : data.Holds batch.bytes) :
    (Batch.keys data batch holds).items.map Item.hash = (List.range batch.n).map (batchHash batch) := by
  rw [Batch.items, List.map_map]
  rfl

theorem prehashes_hashes {data : Pointer Uint64} {hashes : List Uint64}
    (holds : data.Holds hashes) :
    (Batch.prehashes data hashes holds).items.map Item.hash = hashes := by
  rw [Batch.items, List.map_map]
  exact List.map_id hashes

/-- A bulk call over keys takes its groups only where they are 16 bytes long. -/
theorem keyLoops_eq {σ : Type} {wide single : σ → Nat → Checked σ} (step : σ → Nat → Checked σ)
    (klen n : Nat)
    (groups : klen = 16 → ∀ acc i, i + 8 ≤ n →
      wide acc i = (List.range' i 8).foldlM step acc)
    (singles : ∀ acc i, i + 1 ≤ n → single acc i = step acc i) (acc : σ) :
    ((if klen = 16 ∧ n ≥ 8 then strideLoop 8 n wide (acc, 0) else pure (acc, 0)) >>=
      strideLoop 1 n single) = (List.range n).foldlM step acc >>= fun final => pure (final, n) := by
  by_cases grouped : klen = 16 ∧ n ≥ 8
  · rw [if_pos grouped]
    exact strideLoop_groups step (by omega) (groups grouped.1) singles
  · rw [if_neg grouped, pure_bind, strideLoop_congr singles, strideLoop_one (Nat.zero_le n),
      Nat.sub_zero, List.range_eq_range']

end Keys

/-- The block of a hash among `2 ^ k`: the `k` bits above those that make its mask. -/
def blockIndex (k : Nat) (h : Uint64) : Nat := h.toNat / 2 ^ 16 % 2 ^ k

def probe (k : Nat) (h : Uint64) : Set Nat :=
  {place | place / 64 = blockIndex k h ∧ (maskOf table h).getLsbD (place % 64) = true}

section Steps

variable {table} {k : Nat} {b : BloomT}

theorem Sized.blockIdx_toNat (sized : Sized k b) (h : Uint64) :
    (blockIdxScalar b h).toNat = blockIndex k h := by
  rw [blockIdxScalar, and_mask_toNat sized.mask_toNat, BitVec.toNat_ushiftRight,
    Nat.shiftRight_eq_div_pow]
  rfl

theorem Sized.found_block (sized : Sized k b) (h : Uint64) :
    b.bv[blockIndex k h]? = some (blockOf b h) := by
  have inside := sized.inside h
  rw [blockOf, List.getD_eq_getElem?_getD, sized.blockIdx_toNat] at *
  rw [List.getElem?_eq_getElem inside, Option.getD_some]

theorem Sized.cells_storeMask (sized : Sized k b) (h : Uint64) :
    setBits (Krassovsky.storeMask table b h).bv = setBits b.bv ∪ probe table k h := by
  rw [Krassovsky.storeMask, sized.blockIdx_toNat]
  exact setBits_orWord (sized.found_block h) (maskOf table h)

theorem Sized.isHit_iff (sized : Sized k b) (h : Uint64) :
    isHit table b h = true ↔ Reports (probe table k) (setBits b.bv) h := by
  have found := sized.found_block h
  rw [isHit, decide_eq_true_eq, and_eq_right_iff]
  refine ⟨?_, ?_⟩
  · intro sub place probed
    obtain ⟨block, bit⟩ := probed
    rw [← block] at found
    exact (mem_setBits_iff found).mpr (sub _ bit)
  · intro reported t bit
    have small : t < 64 := BitVec.lt_of_getLsbD bit
    have quotient : (64 * blockIndex k h + t) / 64 = blockIndex k h := by omega
    have rest : (64 * blockIndex k h + t) % 64 = t := by omega
    have present := reported (show 64 * blockIndex k h + t ∈ probe table k h from
      ⟨quotient, by rwa [rest]⟩)
    rw [← quotient] at found
    rwa [mem_setBits_iff found, rest] at present

theorem implements (table : MaskTable) (k : Nat) (numBlocks : Uint64) :
    Implements (fun item : Item => probe table k item.hash)
      (fun b => Sized k b ∧ b.numBlocks = numBlocks) (fun b => setBits b.bv)
      (insertItem table) (containsItem table) where
  insert := by
    intro b item valid
    refine ⟨Krassovsky.storeMask table b item.hash, ?_,
      ⟨valid.1.storeMask table item.hash, valid.2⟩, valid.1.cells_storeMask item.hash⟩
    rw [insertItem_eq, valid.1.bloomInsertPrehash_eq]
  contains := by
    intro b item valid
    refine ⟨(isHit table b item.hash).toNat, ?_, Bool.toNat_le _, ?_⟩
    · rw [containsItem_eq, valid.1.bloomContainsPrehash_eq]
    · refine Iff.trans ?_ (valid.1.isHit_iff item.hash)
      cases isHit table b item.hash <;> simp

theorem Sized.bloomContainsBulk_eq (sized : Sized k b) {data : Pointer Byte} {batch : KeyBatch}
    (holds : data.Holds batch.bytes) :
    bloomContainsBulk table b data batch.klen batch.n =
      .ok (((List.range batch.n).map (batchHash batch)).countP (isHit table b)) := by
  rw [bloomContainsBulk, ← bind_assoc, keyLoops_eq
    (fun hits i => .ok (hits + (isHit table b (batchHash batch i)).toNat)), bind_assoc,
    foldlM_hits fun i => isHit table b (batchHash batch i), Nat.zero_add, List.countP_map]
  · rfl
  · intro fast hits i within
    rw [hash16Batch_eq holds fast within, Checked.ok_bind,
      sized.bloomContainsBatch8_eq table (batchHash batch) read_batch,
      foldlM_hits fun i => isHit table b (batchHash batch i), Checked.ok_bind, popcount_hitByte]
    rfl
  · intro hits i within
    rw [bloomContains, keyHash_eq holds within]
    simp only [Checked.ok_bind, sized.bloomContainsPrehash_eq, Checked.pure_eq_ok]
    cases isHit table b (batchHash batch i) <;> rfl

/-- A bulk query counts the single queries that are nonzero. -/
theorem Sized.containsBatch_eq (sized : Sized k b) {found : Item → Nat}
    (answers : ∀ item, containsItem table b item = .ok (found item)) (batch : Batch) :
    containsBatch table b batch = .ok (batch.items.countP fun item => found item ≠ 0) := by
  have hit (item : Item) : found item = (isHit table b item.hash).toNat := by
    have answer := answers item
    rw [containsItem_eq, sized.bloomContainsPrehash_eq] at answer
    exact (Except.ok.inj answer).symm
  have counted : (batch.items.countP fun item => found item ≠ 0) =
      (batch.items.map Item.hash).countP (isHit table b) := by
    rw [List.countP_map]
    congr 1
    funext item
    rw [Function.comp_apply, hit]
    cases isHit table b item.hash <;> rfl
  cases batch with
  | single item =>
      have small : found item ≤ 1 := by
        rw [hit]
        exact Bool.toNat_le _
      rw [containsBatch, answers, Batch.items, countP_single small]
  | keys data batch holds =>
      rw [counted, keys_hashes, containsBatch, sized.bloomContainsBulk_eq holds]
  | prehashes data hashes holds =>
      rw [counted, prehashes_hashes]
      exact sized.bloomContainsBatch8Bulk_eq table holds

end Steps

/-- Every bit of the mask of `h` is in the mask of an inserted hash of its block. -/
def Covered (b : BloomT) (inserted : List Uint64) (h : Uint64) : Prop :=
  ∀ mask t, constructMaskScalar table h = .ok mask → mask.getLsbD t = true →
    ∃ earlier ∈ inserted, blockIdxScalar b earlier = blockIdxScalar b h ∧
      ∃ other, constructMaskScalar table earlier = .ok other ∧ other.getLsbD t = true

section Exact

variable {table} {k : Nat} {b : BloomT}

theorem Sized.reports_iff_covered (sized : Sized k b) (inserted : List Uint64) (h : Uint64) :
    Reports (probe table k) (insertAll (probe table k) ∅ inserted) h ↔
      Covered table b inserted h := by
  have same (left right : Uint64) : blockIdxScalar b left = blockIdxScalar b right ↔
      blockIndex k left = blockIndex k right := by
    rw [← sized.blockIdx_toNat, ← sized.blockIdx_toNat]
    exact ⟨congrArg _, BitVec.eq_of_toNat_eq⟩
  rw [reports_insertAll_empty]
  simp only [Covered, same, constructMaskScalar_eq, Except.ok.injEq, exists_eq_left']
  refine ⟨?_, ?_⟩
  · intro probed mask t made bit
    subst made
    have small : t < 64 := BitVec.lt_of_getLsbD bit
    have quotient : (64 * blockIndex k h + t) / 64 = blockIndex k h := by omega
    have rest : (64 * blockIndex k h + t) % 64 = t := by omega
    obtain ⟨earlier, member, block, found⟩ :=
      probed (64 * blockIndex k h + t) ⟨quotient, by rwa [rest]⟩
    rw [quotient] at block
    rw [rest] at found
    exact ⟨earlier, member, block.symm, found⟩
  · intro covered place probed
    obtain ⟨block, bit⟩ := probed
    obtain ⟨earlier, member, sameBlock, found⟩ := covered _ _ rfl bit
    exact ⟨earlier, member, block.trans sameBlock.symm, found⟩

end Exact

end Quickbloom.Krassovsky
