import Quickbloom.Classic.Cells
import Quickbloom.Filter.Runs
import Quickbloom.Probe.Calls

namespace Quickbloom.Classic

open Quickbloom.Data Quickbloom.Machine Quickbloom.Probe
open Quickbloom.Source (Uint64)
open Quickbloom.Source.Classic
open Quickbloom.Filter (KeyBatch batchKey batchKey_length batchKey_holds)

/-! # Single items, batches of items and runs of batches -/

inductive Item where
  | key (data : Pointer Byte) (bytes : List Byte) (holds : data.Holds bytes)
  | prehash (h : Uint64)

namespace Item

def pair : Item → Checked (Uint64 × Uint64)
  | .key data bytes _ => bloomHashPair data bytes.length
  | .prehash h => .ok (prehashSplit h)

def insert (b : BloomT) : Item → Checked BloomT
  | .key data bytes _ => bloomInsert b data bytes.length
  | .prehash h => bloomInsertPrehash b h

def contains (b : BloomT) : Item → Checked Nat
  | .key data bytes _ => bloomContains b data bytes.length
  | .prehash h => bloomContainsPrehash b h

def hash : Item → Uint64
  | .key _ bytes _ => firstHash bytes
  | .prehash h => h

theorem pair_eq (item : Item) : item.pair = .ok (prehashSplit item.hash) := by
  cases item with
  | key data bytes holds => exact bloomHashPair_eq holds
  | prehash h => rfl

theorem insert_eq (b : BloomT) (item : Item) : item.insert b = bloomInsertPrehash b item.hash := by
  cases item with
  | key data bytes holds =>
      rw [insert, bloomInsert, bloomHashPair_eq holds]
      rfl
  | prehash h => rfl

theorem contains_eq (b : BloomT) (item : Item) :
    item.contains b = bloomContainsPrehash b item.hash := by
  cases item with
  | key data bytes holds =>
      rw [contains, bloomContains, bloomHashPair_eq holds]
      rfl
  | prehash h => rfl

theorem hash_eq_of_pair {left right : Item} (same : left.pair = right.pair) :
    left.hash = right.hash := by
  rw [left.pair_eq, right.pair_eq] at same
  exact congrArg Prod.fst (Except.ok.inj same)

end Item

/-- The argument of a single call or of a bulk call. -/
inductive Batch where
  | single (item : Item)
  | keys (data : Pointer Byte) (batch : KeyBatch) (holds : data.Holds batch.bytes)
  | prehashes (data : Pointer Uint64) (hashes : List Uint64) (holds : data.Holds hashes)

namespace Batch

def items : Batch → List Item
  | .single item => [item]
  | .keys data batch holds => (List.range batch.n).map fun i =>
    .key (data.add (i * batch.klen)) (batchKey batch.bytes batch.klen i) (batchKey_holds holds)
  | .prehashes _ hashes _ => hashes.map .prehash

def insert (b : BloomT) : Batch → Checked BloomT
  | .single item => item.insert b
  | .keys data batch _ => bloomInsertBulk b data batch.klen batch.n
  | .prehashes data hashes _ => bloomInsertPrehashBulk b data hashes.length

def contains (b : BloomT) : Batch → Checked Nat
  | .single item => item.contains b
  | .keys data batch _ => bloomContainsBulk b data batch.klen batch.n
  | .prehashes data hashes _ => bloomContainsPrehashBulk b data hashes.length

end Batch

section Loops

variable {σ : Type} {step : σ → Item → Checked σ}

/-- The loop of a bulk call over keys. -/
theorem Batch.keys_fold (single : σ → Pointer Byte → Nat → Checked σ)
    (keyed : ∀ acc data bytes holds, step acc (.key data bytes holds) = single acc data bytes.length)
    {data : Pointer Byte} {batch : KeyBatch} (holds : data.Holds batch.bytes) (acc : σ) :
    (strideLoop 1 batch.n (fun acc i => single acc (data.add (i * batch.klen)) batch.klen) (acc, 0)
      >>= fun last => pure last.1) = (Batch.keys data batch holds).items.foldlM step acc := by
  refine strideLoop_items step _ ?_ acc
  intro acc i within
  have length : (batchKey batch.bytes batch.klen i).length = batch.klen :=
    batchKey_length batch.sized within
  rw [keyed, length]

/-- The loop of a bulk call over hashes. -/
theorem Batch.prehashes_fold (single : σ → Uint64 → Checked σ)
    (hashed : ∀ acc h, step acc (.prehash h) = single acc h) {data : Pointer Uint64}
    {hashes : List Uint64} (holds : data.Holds hashes) (acc : σ) :
    (strideLoop 1 hashes.length (fun acc i => do single acc (← data.read i)) (acc, 0)
      >>= fun last => pure last.1) = (Batch.prehashes data hashes holds).items.foldlM step acc := by
  have items : (List.range hashes.length).map (fun i => Item.prehash (hashes.getD i 0)) =
      (Batch.prehashes data hashes holds).items := by
    rw [Batch.items]
    conv_rhs => rw [← map_getD_range hashes 0]
    rw [List.map_map]
    rfl
  rw [← items]
  refine strideLoop_items step _ ?_ acc
  intro acc i within
  have entry : data.read i = .ok (hashes.getD i 0) := holds.read_getD within
  rw [entry, hashed]
  rfl

end Loops

theorem Batch.insert_eq (b : BloomT) (batch : Batch) :
    batch.insert b = batch.items.foldlM Item.insert b := by
  cases batch with
  | single item => exact (bind_pure _).symm
  | keys data batch holds => exact keys_fold bloomInsert (fun _ _ _ _ => rfl) holds b
  | prehashes data hashes holds => exact prehashes_fold bloomInsertPrehash (fun _ _ => rfl) holds b

def countItem (b : BloomT) (hits : Nat) (item : Item) : Checked Nat := do
  let found ← item.contains b
  return if found ≠ 0 then hits + 1 else hits

section Runs

variable {k : Nat} {b : BloomT}

/-- Inserts keep the mask of the filter. -/
theorem implements (k : Nat) (mask : Source.SizeT) :
    Implements (fun item : Item => probe k item.hash) (fun b => Allocated k b ∧ b.bitMask = mask)
      (fun b => setBits b.bits) (fun b item => item.insert b) (fun b item => item.contains b) where
  insert := by
    intro b item valid
    obtain ⟨after, set, afterValid, same, cells⟩ := valid.1.bloomInsertPrehash_ok item.hash
    exact ⟨after, (item.insert_eq b).trans set, ⟨afterValid, same.trans valid.2⟩, cells⟩
  contains := by
    intro b item valid
    obtain ⟨found, small, returned, exact⟩ := valid.1.bloomContainsPrehash_ok item.hash
    exact ⟨found, (item.contains_eq b).trans returned, small, exact⟩

theorem Allocated.found (valid : Allocated k b) :
    ∃ found : Item → Nat, ∀ item, item.contains b = .ok (found item) ∧ found item ≤ 1 ∧
      (found item ≠ 0 ↔ Reports (probe k) (setBits b.bits) item.hash) :=
  (implements k b.bitMask).answers ⟨valid, rfl⟩

/-- A bulk query counts the single queries that are nonzero. -/
theorem Batch.contains_counts {found : Item → Nat}
    (answers : ∀ item : Item, item.contains b = .ok (found item) ∧ found item ≤ 1) (batch : Batch) :
    batch.contains b = .ok (batch.items.countP fun item => found item ≠ 0) := by
  have fold : batch.items.foldlM (countItem b) 0 = _ :=
    foldlM_count (fun item => (answers item).1) 0 batch.items
  rw [Nat.zero_add] at fold
  cases batch with
  | single item => rw [Batch.contains, (answers item).1, Batch.items, countP_single (answers item).2]
  | keys data batch holds =>
      refine (keys_fold (fun hits data len => addHit hits (bloomContains b data len)) ?_ holds 0).trans
        fold
      exact fun _ _ _ _ => rfl
  | prehashes data hashes holds =>
      refine (prehashes_fold (fun hits h => addHit hits (bloomContainsPrehash b h)) ?_ holds 0).trans
        fold
      exact fun _ _ => rfl

theorem Allocated.insert_item (valid : Allocated k b) (item : Item) :
    ∃ after, item.insert b = .ok after ∧ Allocated k after ∧ after.bitMask = b.bitMask ∧
      setBits after.bits = setBits b.bits ∪ probe k item.hash := by
  rw [item.insert_eq]
  exact valid.bloomInsertPrehash_ok item.hash

theorem Allocated.insert_items (valid : Allocated k b) (items : List Item) :
    ∃ after, items.foldlM Item.insert b = .ok after ∧ Allocated k after ∧
      after.bitMask = b.bitMask ∧
      setBits after.bits = insertAll (probe k) (setBits b.bits) (items.map Item.hash) := by
  obtain ⟨after, ran, afterValid, cells⟩ := (implements k b.bitMask).insertEach ⟨valid, rfl⟩ items
  rw [← insertAll_map] at cells
  exact ⟨after, ran, afterValid.1, afterValid.2, cells⟩

def insertRun (b : BloomT) (batches : List Batch) : Checked BloomT := batches.foldlM Batch.insert b

theorem insertRun_items (b : BloomT) (batches : List Batch) :
    insertRun b batches = (batches.flatMap Batch.items).foldlM Item.insert b :=
  foldlM_flatMap Batch.insert_eq batches b

theorem Allocated.insertRun_ok (valid : Allocated k b) (batches : List Batch) :
    ∃ after, insertRun b batches = .ok after ∧ Allocated k after ∧ after.bitMask = b.bitMask ∧
      setBits after.bits =
        insertAll (probe k) (setBits b.bits) ((batches.flatMap Batch.items).map Item.hash) := by
  rw [insertRun_items]
  exact valid.insert_items _

end Runs

end Quickbloom.Classic
