import Quickbloom.Filter.Geometry
import Quickbloom.Filter.Hash

namespace Quickbloom.Filter

open Quickbloom.Data Quickbloom.Machine Quickbloom.Source

/-! # Every insert path is a sequence of prehash inserts

The equations hold between programs, so they hold for the vector accesses other
threads can observe and not only for the final array.
-/

variable {b : BloomT}

def insertEach (b : BloomT) (hashes : List Uint64) : Program Unit :=
  hashes.forM (qbInsertPrehash b)

@[simp] theorem insertEach_nil : insertEach b [] = .done () := rfl

theorem insertEach_cons (h : Uint64) (rest : List Uint64) :
    insertEach b (h :: rest) = qbInsertPrehash b h >>= fun _ => insertEach b rest := rfl

theorem insertEach_append (first second : List Uint64) :
    insertEach b (first ++ second) = insertEach b first >>= fun _ => insertEach b second := by
  induction first with
  | nil => rfl
  | cons h rest ih => rw [List.cons_append, insertEach_cons, insertEach_cons, ih, bind_assoc]

theorem qbInsert_eq {key : Pointer Byte} {bytes : List Byte} (holds : key.Holds bytes) :
    qbInsert b key bytes.length = qbInsertPrehash b (keyHash bytes) := by
  rw [qbInsert, bloomHash_eq_keyHash holds]
  rfl

theorem qbContains_eq {key : Pointer Byte} {bytes : List Byte} (holds : key.Holds bytes) :
    qbContains b key bytes.length = qbContainsPrehash b (keyHash bytes) := by
  rw [qbContains, bloomHash_eq_keyHash holds]
  rfl

/-- The body of both unrolled loops. All block offsets are taken before the
first access, and each block is stored before the next one is loaded. -/
theorem applyMask_group (h0 h1 h2 h3 : Uint64) :
    (do
      let p0 ← blockFor b h0
      let p1 ← blockFor b h1
      let p2 ← blockFor b h2
      let p3 ← blockFor b h3
      applyMask p0 (maskFor (h0.setWidth 32))
      applyMask p1 (maskFor (h1.setWidth 32))
      applyMask p2 (maskFor (h2.setWidth 32))
      applyMask p3 (maskFor (h3.setWidth 32)) : Program Unit) =
    insertEach b [h0, h1, h2, h3] := by
  by_cases undefined : 64 ≤ b.idxShift.toNat
  · -- The shift count is the same for all four, so the first one faults either way.
    simp only [insertEach_cons, qbInsertPrehash, blockFor, undefined, ↓reduceIte,
      Program.lift_error, Program.fault_bind]
  · simp only [insertEach_cons, insertEach_nil, qbInsertPrehash, applyMask, blockFor, undefined,
      ↓reduceIte, Program.lift_ok, Program.done_bind, mm256LoadSi256, mm256StoreSi256,
      Program.load_bind, Program.store_bind]

private theorem foldlM_insert (hash : Nat → Uint64) (indices : List Nat) :
    indices.foldlM (fun _ i => qbInsertPrehash b (hash i)) () =
      insertEach b (indices.map hash) := by
  induction indices with
  | nil => rfl
  | cons i rest ih => rw [List.foldlM_cons, List.map_cons, insertEach_cons, ← ih]

theorem unrolled_insert {n : Nat} (hash : Nat → Uint64) {wide single : Unit → Nat → Program Unit}
    (wideEq : ∀ acc i, i + 4 ≤ n →
      wide acc i = insertEach b [hash i, hash (i + 1), hash (i + 2), hash (i + 3)])
    (singleEq : ∀ acc i, i + 1 ≤ n → single acc i = qbInsertPrehash b (hash i)) :
    (strideLoop 4 n wide ((), 0) >>= strideLoop 1 n single) =
      insertEach b ((List.range n).map hash) >>= fun _ => .done ((), n) := by
  rw [strideLoop_four (fun _ i => qbInsertPrehash b (hash i)) _ singleEq, foldlM_insert]
  · rfl
  · intro acc i within
    rw [wideEq acc i within, foldlM_insert]
    rfl

theorem qbInsertPrehashBulk_eq {pointer : Pointer Uint64} {hashes : List Uint64}
    (holds : pointer.Holds hashes) :
    qbInsertPrehashBulk b pointer hashes.length = insertEach b hashes := by
  have entry : ∀ i, i < hashes.length → pointer.read i = .ok (hashes.getD i 0) :=
    fun i bound => holds.read_getD bound
  rw [qbInsertPrehashBulk, ← bind_assoc, unrolled_insert (fun i => hashes.getD i 0),
    map_getD_range, bind_assoc]
  · exact bind_pure_unit
  · intro _ i within
    rw [← applyMask_group]
    simp only [Nat.add_zero, entry i (by omega), entry (i + 1) (by omega), entry (i + 2) (by omega),
      entry (i + 3) (by omega), Program.lift_ok, Program.done_bind]
  · intro _ i within
    rw [entry i within]
    rfl

def batchKey (bytes : List Byte) (klen i : Nat) : List Byte := (bytes.drop (i * klen)).take klen

def batchHashes (bytes : List Byte) (klen n : Nat) : List Uint64 :=
  (List.range n).map fun i => keyHash (batchKey bytes klen i)

section Batch

variable {keys : Pointer Byte} {bytes : List Byte} {klen n i : Nat}

theorem batchKey_length (sized : bytes.length = n * klen) (bound : i < n) :
    (batchKey bytes klen i).length = klen := by
  have next : (i + 1) * klen ≤ n * klen := Nat.mul_le_mul_right klen bound
  rw [Nat.add_mul, Nat.one_mul] at next
  rw [batchKey, List.length_take, List.length_drop]
  omega

theorem batchKey_holds (holds : keys.Holds bytes) :
    (keys.add (i * klen)).Holds (batchKey bytes klen i) :=
  (holds.add (i * klen)).take klen

theorem bloomHash_batchKey (holds : keys.Holds bytes) (sized : bytes.length = n * klen)
    (bound : i < n) :
    bloomHash (keys.add (i * klen)) klen = .ok (keyHash (batchKey bytes klen i)) := by
  have placed : (keys.add (i * klen)).Holds (batchKey bytes klen i) := batchKey_holds holds
  have returned := bloomHash_eq_keyHash placed
  rwa [batchKey_length sized bound] at returned

theorem qbInsertBulk_eq (holds : keys.Holds bytes) (sized : bytes.length = n * klen) :
    qbInsertBulk b keys klen n = insertEach b (batchHashes bytes klen n) := by
  have single : ∀ (acc : Unit) (i : Nat), i + 1 ≤ n →
      qbInsert b (keys.add (i * klen)) klen =
        qbInsertPrehash b (keyHash (batchKey bytes klen i)) := by
    intro _ i within
    rw [qbInsert, bloomHash_batchKey holds sized within]
    rfl
  by_cases fast : klen = 16
  · subst fast
    have hashed : ∀ i, i < n →
        hash16 (keys.add (i * 16)) = .ok (keyHash (batchKey bytes 16 i)) :=
      fun i bound => bloomHash_batchKey holds sized bound
    rw [qbInsertBulk, if_pos rfl, ← bind_assoc,
      unrolled_insert (fun i => keyHash (batchKey bytes 16 i)) _ single, bind_assoc]
    · exact bind_pure_unit
    · intro _ i within
      rw [← applyMask_group]
      simp only [Nat.add_zero, hashed i (by omega), hashed (i + 1) (by omega),
        hashed (i + 2) (by omega), hashed (i + 3) (by omega), Program.lift_ok, Program.done_bind]
  · rw [qbInsertBulk, if_neg fast, pure_bind]
    beta_reduce
    rw [strideLoop_congr single, strideLoop_one (Nat.zero_le n), Nat.sub_zero, foldlM_insert, bind_assoc,
      ← List.range_eq_range']
    exact bind_pure_unit

end Batch

end Quickbloom.Filter
