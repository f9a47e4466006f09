import Quickbloom.Filter.Insert

namespace Quickbloom.Filter

open Quickbloom.Data Quickbloom.Machine Quickbloom.Source Quickbloom.Probe

/-! # What calls do to a filter

Run to its end by one thread, an insert adds the probed cells and a query
decides whether they are all set. Neither leaves the array.
-/

section Programs

variable {k : Nat} {b : BloomT} {bits : Words}

/-- On a well-formed header an insert is one load and one store of its block. -/
theorem HeaderOf.qbInsertPrehash_eq (header : HeaderOf k b) (h : Uint64) :
    qbInsertPrehash b h = applyMask (8 * blockIndex k h) (maskFor (h.setWidth 32)) := by
  rw [qbInsertPrehash, header.blockFor_eq]
  rfl

theorem HeaderOf.qbContainsPrehash_eq (header : HeaderOf k b) (h : Uint64) :
    qbContainsPrehash b h = .load (8 * blockIndex k h) fun cur =>
      .done (mm256TestcSi256 cur (maskFor (h.setWidth 32))) := by
  rw [qbContainsPrehash, header.blockFor_eq]
  rfl

theorem applyMask_exec {block : Nat} (inside : 8 * block + 8 ≤ bits.length) (mask : M256i) :
    (applyMask (8 * block) mask).exec bits =
      .ok ((), writeVector bits (8 * block)
        (mm256OrSi256 (readVector bits (8 * block)) mask)) := by
  change (Program.load _ fun cur => .store _ (mm256OrSi256 cur mask) (.done ())).exec bits = _
  rw [Program.exec_load (by omega) inside, Program.exec_store (by omega) inside, Program.exec_done]

theorem HeaderOf.insertEach_exec (header : HeaderOf k b) (length : bits.length = 8 * 2 ^ k)
    (hashes : List Uint64) :
    ∃ after, (insertEach b hashes).exec bits = .ok ((), after) ∧ after.length = 8 * 2 ^ k ∧
      contents after = insertAll (probe k) (contents bits) hashes := by
  induction hashes generalizing bits with
  | nil => exact ⟨bits, rfl, length, rfl⟩
  | cons h rest ih =>
      have inside := header.inside length h
      let next := writeVector bits (8 * blockIndex k h)
        (mm256OrSi256 (readVector bits (8 * blockIndex k h)) (maskFor (h.setWidth 32)))
      have nextLength : next.length = 8 * 2 ^ k := (writeVector_length inside _).trans length
      have nextContents : contents next = contents bits ∪ probe k h := by
        rw [contents_writeVector inside, maskCells_maskFor]
      obtain ⟨after, ran, afterLength, afterContents⟩ := ih nextLength
      refine ⟨after, ?_, afterLength, ?_⟩
      · rw [insertEach_cons, header.qbInsertPrehash_eq, Program.exec_bind, applyMask_exec inside]
        exact ran
      · rw [afterContents, nextContents, insertAll_cons]

theorem HeaderOf.qbContainsPrehash_exec (header : HeaderOf k b) (length : bits.length = 8 * 2 ^ k)
    (h : Uint64) :
    ∃ found, (qbContainsPrehash b h).exec bits = .ok (found, bits) ∧
      (found ≠ 0 ↔ Reports (probe k) (contents bits) h) := by
  have inside := header.inside length h
  refine ⟨mm256TestcSi256 (readVector bits (8 * blockIndex k h)) (maskFor (h.setWidth 32)), ?_, ?_⟩
  · rw [header.qbContainsPrehash_eq, Program.exec_load (by omega) inside, Program.exec_done]
  · rw [mm256TestcSi256_ne_zero_iff, subword_readVector_iff inside, maskCells_maskFor, Reports]

end Programs

section Calls

variable {k : Nat} {b : BloomT}

theorem BloomT.call_insertEach_cons (h : Uint64) (rest : List Uint64) :
    b.call (fun b => insertEach b (h :: rest)) =
      b.call (fun b => qbInsertPrehash b h) >>= fun next => next.call fun b => insertEach b rest := by
  simp only [BloomT.call, BloomT.run, insertEach_cons, Program.exec_bind, bind_assoc,
    Checked.pure_eq_ok, Checked.ok_bind]
  rfl

theorem BloomT.call_insertEach (hashes : List Uint64) :
    b.call (fun b => insertEach b hashes) =
      b.callEach (hashes.map fun h b => qbInsertPrehash b h) := by
  induction hashes generalizing b with
  | nil => rfl
  | cons h rest ih =>
      rw [BloomT.call_insertEach_cons, List.map_cons, BloomT.callEach, List.foldlM_cons]
      exact congrArg _ (funext fun next => ih)

theorem WellFormed.insertEach_run (valid : WellFormed k b) (hashes : List Uint64) :
    ∃ after, b.run (insertEach b hashes) = .ok ((), after) ∧ WellFormed k after ∧
      contents after.bits = insertAll (probe k) (contents b.bits) hashes ∧
      after.nblocksMask = b.nblocksMask ∧ after.idxShift = b.idxShift := by
  obtain ⟨bits, ran, length, cells⟩ := valid.toHeaderOf.insertEach_exec valid.words hashes
  refine ⟨{ b with bits }, ?_, valid.withBits length, cells, rfl, rfl⟩
  rw [BloomT.run, ran]
  rfl

theorem WellFormed.insertEach_call (valid : WellFormed k b) (hashes : List Uint64) :
    ∃ after, b.call (fun b => insertEach b hashes) = .ok after ∧ WellFormed k after ∧
      contents after.bits = insertAll (probe k) (contents b.bits) hashes ∧
      after.nblocksMask = b.nblocksMask ∧ after.idxShift = b.idxShift := by
  obtain ⟨after, ran, rest⟩ := valid.insertEach_run hashes
  refine ⟨after, ?_, rest⟩
  rw [BloomT.call, ran]
  rfl

theorem WellFormed.qbContainsPrehash_run (valid : WellFormed k b) (h : Uint64) :
    ∃ found, b.run (qbContainsPrehash b h) = .ok (found, b) ∧
      (found ≠ 0 ↔ Reports (probe k) (contents b.bits) h) := by
  obtain ⟨found, ran, reports⟩ := valid.toHeaderOf.qbContainsPrehash_exec valid.words h
  refine ⟨found, ?_, reports⟩
  rw [BloomT.run, ran]
  rfl

theorem qbInsertBulk_call {klen n : Nat} {bytes : List Byte} (sized : bytes.length = n * klen) :
    b.call (fun b => qbInsertBulk b (Pointer.start bytes) klen n) =
      b.call (fun b => insertEach b (batchHashes bytes klen n)) := by
  rw [funext fun b => qbInsertBulk_eq (b := b) (Pointer.start_holds bytes) sized]

theorem qbInsertPrehashBulk_call (hashes : List Uint64) :
    b.call (fun b => qbInsertPrehashBulk b (Pointer.start hashes) hashes.length) =
      b.call (fun b => insertEach b hashes) := by
  rw [funext fun b => qbInsertPrehashBulk_eq (b := b) (Pointer.start_holds hashes)]

theorem callEach_qbInsert {keys : Pointer Byte} {klen n : Nat} {bytes : List Byte}
    (holds : keys.Holds bytes) (sized : bytes.length = n * klen) :
    b.callEach ((List.range n).map fun i b => qbInsert b (keys.add (i * klen)) klen) =
      b.call (fun b => insertEach b (batchHashes bytes klen n)) := by
  have single : ∀ i ∈ List.range n,
      (fun b => qbInsertPrehash b (keyHash (batchKey bytes klen i))) =
        fun b => qbInsert b (keys.add (i * klen)) klen := by
    intro i member
    funext b
    rw [qbInsert, bloomHash_batchKey holds sized (List.mem_range.mp member)]
    rfl
  rw [BloomT.call_insertEach, batchHashes, List.map_map]
  exact congrArg _ (List.map_congr_left single).symm

/-- The bulk inserts leave the filter that the single inserts leave, on every
filter and for every batch, whichever blocks of a group coincide. On a
well-formed filter both return, and leave a well-formed one. -/
theorem qbInsertBulk_refines (b : BloomT) :
    (∀ (klen n : Nat) (bytes : List Byte), bytes.length = n * klen →
      b.call (fun b => qbInsertBulk b (Pointer.start bytes) klen n) =
        b.callEach ((List.range n).map fun i b =>
          qbInsert b ((Pointer.start bytes).add (i * klen)) klen)) ∧
    (∀ hashes : List Uint64,
      b.call (fun b => qbInsertPrehashBulk b (Pointer.start hashes) hashes.length) =
        b.callEach (hashes.map fun h b => qbInsertPrehash b h)) ∧
    ∀ k, WellFormed k b →
      (∀ (klen n : Nat) (bytes : List Byte), bytes.length = n * klen →
        ∃ after, WellFormed k after ∧
          b.call (fun b => qbInsertBulk b (Pointer.start bytes) klen n) = .ok after ∧
          b.callEach ((List.range n).map fun i b =>
            qbInsert b ((Pointer.start bytes).add (i * klen)) klen) = .ok after) ∧
      (∀ hashes : List Uint64,
        ∃ after, WellFormed k after ∧
          b.call (fun b => qbInsertPrehashBulk b (Pointer.start hashes) hashes.length) =
            .ok after ∧
          b.callEach (hashes.map fun h b => qbInsertPrehash b h) = .ok after) := by
  refine ⟨?_, ?_, ?_⟩
  · intro klen n bytes sized
    rw [qbInsertBulk_call sized, callEach_qbInsert (Pointer.start_holds bytes) sized]
  · intro hashes
    rw [qbInsertPrehashBulk_call, BloomT.call_insertEach]
  · intro k valid
    refine ⟨?_, ?_⟩
    · intro klen n bytes sized
      obtain ⟨after, ran, afterValid, _⟩ := valid.insertEach_call (batchHashes bytes klen n)
      refine ⟨after, afterValid, ?_, ?_⟩
      · rw [qbInsertBulk_call sized, ran]
      · rw [callEach_qbInsert (Pointer.start_holds bytes) sized, ran]
    · intro hashes
      obtain ⟨after, ran, afterValid, _⟩ := valid.insertEach_call hashes
      refine ⟨after, afterValid, ?_, ?_⟩
      · rw [qbInsertPrehashBulk_call, ran]
      · rw [← BloomT.call_insertEach, ran]

theorem qbInsertBulk_refines_equalKeys :
    ∃ after, WellFormed 0 after ∧
      (emptyFilter 0).call (fun b => qbInsertBulk b (Pointer.start (List.replicate 80 1)) 16 5) =
        .ok after ∧
      (emptyFilter 0).callEach ((List.range 5).map fun i b =>
        qbInsert b ((Pointer.start (List.replicate 80 1)).add (i * 16)) 16) = .ok after :=
  ((qbInsertBulk_refines (emptyFilter 0)).2.2 0 (emptyFilter_wellFormed (by omega))).1 16 5 _
    (by decide)

end Calls

end Quickbloom.Filter
