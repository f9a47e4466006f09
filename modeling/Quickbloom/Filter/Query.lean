import Quickbloom.Filter.Execution

namespace Quickbloom.Filter

open Quickbloom.Data Quickbloom.Machine Quickbloom.Source Quickbloom.Probe

/-! # Every bulk query is a sequence of prehash queries

As for the inserts, the equations hold between programs: an unrolled group
loads its four blocks in the order in which single queries would.
-/

variable {b : BloomT}

def containsEach (b : BloomT) (hits : Nat) (hashes : List Uint64) : Program Nat :=
  hashes.foldlM (fun hits h => do
    let found ← qbContainsPrehash b h
    return hits + found) hits

theorem containsEach_cons (hits : Nat) (h : Uint64) (rest : List Uint64) :
    containsEach b hits (h :: rest) =
      qbContainsPrehash b h >>= fun found => containsEach b (hits + found) rest := by
  simp only [containsEach, List.foldlM_cons, bind_assoc, pure_bind]

/-- Counting a query by truth value is adding its result. -/
theorem count_contains (h : Uint64) (hits : Nat) :
    (do
      let found ← qbContainsPrehash b h
      return if found ≠ 0 then hits + 1 else hits : Program Nat) =
    containsEach b hits [h] := by
  have count : ∀ cur mask : M256i,
      (if mm256TestcSi256 cur mask ≠ 0 then hits + 1 else hits) =
        hits + mm256TestcSi256 cur mask := by
    intro cur mask
    simp only [mm256TestcSi256]
    split <;> rfl
  cases offset : blockFor b h with
  | error reason => simp only [containsEach_cons, qbContainsPrehash, offset, Program.lift_error,
      Program.fault_bind]
  | ok blk =>
      simp only [containsEach_cons, qbContainsPrehash, offset, Program.lift_ok, Program.done_bind,
        mm256LoadSi256, Program.load_bind, Program.pure_eq_done, count]
      rfl

theorem contains_group (hits : Nat) (h0 h1 h2 h3 : Uint64) :
    (do
      let p0 ← blockFor b h0
      let p1 ← blockFor b h1
      let p2 ← blockFor b h2
      let p3 ← blockFor b h3
      let c0 ← mm256LoadSi256 p0
      let c1 ← mm256LoadSi256 p1
      let c2 ← mm256LoadSi256 p2
      let c3 ← mm256LoadSi256 p3
      return hits + mm256TestcSi256 c0 (maskFor (h0.setWidth 32))
        + mm256TestcSi256 c1 (maskFor (h1.setWidth 32))
        + mm256TestcSi256 c2 (maskFor (h2.setWidth 32))
        + mm256TestcSi256 c3 (maskFor (h3.setWidth 32)) : Program Nat) =
    containsEach b hits [h0, h1, h2, h3] := by
  by_cases undefined : 64 ≤ b.idxShift.toNat
  · simp only [containsEach_cons, qbContainsPrehash, blockFor, undefined, ↓reduceIte,
      Program.lift_error, Program.fault_bind]
  · simp only [containsEach_cons, qbContainsPrehash, blockFor, undefined, ↓reduceIte,
      Program.lift_ok, Program.done_bind, mm256LoadSi256, Program.load_bind, Program.pure_eq_done]
    rfl

private theorem foldlM_contains (hash : Nat → Uint64) (indices : List Nat) (hits : Nat) :
    indices.foldlM (fun hits i => containsEach b hits [hash i]) hits =
      containsEach b hits (indices.map hash) := by
  induction indices generalizing hits with
  | nil => rfl
  | cons i rest ih =>
      rw [List.foldlM_cons, List.map_cons, containsEach_cons, containsEach_cons, bind_assoc]
      exact congrArg _ (funext fun found => ih (hits + found))

theorem unrolled_contains {n : Nat} (hash : Nat → Uint64) {wide single : Nat → Nat → Program Nat}
    (wideEq : ∀ hits i, i + 4 ≤ n →
      wide hits i = containsEach b hits [hash i, hash (i + 1), hash (i + 2), hash (i + 3)])
    (singleEq : ∀ hits i, i + 1 ≤ n → single hits i = containsEach b hits [hash i]) :
    (strideLoop 4 n wide (0, 0) >>= strideLoop 1 n single) =
      containsEach b 0 ((List.range n).map hash) >>= fun hits => .done (hits, n) := by
  rw [strideLoop_four (fun hits i => containsEach b hits [hash i]) _ singleEq, foldlM_contains]
  · rfl
  · intro hits i within
    rw [wideEq hits i within, foldlM_contains]
    rfl

theorem qbContainsPrehashBulk_eq {pointer : Pointer Uint64} {hashes : List Uint64}
    (holds : pointer.Holds hashes) :
    qbContainsPrehashBulk b pointer hashes.length = containsEach b 0 hashes := by
  have entry : ∀ i, i < hashes.length → pointer.read i = .ok (hashes.getD i 0) :=
    fun i bound => holds.read_getD bound
  rw [qbContainsPrehashBulk, ← bind_assoc, unrolled_contains (fun i => hashes.getD i 0),
    map_getD_range, bind_assoc]
  · exact bind_pure _
  · intro hits i within
    rw [← contains_group]
    simp only [Nat.add_zero, entry i (by omega), entry (i + 1) (by omega), entry (i + 2) (by omega),
      entry (i + 3) (by omega), Program.lift_ok, Program.done_bind]
  · intro hits i within
    rw [← count_contains, entry i within]
    rfl

theorem qbContainsBulk_eq {keys : Pointer Byte} {bytes : List Byte} {klen n : Nat}
    (holds : keys.Holds bytes) (sized : bytes.length = n * klen) :
    qbContainsBulk b keys klen n = containsEach b 0 (batchHashes bytes klen n) := by
  have single : ∀ hits i, i + 1 ≤ n →
      (do
        let found ← qbContains b (keys.add (i * klen)) klen
        return if found ≠ 0 then hits + 1 else hits : Program Nat) =
      containsEach b hits [keyHash (batchKey bytes klen i)] := by
    intro hits i within
    rw [← count_contains, qbContains, bloomHash_batchKey holds sized within]
    rfl
  by_cases fast : klen = 16
  · subst fast
    have hashed : ∀ i, i < n →
        hash16 (keys.add (i * 16)) = .ok (keyHash (batchKey bytes 16 i)) :=
      fun i bound => bloomHash_batchKey holds sized bound
    rw [qbContainsBulk, if_pos rfl, ← bind_assoc,
      unrolled_contains (fun i => keyHash (batchKey bytes 16 i)) _ single, bind_assoc]
    · exact bind_pure _
    · intro hits i within
      rw [← contains_group]
      simp only [Nat.add_zero, hashed i (by omega), hashed (i + 1) (by omega),
        hashed (i + 2) (by omega), hashed (i + 3) (by omega), Program.lift_ok, Program.done_bind]
  · rw [qbContainsBulk, if_neg fast, pure_bind]
    beta_reduce
    rw [strideLoop_congr single, strideLoop_one (Nat.zero_le n), Nat.sub_zero, foldlM_contains,
      bind_assoc, ← List.range_eq_range']
    exact bind_pure _

theorem HeaderOf.containsEach_exec {k : Nat} {bits : Words} (header : HeaderOf k b)
    (length : bits.length = 8 * 2 ^ k) (hits : Nat) (hashes : List Uint64) :
    ∃ total, (containsEach b hits hashes).exec bits = .ok (total, bits) := by
  induction hashes generalizing hits with
  | nil => exact ⟨hits, rfl⟩
  | cons h rest ih =>
      obtain ⟨found, ran, _⟩ := header.qbContainsPrehash_exec length h
      obtain ⟨total, counted⟩ := ih (hits + found)
      refine ⟨total, ?_⟩
      rw [containsEach_cons, Program.exec_bind, ran]
      exact counted

theorem WellFormed.containsEach_run {k : Nat} (valid : WellFormed k b) (hashes : List Uint64) :
    ∃ total, b.run (containsEach b 0 hashes) = .ok (total, b) := by
  obtain ⟨total, ran⟩ := valid.toHeaderOf.containsEach_exec valid.words 0 hashes
  refine ⟨total, ?_⟩
  rw [BloomT.run, ran]
  rfl

end Quickbloom.Filter
