import Quickbloom.Filter.Membership

namespace Quickbloom.Filter

open Quickbloom.Data Quickbloom.Machine Quickbloom.Source Quickbloom.Probe

/-! # Bulk queries count the single hits -/

variable {b : BloomT}

/-- One query after the others, on the filter that the last one left. -/
def countStep (state : Nat × BloomT) (query : BloomT → Program Nat) : Checked (Nat × BloomT) := do
  let result ← state.2.run (query state.2)
  return (if result.1 ≠ 0 then state.1 + 1 else state.1, result.2)

def countEach (b : BloomT) (queries : List (BloomT → Program Nat)) : Checked (Nat × BloomT) :=
  queries.foldlM countStep (0, b)

theorem qbContainsPrehash_found {h : Uint64} {bits after : Words} {found : Nat}
    (ran : (qbContainsPrehash b h).exec bits = .ok (found, after)) : found ≤ 1 := by
  cases offset : blockFor b h with
  | error reason =>
      rw [qbContainsPrehash, offset] at ran
      cases ran
  | ok blk =>
      rw [qbContainsPrehash, offset] at ran
      obtain ⟨cur, _, tested⟩ := Checked.bind_eq_ok ran
      cases tested
      exact mm256TestcSi256_le_one _ _

/-- Adding the results of the queries is counting those that are nonzero. -/
theorem containsEach_run (hits : Nat) (hashes : List Uint64) :
    b.run (containsEach b hits hashes) =
      (hashes.map fun h b => qbContainsPrehash b h).foldlM countStep (hits, b) := by
  induction hashes generalizing b hits with
  | nil => rfl
  | cons h rest ih =>
      rw [List.map_cons, List.foldlM_cons, containsEach_cons, BloomT.run, Program.exec_bind]
      cases ran : (qbContainsPrehash b h).exec b.bits with
      | error reason =>
          simp only [countStep, BloomT.run, ran]
          rfl
      | ok result =>
          have count : (if result.1 ≠ 0 then hits + 1 else hits) = hits + result.1 := by
            have small := qbContainsPrehash_found ran
            split <;> omega
          simp only [countStep, BloomT.run, ran, Checked.ok_bind, Checked.pure_eq_ok, count]
          exact ih (b := { b with bits := result.2 }) (hits + result.1)

/-- The bulk query returns how many of the single queries at `0 .. n - 1` return
nonzero, and no query changes the filter. -/
def Counted (b : BloomT) (bulk : Program Nat) (single : Nat → Program Nat) (n : Nat) : Prop :=
  ∃ found : Nat → Nat, (∀ i < n, b.run (single i) = .ok (found i, b)) ∧
    b.run bulk = .ok ((List.range n).countP fun i => found i ≠ 0, b)

section Answered

variable {found : Uint64 → Nat}

theorem containsEach_counts (answers : ∀ h, b.run (qbContainsPrehash b h) = .ok (found h, b))
    (hits : Nat) (hashes : List Uint64) :
    b.run (containsEach b hits hashes) = .ok (hits + hashes.countP (fun h => found h ≠ 0), b) := by
  induction hashes generalizing hits with
  | nil => rfl
  | cons h rest ih =>
      rw [containsEach_run, List.map_cons, List.foldlM_cons, countStep, answers, List.countP_cons]
      simp only [Checked.ok_bind, Checked.pure_eq_ok]
      rw [← containsEach_run, ih]
      by_cases hit : found h = 0
      · simp [hit]
      · simp [hit]
        omega

theorem Counted.of_answers (answers : ∀ h, b.run (qbContainsPrehash b h) = .ok (found h, b))
    {single : Nat → Program Nat} {n : Nat} (hash : Nat → Uint64)
    (same : ∀ i < n, single i = qbContainsPrehash b (hash i)) :
    Counted b (containsEach b 0 ((List.range n).map hash)) single n := by
  refine ⟨fun i => found (hash i), ?_, ?_⟩
  · intro i bound
    rw [same i bound, answers]
  · rw [containsEach_counts answers, List.countP_map, Nat.zero_add]
    rfl

end Answered

theorem WellFormed.found {k : Nat} (valid : WellFormed k b) :
    ∃ found : Uint64 → Nat, (∀ h, b.run (qbContainsPrehash b h) = .ok (found h, b)) ∧
      ∀ h, found h ≠ 0 ↔ Reports (probe k) (contents b.bits) h := by
  obtain ⟨found, both⟩ := Classical.skolem.mp valid.qbContainsPrehash_run
  exact ⟨found, fun h => (both h).1, fun h => (both h).2⟩

theorem qbContains_batchKey {bytes : List Byte} {klen n i : Nat} (sized : bytes.length = n * klen)
    (bound : i < n) :
    qbContains b ((Pointer.start bytes).add (i * klen)) klen =
      qbContainsPrehash b (keyHash (batchKey bytes klen i)) := by
  rw [qbContains, bloomHash_batchKey (Pointer.start_holds bytes) sized bound]
  rfl

theorem batchHashes_append {first second : List Byte} {klen n m : Nat}
    (sized : first.length = n * klen) :
    batchHashes (first ++ second) klen (n + m) =
      batchHashes first klen n ++ batchHashes second klen m := by
  have early : ∀ i ∈ List.range n, batchKey (first ++ second) klen i = batchKey first klen i := by
    intro i member
    have next : (i + 1) * klen ≤ n * klen := Nat.mul_le_mul_right klen (List.mem_range.mp member)
    rw [Nat.add_mul, Nat.one_mul] at next
    rw [batchKey, batchKey, List.drop_append_of_le_length (by omega),
      List.take_append_of_le_length (by rw [List.length_drop]; omega)]
  have late : ∀ i, batchKey (first ++ second) klen (n + i) = batchKey second klen i := by
    intro i
    rw [batchKey, batchKey, Nat.add_mul, ← sized, List.drop_length_add_append]
  rw [batchHashes, batchHashes, batchHashes, List.range_add, List.map_append, List.map_map]
  refine congrArg₂ _ (List.map_congr_left ?_) (List.map_congr_left ?_)
  · intro i member
    rw [early i member]
  · intro i _
    rw [Function.comp_apply, late]

theorem WellFormed.contains_appended {k : Nat} (valid : WellFormed k b)
    (first second : List Uint64) :
    ∃ c d, b.run (containsEach b 0 first) = .ok (c, b) ∧
      b.run (containsEach b 0 second) = .ok (d, b) ∧
      b.run (containsEach b 0 (first ++ second)) = .ok (c + d, b) := by
  obtain ⟨found, answers, _⟩ := valid.found
  refine ⟨_, _, containsEach_counts answers 0 first, containsEach_counts answers 0 second, ?_⟩
  rw [containsEach_counts answers, List.countP_append]
  simp only [Nat.zero_add]

theorem WellFormed.contains_inserted {k : Nat} (valid : WellFormed k b) {batch : Operand}
    {inserts : List Operand}
    (inserted : ∀ h ∈ batch.hashes, h ∈ inserts.flatMap Operand.hashes) :
    ∃ after, insertRun b inserts = .ok after ∧
      after.run (batch.contains after) = .ok (batch.hashes.length, after) := by
  obtain ⟨after, ran, afterValid, cells⟩ := valid.insertRun_ok inserts
  obtain ⟨found, answers, reports⟩ := afterValid.found
  have hit : ∀ h ∈ batch.hashes, decide (found h ≠ 0) = true := by
    intro h member
    rw [decide_eq_true_eq, reports, cells]
    exact reports_inserted (inserted h member)
  refine ⟨after, ran, ?_⟩
  rw [batch.contains_eq, containsEach_counts answers, List.countP_eq_length.mpr hit, Nat.zero_add]

/-- On every filter a bulk query is its single queries, counted. On a
well-formed one all of them return and none changes the filter, so a batch
that was inserted, in whatever way, counts in full, and counts add up. -/
theorem qbContainsBulk_counts (b : BloomT) :
    (∀ (klen n : Nat) (bytes : List Byte), bytes.length = n * klen →
      b.run (qbContainsBulk b (Pointer.start bytes) klen n) =
        countEach b ((List.range n).map fun i b =>
          qbContains b ((Pointer.start bytes).add (i * klen)) klen)) ∧
    (∀ hashes : List Uint64,
      b.run (qbContainsPrehashBulk b (Pointer.start hashes) hashes.length) =
        countEach b (hashes.map fun h b => qbContainsPrehash b h)) ∧
    ∀ k, WellFormed k b →
      (∀ (klen n : Nat) (bytes : List Byte), bytes.length = n * klen →
        Counted b (qbContainsBulk b (Pointer.start bytes) klen n)
          (fun i => qbContains b ((Pointer.start bytes).add (i * klen)) klen) n) ∧
      (∀ hashes : List Uint64,
        Counted b (qbContainsPrehashBulk b (Pointer.start hashes) hashes.length)
          (fun i => do qbContainsPrehash b (← (Pointer.start hashes).read i)) hashes.length) ∧
      (∀ (batch : Operand) (inserts : List Operand),
        (∀ h ∈ batch.hashes, h ∈ inserts.flatMap Operand.hashes) →
        ∃ after, insertRun b inserts = .ok after ∧
          after.run (batch.contains after) = .ok (batch.hashes.length, after)) ∧
      (∀ (klen n m : Nat) (first second : List Byte),
        first.length = n * klen → second.length = m * klen →
        ∃ c d, b.run (qbContainsBulk b (Pointer.start first) klen n) = .ok (c, b) ∧
          b.run (qbContainsBulk b (Pointer.start second) klen m) = .ok (d, b) ∧
          b.run (qbContainsBulk b (Pointer.start (first ++ second)) klen (n + m)) =
            .ok (c + d, b)) ∧
      (∀ first second : List Uint64,
        ∃ c d, b.run (qbContainsPrehashBulk b (Pointer.start first) first.length) = .ok (c, b) ∧
          b.run (qbContainsPrehashBulk b (Pointer.start second) second.length) = .ok (d, b) ∧
          b.run (qbContainsPrehashBulk b (Pointer.start (first ++ second))
            (first ++ second).length) = .ok (c + d, b)) := by
  have keysEq {klen n : Nat} {bytes : List Byte} (sized : bytes.length = n * klen) :=
    qbContainsBulk_eq (b := b) (Pointer.start_holds bytes) sized
  have hashesEq (hashes : List Uint64) :=
    qbContainsPrehashBulk_eq (b := b) (Pointer.start_holds hashes)
  refine ⟨?_, ?_, ?_⟩
  · intro klen n bytes sized
    have single : ∀ i ∈ List.range n,
        (fun b => qbContainsPrehash b (keyHash (batchKey bytes klen i))) =
          fun b => qbContains b ((Pointer.start bytes).add (i * klen)) klen := by
      intro i member
      funext b
      exact (qbContains_batchKey sized (List.mem_range.mp member)).symm
    rw [keysEq sized, containsEach_run, batchHashes, List.map_map]
    exact congrArg (countEach b) (List.map_congr_left single)
  · intro hashes
    rw [hashesEq, containsEach_run, countEach]
  · intro k valid
    obtain ⟨found, answers, _⟩ := valid.found
    refine ⟨?_, ?_, ?_, ?_, ?_⟩
    · intro klen n bytes sized
      rw [keysEq sized]
      exact Counted.of_answers answers _ fun i bound => qbContains_batchKey sized bound
    · intro hashes
      have counted : Counted b (containsEach b 0 ((List.range hashes.length).map (hashes.getD · 0)))
          (fun i => do qbContainsPrehash b (← (Pointer.start hashes).read i)) hashes.length :=
        Counted.of_answers answers _ fun i bound => by
          have entry : (Pointer.start hashes).read i = .ok (hashes.getD i 0) :=
            (Pointer.start_holds hashes).read_getD bound
          simp only [entry]
          rfl
      rwa [map_getD_range, ← hashesEq] at counted
    · intro batch inserts inserted
      exact valid.contains_inserted inserted
    · intro klen n m first second firstSized secondSized
      have sized : (first ++ second).length = (n + m) * klen := by
        rw [List.length_append, firstSized, secondSized, Nat.add_mul]
      rw [keysEq firstSized, keysEq secondSized, keysEq sized, batchHashes_append firstSized]
      exact valid.contains_appended _ _
    · intro first second
      rw [hashesEq, hashesEq, hashesEq]
      exact valid.contains_appended _ _

theorem qbContainsBulk_counts_equalKeys :
    (∃ after, insertRun (emptyFilter 0) [.key (List.replicate 16 1)] = .ok after ∧
      after.run (Operand.contains after (.prehashes [keyHash (List.replicate 16 1)])) =
        .ok (1, after)) ∧
    Counted (emptyFilter 0) (qbContainsBulk (emptyFilter 0) (Pointer.start (List.replicate 80 1)) 16 5)
      (fun i => qbContains (emptyFilter 0) ((Pointer.start (List.replicate 80 1)).add (i * 16)) 16)
      5 := by
  obtain ⟨_, _, valid⟩ := qbContainsBulk_counts (emptyFilter 0)
  obtain ⟨keys, _, inserted, _⟩ := valid 0 (emptyFilter_wellFormed (by omega))
  refine ⟨?_, keys 16 5 _ (by decide)⟩
  exact inserted (.prehashes [keyHash (List.replicate 16 1)]) [.key (List.replicate 16 1)]
    (fun h member => member)

end Quickbloom.Filter
