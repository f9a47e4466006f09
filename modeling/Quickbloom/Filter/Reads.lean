import Quickbloom.Filter.Query
import Quickbloom.Machine.Returns

namespace Quickbloom.Filter

open Quickbloom.Data Quickbloom.Machine Quickbloom.Source

/-! # Which bytes are read

A read that is not there is a fault. So a call reads nothing outside a buffer if
it returns whenever the buffer is readable, and it reads all of the buffer if it
returns only then.
-/

section Hashes

variable {data : Pointer Byte} {len : Nat} {h : Uint64}

theorem hash16_readable (returned : hash16 data = .ok h) : data.Readable 16 := by
  obtain ⟨a, low, rest⟩ := Checked.bind_eq_ok returned
  obtain ⟨b, high, _⟩ := Checked.bind_eq_ok rest
  exact (load64_readable low).append (load64_readable high)

theorem fasthashTail_readable {label : Nat} {t packed : Uint64}
    (returned : fasthashTail data label t = .ok packed) : data.Readable label := by
  induction label generalizing t with
  | zero => exact fun index bound => absurd bound (by omega)
  | succ label ih =>
      obtain ⟨byte, found, rest⟩ := Checked.bind_eq_ok returned
      apply (ih rest).append
      intro index bound
      have first : index = 0 := by omega
      subst first
      rw [Pointer.add_read, Nat.add_zero]
      exact ⟨byte, found⟩

theorem fasthash64Var_readable (returned : fasthash64Var data len = .ok h) : data.Readable len := by
  obtain ⟨blocks, looped, rest⟩ := Checked.bind_eq_ok returned
  obtain ⟨whole, stopped⟩ := strideLoop_returned (m := Checked) (fun i _ => data.Readable (i * 8)) (by
    intro i acc next _ kept ran
    obtain ⟨k, loaded, _⟩ := Checked.bind_eq_ok ran
    rw [Nat.add_mul]
    exact kept.append (load64_readable loaded)) (fun index bound => absurd bound (by omega)) looped
  have front : data.Readable (len / 8 * 8) := whole.mono (by omega)
  rw [tailLabel_eq] at rest
  by_cases aligned : len % 8 = 0
  · exact front.mono (by omega)
  · rw [if_neg aligned] at rest
    obtain ⟨t, tail, _⟩ := Checked.bind_eq_ok rest
    exact (front.append (fasthashTail_readable tail)).mono (by omega)

theorem hash16_reads : (∃ h, hash16 data = .ok h) ↔ data.Readable 16 := by
  refine ⟨?_, ?_⟩
  · intro returns
    obtain ⟨h, returned⟩ := returns
    exact hash16_readable returned
  · intro readable
    obtain ⟨key, length, holds⟩ := readable.holds
    exact hash16_returns holds (by omega)

theorem fasthash64Var_reads : (∃ h, fasthash64Var data len = .ok h) ↔ data.Readable len := by
  refine ⟨?_, ?_⟩
  · intro returns
    obtain ⟨h, returned⟩ := returns
    exact fasthash64Var_readable returned
  · intro readable
    obtain ⟨key, length, holds⟩ := readable.holds
    subst length
    exact fasthash64Var_returns holds

theorem bloomHash_reads : (∃ h, bloomHash data len = .ok h) ↔ data.Readable len := by
  by_cases fast : len = 16
  · subst fast
    exact hash16_reads
  · rw [bloomHash, if_neg fast]
    exact fasthash64Var_reads

end Hashes

section Batches

variable {b : BloomT} {keys : Pointer Byte} {klen n : Nat}

theorem returns_of_run {α : Type} {program : Program α} {result : α × BloomT}
    (ran : b.run program = .ok result) : Returns program result.1 := by
  obtain ⟨after, executed, last⟩ := Checked.bind_eq_ok ran
  cases last
  exact ⟨b.bits, after.2, executed⟩

theorem nextKey {i : Nat} (before : keys.Readable (i * klen))
    (hashed : ∃ h, bloomHash (keys.add (i * klen)) klen = .ok h) :
    keys.Readable ((i + 1) * klen) := by
  rw [Nat.add_mul, Nat.one_mul]
  exact before.append (bloomHash_reads.mp hashed)

/-- Both unrolled loops start a group by hashing its four keys. -/
theorem nextGroup {α : Type} {i : Nat} {result : α}
    {rest : Uint64 → Uint64 → Uint64 → Uint64 → Program α} (before : keys.Readable (i * 16))
    (returned : Returns (do
      let h0 ← hash16 (keys.add ((i + 0) * 16))
      let h1 ← hash16 (keys.add ((i + 1) * 16))
      let h2 ← hash16 (keys.add ((i + 2) * 16))
      let h3 ← hash16 (keys.add ((i + 3) * 16))
      rest h0 h1 h2 h3 : Program α) result) :
    keys.Readable ((i + 4) * 16) := by
  obtain ⟨h0, r0, returned⟩ := returns_bind returned
  obtain ⟨h1, r1, returned⟩ := returns_bind returned
  obtain ⟨h2, r2, returned⟩ := returns_bind returned
  obtain ⟨h3, r3, _⟩ := returns_bind returned
  have first : keys.Readable ((i + 1) * 16) := nextKey before ⟨h0, Program.returns_lift r0⟩
  have second : keys.Readable ((i + 2) * 16) := nextKey first ⟨h1, Program.returns_lift r1⟩
  have third : keys.Readable ((i + 3) * 16) := nextKey second ⟨h2, Program.returns_lift r2⟩
  exact nextKey third ⟨h3, Program.returns_lift r3⟩

section Loops

variable {σ : Type} {single : σ → Nat → Program σ} {acc : σ} {final : σ × Nat}

theorem keyLoop_readable
    (one : ∀ i acc next, Returns (single acc i) next →
      ∃ h, bloomHash (keys.add (i * klen)) klen = .ok h)
    (returned : Returns (strideLoop 1 n single (acc, 0)) final) : keys.Readable (n * klen) := by
  obtain ⟨readable, stopped⟩ := strideLoop_returned (fun i _ => keys.Readable (i * klen))
    (fun i acc next _ before ran => nextKey before (one i acc next ran))
    (fun index bound => absurd bound (by omega)) returned
  exact readable.mono (Nat.mul_le_mul_right klen (by omega))

theorem groupLoop_readable {wide : σ → Nat → Program σ}
    (group : ∀ i acc next, Returns (wide acc i) next → keys.Readable (i * 16) →
      keys.Readable ((i + 4) * 16))
    (one : ∀ i acc next, Returns (single acc i) next →
      ∃ h, bloomHash (keys.add (i * 16)) 16 = .ok h)
    (returned : Returns (strideLoop 4 n wide (acc, 0) >>= strideLoop 1 n single) final) :
    keys.Readable (n * 16) := by
  obtain ⟨last, whole, readable⟩ := strideLoop_groups_returned (fun i => keys.Readable (i * 16))
    group (fun i acc next ran before => nextKey before (one i acc next ran))
    (fun index bound => absurd bound (by omega)) returned
  exact readable.mono (Nat.mul_le_mul_right 16 whole)

end Loops

theorem qbInsertBulk_readable (returned : Returns (qbInsertBulk b keys klen n) ()) :
    keys.Readable (n * klen) := by
  have one : ∀ (i : Nat) (acc next : Unit),
      Returns (qbInsert b (keys.add (i * klen)) klen) next →
        ∃ h, bloomHash (keys.add (i * klen)) klen = .ok h := by
    intro i _ next ran
    obtain ⟨h, hashed, _⟩ := returns_bind ran
    exact ⟨h, Program.returns_lift hashed⟩
  rw [qbInsertBulk] at returned
  by_cases fast : klen = 16
  · subst fast
    rw [if_pos rfl, ← bind_assoc] at returned
    obtain ⟨final, looped, _⟩ := returns_bind returned
    exact groupLoop_readable (fun i acc next ran before => nextGroup before ran) one looped
  · rw [if_neg fast, pure_bind] at returned
    obtain ⟨final, looped, _⟩ := returns_bind returned
    exact keyLoop_readable one looped

theorem qbContainsBulk_readable {hits : Nat} (returned : Returns (qbContainsBulk b keys klen n) hits) :
    keys.Readable (n * klen) := by
  have one : ∀ (i : Nat) (hits next : Nat),
      Returns (do
        let found ← qbContains b (keys.add (i * klen)) klen
        return if found ≠ 0 then hits + 1 else hits : Program Nat) next →
          ∃ h, bloomHash (keys.add (i * klen)) klen = .ok h := by
    intro i _ next ran
    obtain ⟨found, queried, _⟩ := returns_bind ran
    obtain ⟨h, hashed, _⟩ := returns_bind queried
    exact ⟨h, Program.returns_lift hashed⟩
  rw [qbContainsBulk] at returned
  by_cases fast : klen = 16
  · subst fast
    rw [if_pos rfl, ← bind_assoc] at returned
    obtain ⟨final, looped, _⟩ := returns_bind returned
    exact groupLoop_readable (fun i acc next ran before => nextGroup before ran) one looped
  · rw [if_neg fast, pure_bind] at returned
    obtain ⟨final, looped, _⟩ := returns_bind returned
    exact keyLoop_readable one looped

end Batches

section Prehashes

variable {b : BloomT} {hashes : Pointer Uint64} {n : Nat}

theorem nextHash {i : Nat} {h : Uint64} (before : hashes.Readable i)
    (found : hashes.read i = .ok h) : hashes.Readable (i + 1) := by
  apply before.append
  intro index bound
  have first : index = 0 := by omega
  subst first
  exact ⟨h, by rw [Pointer.add_read]; exact found⟩

/-- Both unrolled loops start a group with the blocks of its four hashes. -/
theorem nextHashes {α : Type} {i : Nat} {result : α} {rest : Nat → Nat → Nat → Nat → Program α}
    (before : hashes.Readable i)
    (returned : Returns (do
      let p0 ← blockFor b (← hashes.read (i + 0))
      let p1 ← blockFor b (← hashes.read (i + 1))
      let p2 ← blockFor b (← hashes.read (i + 2))
      let p3 ← blockFor b (← hashes.read (i + 3))
      rest p0 p1 p2 p3 : Program α) result) :
    hashes.Readable (i + 4) := by
  obtain ⟨h0, r0, returned⟩ := returns_bind returned
  obtain ⟨_, _, returned⟩ := returns_bind returned
  obtain ⟨h1, r1, returned⟩ := returns_bind returned
  obtain ⟨_, _, returned⟩ := returns_bind returned
  obtain ⟨h2, r2, returned⟩ := returns_bind returned
  obtain ⟨_, _, returned⟩ := returns_bind returned
  obtain ⟨h3, r3, _⟩ := returns_bind returned
  have first : hashes.Readable (i + 1) := nextHash before (Program.returns_lift r0)
  have second : hashes.Readable (i + 2) := nextHash first (Program.returns_lift r1)
  have third : hashes.Readable (i + 3) := nextHash second (Program.returns_lift r2)
  exact nextHash third (Program.returns_lift r3)

theorem hashLoops_readable {σ : Type} {wide single : σ → Nat → Program σ} {acc : σ}
    (group : ∀ i acc next, Returns (wide acc i) next → hashes.Readable i → hashes.Readable (i + 4))
    (one : ∀ i acc next, Returns (single acc i) next → ∃ h, hashes.read i = .ok h)
    {final : σ × Nat}
    (returned : Returns (strideLoop 4 n wide (acc, 0) >>= strideLoop 1 n single) final) :
    hashes.Readable n := by
  have remainder : ∀ i acc next, Returns (single acc i) next → hashes.Readable i →
      hashes.Readable (i + 1) := by
    intro i acc next ran before
    obtain ⟨h, found⟩ := one i acc next ran
    exact nextHash before found
  obtain ⟨last, whole, readable⟩ := strideLoop_groups_returned hashes.Readable group remainder
    (fun index bound => absurd bound (by omega)) returned
  exact readable.mono whole

theorem qbInsertPrehashBulk_readable (returned : Returns (qbInsertPrehashBulk b hashes n) ()) :
    hashes.Readable n := by
  rw [qbInsertPrehashBulk, ← bind_assoc] at returned
  obtain ⟨final, looped, _⟩ := returns_bind returned
  refine hashLoops_readable (fun i acc next ran before => nextHashes before ran) ?_ looped
  intro i _ next ran
  obtain ⟨h, found, _⟩ := returns_bind ran
  exact ⟨h, Program.returns_lift found⟩

theorem qbContainsPrehashBulk_readable {hits : Nat}
    (returned : Returns (qbContainsPrehashBulk b hashes n) hits) : hashes.Readable n := by
  rw [qbContainsPrehashBulk, ← bind_assoc] at returned
  obtain ⟨final, looped, _⟩ := returns_bind returned
  refine hashLoops_readable (fun i acc next ran before => nextHashes before ran) ?_ looped
  intro i hits next ran
  obtain ⟨h, found, _⟩ := returns_bind ran
  exact ⟨h, Program.returns_lift found⟩

end Prehashes

section Runs

variable {k : Nat} {b : BloomT}

theorem WellFormed.qbInsertBulk_reads (valid : WellFormed k b) (keys : Pointer Byte)
    (klen n : Nat) :
    (∃ after, b.run (qbInsertBulk b keys klen n) = .ok ((), after)) ↔ keys.Readable (n * klen) := by
  refine ⟨?_, ?_⟩
  · intro returns
    obtain ⟨after, ran⟩ := returns
    exact qbInsertBulk_readable (returns_of_run ran)
  · intro readable
    obtain ⟨bytes, sized, holds⟩ := readable.holds
    obtain ⟨after, ran, _⟩ := valid.insertEach_run (batchHashes bytes klen n)
    rw [qbInsertBulk_eq holds sized]
    exact ⟨after, ran⟩

theorem WellFormed.qbContainsBulk_reads (valid : WellFormed k b) (keys : Pointer Byte)
    (klen n : Nat) :
    (∃ hits, b.run (qbContainsBulk b keys klen n) = .ok (hits, b)) ↔ keys.Readable (n * klen) := by
  refine ⟨?_, ?_⟩
  · intro returns
    obtain ⟨hits, ran⟩ := returns
    exact qbContainsBulk_readable (returns_of_run ran)
  · intro readable
    obtain ⟨bytes, sized, holds⟩ := readable.holds
    rw [qbContainsBulk_eq holds sized]
    exact valid.containsEach_run _

theorem WellFormed.qbInsertPrehashBulk_reads (valid : WellFormed k b) (hashes : Pointer Uint64)
    (n : Nat) :
    (∃ after, b.run (qbInsertPrehashBulk b hashes n) = .ok ((), after)) ↔ hashes.Readable n := by
  refine ⟨?_, ?_⟩
  · intro returns
    obtain ⟨after, ran⟩ := returns
    exact qbInsertPrehashBulk_readable (returns_of_run ran)
  · intro readable
    obtain ⟨listed, length, holds⟩ := readable.holds
    subst length
    obtain ⟨after, ran, _⟩ := valid.insertEach_run listed
    rw [qbInsertPrehashBulk_eq holds]
    exact ⟨after, ran⟩

theorem WellFormed.qbContainsPrehashBulk_reads (valid : WellFormed k b) (hashes : Pointer Uint64)
    (n : Nat) :
    (∃ hits, b.run (qbContainsPrehashBulk b hashes n) = .ok (hits, b)) ↔ hashes.Readable n := by
  refine ⟨?_, ?_⟩
  · intro returns
    obtain ⟨hits, ran⟩ := returns
    exact qbContainsPrehashBulk_readable (returns_of_run ran)
  · intro readable
    obtain ⟨listed, length, holds⟩ := readable.holds
    subst length
    rw [qbContainsPrehashBulk_eq holds]
    exact valid.containsEach_run _

end Runs

/-- Each hash and each bulk call returns if and only if its buffer is readable. -/
theorem keyReads_exact :
    (∀ (data : Pointer Byte) (len : Nat),
      (∃ h, bloomHash data len = .ok h) ↔ data.Readable len) ∧
    (∀ data : Pointer Byte, (∃ h, hash16 data = .ok h) ↔ data.Readable 16) ∧
    (∀ (data : Pointer Byte) (len : Nat),
      (∃ h, fasthash64Var data len = .ok h) ↔ data.Readable len) ∧
    ∀ k b, WellFormed k b →
      (∀ (keys : Pointer Byte) (klen n : Nat),
        ((∃ after, b.run (qbInsertBulk b keys klen n) = .ok ((), after)) ↔
          keys.Readable (n * klen)) ∧
        ((∃ hits, b.run (qbContainsBulk b keys klen n) = .ok (hits, b)) ↔
          keys.Readable (n * klen))) ∧
      ∀ (hashes : Pointer Uint64) (n : Nat),
        ((∃ after, b.run (qbInsertPrehashBulk b hashes n) = .ok ((), after)) ↔
          hashes.Readable n) ∧
        ((∃ hits, b.run (qbContainsPrehashBulk b hashes n) = .ok (hits, b)) ↔
          hashes.Readable n) := by
  refine ⟨fun _ _ => bloomHash_reads, fun _ => hash16_reads, fun _ _ => fasthash64Var_reads, ?_⟩
  intro k b valid
  refine ⟨?_, ?_⟩
  · intro keys klen n
    exact ⟨valid.qbInsertBulk_reads keys klen n, valid.qbContainsBulk_reads keys klen n⟩
  · intro hashes n
    exact ⟨valid.qbInsertPrehashBulk_reads hashes n, valid.qbContainsPrehashBulk_reads hashes n⟩

/-- A buffer that ends with its fifth key. -/
theorem keyReads_exact_wholeBuffer :
    (∃ after, (emptyFilter 0).run (qbInsertBulk (emptyFilter 0)
      (Pointer.start (List.replicate 80 1)) 16 5) = .ok ((), after)) ∧
    ¬ ∃ after, (emptyFilter 0).run (qbInsertBulk (emptyFilter 0)
      (Pointer.start (List.replicate 79 1)) 16 5) = .ok ((), after) := by
  obtain ⟨_, _, _, valid⟩ := keyReads_exact
  obtain ⟨keys, _⟩ := valid 0 (emptyFilter 0) (emptyFilter_wellFormed (by omega))
  refine ⟨?_, ?_⟩
  · apply (keys (Pointer.start (List.replicate 80 1)) 16 5).1.mpr
    exact fun index bound => ⟨_, Pointer.start_holds (List.replicate 80 1) index bound⟩
  · intro ran
    obtain ⟨value, found⟩ := (keys _ 16 5).1.mp ran 79 (by omega)
    cases found

end Quickbloom.Filter
