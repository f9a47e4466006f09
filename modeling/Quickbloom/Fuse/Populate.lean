import Quickbloom.Fuse.Attempt

namespace Quickbloom.Fuse

open Quickbloom.Data Quickbloom.Machine Quickbloom.Peeling
open Quickbloom.Source (Uint32 Uint64)
open Quickbloom.Source.BinaryFuse

/-! # Population

The seeds are the same for every filter. The attempts go through them in order
and stop at the first one that works.
-/

/-- The draws of the generator, which starts at the same counter every time. -/
def draw : Nat → Uint64 × Uint64
  | 0 => binaryFuseRngSplitmix64 0x726b2b9d438b9d4d
  | k + 1 => binaryFuseRngSplitmix64 (draw k).2

def seedAt (k : Nat) : Uint64 := (draw k).1

/-- The buffer keeps its length and the set of its first `total` keys. -/
structure Rearranged (buffer : List Uint64) (total : Nat) (keys : List Uint64) : Prop where
  length : keys.length = buffer.length
  whole : ∀ key, key ∈ keys.take total ↔ key ∈ buffer.take total

/-- What the attempts with the draws from `first` up to `last` end with. -/
structure Tried (filter : BinaryFuse8) (buffer : List Uint64) (total first last : Nat)
    (result : Bool × Population) : Prop where
  keys : Rearranged buffer total result.2.keys
  found : result.1 = true → ∃ k, first ≤ k ∧ k < last ∧
    Finished filter buffer total (seedAt k) result.2 ∧
    ((buffer.take total).Nodup → GoodSeed filter (buffer.take total) (seedAt k) ∧
      ∀ i, first ≤ i → i < k → ¬ GoodSeed filter (buffer.take total) (seedAt i))
  failed : result.1 = false → (buffer.take total).Nodup →
    ∀ k, first ≤ k → k < last → ¬ GoodSeed filter (buffer.take total) (seedAt k)

section Attempts

variable {e : Nat} {lib : Libc} {filter : BinaryFuse8} {blockBits total : Nat}
  {buffer : List Uint64}

/-- The hypothesis of a population: repeated keys need a draw whose hashes are
all different from the empty place. -/
def SafeKeys (keys : List Uint64) (last : Nat) : Prop :=
  keys.Nodup ∨ ∀ k < last, ∀ key ∈ keys, key + seedAt k ≠ 0

/-- A hash that is never the empty place. -/
def Admissible (key : Uint64) : Prop := ∀ k < xorMaxIterations, key + seedAt k ≠ 0

instance (key : Uint64) : Decidable (Admissible key) :=
  inferInstanceAs (Decidable (∀ k < _, _ ≠ _))

theorem admissible_zero : Admissible 0 := by decide +kernel

theorem admissible_one : Admissible 1 := by decide +kernel

theorem SafeKeys.seed {keys : List Uint64} {last k : Nat} (safe : SafeKeys keys last)
    (bound : k < last) : SafeSeed keys (seedAt k) := safe.imp_right fun nonzero => nonzero k bound

theorem attempts_returns (shaped : Shaped e filter) (sorts : Permutes lib)
    (positive : 1 ≤ blockBits) (bits : blockBits ≤ 31) (enough : total ≤ buffer.length) {last : Nat}
    (safe : SafeKeys (buffer.take total) last) (left first : Nat) (state : Population)
    (reach : first + left = last) (cleared : Cleared filter blockBits total state)
    (same : SameKeys buffer total state) (drawn : (state.seed, state.rngCounter) = draw first) :
    ∃ result, attempts lib filter blockBits left state = .ok result ∧
      Tried filter buffer total first last result := by
  induction left generalizing first state with
  | zero =>
      refine ⟨(false, state), rfl, ⟨same.length, same.whole⟩, fun found => (by cases found), ?_⟩
      intro _ _ k above below
      omega
  | succ left ih =>
      have seed : state.seed = seedAt first := congrArg Prod.fst drawn
      obtain ⟨result, ran, attempted⟩ := attempt_returns shaped sorts positive bits enough cleared
        same (seed ▸ safe.seed (show first < last by omega))
      have decided := attempted.decided
      rw [seed] at decided
      by_cases done : result.1 = true
      · have finished := attempted.finished done
        rw [seed] at finished
        refine ⟨result, ?_, ⟨finished.length, finished.whole⟩, ?_, ?_⟩
        · rw [attempts, ran, Checked.ok_bind, if_pos done]
          rfl
        · intro _
          refine ⟨first, le_refl _, by omega, finished, fun nodup => ⟨(decided nodup).mp done, ?_⟩⟩
          intro i above below
          omega
        · intro failed
          rw [done] at failed
          cases failed
      · have stopped : result.1 = false := Bool.eq_false_of_not_eq_true done
        have restarted := attempted.restarted stopped
        have next : (result.2.seed, result.2.rngCounter) = draw (first + 1) := by
          have counter : state.rngCounter = (draw first).2 := congrArg Prod.snd drawn
          rw [restarted.drawn, counter]
          rfl
        obtain ⟨final, rest, tried⟩ := ih (first + 1) result.2 (by omega) restarted.cleared
          restarted.same next
        have bad : (buffer.take total).Nodup →
            ¬ GoodSeed filter (buffer.take total) (seedAt first) :=
          fun nodup good => done ((decided nodup).mpr good)
        refine ⟨final, ?_, tried.keys, ?_, ?_⟩
        · rw [attempts, ran, Checked.ok_bind, if_neg done, rest]
        · intro found
          obtain ⟨k, above, below, finished, least⟩ := tried.found found
          refine ⟨k, by omega, below, finished, fun nodup => ⟨(least nodup).1, ?_⟩⟩
          intro i from_ before
          by_cases start : i = first
          · exact start ▸ bad nodup
          · exact (least nodup).2 i (by omega) before
        · intro failed nodup k above below
          by_cases start : k = first
          · exact start ▸ bad nodup
          · exact tried.failed failed nodup k (by omega) below

end Attempts

section Populate

variable {e : Nat} {lib : Libc} {filter : BinaryFuse8} {blockBits : Nat} {size : Uint32}
  {buffer : List Uint64}

/-- The arrays as they are allocated. -/
def workBefore (filter : BinaryFuse8) (blockBits : Nat) (size : Uint32) : Workspace where
  reverseOrder := tabulate (size.toNat + 1) fun place => if place = size.toNat then 1 else 0
  alone := List.replicate filter.arrayLength.toNat none
  t2count := List.replicate filter.arrayLength.toNat 0
  reverseH := List.replicate size.toNat none
  t2hash := List.replicate filter.arrayLength.toNat 0
  startPos := List.replicate (2 ^ blockBits) none

def populationBefore (filter : BinaryFuse8) (blockBits : Nat) (size : Uint32)
    (buffer : List Uint64) : Population :=
  { keys := buffer, size, seed := (draw 0).1, rngCounter := (draw 0).2
    work := workBefore filter blockBits size }

theorem sentinel_stored (bound : size.toNat + 1 < 2 ^ 32) :
    storeAt (List.replicate (size + 1).toNat (0 : Uint64)) size.toNat 1 =
      .ok (workBefore filter blockBits size).reverseOrder := by
  have one : (1 : Uint32).toNat = 1 := rfl
  have next : (size + 1).toNat = size.toNat + 1 := by
    rw [BitVec.toNat_add, one, Nat.mod_eq_of_lt bound]
  rw [next, replicate_eq_tabulate, storeAt_tabulate (Nat.lt_succ_self _)]
  congr 2
  funext place
  by_cases last : place = size.toNat
  · simp [last]
  · simp [last]

theorem populationBefore_cleared :
    Cleared filter blockBits size.toNat (populationBefore filter blockBits size buffer) where
  few := le_refl _
  order := ⟨_, rfl, by simp [populationBefore]⟩
  alone := List.length_replicate
  t2count := List.length_replicate
  reverseH := List.length_replicate
  t2hash := List.length_replicate
  startPos := List.length_replicate
  free := by
    intro place bound
    have inside : place < size.toNat := bound
    have apart : place ≠ size.toNat := by omega
    simp [populationBefore, workBefore, tabulate_getElem? (show place < size.toNat + 1 by omega),
      apart]
  tables := by
    simp only [populationBefore, workBefore, tables_zero, replicate_eq_tabulate]

theorem populationBefore_same :
    SameKeys buffer size.toNat (populationBefore filter blockBits size buffer) where
  length := rfl
  members := fun _ => Iff.rfl
  whole := fun _ => Iff.rfl
  untouched := fun _ => ⟨rfl, rfl⟩

/-- The requests of a call. -/
def Granted (lib : Libc) (filter : BinaryFuse8) (size : Uint32) (blockBits : Nat) : Prop :=
  lib.malloc (filter.arrayLength.toNat * 4) ∧ lib.calloc filter.arrayLength.toNat 1 ∧
    lib.malloc size.toNat ∧ lib.calloc filter.arrayLength.toNat 8 ∧
    lib.calloc (size + 1).toNat 8 ∧ lib.malloc (2 ^ blockBits * 4)

instance (lib : Libc) (filter : BinaryFuse8) (size : Uint32) (blockBits : Nat) :
    Decidable (Granted lib filter size blockBits) :=
  inferInstanceAs (Decidable (_ ∧ _ ∧ _ ∧ _ ∧ _ ∧ _))

/-- A call that gets its arrays makes the attempts. -/
theorem populate_eq (lib : Libc) (buffer : List Uint64) (agrees : size = filter.size)
    (bound : size.toNat + 1 < 2 ^ 32)
    (counted : segmentBits filter.segmentCount = .ok blockBits) :
    binaryFuse8Populate lib buffer size filter =
      if Granted lib filter size blockBits then do
        let result ← attempts lib filter blockBits xorMaxIterations
          (populationBefore filter blockBits size buffer)
        if result.1 then
          let fingerprints ← assignFingerprints filter result.2.size result.2.work
          return (true, result.2.keys, { filter with seed := result.2.seed, fingerprints })
        else return (false, result.2.keys, { filter with seed := result.2.seed })
      else .ok (false, buffer, { filter with seed := (draw 0).1 }) := by
  subst agrees
  have stored := @sentinel_stored filter blockBits _ bound
  have block : 1 <<< blockBits = 2 ^ blockBits := by rw [Nat.shiftLeft_eq, Nat.one_mul]
  by_cases granted : Granted lib filter filter.size blockBits
  · have held := granted
    obtain ⟨first, second, third, fourth, fifth, sixth⟩ := granted
    simp only [binaryFuse8Populate, ne_eq, not_true_eq_false, counted, block, Checked.ok_bind,
      first, second, third, fourth, fifth, sixth, held, Bool.and_self, Bool.not_true,
      Bool.false_eq_true, ↓reduceIte, stored]
    rfl
  · have refused : (lib.malloc (filter.arrayLength.toNat * 4) &&
        lib.calloc filter.arrayLength.toNat 1 && lib.malloc filter.size.toNat &&
        lib.calloc filter.arrayLength.toNat 8 && lib.calloc (filter.size + 1).toNat 8 &&
        lib.malloc (2 ^ blockBits * 4)) = false := by
      apply Bool.eq_false_of_not_eq_true
      rw [Granted] at granted
      simpa only [Bool.and_eq_true, and_assoc] using granted
    simp only [binaryFuse8Populate, ne_eq, not_true_eq_false, counted, block, Checked.ok_bind,
      refused, granted, Bool.not_false, ↓reduceIte]
    rfl

/-- A call changes the seed and the fingerprints of the filter and nothing else. -/
structure Populated (filter : BinaryFuse8) (buffer : List Uint64) (total : Nat)
    (result : Bool × List Uint64 × BinaryFuse8) : Prop where
  keys : Rearranged buffer total result.2.1
  kept : ∃ seed fingerprints, result.2.2 = { filter with seed, fingerprints } ∧
    fingerprints.length = filter.fingerprints.length ∧
    (result.1 = false → fingerprints = filter.fingerprints)
  found : result.1 = true → ∀ key ∈ buffer.take total,
    binaryFuse8Contain key result.2.2 = .ok true

theorem Populated.refused (seed : Uint64) : Populated filter buffer size.toNat
    (false, buffer, { filter with seed }) where
  keys := ⟨rfl, fun _ => Iff.rfl⟩
  kept := ⟨seed, filter.fingerprints, rfl, rfl, fun _ => rfl⟩
  found := fun found => by cases found

/-- The cells of a hash do not depend on the seed or on the fingerprints. -/
theorem balanced_kept (filter : BinaryFuse8) (seed : Uint64) (fingerprints : List Byte)
    (values : Nat → Byte) (hash : Uint64) :
    Balanced { filter with seed, fingerprints } values hash ↔ Balanced filter values hash := Iff.rfl

/-- Fingerprints assigned along a peeling order of the hashes of the keys. -/
theorem Finished.populated (shaped : Shaped e filter)
    (table : filter.fingerprints.length = filter.arrayLength.toNat) {seed : Uint64}
    {state : Population} (finished : Finished filter buffer size.toNat seed state) :
    ∃ fingerprints, assignFingerprints filter state.size state.work = .ok fingerprints ∧
      Populated filter buffer size.toNat
        (true, state.keys, { filter with seed := state.seed, fingerprints }) := by
  obtain ⟨stack, count, short, order, found, peels, covers⟩ := finished.stack
  have held := eq_tabulate filter.fingerprints 0
  rw [table] at held
  have assigned := assignFingerprints_eq shaped _ held order found short
  rw [← count] at assigned
  refine ⟨_, assigned, ⟨finished.length, finished.whole⟩, ⟨_, _, rfl, ?_, fun failed => ?_⟩, ?_⟩
  · rw [tabulate_length, table]
  · cases failed
  · intro _ key member
    have shapedAfter : Shaped e { filter with
        seed := state.seed
        fingerprints := tabulate filter.arrayLength.toNat (solved filter
          (fun index => filter.fingerprints.getD index 0) stack) } := { shaped with }
    rw [shapedAfter.contain_eq rfl key]
    congr 1
    apply decide_eq_true
    obtain ⟨position, pushed⟩ := mem_taken.mp (covers key member)
    have balanced := shaped.solved_balanced peels
      (fun index => filter.fingerprints.getD index 0) _ pushed
    rw [← finished.drawn] at balanced
    exact (balanced_kept filter _ _ _ _).mpr balanced

theorem Shaped.segmentBits (shaped : Shaped e filter) :
    ∃ blockBits, segmentBits filter.segmentCount = .ok blockBits ∧
      1 ≤ blockBits ∧ blockBits ≤ 31 := by
  apply segmentBits_returns
  have counts := shaped.counts
  have small := filter.segmentCountLength.isLt
  have long : 2 ^ 1 ≤ 2 ^ e := Nat.pow_le_pow_right (by omega) shaped.positive
  have product : filter.segmentCount.toNat * 2 ^ 1 ≤ filter.segmentCount.toNat * 2 ^ e :=
    Nat.mul_le_mul_left _ long
  omega

/-- The attempts of a call, and what it makes of their end. -/
theorem populate_tried (shaped : Shaped e filter)
    (table : filter.fingerprints.length = filter.arrayLength.toNat) (sorts : Permutes lib)
    (agrees : size = filter.size) (bound : size.toNat + 1 < 2 ^ 32)
    (enough : size.toNat ≤ buffer.length)
    (safe : SafeKeys (buffer.take size.toNat) xorMaxIterations)
    (counted : Source.BinaryFuse.segmentBits filter.segmentCount = .ok blockBits)
    (granted : Granted lib filter size blockBits) :
    ∃ tried result, binaryFuse8Populate lib buffer size filter = .ok result ∧
      Tried filter buffer size.toNat 0 xorMaxIterations tried ∧ result.1 = tried.1 ∧
      result.2.2.seed = tried.2.seed ∧ Populated filter buffer size.toNat result := by
  obtain ⟨bits, same, positive, few⟩ := shaped.segmentBits
  rw [counted] at same
  obtain rfl : blockBits = bits := by injection same
  obtain ⟨tried, ran, holds⟩ := attempts_returns shaped sorts positive few enough safe
    xorMaxIterations 0 (populationBefore filter blockBits size buffer) (Nat.zero_add _)
    populationBefore_cleared populationBefore_same rfl
  have call := populate_eq lib buffer agrees bound counted
  rw [if_pos granted, ran, Checked.ok_bind] at call
  by_cases done : tried.1 = true
  · obtain ⟨k, _, _, finished, _⟩ := holds.found done
    obtain ⟨fingerprints, assigned, populated⟩ := finished.populated shaped table
    rw [if_pos done, assigned, Checked.ok_bind] at call
    exact ⟨tried, _, call, holds, done.symm, rfl, populated⟩
  · have stopped := Bool.eq_false_of_not_eq_true done
    rw [if_neg done] at call
    refine ⟨tried, _, call, holds, stopped.symm, rfl, holds.keys, ?_, fun found => ?_⟩
    · exact ⟨_, _, rfl, rfl, fun _ => rfl⟩
    · cases found

/-- A call never faults. -/
theorem populate_returns (shaped : Shaped e filter)
    (table : filter.fingerprints.length = filter.arrayLength.toNat) (sorts : Permutes lib)
    (bound : size.toNat + 1 < 2 ^ 32) (enough : size.toNat ≤ buffer.length)
    (safe : SafeKeys (buffer.take size.toNat) xorMaxIterations) :
    ∃ result, binaryFuse8Populate lib buffer size filter = .ok result ∧
      Populated filter buffer size.toNat result := by
  by_cases agrees : size = filter.size
  · obtain ⟨blockBits, counted, _, _⟩ := shaped.segmentBits
    by_cases granted : Granted lib filter size blockBits
    · obtain ⟨_, result, ran, _, _, _, populated⟩ :=
        populate_tried shaped table sorts agrees bound enough safe counted granted
      exact ⟨result, ran, populated⟩
    · have call := populate_eq lib buffer agrees bound counted
      rw [if_neg granted] at call
      exact ⟨_, call, Populated.refused _⟩
  · refine ⟨(false, buffer, filter), ?_, Populated.refused filter.seed⟩
    simp only [binaryFuse8Populate, ne_eq, agrees, not_false_eq_true, ↓reduceIte,
      Checked.pure_eq_ok]

/-- A population that reports success finds every key it was given, repeated
keys included. No call reads or writes outside an array. -/
theorem populate_finds_every_key (shaped : Shaped e filter)
    (table : filter.fingerprints.length = filter.arrayLength.toNat) (sorts : Permutes lib)
    (bound : size.toNat + 1 < 2 ^ 32) (enough : size.toNat ≤ buffer.length)
    (safe : SafeKeys (buffer.take size.toNat) xorMaxIterations) :
    ∃ found keys seed fingerprints,
      binaryFuse8Populate lib buffer size filter =
        .ok (found, keys, { filter with seed, fingerprints }) ∧
      keys.length = buffer.length ∧
      (∀ key, key ∈ keys.take size.toNat ↔ key ∈ buffer.take size.toNat) ∧
      fingerprints.length = filter.fingerprints.length ∧
      (found = true → ∀ key ∈ buffer.take size.toNat,
        binaryFuse8Contain key { filter with seed, fingerprints } = .ok true) ∧
      (found = false → fingerprints = filter.fingerprints) := by
  obtain ⟨⟨found, keys, after⟩, ran, populated⟩ :=
    populate_returns shaped table sorts bound enough safe
  obtain ⟨seed, fingerprints, rfl, length, failed⟩ := populated.kept
  exact ⟨found, keys, seed, fingerprints, ran, populated.keys.length, populated.keys.whole, length,
    populated.found, failed⟩

end Populate

/-- Every request is granted. -/
def grantingLibc : Libc where
  malloc := fun _ => true
  calloc := fun _ _ => true
  realloc := fun _ => true
  qsort := fun compare keys => keys.mergeSort fun a b => compare a b ≤ 0
  log := id
  nearest := id

theorem grantingLibc_permutes : Permutes grantingLibc :=
  fun _ _ => List.mergeSort_perm _ _

/-- Three segments of four cells. -/
def smallFilter (size : Uint32) : BinaryFuse8 where
  seed := 0
  size := size
  segmentLength := 4
  segmentLengthMask := 3
  segmentCount := 1
  segmentCountLength := 4
  arrayLength := 12
  fingerprints := List.replicate 12 0

theorem smallFilter_shaped (size : Uint32) : Shaped 2 (smallFilter size) where
  positive := by omega
  bound := by omega
  length := rfl
  mask := rfl
  count := Nat.one_pos
  counts := rfl
  array := rfl

theorem populate_finds_every_key_repeated :
    ∃ keys seed fingerprints, binaryFuse8Populate grantingLibc [1, 0, 1] 3 (smallFilter 3) =
        .ok (true, keys, { smallFilter 3 with seed, fingerprints }) ∧
      ∀ key ∈ ([1, 0, 1] : List Uint64),
        binaryFuse8Contain key { smallFilter 3 with seed, fingerprints } = .ok true := by
  have bound : (3 : Uint32).toNat + 1 < 2 ^ 32 := by decide
  have enough : (3 : Uint32).toNat ≤ ([1, 0, 1] : List Uint64).length := by decide
  have safe : SafeKeys (([1, 0, 1] : List Uint64).take (3 : Uint32).toNat) xorMaxIterations := by
    right
    intro k below key member
    have few : key = 1 ∨ key = 0 ∨ key = 1 := by simpa using member
    rcases few with rfl | rfl | rfl
    · exact admissible_one k below
    · exact admissible_zero k below
    · exact admissible_one k below
  have table : (smallFilter 3).fingerprints.length = (smallFilter 3).arrayLength.toNat := rfl
  obtain ⟨found, keys, seed, fingerprints, ran, _, _, _, present, _⟩ :=
    populate_finds_every_key (smallFilter_shaped 3) table grantingLibc_permutes bound enough safe
  have succeeds : (binaryFuse8Populate grantingLibc [1, 0, 1] 3 (smallFilter 3)).map
      (fun result => result.1) = .ok true := by decide +kernel
  rw [ran] at succeeds
  obtain rfl : found = true := by injection succeeds
  exact ⟨keys, seed, fingerprints, ran, present rfl⟩

section Populate

variable {e : Nat} {lib : Libc} {filter : BinaryFuse8} {buffer : List Uint64} {size : Uint32}
  {blockBits : Nat}

/-- Distinct keys are populated exactly if one of the first hundred seeds is good
for them, and then with the first good one. -/
theorem populate_takes_first_good_seed (shaped : Shaped e filter)
    (table : filter.fingerprints.length = filter.arrayLength.toNat) (sorts : Permutes lib)
    (agrees : size = filter.size) (bound : size.toNat + 1 < 2 ^ 32)
    (enough : size.toNat ≤ buffer.length) (distinct : (buffer.take size.toNat).Nodup)
    (counted : Source.BinaryFuse.segmentBits filter.segmentCount = .ok blockBits)
    (granted : Granted lib filter size blockBits) :
    ∃ found keys after, binaryFuse8Populate lib buffer size filter = .ok (found, keys, after) ∧
      (found = true ↔ ∃ k < xorMaxIterations,
        GoodSeed filter (buffer.take size.toNat) (seedAt k)) ∧
      (found = true → ∃ k < xorMaxIterations, after.seed = seedAt k ∧
        GoodSeed filter (buffer.take size.toNat) (seedAt k) ∧
        ∀ i < k, ¬ GoodSeed filter (buffer.take size.toNat) (seedAt i)) := by
  obtain ⟨tried, ⟨found, keys, after⟩, ran, holds, same, seed, _⟩ :=
    populate_tried shaped table sorts agrees bound enough (.inl distinct) counted granted
  simp only at same seed
  have first : found = true → ∃ k < xorMaxIterations, after.seed = seedAt k ∧
      GoodSeed filter (buffer.take size.toNat) (seedAt k) ∧
      ∀ i < k, ¬ GoodSeed filter (buffer.take size.toNat) (seedAt i) := by
    intro done
    obtain ⟨k, _, below, finished, least⟩ := holds.found (same ▸ done)
    obtain ⟨good, smaller⟩ := least distinct
    exact ⟨k, below, seed.trans finished.drawn, good, fun i before =>
      smaller i (Nat.zero_le _) before⟩
  refine ⟨found, keys, after, ran, ⟨fun done => ?_, fun exists_good => ?_⟩, first⟩
  · obtain ⟨k, below, _, good, _⟩ := first done
    exact ⟨k, below, good⟩
  · obtain ⟨k, below, good⟩ := exists_good
    by_contra missed
    rw [Bool.not_eq_true] at missed
    exact holds.failed (same ▸ missed) distinct k (Nat.zero_le _) below good

end Populate

theorem populate_takes_first_good_seed_two :
    ∃ keys after, binaryFuse8Populate grantingLibc [5, 9] 2 (smallFilter 2) =
        .ok (true, keys, after) ∧
      ∃ k < xorMaxIterations, after.seed = seedAt k ∧
        GoodSeed (smallFilter 2) [5, 9] (seedAt k) := by
  have table : (smallFilter 2).fingerprints.length = (smallFilter 2).arrayLength.toNat := rfl
  have counted : Source.BinaryFuse.segmentBits (smallFilter 2).segmentCount = .ok 1 := by decide
  have granted : Granted grantingLibc (smallFilter 2) 2 1 := by decide
  have agrees : (2 : Uint32) = (smallFilter 2).size := rfl
  have bound : (2 : Uint32).toNat + 1 < 2 ^ 32 := by decide
  have enough : (2 : Uint32).toNat ≤ ([5, 9] : List Uint64).length := by decide
  have distinct : (([5, 9] : List Uint64).take (2 : Uint32).toNat).Nodup := by decide
  obtain ⟨found, keys, after, ran, _, first⟩ :=
    populate_takes_first_good_seed (smallFilter_shaped 2) table grantingLibc_permutes agrees
      bound enough distinct counted granted
  have succeeds : (binaryFuse8Populate grantingLibc [5, 9] 2 (smallFilter 2)).map
      (fun result => result.1) = .ok true := by decide +kernel
  rw [ran] at succeeds
  obtain rfl : found = true := by injection succeeds
  obtain ⟨k, below, drawn, good, _⟩ := first rfl
  exact ⟨keys, after, ran, k, below, drawn, good⟩

end Quickbloom.Fuse
