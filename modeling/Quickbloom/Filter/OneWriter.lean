import Quickbloom.Filter.Interleaving

namespace Quickbloom.Filter

open Quickbloom.Data Quickbloom.Machine Quickbloom.Source Quickbloom.Probe

/-! # What holds in every interleaving -/

variable {Reader : Type} [DecidableEq Reader]

/-- The memory has the cells of all completed inserts and no cells but those of
started ones, and every thread stands where its calls lead it. -/
structure Invariant (k : Nat) (b : BloomT) (hashes : List Uint64) (s : System Reader) : Prop where
  length : s.memory.length = 8 * 2 ^ k
  writer : ∃ ahead, s.started = s.completed + ahead ∧
    Writing k b s.memory (hashes.drop s.completed) ahead s.writer
  lower : insertAll (probe k) (contents b.bits) (hashes.take s.completed) ⊆ contents s.memory
  upper : contents s.memory ⊆ insertAll (probe k) (contents b.bits) (hashes.take s.started)
  readers : ∀ reader query, s.readers reader = some query → query.since ≤ s.completed ∧
    Reading k (query.hash ∈ hashes.take query.since) query.hash query.thread

section Invariant

variable {k : Nat} {b : BloomT} {hashes : List Uint64} {s next : System Reader}

omit [DecidableEq Reader] in
theorem invariant_start (valid : WellFormed k b) (operands : List Operand) :
    Invariant k b (operands.flatMap Operand.hashes)
      (System.start b operands : System Reader) where
  length := valid.words
  writer := by
    refine ⟨0, rfl, ?_⟩
    rw [System.start, forM_insert]
    exact writing_enter valid.toHeaderOf _ _
  lower := Set.Subset.refl _
  upper := Set.Subset.refl _
  readers := by
    intro reader query asked
    cases asked

omit [DecidableEq Reader] in
theorem Invariant.present (holds : Invariant k b hashes s) {h : Uint64} {since : Nat}
    (earlier : since ≤ s.completed) (inserted : h ∈ hashes.take since) :
    probe k h ⊆ contents s.memory :=
  fun _ probed => holds.lower (mem_insertAll.mpr
    (.inr ⟨h, List.take_subset_take_left hashes earlier inserted, probed⟩))

omit [DecidableEq Reader] in
theorem Invariant.write (valid : WellFormed k b) (holds : Invariant k b hashes s)
    {access : LaneAccess} {writer : Thread Unit} {memory : Words}
    (moved : Thread.Step s.writer s.memory access writer memory) :
    Invariant k b hashes { s with
      memory, writer
      started := s.started + access.begins.toNat
      completed := s.completed + access.ends.toNat } ∧ contents s.memory ⊆ contents memory := by
  obtain ⟨length, ⟨ahead, count, writing⟩, lower, upper, readers⟩ := holds
  have later : ∀ reader query, s.readers reader = some query →
      query.since ≤ s.completed + access.ends.toNat ∧
        Reading k (query.hash ∈ hashes.take query.since) query.hash query.thread := by
    intro reader query asked
    obtain ⟨since, reading⟩ := readers reader query asked
    exact ⟨Nat.le_add_right_of_le since, reading⟩
  rcases writing.step valid.toHeaderOf length moved with
    ⟨same, ends, onward⟩ | ⟨h, rest, pending, one, begins, size, grows, within, onward⟩
  · subst same
    simp only [ends, Bool.toNat_false, Nat.add_zero] at later ⊢
    refine ⟨⟨length, ⟨_, by rw [count, Nat.add_assoc], onward⟩, lower, ?_, later⟩,
      Set.Subset.refl _⟩
    exact Set.Subset.trans upper
      (insertAll_subset (List.take_subset_take_left hashes (Nat.le_add_right _ _)))
  · subst one
    have current : hashes.take (s.completed + 1) = hashes.take s.completed ++ [h] := by
      rw [List.take_add, pending]
      rfl
    have beyond : hashes.drop (s.completed + 1) = rest := by
      rw [← List.drop_drop, pending]
      rfl
    have newUpper : contents memory ⊆
        insertAll (probe k) (contents b.bits) (hashes.take s.started) := by
      refine Set.Subset.trans within (Set.union_subset upper ?_)
      rw [count, current]
      exact reports_inserted (List.mem_append_right _ (List.mem_singleton_self h))
    simp only [begins, Bool.toNat_false, Nat.add_zero]
    refine ⟨?_, grows⟩
    rcases onward with ⟨ends, onward⟩ | ⟨ends, added, onward⟩
    · simp only [ends, Bool.toNat_false, Nat.add_zero] at later ⊢
      exact ⟨size.trans length, ⟨1, count, onward⟩, Set.Subset.trans lower grows, newUpper, later⟩
    · simp only [ends, Bool.toNat_true] at later ⊢
      refine ⟨size.trans length, ⟨0, count, ?_⟩, ?_, newUpper, later⟩
      · simp only [beyond]
        exact onward
      · simp only [current, insertAll_append, insertAll_cons, insertAll_nil]
        exact Set.union_subset (Set.Subset.trans lower grows) added

theorem Invariant.answered (holds : Invariant k b hashes s) (reader : Reader) {query : Query}
    (since : query.since ≤ s.completed)
    (reading : Reading k (query.hash ∈ hashes.take query.since) query.hash query.thread) :
    Invariant k b hashes { s with readers := Function.update s.readers reader (some query) } := by
  refine { holds with readers := ?_ }
  intro other current asked
  change Function.update s.readers reader (some query) other = some current at asked
  by_cases same : other = reader
  · rw [same, Function.update_self] at asked
    cases asked
    exact ⟨since, reading⟩
  · rw [Function.update_of_ne same] at asked
    exact holds.readers other current asked

theorem Invariant.step (valid : WellFormed k b) (holds : Invariant k b hashes s)
    (step : System.Step b s next) :
    Invariant k b hashes next ∧ contents s.memory ⊆ contents next.memory := by
  have header := valid.toHeaderOf
  cases step with
  | write moved => exact holds.write valid moved
  | ask reader idle called =>
      exact ⟨holds.answered reader (Nat.zero_le _) (reading_enter header called),
        Set.Subset.refl _⟩
  | @read query access thread memory reader asked moved =>
      obtain ⟨since, reading⟩ := holds.readers reader query asked
      have bounded : (if access.begins then s.completed else query.since) ≤ s.completed := by
        split
        · exact Nat.le_refl _
        · exact since
      obtain ⟨unchanged, onward⟩ := reading.step header holds.length moved
        (holds.present bounded) (by
          intro later awaits
          rwa [later, if_neg Bool.false_ne_true] at awaits)
      subst unchanged
      exact ⟨holds.answered reader bounded onward, Set.Subset.refl _⟩

theorem Invariant.run (valid : WellFormed k b) (holds : Invariant k b hashes s)
    (run : Relation.ReflTransGen (System.Step b) s next) :
    Invariant k b hashes next ∧ contents s.memory ⊆ contents next.memory := by
  induction run with
  | refl => exact ⟨holds, Set.Subset.refl _⟩
  | tail _ step ih =>
      obtain ⟨between, grown⟩ := ih
      obtain ⟨after, grows⟩ := between.step valid step
      exact ⟨after, Set.Subset.trans grown grows⟩

omit [DecidableEq Reader] in
theorem Invariant.seen (valid : WellFormed k b) (holds : Invariant k b hashes s) {reader : Reader}
    {query : Query} (asked : s.readers reader = some query) {pointer : Nat} {lane : Fin 8}
    {word : BitVec 32} {first : Bool} {thread : Thread Nat} {memory : Words}
    (moved : Thread.Step query.thread s.memory (.load pointer lane word first) thread memory)
    {t : Nat} (bit : word.getLsbD t = true) :
    (∃ original, b.bits[pointer + lane]? = some original ∧ original.getLsbD t = true) ∨
      ∃ h ∈ hashes.take s.started, blockFor b h = .ok pointer ∧
        (maskFor (h.setWidth 32) lane).getLsbD t = true := by
  have header := valid.toHeaderOf
  obtain ⟨_, reading⟩ := holds.readers reader query asked
  generalize query.thread = current at moved reading
  cases moved with
  | load member checked =>
      cases reading with
      | loading pending loaded =>
          have inside := header.inside holds.length query.hash
          have cell := holds.upper ((mem_contents_iff inside lane t).mpr bit)
          rw [mem_insertAll] at cell
          rcases cell with before | ⟨h, member, block, position⟩
          · exact .inl before
          · refine .inr ⟨h, member, ?_, ?_⟩
            · rw [header.blockFor_eq, ← show blockIndex k query.hash = blockIndex k h from block]
            · rw [maskFor_bit]
              exact decide_eq_true position

omit [DecidableEq Reader] in
theorem Invariant.complete (holds : Invariant k b hashes s) (finished : s.writer = .finished ()) :
    s.started = s.completed ∧ hashes.length ≤ s.completed := by
  obtain ⟨ahead, count, writing⟩ := holds.writer
  rw [finished] at writing
  generalize pending : hashes.drop s.completed = rest at writing
  cases writing
  exact ⟨count, List.drop_eq_nil_iff.mp pending⟩

omit [DecidableEq Reader] in
/-- Once the writer has finished, the memory is what its calls leave when they
run one after another. -/
theorem Invariant.final (valid : WellFormed k b) {operands : List Operand}
    (holds : Invariant k b (operands.flatMap Operand.hashes) s)
    (finished : s.writer = .finished ()) :
    ∃ after, insertRun b operands = .ok after ∧ s.memory = after.bits := by
  obtain ⟨count, all⟩ := holds.complete finished
  obtain ⟨after, ran, afterValid, cells⟩ := valid.insertRun_ok operands
  have lower := holds.lower
  have upper := holds.upper
  rw [List.take_of_length_le all] at lower
  rw [count, List.take_of_length_le all] at upper
  refine ⟨after, ran, contents_injective holds.length afterValid.words ?_⟩
  rw [cells]
  exact Set.Subset.antisymm upper lower

omit [DecidableEq Reader] in
theorem Invariant.checked (valid : WellFormed k b) (holds : Invariant k b hashes s) (h : Uint64) :
    checkVector s.memory (8 * blockIndex k h) = .ok () :=
  checkVector_ok (Nat.mul_mod_right 8 _) (valid.inside holds.length h)

omit [DecidableEq Reader] in
theorem Invariant.writer_ready (valid : WellFormed k b) (holds : Invariant k b hashes s) :
    s.writer = .finished () ∨
      ∃ access writer memory, Thread.Step s.writer s.memory access writer memory := by
  have checked := holds.checked valid
  obtain ⟨ahead, _, writing⟩ := holds.writer
  generalize s.writer = writer at writing
  generalize hashes.drop s.completed = rest at writing
  cases writing with
  | finished => exact .inl rfl
  | loading pending loaded =>
      obtain ⟨lane, member⟩ := Finset.nonempty_iff_ne_empty.mpr pending
      exact .inr ⟨_, _, _, .load member (checked _)⟩
  | storing pending computed stored =>
      obtain ⟨lane, member⟩ := Finset.nonempty_iff_ne_empty.mpr pending
      exact .inr ⟨_, _, _, .store member (checked _)⟩

omit [DecidableEq Reader] in
theorem Invariant.reader_ready (valid : WellFormed k b) (holds : Invariant k b hashes s)
    {reader : Reader} {query : Query} (asked : s.readers reader = some query) :
    (∃ found, query.thread = .finished found) ∨
      ∃ access thread, Thread.Step query.thread s.memory access thread s.memory := by
  have checked := holds.checked valid
  obtain ⟨_, reading⟩ := holds.readers reader query asked
  generalize query.thread = thread at reading
  cases reading with
  | finished answer => exact .inl ⟨_, rfl⟩
  | loading pending loaded =>
      obtain ⟨lane, member⟩ := Finset.nonempty_iff_ne_empty.mpr pending
      exact .inr ⟨_, _, .load member (checked _)⟩

end Invariant

section Alone

variable {k : Nat} {b : BloomT} {hashes : List Uint64} {s : System Reader}

theorem writer_run {writer last : Thread Unit} {memory after : Words} {trace : List LaneAccess}
    (run : Thread.Run writer memory trace last after) (current : s.writer = writer)
    (words : s.memory = memory) :
    ∃ next, Relation.ReflTransGen (System.Step b) s next ∧ next.writer = last ∧
      next.readers = s.readers := by
  induction run generalizing s with
  | nil => exact ⟨s, .refl, current, rfl⟩
  | @cons _ middle _ _ between _ access _ moved _ ih =>
      subst current words
      let stepped : System Reader := { s with
        memory := between
        writer := middle
        started := s.started + access.begins.toNat
        completed := s.completed + access.ends.toNat }
      obtain ⟨next, following, finished, readers⟩ := ih (s := stepped) rfl rfl
      exact ⟨next, .head (.write moved) following, finished, readers⟩

theorem writer_alone (valid : WellFormed k b) (operands : List Operand) :
    ∃ s : System Reader, Relation.ReflTransGen (System.Step b) (System.start b operands) s ∧
      s.writer = .finished () ∧ s.readers = fun _ => none := by
  obtain ⟨after, ran, _⟩ :=
    valid.toHeaderOf.insertEach_exec valid.words (operands.flatMap Operand.hashes)
  obtain ⟨trace, alone⟩ := Thread.exec_run ran
  have start : (System.start b operands : System Reader).writer =
      .enter (insertEach b (operands.flatMap Operand.hashes)) := by
    rw [System.start, forM_insert]
  exact writer_run alone start rfl

theorem reader_run {thread last : Thread Nat} {memory after : Words} {trace : List LaneAccess}
    (run : Thread.Run thread memory trace last after) {reader : Reader} {h : Uint64}
    (asked : s.readers reader = some ⟨h, thread, s.completed⟩) (words : s.memory = memory) :
    ∃ next, Relation.ReflTransGen (System.Step b) s next ∧
      next.readers reader = some ⟨h, last, s.completed⟩ := by
  induction run generalizing s with
  | nil => exact ⟨s, .refl, asked⟩
  | @cons _ middle _ _ between _ access _ moved _ ih =>
      subst words
      let stepped : System Reader := { s with
        memory := between
        readers := Function.update s.readers reader (some ⟨h, middle,
          if access.begins then s.completed else s.completed⟩) }
      have same : stepped.readers reader = some ⟨h, middle, s.completed⟩ := by
        simp only [stepped, ite_self, Function.update_self]
      obtain ⟨next, following, finished⟩ := ih (s := stepped) same rfl
      exact ⟨next, .head (.read reader asked moved) following, finished⟩

/-- From every state that the invariant allows, an idle reader can look up a
hash and get an answer that counts the inserts complete by now. -/
theorem Invariant.lookup (valid : WellFormed k b) (holds : Invariant k b hashes s)
    {reader : Reader} (idle : s.readers reader = none) (h : Uint64) :
    ∃ next found, Relation.ReflTransGen (System.Step b) s next ∧
      next.readers reader = some ⟨h, .finished found, s.completed⟩ := by
  have inside := valid.inside holds.length h
  obtain ⟨access, rest, begins, run⟩ := Thread.load_run (fun _ => 0)
    (fun cur => .done (mm256TestcSi256 cur (maskFor (h.setWidth 32))))
    Thread.allLanes_ne_empty (checkVector_ok (Nat.mul_mod_right 8 _) inside) Thread.noLane
  rw [decide_eq_true rfl] at begins
  cases run with
  | @cons _ middle _ _ between _ _ _ moved following =>
      let asked : System Reader := { s with
        readers := Function.update s.readers reader
          (some ⟨h, .enter (qbContainsPrehash b h), 0⟩) }
      let loaded : System Reader := { asked with
        memory := between
        readers := Function.update asked.readers reader
          (some ⟨h, middle, if access.begins then s.completed else 0⟩) }
      have ask : System.Step b s asked :=
        .ask reader (fun query present => by rw [idle] at present; cases present) .prehash
      have present : asked.readers reader = some ⟨h, .enter (qbContainsPrehash b h), 0⟩ :=
        Function.update_self ..
      have first : Thread.Step (.enter (qbContainsPrehash b h)) asked.memory access middle
          between := by
        rw [valid.qbContainsPrehash_eq]
        exact moved
      have load : System.Step b asked loaded := .read reader present first
      have counted : loaded.readers reader = some ⟨h, middle, loaded.completed⟩ := by
        simp only [loaded, asked, begins, ↓reduceIte, Function.update_self]
      obtain ⟨next, onward, finished⟩ := reader_run following counted rfl
      exact ⟨next, _, .head ask (.head load onward), finished⟩

end Alone

/-- In every interleaving of one writer with readers, a query whose first lane
load comes after the last lane store of an insert of its hash is a hit, no word
of the array ever loses a bit, and each lane that a reader loads has only bits
that were set at the start or belong to an insert that has started. -/
theorem oneWriter_safe {k : Nat} {b : BloomT} (valid : WellFormed k b) {operands : List Operand}
    {s : System Reader}
    (run : Relation.ReflTransGen (System.Step b) (System.start b operands) s) :
    (∀ reader query found, s.readers reader = some query → query.thread = .finished found →
      query.hash ∈ (operands.flatMap Operand.hashes).take query.since → found ≠ 0) ∧
    (∀ later, Relation.ReflTransGen (System.Step b) s later →
      ∀ (index : Nat) (word : BitVec 32), s.memory[index]? = some word →
        ∃ kept, later.memory[index]? = some kept ∧ Subword word kept) ∧
    (∀ reader query pointer lane word first thread memory, s.readers reader = some query →
      Thread.Step query.thread s.memory (.load pointer lane word first) thread memory →
      ∀ t, word.getLsbD t = true →
        (∃ original, b.bits[pointer + lane.val]? = some original ∧ original.getLsbD t = true) ∨
        ∃ h ∈ (operands.flatMap Operand.hashes).take s.started,
          blockFor b h = .ok pointer ∧ (maskFor (h.setWidth 32) lane).getLsbD t = true) := by
  obtain ⟨holds, _⟩ := (invariant_start valid operands).run valid run
  refine ⟨?_, ?_, ?_⟩
  · intro reader query found asked done inserted
    obtain ⟨_, reading⟩ := holds.readers reader query asked
    rw [done] at reading
    cases reading with
    | finished answer => exact answer inserted
  · intro later onward index word selected
    obtain ⟨laterHolds, grown⟩ := holds.run valid onward
    exact subword_of_contents holds.length laterHolds.length grown selected
  · intro reader query pointer lane word first thread memory asked moved t bit
    exact holds.seen valid asked moved bit

theorem oneWriter_safe_inserted :
    ∃ (s : System Unit) (query : Query) (found : Nat),
      Relation.ReflTransGen (System.Step (emptyFilter 0))
        (System.start (emptyFilter 0) [.prehash 7]) s ∧
      s.readers () = some query ∧ query.hash = 7 ∧ query.thread = .finished found ∧ found ≠ 0 := by
  have valid : WellFormed 0 (emptyFilter 0) := emptyFilter_wellFormed (by omega)
  obtain ⟨written, run, finished, readers⟩ := @writer_alone Unit _ _ _ valid [.prehash 7]
  obtain ⟨holds, _⟩ := (invariant_start valid [.prehash 7]).run valid run
  have complete : 7 ∈ (List.flatMap Operand.hashes [.prehash 7]).take written.completed := by
    rw [List.take_of_length_le (holds.complete finished).2]
    exact List.mem_singleton_self 7
  obtain ⟨s, found, lookup, answer⟩ := holds.lookup valid (congrFun readers ()) 7
  exact ⟨s, _, found, run.trans lookup, answer, rfl, rfl,
    (oneWriter_safe valid (run.trans lookup)).1 () _ found answer rfl complete⟩

/-- Nobody waits for anybody: in every state reached each thread has finished
its call or has a next access, and the one of a reader leaves the memory alone.
When the writer has finished, the array is that of its calls made in order. -/
theorem oneWriter_completes {k : Nat} {b : BloomT} (valid : WellFormed k b)
    {operands : List Operand} {s : System Reader}
    (run : Relation.ReflTransGen (System.Step b) (System.start b operands) s) :
    (s.writer = .finished () →
      ∃ after, insertRun b operands = .ok after ∧ s.memory = after.bits) ∧
    (s.writer = .finished () ∨
      ∃ access writer memory, Thread.Step s.writer s.memory access writer memory) ∧
    ∀ reader query, s.readers reader = some query →
      (∃ found, query.thread = .finished found) ∨
        ∃ access thread, Thread.Step query.thread s.memory access thread s.memory := by
  obtain ⟨holds, _⟩ := (invariant_start valid operands).run valid run
  refine ⟨holds.final valid, holds.writer_ready valid, ?_⟩
  intro reader query asked
  exact holds.reader_ready valid asked

theorem oneWriter_completes_two :
    ∃ (s : System Unit) (after : BloomT),
      Relation.ReflTransGen (System.Step (emptyFilter 1))
        (System.start (emptyFilter 1) [.prehash 7, .prehashes [3, 9]]) s ∧
      s.writer = .finished () ∧
      insertRun (emptyFilter 1) [.prehash 7, .prehashes [3, 9]] = .ok after ∧
      s.memory = after.bits := by
  have valid : WellFormed 1 (emptyFilter 1) := emptyFilter_wellFormed (by omega)
  obtain ⟨s, run, finished, _⟩ :=
    @writer_alone Unit _ _ _ valid [.prehash 7, .prehashes [3, 9]]
  obtain ⟨after, ran, same⟩ := (oneWriter_completes valid run).1 finished
  exact ⟨s, after, run, finished, ran, same⟩

end Quickbloom.Filter
