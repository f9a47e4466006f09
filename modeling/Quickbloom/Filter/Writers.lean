import Quickbloom.Filter.Interleaving
import Quickbloom.Filter.Membership

namespace Quickbloom.Filter

open Quickbloom.Data Quickbloom.Machine Quickbloom.Source Quickbloom.Probe

/-! # Several writers

Nothing in the library keeps concurrent inserts apart. Writers that are kept
apart by their callers lose nothing.
-/

structure Writers (Writer : Type) where
  memory : Words
  thread : Writer → Thread Unit
  started : Writer → Nat
  completed : Writer → Nat

variable {Writer : Type} [DecidableEq Writer]

def Writers.start (b : BloomT) (operands : Writer → List Operand) : Writers Writer where
  memory := b.bits
  thread := fun writer => .enter ((operands writer).forM (Operand.insert b))
  started := fun _ => 0
  completed := fun _ => 0

inductive Writers.Step : Writers Writer → Writers Writer → Prop where
  | write {s : Writers Writer} {access : LaneAccess} {thread : Thread Unit} {memory : Words}
      (writer : Writer) (moved : Thread.Step (s.thread writer) s.memory access thread memory) :
      Step s {
        memory
        thread := Function.update s.thread writer thread
        started := Function.update s.started writer (s.started writer + access.begins.toNat)
        completed := Function.update s.completed writer
          (s.completed writer + access.ends.toNat) }

/-- The thread is between its first load from a block and its last store to it. -/
def HoldsBlock (pointer : Nat) : Thread Unit → Prop
  | .loading place _ remaining _ => place = pointer ∧ remaining ≠ Finset.univ
  | .storing place _ _ _ => place = pointer
  | _ => False

/-- No two writers are at the same block at once. -/
def Apart (s : Writers Writer) : Prop :=
  ∀ first second, first ≠ second → ∀ pointer,
    ¬ (HoldsBlock pointer (s.thread first) ∧ HoldsBlock pointer (s.thread second))

/-- A step that the synchronization of the callers allows. -/
def Writers.Synchronized (s next : Writers Writer) : Prop := Writers.Step s next ∧ Apart next

section Frame

variable {k : Nat} {b : BloomT} {memory after : Words} {hashes : List Uint64} {ahead : Nat}
  {thread next : Thread Unit} {access : LaneAccess}

theorem readVector_set_apart {block other : Nat} (apart : other ≠ block) (lane : Fin 8)
    (word : BitVec 32) :
    readVector (memory.set (8 * block + lane) word) (8 * other) =
      readVector memory (8 * other) := by
  funext place
  have different : 8 * block + lane.val ≠ 8 * other + place.val := by omega
  simp only [readVector, List.getD_eq_getElem?_getD, List.getElem?_set_ne different]

/-- A step changes no block but the one its thread is at. -/
theorem step_block (moved : Thread.Step thread memory access next after) (block : Nat)
    (aligned : ∀ pointer, HoldsBlock pointer thread → pointer % 8 = 0) :
    readVector after (8 * block) = readVector memory (8 * block) ∨
      HoldsBlock (8 * block) thread := by
  cases moved with
  | load member checked => exact .inl rfl
  | @store pointer register remaining _ _ lane member checked =>
      have whole := aligned pointer rfl
      obtain ⟨place, rfl⟩ : ∃ place, pointer = 8 * place := ⟨pointer / 8, by omega⟩
      by_cases same : block = place
      · subst same
        exact .inr rfl
      · exact .inl (readVector_set_apart same lane _)

theorem Writing.idle (writing : Writing k b memory hashes ahead thread) (idle : ahead = 0)
    {pointer : Nat} : ¬ HoldsBlock pointer thread := by
  intro holds
  cases writing with
  | finished => cases holds
  | loading pending loaded =>
      rw [if_neg holds.2] at idle
      cases idle
  | storing pending computed stored => cases idle

/-- A writer is at the block of its next hash. -/
theorem Writing.block (writing : Writing k b memory hashes ahead thread) {pointer : Nat}
    (holds : HoldsBlock pointer thread) : ∃ h ∈ hashes, pointer = 8 * blockIndex k h := by
  cases writing with
  | finished => cases holds
  | loading pending loaded => exact ⟨_, List.mem_cons_self, holds.1.symm⟩
  | storing pending computed stored => exact ⟨_, List.mem_cons_self, holds.symm⟩

theorem Writing.aligned (writing : Writing k b memory hashes ahead thread) {pointer : Nat}
    (holds : HoldsBlock pointer thread) : pointer % 8 = 0 := by
  obtain ⟨h, _, rfl⟩ := writing.block holds
  exact Nat.mul_mod_right 8 _

/-- Between two inserts a writer leaves its block before it comes to the next. -/
theorem Writing.holds_step (header : HeaderOf k b)
    (writing : Writing k b memory hashes ahead thread)
    (moved : Thread.Step thread memory access next after) {pointer : Nat}
    (holds : HoldsBlock pointer next) :
    HoldsBlock pointer thread ∨ ∀ place, ¬ HoldsBlock place thread := by
  cases writing with
  | finished => cases moved
  | @loading h rest register remaining pending loaded =>
      cases moved with
      | @load _ _ _ _ _ lane member checked =>
          by_cases begun : remaining = Finset.univ
          · exact .inr fun place held => held.2 begun
          · refine .inl ⟨?_, begun⟩
            by_cases last : remaining.erase lane = ∅
            · rw [Thread.afterLoad, if_pos last] at holds
              exact holds
            · rw [Thread.afterLoad, if_neg last] at holds
              exact holds.1
  | @storing h rest register remaining pending computed stored =>
      cases moved with
      | @store _ _ _ _ _ lane member checked =>
          by_cases last : remaining.erase lane = ∅
          · rw [Thread.afterStore, if_pos last] at holds
            exact absurd holds ((writing_enter header memory rest).idle rfl)
          · rw [Thread.afterStore, if_neg last] at holds
            exact .inl holds

/-- An unfinished writer is never stuck. -/
theorem Writing.progress (header : HeaderOf k b) (length : memory.length = 8 * 2 ^ k)
    (writing : Writing k b memory hashes ahead thread) :
    thread = .finished () ∨
      ∃ access next after, Thread.Step thread memory access next after := by
  have checked : ∀ h, checkVector memory (8 * blockIndex k h) = .ok () := fun h =>
    checkVector_ok (Nat.mul_mod_right 8 _) (header.inside length h)
  cases writing with
  | finished => exact .inl rfl
  | loading pending loaded =>
      obtain ⟨lane, member⟩ := Finset.nonempty_iff_ne_empty.mpr pending
      exact .inr ⟨_, _, _, .load member (checked _)⟩
  | storing pending computed stored =>
      obtain ⟨lane, member⟩ := Finset.nonempty_iff_ne_empty.mpr pending
      exact .inr ⟨_, _, _, .store member (checked _)⟩

/-- A writer stands where it stood if the block it is at has not changed. -/
theorem Writing.frame (writing : Writing k b memory hashes ahead thread)
    (grows : contents memory ⊆ contents after)
    (same : ∀ block, HoldsBlock (8 * block) thread →
      readVector after (8 * block) = readVector memory (8 * block)) :
    Writing k b after hashes ahead thread := by
  cases writing with
  | finished => exact .finished
  | @loading h rest register remaining pending loaded =>
      refine .loading pending fun lane outside => ?_
      have begun : remaining ≠ Finset.univ := by
        intro all
        exact outside (all ▸ Finset.mem_univ lane)
      rw [same _ ⟨rfl, begun⟩]
      exact loaded lane outside
  | @storing h rest register remaining pending computed stored =>
      refine .storing pending (fun lane member => ?_) fun lane outside =>
        Set.Subset.trans (stored lane outside) grows
      rw [same _ rfl]
      exact computed lane member

end Frame

omit [DecidableEq Writer] in
theorem start_thread (b : BloomT) (operands : Writer → List Operand) (writer : Writer) :
    (Writers.start b operands).thread writer =
      .enter (insertEach b ((operands writer).flatMap Operand.hashes)) := by
  rw [← forM_insert]
  rfl

/-- The memory has the cells of all completed inserts of every writer and no
cells but those of started ones. -/
structure Undisturbed (k : Nat) (b : BloomT) (hashes : Writer → List Uint64) (s : Writers Writer) :
    Prop where
  length : s.memory.length = 8 * 2 ^ k
  writing : ∀ writer, ∃ ahead, s.started writer = s.completed writer + ahead ∧
    Writing k b s.memory ((hashes writer).drop (s.completed writer)) ahead (s.thread writer)
  before : contents b.bits ⊆ contents s.memory
  lower : ∀ writer, ∀ h ∈ (hashes writer).take (s.completed writer), probe k h ⊆ contents s.memory
  upper : ∀ cell ∈ contents s.memory, cell ∈ contents b.bits ∨
    ∃ writer, ∃ h ∈ (hashes writer).take (s.started writer), cell ∈ probe k h

section Invariant

variable {k : Nat} {b : BloomT} {hashes : Writer → List Uint64} {s next : Writers Writer}

omit [DecidableEq Writer] in
theorem undisturbed_start (valid : WellFormed k b) (operands : Writer → List Operand) :
    Undisturbed k b (fun writer => (operands writer).flatMap Operand.hashes)
      (Writers.start b operands) where
  length := valid.words
  writing := by
    intro writer
    refine ⟨0, rfl, ?_⟩
    rw [start_thread]
    exact writing_enter valid.toHeaderOf _ _
  before := Set.Subset.refl _
  lower := by
    intro writer h member
    cases member
  upper := fun _ present => .inl present

omit [DecidableEq Writer] in
/-- The writer that moves, and its inserts before and after. -/
theorem Undisturbed.moved (valid : WellFormed k b) (holds : Undisturbed k b hashes s)
    {writer : Writer} {access : LaneAccess} {thread : Thread Unit} {memory : Words}
    (moved : Thread.Step (s.thread writer) s.memory access thread memory) :
    memory.length = 8 * 2 ^ k ∧ contents s.memory ⊆ contents memory ∧
      (∃ ahead, s.started writer + access.begins.toNat =
          s.completed writer + access.ends.toNat + ahead ∧
        Writing k b memory ((hashes writer).drop (s.completed writer + access.ends.toNat)) ahead
          thread) ∧
      (∀ h ∈ (hashes writer).take (s.completed writer + access.ends.toNat),
        probe k h ⊆ contents memory) ∧
      ∀ cell ∈ contents memory, cell ∈ contents s.memory ∨
        ∃ h ∈ (hashes writer).take (s.started writer), cell ∈ probe k h := by
  obtain ⟨ahead, count, writing⟩ := holds.writing writer
  rcases writing.step valid.toHeaderOf holds.length moved with
    ⟨rfl, ends, onward⟩ | ⟨h, rest, pending, one, begins, size, grows, within, onward⟩
  · simp only [ends, Bool.toNat_false, Nat.add_zero]
    refine ⟨holds.length, Set.Subset.refl _, ⟨_, ?_, onward⟩, holds.lower writer, ?_⟩
    · omega
    · exact fun _ present => .inl present
  · subst one
    have current : (hashes writer).take (s.completed writer + 1) =
        (hashes writer).take (s.completed writer) ++ [h] := by
      rw [List.take_add, pending]
      rfl
    have beyond : (hashes writer).drop (s.completed writer + 1) = rest := by
      rw [← List.drop_drop, pending]
      rfl
    have earlier : ∀ h ∈ (hashes writer).take (s.completed writer), probe k h ⊆ contents memory :=
      fun h member => Set.Subset.trans (holds.lower writer h member) grows
    refine ⟨size.trans holds.length, grows, ?_, ?_, ?_⟩
    · simp only [begins, Bool.toNat_false, Nat.add_zero]
      rcases onward with ⟨ends, onward⟩ | ⟨ends, _, onward⟩
      · simp only [ends, Bool.toNat_false, Nat.add_zero]
        exact ⟨1, count, onward⟩
      · simp only [ends, Bool.toNat_true, beyond]
        exact ⟨0, count, onward⟩
    · rcases onward with ⟨ends, _⟩ | ⟨ends, added, _⟩
      · simpa only [ends, Bool.toNat_false, Nat.add_zero] using earlier
      · simp only [ends, Bool.toNat_true, current]
        intro other member
        rcases List.mem_append.mp member with before | last
        · exact earlier other before
        · exact List.mem_singleton.mp last ▸ added
    · intro cell present
      refine (within present).imp_right fun probed => ⟨h, ?_, probed⟩
      rw [count, current]
      exact List.mem_append_right _ (List.mem_singleton_self h)

theorem Undisturbed.step (valid : WellFormed k b) (holds : Undisturbed k b hashes s)
    (apart : Apart s) (step : Writers.Step s next) :
    Undisturbed k b hashes next ∧ contents s.memory ⊆ contents next.memory := by
  cases step with
  | @write access thread memory writer moved =>
      obtain ⟨length, grows, onward, lower, upper⟩ := holds.moved valid moved
      obtain ⟨_, _, current⟩ := holds.writing writer
      refine ⟨⟨length, ?_, Set.Subset.trans holds.before grows, ?_, ?_⟩, grows⟩
      · intro other
        by_cases same : other = writer
        · subst same
          simpa only [Function.update_self] using onward
        · obtain ⟨ahead, count, writing⟩ := holds.writing other
          simp only [Function.update_of_ne same]
          refine ⟨ahead, count, writing.frame grows fun block held => ?_⟩
          rcases step_block moved block (fun _ => current.aligned) with kept | taken
          · exact kept
          · exact absurd ⟨held, taken⟩ (apart other writer same (8 * block))
      · intro other
        by_cases same : other = writer
        · subst same
          simpa only [Function.update_self] using lower
        · simp only [Function.update_of_ne same]
          exact fun h member => Set.Subset.trans (holds.lower other h member) grows
      · intro cell present
        have started : ∀ other, s.started other ≤ Function.update s.started writer
            (s.started writer + access.begins.toNat) other := by
          intro other
          by_cases same : other = writer
          · subst same
            rw [Function.update_self]
            exact Nat.le_add_right _ _
          · rw [Function.update_of_ne same]
        have known : ∀ other, ∀ h ∈ (hashes other).take (s.started other), cell ∈ probe k h →
            ∃ writer', ∃ h ∈ (hashes writer').take (Function.update s.started writer
              (s.started writer + access.begins.toNat) writer'), cell ∈ probe k h :=
          fun other h member probed => ⟨other, h,
            List.take_subset_take_left (hashes other) (started other) member, probed⟩
        rcases upper cell present with earlier | ⟨h, member, probed⟩
        · rcases holds.upper cell earlier with initial | ⟨other, h, member, probed⟩
          · exact .inl initial
          · exact .inr (known other h member probed)
        · exact .inr (known writer h member probed)

omit [DecidableEq Writer] in
theorem apart_start (valid : WellFormed k b) (operands : Writer → List Operand) :
    Apart (Writers.start b operands) := by
  intro first second _ pointer both
  obtain ⟨ahead, count, writing⟩ := (undisturbed_start valid operands).writing first
  have idle : ahead = 0 := by
    change 0 = 0 + ahead at count
    omega
  exact writing.idle idle both.1

theorem Undisturbed.run (valid : WellFormed k b) (holds : Undisturbed k b hashes s)
    (apart : Apart s) (run : Relation.ReflTransGen Writers.Synchronized s next) :
    Undisturbed k b hashes next ∧ Apart next ∧ contents s.memory ⊆ contents next.memory := by
  induction run with
  | refl => exact ⟨holds, apart, Set.Subset.refl _⟩
  | tail _ step ih =>
      obtain ⟨between, separate, grown⟩ := ih
      obtain ⟨after, grows⟩ := between.step valid separate step.1
      exact ⟨after, step.2, Set.Subset.trans grown grows⟩

omit [DecidableEq Writer] in
theorem Undisturbed.complete (holds : Undisturbed k b hashes s) {writer : Writer}
    (finished : s.thread writer = .finished ()) :
    s.started writer = s.completed writer ∧ (hashes writer).length ≤ s.completed writer := by
  obtain ⟨ahead, count, writing⟩ := holds.writing writer
  rw [finished] at writing
  generalize pending : (hashes writer).drop (s.completed writer) = rest at writing
  cases writing
  exact ⟨count, List.drop_eq_nil_iff.mp pending⟩

omit [DecidableEq Writer] in
/-- Every hash that an insert has been completed for is reported. -/
theorem Undisturbed.found (valid : WellFormed k b) (holds : Undisturbed k b hashes s)
    {h : Uint64} (present : probe k h ⊆ contents s.memory) :
    ∃ found, (qbContainsPrehash b h).exec s.memory = .ok (found, s.memory) ∧ found ≠ 0 := by
  obtain ⟨found, ran, answer⟩ := valid.toHeaderOf.qbContainsPrehash_exec holds.length h
  exact ⟨found, ran, answer.mpr present⟩

omit [DecidableEq Writer] in
/-- Once all writers have finished, the memory is what their calls leave when
they run one after another, in any order. -/
theorem Undisturbed.final (valid : WellFormed k b) {operands : Writer → List Operand}
    (holds : Undisturbed k b (fun writer => (operands writer).flatMap Operand.hashes) s)
    (finished : ∀ writer, s.thread writer = .finished ()) {order : List Writer}
    (all : ∀ writer, writer ∈ order) :
    ∃ after, insertRun b (order.flatMap operands) = .ok after ∧ s.memory = after.bits := by
  obtain ⟨after, ran, afterValid, cells⟩ := valid.insertRun_ok (order.flatMap operands)
  refine ⟨after, ran, contents_injective holds.length afterValid.words ?_⟩
  rw [cells]
  ext cell
  rw [mem_insertAll]
  constructor
  · intro present
    rcases holds.upper cell present with initial | ⟨writer, h, member, probed⟩
    · exact .inl initial
    · refine .inr ⟨h, ?_, probed⟩
      rw [List.flatMap_assoc]
      exact List.mem_flatMap.mpr ⟨writer, all writer, List.mem_of_mem_take member⟩
  · rintro (initial | ⟨h, member, probed⟩)
    · exact holds.before initial
    · rw [List.flatMap_assoc] at member
      obtain ⟨writer, _, inserted⟩ := List.mem_flatMap.mp member
      refine holds.lower writer h ?_ probed
      rw [List.take_of_length_le (holds.complete (finished writer)).2]
      exact inserted

omit [DecidableEq Writer] in
theorem Undisturbed.unfinished (valid : WellFormed k b) (holds : Undisturbed k b hashes s)
    {writer : Writer} (more : s.thread writer ≠ .finished ()) :
    ∃ access thread memory, Thread.Step (s.thread writer) s.memory access thread memory := by
  obtain ⟨_, _, writing⟩ := holds.writing writer
  exact (writing.progress valid.toHeaderOf holds.length).resolve_left more

/-- A writer that holds a block can go on, and so can any when none holds one. -/
theorem Undisturbed.proceed (valid : WellFormed k b) (holds : Undisturbed k b hashes s)
    (apart : Apart s) {writer : Writer} (more : s.thread writer ≠ .finished ())
    (turn : (∃ pointer, HoldsBlock pointer (s.thread writer)) ∨
      ∀ other pointer, ¬ HoldsBlock pointer (s.thread other)) :
    ∃ next, Writers.Synchronized s next := by
  obtain ⟨access, thread, memory, moved⟩ := holds.unfinished valid more
  obtain ⟨_, _, writing⟩ := holds.writing writer
  have alone : ∀ other, other ≠ writer → ∀ pointer,
      ¬ (HoldsBlock pointer thread ∧ HoldsBlock pointer (s.thread other)) := by
    rintro other different pointer ⟨mine, others⟩
    rcases turn with ⟨place, held⟩ | free
    · rcases writing.holds_step valid.toHeaderOf moved mine with before | idle
      · exact apart other writer different pointer ⟨others, before⟩
      · exact idle place held
    · exact free other pointer others
  refine ⟨_, .write writer moved, ?_⟩
  intro first second different pointer both
  simp only at both
  by_cases left : first = writer
  · subst left
    rw [Function.update_self, Function.update_of_ne different.symm] at both
    exact alone second different.symm pointer both
  · rw [Function.update_of_ne left] at both
    by_cases right : second = writer
    · subst right
      rw [Function.update_self] at both
      exact alone first left pointer both.symm
    · rw [Function.update_of_ne right] at both
      exact apart first second different pointer both

omit [DecidableEq Writer] in
/-- Writers whose hashes select different blocks are always apart. -/
theorem Undisturbed.apart (header : HeaderOf k b) (holds : Undisturbed k b hashes s)
    (disjoint : ∀ first second, first ≠ second → ∀ h ∈ hashes first, ∀ other ∈ hashes second,
      blockFor b h ≠ blockFor b other) : Apart s := by
  intro first second different pointer both
  obtain ⟨_, _, firstWriting⟩ := holds.writing first
  obtain ⟨_, _, secondWriting⟩ := holds.writing second
  obtain ⟨h, member, place⟩ := firstWriting.block both.1
  obtain ⟨other, otherMember, otherPlace⟩ := secondWriting.block both.2
  refine disjoint first second different h (List.mem_of_mem_drop member) other
    (List.mem_of_mem_drop otherMember) ?_
  rw [header.blockFor_eq, header.blockFor_eq, ← place, ← otherPlace]

theorem Undisturbed.disjointRun (valid : WellFormed k b) (holds : Undisturbed k b hashes s)
    (disjoint : ∀ first second, first ≠ second → ∀ h ∈ hashes first, ∀ other ∈ hashes second,
      blockFor b h ≠ blockFor b other) (run : Relation.ReflTransGen Writers.Step s next) :
    Undisturbed k b hashes next ∧ contents s.memory ⊆ contents next.memory := by
  induction run with
  | refl => exact ⟨holds, Set.Subset.refl _⟩
  | tail _ step ih =>
      obtain ⟨between, grown⟩ := ih
      obtain ⟨after, grows⟩ := between.step valid (between.apart valid.toHeaderOf disjoint) step
      exact ⟨after, Set.Subset.trans grown grows⟩

end Invariant

/-- A step of one writer. -/
def Writers.Solo (writer : Writer) (s next : Writers Writer) : Prop :=
  Writers.Step s next ∧ ∀ other, other ≠ writer → next.thread other = s.thread other

section Solo

variable {k : Nat} {b : BloomT} {hashes : List Uint64} {s next : Writers Writer} {writer : Writer}

theorem solo_run {thread last : Thread Unit} {memory after : Words} {trace : List LaneAccess}
    (run : Thread.Run thread memory trace last after) (current : s.thread writer = thread)
    (words : s.memory = memory) :
    ∃ next, Relation.ReflTransGen (Writers.Solo writer) s next ∧
      next.thread = Function.update s.thread writer last ∧ next.memory = after := by
  induction run generalizing s with
  | nil => exact ⟨s, .refl, by rw [← current, Function.update_eq_self], words⟩
  | @cons _ middle _ _ between _ access _ moved _ ih =>
      subst current words
      let stepped : Writers Writer := {
        memory := between
        thread := Function.update s.thread writer middle
        started := Function.update s.started writer (s.started writer + access.begins.toNat)
        completed := Function.update s.completed writer (s.completed writer + access.ends.toNat) }
      obtain ⟨next, following, finished, words⟩ :=
        ih (s := stepped) (Function.update_self ..) rfl
      have first : Writers.Solo writer s stepped :=
        ⟨.write writer moved, fun _ different => Function.update_of_ne different ..⟩
      refine ⟨next, .head first following, ?_, words⟩
      rw [finished, Function.update_idem]

/-- A writer that is left alone inserts its hashes. -/
theorem solo_finish (header : HeaderOf k b) (length : s.memory.length = 8 * 2 ^ k)
    (waiting : s.thread writer = .enter (insertEach b hashes)) :
    ∃ next, Relation.ReflTransGen (Writers.Solo writer) s next ∧
      next.thread = Function.update s.thread writer (.finished ()) ∧
      next.memory.length = 8 * 2 ^ k ∧
      contents next.memory = insertAll (probe k) (contents s.memory) hashes := by
  obtain ⟨after, ran, afterLength, cells⟩ := header.insertEach_exec length hashes
  obtain ⟨trace, alone⟩ := Thread.exec_run ran
  obtain ⟨next, run, finished, rfl⟩ := solo_run alone waiting rfl
  exact ⟨next, run, finished, afterLength, cells⟩

theorem solo_synchronized (quiet : ∀ other, other ≠ writer → ∀ pointer,
      ¬ HoldsBlock pointer (s.thread other))
    (run : Relation.ReflTransGen (Writers.Solo writer) s next) :
    Relation.ReflTransGen Writers.Synchronized s next ∧
      ∀ other, other ≠ writer → ∀ pointer, ¬ HoldsBlock pointer (next.thread other) := by
  induction run with
  | refl => exact ⟨.refl, quiet⟩
  | @tail middle last _ step ih =>
      obtain ⟨onward, idle⟩ := ih
      have still : ∀ other, other ≠ writer → ∀ pointer,
          ¬ HoldsBlock pointer (last.thread other) := by
        intro other different pointer
        rw [step.2 other different]
        exact idle other different pointer
      refine ⟨onward.tail ⟨step.1, ?_⟩, still⟩
      intro first second different pointer both
      by_cases left : first = writer
      · exact still second (fun right => different (left.trans right.symm)) pointer both.2
      · exact still first left pointer both.1

end Solo

theorem both_finish {k : Nat} {b : BloomT} (valid : WellFormed k b)
    (operands : Bool → List Operand) :
    ∃ s, Relation.ReflTransGen Writers.Synchronized (Writers.start b operands) s ∧
      ∀ writer, s.thread writer = .finished () := by
  have waiting := start_thread b operands
  have quiet : ∀ writer pointer,
      ¬ HoldsBlock pointer ((Writers.start b operands).thread writer) := by
    intro writer pointer
    rw [waiting]
    exact (writing_enter valid.toHeaderOf b.bits _).idle rfl
  obtain ⟨middle, first, half, length, _⟩ :=
    solo_finish valid.toHeaderOf valid.words (waiting true)
  have second : middle.thread false =
      .enter (insertEach b ((operands false).flatMap Operand.hashes)) := by
    rw [half, Function.update_of_ne (by decide), waiting]
  obtain ⟨last, rest, done, _⟩ := solo_finish valid.toHeaderOf length second
  obtain ⟨start, _⟩ := solo_synchronized (fun other _ => quiet other) first
  obtain ⟨onward, _⟩ := solo_synchronized (by
    intro other different pointer holds
    rw [half, Bool.eq_true_of_not_eq_false different, Function.update_self] at holds
    exact holds) rest
  refine ⟨last, start.trans onward, ?_⟩
  intro writer
  cases writer with
  | false => rw [done, Function.update_self]
  | true => rw [done, Function.update_of_ne (by decide), half, Function.update_self]

/-- What callers may rely on in a state of some writers: the inserts that are
complete stay visible, the writers can go on, and once they are done the memory
is as if they had run one after another, in any order. -/
structure Lossless (b : BloomT) (operands : Writer → List Operand)
    (Next : Writers Writer → Writers Writer → Prop) (s : Writers Writer) : Prop where
  found : ∀ writer, ∀ h ∈ ((operands writer).flatMap Operand.hashes).take (s.completed writer),
    ∀ later, Relation.ReflTransGen Next s later →
      ∃ found, (qbContainsPrehash b h).exec later.memory = .ok (found, later.memory) ∧ found ≠ 0
  progress : (∃ writer, s.thread writer ≠ .finished ()) → ∃ next, Next s next
  final : (∀ writer, s.thread writer = .finished ()) → ∀ order : List Writer,
    (∀ writer, writer ∈ order) →
      ∃ after, insertRun b (order.flatMap operands) = .ok after ∧ s.memory = after.bits

section Results

variable {k : Nat} {b : BloomT} {operands : Writer → List Operand} {s : Writers Writer}

/-- Writers whose callers keep two of them from being at one block at once lose
nothing. -/
theorem synchronizedWriters_safe (valid : WellFormed k b)
    (run : Relation.ReflTransGen Writers.Synchronized (Writers.start b operands) s) :
    Lossless b operands Writers.Synchronized s := by
  obtain ⟨holds, apart, _⟩ :=
    (undisturbed_start valid operands).run valid (apart_start valid operands) run
  refine ⟨?_, ?_, ?_⟩
  · intro writer h inserted later onward
    obtain ⟨laterHolds, _, grown⟩ := holds.run valid apart onward
    exact laterHolds.found valid (Set.Subset.trans (holds.lower writer h inserted) grown)
  · rintro ⟨writer, more⟩
    by_cases held : ∃ holder pointer, HoldsBlock pointer (s.thread holder)
    · obtain ⟨holder, pointer, held⟩ := held
      have active : s.thread holder ≠ .finished () := by
        intro finished
        rw [finished] at held
        cases held
      exact holds.proceed valid apart active (.inl ⟨pointer, held⟩)
    · exact holds.proceed valid apart more (.inr fun other pointer taken => held ⟨_, _, taken⟩)
  · exact fun finished order all => holds.final valid finished all

end Results

theorem synchronizedWriters_safe_two :
    ∃ (s : Writers Bool) (after : BloomT), Relation.ReflTransGen Writers.Synchronized
        (Writers.start (emptyFilter 0) fun writer => [.prehash (if writer then 7 else 9)]) s ∧
      insertRun (emptyFilter 0) [.prehash 7, .prehash 9] = .ok after ∧ s.memory = after.bits := by
  have valid : WellFormed 0 (emptyFilter 0) := emptyFilter_wellFormed (by omega)
  obtain ⟨s, run, finished⟩ :=
    both_finish valid fun writer => [.prehash (if writer then 7 else 9)]
  obtain ⟨after, ran, same⟩ :=
    (synchronizedWriters_safe valid run).final finished [true, false] (by decide)
  exact ⟨s, after, run, ran, same⟩

section Results

variable {k : Nat} {b : BloomT} {operands : Writer → List Operand} {s : Writers Writer}

/-- Writers whose hashes never select a common block need no synchronization. -/
theorem disjointWriters_safe (valid : WellFormed k b)
    (disjoint : ∀ first second, first ≠ second →
      ∀ h ∈ (operands first).flatMap Operand.hashes,
      ∀ other ∈ (operands second).flatMap Operand.hashes, blockFor b h ≠ blockFor b other)
    (run : Relation.ReflTransGen Writers.Step (Writers.start b operands) s) :
    Lossless b operands Writers.Step s := by
  obtain ⟨holds, _⟩ := (undisturbed_start valid operands).disjointRun valid disjoint run
  refine ⟨?_, ?_, ?_⟩
  · intro writer h inserted later onward
    obtain ⟨laterHolds, grown⟩ := holds.disjointRun valid disjoint onward
    exact laterHolds.found valid (Set.Subset.trans (holds.lower writer h inserted) grown)
  · rintro ⟨writer, more⟩
    obtain ⟨access, thread, memory, moved⟩ := holds.unfinished valid more
    exact ⟨_, .write writer moved⟩
  · exact fun finished order all => holds.final valid finished all

end Results

theorem disjointWriters_safe_two :
    ∃ (s : Writers Bool) (after : BloomT),
      Relation.ReflTransGen Writers.Step (Writers.start (emptyFilter 1)
        fun writer => [.prehash (if writer then 7 else 0x8000000000000000)]) s ∧
      insertRun (emptyFilter 1) [.prehash 7, .prehash (0x8000000000000000)] = .ok after ∧
      s.memory = after.bits := by
  have valid : WellFormed 1 (emptyFilter 1) := emptyFilter_wellFormed (by omega)
  obtain ⟨s, synchronized, finished⟩ :=
    both_finish valid fun writer => [.prehash (if writer then 7 else 0x8000000000000000)]
  have run := Relation.ReflTransGen.mono (fun _ _ step => And.left step) _ _ synchronized
  have disjoint : ∀ first second : Bool, first ≠ second →
      ∀ h ∈ [Operand.prehash (if first then 7 else 0x8000000000000000)].flatMap Operand.hashes,
      ∀ other ∈ [Operand.prehash (if second then 7 else 0x8000000000000000)].flatMap Operand.hashes,
        blockFor (emptyFilter 1) h ≠ blockFor (emptyFilter 1) other := by
    intro first second different h member other otherMember same
    have block := valid.toHeaderOf.blockFor_inj.mp same
    obtain rfl := List.mem_singleton.mp member
    obtain rfl := List.mem_singleton.mp otherMember
    have apart : blockIndex 1 7 ≠ blockIndex 1 0x8000000000000000 := by decide
    cases first with
    | false =>
        cases second with
        | false => exact different rfl
        | true => exact apart block.symm
    | true =>
        cases second with
        | false => exact apart block
        | true => exact different rfl
  obtain ⟨after, ran, same⟩ :=
    (disjointWriters_safe valid disjoint run).final finished [true, false] (by decide)
  exact ⟨s, after, run, ran, same⟩

end Quickbloom.Filter
