import Mathlib.Data.Fintype.Basic
import Quickbloom.Filter.Writers

namespace Quickbloom.Filter

open Quickbloom.Data Quickbloom.Machine Quickbloom.Source Quickbloom.Probe

/-! # Writers that race

Each lane is read, ORed with the mask and written back. What another writer
stores in between is lost.
-/

/-- The word has the cells of `lower` in its lane and no cells but those of `upper`. -/
def Between (lower upper : Set Cell) (block : Nat) (lane : Fin 8) (word : BitVec 32) : Prop :=
  ∀ t, ((block, lane, t) ∈ lower → word.getLsbD t = true) ∧
    (word.getLsbD t = true → (block, lane, t) ∈ upper)

/-- Where a writer stands if the memory has stayed between two sets of cells. -/
inductive Racing (k : Nat) (b : BloomT) (lower upper : Set Cell) :
    List Uint64 → Thread Unit → Prop where
  | finished : Racing k b lower upper [] (.finished ())
  | loading {h : Uint64} {rest : List Uint64} {register : M256i} {remaining : Finset (Fin 8)}
      (pending : remaining ≠ ∅)
      (loaded : ∀ lane, lane ∉ remaining →
        Between lower upper (blockIndex k h) lane (register lane)) :
      Racing k b lower upper (h :: rest)
        (.loading (8 * blockIndex k h) register remaining fun cur =>
          .store (8 * blockIndex k h) (mm256OrSi256 cur (maskFor (h.setWidth 32)))
            (insertEach b rest))
  | storing {h : Uint64} {rest : List Uint64} {register : M256i} {remaining : Finset (Fin 8)}
      (pending : remaining ≠ ∅)
      (computed : ∀ lane ∈ remaining,
        Between (lower ∪ probe k h) upper (blockIndex k h) lane (register lane)) :
      Racing k b lower upper (h :: rest)
        (.storing (8 * blockIndex k h) register remaining (insertEach b rest))

/-- The thread has a store to the lane before it. -/
def Pending (lane : Fin 8) : Thread Unit → Prop
  | .loading .. => True
  | .storing _ _ remaining _ => lane ∈ remaining
  | _ => False

section Lanes

variable {k block : Nat} {memory : Words} {lower upper : Set Cell} {lane : Fin 8} {h : Uint64}

theorem between_readVector (inside : 8 * block + 8 ≤ memory.length)
    (above : lower ⊆ contents memory) (below : contents memory ⊆ upper) (lane : Fin 8) :
    Between lower upper block lane (readVector memory (8 * block) lane) := by
  intro t
  rw [← mem_contents_iff inside lane t]
  exact ⟨fun present => above present, fun present => below present⟩

theorem mem_probe_iff (t : Nat) :
    (blockIndex k h, lane, t) ∈ probe k h ↔ (maskFor (h.setWidth 32) lane).getLsbD t = true := by
  rw [maskFor_bit, decide_eq_true_iff]
  exact and_iff_right rfl

theorem Between.or_mask {word : BitVec 32} (between : Between lower upper (blockIndex k h) lane word)
    (known : probe k h ⊆ upper) :
    Between (lower ∪ probe k h) upper (blockIndex k h) lane
      (word ||| maskFor (h.setWidth 32) lane) := by
  intro t
  obtain ⟨above, below⟩ := between t
  rw [BitVec.getLsbD_or, Bool.or_eq_true, Set.mem_union, mem_probe_iff]
  exact ⟨Or.imp_left above, fun bit => bit.elim below fun own => known ((mem_probe_iff t).mpr own)⟩

/-- A lane store replaces the cells of its lane. -/
theorem mem_contents_set (inside : 8 * block + 8 ≤ memory.length) (lane : Fin 8)
    (word : BitVec 32) {index : Nat} {other : Fin 8} {t : Nat} :
    (index, other, t) ∈ contents (memory.set (8 * block + lane) word) ↔
      if index = block ∧ other = lane then word.getLsbD t = true
      else (index, other, t) ∈ contents memory := by
  have bound : 8 * block + lane.val < memory.length := by omega
  split
  next same =>
    obtain ⟨rfl, rfl⟩ := same
    simp only [contents, Set.mem_ofPred_eq, List.getElem?_set_self bound, Option.some.injEq,
      exists_eq_left']
  next apart =>
    have different : 8 * block + lane.val ≠ 8 * index + other.val := by
      intro same
      exact apart ⟨by omega, Fin.ext (by omega)⟩
    simp only [contents, Set.mem_ofPred_eq, List.getElem?_set_ne different]

end Lanes

section Step

variable {k : Nat} {b : BloomT} {memory after : Words} {lower upper : Set Cell}
  {hashes : List Uint64} {thread next : Thread Unit} {access : LaneAccess}

theorem racing_enter (header : HeaderOf k b) (lower upper : Set Cell) (hashes : List Uint64) :
    Racing k b lower upper hashes (.enter (insertEach b hashes)) := by
  cases hashes with
  | nil => exact .finished
  | cons h rest =>
      rw [insertEach_cons, header.qbInsertPrehash_eq]
      exact .loading Thread.allLanes_ne_empty Thread.noLane

/-- A load leaves the memory as it is, a store writes one word that is between
the bounds and has the bit of the hash. -/
theorem Racing.step (header : HeaderOf k b) (length : memory.length = 8 * 2 ^ k)
    (above : lower ⊆ contents memory) (below : contents memory ⊆ upper)
    (known : ∀ h ∈ hashes, probe k h ⊆ upper) (racing : Racing k b lower upper hashes thread)
    (moved : Thread.Step thread memory access next after) :
    (after = memory ∧ Racing k b lower upper hashes next ∧ ∀ lane, Pending lane next) ∨
    ∃ h rest lane word, hashes = h :: rest ∧
      after = memory.set (8 * blockIndex k h + (lane : Fin 8)) word ∧
      Between (lower ∪ probe k h) upper (blockIndex k h) lane word ∧
      (Racing k b lower upper hashes next ∨ Racing k b lower upper rest next) ∧
      ∀ other, other ≠ lane → Pending other thread → Pending other next := by
  cases racing with
  | finished => cases moved
  | @loading h rest register remaining pending loaded =>
      cases moved with
      | @load _ _ _ _ _ lane member checked =>
          have inside := header.inside length h
          have filled : ∀ other, other ∉ remaining.erase lane →
              Between lower upper (blockIndex k h) other (Function.update register lane
                (readVector memory (8 * blockIndex k h) lane) other) := by
            intro other outside
            by_cases same : other = lane
            · rw [same, Function.update_self]
              exact between_readVector inside above below lane
            · rw [Function.update_of_ne same]
              exact loaded other fun inside => outside (Finset.mem_erase.mpr ⟨same, inside⟩)
          refine .inl ⟨rfl, ?_⟩
          by_cases last : remaining.erase lane = ∅
          · rw [Thread.afterLoad, if_pos last]
            rw [last] at filled
            refine ⟨.storing Thread.allLanes_ne_empty fun other _ => ?_, fun other => ?_⟩
            · exact (filled other (Finset.notMem_empty other)).or_mask
                (known h List.mem_cons_self)
            · exact Finset.mem_univ other
          · rw [Thread.afterLoad, if_neg last]
            exact ⟨.loading last filled, fun _ => trivial⟩
  | @storing h rest register remaining pending computed =>
      cases moved with
      | @store _ _ _ _ _ lane member checked =>
          refine .inr ⟨h, rest, lane, register lane, rfl, rfl, computed lane member, ?_⟩
          by_cases last : remaining.erase lane = ∅
          · rw [Thread.afterStore, if_pos last]
            refine ⟨.inr (racing_enter header lower upper rest), ?_⟩
            intro other different waiting
            have left : other ∈ remaining.erase lane := Finset.mem_erase.mpr ⟨different, waiting⟩
            rw [last] at left
            exact absurd left (Finset.notMem_empty other)
          · rw [Thread.afterStore, if_neg last]
            refine ⟨.inl (.storing last fun other inside =>
              computed other (Finset.mem_of_mem_erase inside)), ?_⟩
            exact fun other different waiting => Finset.mem_erase.mpr ⟨different, waiting⟩

theorem Racing.progress (header : HeaderOf k b) (length : memory.length = 8 * 2 ^ k)
    (racing : Racing k b lower upper hashes thread) :
    thread = .finished () ∨
      ∃ access next after, Thread.Step thread memory access next after := by
  have checked : ∀ h, checkVector memory (8 * blockIndex k h) = .ok () := fun h =>
    checkVector_ok (Nat.mul_mod_right 8 _) (header.inside length h)
  cases racing with
  | finished => exact .inl rfl
  | loading pending loaded =>
      obtain ⟨lane, member⟩ := Finset.nonempty_iff_ne_empty.mpr pending
      exact .inr ⟨_, _, _, .load member (checked _)⟩
  | storing pending computed =>
      obtain ⟨lane, member⟩ := Finset.nonempty_iff_ne_empty.mpr pending
      exact .inr ⟨_, _, _, .store member (checked _)⟩

end Step

variable {Writer : Type} [DecidableEq Writer]

/-- All cells that the initial array and the hashes of the writers have. -/
def allCells (k : Nat) (b : BloomT) (hashes : Writer → List Uint64) : Set Cell :=
  contents b.bits ∪ {cell | ∃ writer, ∃ h ∈ hashes writer, cell ∈ probe k h}

structure Raced (k : Nat) (b : BloomT) (hashes : Writer → List Uint64) (s : Writers Writer) :
    Prop where
  length : s.memory.length = 8 * 2 ^ k
  lower : contents b.bits ⊆ contents s.memory
  upper : contents s.memory ⊆ allCells k b hashes
  racing : ∀ writer, ∃ rest, rest <:+ hashes writer ∧
    Racing k b (contents b.bits) (allCells k b hashes) rest (s.thread writer)

section Raced

variable {k : Nat} {b : BloomT} {hashes : Writer → List Uint64} {s next : Writers Writer}

omit [DecidableEq Writer] in
theorem probe_allCells (k : Nat) (b : BloomT) {writer : Writer} {h : Uint64}
    (member : h ∈ hashes writer) : probe k h ⊆ allCells k b hashes :=
  fun _ probed => .inr ⟨writer, h, member, probed⟩

omit [DecidableEq Writer] in
theorem raced_start (valid : WellFormed k b) (operands : Writer → List Operand) :
    Raced k b (fun writer => (operands writer).flatMap Operand.hashes)
      (Writers.start b operands) where
  length := valid.words
  lower := Set.Subset.refl _
  upper := Set.subset_union_left
  racing := by
    intro writer
    refine ⟨_, List.suffix_refl _, ?_⟩
    rw [start_thread]
    exact racing_enter valid.toHeaderOf _ _ _

theorem between_contents {memory : Words} {lower upper smaller : Set Cell} {block : Nat}
    {lane : Fin 8} {word : BitVec 32} (inside : 8 * block + 8 ≤ memory.length)
    (between : Between smaller upper block lane word) (sub : lower ⊆ smaller)
    (above : lower ⊆ contents memory) (below : contents memory ⊆ upper) :
    lower ⊆ contents (memory.set (8 * block + lane) word) ∧
      contents (memory.set (8 * block + lane) word) ⊆ upper := by
  refine ⟨?_, ?_⟩
  · rintro ⟨index, other, t⟩ present
    rw [mem_contents_set inside]
    split
    next same =>
      obtain ⟨rfl, rfl⟩ := same
      exact (between t).1 (sub present)
    next => exact above present
  · rintro ⟨index, other, t⟩ present
    rw [mem_contents_set inside] at present
    split at present
    next same =>
      obtain ⟨rfl, rfl⟩ := same
      exact (between t).2 present
    next => exact below present

theorem Raced.step (valid : WellFormed k b) (holds : Raced k b hashes s)
    (step : Writers.Step s next) : Raced k b hashes next := by
  cases step with
  | @write access thread memory writer moved =>
      obtain ⟨rest, suffix, racing⟩ := holds.racing writer
      have known : ∀ h ∈ rest, probe k h ⊆ allCells k b hashes :=
        fun h member => probe_allCells k b (suffix.subset member)
      have others : ∀ {onward : List Uint64}, onward <:+ hashes writer →
          Racing k b (contents b.bits) (allCells k b hashes) onward thread →
          ∀ other, ∃ rest, rest <:+ hashes other ∧ Racing k b (contents b.bits)
            (allCells k b hashes) rest (Function.update s.thread writer thread other) := by
        intro onward shorter current other
        by_cases same : other = writer
        · subst same
          rw [Function.update_self]
          exact ⟨onward, shorter, current⟩
        · rw [Function.update_of_ne same]
          exact holds.racing other
      rcases racing.step valid.toHeaderOf holds.length holds.lower holds.upper known moved with
        ⟨rfl, onward, _⟩ | ⟨h, tail, lane, word, rfl, rfl, between, onward, _⟩
      · exact ⟨holds.length, holds.lower, holds.upper, others suffix onward⟩
      · obtain ⟨lower, upper⟩ := between_contents
          (valid.toHeaderOf.inside holds.length h) between Set.subset_union_left
          holds.lower holds.upper
        refine ⟨List.length_set.trans holds.length, lower, upper, ?_⟩
        rcases onward with same | fewer
        · exact others suffix same
        · exact others ((List.suffix_cons h tail).trans suffix) fewer

theorem Raced.run (valid : WellFormed k b) (holds : Raced k b hashes s)
    (run : Relation.ReflTransGen Writers.Step s next) : Raced k b hashes next := by
  induction run with
  | refl => exact holds
  | tail _ step ih => exact ih.step valid step

end Raced

/-- In every interleaving of writers, kept apart or not, no writer gets stuck,
no bit that was set before is lost, and no bit is set that the same calls would
not set one after another. -/
theorem racingWriters_bounds {k : Nat} {b : BloomT} (valid : WellFormed k b)
    {operands : Writer → List Operand} {s : Writers Writer}
    (run : Relation.ReflTransGen Writers.Step (Writers.start b operands) s) {order : List Writer}
    (all : ∀ writer, writer ∈ order) :
    (∀ writer, s.thread writer = .finished () ∨
      ∃ access thread memory, Thread.Step (s.thread writer) s.memory access thread memory) ∧
    (∀ (index : Nat) (word : BitVec 32), b.bits[index]? = some word →
      ∃ kept, s.memory[index]? = some kept ∧ Subword word kept) ∧
    ∃ after, insertRun b (order.flatMap operands) = .ok after ∧
      ∀ (index : Nat) (word : BitVec 32), s.memory[index]? = some word →
        ∃ whole, after.bits[index]? = some whole ∧ Subword word whole := by
  have holds := (raced_start valid operands).run valid run
  obtain ⟨after, ran, afterValid, cells⟩ := valid.insertRun_ok (order.flatMap operands)
  have below : contents s.memory ⊆ contents after.bits := by
    rw [cells]
    intro cell present
    rw [mem_insertAll, List.flatMap_assoc]
    refine (holds.upper present).imp_right ?_
    rintro ⟨writer, h, member, probed⟩
    exact ⟨h, List.mem_flatMap.mpr ⟨writer, all writer, member⟩, probed⟩
  refine ⟨?_, ?_, after, ran, ?_⟩
  · intro writer
    obtain ⟨_, _, racing⟩ := holds.racing writer
    exact racing.progress valid.toHeaderOf holds.length
  · exact fun index word => subword_of_contents valid.words holds.length holds.lower
  · exact fun index word => subword_of_contents holds.length afterValid.words below

theorem racingWriters_bounds_two :
    ∃ (s : Writers Bool) (after : BloomT), Relation.ReflTransGen Writers.Step
        (Writers.start (emptyFilter 0) fun writer => [.prehash (if writer then 7 else 9)]) s ∧
      (∀ writer, s.thread writer = .finished ()) ∧
      insertRun (emptyFilter 0) [.prehash 7, .prehash 9] = .ok after ∧
      ∀ (index : Nat) (word : BitVec 32), s.memory[index]? = some word →
        ∃ whole, after.bits[index]? = some whole ∧ Subword word whole := by
  have valid : WellFormed 0 (emptyFilter 0) := emptyFilter_wellFormed (by omega)
  obtain ⟨s, synchronized, finished⟩ :=
    both_finish valid fun writer => [.prehash (if writer then 7 else 9)]
  have run := Relation.ReflTransGen.mono (fun _ _ step => And.left step) _ _ synchronized
  obtain ⟨_, _, after, ran, below⟩ :=
    racingWriters_bounds valid run (show ∀ writer, writer ∈ [true, false] by decide)
  exact ⟨s, after, run, finished, ran, below⟩

section Lost

variable {k : Nat} {b : BloomT} {hash : Writer → Uint64} {s next : Writers Writer}

/-- What the writer has stored of its hash is in the array. -/
def Stored (k : Nat) (h : Uint64) (s : Writers Writer) (writer : Writer) : Prop :=
  ∀ lane, ¬ Pending lane (s.thread writer) →
    ∀ t, (blockIndex k h, lane, t) ∈ probe k h → (blockIndex k h, lane, t) ∈ contents s.memory

/-- Writers that set the bits of `hash writer` anyway cannot undo its insert. -/
theorem Stored.step (valid : WellFormed k b) (holds : Raced k b (fun writer => [hash writer]) s)
    {writer : Writer} (stored : Stored k (hash writer) s writer)
    (covered : ∀ other, other ≠ writer → blockIndex k (hash other) = blockIndex k (hash writer) →
      probe k (hash writer) ⊆ contents b.bits ∪ probe k (hash other))
    (step : Writers.Step s next) : Stored k (hash writer) next writer := by
  cases step with
  | @write access thread memory mover moved =>
      obtain ⟨rest, suffix, racing⟩ := holds.racing mover
      have known : ∀ h ∈ rest, probe k h ⊆ allCells k b fun writer => [hash writer] :=
        fun h member => probe_allCells k b (suffix.subset member)
      intro lane done t probed
      have cell := racing.step valid.toHeaderOf holds.length holds.lower holds.upper known moved
      rcases cell with ⟨rfl, _, waits⟩ | ⟨h, tail, place, word, rfl, rfl, between, _, waits⟩
      · by_cases same : writer = mover
        · subst same
          simp only [Function.update_self] at done
          exact absurd (waits lane) done
        · simp only [Function.update_of_ne same] at done
          exact stored lane done t probed
      · obtain rfl : h = hash mover := List.mem_singleton.mp (suffix.subset List.mem_cons_self)
        have inside := valid.toHeaderOf.inside holds.length (hash mover)
        refine (mem_contents_set inside place word).mpr ?_
        split
        next same =>
          obtain ⟨block, rfl⟩ := same
          refine (between t).1 ?_
          rw [← block]
          by_cases own : mover = writer
          · exact .inr (own ▸ probed)
          · exact covered mover own block.symm probed
        next apart =>
          by_cases same : writer = mover
          · subst same
            simp only [Function.update_self] at done
            refine stored lane (fun waiting => done (waits lane ?_ waiting)) t probed
            exact fun here => apart ⟨rfl, here⟩
          · simp only [Function.update_of_ne same] at done
            exact stored lane done t probed

theorem Stored.run (valid : WellFormed k b) (holds : Raced k b (fun writer => [hash writer]) s)
    {writer : Writer} (stored : Stored k (hash writer) s writer)
    (covered : ∀ other, other ≠ writer → blockIndex k (hash other) = blockIndex k (hash writer) →
      probe k (hash writer) ⊆ contents b.bits ∪ probe k (hash other))
    (run : Relation.ReflTransGen Writers.Step s next) : Stored k (hash writer) next writer := by
  induction run with
  | refl => exact stored
  | tail onward step ih => exact ih.step valid (holds.run valid onward) covered step

/-- Writers that have not moved finish one after another. -/
theorem finish_each (header : HeaderOf k b) (length : s.memory.length = 8 * 2 ^ k)
    {hashes : Writer → List Uint64} {order : List Writer} (distinct : order.Nodup)
    (waiting : ∀ writer ∈ order, s.thread writer = .enter (insertEach b (hashes writer))) :
    ∃ next, Relation.ReflTransGen Writers.Step s next ∧ next.memory.length = 8 * 2 ^ k ∧
      (∀ writer ∈ order, next.thread writer = .finished ()) ∧
      ∀ writer, writer ∉ order → next.thread writer = s.thread writer := by
  induction order generalizing s with
  | nil => exact ⟨s, .refl, length, fun _ member => absurd member List.not_mem_nil, fun _ _ => rfl⟩
  | cons writer rest ih =>
      obtain ⟨apart, distinct⟩ := List.nodup_cons.mp distinct
      obtain ⟨middle, run, finished, middleLength, _⟩ :=
        solo_finish header length (waiting writer List.mem_cons_self)
      have still : ∀ other ∈ rest, middle.thread other = .enter (insertEach b (hashes other)) := by
        intro other member
        have different : other ≠ writer := fun same => apart (same ▸ member)
        rw [finished, Function.update_of_ne different]
        exact waiting other (List.mem_cons_of_mem writer member)
      obtain ⟨next, onward, nextLength, done, frame⟩ := ih middleLength distinct still
      have steps := Relation.ReflTransGen.mono (fun _ _ step => And.left step) _ _ run
      refine ⟨next, steps.trans onward, nextLength, ?_, ?_⟩
      · intro other member
        rcases List.mem_cons.mp member with rfl | later
        · rw [frame other apart, finished, Function.update_self]
        · exact done other later
      · intro other outside
        have different : other ≠ writer := by
          rintro rfl
          exact outside List.mem_cons_self
        rw [frame other fun later => outside (List.mem_cons_of_mem writer later), finished,
          Function.update_of_ne different]

/-- One writer loads its block first and stores it last. -/
theorem overwrite [Fintype Writer] (valid : WellFormed k b) {operand : Writer → Operand}
    (single : ∀ writer, (operand writer).hashes = [hash writer]) (last : Writer) :
    ∃ s, Relation.ReflTransGen Writers.Step (Writers.start b fun writer => [operand writer]) s ∧
      (∀ writer, s.thread writer = .finished ()) ∧ s.memory.length = 8 * 2 ^ k ∧
      ∀ lane t, (blockIndex k (hash last), lane, t) ∈ contents s.memory →
        (blockIndex k (hash last), lane, t) ∈ contents b.bits ∪ probe k (hash last) := by
  have header := valid.toHeaderOf
  let start := Writers.start b fun writer => [operand writer]
  have waiting : ∀ writer, start.thread writer = .enter (insertEach b [hash writer]) := by
    intro writer
    rw [start_thread, List.flatMap_singleton, single]
  have checked := checkVector_ok (Nat.mul_mod_right 8 _) (header.inside valid.words (hash last))
  -- The last writer stops between its loads and its stores.
  have first : start.thread last = .loading (8 * blockIndex k (hash last)) (fun _ => 0)
      Finset.univ fun cur => .store (8 * blockIndex k (hash last))
        (mm256OrSi256 cur (maskFor ((hash last).setWidth 32))) (insertEach b []) := by
    rw [waiting, insertEach_cons, header.qbInsertPrehash_eq]
    rfl
  obtain ⟨access, trace, _, loads⟩ := Thread.load_run (fun _ => 0) (fun cur =>
    .store (8 * blockIndex k (hash last)) (mm256OrSi256 cur (maskFor ((hash last).setWidth 32)))
      (insertEach b [])) Thread.allLanes_ne_empty checked Thread.noLane
  obtain ⟨loaded, load, threads, words⟩ := solo_run loads first rfl
  have others : ∀ writer ∈ (Finset.univ.erase last).toList,
      loaded.thread writer = .enter (insertEach b [hash writer]) := by
    intro writer member
    rw [threads, Function.update_of_ne (Finset.ne_of_mem_erase (Finset.mem_toList.mp member)),
      waiting]
  have loadedLength : loaded.memory.length = 8 * 2 ^ k := by rw [words, valid.words]
  obtain ⟨middle, run, length, done, frame⟩ :=
    finish_each header loadedLength (Finset.nodup_toList _) others
  have middleChecked := checkVector_ok (Nat.mul_mod_right 8 _) (header.inside length (hash last))
  obtain ⟨_, stores⟩ := Thread.store_run
    (mm256OrSi256 (readVector b.bits (8 * blockIndex k (hash last)))
      (maskFor ((hash last).setWidth 32)))
    (insertEach b []) Thread.allLanes_ne_empty middleChecked Thread.noLane
  have ready := frame last fun member => Finset.notMem_erase last _ (Finset.mem_toList.mp member)
  rw [threads, Function.update_self] at ready
  obtain ⟨final, store, finished, written⟩ := solo_run stores ready rfl
  have inside := header.inside length (hash last)
  have plain := fun (s next : Writers Writer) (step : Writers.Solo last s next) => step.1
  refine ⟨final, (Relation.ReflTransGen.mono plain _ _ load).trans
    (run.trans (Relation.ReflTransGen.mono plain _ _ store)), ?_, ?_, ?_⟩
  · intro writer
    rw [finished]
    by_cases same : writer = last
    · rw [same, Function.update_self]
      rfl
    · rw [Function.update_of_ne same]
      exact done writer (Finset.mem_toList.mpr (Finset.mem_erase.mpr ⟨same, Finset.mem_univ _⟩))
  · rw [written, writeVector_length inside, length]
  · intro lane t present
    obtain ⟨word, selected, bit⟩ := present
    rw [written, writeVector_lane inside, Option.some.injEq] at selected
    subst selected
    rw [mm256OrSi256, BitVec.getLsbD_or, Bool.or_eq_true] at bit
    have initially := mem_contents_iff (header.inside valid.words (hash last)) lane t
    exact bit.imp initially.mpr (mem_probe_iff t).mpr

end Lost

/-- A bit of `h` that neither the word in the array nor the mask of `other` has. -/
def LeavesOut (b : BloomT) (other h : Uint64) : Prop :=
  ∃ (pointer : Nat) (lane : Fin 8) (word : BitVec 32),
    blockFor b other = .ok pointer ∧ blockFor b h = .ok pointer ∧
      b.bits[pointer + lane]? = some word ∧ word &&& maskFor (h.setWidth 32) lane = 0 ∧
      maskFor (other.setWidth 32) lane ≠ maskFor (h.setWidth 32) lane

theorem maskFor_inj {left right : Uint64} {lane : Fin 8} :
    maskFor (left.setWidth 32) lane = maskFor (right.setWidth 32) lane ↔
      lanePosition lane left = lanePosition lane right := by
  refine ⟨?_, ?_⟩
  · intro same
    have bit := maskFor_bit left lane (lanePosition lane left)
    rw [same, maskFor_bit] at bit
    simpa using bit
  · intro same
    apply BitVec.eq_of_getLsbD_eq
    intro t _
    rw [maskFor_bit, maskFor_bit, same]

theorem and_maskFor_eq_zero_iff {word : BitVec 32} {h : Uint64} {lane : Fin 8} :
    word &&& maskFor (h.setWidth 32) lane = 0 ↔ word.getLsbD (lanePosition lane h) = false := by
  refine ⟨?_, ?_⟩
  · intro clear
    have bit : (word &&& maskFor (h.setWidth 32) lane).getLsbD (lanePosition lane h) = false := by
      rw [clear]
      exact BitVec.getLsbD_zero
    simpa [maskFor_bit] using bit
  · intro clear
    apply BitVec.eq_of_getLsbD_eq
    intro t _
    rw [BitVec.getLsbD_and, maskFor_bit]
    by_cases same : t = lanePosition lane h
    · simp [same, clear]
    · simp [same]

theorem leavesOut_iff {k : Nat} {b : BloomT} (valid : WellFormed k b) (other h : Uint64) :
    LeavesOut b other h ↔ blockIndex k other = blockIndex k h ∧
      ¬ probe k h ⊆ contents b.bits ∪ probe k other := by
  have header := valid.toHeaderOf
  have inside := header.inside valid.words h
  refine ⟨?_, ?_⟩
  · rintro ⟨pointer, lane, word, there, here, selected, clear, apart⟩
    refine ⟨header.blockFor_inj.mp (there.trans here.symm), fun covered => ?_⟩
    rw [header.blockFor_eq, Except.ok.injEq] at here
    subst here
    rcases @covered (blockIndex k h, lane, lanePosition lane h) ⟨rfl, rfl⟩ with present | probed
    · obtain ⟨found, again, bit⟩ := present
      rw [selected, Option.some.injEq] at again
      subst again
      rw [and_maskFor_eq_zero_iff.mp clear] at bit
      cases bit
    · exact apart (maskFor_inj.mpr probed.2.symm)
  · rintro ⟨same, uncovered⟩
    obtain ⟨⟨block, lane, t⟩, ⟨here, place⟩, missing⟩ := Set.not_subset.mp uncovered
    obtain rfl : block = blockIndex k h := here
    obtain rfl : t = lanePosition lane h := place
    have there := header.blockFor_eq other
    rw [same] at there
    refine ⟨8 * blockIndex k h, lane, readVector b.bits (8 * blockIndex k h) lane, there,
      header.blockFor_eq h, readVector_eq inside lane, ?_, ?_⟩
    · rw [and_maskFor_eq_zero_iff, ← Bool.not_eq_true, ← mem_contents_iff inside]
      exact fun present => missing (.inl present)
    · intro equal
      exact missing (.inr ⟨same.symm, (maskFor_inj.mp equal).symm⟩)

/-- Among any number of writers with one insert each, the insert of one of them
can be lost if and only if another one inserts into the same block and leaves
out one of its new bits. -/
theorem racingWriters_lose_iff {k : Nat} {b : BloomT} [Fintype Writer] (valid : WellFormed k b)
    {hash : Writer → Uint64} {operand : Writer → Operand}
    (single : ∀ writer, (operand writer).hashes = [hash writer]) (writer : Writer) :
    (∃ s, Relation.ReflTransGen Writers.Step (Writers.start b fun writer => [operand writer]) s ∧
      (∀ other, s.thread other = .finished ()) ∧
      (qbContainsPrehash b (hash writer)).exec s.memory = .ok (0, s.memory)) ↔
    ∃ other, other ≠ writer ∧ LeavesOut b (hash other) (hash writer) := by
  have header := valid.toHeaderOf
  have lists : (fun writer => ([operand writer] : List Operand).flatMap Operand.hashes) =
      fun writer => [hash writer] := by
    funext writer
    rw [List.flatMap_singleton, single]
  simp only [leavesOut_iff valid]
  refine ⟨?_, ?_⟩
  · rintro ⟨s, run, finished, absent⟩
    by_contra never
    have covered : ∀ other, other ≠ writer →
        blockIndex k (hash other) = blockIndex k (hash writer) →
        probe k (hash writer) ⊆ contents b.bits ∪ probe k (hash other) := by
      intro other different same
      by_contra uncovered
      exact never ⟨other, different, same, uncovered⟩
    have start := raced_start valid fun writer => [operand writer]
    rw [lists] at start
    have unstored : Stored k (hash writer) (Writers.start b fun writer => [operand writer])
        writer := by
      intro lane done
      rw [start_thread, List.flatMap_singleton, single, insertEach_cons,
        header.qbInsertPrehash_eq] at done
      exact absurd trivial done
    have stored := unstored.run valid start covered run
    obtain ⟨found, ran, answer⟩ :=
      header.qbContainsPrehash_exec (start.run valid run).length (hash writer)
    rw [absent, Except.ok.injEq, Prod.mk.injEq] at ran
    refine answer.mpr ?_ ran.1.symm
    rintro ⟨block, lane, t⟩ probed
    obtain rfl : block = blockIndex k (hash writer) := probed.1
    refine stored lane ?_ t probed
    rw [finished writer]
    exact id
  · rintro ⟨last, different, same, uncovered⟩
    obtain ⟨s, run, finished, length, within⟩ := overwrite valid single last
    refine ⟨s, run, finished, ?_⟩
    obtain ⟨found, ran, answer⟩ := header.qbContainsPrehash_exec length (hash writer)
    obtain rfl : found = 0 := by
      by_contra hit
      refine uncovered ?_
      rintro ⟨block, lane, t⟩ probed
      have present := answer.mp hit probed
      obtain rfl : block = blockIndex k (hash writer) := probed.1
      rw [← same] at present ⊢
      exact within lane t present
    exact ran

theorem racingWriters_lose_iff_two :
    ∃ s, Relation.ReflTransGen Writers.Step
        (Writers.start (emptyFilter 0) fun writer : Bool => [.prehash (if writer then 7 else 9)])
        s ∧ (∀ writer, s.thread writer = .finished ()) ∧
      (qbContainsPrehash (emptyFilter 0) 9).exec s.memory = .ok (0, s.memory) := by
  have valid : WellFormed 0 (emptyFilter 0) := emptyFilter_wellFormed (by omega)
  let hash : Bool → Uint64 := fun writer => if writer then 7 else 9
  have single : ∀ writer, (Operand.prehash (hash writer)).hashes = [hash writer] := fun _ => rfl
  have lost : LeavesOut (emptyFilter 0) 7 9 :=
    ⟨0, 0, 0, by decide, by decide, by decide, by decide, by decide⟩
  exact (racingWriters_lose_iff valid single false).mpr ⟨true, by decide, lost⟩

end Quickbloom.Filter
