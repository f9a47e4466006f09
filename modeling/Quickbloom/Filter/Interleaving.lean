import Quickbloom.Filter.Runs
import Quickbloom.Machine.Thread

namespace Quickbloom.Filter

open Quickbloom.Data Quickbloom.Machine Quickbloom.Source Quickbloom.Probe

/-! # One writer and any number of readers

The writer runs a sequence of insert calls, each reader one contains call after
another. All of them step lane by lane on one memory.
-/

inductive ContainsCall (b : BloomT) (h : Uint64) : Program Nat → Prop where
  | prehash : ContainsCall b h (qbContainsPrehash b h)
  | key (key : Pointer Byte) (len : Nat) (hashed : bloomHash key len = .ok h) :
      ContainsCall b h (qbContains b key len)

structure Query where
  hash : Uint64
  thread : Thread Nat
  /-- The number of inserts that were complete at the first lane load. -/
  since : Nat

/-- An insert starts with its first lane load and is complete with its last
lane store. -/
structure System (Reader : Type) where
  memory : Words
  writer : Thread Unit
  started : Nat
  completed : Nat
  readers : Reader → Option Query

variable {Reader : Type} [DecidableEq Reader]

def System.start (b : BloomT) (operands : List Operand) : System Reader where
  memory := b.bits
  writer := .enter (operands.forM (Operand.insert b))
  started := 0
  completed := 0
  readers := fun _ => none

inductive System.Step (b : BloomT) : System Reader → System Reader → Prop where
  | write {s : System Reader} {access : LaneAccess} {writer : Thread Unit} {memory : Words}
      (moved : Thread.Step s.writer s.memory access writer memory) :
      Step b s { s with
        memory, writer
        started := s.started + access.begins.toNat
        completed := s.completed + access.ends.toNat }
  | ask {s : System Reader} {h : Uint64} {call : Program Nat} (reader : Reader)
      (idle : ∀ query, s.readers reader = some query → ∃ found, query.thread = .finished found)
      (called : ContainsCall b h call) :
      Step b s { s with
        readers := Function.update s.readers reader (some ⟨h, .enter call, 0⟩) }
  | read {s : System Reader} {query : Query} {access : LaneAccess} {thread : Thread Nat}
      {memory : Words} (reader : Reader) (asked : s.readers reader = some query)
      (moved : Thread.Step query.thread s.memory access thread memory) :
      Step b s { s with
        memory
        readers := Function.update s.readers reader (some { query with
          thread
          since := if access.begins then s.completed else query.since }) }

theorem forM_insert (b : BloomT) (operands : List Operand) :
    operands.forM (Operand.insert b) = insertEach b (operands.flatMap Operand.hashes) := by
  induction operands with
  | nil => rfl
  | cons operand rest ih =>
      rw [List.flatMap_cons, insertEach_append, ← operand.insert_eq, ← ih]
      rfl

theorem ContainsCall.eq {b : BloomT} {h : Uint64} {call : Program Nat}
    (called : ContainsCall b h call) : call = qbContainsPrehash b h := by
  cases called with
  | prehash => rfl
  | key key len hashed =>
      rw [qbContains, hashed]
      rfl

/-- Where the writer stands: the inserts it has not completed, how many of them
it has started, and what its register has to do with the memory. -/
inductive Writing (k : Nat) (b : BloomT) (memory : Words) :
    List Uint64 → Nat → Thread Unit → Prop where
  | finished : Writing k b memory [] 0 (.finished ())
  | loading {h : Uint64} {rest : List Uint64} {register : M256i} {remaining : Finset (Fin 8)}
      (pending : remaining ≠ ∅)
      (loaded : ∀ lane, lane ∉ remaining →
        register lane = readVector memory (8 * blockIndex k h) lane) :
      Writing k b memory (h :: rest) (if remaining = Finset.univ then 0 else 1)
        (.loading (8 * blockIndex k h) register remaining fun cur =>
          .store (8 * blockIndex k h) (mm256OrSi256 cur (maskFor (h.setWidth 32)))
            (insertEach b rest))
  | storing {h : Uint64} {rest : List Uint64} {register : M256i} {remaining : Finset (Fin 8)}
      (pending : remaining ≠ ∅)
      (computed : ∀ lane ∈ remaining, register lane =
        readVector memory (8 * blockIndex k h) lane ||| maskFor (h.setWidth 32) lane)
      (stored : ∀ lane, lane ∉ remaining →
        laneCells (blockIndex k h) (maskFor (h.setWidth 32)) [lane] ⊆ contents memory) :
      Writing k b memory (h :: rest) 1
        (.storing (8 * blockIndex k h) register remaining (insertEach b rest))

section Writer

variable {k : Nat} {b : BloomT} {memory after : Words} {hashes : List Uint64} {ahead : Nat}
  {thread next : Thread Unit} {access : LaneAccess}

theorem writing_enter (header : HeaderOf k b) (memory : Words) (hashes : List Uint64) :
    Writing k b memory hashes 0 (.enter (insertEach b hashes)) := by
  cases hashes with
  | nil => exact .finished
  | cons h rest =>
      rw [insertEach_cons, header.qbInsertPrehash_eq]
      have first : Writing k b memory (h :: rest) _ (.loading _ (fun _ => 0) Finset.univ _) :=
        .loading Thread.allLanes_ne_empty Thread.noLane
      rwa [if_pos rfl] at first

section InFlight

variable {h : Uint64} {rest : List Uint64} {register : M256i} {remaining : Finset (Fin 8)}

theorem writing_afterLoad (lane : Fin 8) (loaded : ∀ lane, lane ∉ remaining →
      register lane = readVector memory (8 * blockIndex k h) lane) :
    Writing k b memory (h :: rest) 1
      (.afterLoad (8 * blockIndex k h)
        (Function.update register lane (readVector memory (8 * blockIndex k h) lane))
        (remaining.erase lane) fun cur =>
          .store (8 * blockIndex k h) (mm256OrSi256 cur (maskFor (h.setWidth 32)))
            (insertEach b rest)) := by
  have filled := Thread.update_loaded lane loaded
  by_cases last : remaining.erase lane = ∅
  · rw [Thread.afterLoad, if_pos last]
    rw [last] at filled
    refine .storing Thread.allLanes_ne_empty ?_ Thread.noLane
    intro other _
    rw [mm256OrSi256, filled other (Finset.notMem_empty other)]
  · rw [Thread.afterLoad, if_neg last]
    have smaller : remaining.erase lane ≠ Finset.univ := by
      intro all
      exact Finset.notMem_erase lane remaining (all ▸ Finset.mem_univ lane)
    have further : Writing k b memory (h :: rest) _ (.loading _ _ (remaining.erase lane) _) :=
      .loading last filled
    rwa [if_neg smaller] at further

theorem writing_afterStore (header : HeaderOf k b) (lane : Fin 8)
    (cells : contents after =
      contents memory ∪ laneCells (blockIndex k h) (maskFor (h.setWidth 32)) [lane])
    (frame : ∀ other, other ≠ lane → readVector after (8 * blockIndex k h) other =
      readVector memory (8 * blockIndex k h) other)
    (computed : ∀ lane ∈ remaining, register lane =
      readVector memory (8 * blockIndex k h) lane ||| maskFor (h.setWidth 32) lane)
    (stored : ∀ lane, lane ∉ remaining →
      laneCells (blockIndex k h) (maskFor (h.setWidth 32)) [lane] ⊆ contents memory) :
    (remaining.erase lane ≠ ∅ ∧ Writing k b after (h :: rest) 1
      (.afterStore (8 * blockIndex k h) register (remaining.erase lane) (insertEach b rest))) ∨
    (remaining.erase lane = ∅ ∧ probe k h ⊆ contents after ∧ Writing k b after rest 0
      (.afterStore (8 * blockIndex k h) register (remaining.erase lane) (insertEach b rest))) := by
  have kept : ∀ other, other ∉ remaining.erase lane →
      laneCells (blockIndex k h) (maskFor (h.setWidth 32)) [other] ⊆ contents after := by
    intro other outside
    rw [cells]
    by_cases same : other = lane
    · rw [same]
      exact Set.subset_union_right
    · exact Set.subset_union_of_subset_left
        (stored other fun inside => outside (Finset.mem_erase.mpr ⟨same, inside⟩)) _
  by_cases last : remaining.erase lane = ∅
  · rw [last] at kept
    refine .inr ⟨last, ?_, ?_⟩
    · rw [← maskCells_maskFor]
      exact maskCells_subset fun other => kept other (Finset.notMem_empty other)
    · rw [Thread.afterStore, if_pos last]
      exact writing_enter header _ rest
  · refine .inl ⟨last, ?_⟩
    rw [Thread.afterStore, if_neg last]
    refine .storing last ?_ kept
    intro other inside
    rw [frame other (Finset.ne_of_mem_erase inside)]
    exact computed other (Finset.mem_of_mem_erase inside)

end InFlight

/-- The writer's next access: a load leaves the memory as it is, a store adds
cells of the insert in flight, and the last store has added all of them. -/
theorem Writing.step (header : HeaderOf k b) (length : memory.length = 8 * 2 ^ k)
    (writing : Writing k b memory hashes ahead thread)
    (moved : Thread.Step thread memory access next after) :
    (after = memory ∧ access.ends = false ∧
      Writing k b memory hashes (ahead + access.begins.toNat) next) ∨
    ∃ h rest, hashes = h :: rest ∧ ahead = 1 ∧ access.begins = false ∧
      after.length = memory.length ∧ contents memory ⊆ contents after ∧
      contents after ⊆ contents memory ∪ probe k h ∧
      (access.ends = false ∧ Writing k b after hashes 1 next ∨
        access.ends = true ∧ probe k h ⊆ contents after ∧ Writing k b after rest 0 next) := by
  cases writing with
  | finished => cases moved
  | @loading h rest register remaining pending loaded =>
      cases moved with
      | @load _ _ _ _ _ lane member checked =>
          refine .inl ⟨rfl, rfl, ?_⟩
          -- The first load starts the insert, the others find it started.
          have one : (if remaining = Finset.univ then 0 else 1) +
              (decide (remaining = Finset.univ)).toNat = 1 := by
            by_cases all : remaining = Finset.univ <;> simp [all]
          simp only [LaneAccess.begins, one]
          exact writing_afterLoad lane loaded
  | @storing h rest register remaining pending computed stored =>
      cases moved with
      | @store _ _ _ _ _ lane member checked =>
          have cells := contents_set (header.inside length h) (maskFor (h.setWidth 32)) lane
          have probed : laneCells (blockIndex k h) (maskFor (h.setWidth 32)) [lane] ⊆ probe k h := by
            rw [← maskCells_maskFor]
            exact laneCells_subset
          rw [← computed lane member] at cells
          refine .inr ⟨h, rest, rfl, rfl, rfl, List.length_set, ?_, ?_, ?_⟩
          · rw [cells]
            exact Set.subset_union_left
          · rw [cells]
            exact Set.union_subset_union_right _ probed
          · have frame : ∀ other, other ≠ lane → readVector (memory.set
                (8 * blockIndex k h + lane) (register lane)) (8 * blockIndex k h) other =
                  readVector memory (8 * blockIndex k h) other :=
              fun other apart => readVector_set_ne apart _
            rcases writing_afterStore header lane cells frame computed stored with
              ⟨more, onward⟩ | ⟨last, added, onward⟩
            · exact .inl ⟨decide_eq_false more, onward⟩
            · exact .inr ⟨decide_eq_true last, added, onward⟩

end Writer

/-- Where a reader stands. If the insert of its hash is `awaited`, the lanes it
has loaded have their bits and its answer is a hit. -/
inductive Reading (k : Nat) (awaited : Prop) (h : Uint64) : Thread Nat → Prop where
  | loading {register : M256i} {remaining : Finset (Fin 8)} (pending : remaining ≠ ∅)
      (loaded : awaited → ∀ lane, lane ∉ remaining →
        Subword (maskFor (h.setWidth 32) lane) (register lane)) :
      Reading k awaited h (.loading (8 * blockIndex k h) register remaining fun cur =>
        .done (mm256TestcSi256 cur (maskFor (h.setWidth 32))))
  | finished {found : Nat} (answer : awaited → found ≠ 0) : Reading k awaited h (.finished found)

section Reader

variable {k : Nat} {b : BloomT} {memory after : Words} {h : Uint64} {awaited : Prop}
  {thread next : Thread Nat} {access : LaneAccess}

theorem reading_enter (header : HeaderOf k b) {call : Program Nat} (called : ContainsCall b h call) :
    Reading k awaited h (.enter call) := by
  rw [called.eq, header.qbContainsPrehash_eq]
  exact .loading Thread.allLanes_ne_empty (fun _ => Thread.noLane)

theorem Reading.step {awaitedNext : Prop} (header : HeaderOf k b)
    (length : memory.length = 8 * 2 ^ k) (reading : Reading k awaited h thread)
    (moved : Thread.Step thread memory access next after)
    (present : awaitedNext → probe k h ⊆ contents memory)
    (kept : access.begins = false → awaitedNext → awaited) :
    after = memory ∧ Reading k awaitedNext h next := by
  have inside := header.inside length h
  cases reading with
  | finished answer => cases moved
  | @loading register remaining pending loaded =>
      cases moved with
      | @load _ _ _ _ _ lane member checked =>
          refine ⟨rfl, ?_⟩
          have filled : awaitedNext → ∀ other, other ∉ remaining.erase lane →
              Subword (maskFor (h.setWidth 32) other)
                (Function.update register lane (readVector memory (8 * blockIndex k h) lane)
                  other) := by
            intro awaits other outside
            by_cases same : other = lane
            · have covered := present awaits
              rw [← maskCells_maskFor, ← subword_readVector_iff inside] at covered
              rw [same, Function.update_self]
              exact covered lane
            · have beyond : other ∉ remaining :=
                fun inside => outside (Finset.mem_erase.mpr ⟨same, inside⟩)
              have later : remaining ≠ Finset.univ := by
                intro all
                exact beyond (all ▸ Finset.mem_univ other)
              rw [Function.update_of_ne same]
              exact loaded (kept (decide_eq_false later) awaits) other beyond
          by_cases last : remaining.erase lane = ∅
          · rw [Thread.afterLoad, if_pos last]
            rw [last] at filled
            refine .finished fun awaits => ?_
            rw [mm256TestcSi256_ne_zero_iff]
            exact fun other => filled awaits other (Finset.notMem_empty other)
          · rw [Thread.afterLoad, if_neg last]
            exact .loading last filled

end Reader

end Quickbloom.Filter
