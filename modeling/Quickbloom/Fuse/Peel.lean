import Quickbloom.Fuse.Counting
import Quickbloom.Peeling.Worklist

namespace Quickbloom.Fuse

open Quickbloom.Data Quickbloom.Machine Quickbloom.Peeling
open Quickbloom.Source (Uint32 Uint64)
open Quickbloom.Source.BinaryFuse

/-! # Peeling

The array `alone` is the worklist. A cell that is taken off keeps its count, so
the tables are right only for the cells that still have a hash or that wait on
the list. Those are the ones that are looked at.
-/

section Counts

variable {filter : BinaryFuse8} {left : Multiset Uint64} {place : Nat}

theorem load_upper {amount : Nat} (small : degree (cell filter) left place < 64)
    (bound : amount < 64) :
    (load (cell filter) weight left place).count >>> 2 = BitVec.ofNat 8 amount ↔
      degree (cell filter) left place = amount := by
  rw [Tally.count, count_upper, load_count, ← BitVec.toNat_inj, BitVec.toNat_setWidth,
    BitVec.toNat_ofNat, BitVec.toNat_ofNat]
  omega

theorem load_single (small : degree (cell filter) left place < 64) :
    (load (cell filter) weight left place).count >>> 2 = 1 ↔ degree (cell filter) left place = 1 :=
  load_upper small (show 1 < 64 by omega)

theorem load_double (small : degree (cell filter) left place < 64) :
    (load (cell filter) weight left place).count >>> 2 = 2 ↔ degree (cell filter) left place = 2 :=
  load_upper small (show 2 < 64 by omega)

theorem weight_lower (hash : Uint64) (position : Fin 3) :
    (weight hash position).count &&& 3 = BitVec.ofNat 8 position.val := by
  rw [Tally.count, count_lower, position_byte]
  rfl

end Counts

/-- The first elements of `alone` are the list, its last one on top. -/
structure Queued (capacity : Nat) (alone : List (Option Nat)) (queue : List Nat) : Prop where
  length : alone.length = capacity
  front : queue.map some <+: alone

section Queue

variable {capacity place : Nat} {alone : List (Option Nat)} {queue : List Nat}

theorem Queued.drop (queued : Queued capacity alone (queue ++ [place])) :
    Queued capacity alone queue where
  length := queued.length
  front := by
    have front := queued.front
    rw [List.map_append] at front
    exact (List.prefix_append _ _).trans front

theorem Queued.push (queued : Queued capacity alone queue) (room : queue.length < capacity)
    (place : Nat) : ∃ next, storeAt alone queue.length (some place) = .ok next ∧
      Queued capacity next (queue ++ [place]) := by
  have length := queued.length
  obtain ⟨next, stored, same, front⟩ :=
    storeAt_prefix queued.front (by rw [List.length_map]; omega) (some place)
  rw [List.length_map] at stored
  refine ⟨next, stored, by omega, ?_⟩
  rw [List.map_append]
  exact front

theorem Queued.top (queued : Queued capacity alone (queue ++ [place])) :
    loadWritten alone queue.length = .ok place := by
  have front := queued.front
  rw [List.map_append] at front
  have loaded := loadAt_prefix front
  rw [List.length_map] at loaded
  simp only [loadWritten, loaded, Checked.ok_bind, Checked.pure_eq_ok]

/-- There is room for one more cell while one below the capacity is missing. -/
theorem queue_room (nodup : queue.Nodup) (inside : ∀ other ∈ queue, other < capacity)
    (missing : place ∉ queue) (bound : place < capacity) : queue.length < capacity := by
  have together : (place :: queue).Subperm (List.range capacity) := by
    apply List.subperm_of_subset (List.nodup_cons.mpr ⟨missing, nodup⟩)
    intro other member
    rw [List.mem_range]
    cases List.mem_cons.mp member with
    | inl same => exact same ▸ bound
    | inr old => exact inside other old
  have length := together.length_le
  rwa [List.length_cons, List.length_range] at length

end Queue

section Collect

variable {e : Nat} {filter : BinaryFuse8} {edges : Multiset Uint64}

/-- The list at first: every cell with one hash. -/
def lonely (filter : BinaryFuse8) (edges : Multiset Uint64) (count : Nat) : List Nat :=
  (List.range count).filter fun place => degree (cell filter) edges place = 1

theorem lonely_worklist (shaped : Shaped e filter) :
    Worklist (cell filter) edges (lonely filter edges filter.arrayLength.toNat) where
  nodup := List.nodup_range.filter _
  small place inside := by
    have single := (List.mem_filter.mp inside).2
    simp only [decide_eq_true_eq] at single
    omega
  complete place single := by
    obtain ⟨hash, _, position, same, _⟩ := degree_one weight shaped.cell_injective single
    have bound := same ▸ shaped.cell_lt hash position
    exact List.mem_filter.mpr ⟨List.mem_range.mpr bound, by simpa using single⟩

theorem collectAlone_returns {capacity : Nat} {alone : List (Option Nat)}
    (length : alone.length = capacity) (small : ∀ place, degree (cell filter) edges place < 64) :
    ∃ next, collectAlone capacity
        (Tables.of capacity (load (cell filter) weight edges)).t2count alone =
          .ok (next, (lonely filter edges capacity).length) ∧
      Queued capacity next (lonely filter edges capacity) := by
  have step : ∀ i (state : List (Option Nat) × Nat), i < capacity →
      (state.2 = (lonely filter edges i).length ∧
        Queued capacity state.1 (lonely filter edges i)) →
      ∃ next, (do
        let alone ← storeAt state.1 state.2 (some i)
        let count ← loadAt (Tables.of capacity (load (cell filter) weight edges)).t2count i
        return (alone, if count >>> 2 = 1 then state.2 + 1 else state.2)) = .ok next ∧
        next.2 = (lonely filter edges (i + 1)).length ∧
        Queued capacity next.1 (lonely filter edges (i + 1)) := by
    intro i state below held
    obtain ⟨amount, queued⟩ := held
    have few : (lonely filter edges i).length ≤ i := by
      calc (lonely filter edges i).length ≤ (List.range i).length := List.length_filter_le _ _
        _ = i := List.length_range
    obtain ⟨next, stored, longer⟩ := queued.push (by omega) i
    have loaded : loadAt (Tables.of capacity (load (cell filter) weight edges)).t2count i =
        .ok (load (cell filter) weight edges i).count := loadAt_tabulate below
    have tested := load_single (small i)
    rw [amount, stored, Checked.ok_bind, loaded, Checked.ok_bind]
    refine ⟨_, rfl, ?_⟩
    by_cases single : degree (cell filter) edges i = 1
    · have more : lonely filter edges (i + 1) = lonely filter edges i ++ [i] := by
        simp [lonely, List.range_succ, List.filter_append, single]
      rw [if_pos (tested.mpr single), more]
      exact ⟨by simp, longer⟩
    · have more : lonely filter edges (i + 1) = lonely filter edges i := by
        simp [lonely, List.range_succ, List.filter_append, single]
      rw [if_neg fun found => single (tested.mp found), more]
      exact ⟨rfl, longer.drop⟩
  have start : (alone, 0).2 = (lonely filter edges 0).length ∧
      Queued capacity (alone, 0).1 (lonely filter edges 0) :=
    ⟨rfl, length, List.nil_prefix⟩
  obtain ⟨final, ran, amount, queued⟩ :=
    strideLoop_invariant _ step (Nat.zero_le capacity) start
  refine ⟨final.1, ?_, queued⟩
  rw [collectAlone, ran, ← amount]
  rfl

end Collect

section Positions

variable {e : Nat} {filter : BinaryFuse8} {hash : Uint64} {position : Fin 3}

theorem position_cases (position other : Fin 3) :
    other = position ∨ other = position + 1 ∨ other = position + 2 := by
  revert position other
  decide

theorem position_apart (position : Fin 3) :
    position ≠ position + 1 ∧ position ≠ position + 2 ∧ position + 1 ≠ position + 2 := by
  revert position
  decide

/-- The cells other than the one at a position, in the order they are visited. -/
def others (filter : BinaryFuse8) (hash : Uint64) (position : Fin 3) : List Nat :=
  [cell filter hash (position + 1), cell filter hash (position + 2)]

theorem Shaped.others_nodup (shaped : Shaped e filter) : (others filter hash position).Nodup := by
  have apart := (position_apart position).2.2
  have different : cell filter hash (position + 1) ≠ cell filter hash (position + 2) :=
    fun same => apart (shaped.cell_injective hash same)
  simp [others, different]

theorem Shaped.others_apart (shaped : Shaped e filter) :
    cell filter hash position ∉ others filter hash position := by
  obtain ⟨first, second, _⟩ := position_apart position
  have one : cell filter hash position ≠ cell filter hash (position + 1) :=
    fun same => first (shaped.cell_injective hash same)
  have two : cell filter hash position ≠ cell filter hash (position + 2) :=
    fun same => second (shaped.cell_injective hash same)
  simp [others, one, two]

theorem cell_among (position other : Fin 3) :
    cell filter hash other = cell filter hash position ∨
      cell filter hash other ∈ others filter hash position := by
  rcases position_cases position other with rfl | rfl | rfl
  · exact Or.inl rfl
  · exact Or.inr (by simp [others])
  · exact Or.inr (by simp [others])

theorem Shaped.share_others (shaped : Shaped e filter) (place : Nat) :
    share (cell filter) (fun _ _ => 1) hash place =
      if place = cell filter hash position ∨ place ∈ others filter hash position then 1 else 0 := by
  by_cases touched : ∃ other, cell filter hash other = place
  · obtain ⟨other, rfl⟩ := touched
    rw [share_cell (shaped.cell_injective hash), if_pos (cell_among position other)]
  · push Not at touched
    rw [share_apart touched, if_neg]
    intro among
    rcases among with same | same
    · exact touched position same.symm
    · simp only [others, List.mem_cons, List.not_mem_nil, or_false] at same
      rcases same with first | second
      · exact touched _ first.symm
      · exact touched _ second.symm

/-- The array `h012` read at the place behind the one that was found. -/
theorem rotated_first : loadWritten [none, some (cell filter hash 1), some (cell filter hash 2),
      some (cell filter hash 0), some (cell filter hash 1)]
    ((BitVec.ofNat 8 position.val).toNat + 1) = .ok (cell filter hash (position + 1)) := by
  fin_cases position <;> rfl

theorem rotated_second : loadWritten [none, some (cell filter hash 1), some (cell filter hash 2),
      some (cell filter hash 0), some (cell filter hash 1)]
    ((BitVec.ofNat 8 position.val).toNat + 2) = .ok (cell filter hash (position + 2)) := by
  fin_cases position <;> rfl

theorem mod3_first (position : Fin 3) :
    binaryFuseMod3 (BitVec.ofNat 8 position.val + 1) = BitVec.ofNat 8 (position + 1).val := by
  revert position
  decide

theorem mod3_second (position : Fin 3) :
    binaryFuseMod3 (BitVec.ofNat 8 position.val + 2) = BitVec.ofNat 8 (position + 2).val := by
  revert position
  decide

end Positions

section Detach

variable {capacity place : Nat} {peel : Peel} {tally : Nat → Tally} {queue : List Nat}

/-- What a cell adds to the list when it loses a hash. -/
def joins (tally : Nat → Tally) (place : Nat) : List Nat :=
  if (tally place).count >>> 2 = 2 then [place] else []

theorem detach_returns (tables : peel.tables = Tables.of capacity tally)
    (queued : Queued capacity peel.alone queue) (qsize : peel.qsize = queue.length)
    (room : queue.length < capacity) (bound : place < capacity) (hash : Uint64)
    (position : Fin 3) :
    ∃ alone, peel.detach place (BitVec.ofNat 8 position.val) hash = .ok { peel with
        tables := Tables.of capacity
          (Function.update tally place (tally place - weight hash position))
        alone, qsize := (queue ++ joins tally place).length } ∧
      Queued capacity alone (queue ++ joins tally place) := by
  obtain ⟨alone, stored, longer⟩ := queued.push room place
  have loaded : loadAt (Tables.of capacity tally).t2count place = .ok (tally place).count :=
    loadAt_tabulate bound
  refine ⟨alone, ?_, ?_⟩
  · simp only [Peel.detach, qsize, stored, tables, loaded, toggle_sub bound, Checked.ok_bind,
      Checked.pure_eq_ok, joins]
    congr 2
    split
    · simp
    · simp
  · rw [joins]
    split
    · exact longer
    · rw [List.append_nil]
      exact longer.drop

end Detach

end Quickbloom.Fuse
