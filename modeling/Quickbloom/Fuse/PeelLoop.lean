import Quickbloom.Fuse.Peel

namespace Quickbloom.Fuse

open Quickbloom.Data Quickbloom.Machine Quickbloom.Peeling
open Quickbloom.Source (Uint32 Uint64)
open Quickbloom.Source.BinaryFuse

/-! # The peeling loop

The loop runs the abstract worklist: `stack` is what it wrote to the front of
`reverseOrder` and `reverseH`, `left` what the tables still hold.
-/

/-- The arrays at the start of the loop. -/
structure Before where
  edges : Multiset Uint64
  order : List Uint64
  found : List (Option Byte)

structure Before.Ready (before : Before) (filter : BinaryFuse8) : Prop where
  small : ∀ place, degree (cell filter) before.edges place < 64
  order : before.edges.card < before.order.length
  found : before.edges.card ≤ before.found.length

/-- The byte that `reverseH` gets for an element of the stack. -/
def foundByte (pair : Uint64 × Fin 3) : Option Byte := some (BitVec.ofNat 8 pair.2.val)

structure Peels (filter : BinaryFuse8) (before : Before) (left : Multiset Uint64)
    (stack : List (Uint64 × Fin 3)) (queue : List Nat) (peel : Peel) : Prop where
  tables : ∃ tally, peel.tables = Tables.of filter.arrayLength.toNat tally ∧
    ∀ place, degree (cell filter) left place ≠ 0 ∨ place ∈ queue →
      tally place = load (cell filter) weight left place
  alone : Queued filter.arrayLength.toNat peel.alone queue
  qsize : peel.qsize = queue.length
  inside : ∀ place ∈ queue, place < filter.arrayLength.toNat
  work : Worklist (cell filter) left queue
  progress : Progress (cell filter) before.edges left stack
  stacksize : peel.stacksize = stack.length
  order : peel.reverseOrder = stack.map Prod.fst ++ before.order.drop stack.length
  found : peel.reverseH = stack.map foundByte ++ before.found.drop stack.length

/-- What bounds the steps that are left. -/
def Before.steps (before : Before) (peel : Peel) : Nat :=
  peel.qsize + 2 * (before.edges.card - peel.stacksize)

section Step

variable {e : Nat} {filter : BinaryFuse8} {before : Before} {left : Multiset Uint64}
  {stack : List (Uint64 × Fin 3)} {queue : List Nat} {place : Nat} {peel : Peel}

theorem Peels.small (peels : Peels filter before left stack queue peel)
    (ready : before.Ready filter) (place : Nat) : degree (cell filter) left place < 64 :=
  lt_of_le_of_lt (degree_mono (cell filter) place peels.progress.within) (ready.small place)

/-- The cell on top of the list, and what the loop reads there. -/
theorem Peels.top (peels : Peels filter before left stack (queue ++ [place]) peel) :
    peel.qsize - 1 = queue.length ∧ loadWritten peel.alone queue.length = .ok place ∧
      loadAt peel.tables.t2count place = .ok (load (cell filter) weight left place).count ∧
      loadAt peel.tables.t2hash place = .ok (load (cell filter) weight left place).hash := by
  obtain ⟨tally, tables, holds⟩ := peels.tables
  have qsize := peels.qsize
  have bound := peels.inside place (by simp)
  have same := holds place (Or.inr (by simp))
  refine ⟨by simp [qsize], peels.alone.top, ?_, ?_⟩
  · rw [tables, ← same]
    exact loadAt_tabulate bound
  · rw [tables, ← same]
    exact loadAt_tabulate bound

/-- A cell whose hash has gone is dropped. -/
theorem Peels.skip (peels : Peels filter before left stack (queue ++ [place]) peel)
    (ready : before.Ready filter) (none : degree (cell filter) left place ≠ 1) :
    ∃ next, peelNext filter peel = .ok next ∧ Peels filter before left stack queue next ∧
      before.steps next < before.steps peel := by
  obtain ⟨last, read, count, _⟩ := peels.top
  have tested : ¬ (load (cell filter) weight left place).count >>> 2 = 1 := fun found =>
    none ((load_single (peels.small ready place)).mp found)
  refine ⟨{ peel with qsize := queue.length }, ?_, ?_, ?_⟩
  · simp only [peelNext, last, read, count, Checked.ok_bind, if_neg tested, Checked.pure_eq_ok]
  · obtain ⟨tally, tables, holds⟩ := peels.tables
    exact { peels with
      tables := ⟨tally, tables, fun other cause => holds other (by
        cases cause with
        | inl touched => exact Or.inl touched
        | inr waits => exact Or.inr (by simp [waits]))⟩
      alone := peels.alone.drop
      qsize := rfl
      inside := fun other waits => peels.inside other (by simp [waits])
      work := peels.work.skip none }
  · have qsize := peels.qsize
    simp only [Before.steps, qsize, List.length_append, List.length_singleton]
    omega

/-- The tables after the hash at `position` was taken out of its two other cells. -/
def detached (filter : BinaryFuse8) (tally : Nat → Tally) (hash : Uint64) (position : Fin 3) :
    Nat → Tally :=
  let first := cell filter hash (position + 1)
  let second := cell filter hash (position + 2)
  Function.update (Function.update tally first (tally first - weight hash (position + 1)))
    second (tally second - weight hash (position + 2))

/-- They are right again wherever a hash is left or a cell waits. -/
theorem detached_holds (shaped : Shaped e filter) {hash : Uint64} {position : Fin 3}
    (member : hash ∈ left) (last : degree (cell filter) (left.erase hash)
      (cell filter hash position) = 0) {tally : Nat → Tally}
    (holds : ∀ other, degree (cell filter) left other ≠ 0 ∨ other ∈ queue →
      tally other = load (cell filter) weight left other)
    (unqueued : cell filter hash position ∉ queue) {other : Nat}
    (cause : degree (cell filter) (left.erase hash) other ≠ 0 ∨
      other ∈ queue ∨ other ∈ others filter hash position) :
    detached filter tally hash position other =
      load (cell filter) weight (left.erase hash) other := by
  have distinct := shaped.cell_injective hash
  have held : ∀ moved, tally (cell filter hash moved) - weight hash moved =
      load (cell filter) weight (left.erase hash) (cell filter hash moved) := by
    intro moved
    have touched : degree (cell filter) left (cell filter hash moved) ≠ 0 := fun zero =>
      degree_eq_zero.mp zero hash member moved rfl
    rw [holds _ (Or.inl touched), ← load_erase member, share_cell distinct, add_sub_cancel_left]
  by_cases second : other = cell filter hash (position + 2)
  · rw [detached, second, Function.update_self, held]
  · rw [detached, Function.update_of_ne second]
    by_cases first : other = cell filter hash (position + 1)
    · rw [first, Function.update_self, held]
    · rw [Function.update_of_ne first]
      have apart : ∀ moved, cell filter hash moved ≠ other := by
        intro moved same
        subst same
        rcases cell_among position moved with here | among
        · rw [here] at cause
          rcases cause with some | waits | among
          · exact some last
          · exact unqueued waits
          · exact shaped.others_apart among
        · simp [others, first, second] at among
      have kept : degree (cell filter) left other ≠ 0 ∨ other ∈ queue := by
        rcases cause with some | waits | among
        · refine Or.inl fun zero => some ?_
          have fewer := degree_mono (cell filter) other (Multiset.erase_le hash left)
          omega
        · exact Or.inr waits
        · simp [others, first, second] at among
      rw [holds other kept, ← load_erase member, share_apart apart, zero_add]

theorem joins_eq {tally : Nat → Tally} {other : Nat}
    (small : degree (cell filter) left other < 64)
    (same : tally other = load (cell filter) weight left other) :
    joins tally other = [other].filter fun other => degree (cell filter) left other = 2 := by
  have tested := load_double small
  by_cases two : degree (cell filter) left other = 2
  · rw [joins, same, if_pos (tested.mpr two)]
    simp [two]
  · rw [joins, same, if_neg fun found => two (tested.mp found)]
    simp [two]

/-- What the other cells of a hash add to the list. -/
def joined (filter : BinaryFuse8) (left : Multiset Uint64) (hash : Uint64) (position : Fin 3) :
    List Nat :=
  (others filter hash position).filter fun other => degree (cell filter) left other = 2

theorem joined_sublist (hash : Uint64) (position : Fin 3) :
    ∀ other ∈ joined filter left hash position, other ∈ others filter hash position :=
  fun _ member => (List.mem_filter.mp member).1

theorem Shaped.joined_lt (shaped : Shaped e filter) (hash : Uint64) (position : Fin 3) :
    ∀ other ∈ joined filter left hash position, other < filter.arrayLength.toNat := by
  intro other member
  have among := joined_sublist hash position other member
  simp only [others, List.mem_cons, List.not_mem_nil, or_false] at among
  rcases among with same | same
  · exact same ▸ shaped.cell_lt hash _
  · exact same ▸ shaped.cell_lt hash _

theorem detach_both (shaped : Shaped e filter) {tally : Nat → Tally} {hash : Uint64}
    {position : Fin 3} (tables : peel.tables = Tables.of filter.arrayLength.toNat tally)
    (queued : Queued filter.arrayLength.toNat peel.alone queue) (qsize : peel.qsize = queue.length)
    (inside : ∀ other ∈ queue, other < filter.arrayLength.toNat)
    (nodup : (queue ++ joined filter left hash position).Nodup)
    (missing : cell filter hash position ∉ queue)
    (small : ∀ other, degree (cell filter) left other < 64)
    (touched : ∀ moved, tally (cell filter hash moved) =
      load (cell filter) weight left (cell filter hash moved)) :
    ∃ alone, (peel.detach (cell filter hash (position + 1))
        (BitVec.ofNat 8 (position + 1).val) hash >>= fun peel =>
      peel.detach (cell filter hash (position + 2)) (BitVec.ofNat 8 (position + 2).val) hash) =
        .ok { peel with
          tables := Tables.of filter.arrayLength.toNat (detached filter tally hash position)
          alone, qsize := (queue ++ joined filter left hash position).length } ∧
      Queued filter.arrayLength.toNat alone (queue ++ joined filter left hash position) := by
  have bound := shaped.cell_lt hash
  have apart : cell filter hash (position + 2) ≠ cell filter hash (position + 1) := fun same =>
    (position_apart position).2.2 (shaped.cell_injective hash same).symm
  have firstJoins := joins_eq (small _) (touched (position + 1))
  have room := queue_room (List.nodup_append.mp nodup).1 inside missing (bound position)
  obtain ⟨alone, ran, longer⟩ := detach_returns tables queued qsize room (bound (position + 1))
    hash (position + 1)
  generalize middle : Function.update tally (cell filter hash (position + 1))
    (tally (cell filter hash (position + 1)) - weight hash (position + 1)) = between at ran
  have kept : between (cell filter hash (position + 2)) = tally (cell filter hash (position + 2)) := by
    rw [← middle, Function.update_of_ne apart]
  have secondJoins := joins_eq (small _) (kept.trans (touched (position + 2)))
  have split : joined filter left hash position =
      joins tally (cell filter hash (position + 1)) ++
        joins between (cell filter hash (position + 2)) := by
    rw [firstJoins, secondJoins, ← List.filter_append]
    rfl
  rw [split, ← List.append_assoc] at nodup ⊢
  have onlyOthers : ∀ other ∈ joins tally (cell filter hash (position + 1)),
      other = cell filter hash (position + 1) := by
    intro other member
    rw [firstJoins] at member
    simpa using (List.mem_filter.mp member).1
  have moreInside : ∀ other ∈ queue ++ joins tally (cell filter hash (position + 1)),
      other < filter.arrayLength.toNat := by
    intro other member
    cases List.mem_append.mp member with
    | inl old => exact inside other old
    | inr new => exact onlyOthers other new ▸ bound (position + 1)
  have moreMissing : cell filter hash position ∉
      queue ++ joins tally (cell filter hash (position + 1)) := by
    intro member
    cases List.mem_append.mp member with
    | inl old => exact missing old
    | inr new =>
        exact (position_apart position).1 (shaped.cell_injective hash (onlyOthers _ new))
  have moreRoom := queue_room (List.nodup_append.mp nodup).1 moreInside moreMissing (bound position)
  obtain ⟨final, ranSecond, longest⟩ := detach_returns
    (show Peel.tables { peel with
      tables := Tables.of filter.arrayLength.toNat between
      alone, qsize := (queue ++ joins tally (cell filter hash (position + 1))).length } =
        Tables.of filter.arrayLength.toNat between from rfl)
    longer rfl moreRoom (bound (position + 2)) hash (position + 2)
  refine ⟨final, ?_, longest⟩
  rw [ran, Checked.ok_bind, ranSecond, kept, ← middle]
  rfl

/-- The hash of a cell that has just one is put on the stack. -/
theorem Peels.take (shaped : Shaped e filter)
    (peels : Peels filter before left stack (queue ++ [place]) peel)
    (ready : before.Ready filter) (single : degree (cell filter) left place = 1) :
    ∃ left stack queue next, peelNext filter peel = .ok next ∧
      Peels filter before left stack queue next ∧ before.steps next < before.steps peel := by
  obtain ⟨last, read, count, hashed⟩ := peels.top
  obtain ⟨hash, member, position, rfl, gone, held⟩ :=
    degree_one weight shaped.cell_injective single
  have tested := (load_single (peels.small ready _)).mpr single
  rw [held] at count hashed tested
  obtain ⟨tally, tables, holds⟩ := peels.tables
  have total := peels.progress.length
  have positive : 0 < left.card := Multiset.card_pos_iff_exists_mem.mpr ⟨hash, member⟩
  have fitsFound := ready.found
  have fitsOrder := ready.order
  have storedFound : storeAt (stack.map foundByte ++ before.found.drop stack.length) stack.length
      (some (BitVec.ofNat 8 position.val)) = _ :=
    storeAt_overlay_map foundByte (by omega) (hash, position)
  have storedOrder : storeAt (stack.map Prod.fst ++ before.order.drop stack.length) stack.length
      hash = _ := storeAt_overlay_map Prod.fst (by omega) (hash, position)
  have first : loadWritten [none, some (binaryFuse8Hash 1 hash filter).toNat,
      some (binaryFuse8Hash 2 hash filter).toNat, some (binaryFuse8Hash 0 hash filter).toNat,
      some (binaryFuse8Hash 1 hash filter).toNat] ((BitVec.ofNat 8 position.val).toNat + 1) =
      .ok (cell filter hash (position + 1)) := rotated_first
  have second : loadWritten [none, some (binaryFuse8Hash 1 hash filter).toNat,
      some (binaryFuse8Hash 2 hash filter).toNat, some (binaryFuse8Hash 0 hash filter).toNat,
      some (binaryFuse8Hash 1 hash filter).toNat] ((BitVec.ofNat 8 position.val).toNat + 2) =
      .ok (cell filter hash (position + 2)) := rotated_second
  have nodup := peels.work.nodup
  have missing : cell filter hash position ∉ queue := fun waits => by
    simpa using (List.nodup_append.mp nodup).2.2 _ waits _ (List.mem_singleton_self _)
  have touched : ∀ moved, tally (cell filter hash moved) =
      load (cell filter) weight left (cell filter hash moved) := fun moved =>
    holds _ (Or.inl fun zero => degree_eq_zero.mp zero hash member moved rfl)
  have distinct : (others filter hash position).Nodup := shaped.others_nodup
  have work := peels.work.take member gone distinct
    shaped.others_apart shaped.share_others
  obtain ⟨alone, ran, longer⟩ := detach_both shaped
    (show Peel.tables { peel with
      qsize := queue.length
      reverseH := (stack ++ [(hash, position)]).map foundByte ++
        before.found.drop (stack ++ [(hash, position)]).length
      reverseOrder := (stack ++ [(hash, position)]).map Prod.fst ++
        before.order.drop (stack ++ [(hash, position)]).length
      stacksize := stack.length + 1 } = _ from tables)
    peels.alone.drop rfl (fun other waits => peels.inside other (by simp [waits])) work.nodup missing
    (peels.small ready) touched
  refine ⟨left.erase hash, stack ++ [(hash, position)],
    queue ++ joined filter left hash position, _, Eq.trans ?_ ran, ?_, ?_⟩
  · have own : (weight hash position).hash = hash := rfl
    simp only [peelNext, last, read, count, hashed, own, weight_lower, if_pos tested,
      peels.stacksize, peels.found, peels.order, storedFound, storedOrder, first, second,
      mod3_first, mod3_second, Checked.ok_bind]
  · exact {
      tables := ⟨_, rfl, fun other cause => detached_holds shaped member gone
        (fun other kept => holds other (by
          cases kept with
          | inl some => exact Or.inl some
          | inr waits => exact Or.inr (by simp [waits])))
        missing (by
          rcases cause with some | waits
          · exact Or.inl some
          · exact Or.inr ((List.mem_append.mp waits).imp_right fun new =>
              joined_sublist hash position other new))⟩
      alone := longer
      qsize := rfl
      inside := fun other waits => by
        cases List.mem_append.mp waits with
        | inl old => exact peels.inside other (by simp [old])
        | inr new => exact shaped.joined_lt hash position other new
      work := work
      progress := peels.progress.take member gone
      stacksize := by simp
      order := rfl
      found := rfl }
  · have few : (joined filter left hash position).length ≤ 2 := List.length_filter_le _ _
    have qsize := peels.qsize
    have stacksize := peels.stacksize
    simp only [Before.steps, qsize, stacksize, List.length_append, List.length_singleton]
    omega

theorem Peels.next (shaped : Shaped e filter) (peels : Peels filter before left stack queue peel)
    (ready : before.Ready filter) (more : 0 < peel.qsize) :
    ∃ left stack queue next, peelNext filter peel = .ok next ∧
      Peels filter before left stack queue next ∧ before.steps next < before.steps peel := by
  have qsize := peels.qsize
  rcases List.eq_nil_or_concat queue with rfl | ⟨rest, place, rfl⟩
  · simp only [List.length_nil] at qsize
    omega
  · rw [List.concat_eq_append] at peels
    by_cases single : degree (cell filter) left place = 1
    · exact peels.take shaped ready single
    · obtain ⟨next, ran, kept, fewer⟩ := peels.skip ready single
      exact ⟨left, stack, rest, next, ran, kept, fewer⟩

/-- The loop ends with an empty list. -/
theorem peelAll_returns (shaped : Shaped e filter)
    (peels : Peels filter before left stack queue peel) (ready : before.Ready filter) {fuel : Nat}
    (enough : before.steps peel < fuel) :
    ∃ left stack final, peelAll filter fuel peel = .ok final ∧
      Peels filter before left stack [] final := by
  obtain ⟨final, returned, ⟨left, stack, queue, kept⟩, stopped⟩ := whileM_invariant
    (fun peel => ∃ left stack queue, Peels filter before left stack queue peel) before.steps
    (fun peel kept => by
      obtain ⟨left, stack, queue, peels⟩ := kept
      by_cases more : 0 < peel.qsize
      · obtain ⟨left, stack, queue, next, ran, peels, fewer⟩ := peels.next shaped ready more
        exact Or.inr ⟨next, congrArg Except.ok (decide_eq_true more), ran,
          ⟨left, stack, queue, peels⟩, fewer⟩
      · exact Or.inl (congrArg Except.ok (decide_eq_false more)))
    ⟨left, stack, queue, peels⟩ enough
  have none : ¬ 0 < final.qsize := of_decide_eq_false (Except.ok.inj stopped)
  have empty : queue = [] := List.eq_nil_of_length_eq_zero (by
    have qsize := kept.qsize
    omega)
  subst empty
  exact ⟨left, stack, final, returned, kept⟩

/-- From the tables of a pass without error, the loop takes off every hash
exactly if the hashes can be peeled. -/
theorem peel_returns (shaped : Shaped e filter) (ready : before.Ready filter)
    {alone : List (Option Nat)} (length : alone.length = filter.arrayLength.toNat) {size : Nat}
    (few : before.edges.card ≤ size) :
    ∃ collected, collectAlone filter.arrayLength.toNat
        (Tables.of filter.arrayLength.toNat (load (cell filter) weight before.edges)).t2count alone =
          .ok collected ∧
      ∃ left stack final, peelAll filter (filter.arrayLength.toNat + 2 * size + 1)
        { tables := Tables.of filter.arrayLength.toNat (load (cell filter) weight before.edges)
          alone := collected.1, qsize := collected.2, reverseOrder := before.order
          reverseH := before.found, stacksize := 0 } = .ok final ∧
        Peels filter before left stack [] final ∧
        (stack.length = before.edges.card ↔ Peelable (cell filter) before.edges) := by
  obtain ⟨next, collects, queued⟩ := collectAlone_returns length ready.small
  have bound : (lonely filter before.edges filter.arrayLength.toNat).length ≤
      filter.arrayLength.toNat := by
    calc _ ≤ (List.range filter.arrayLength.toNat).length := List.length_filter_le _ _
      _ = filter.arrayLength.toNat := List.length_range
  have start : Peels filter before before.edges []
      (lonely filter before.edges filter.arrayLength.toNat)
      { tables := Tables.of filter.arrayLength.toNat (load (cell filter) weight before.edges)
        alone := next, qsize := (lonely filter before.edges filter.arrayLength.toNat).length
        reverseOrder := before.order, reverseH := before.found, stacksize := 0 } :=
    { tables := ⟨_, rfl, fun _ _ => rfl⟩
      alone := queued
      qsize := rfl
      inside := fun place member => List.mem_range.mp (List.mem_filter.mp member).1
      work := lonely_worklist shaped
      progress := Progress.start
      stacksize := rfl
      order := rfl
      found := rfl }
  obtain ⟨left, stack, final, ran, peels⟩ := peelAll_returns shaped start ready
    (show _ < filter.arrayLength.toNat + 2 * size + 1 by
      simp only [Before.steps]
      omega)
  exact ⟨_, collects, left, stack, final, ran, peels,
    peels.progress.finished shaped.cell_injective peels.work⟩

end Step

end Quickbloom.Fuse
