import Mathlib.Data.Finset.Card
import Mathlib.Data.Multiset.Filter
import Mathlib.Data.Multiset.Range
import Mathlib.Data.Nat.Find

namespace Quickbloom.Data

/-! # Placing items by bucket

Every bucket has a pointer into one array of slots. An item goes to the slot of
a bucket whose pointer is at an empty one, and that pointer moves on. Slot
`size` is never empty, so no pointer passes it.
-/

variable {W : Type}

/-- The items in the first `size` slots. -/
def stored [DecidableEq W] (size : Nat) (empty : W) (slot : Nat → W) : Multiset W :=
  ((Multiset.range size).map slot).filter (· ≠ empty)

/-- Some of the slots below `size` were passed, at most one for each item, and
the others are empty. The first slot of each run of others has a pointer, so the
buckets are never all stuck. -/
structure Passed (size block : Nat) (empty : W) (slot : Nat → W) (pointer : Nat → Nat)
    (items : Nat) (passed : Finset Nat) : Prop where
  few : passed.card ≤ items
  empty : ∀ place < size, place ∉ passed → slot place = empty
  first : 0 < size → 0 ∉ passed → ∃ bucket < block, pointer bucket = 0
  next : ∀ place ∈ passed, place + 1 < size → place + 1 ∉ passed →
    ∃ bucket < block, pointer bucket = place + 1

structure Buckets [DecidableEq W] (size block : Nat) (empty : W) (slot : Nat → W) (pointer : Nat → Nat)
    (placed : Multiset W) : Prop where
  sentinel : slot size ≠ empty
  within : ∀ bucket < block, pointer bucket ≤ size
  passed : ∃ passed, Passed size block empty slot pointer placed.card passed
  contents : stored size empty slot = placed.filter (· ≠ empty)

section Place

variable {size block : Nat} {empty : W} {slot : Nat → W} {pointer : Nat → Nat}

theorem stored_update [DecidableEq W] {place : Nat} (bound : place < size) (free : slot place = empty) (item : W) :
    stored size empty (Function.update slot place item) =
      (item ::ₘ stored size empty slot).filter (· ≠ empty) := by
  have split := Multiset.cons_erase (Multiset.mem_range.mpr bound)
  have others : ((Multiset.range size).erase place).map (Function.update slot place item) =
      ((Multiset.range size).erase place).map slot := by
    apply Multiset.map_congr rfl
    intro other member
    have different := ((Multiset.nodup_range size).mem_erase_iff.mp member).1
    exact Function.update_of_ne different item slot
  have after : stored size empty (Function.update slot place item) =
      (item ::ₘ ((Multiset.range size).erase place).map slot).filter (· ≠ empty) := by
    rw [stored, ← others, ← split, Multiset.map_cons, Function.update_self, split]
  have before : stored size empty slot =
      (((Multiset.range size).erase place).map slot).filter (· ≠ empty) := by
    rw [stored, ← split, Multiset.map_cons, free, split]
    simp
  rw [after, before, Multiset.filter_cons, Multiset.filter_cons, Multiset.filter_filter]
  simp only [and_self]

variable {placed : Multiset W} {bucket : Nat}

theorem Passed.free {passed : Finset Nat}
    (passes : Passed size block empty slot pointer placed.card passed)
    (few : placed.card < size) : ∃ bucket < block, slot (pointer bucket) = empty := by
  have some : ∃ place < size, place ∉ passed := by
    by_contra all
    push Not at all
    have within : (Finset.range size).card ≤ passed.card :=
      Finset.card_le_card fun place member => all place (Finset.mem_range.mp member)
    have bound := passes.few
    rw [Finset.card_range] at within
    omega
  have least := Nat.find_spec some
  have before := fun place => Nat.find_min (m := place) some
  obtain ⟨bound, outside⟩ := least
  generalize Nat.find some = place at bound outside before
  have pointed : ∃ bucket < block, pointer bucket = place := by
    cases place with
    | zero => exact passes.first bound outside
    | succ earlier =>
        have inside : earlier ∈ passed := by
          by_contra missing
          exact before earlier (by omega) ⟨by omega, missing⟩
        exact passes.next earlier inside bound outside
  obtain ⟨bucket, known, points⟩ := pointed
  exact ⟨bucket, known, by rw [points, passes.empty place bound outside]⟩

theorem Passed.place {passed : Finset Nat} {items : Nat}
    (passes : Passed size block empty slot pointer items passed) (known : bucket < block)
    (item : W) :
    Passed size block empty (Function.update slot (pointer bucket) item)
      (Function.update pointer bucket (pointer bucket + 1)) (items + 1)
      (insert (pointer bucket) passed) := by
  -- A pointer that another slot relies on is not the one that moves.
  have stays : ∀ place, place ∉ insert (pointer bucket) passed →
      (∃ other < block, pointer other = place) →
      ∃ other < block, Function.update pointer bucket (pointer bucket + 1) other = place := by
    intro place outside pointed
    obtain ⟨other, inside, points⟩ := pointed
    have different : other ≠ bucket := by
      intro same
      subst same
      exact outside (points ▸ Finset.mem_insert_self _ _)
    exact ⟨other, inside, by rw [Function.update_of_ne different, points]⟩
  refine ⟨?_, ?_, ?_, ?_⟩
  · have grown := Finset.card_insert_le (pointer bucket) passed
    have few := passes.few
    omega
  · intro place bound outside
    simp only [Finset.mem_insert, not_or] at outside
    rw [Function.update_of_ne outside.1]
    exact passes.empty place bound outside.2
  · intro positive outside
    exact stays 0 outside (passes.first positive fun inside =>
      outside (Finset.mem_insert_of_mem inside))
  · intro place inside bound outside
    rcases Finset.mem_insert.mp inside with same | earlier
    · exact ⟨bucket, known, by rw [Function.update_self, same]⟩
    · exact stays (place + 1) outside (passes.next place earlier bound fun inside =>
        outside (Finset.mem_insert_of_mem inside))

variable [DecidableEq W]

theorem Buckets.free (buckets : Buckets size block empty slot pointer placed)
    (few : placed.card < size) : ∃ bucket < block, slot (pointer bucket) = empty := by
  obtain ⟨passed, passes⟩ := buckets.passed
  exact passes.free few

theorem Buckets.below (buckets : Buckets size block empty slot pointer placed)
    (known : bucket < block) (free : slot (pointer bucket) = empty) : pointer bucket < size := by
  have bound := buckets.within bucket known
  have different : pointer bucket ≠ size := by
    intro same
    exact buckets.sentinel (same ▸ free)
  omega

theorem Buckets.place (buckets : Buckets size block empty slot pointer placed)
    (known : bucket < block) (free : slot (pointer bucket) = empty) (item : W) :
    Buckets size block empty (Function.update slot (pointer bucket) item)
      (Function.update pointer bucket (pointer bucket + 1)) (item ::ₘ placed) := by
  have below := buckets.below known free
  refine ⟨?_, ?_, ?_, ?_⟩
  · rw [Function.update_of_ne (by omega)]
    exact buckets.sentinel
  · intro other inside
    by_cases same : other = bucket
    · subst same
      rw [Function.update_self]
      exact below
    · rw [Function.update_of_ne same]
      exact buckets.within other inside
  · obtain ⟨passed, passes⟩ := buckets.passed
    rw [Multiset.card_cons]
    exact ⟨_, passes.place known item⟩
  · rw [stored_update below free, buckets.contents, Multiset.filter_cons, Multiset.filter_cons,
      Multiset.filter_filter]
    simp only [and_self]

theorem Buckets.start (positive : 0 < block) (sentinel : slot size ≠ empty)
    (zero : ∀ place < size, slot place = empty) (origin : pointer 0 = 0)
    (within : ∀ bucket < block, pointer bucket ≤ size) :
    Buckets size block empty slot pointer 0 := by
  refine ⟨sentinel, within, ⟨∅, ?_, ?_, ?_, ?_⟩, ?_⟩
  · simp
  · intro place bound _
    exact zero place bound
  · intro _ _
    exact ⟨0, positive, origin⟩
  · intro place member
    exact absurd member (Finset.notMem_empty place)
  · rw [stored, Multiset.filter_zero, Multiset.filter_eq_nil]
    intro item member
    obtain ⟨place, inside, rfl⟩ := Multiset.mem_map.mp member
    simp [zero place (Multiset.mem_range.mp inside)]

/-- Once there are as many items as slots, the slots hold exactly the items,
those equal to the empty one included. -/
theorem Buckets.full (buckets : Buckets size block empty slot pointer placed)
    (all : placed.card = size) : (Multiset.range size).map slot = placed := by
  have whole : ∀ items : Multiset W, items =
      items.filter (· ≠ empty) + Multiset.replicate (items.card - (items.filter (· ≠ empty)).card)
        empty := by
    intro items
    have parts := Multiset.filter_add_not (· ≠ empty) items
    have rest : items.filter (fun item => ¬ item ≠ empty) =
        Multiset.replicate (items.filter fun item => ¬ item ≠ empty).card empty := by
      rw [Multiset.eq_replicate]
      refine ⟨rfl, ?_⟩
      intro item member
      simpa using (Multiset.mem_filter.mp member).2
    have count := congrArg Multiset.card parts
    rw [Multiset.card_add] at count
    rw [rest] at parts
    have amount : (items.filter fun item => ¬ item ≠ empty).card =
        items.card - (items.filter (· ≠ empty)).card := by omega
    rw [← amount]
    exact parts.symm
  have same : ((Multiset.range size).map slot).filter (· ≠ empty) = placed.filter (· ≠ empty) :=
    buckets.contents
  rw [whole ((Multiset.range size).map slot), same, Multiset.card_map, Multiset.card_range, ← all]
  exact (whole placed).symm

end Place

end Quickbloom.Data
