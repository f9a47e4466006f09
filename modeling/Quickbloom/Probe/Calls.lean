import Quickbloom.Machine.Fault
import Quickbloom.Probe.Sets

namespace Quickbloom.Probe

open Quickbloom.Machine

/-! # Code that implements a filter

The states of a component stand for sets of cells. It is enough to know what
one insert and one query do: runs of inserts and counting queries follow.
-/

section Count

variable {η : Type} {contains : η → Checked Nat} {found : η → Nat}

/-- The body of a bulk query: one more hit if the single query is nonzero. -/
def addHit (hits : Nat) (query : Checked Nat) : Checked Nat := do
  let found ← query
  return if found ≠ 0 then hits + 1 else hits

theorem foldlM_count (answers : ∀ key, contains key = .ok (found key)) (hits : Nat)
    (keys : List η) :
    keys.foldlM (fun hits key => addHit hits (contains key)) hits =
      .ok (hits + keys.countP fun key => found key ≠ 0) := by
  induction keys generalizing hits with
  | nil => rfl
  | cons key rest ih =>
      rw [List.foldlM_cons, addHit, answers]
      simp only [Checked.ok_bind, Checked.pure_eq_ok, ih, List.countP_cons]
      by_cases hit : found key = 0
      · simp [hit]
      · simp [hit]
        omega

theorem countP_single {key : η} (small : found key ≤ 1) :
    [key].countP (fun key => found key ≠ 0) = found key := by
  rw [List.countP_singleton]
  by_cases hit : found key = 0
  · simp [hit]
  · have one : found key = 1 := by omega
    simp [one]

end Count

variable {σ η ι : Type} {probe : η → Set ι} {Valid : σ → Prop} {cells : σ → Set ι}
  {insert : σ → η → Checked σ} {contains : σ → η → Checked Nat} {state : σ}

/-- On valid states an insert adds the cells that its key probes, and a query
returns 1 or 0 by whether the key is reported. -/
structure Implements (probe : η → Set ι) (Valid : σ → Prop) (cells : σ → Set ι)
    (insert : σ → η → Checked σ) (contains : σ → η → Checked Nat) : Prop where
  insert : ∀ state key, Valid state → ∃ after, insert state key = .ok after ∧ Valid after ∧
    cells after = cells state ∪ probe key
  contains : ∀ state key, Valid state → ∃ found, contains state key = .ok found ∧ found ≤ 1 ∧
    (found ≠ 0 ↔ Reports probe (cells state) key)

theorem Implements.insertEach (implements : Implements probe Valid cells insert contains)
    (valid : Valid state) (keys : List η) :
    ∃ after, keys.foldlM insert state = .ok after ∧ Valid after ∧
      cells after = insertAll probe (cells state) keys := by
  induction keys generalizing state with
  | nil => exact ⟨state, rfl, valid, rfl⟩
  | cons key rest ih =>
      obtain ⟨next, inserted, nextValid, nextCells⟩ := implements.insert state key valid
      obtain ⟨after, ran, afterValid, afterCells⟩ := ih nextValid
      refine ⟨after, ?_, afterValid, ?_⟩
      · rw [List.foldlM_cons, inserted]
        exact ran
      · rw [afterCells, nextCells]
        rfl

theorem Implements.answers (implements : Implements probe Valid cells insert contains)
    (valid : Valid state) :
    ∃ found : η → Nat, ∀ key, contains state key = .ok (found key) ∧ found key ≤ 1 ∧
      (found key ≠ 0 ↔ Reports probe (cells state) key) :=
  Classical.skolem.mp fun key => implements.contains state key valid

end Quickbloom.Probe
