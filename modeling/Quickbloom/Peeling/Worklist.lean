import Quickbloom.Peeling.Order

namespace Quickbloom.Peeling

/-! # Peeling with a worklist

The worklist holds cells that have at most one edge left, among them every cell
with exactly one. Taking the edge of such a cell off lowers the degrees of its
other cells, and those that come down to one join the list.
-/

variable {ε ι κ : Type} [Fintype ι] [DecidableEq κ] {cell : ε → ι → κ}

/-- `left` is what the order `stack` has not yet taken of `edges`, and no edge
left has a cell at which one was taken. -/
structure Progress (cell : ε → ι → κ) (edges left : Multiset ε) (stack : List (ε × ι)) : Prop where
  peels : PeelOrder cell stack
  parts : taken stack + left = edges
  cleared : ∀ pair ∈ stack, degree cell left (cell pair.1 pair.2) = 0

structure Worklist (cell : ε → ι → κ) (left : Multiset ε) (queue : List κ) : Prop where
  nodup : queue.Nodup
  small : ∀ place ∈ queue, degree cell left place ≤ 1
  complete : ∀ place, degree cell left place = 1 → place ∈ queue

section Progress

variable {edges left : Multiset ε} {stack : List (ε × ι)} {edge : ε} {position : ι}

theorem Progress.start : Progress cell edges edges [] where
  peels := List.Pairwise.nil
  parts := by simp
  cleared := by simp

theorem Progress.length (progress : Progress cell edges left stack) :
    stack.length + left.card = edges.card := by
  rw [← progress.parts, Multiset.card_add, taken_card]

theorem Progress.within (progress : Progress cell edges left stack) : left ≤ edges :=
  progress.parts ▸ Multiset.le_add_left left (taken stack)

variable [DecidableEq ε]

theorem Progress.take (progress : Progress cell edges left stack) (member : edge ∈ left)
    (last : degree cell (left.erase edge) (cell edge position) = 0) :
    Progress cell edges (left.erase edge) (stack ++ [(edge, position)]) where
  peels := by
    refine List.pairwise_append.mpr ⟨progress.peels, List.pairwise_singleton _ _, ?_⟩
    intro earlier inside later added
    rw [List.mem_singleton] at added
    subst added
    exact degree_eq_zero.mp (progress.cleared earlier inside) edge member
  parts := by
    calc taken (stack ++ [(edge, position)]) + left.erase edge
        = taken stack + edge ::ₘ left.erase edge := by
          simp [add_assoc, Multiset.singleton_add, -Multiset.add_cons]
      _ = edges := by rw [Multiset.cons_erase member, progress.parts]
  cleared := by
    intro pair inside
    rcases List.mem_append.mp inside with earlier | added
    · have none := progress.cleared pair earlier
      have fewer := degree_mono cell (cell pair.1 pair.2) (Multiset.erase_le edge left)
      omega
    · rw [List.mem_singleton] at added
      subst added
      exact last

/-- A worklist that has run empty took every edge exactly if there is an order
that takes them all. -/
theorem Progress.finished (distinct : ∀ edge, Function.Injective (cell edge))
    (progress : Progress cell edges left stack) (empty : Worklist cell left []) :
    stack.length = edges.card ↔ Peelable cell edges := by
  have total := progress.length
  refine ⟨?_, ?_⟩
  · intro all
    have none : left = 0 := Multiset.card_eq_zero.mp (by omega)
    refine ⟨stack, progress.peels, ?_⟩
    rw [← progress.parts, none, add_zero]
  · intro peelable
    have none : left = 0 := by
      apply core_empty distinct peelable progress.within
      intro place single
      cases empty.complete place single
    rw [none] at total
    simpa using total

end Progress

section Worklist

variable {left : Multiset ε} {queue : List κ} {place : κ}

/-- A cell whose edge went with another cell leaves the list. -/
theorem Worklist.skip (work : Worklist cell left (queue ++ [place]))
    (none : degree cell left place ≠ 1) : Worklist cell left queue where
  nodup := (List.nodup_append.mp work.nodup).1
  small other inside := work.small other (List.mem_append_left _ inside)
  complete other single := by
    have inside := work.complete other single
    simp only [List.mem_append, List.mem_singleton] at inside
    exact inside.resolve_right fun same => none (same ▸ single)

/-- The edge at `place` is taken: of its other cells `others`, those that had
two edges have one left and are put on the list. -/
theorem Worklist.take [DecidableEq ε] (work : Worklist cell left (queue ++ [place])) {edge : ε}
    (member : edge ∈ left) (last : degree cell (left.erase edge) place = 0) {others : List κ}
    (distinct : others.Nodup) (apart : place ∉ others)
    (cells : ∀ other, share cell (fun _ _ => 1) edge other =
      if other = place ∨ other ∈ others then 1 else 0) :
    Worklist cell (left.erase edge)
      (queue ++ others.filter fun other => degree cell left other = 2) := by
  have lower : ∀ other, degree cell left other =
      (if other = place ∨ other ∈ others then 1 else 0) + degree cell (left.erase edge) other := by
    intro other
    rw [← cells other, degree_erase cell other member]
  have queued : ∀ other ∈ queue, degree cell left other ≤ 1 := fun other inside =>
    work.small other (List.mem_append_left _ inside)
  refine ⟨?_, ?_, ?_⟩
  · refine List.nodup_append.mpr ⟨(List.nodup_append.mp work.nodup).1, distinct.filter _, ?_⟩
    intro old inside new added same
    subst same
    have two : degree cell left old = 2 := by simpa using (List.mem_filter.mp added).2
    have few := queued old inside
    omega
  · intro other inside
    have now := lower other
    rcases List.mem_append.mp inside with old | new
    · have few := queued other old
      omega
    · obtain ⟨among, two⟩ := List.mem_filter.mp new
      have two : degree cell left other = 2 := by simpa using two
      rw [if_pos (Or.inr among)] at now
      omega
  · intro other single
    have now := lower other
    by_cases among : other ∈ others
    · rw [if_pos (Or.inr among)] at now
      have two : degree cell left other = 2 := by omega
      exact List.mem_append_right _ (List.mem_filter.mpr ⟨among, by simpa using two⟩)
    · have different : other ≠ place := by
        intro same
        subst same
        omega
      rw [if_neg (by simp [among, different])] at now
      have inside := work.complete other (by omega)
      simp only [List.mem_append, List.mem_singleton] at inside
      exact List.mem_append_left _ (inside.resolve_right different)

end Worklist

end Quickbloom.Peeling
