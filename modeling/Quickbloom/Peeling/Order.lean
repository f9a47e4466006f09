import Quickbloom.Peeling.Graph

namespace Quickbloom.Peeling

/-! # Peeling orders

A peeling order takes the edges one after the other, each at a cell that no
later edge has. Solved from its end it balances every edge, since a later edge
never looks at a cell that is set after it.
-/

variable {ε ι κ : Type}

section Defs

variable (cell : ε → ι → κ)

def PeelOrder (order : List (ε × ι)) : Prop :=
  order.Pairwise fun earlier later => ∀ position, cell later.1 position ≠ cell earlier.1 earlier.2

/-- The edges of an order, each as often as it is taken. -/
def taken (order : List (ε × ι)) : Multiset ε := (order.map Prod.fst : List ε)

def Peelable (edges : Multiset ε) : Prop :=
  ∃ order, PeelOrder cell order ∧ taken order = edges

end Defs

@[simp] theorem taken_nil : taken ([] : List (ε × ι)) = 0 := rfl

@[simp] theorem taken_cons {pair : ε × ι} {order : List (ε × ι)} :
    taken (pair :: order) = pair.1 ::ₘ taken order := rfl

@[simp] theorem taken_append {first second : List (ε × ι)} :
    taken (first ++ second) = taken first + taken second := by
  simp [taken]

theorem mem_taken {edge : ε} {order : List (ε × ι)} :
    edge ∈ taken order ↔ ∃ position, (edge, position) ∈ order := by
  simp [taken]

theorem taken_card {order : List (ε × ι)} : (taken order).card = order.length := by
  simp [taken]

section Solve

variable {cell : ε → ι → κ} {G : Type} {balanced : (κ → G) → ε → Prop}
  {assign : (κ → G) → ε × ι → κ → G}

/-- Assigning from the end of a peeling order balances all its edges. -/
theorem solve_balanced
    (local_ : ∀ {edge values others}, (∀ position, values (cell edge position) =
      others (cell edge position)) → balanced values edge → balanced others edge)
    (frame : ∀ {values pair place}, place ≠ cell pair.1 pair.2 → assign values pair place = values place)
    (balances : ∀ {values pair}, balanced (assign values pair) pair.1)
    {order : List (ε × ι)} (peels : PeelOrder cell order) (values : κ → G) :
    ∀ pair ∈ order, balanced (order.foldr (fun pair values => assign values pair) values) pair.1 := by
  induction order with
  | nil =>
      intro pair member
      cases member
  | cons first rest ih =>
      obtain ⟨apart, peelsRest⟩ := List.pairwise_cons.mp peels
      intro pair member
      cases member with
      | head => exact balances
      | tail _ later =>
          have kept : ∀ position,
              rest.foldr (fun pair values => assign values pair) values (cell pair.1 position) =
              assign (rest.foldr (fun pair values => assign values pair) values) first
                (cell pair.1 position) :=
            fun position => (frame (apart pair later position)).symm
          exact local_ kept (ih peelsRest pair later)

end Solve

section Core

variable [Fintype ι] [DecidableEq κ] [DecidableEq ε] {cell : ε → ι → κ}

/-- Edges that leave no cell with degree one are none at all, if they belong to
a peelable collection: the first of them in its order would have such a cell. -/
theorem core_empty (distinct : ∀ edge, Function.Injective (cell edge)) {core edges : Multiset ε}
    (peelable : Peelable cell edges) (within : core ≤ edges)
    (stuck : ∀ place, degree cell core place ≠ 1) : core = 0 := by
  obtain ⟨order, peels, rfl⟩ := peelable
  induction order with
  | nil => exact Multiset.le_zero.mp within
  | cons first rest ih =>
      obtain ⟨apart, peelsRest⟩ := List.pairwise_cons.mp peels
      by_cases member : first.1 ∈ core
      · have later : core.erase first.1 ≤ taken rest := by
          simpa using Multiset.erase_le_erase first.1 within
        have single : share cell (fun _ _ => 1) first.1 (cell first.1 first.2) = 1 :=
          share_cell (distinct first.1)
        have untouched : degree cell (core.erase first.1) (cell first.1 first.2) = 0 := by
          rw [degree_eq_zero]
          intro edge inside position
          obtain ⟨taken, found⟩ := mem_taken.mp (Multiset.mem_of_le later inside)
          exact apart (edge, taken) found position
        have total := degree_erase cell (cell first.1 first.2) member
        exact absurd (by omega) (stuck (cell first.1 first.2))
      · exact ih peelsRest ((Multiset.le_cons_of_notMem member).mp within)

end Core

end Quickbloom.Peeling
