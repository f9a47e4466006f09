import Mathlib.Algebra.BigOperators.Group.Finset.Basic
import Mathlib.Algebra.BigOperators.Group.Multiset.Basic
import Mathlib.Algebra.Order.BigOperators.Group.Multiset
import Mathlib.Algebra.Order.Group.Nat
import Mathlib.Data.Fintype.Basic

namespace Quickbloom.Peeling

/-! # Edges over cells

Every edge of a hypergraph has one cell at each of finitely many positions. The
load of a cell sums what the edges of a collection put at it, and its degree
counts the positions at which they have it.
-/

variable {ε ι κ M : Type} [Fintype ι] [DecidableEq κ] [AddCommMonoid M]

section Defs

variable (cell : ε → ι → κ) (weight : ε → ι → M)

/-- What one edge puts at a cell. -/
def share (edge : ε) (place : κ) : M :=
  ∑ position, if cell edge position = place then weight edge position else 0

def load (edges : Multiset ε) (place : κ) : M :=
  (edges.map fun edge => share cell weight edge place).sum

def degree (edges : Multiset ε) (place : κ) : Nat := load cell (fun _ _ => 1) edges place

end Defs

section Share

variable {cell : ε → ι → κ} {weight : ε → ι → M} {edge : ε} {place : κ} {position : ι}

theorem share_apart (apart : ∀ position, cell edge position ≠ place) :
    share cell weight edge place = 0 := by
  apply Finset.sum_eq_zero
  intro position _
  rw [if_neg (apart position)]

theorem share_cell (distinct : Function.Injective (cell edge)) :
    share cell weight edge (cell edge position) = weight edge position := by
  rw [share, Finset.sum_eq_single position]
  · rw [if_pos rfl]
  · intro other _ differs
    rw [if_neg fun same => differs (distinct same)]
  · intro absent
    exact absurd (Finset.mem_univ position) absent

theorem share_one_eq_zero :
    share cell (fun _ _ => (1 : Nat)) edge place = 0 ↔ ∀ position, cell edge position ≠ place := by
  simp [share]

end Share

section Load

variable {cell : ε → ι → κ} {weight : ε → ι → M} {edges : Multiset ε} {edge : ε} {place : κ}

@[simp] theorem load_zero : load cell weight 0 place = 0 := rfl

theorem load_cons :
    load cell weight (edge ::ₘ edges) place =
      share cell weight edge place + load cell weight edges place := by
  simp [load]

theorem degree_cons :
    degree cell (edge ::ₘ edges) place =
      share cell (fun _ _ => 1) edge place + degree cell edges place := load_cons

theorem degree_eq_zero :
    degree cell edges place = 0 ↔ ∀ edge ∈ edges, ∀ position, cell edge position ≠ place := by
  rw [degree, load, Multiset.sum_eq_zero_iff]
  simp [share_one_eq_zero]

theorem load_of_degree_zero (none : degree cell edges place = 0) :
    load cell weight edges place = 0 := by
  rw [load]
  apply Multiset.sum_eq_zero
  intro amount member
  obtain ⟨edge, inside, rfl⟩ := Multiset.mem_map.mp member
  exact share_apart (degree_eq_zero.mp none edge inside)

theorem degree_mono (cell : ε → ι → κ) (place : κ) {fewer : Multiset ε} (within : fewer ≤ edges) :
    degree cell fewer place ≤ degree cell edges place := by
  obtain ⟨rest, rfl⟩ := Multiset.le_iff_exists_add.mp within
  simp [degree, load]

variable [DecidableEq ε]

theorem load_erase (member : edge ∈ edges) :
    share cell weight edge place + load cell weight (edges.erase edge) place =
      load cell weight edges place := by
  rw [← load_cons, Multiset.cons_erase member]

theorem degree_erase (cell : ε → ι → κ) (place : κ) (member : edge ∈ edges) :
    share cell (fun _ _ => 1) edge place + degree cell (edges.erase edge) place =
      degree cell edges place := load_erase member

/-- A cell of degree one has one edge left, and carries what that edge puts there. -/
theorem degree_one (weight : ε → ι → M) (distinct : ∀ edge, Function.Injective (cell edge))
    (single : degree cell edges place = 1) :
    ∃ edge ∈ edges, ∃ position, cell edge position = place ∧
      degree cell (edges.erase edge) place = 0 ∧
      load cell weight edges place = weight edge position := by
  have touched : ∃ edge ∈ edges, ∃ position, cell edge position = place := by
    by_contra untouched
    push Not at untouched
    have zero := degree_eq_zero.mpr untouched
    omega
  obtain ⟨edge, member, position, rfl⟩ := touched
  have one : share cell (fun _ _ => 1) edge (cell edge position) = 1 := share_cell (distinct edge)
  have parts := degree_erase cell (cell edge position) member
  have rest : degree cell (edges.erase edge) (cell edge position) = 0 := by omega
  refine ⟨edge, member, position, rfl, rest, ?_⟩
  rw [← load_erase member, share_cell (distinct edge), load_of_degree_zero rest, add_zero]

end Load

end Quickbloom.Peeling
