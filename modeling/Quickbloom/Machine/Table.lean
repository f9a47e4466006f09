import Mathlib.Logic.Function.Basic
import Quickbloom.Machine.Fault

namespace Quickbloom.Machine

/-! # Writable arrays

An array is the list of its elements. A table is an array given by what it
holds at each index, and a store into it is an update of that function.
-/

variable {α : Type}

def loadAt (cells : List α) (index : Nat) : Checked α :=
  match cells[index]? with
  | some value => .ok value
  | none => .error .outOfBounds

def storeAt (cells : List α) (index : Nat) (value : α) : Checked (List α) :=
  if index < cells.length then .ok (cells.set index value) else .error .outOfBounds

/-- An element of an array that `malloc` made has no value until it is written. -/
def loadWritten (cells : List (Option α)) (index : Nat) : Checked α := do
  match ← loadAt cells index with
  | some value => return value
  | none => fault .outOfBounds

/-- `memset` of the first `count` elements. -/
def clearFirst (zero : α) (count : Nat) (cells : List α) : Checked (List α) :=
  if count ≤ cells.length then .ok (List.replicate count zero ++ cells.drop count)
  else .error .outOfBounds

def tabulate (size : Nat) (content : Nat → α) : List α := (List.range size).map content

section Tables

variable {size index count : Nat} {content other : Nat → α} {value : α}

@[simp] theorem tabulate_length : (tabulate size content).length = size := by
  simp [tabulate]

theorem tabulate_getElem? (bound : index < size) :
    (tabulate size content)[index]? = some (content index) := by
  simp [tabulate, bound]

theorem tabulate_congr (same : ∀ index < size, content index = other index) :
    tabulate size content = tabulate size other := by
  apply List.map_congr_left
  intro index member
  exact same index (List.mem_range.mp member)

theorem eq_tabulate (cells : List α) (default : α) :
    cells = tabulate cells.length fun index => cells.getD index default := by
  apply List.ext_getElem (by simp)
  intro index bound _
  simp [tabulate, bound]

theorem replicate_eq_tabulate : List.replicate size value = tabulate size fun _ => value := by
  simp [tabulate, List.map_const']

theorem loadAt_tabulate (bound : index < size) :
    loadAt (tabulate size content) index = .ok (content index) := by
  simp only [loadAt, tabulate_getElem? bound]

theorem storeAt_tabulate (bound : index < size) :
    storeAt (tabulate size content) index value =
      .ok (tabulate size (Function.update content index value)) := by
  simp only [storeAt, tabulate_length, bound, ↓reduceIte]
  congr 1
  apply List.ext_getElem?
  intro place
  by_cases same : index = place
  · subst same
    simp [tabulate, bound]
  · by_cases inside : place < size
    · simp [tabulate, inside, same, Function.update_of_ne (Ne.symm same)]
    · simp [tabulate, inside]

theorem clearFirst_tabulate {zero : α} (within : count ≤ size) :
    clearFirst zero count (tabulate size content) =
      .ok (tabulate size fun index => if index < count then zero else content index) := by
  simp only [clearFirst, tabulate_length, within, ↓reduceIte]
  congr 1
  apply List.ext_getElem?
  intro place
  by_cases first : place < count
  · have inside : place < size := by omega
    rw [List.getElem?_append_left (by simpa using first), tabulate_getElem? inside]
    simp [first]
  · rw [List.getElem?_append_right (by simpa using Nat.not_lt.mp first), List.getElem?_drop]
    have place_eq : count + (place - count) = place := by omega
    by_cases inside : place < size
    · simp [tabulate, place_eq, first, inside]
    · simp [tabulate, place_eq, inside]

theorem clearFirst_all {zero : α} {cells : List α} (whole : cells.length = count) :
    clearFirst zero count cells = .ok (tabulate count fun _ => zero) := by
  rw [clearFirst, if_pos (Nat.le_of_eq whole.symm), ← whole, List.drop_length, List.append_nil,
    replicate_eq_tabulate]

theorem loadWritten_tabulate {content : Nat → Option α} (bound : index < size)
    (written : content index = some value) :
    loadWritten (tabulate size content) index = .ok value := by
  simp only [loadWritten, loadAt_tabulate bound, written, Checked.ok_bind, Checked.pure_eq_ok]

end Tables

theorem loadAt_eq_ok {cells : List α} {index : Nat} (bound : index < cells.length) :
    loadAt cells index = .ok cells[index] := by
  simp only [loadAt, List.getElem?_eq_getElem bound]

section Front

variable {cells items : List α}

/-- The store that appends to the items written over the front of an array. -/
theorem storeAt_overlay (room : items.length < cells.length) (value : α) :
    storeAt (items ++ cells.drop items.length) items.length value =
      .ok ((items ++ [value]) ++ cells.drop (items ++ [value]).length) := by
  have split := List.drop_eq_getElem_cons room
  generalize cells[items.length] = old at split
  rw [split, List.length_append, List.length_singleton]
  simp [storeAt]

theorem storeAt_overlay_map {β : Type} (content : β → α) {items : List β}
    (room : items.length < cells.length) (item : β) :
    storeAt (items.map content ++ cells.drop items.length) items.length (content item) =
      .ok ((items ++ [item]).map content ++ cells.drop (items ++ [item]).length) := by
  have length : (items.map content).length = items.length := List.length_map _
  have fits : (items.map content).length < cells.length := by omega
  have stored := storeAt_overlay fits (content item)
  rw [length] at stored
  rw [stored, List.map_append]
  simp

theorem prefix_overlay (front : items <+: cells) : cells = items ++ cells.drop items.length := by
  obtain ⟨rest, rfl⟩ := front
  simp

theorem storeAt_prefix (front : items <+: cells) (room : items.length < cells.length) (value : α) :
    ∃ next, storeAt cells items.length value = .ok next ∧ next.length = cells.length ∧
      items ++ [value] <+: next := by
  have stored := storeAt_overlay room value
  rw [← prefix_overlay front] at stored
  refine ⟨_, stored, ?_, List.prefix_append _ _⟩
  simp
  omega

theorem loadAt_prefix {value : α} (front : items ++ [value] <+: cells) :
    loadAt cells items.length = .ok value := by
  obtain ⟨rest, rfl⟩ := front
  simp [loadAt]

end Front

end Quickbloom.Machine
