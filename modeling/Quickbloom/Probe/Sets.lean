import Mathlib.Data.Set.Image

namespace Quickbloom.Probe

/-! # Filters as sets of probed cells

A Bloom filter over keys `η` is a set of cells `ι`: inserting a key adds the
cells the key probes, and a key is reported when all of them are there. What
the words of a concrete filter mean is left to its own interpretation.
-/

universe u v w

variable {η : Type u} {ι : Type v} (probe : η → Set ι)

def insertAll (cells : Set ι) (keys : List η) : Set ι :=
  keys.foldl (fun cells key => cells ∪ probe key) cells

def Reports (cells : Set ι) (key : η) : Prop := probe key ⊆ cells

variable {probe} {cells : Set ι} {keys : List η} {key : η}

@[simp] theorem insertAll_nil : insertAll probe cells [] = cells := rfl

@[simp] theorem insertAll_cons :
    insertAll probe cells (key :: keys) = insertAll probe (cells ∪ probe key) keys := rfl

theorem insertAll_append (first second : List η) :
    insertAll probe cells (first ++ second) = insertAll probe (insertAll probe cells first) second :=
  List.foldl_append

theorem insertAll_map {κ : Type w} (hash : κ → η) (items : List κ) :
    insertAll probe cells (items.map hash) = insertAll (fun item => probe (hash item)) cells items :=
  List.foldl_map

theorem mem_insertAll {cell : ι} :
    cell ∈ insertAll probe cells keys ↔ cell ∈ cells ∨ ∃ key ∈ keys, cell ∈ probe key := by
  induction keys generalizing cells with
  | nil => simp
  | cons head rest ih =>
      rw [insertAll_cons, ih, Set.mem_union, or_assoc]
      simp only [List.mem_cons, exists_eq_or_imp]

theorem insertAll_congr {first second : List η} (same : ∀ key, key ∈ first ↔ key ∈ second) :
    insertAll probe cells first = insertAll probe cells second := by
  ext cell
  simp only [mem_insertAll, same]

theorem insertAll_subset {first second : List η} (sub : first ⊆ second) :
    insertAll probe cells first ⊆ insertAll probe cells second := by
  intro cell present
  rw [mem_insertAll] at present ⊢
  rcases present with before | ⟨inserted, member, probed⟩
  · exact .inl before
  · exact .inr ⟨inserted, sub member, probed⟩

theorem reports_inserted (inserted : key ∈ keys) : Reports probe (insertAll probe cells keys) key :=
  fun _ present => mem_insertAll.mpr (Or.inr ⟨key, inserted, present⟩)

/-- Starting empty, a key is reported exactly if each cell it probes was
probed by an inserted key. -/
theorem reports_insertAll_empty :
    Reports probe (insertAll probe ∅ keys) key ↔
      ∀ cell ∈ probe key, ∃ inserted ∈ keys, cell ∈ probe inserted := by
  simp only [Reports, Set.subset_def, mem_insertAll, Set.mem_empty_iff_false, false_or]

section Coarsening

variable {κ : Type w} {coarse : η → Set κ} {project : ι → κ}

/-- A projection of cells that takes probes to probes takes filters to filters. -/
theorem image_insertAll (covers : ∀ key, project '' probe key = coarse key) :
    project '' insertAll probe cells keys = insertAll coarse (project '' cells) keys := by
  induction keys generalizing cells with
  | nil => rfl
  | cons head rest ih => rw [insertAll_cons, insertAll_cons, ih, Set.image_union, covers]

theorem Reports.image (covers : ∀ key, project '' probe key = coarse key)
    (reported : Reports probe cells key) : Reports coarse (project '' cells) key := by
  rw [Reports, ← covers]
  exact Set.image_mono reported

end Coarsening

end Quickbloom.Probe
