import Quickbloom.Machine.Loop
import Quickbloom.Source.BinaryFuse

namespace Quickbloom.Fuse

open Quickbloom.Data Quickbloom.Machine
open Quickbloom.Source (Uint32 Uint64)
open Quickbloom.Source.BinaryFuse

/-! # Removing repeated keys

The comparison cuts the difference of two keys to an `int`, so it is no order
and equal keys need not end up side by side. Whatever order the keys get, the
ones that are kept are the same set.
-/

/-- All that is used of `qsort`. -/
def Permutes (lib : Libc) : Prop := ∀ compare keys, (lib.qsort compare keys).Perm keys

section Dedup

variable {lib : Libc} {sorted : List Uint64} {length i : Nat}

/-- The buffer before index `i` is looked at: the first `kept` elements are
those of the first `i` sorted ones, and from `i - 1` on nothing has changed. -/
structure Compacted (sorted : List Uint64) (length i : Nat) (buffer : List Uint64) (kept : Nat) :
    Prop where
  size : buffer.length = sorted.length
  some : 1 ≤ kept
  few : kept ≤ i
  rest : ∀ place, i ≤ place + 1 → buffer[place]? = sorted[place]?
  members : ∀ key, key ∈ buffer.take kept ↔ key ∈ sorted.take i
  inside : ∀ key, key ∈ buffer.take length → key ∈ sorted.take length

theorem take_set {α : Type} {buffer : List α} {place count : Nat} {value : α} (key : α)
    (member : key ∈ (buffer.set place value).take count) :
    key ∈ buffer.take count ∨ key = value := by
  rw [List.take_set] at member
  exact List.mem_or_eq_of_mem_set member

theorem Compacted.skip {buffer : List Uint64} {kept : Nat}
    (compacted : Compacted sorted length i buffer kept) (positive : 1 ≤ i)
    (bound : i < sorted.length) (same : sorted[i] = sorted[i - 1]) :
    Compacted sorted length (i + 1) buffer kept where
  size := compacted.size
  some := compacted.some
  few := Nat.le_succ_of_le compacted.few
  rest place beyond := compacted.rest place (by omega)
  members key := by
    have before : sorted[i] ∈ sorted.take i := by
      rw [same, List.mem_take_iff_getElem]
      exact ⟨i - 1, by omega, rfl⟩
    rw [compacted.members key, List.take_succ_eq_append_getElem bound, List.mem_append,
      List.mem_singleton]
    refine ⟨Or.inl, ?_⟩
    intro member
    cases member with
    | inl earlier => exact earlier
    | inr last => exact last ▸ before
  inside := compacted.inside

theorem Compacted.keep {buffer : List Uint64} {kept : Nat}
    (compacted : Compacted sorted length i buffer kept) (below : i < length)
    (bound : i < sorted.length) :
    Compacted sorted length (i + 1) (buffer.set kept sorted[i]) (kept + 1) where
  size := by rw [List.length_set, compacted.size]
  some := by omega
  few := Nat.succ_le_succ compacted.few
  rest place beyond := by
    have few := compacted.few
    by_cases here : kept = place
    · have same : place = i := by omega
      subst here
      have size := compacted.size
      simp [same, bound, size]
    · rw [List.getElem?_set_ne here]
      exact compacted.rest place (by omega)
  members key := by
    have size := compacted.size
    have few := compacted.few
    have room : kept < (buffer.set kept sorted[i]).length := by
      rw [List.length_set]
      omega
    rw [List.take_succ_eq_append_getElem room, List.take_succ_eq_append_getElem bound,
      List.mem_append, List.mem_append, List.take_set_of_le (le_refl _), compacted.members key]
    simp
  inside key member := by
    cases take_set key member with
    | inl old => exact compacted.inside key old
    | inr new =>
        rw [new, List.mem_take_iff_getElem]
        exact ⟨i, by omega, rfl⟩

/-- One index of the loop. -/
theorem Compacted.next {state : List Uint64 × Nat}
    (compacted : Compacted sorted length i state.1 state.2) (positive : 1 ≤ i) (below : i < length)
    (enough : length ≤ sorted.length) :
    ∃ next, (do
      let key ← loadAt state.1 i
      let before ← loadAt state.1 (i - 1)
      if key ≠ before then
        let keys ← storeAt state.1 state.2 key
        return (keys, state.2 + 1)
      else return state) = .ok next ∧ Compacted sorted length (i + 1) next.1 next.2 := by
  have size := compacted.size
  have few := compacted.few
  have loaded : ∀ place, i ≤ place + 1 → (bound : place < sorted.length) →
      loadAt state.1 place = .ok sorted[place] := by
    intro place beyond bound
    rw [loadAt, compacted.rest place beyond, List.getElem?_eq_getElem bound]
  rw [loaded i (by omega) (by omega), Checked.ok_bind, loaded (i - 1) (by omega) (by omega),
    Checked.ok_bind]
  by_cases same : sorted[i] = sorted[i - 1]
  · rw [if_neg (not_not_intro same)]
    exact ⟨state, rfl, compacted.skip positive (by omega) same⟩
  · rw [if_pos same, storeAt, if_pos (by omega : state.2 < state.1.length)]
    exact ⟨_, rfl, compacted.keep below (by omega)⟩

theorem sortAndRemoveDup_returns (sorts : Permutes lib) {keys : List Uint64} (positive : 1 ≤ length)
    (enough : length ≤ keys.length) :
    ∃ kept, binaryFuseSortAndRemoveDup lib keys length = .ok kept ∧
      kept.1.length = keys.length ∧ 1 ≤ kept.2 ∧ kept.2 ≤ length ∧
      kept.1.drop length = keys.drop length ∧
      (∀ key, key ∈ kept.1.take kept.2 ↔ key ∈ keys.take length) ∧
      ∀ key, key ∈ kept.1.take length ↔ key ∈ keys.take length := by
  have permuted := sorts binaryFuseCmpfunc (keys.take length)
  generalize arranged : lib.qsort binaryFuseCmpfunc (keys.take length) = front at permuted
  have frontLength : front.length = length := by
    rw [permuted.length_eq, List.length_take]
    omega
  have sortedLength : (front ++ keys.drop length).length = keys.length := by
    rw [List.length_append, List.length_drop, frontLength]
    omega
  have sortedTake : (front ++ keys.drop length).take length = front :=
    List.take_left' frontLength
  have start : Compacted (front ++ keys.drop length) length 1 (front ++ keys.drop length) 1 :=
    { size := rfl, some := le_refl _, few := le_refl _, rest := fun _ _ => rfl
      members := fun _ => Iff.rfl, inside := fun _ member => member }
  obtain ⟨kept, ran, _, compacted⟩ := strideLoop_invariant
    (fun i (state : List Uint64 × Nat) => 1 ≤ i ∧
      Compacted (front ++ keys.drop length) length i state.1 state.2)
    (fun i state below held => by
      obtain ⟨next, ran, compacted⟩ := held.2.next held.1 below (by omega)
      exact ⟨next, ran, by omega, compacted⟩)
    positive (show 1 ≤ 1 ∧ Compacted _ length 1 (front ++ keys.drop length, 1).1
      (front ++ keys.drop length, 1).2 from ⟨le_refl _, start⟩)
  have members := compacted.members
  have inside := compacted.inside
  rw [sortedTake] at members inside
  refine ⟨kept, ?_, compacted.size.trans sortedLength, compacted.some, compacted.few, ?_, ?_, ?_⟩
  · rw [binaryFuseSortAndRemoveDup, arranged]
    exact (congrArg (· >>= fun kept => pure kept.1) ran).trans rfl
  · have sortedDrop : (front ++ keys.drop length).drop length = keys.drop length :=
      List.drop_left' frontLength
    rw [← sortedDrop]
    apply List.ext_getElem?
    intro place
    rw [List.getElem?_drop, List.getElem?_drop]
    exact compacted.rest _ (by omega)
  · intro key
    rw [members, permuted.mem_iff]
  · intro key
    refine ⟨fun member => permuted.mem_iff.mp (inside key member), fun member => ?_⟩
    have early := (members key).mpr (permuted.mem_iff.mpr member)
    exact (List.take_prefix_take_left compacted.few).subset early

end Dedup

end Quickbloom.Fuse
