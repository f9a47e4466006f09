import Quickbloom.Fuse.Staging

namespace Quickbloom.Fuse

open Quickbloom.Data Quickbloom.Machine
open Quickbloom.Source (Uint32 Uint64 SizeT)
open Quickbloom.Source.BinaryFuse
open Quickbloom.Source.Xorfuse

/-! # Building the filter from the staged keys -/

/-- What the C library has to do. Requests of `malloc` may still be refused. -/
structure Serves (lib : Libc) : Prop where
  accurate : Accurate lib
  sorts : Permutes lib
  calloc : ∀ count size, lib.calloc count size = true
  realloc : ∀ bytes, lib.realloc bytes = true

/-- A filter that finds its keys, unless its table was left empty. -/
structure Built (filter : BinaryFuse8) (keys : List Uint64) : Prop where
  shaped : ∃ e, Shaped e filter
  table : filter.fingerprints.length = filter.arrayLength.toNat
  answers : (∀ key ∈ keys, binaryFuse8Contain key filter = .ok true) ∨
    ∀ byte ∈ filter.fingerprints, byte = 0

theorem Built.contain {filter : BinaryFuse8} {keys : List Uint64} (built : Built filter keys)
    (key : Uint64) : ∃ found, binaryFuse8Contain key filter = .ok found := by
  obtain ⟨e, shaped⟩ := built.shaped
  have held := eq_tabulate filter.fingerprints 0
  rw [built.table] at held
  exact ⟨_, shaped.contain_eq held key⟩

/-- The keys a build works on: two fixed ones if there are none. -/
def keysOrTwo (keys : List Uint64) : List Uint64 := if keys = [] then [0, 1] else keys

theorem writtenKeys_eq (keys : List Uint64) : writtenKeys (keys.map some) = .ok keys := by
  induction keys with
  | nil => rfl
  | cons key rest ih =>
      rw [writtenKeys] at ih
      rw [writtenKeys, List.map_cons, List.mapM_cons, ih]
      rfl

section Build

variable {lib : Libc} {x : XfT} {keys : List Uint64}

theorem Staged.empty_iff (staged : Staged x keys) : x.bufLen = 0 ↔ keys = [] := by
  have length := staged.len
  rw [← List.length_eq_zero_iff, ← length]
  exact ⟨fun zero => by rw [zero]; rfl, fun zero => BitVec.eq_of_toNat_eq zero⟩

theorem keysOrTwo_admissible (safe : ∀ key ∈ keys, Admissible key) :
    ∀ key ∈ keysOrTwo keys, Admissible key := by
  intro key member
  by_cases none : keys = []
  · simp only [keysOrTwo, none, ↓reduceIte, List.mem_cons, List.not_mem_nil, or_false] at member
    rcases member with rfl | rfl
    · exact admissible_zero
    · exact admissible_one
  · rw [keysOrTwo, if_neg none] at member
    exact safe key member

/-- The two keys that an empty buffer gets. -/
theorem Staged.orTwo (staged : Staged x keys) (serves : Serves lib) :
    ∃ after, pushIfEmpty lib x = .ok after ∧ Staged after (keysOrTwo keys) := by
  by_cases none : keys = []
  · obtain ⟨first, ranFirst, stagedFirst, sameFirst, _⟩ :=
      bufPush_returns staged serves.realloc (by simp [none]) 0
    obtain ⟨second, ranSecond, stagedSecond, _⟩ :=
      bufPush_returns stagedFirst serves.realloc (by simp [none]) 1
    rw [none] at stagedSecond
    refine ⟨second, ?_, ?_⟩
    · rw [pushIfEmpty, if_pos (staged.empty_iff.mpr none), ranFirst, Checked.ok_bind, ranSecond]
    · rw [keysOrTwo, if_pos none]
      exact stagedSecond
  · refine ⟨x, ?_, ?_⟩
    · rw [pushIfEmpty, if_neg fun zero => none (staged.empty_iff.mp zero)]
      rfl
    · rwa [keysOrTwo, if_neg none]

theorem build_returns (staged : Staged x keys) (serves : Serves lib)
    (few : keys.length ≤ 3800000000) (safe : ∀ key ∈ keys, Admissible key)
    (pending : x.built = false) :
    ∃ after next, build lib x = .ok after ∧ Staged after next ∧ after.built = true ∧
      next.length = (keysOrTwo keys).length ∧ (∀ key, key ∈ next ↔ key ∈ keysOrTwo keys) ∧
      Built after.filter next := by
  obtain ⟨ready, pushed, stagedReady⟩ := staged.orTwo serves
  have admissible := keysOrTwo_admissible safe
  have count : (keysOrTwo keys).length ≤ 3800000000 := by
    rw [keysOrTwo]
    split
    · simp
    · exact few
  generalize keysOrTwo keys = held at *
  have length := stagedReady.len
  have cut : (ready.bufLen.setWidth 32 : Uint32).toNat = held.length := by
    rw [BitVec.toNat_setWidth, length, Nat.mod_eq_of_lt (by omega)]
  generalize cut_eq : (ready.bufLen.setWidth 32 : Uint32) = size at cut
  obtain ⟨granted, made, e, allocated, holds⟩ :=
    allocate_returns serves.accurate (show size.toNat ≤ 3800000000 by omega) ready.filter
  have served := holds.served
  rw [serves.calloc] at served
  have zeros := holds.fingerprints
  rw [served, if_pos rfl] at zeros
  have taken : held.take size.toNat = held := by rw [cut, List.take_length]
  have safeHeld : SafeKeys (held.take size.toNat) xorMaxIterations :=
    .inr fun k bound key member => admissible key (taken ▸ member) k bound
  obtain ⟨⟨found, next, filter⟩, ran, populated⟩ := populate_returns holds.shaped
    (by rw [zeros, List.length_replicate]) serves.sorts (by omega) (Nat.le_of_eq cut) safeHeld
  obtain ⟨seed, fingerprints, same, table, failed⟩ := populated.kept
  simp only at same
  have nextLength : next.length = held.length := populated.keys.length
  have members : ∀ key, key ∈ next ↔ key ∈ held := by
    intro key
    have whole := populated.keys.whole key
    rwa [taken, cut, ← nextLength, List.take_length] at whole
  have front := prefix_overlay stagedReady.front
  rw [List.length_map] at front
  have overlay : ready.buf.take ready.bufLen.toNat = held.map some ∧
      ready.buf.drop ready.bufLen.toNat = ready.buf.drop held.length := by
    rw [length, front]
    simp
  refine ⟨{ ready with
    filter
    buf := next.map some ++ ready.buf.drop ready.bufLen.toNat
    built := true }, next, ?_, ⟨?_, length.trans nextLength.symm, List.prefix_append _ _⟩, rfl,
    nextLength, members, ⟨⟨e, ?_⟩, ?_, ?_⟩⟩
  · rw [build, pending, pushed, Checked.ok_bind, cut_eq, allocated, Checked.ok_bind, overlay.1,
      writtenKeys_eq, Checked.ok_bind, ran]
    rfl
  · have whole := stagedReady.cap
    have fits := stagedReady.fits
    simp only [List.length_append, List.length_map, List.length_drop]
    omega
  · rw [same]
    exact { holds.shaped with }
  · simp only [same]
    rw [table, zeros, List.length_replicate]
  · cases found with
    | true =>
        refine .inl fun key member => populated.found rfl key ?_
        rw [taken]
        exact (members key).mp member
    | false =>
        refine .inr fun byte member => ?_
        simp only [same, failed rfl, zeros] at member
        exact List.eq_of_mem_replicate member

end Build

end Quickbloom.Fuse
