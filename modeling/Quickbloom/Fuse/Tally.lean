import Quickbloom.Data.XorWord
import Quickbloom.Fuse.Geometry
import Quickbloom.Peeling.Graph
import Mathlib.Algebra.BigOperators.Fin
import Mathlib.Data.BitVec

namespace Quickbloom.Fuse

open Quickbloom.Data Quickbloom.Machine Quickbloom.Peeling
open Quickbloom.Source (Uint32 Uint64)
open Quickbloom.Source.BinaryFuse

/-! # What the two tables hold

A byte of `t2count` is a count modulo 64 over the xor of positions, and a word
of `t2hash` the xor of hashes. Together they are one element of a group, and the
updates of the source add or subtract what one hash has at one of its cells.
-/

abbrev Tally := BitVec 6 × XorWord 2 × XorWord 64

def Tally.count (tally : Tally) : Byte := tally.1 ++ tally.2.1.word

def Tally.hash (tally : Tally) : Uint64 := tally.2.2.word

/-- What a hash has at its cell at one position. -/
def weight (hash : Uint64) (position : Fin 3) : Tally :=
  (1, ⟨BitVec.ofNat 2 position.val⟩, ⟨hash⟩)

section Bytes

theorem count_add (count : BitVec 6) (held position : BitVec 2) :
    ((count ++ held : Byte) + 4) ^^^ position.setWidth 8 = (count + 1) ++ (held ^^^ position) := by
  revert count held position
  decide +kernel

theorem count_sub (count : BitVec 6) (held position : BitVec 2) :
    ((count ++ held : Byte) + -4) ^^^ position.setWidth 8 = (count - 1) ++ (held ^^^ position) := by
  revert count held position
  decide +kernel

theorem count_upper (count : BitVec 6) (held : BitVec 2) :
    (count ++ held : Byte) >>> 2 = count.setWidth 8 := by
  revert count held
  decide +kernel

theorem count_lower (count : BitVec 6) (held : BitVec 2) :
    (count ++ held : Byte) &&& 3 = held.setWidth 8 := by
  revert count held
  decide +kernel

theorem count_empty (count : BitVec 6) (held : BitVec 2) :
    (count ++ held : Byte) < 4 ↔ count = 0 := by
  revert count held
  decide +kernel

theorem count_pair (count : BitVec 6) (held : BitVec 2) :
    (count ++ held : Byte) = 8 ↔ count = 2 ∧ held = 0 := by
  revert count held
  decide +kernel

end Bytes

def Tables.of (capacity : Nat) (tally : Nat → Tally) : Tables :=
  { t2count := tabulate capacity fun place => (tally place).count
    t2hash := tabulate capacity fun place => (tally place).hash }

theorem tables_zero (capacity : Nat) : Tables.of capacity (fun _ => 0) =
    { t2count := tabulate capacity fun _ => 0, t2hash := tabulate capacity fun _ => 0 } := by
  have count : Tally.count 0 = 0 := by decide
  have hash : Tally.hash 0 = 0 := by decide
  simp only [Tables.of, count, hash]

section Toggle

variable {capacity place : Nat} {tally : Nat → Tally} {hash : Uint64} {position : Fin 3}

theorem toggle_tally (bound : place < capacity) {amount mark : Byte} {next : Tally}
    (counts : ((tally place).count + amount) ^^^ mark = next.count)
    (hashes : (tally place).hash ^^^ hash = next.hash) :
    (Tables.of capacity tally).toggle place amount mark hash =
      .ok (Tables.of capacity (Function.update tally place next)) := by
  have updatedCounts : (fun other => (Function.update tally place next other).count) =
      Function.update (fun other => (tally other).count) place next.count := by
    funext other
    by_cases same : other = place
    · subst same
      simp
    · simp [same]
  have updatedHashes : (fun other => (Function.update tally place next other).hash) =
      Function.update (fun other => (tally other).hash) place next.hash := by
    funext other
    by_cases same : other = place
    · subst same
      simp
    · simp [same]
  simp only [Tables.toggle, Tables.of, loadAt_tabulate bound, storeAt_tabulate bound,
    Checked.ok_bind, Checked.pure_eq_ok, counts, hashes, updatedCounts, updatedHashes]

theorem position_byte (position : Fin 3) :
    BitVec.ofNat 8 position.val = (BitVec.ofNat 2 position.val).setWidth 8 := by
  revert position
  decide

theorem toggle_add (bound : place < capacity) :
    (Tables.of capacity tally).toggle place 4 (BitVec.ofNat 8 position.val) hash =
      .ok (Tables.of capacity
        (Function.update tally place (tally place + weight hash position))) := by
  apply toggle_tally bound
  · rw [position_byte]
    exact count_add _ _ _
  · rfl

theorem toggle_sub (bound : place < capacity) :
    (Tables.of capacity tally).toggle place (-4) (BitVec.ofNat 8 position.val) hash =
      .ok (Tables.of capacity
        (Function.update tally place (tally place - weight hash position))) := by
  apply toggle_tally bound
  · rw [position_byte]
    exact count_sub _ _ _
  · rfl

end Toggle

section Edge

variable {e : Nat} {filter : BinaryFuse8}

theorem share_eq (hash : Uint64) (place : Nat) :
    share (cell filter) weight hash place =
      (if cell filter hash 0 = place then weight hash 0 else 0) +
      (if cell filter hash 1 = place then weight hash 1 else 0) +
      (if cell filter hash 2 = place then weight hash 2 else 0) := by
  rw [share, Fin.sum_univ_three]

/-- Updates at the three cells of a hash add up to its share everywhere. -/
theorem Shaped.update_three (shaped : Shaped e filter) (hash : Uint64) (tally : Nat → Tally)
    {step : Tally → Tally → Tally} (zero : ∀ held, step held 0 = held) :
    (fun place => step (tally place) (share (cell filter) weight hash place)) =
      Function.update (Function.update (Function.update tally
        (cell filter hash 0) (step (tally (cell filter hash 0)) (weight hash 0)))
        (cell filter hash 1) (step (tally (cell filter hash 1)) (weight hash 1)))
        (cell filter hash 2) (step (tally (cell filter hash 2)) (weight hash 2)) := by
  have distinct := shaped.cell_injective hash
  funext place
  by_cases third : place = cell filter hash 2
  · subst third
    rw [Function.update_self, share_cell distinct]
  · rw [Function.update_of_ne third]
    by_cases second : place = cell filter hash 1
    · subst second
      rw [Function.update_self, share_cell distinct]
    · rw [Function.update_of_ne second]
      by_cases first : place = cell filter hash 0
      · subst first
        rw [Function.update_self, share_cell distinct]
      · rw [Function.update_of_ne first, share_eq, if_neg (Ne.symm first),
          if_neg (Ne.symm second), if_neg (Ne.symm third), add_zero, add_zero, zero]

/-- The statements of the source at the three cells, one after the other. -/
theorem Shaped.toggle_three (shaped : Shaped e filter) {hash : Uint64} {amount : Byte}
    {step : Tally → Tally → Tally} (zero : ∀ held, step held 0 = held)
    (toggles : ∀ tally position, (Tables.of filter.arrayLength.toNat tally).toggle
        (cell filter hash position) amount (BitVec.ofNat 8 position.val) hash =
      .ok (Tables.of filter.arrayLength.toNat (Function.update tally (cell filter hash position)
        (step (tally (cell filter hash position)) (weight hash position)))))
    (tally : Nat → Tally) {β : Type} (next : Tables → Checked β) :
    ((Tables.of filter.arrayLength.toNat tally).toggle
        (binaryFuse8Hash 0 hash filter).toNat amount 0 hash >>= fun tables =>
      tables.toggle (binaryFuse8Hash 1 hash filter).toNat amount 1 hash >>= fun tables =>
      tables.toggle (binaryFuse8Hash 2 hash filter).toNat amount 2 hash >>= next) =
    next (Tables.of filter.arrayLength.toNat fun place =>
      step (tally place) (share (cell filter) weight hash place)) := by
  have distinct := shaped.cell_injective hash
  have second : cell filter hash 1 ≠ cell filter hash 0 := fun same => by cases distinct same
  have third : cell filter hash 2 ≠ cell filter hash 0 := fun same => by cases distinct same
  have apart : cell filter hash 2 ≠ cell filter hash 1 := fun same => by cases distinct same
  have at0 : ∀ tally, (Tables.of filter.arrayLength.toNat tally).toggle
    (binaryFuse8Hash 0 hash filter).toNat amount 0 hash = _ := fun tally => toggles tally 0
  have at1 : ∀ tally, (Tables.of filter.arrayLength.toNat tally).toggle
    (binaryFuse8Hash 1 hash filter).toNat amount 1 hash = _ := fun tally => toggles tally 1
  have at2 : ∀ tally, (Tables.of filter.arrayLength.toNat tally).toggle
    (binaryFuse8Hash 2 hash filter).toNat amount 2 hash = _ := fun tally => toggles tally 2
  rw [at0, Checked.ok_bind, at1, Checked.ok_bind, at2, Checked.ok_bind,
    Function.update_of_ne second, Function.update_of_ne apart, Function.update_of_ne third,
    ← shaped.update_three hash tally zero]

end Edge

end Quickbloom.Fuse
