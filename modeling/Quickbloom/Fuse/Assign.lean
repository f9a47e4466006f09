import Quickbloom.Fuse.PeelLoop

namespace Quickbloom.Fuse

open Quickbloom.Data Quickbloom.Machine Quickbloom.Peeling
open Quickbloom.Source (Uint32 Uint64)
open Quickbloom.Source.BinaryFuse

/-! # Assigning fingerprints

The hashes are taken off the stack from its end. Each fingerprint is set last of
the three that its hash looks at.
-/

/-- What a query tests: the three fingerprints give that of the hash. -/
def Balanced (filter : BinaryFuse8) (values : Nat → Byte) (hash : Uint64) : Prop :=
  binaryFuse8Fingerprint hash ^^^ (values (cell filter hash 0) ^^^ values (cell filter hash 1) ^^^
    values (cell filter hash 2)) = 0

instance (filter : BinaryFuse8) (values : Nat → Byte) (hash : Uint64) :
    Decidable (Balanced filter values hash) :=
  inferInstanceAs (Decidable (_ = (0 : Byte)))

def assignAt (filter : BinaryFuse8) (values : Nat → Byte) (pair : Uint64 × Fin 3) : Nat → Byte :=
  Function.update values (cell filter pair.1 pair.2)
    (binaryFuse8Fingerprint pair.1 ^^^ values (cell filter pair.1 (pair.2 + 1)) ^^^
      values (cell filter pair.1 (pair.2 + 2)))

def solved (filter : BinaryFuse8) (values : Nat → Byte) (stack : List (Uint64 × Fin 3)) :
    Nat → Byte :=
  stack.foldr (fun pair values => assignAt filter values pair) values

section Solve

variable {e : Nat} {filter : BinaryFuse8} {values : Nat → Byte}

theorem xor_rotate (bytes : Fin 3 → Byte) (position : Fin 3) :
    bytes 0 ^^^ bytes 1 ^^^ bytes 2 =
      bytes position ^^^ (bytes (position + 1) ^^^ bytes (position + 2)) := by
  fin_cases position
  · exact BitVec.xor_assoc _ _ _
  · change _ = bytes 1 ^^^ (bytes 2 ^^^ bytes 0)
    rw [BitVec.xor_assoc, BitVec.xor_comm, BitVec.xor_assoc]
  · change _ = bytes 2 ^^^ (bytes 0 ^^^ bytes 1)
    rw [BitVec.xor_comm]

theorem Shaped.assign_balanced (shaped : Shaped e filter) (pair : Uint64 × Fin 3) :
    Balanced filter (assignAt filter values pair) pair.1 := by
  obtain ⟨hash, position⟩ := pair
  obtain ⟨apart1, apart2, _⟩ := position_apart position
  have kept : ∀ other, position ≠ other →
      assignAt filter values (hash, position) (cell filter hash other) =
        values (cell filter hash other) := by
    intro other different
    exact Function.update_of_ne
      (fun same => different (shaped.cell_injective hash same).symm) _ _
  have placed : assignAt filter values (hash, position) (cell filter hash position) =
      binaryFuse8Fingerprint hash ^^^ values (cell filter hash (position + 1)) ^^^
        values (cell filter hash (position + 2)) := Function.update_self _ _ _
  have turned := xor_rotate
    (fun other => assignAt filter values (hash, position) (cell filter hash other)) position
  rw [Balanced, turned, placed, kept _ apart1, kept _ apart2]
  generalize values (cell filter hash (position + 1)) = first
  generalize values (cell filter hash (position + 2)) = second
  rw [BitVec.xor_assoc (binaryFuse8Fingerprint hash), BitVec.xor_assoc, BitVec.xor_self,
    BitVec.xor_zero, BitVec.xor_self]
  rfl

/-- A peeling order solved from its end balances each of its hashes. -/
theorem Shaped.solved_balanced (shaped : Shaped e filter) {stack : List (Uint64 × Fin 3)}
    (peels : PeelOrder (cell filter) stack) (values : Nat → Byte) :
    ∀ pair ∈ stack, Balanced filter (solved filter values stack) pair.1 :=
  solve_balanced
    (fun same balanced => by rwa [Balanced, ← same, ← same, ← same])
    (fun apart => Function.update_of_ne apart _ _)
    (fun {_ pair} => shaped.assign_balanced pair) peels values

end Solve

section Loop

variable {e : Nat} {filter : BinaryFuse8} {stack : List (Uint64 × Fin 3)} {work : Workspace}

/-- The array `h012` read at a position and at the two behind it. -/
theorem rotated (filter : BinaryFuse8) (hash : Uint64) (position : Fin 3) :
    let h0 := (binaryFuse8Hash 0 hash filter).toNat
    let h1 := (binaryFuse8Hash 1 hash filter).toNat
    let h2 := (binaryFuse8Hash 2 hash filter).toNat
    let found : Byte := BitVec.ofNat 8 position.val
    loadAt [h0, h1, h2, h0, h1] found.toNat = .ok (cell filter hash position) ∧
      loadAt [h0, h1, h2, h0, h1] (found.toNat + 1) = .ok (cell filter hash (position + 1)) ∧
      loadAt [h0, h1, h2, h0, h1] (found.toNat + 2) = .ok (cell filter hash (position + 2)) := by
  fin_cases position <;> exact ⟨rfl, rfl, rfl⟩

theorem load_front {α β : Type} {content : β → α} {items : List β} {cells : List α}
    (front : items.map content <+: cells) {i : Nat} (bound : i < items.length) :
    loadAt cells i = .ok (content items[i]) := by
  obtain ⟨rest, rfl⟩ := front
  have inside : i < (items.map content ++ rest).length := by
    simp only [List.length_append, List.length_map]
    omega
  rw [loadAt_eq_ok inside, List.getElem_append_left (by simpa using bound), List.getElem_map]

/-- The counter of the loop when `count` hashes of the stack are left. -/
def counter (count : Nat) : Uint32 := BitVec.ofNat 32 count - 1

theorem counter_succ {count : Nat} (bound : count < 2 ^ 32 - 1) :
    (counter (count + 1)).toNat = count ∧ counter (count + 1) - 1 = counter count := by
  have same : counter (count + 1) = BitVec.ofNat 32 count := by
    rw [counter, BitVec.ofNat_add]
    exact BitVec.add_sub_cancel _ _
  refine ⟨?_, by rw [same, counter]⟩
  rw [same, BitVec.toNat_ofNat]
  omega

theorem counter_zero : (counter 0).toNat = 2 ^ 32 - 1 := by decide

theorem counter_test {count total : Nat} (within : count ≤ total) (short : total < 2 ^ 32) :
    decide (counter count < (BitVec.ofNat 32 total : Uint32)) = decide (0 < count) := by
  have size : (BitVec.ofNat 32 total : Uint32).toNat = total := by
    rw [BitVec.toNat_ofNat, Nat.mod_eq_of_lt short]
  apply decide_eq_decide.mpr
  rw [BitVec.lt_def, size]
  cases count with
  | zero =>
      rw [counter_zero]
      omega
  | succ count =>
      rw [(counter_succ (by omega)).1]
      omega

/-- One step takes the hash before the part of the stack that is done. -/
theorem assignNext_eq (shaped : Shaped e filter) (values : Nat → Byte)
    (order : stack.map Prod.fst <+: work.reverseOrder) (found : stack.map foundByte <+: work.reverseH)
    {count : Nat} (bound : count < stack.length) (short : stack.length < 2 ^ 32) :
    assignNext filter work (tabulate filter.arrayLength.toNat
        (solved filter values (stack.drop (count + 1))), counter (count + 1)) =
      .ok (tabulate filter.arrayLength.toNat (solved filter values (stack.drop count)),
        counter count) := by
  obtain ⟨index, before⟩ := counter_succ (show count < 2 ^ 32 - 1 by omega)
  have hashed : loadAt work.reverseOrder count = .ok stack[count].1 := load_front order bound
  have positioned : loadWritten work.reverseH count =
      .ok (BitVec.ofNat 8 stack[count].2.val) := by
    have loaded := load_front found bound
    simp only [loadWritten, loaded, foundByte, Checked.ok_bind, Checked.pure_eq_ok]
  obtain ⟨target, first, second⟩ := rotated filter stack[count].1 stack[count].2
  have inside := shaped.cell_lt stack[count].1
  have step : solved filter values (stack.drop count) =
      assignAt filter (solved filter values (stack.drop (count + 1))) stack[count] := by
    rw [List.drop_eq_getElem_cons bound]
    rfl
  simp only [assignNext, index, hashed, positioned, target, first, second, before, step, assignAt,
    loadAt_tabulate (inside _), storeAt_tabulate (inside _), Checked.ok_bind, Checked.pure_eq_ok]

/-- The loop over the stack, which is at the front of the two arrays. -/
theorem assignFingerprints_eq (shaped : Shaped e filter) (values : Nat → Byte)
    (held : filter.fingerprints = tabulate filter.arrayLength.toNat values)
    (order : stack.map Prod.fst <+: work.reverseOrder) (found : stack.map foundByte <+: work.reverseH)
    (short : stack.length < 2 ^ 32) :
    assignFingerprints filter (BitVec.ofNat 32 stack.length) work =
      .ok (tabulate filter.arrayLength.toNat (solved filter values stack)) := by
  have size : (BitVec.ofNat 32 stack.length : Uint32).toNat = stack.length := by
    rw [BitVec.toNat_ofNat, Nat.mod_eq_of_lt short]
  have loop : ∀ count ≤ stack.length, ∀ fuel, count < fuel →
      whileM (fun state : List Byte × Uint32 =>
          .ok (decide (state.2 < (BitVec.ofNat 32 stack.length : Uint32))))
        (assignNext filter work) fuel (tabulate filter.arrayLength.toNat
          (solved filter values (stack.drop count)), counter count) =
      .ok (tabulate filter.arrayLength.toNat (solved filter values stack), counter 0) := by
    intro count
    induction count with
    | zero =>
        intro _ fuel enough
        obtain ⟨rest, rfl⟩ : ∃ rest, fuel = rest + 1 := ⟨fuel - 1, by omega⟩
        rw [List.drop_zero]
        exact whileM_false (congrArg Except.ok (counter_test (Nat.zero_le _) short))
    | succ count ih =>
        intro within fuel enough
        obtain ⟨rest, rfl⟩ : ∃ rest, fuel = rest + 1 := ⟨fuel - 1, by omega⟩
        refine (whileM_true ?_).trans ?_
        · have more := counter_test within short
          rw [decide_eq_true (Nat.succ_pos count)] at more
          exact congrArg Except.ok more
        · rw [assignNext_eq shaped values order found within short, Checked.ok_bind]
          exact ih (by omega) rest (by omega)
  have ran := loop stack.length (le_refl _) (stack.length + 1) (by omega)
  rw [List.drop_length] at ran
  rw [assignFingerprints, held, size]
  exact (congrArg (· >>= fun assigned => pure assigned.1) ran).trans rfl

end Loop

/-- A query of a filter whose array is in place tests its hash. -/
theorem Shaped.contain_eq {e : Nat} {filter : BinaryFuse8} (shaped : Shaped e filter)
    {values : Nat → Byte} (held : filter.fingerprints = tabulate filter.arrayLength.toNat values)
    (key : Uint64) :
    binaryFuse8Contain key filter =
      .ok (decide (Balanced filter values (binaryFuseMixSplit key filter.seed))) := by
  generalize hashed : binaryFuseMixSplit key filter.seed = hash
  have inside : ∀ position, loadAt filter.fingerprints (cell filter hash position) =
      .ok (values (cell filter hash position)) := by
    intro position
    rw [held]
    exact loadAt_tabulate (shaped.cell_lt hash position)
  have first : loadAt filter.fingerprints (binaryFuse8Hash 0 hash filter).toNat = _ := inside 0
  have second : loadAt filter.fingerprints (binaryFuse8Hash 1 hash filter).toNat = _ := inside 1
  have third : loadAt filter.fingerprints (binaryFuse8Hash 2 hash filter).toNat = _ := inside 2
  simp only [binaryFuse8Contain, hashed, shaped.hashBatch, first, second, third, Checked.ok_bind,
    Checked.pure_eq_ok]
  rfl

end Quickbloom.Fuse
