import Quickbloom.Data.LittleEndian
import Quickbloom.Machine.Fault

namespace Quickbloom.Machine

open Quickbloom.Data

/-! # Read-only objects behind pointers

A pointer carries the object it points into as a partial function of the
element index. A read outside the object is a fault.
-/

structure Pointer (α : Type) where
  cell : Nat → Option α
  offset : Nat

namespace Pointer

variable {α : Type}

def start (object : List α) : Pointer α := ⟨fun index => object[index]?, 0⟩

def add (pointer : Pointer α) (count : Nat) : Pointer α :=
  { pointer with offset := pointer.offset + count }

def read (pointer : Pointer α) (index : Nat) : Checked α :=
  match pointer.cell (pointer.offset + index) with
  | some value => .ok value
  | none => .error .outOfBounds

/-- The elements from `pointer` on start with `contents`. -/
def Holds (pointer : Pointer α) (contents : List α) : Prop :=
  ∀ index, (bound : index < contents.length) → pointer.read index = .ok contents[index]

@[simp] theorem add_read (pointer : Pointer α) (count index : Nat) :
    (pointer.add count).read index = pointer.read (count + index) := by
  simp only [read, add, Nat.add_assoc]

theorem start_holds (object : List α) : (start object).Holds object := by
  intro index bound
  simp only [read, start, Nat.zero_add, List.getElem?_eq_getElem bound]

theorem Holds.add {pointer : Pointer α} {contents : List α} (holds : pointer.Holds contents)
    (count : Nat) : (pointer.add count).Holds (contents.drop count) := by
  intro index bound
  rw [List.length_drop] at bound
  rw [add_read, holds (count + index) (by omega), List.getElem_drop]

theorem Holds.take {pointer : Pointer α} {contents : List α} (holds : pointer.Holds contents)
    (count : Nat) : pointer.Holds (contents.take count) := by
  intro index bound
  rw [List.length_take] at bound
  rw [holds index (by omega), List.getElem_take]

theorem Holds.read_getD {pointer : Pointer α} {contents : List α} {default : α}
    (holds : pointer.Holds contents) {index : Nat} (bound : index < contents.length) :
    pointer.read index = .ok (contents.getD index default) := by
  rw [holds index bound, List.getD_eq_getElem?_getD, List.getElem?_eq_getElem bound,
    Option.getD_some]

/-- The first `count` elements from `pointer` on are inside its object. -/
def Readable (pointer : Pointer α) (count : Nat) : Prop :=
  ∀ index < count, ∃ value, pointer.read index = .ok value

theorem Readable.mono {pointer : Pointer α} {count more : Nat} (readable : pointer.Readable more)
    (fewer : count ≤ more) : pointer.Readable count :=
  fun index bound => readable index (by omega)

theorem Readable.append {pointer : Pointer α} {count more : Nat} (readable : pointer.Readable count)
    (following : (pointer.add count).Readable more) : pointer.Readable (count + more) := by
  intro index bound
  by_cases first : index < count
  · exact readable index first
  · obtain ⟨value, found⟩ := following (index - count) (by omega)
    rw [add_read, Nat.add_sub_cancel' (by omega)] at found
    exact ⟨value, found⟩

theorem Readable.holds {pointer : Pointer α} {count : Nat} (readable : pointer.Readable count) :
    ∃ contents, contents.length = count ∧ pointer.Holds contents := by
  choose value found using readable
  refine ⟨List.ofFn fun index : Fin count => value index index.isLt, List.length_ofFn, ?_⟩
  intro index bound
  rw [List.getElem_ofFn]
  exact found index _

end Pointer

theorem map_getD_range {α : Type} (items : List α) (default : α) :
    (List.range items.length).map (fun i => items.getD i default) = items := by
  apply List.ext_getElem (by simp)
  intro i _ bound
  simp [bound]

def memcpy {α : Type} (source : Pointer α) : Nat → Checked (List α)
  | 0 => .ok []
  | count + 1 => do
    let value ← source.read 0
    let rest ← memcpy (source.add 1) count
    return value :: rest

theorem memcpy_congr {α : Type} {left right : Pointer α} {count : Nat}
    (same : ∀ index < count, left.read index = right.read index) :
    memcpy left count = memcpy right count := by
  induction count generalizing left right with
  | zero => rfl
  | succ count ih =>
      have tail : memcpy (left.add 1) count = memcpy (right.add 1) count := ih (by
        intro index bound
        rw [Pointer.add_read, Pointer.add_read]
        exact same (1 + index) (by omega))
      rw [memcpy, memcpy, same 0 (by omega), tail]

theorem memcpy_whole {α : Type} {source : Pointer α} {contents : List α}
    (holds : source.Holds contents) : memcpy source contents.length = .ok contents := by
  induction contents generalizing source with
  | nil => rfl
  | cons value rest ih =>
      have tail : memcpy (source.add 1) rest.length = .ok rest := ih (holds.add 1)
      have head := holds 0 (by simp)
      simp only [List.getElem_cons_zero] at head
      simp only [List.length_cons, memcpy, head, tail, Checked.ok_bind, Checked.pure_eq_ok]

theorem memcpy_holds {α : Type} {source : Pointer α} {contents : List α} {count : Nat}
    (holds : source.Holds contents) (bound : count ≤ contents.length) :
    memcpy source count = .ok (contents.take count) := by
  have copied := memcpy_whole (holds.take count)
  rwa [List.length_take, Nat.min_eq_left bound] at copied

theorem memcpy_length {α : Type} {source : Pointer α} {count : Nat} {contents : List α}
    (copied : memcpy source count = .ok contents) : contents.length = count := by
  induction count generalizing source contents with
  | zero =>
      cases copied
      rfl
  | succ count ih =>
      obtain ⟨value, _, rest⟩ := Checked.bind_eq_ok copied
      obtain ⟨tail, following, last⟩ := Checked.bind_eq_ok rest
      cases last
      rw [List.length_cons, ih following]

theorem memcpy_readable {α : Type} {source : Pointer α} {count : Nat} {contents : List α}
    (copied : memcpy source count = .ok contents) : source.Readable count := by
  induction count generalizing source contents with
  | zero => exact fun index bound => absurd bound (by omega)
  | succ count ih =>
      obtain ⟨value, found, rest⟩ := Checked.bind_eq_ok copied
      obtain ⟨tail, following, _⟩ := Checked.bind_eq_ok rest
      have head : source.Readable 1 := by
        intro index bound
        have first : index = 0 := by omega
        subst first
        exact ⟨value, found⟩
      exact (head.append (ih following)).mono (by omega)

/-- `memcpy` into a `uint64_t` on a little-endian machine. -/
def load64 (source : Pointer Byte) : Checked (BitVec 64) := do
  let bytes ← memcpy source 8
  return BitVec.ofNat 64 (fromLittleEndian bytes)

theorem load64_congr {left right : Pointer Byte}
    (same : ∀ index < 8, left.read index = right.read index) : load64 left = load64 right := by
  rw [load64, load64, memcpy_congr same]

theorem load64_readable {source : Pointer Byte} {word : BitVec 64}
    (loaded : load64 source = .ok word) : source.Readable 8 := by
  obtain ⟨bytes, copied, _⟩ := Checked.bind_eq_ok loaded
  exact memcpy_readable copied

theorem load64_holds {source : Pointer Byte} {contents : List Byte}
    (holds : source.Holds contents) (bound : 8 ≤ contents.length) :
    load64 source = .ok (BitVec.ofNat 64 (fromLittleEndian (contents.take 8))) := by
  simp only [load64, memcpy_holds holds bound, Checked.ok_bind, Checked.pure_eq_ok]

/-- `memcpy` into a `uint32_t`. -/
def load32 (source : Pointer Byte) : Checked (BitVec 32) := do
  let bytes ← memcpy source 4
  return BitVec.ofNat 32 (fromLittleEndian bytes)

theorem load32_readable {source : Pointer Byte} {word : BitVec 32}
    (loaded : load32 source = .ok word) : source.Readable 4 := by
  obtain ⟨bytes, copied, _⟩ := Checked.bind_eq_ok loaded
  exact memcpy_readable copied

theorem load32_holds {source : Pointer Byte} {contents : List Byte}
    (holds : source.Holds contents) (bound : 4 ≤ contents.length) :
    load32 source = .ok (BitVec.ofNat 32 (fromLittleEndian (contents.take 4))) := by
  simp only [load32, memcpy_holds holds bound, Checked.ok_bind, Checked.pure_eq_ok]

end Quickbloom.Machine
