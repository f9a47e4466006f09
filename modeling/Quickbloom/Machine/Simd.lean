import Quickbloom.Machine.Fault
import Mathlib.Tactic.FinCases

namespace Quickbloom.Machine

/-! # 256-bit vectors of eight 32-bit lanes

The AVX2 intrinsics by their lane-wise definitions. Lane 0 is the least
significant one, the word at the lowest address.
-/

abbrev M256i := Fin 8 → BitVec 32

/-- Arguments list the lanes from the most significant down. -/
def mm256SetEpi32 (e7 e6 e5 e4 e3 e2 e1 e0 : BitVec 32) : M256i
  | 0 => e0
  | 1 => e1
  | 2 => e2
  | 3 => e3
  | 4 => e4
  | 5 => e5
  | 6 => e6
  | 7 => e7

def mm256Set1Epi32 (a : BitVec 32) : M256i := fun _ => a

def mm256MulloEpi32 (a b : M256i) : M256i := fun lane => a lane * b lane

def mm256SrliEpi32 (a : M256i) (count : Nat) : M256i := fun lane => a lane >>> count

def mm256SllvEpi32 (a count : M256i) : M256i := fun lane => a lane <<< (count lane).toNat

def mm256OrSi256 (a b : M256i) : M256i := fun lane => a lane ||| b lane

/-- The carry flag of `vptest`: 1 if `~a & b` is zero in all 256 bits. -/
def mm256TestcSi256 (a b : M256i) : Nat :=
  if ∀ lane, ~~~ a lane &&& b lane = 0#32 then 1 else 0

def Subword {width : Nat} (sub word : BitVec width) : Prop :=
  ∀ t, sub.getLsbD t = true → word.getLsbD t = true

theorem Subword.antisymm {width : Nat} {left right : BitVec width} (sub : Subword left right)
    (super : Subword right left) : left = right := by
  apply BitVec.eq_of_getLsbD_eq
  intro t _
  exact Bool.eq_iff_iff.mpr ⟨sub t, super t⟩

theorem and_eq_right_iff {width : Nat} (word mask : BitVec width) :
    word &&& mask = mask ↔ Subword mask word := by
  refine ⟨?_, ?_⟩
  · intro same t bit
    rw [← same, BitVec.getLsbD_and, Bool.and_eq_true] at bit
    exact bit.1
  · intro sub
    apply BitVec.eq_of_getLsbD_eq
    intro t _
    rw [BitVec.getLsbD_and]
    cases bit : mask.getLsbD t with
    | true => rw [sub t bit, Bool.and_true]
    | false => rw [Bool.and_false]

theorem andNot_eq_zero_iff {width : Nat} (a b : BitVec width) :
    ~~~ a &&& b = BitVec.ofNat width 0 ↔ Subword b a := by
  refine ⟨?_, ?_⟩
  · intro clear t bit
    have same := congrArg (fun word => word.getLsbD t) clear
    have inside : t < width := BitVec.lt_of_getLsbD bit
    cases present : a.getLsbD t with
    | true => rfl
    | false =>
        simp only [BitVec.getLsbD_and, BitVec.getLsbD_not, BitVec.getLsbD_zero, bit, present,
          inside, decide_true, Bool.not_false, Bool.and_true, Bool.true_eq_false] at same
  · intro sub
    apply BitVec.eq_of_getLsbD_eq
    intro t bound
    rw [BitVec.getLsbD_and, BitVec.getLsbD_not, BitVec.getLsbD_zero]
    cases bit : b.getLsbD t with
    | true => rw [sub t bit, Bool.not_true, Bool.and_false, Bool.false_and]
    | false => rw [Bool.and_false]

theorem mm256TestcSi256_ne_zero_iff (a b : M256i) :
    mm256TestcSi256 a b ≠ 0 ↔ ∀ lane, Subword (b lane) (a lane) := by
  simp only [mm256TestcSi256, andNot_eq_zero_iff, ne_eq, ite_eq_right_iff, Nat.one_ne_zero,
    imp_false, not_not]

theorem mm256TestcSi256_le_one (a b : M256i) : mm256TestcSi256 a b ≤ 1 := by
  rw [mm256TestcSi256]
  split <;> decide

abbrev Words := List (BitVec 32)

def readVector (memory : Words) (pointer : Nat) : M256i := fun lane => memory.getD (pointer + lane) 0

def writeVector (memory : Words) (pointer : Nat) (value : M256i) : Words :=
  memory.take pointer ++ List.ofFn value ++ memory.drop (pointer + 8)

/-- The check both accesses make: 32-byte alignment within an array that is
itself so aligned, and all eight words inside it. -/
def checkVector (memory : Words) (pointer : Nat) : Checked Unit :=
  if pointer % 8 ≠ 0 then .error .misaligned
  else if memory.length < pointer + 8 then .error .outOfBounds
  else .ok ()

def loadVector (memory : Words) (pointer : Nat) : Checked M256i := do
  checkVector memory pointer
  return readVector memory pointer

def storeVector (memory : Words) (pointer : Nat) (value : M256i) : Checked Words := do
  checkVector memory pointer
  return writeVector memory pointer value

section Access

variable {memory : Words} {pointer : Nat}

theorem checkVector_ok (aligned : pointer % 8 = 0) (inside : pointer + 8 ≤ memory.length) :
    checkVector memory pointer = .ok () := by
  rw [checkVector, if_neg (by omega), if_neg (by omega)]

theorem checkVector_inside (checked : checkVector memory pointer = .ok ()) :
    pointer % 8 = 0 ∧ pointer + 8 ≤ memory.length := by
  by_cases misaligned : pointer % 8 ≠ 0
  · rw [checkVector, if_pos misaligned] at checked
    cases checked
  · by_cases outside : memory.length < pointer + 8
    · rw [checkVector, if_neg misaligned, if_pos outside] at checked
      cases checked
    · omega

theorem loadVector_ok (aligned : pointer % 8 = 0) (inside : pointer + 8 ≤ memory.length) :
    loadVector memory pointer = .ok (readVector memory pointer) := by
  rw [loadVector, checkVector_ok aligned inside]
  rfl

theorem storeVector_ok (aligned : pointer % 8 = 0) (inside : pointer + 8 ≤ memory.length)
    (value : M256i) : storeVector memory pointer value = .ok (writeVector memory pointer value) := by
  rw [storeVector, checkVector_ok aligned inside]
  rfl

theorem readVector_eq (inside : pointer + 8 ≤ memory.length) (lane : Fin 8) :
    memory[pointer + lane]? = some (readVector memory pointer lane) := by
  have bound : pointer + lane < memory.length := by omega
  rw [readVector, List.getD_eq_getElem?_getD, List.getElem?_eq_getElem bound, Option.getD_some]

theorem readVector_set_ne {lane other : Fin 8} (apart : other ≠ lane) (word : BitVec 32) :
    readVector (memory.set (pointer + lane) word) pointer other = readVector memory pointer other := by
  have distinct : lane.val ≠ other.val := fun same => apart (Fin.ext same.symm)
  rw [readVector, readVector, List.getD_eq_getElem?_getD, List.getD_eq_getElem?_getD,
    List.getElem?_set_ne (by omega)]

theorem writeVector_length (inside : pointer + 8 ≤ memory.length) (value : M256i) :
    (writeVector memory pointer value).length = memory.length := by
  simp only [writeVector, List.length_append, List.length_take, List.length_ofFn, List.length_drop]
  omega

theorem writeVector_lane (inside : pointer + 8 ≤ memory.length) (value : M256i) (lane : Fin 8) :
    (writeVector memory pointer value)[pointer + lane]? = some (value lane) := by
  have front : (memory.take pointer).length = pointer := by
    rw [List.length_take]
    omega
  rw [writeVector, List.append_assoc, List.getElem?_append_right (by omega), front,
    Nat.add_sub_cancel_left, List.getElem?_append_left (by rw [List.length_ofFn]; exact lane.isLt),
    List.getElem?_ofFn, dif_pos lane.isLt]

theorem writeVector_frame (inside : pointer + 8 ≤ memory.length) (value : M256i) {index : Nat}
    (outside : index < pointer ∨ pointer + 8 ≤ index) :
    (writeVector memory pointer value)[index]? = memory[index]? := by
  have front : (memory.take pointer).length = pointer := by
    rw [List.length_take]
    omega
  rw [writeVector, List.append_assoc]
  rcases outside with before | after
  · rw [List.getElem?_append_left (by omega), List.getElem?_take_of_lt before]
  · rw [List.getElem?_append_right (by omega), front,
      List.getElem?_append_right (by rw [List.length_ofFn]; omega), List.length_ofFn,
      List.getElem?_drop]
    congr 1
    omega

theorem writeVector_set (inside : pointer + 8 ≤ memory.length) (value : M256i) (lane : Fin 8)
    (word : BitVec 32) :
    writeVector (memory.set (pointer + lane) word) pointer value =
      writeVector memory pointer value := by
  have insideSet : pointer + 8 ≤ (memory.set (pointer + lane) word).length := by
    rw [List.length_set]
    exact inside
  apply List.ext_getElem?
  intro index
  by_cases outside : index < pointer ∨ pointer + 8 ≤ index
  · rw [writeVector_frame insideSet value outside, writeVector_frame inside value outside,
      List.getElem?_set_ne (by omega)]
  · obtain ⟨other, rfl⟩ : ∃ other : Fin 8, index = pointer + other :=
      ⟨⟨index - pointer, by omega⟩, by simp only; omega⟩
    rw [writeVector_lane insideSet, writeVector_lane inside]

theorem writeVector_self (inside : pointer + 8 ≤ memory.length) {value : M256i}
    (stored : ∀ lane : Fin 8, memory[pointer + lane]? = some (value lane)) :
    writeVector memory pointer value = memory := by
  apply List.ext_getElem?
  intro index
  by_cases outside : index < pointer ∨ pointer + 8 ≤ index
  · rw [writeVector_frame inside value outside]
  · obtain ⟨lane, rfl⟩ : ∃ lane : Fin 8, index = pointer + lane :=
      ⟨⟨index - pointer, by omega⟩, by simp only; omega⟩
    rw [writeVector_lane inside, stored]

end Access

end Quickbloom.Machine
