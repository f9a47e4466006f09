import Mathlib.Data.Nat.Init
import Quickbloom.Machine.Memory

namespace Quickbloom.Machine.Epi64

/-! # 256-bit vectors of four 64-bit lanes

The AVX2 intrinsics by their lane-wise definitions. Lane 0 is the least
significant one, the word at the lowest address.
-/

abbrev M256i := Fin 4 → BitVec 64

variable (a b : M256i)

def mm256Set1Epi64x (value : BitVec 64) : M256i := fun _ => value

def mm256AndSi256 : M256i := fun lane => a lane &&& b lane

def mm256OrSi256 : M256i := fun lane => a lane ||| b lane

def mm256SubEpi64 : M256i := fun lane => a lane - b lane

def mm256SrliEpi64 (count : Nat) : M256i := fun lane => a lane >>> count

/-- A count of 64 or more shifts every bit out. -/
def mm256SrlvEpi64 (count : M256i) : M256i := fun lane => a lane >>> (count lane).toNat

def mm256SllvEpi64 (count : M256i) : M256i := fun lane => a lane <<< (count lane).toNat

def mm256CmpeqEpi64 : M256i := fun lane => if a lane = b lane then BitVec.allOnes 64 else 0

/-- Bit `byte` of the result is the top bit of that byte of the vector. -/
def mm256MovemaskEpi8 : BitVec 32 :=
  BitVec.ofNat 32 (Nat.ofBits fun byte : Fin 32 =>
    (a ⟨byte / 8, by omega⟩).getLsbD (8 * (byte % 8) + 7))

/-- The lane is given by the two lowest bits of `index`. -/
def mm256ExtractEpi64 (index : Nat) : BitVec 64 := a ⟨index % 4, Nat.mod_lt index (by omega)⟩

def mm256LoaduSi256 (pointer : Pointer (BitVec 64)) : Checked M256i := do
  let e0 ← pointer.read 0
  let e1 ← pointer.read 1
  let e2 ← pointer.read 2
  let e3 ← pointer.read 3
  return fun
    | 0 => e0
    | 1 => e1
    | 2 => e2
    | 3 => e3

/-- Each lane is loaded from the scaled index of that lane. -/
def mm256I64gatherEpi64 (load : Nat → Checked (BitVec 64)) (vindex : M256i) : Checked M256i := do
  let e0 ← load (vindex 0).toNat
  let e1 ← load (vindex 1).toNat
  let e2 ← load (vindex 2).toNat
  let e3 ← load (vindex 3).toNat
  return fun
    | 0 => e0
    | 1 => e1
    | 2 => e2
    | 3 => e3

omit a b

theorem mm256LoaduSi256_ok {pointer : Pointer (BitVec 64)} {value : M256i}
    (returns : ∀ lane : Fin 4, pointer.read lane = .ok (value lane)) :
    mm256LoaduSi256 pointer = .ok value := by
  have e0 : pointer.read 0 = .ok (value 0) := returns 0
  have e1 : pointer.read 1 = .ok (value 1) := returns 1
  have e2 : pointer.read 2 = .ok (value 2) := returns 2
  have e3 : pointer.read 3 = .ok (value 3) := returns 3
  simp only [mm256LoaduSi256, e0, e1, e2, e3, Checked.ok_bind, Checked.pure_eq_ok, Except.ok.injEq]
  funext lane
  match lane with
  | 0 => rfl
  | 1 => rfl
  | 2 => rfl
  | 3 => rfl

theorem mm256I64gatherEpi64_ok {load : Nat → Checked (BitVec 64)} {vindex value : M256i}
    (returns : ∀ lane, load (vindex lane).toNat = .ok (value lane)) :
    mm256I64gatherEpi64 load vindex = .ok value := by
  simp only [mm256I64gatherEpi64, returns, Checked.ok_bind, Checked.pure_eq_ok, Except.ok.injEq]
  funext lane
  match lane with
  | 0 => rfl
  | 1 => rfl
  | 2 => rfl
  | 3 => rfl

/-- A lane that compared equal sets the bits of all its bytes, one that did not
sets none. -/
theorem mm256MovemaskEpi8_bit (a : M256i) {byte : Nat} (bound : byte < 32) :
    (mm256MovemaskEpi8 a).getLsbD byte =
      (a ⟨byte / 8, by omega⟩).getLsbD (8 * (byte % 8) + 7) := by
  rw [mm256MovemaskEpi8, BitVec.getLsbD_ofNat, Nat.testBit_ofBits_lt _ _ bound]
  simp only [bound, decide_true, Bool.true_and]

end Quickbloom.Machine.Epi64
