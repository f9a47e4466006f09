import Quickbloom.Data.Bits
import Quickbloom.Data.Ones
import Quickbloom.Source.Krassovsky

namespace Quickbloom.Krassovsky

open Quickbloom.Data Quickbloom.Machine Quickbloom.Source.Krassovsky
open Quickbloom.Source (Uint32 Uint64)

/-! # Masks as windows of the table

The table is a row of bits. A hash selects a window of 57 of them and turns it
by a rotation of the 64-bit word.
-/

def tableBits (table : MaskTable) (t : Nat) : Bool :=
  (table.toList.getD (t / 8) 0).getLsbD (t % 8)

section Bits

variable {table : MaskTable} {t : Nat}

theorem table_getElem? (table : MaskTable) (index : Nat) : table[index]? = table.toList[index]? := by
  rw [Vector.getElem?_toList]

theorem tableBit_eq (inside : t / 8 < maskBytes) :
    tableBit table t = .ok (tableBits table t).toNat := by
  have bound : t / 8 < table.toList.length := by rwa [Vector.length_toList]
  rw [tableBit, table_getElem?, List.getElem?_eq_getElem bound]
  simp only [shifted_bit (show 0 < 8 by omega), tableBits, List.getD_eq_getElem?_getD, List.getElem?_eq_getElem bound,
    Option.getD_some]

theorem bitMask_bit {position : Nat} (bound : position < 8) (t : Nat) :
    (((1 : Uint32) <<< position).setWidth 8 : Byte).getLsbD t = decide (t = position) := by
  rw [BitVec.getLsbD_setWidth, getLsbD_one_shiftLeft (by omega)]
  by_cases same : t = position
  · simp [same, bound]
  · simp [same]

theorem setTableBit_eq (inside : t / 8 < maskBytes) :
    ∃ after, setTableBit table t = .ok after ∧ tableBits after t = true ∧
      ∀ other, other ≠ t → tableBits after other = tableBits table other := by
  have bound : t / 8 < table.toList.length := by rwa [Vector.length_toList]
  have bit : t % 8 < 8 := Nat.mod_lt t (by omega)
  refine ⟨_, dif_pos inside, ?_, ?_⟩
  · simp only [tableBits, Vector.toList_set, List.getD_eq_getElem?_getD, List.getElem?_set_self bound,
      Option.getD_some, BitVec.getLsbD_or, bitMask_bit bit, decide_true, Bool.or_true]
  · intro other apart
    simp only [tableBits, Vector.toList_set, List.getD_eq_getElem?_getD, List.getElem?_set]
    by_cases same : t / 8 = other / 8
    · have position : other % 8 ≠ t % 8 := by omega
      have selected : other / 8 < table.toList.length := same ▸ bound
      simp only [same, ↓reduceIte, selected, List.getElem?_eq_getElem selected, Option.getD_some,
        BitVec.getLsbD_or, bitMask_bit bit, position, decide_false, Bool.or_false,
        Vector.getElem_toList]
    · rw [if_neg same]

end Bits

section Mask

variable (table : MaskTable) (h : Uint64)

def tableWord (index : Nat) : Uint64 :=
  BitVec.ofNat 64 (fromLittleEndian ((table.toList.drop index).take 8))

/-- The 57 bits of the table from position `start` on. -/
def window (start : Nat) : Uint64 :=
  tableWord table (start / 8) >>> (start % 8) &&& (((1 : Uint64) <<< bitsPerMask) - 1)

def maskIndex : Nat := h.toNat % 1024

def maskRotation : Nat := h.toNat / 1024 % 64

def maskOf : Uint64 :=
  window table (maskIndex h) <<< maskRotation h |||
    window table (maskIndex h) >>> (64 - maskRotation h)

theorem load64_table {index : Nat} (bound : index + 8 ≤ maskBytes) :
    load64 ((Pointer.start table.toList).add index) = .ok (tableWord table index) := by
  apply load64_holds ((Pointer.start_holds table.toList).add index)
  rw [List.length_drop, Vector.length_toList]
  omega

theorem maskIndex_toNat : (h &&& (((1 : Uint64) <<< logNumMasks) - 1)).toNat = maskIndex h :=
  and_mask_toNat (k := 10) rfl h

theorem maskRotation_toNat :
    (h >>> logNumMasks &&& (((1 : Uint64) <<< rotateBits) - 1)).toNat = maskRotation h := by
  rw [and_mask_toNat (k := 6) rfl, BitVec.toNat_ushiftRight, Nat.shiftRight_eq_div_pow]
  rfl

theorem constructMaskScalar_eq : constructMaskScalar table h = .ok (maskOf table h) := by
  have index : ((h &&& (((1 : Uint64) <<< logNumMasks) - 1)).setWidth 32 : Uint32).toNat =
      maskIndex h := by
    rw [BitVec.toNat_setWidth, maskIndex_toNat, maskIndex]
    omega
  have rotation : ((h >>> logNumMasks &&& (((1 : Uint64) <<< rotateBits) - 1)).setWidth 32 :
      Uint32).toNat = maskRotation h := by
    rw [BitVec.toNat_setWidth, maskRotation_toNat, maskRotation]
    omega
  have small : maskIndex h < 1024 := Nat.mod_lt _ (by omega)
  have turn : maskRotation h < 64 := Nat.mod_lt _ (by omega)
  revert index rotation
  rw [constructMaskScalar]
  generalize ((h &&& (((1 : Uint64) <<< logNumMasks) - 1)).setWidth 32 : Uint32) = idx
  generalize ((h >>> logNumMasks &&& (((1 : Uint64) <<< rotateBits) - 1)).setWidth 32 : Uint32) = rot
  intro index rotation
  have byte : (idx >>> 3).toNat = maskIndex h / 8 := by
    rw [BitVec.toNat_ushiftRight, index, Nat.shiftRight_eq_div_pow]
  have bit : (idx &&& 7).toNat = maskIndex h % 8 := by
    rw [← index]
    exact and_mask_toNat (k := 3) rfl idx
  have down : (if rot = 0 then 0 else window table (maskIndex h) >>> (64 - rot).toNat) =
      window table (maskIndex h) >>> (64 - maskRotation h) := by
    by_cases still : rot = 0
    · have zero : maskRotation h = 0 := by
        rw [← rotation, still]
        rfl
      rw [if_pos still, zero, BitVec.ushiftRight_eq_zero (by omega)]
      rfl
    · have count : (64 - rot).toNat = 64 - maskRotation h := by
        rw [BitVec.toNat_sub_of_le (by
          rw [BitVec.le_def, rotation]
          exact Nat.le_of_lt turn), rotation]
        rfl
      rw [if_neg still, count]
  have size : maskBytes = 136 := rfl
  have raw := load64_table table (by omega : maskIndex h / 8 + 8 ≤ maskBytes)
  simp only [byte, bit, rotation, raw, Checked.ok_bind]
  exact congrArg (fun low => Except.ok (window table (maskIndex h) <<< maskRotation h ||| low)) down

theorem tableWord_bit {index t : Nat} (bound : t < 64) :
    (tableWord table index).getLsbD t = tableBits table (8 * index + t) := by
  have byte : (8 * index + t) / 8 = index + t / 8 := by omega
  have offset : (8 * index + t) % 8 = t % 8 := by omega
  have within : t / 8 < 8 := by omega
  rw [tableWord, BitVec.getLsbD_ofNat, fromLittleEndian_testBit, tableBits, byte, offset,
    List.getD_eq_getElem?_getD, List.getD_eq_getElem?_getD, List.getElem?_take_of_lt within,
    List.getElem?_drop]
  simp only [bound, decide_true, Bool.true_and]

theorem lowBits_bit (t : Nat) : (((1 : Uint64) <<< bitsPerMask) - 1).getLsbD t = decide (t < 57) :=
  mask_bit (k := 57) rfl t

theorem window_bit {start t : Nat} :
    (window table start).getLsbD t = (decide (t < 57) && tableBits table (start + t)) := by
  rw [window, BitVec.getLsbD_and, BitVec.getLsbD_ushiftRight, lowBits_bit]
  by_cases low : t < 57
  · have position : 8 * (start / 8) + (start % 8 + t) = start + t := by omega
    rw [tableWord_bit table (by omega), position, Bool.and_comm]
  · simp only [low, decide_false, Bool.and_false, Bool.false_and]

theorem ones_window (start : Nat) :
    ones (window table start).getLsbD 0 64 = ones (tableBits table) start 57 := by
  have low : ones (window table start).getLsbD 0 57 = ones (tableBits table) start 57 := by
    apply ones_congr
    intro j inside
    rw [window_bit, Nat.zero_add]
    simp only [inside, decide_true, Bool.true_and]
  have high : ones (window table start).getLsbD (0 + 57) 7 = 0 := by
    apply ones_clear
    intro j _
    have above : ¬ 0 + 57 + j < 57 := by omega
    rw [window_bit]
    simp only [above, decide_false, Bool.false_and]
  rw [ones_add 57 7, low, high, Nat.add_zero]

/-- However a window is rotated, the mask has the ones of the window. -/
theorem popcount_maskOf :
    builtinPopcount (maskOf table h) = ones (tableBits table) (maskIndex h) 57 := by
  have turn : maskRotation h ≤ 64 := Nat.le_of_lt (Nat.mod_lt _ (by omega))
  have rotated := ones_rotate (window table (maskIndex h)) turn
  rw [ones_window] at rotated
  rw [← rotated, builtinPopcount, ones]
  simp only [Nat.zero_add]
  rfl

end Mask

end Quickbloom.Krassovsky
