import Quickbloom.Filter.Hash

namespace Quickbloom.Filter

open Quickbloom.Data Quickbloom.Machine Quickbloom.Source

/-! # The 16-byte hash as a function of the two halves -/

/-- The 16-byte key with the little-endian halves `x` and `y`. -/
def halves (x y : Uint64) : List Byte := toLittleEndian 8 x.toNat ++ toLittleEndian 8 y.toNat

theorem halves_length (x y : Uint64) : (halves x y).length = 16 := by
  rw [halves, List.length_append, toLittleEndian_length, toLittleEndian_length]

theorem word_littleEndian (x : Uint64) :
    BitVec.ofNat 64 (fromLittleEndian (toLittleEndian 8 x.toNat)) = x := by
  rw [fromLittleEndian_toLittleEndian x.isLt, BitVec.ofNat_toNat, BitVec.setWidth_eq]

theorem keyWord_halves_zero (x y : Uint64) : keyWord (halves x y) 0 = x := by
  rw [keyWord, halves, Nat.zero_mul, List.drop_zero,
    List.take_left' (toLittleEndian_length 8 x.toNat), word_littleEndian]

theorem keyWord_halves_one (x y : Uint64) : keyWord (halves x y) 1 = y := by
  rw [keyWord, halves, Nat.one_mul, List.drop_left' (toLittleEndian_length 8 x.toNat),
    List.take_of_length_le (by rw [toLittleEndian_length]), word_littleEndian]

/-- Every 16-byte key is made of two halves. -/
theorem halves_keyWord {key : List Byte} (length : key.length = 16) :
    halves (keyWord key 0) (keyWord key 1) = key := by
  have word (index : Nat) (bound : index * 8 + 8 ≤ 16) :
      toLittleEndian 8 (keyWord key index).toNat = (key.drop (index * 8)).take 8 := by
    have size : ((key.drop (index * 8)).take 8).length = 8 := by
      rw [List.length_take, List.length_drop]
      omega
    have small := fromLittleEndian_lt ((key.drop (index * 8)).take 8)
    have bytes := toLittleEndian_fromLittleEndian ((key.drop (index * 8)).take 8)
    rw [size] at small bytes
    rw [keyWord, BitVec.toNat_ofNat, Nat.mod_eq_of_lt small, bytes]
  rw [halves, word 0 (by omega), word 1 (by omega), Nat.zero_mul, Nat.one_mul, List.drop_zero,
    List.take_of_length_le (l := key.drop 8) (by rw [List.length_drop]; omega),
    List.take_append_drop]

theorem hash16_halves (x y : Uint64) :
    hash16 (Pointer.start (halves x y)) = .ok (mulFold (x ^^^ mixFirst) (y ^^^ mixSecond)) := by
  rw [hash16_eq (Pointer.start_holds _) (by rw [halves_length]), keyWord_halves_zero,
    keyWord_halves_one]

theorem xor_ne_zero {x mix : Uint64} (apart : x ≠ mix) : x ^^^ mix ≠ 0 :=
  fun zero => apart (BitVec.xor_eq_zero_iff.mp zero)

/-- A first half that is not the mixing word itself is multiplied by every
word as the second half varies, by 0 and by 1 among others. -/
theorem hash16_secondHalf {v : Uint64} (apart : v ≠ mixFirst) :
    ∃ w w', hash16 (Pointer.start (halves v w)) ≠ hash16 (Pointer.start (halves v w')) := by
  refine ⟨0 ^^^ mixSecond, 1 ^^^ mixSecond, ?_⟩
  rw [hash16_halves, hash16_halves, BitVec.xor_assoc, BitVec.xor_assoc, BitVec.xor_self,
    BitVec.xor_zero, BitVec.xor_zero, mulFold_zero, mulFold_one]
  intro same
  exact xor_ne_zero apart (Except.ok.inj same).symm

theorem hash16_firstHalf {w : Uint64} (apart : w ≠ mixSecond) :
    ∃ v v', hash16 (Pointer.start (halves v w)) ≠ hash16 (Pointer.start (halves v' w)) := by
  refine ⟨0 ^^^ mixFirst, 1 ^^^ mixFirst, ?_⟩
  rw [hash16_halves, hash16_halves, BitVec.xor_assoc, BitVec.xor_assoc, BitVec.xor_self,
    BitVec.xor_zero, BitVec.xor_zero, mulFold_comm, mulFold_zero, mulFold_comm, mulFold_one]
  intro same
  exact xor_ne_zero apart (Except.ok.inj same).symm

theorem hash16_mixFirst (w : Uint64) : hash16 (Pointer.start (halves mixFirst w)) = .ok 0 := by
  rw [hash16_halves, BitVec.xor_self, mulFold_comm]
  exact congrArg Except.ok (mulFold_zero _)

theorem hash16_mixSecond (v : Uint64) : hash16 (Pointer.start (halves v mixSecond)) = .ok 0 := by
  rw [hash16_halves, BitVec.xor_self]
  exact congrArg Except.ok (mulFold_zero _)

/-- Each half has one absorbing value, the word it is mixed with, and every key
that has it is hashed to 0. -/
theorem hash16_absorbing_iff :
    (∀ v : Uint64, (∃ w w', hash16 (Pointer.start (halves v w)) ≠
        hash16 (Pointer.start (halves v w'))) ↔ v ≠ 0x736f6d6570736575) ∧
    (∀ w : Uint64, (∃ v v', hash16 (Pointer.start (halves v w)) ≠
        hash16 (Pointer.start (halves v' w))) ↔ w ≠ 0x646f72616e646f6d) ∧
    (∀ w : Uint64, hash16 (Pointer.start (halves 0x736f6d6570736575 w)) = .ok 0) ∧
    (∀ v : Uint64, hash16 (Pointer.start (halves v 0x646f72616e646f6d)) = .ok 0) := by
  refine ⟨?_, ?_, hash16_mixFirst, hash16_mixSecond⟩
  · intro v
    refine ⟨?_, hash16_secondHalf⟩
    intro differ same
    obtain ⟨w, w', apart⟩ := differ
    subst same
    exact apart ((hash16_mixFirst w).trans (hash16_mixFirst w').symm)
  · intro w
    refine ⟨?_, hash16_firstHalf⟩
    intro differ same
    obtain ⟨v, v', apart⟩ := differ
    subst same
    exact apart ((hash16_mixSecond v).trans (hash16_mixSecond v').symm)

theorem hash16_absorbs :
    ¬ ∃ w w' : Uint64, hash16 (Pointer.start (halves 0x736f6d6570736575 w)) ≠
      hash16 (Pointer.start (halves 0x736f6d6570736575 w')) := by
  intro differ
  obtain ⟨w, w', apart⟩ := differ
  exact apart ((hash16_mixFirst w).trans (hash16_mixFirst w').symm)

theorem mixFirst_coprime : Nat.Coprime (2 ^ 64 + 1) (0 ^^^ mixFirst).toNat := by
  decide +kernel

theorem mixSecond_coprime : Nat.Coprime (2 ^ 64 + 1) (0 ^^^ mixSecond).toNat := by
  decide +kernel

theorem mulFold_zeroFirst (y : Uint64) :
    mulFold (0 ^^^ mixFirst) (y ^^^ mixSecond) = 0 ↔ y = mixSecond :=
  (mulFold_coprime _ _ mixFirst_coprime).trans BitVec.xor_eq_zero_iff

theorem mulFold_zeroSecond (x : Uint64) :
    mulFold (x ^^^ mixFirst) (0 ^^^ mixSecond) = 0 ↔ x = mixFirst := by
  rw [mulFold_comm]
  exact (mulFold_coprime _ _ mixSecond_coprime).trans BitVec.xor_eq_zero_iff

/-- A key is hashed to 0 exactly if the number of words plus one divides its
mixed product. Neither mixing word shares a factor with that number, so among
the keys with a zero half a single one is. -/
theorem hash16_zero_iff :
    (∀ x y : Uint64, ∃ h, hash16 (Pointer.start (halves x y)) = .ok h ∧
      (h = 0 ↔ 2 ^ 64 + 1 ∣
        (x ^^^ 0x736f6d6570736575).toNat * (y ^^^ 0x646f72616e646f6d).toNat)) ∧
    (∃! y : Uint64, hash16 (Pointer.start (halves 0 y)) = .ok 0) ∧
    (∃! x : Uint64, hash16 (Pointer.start (halves x 0)) = .ok 0) := by
  refine ⟨?_, ?_, ?_⟩
  · intro x y
    exact ⟨_, hash16_halves x y, mulFold_eq_zero_iff _ _⟩
  · refine ⟨mixSecond, hash16_mixSecond 0, ?_⟩
    intro y zero
    rw [hash16_halves, Except.ok.injEq] at zero
    exact (mulFold_zeroFirst y).mp zero
  · refine ⟨mixFirst, hash16_mixFirst 0, ?_⟩
    intro x zero
    rw [hash16_halves, Except.ok.injEq] at zero
    exact (mulFold_zeroSecond x).mp zero

end Quickbloom.Filter
