import Quickbloom.Classic.Cells
import Quickbloom.Filter.Construct

namespace Quickbloom.Classic

open Quickbloom.Data Quickbloom.Machine
open Quickbloom.Source (Uint64 SizeT Heap roundPow2)
open Quickbloom.Source.Classic
open Quickbloom.Filter (PowersFrom roundPow2_spec)

/-! # The constructor -/

/-- Above `2 ^ 63` the loop goes on with `pow2 = 0`. -/
theorem roundPow2_returned {nbits pow2 : SizeT} (returned : roundPow2 nbits = .ok pow2) :
    nbits.toNat ≤ 2 ^ 63 := by
  have one : (1 : SizeT).toNat = 2 ^ 0 := rfl
  exact doubleUntil_returned one returned

/-- The allocator serves one of the two requests for the array of `b`. -/
def ArrayServed (heap : Heap) (b : BloomT) : Prop :=
  heap.posixMemalign 64 ((b.bitMask.toNat + 1) / 8) = true ∨
    heap.malloc ((b.bitMask.toNat + 1) / 8) = true

theorem nwords_eq {pow2 : SizeT} {j : Nat} (power : pow2.toNat = 2 ^ j) :
    (if pow2 / 64 = 0 then 1 else pow2 / 64 : SizeT).toNat = 2 ^ (max 6 j - 6) ∧
      (if pow2 / 64 = 0 then 64 else pow2 : SizeT).toNat = 2 ^ max 6 j := by
  have quotient : (pow2 / 64).toNat = 2 ^ j / 2 ^ 6 := by rw [BitVec.toNat_udiv, power]; rfl
  by_cases small : j < 6
  · have zero : pow2 / 64 = 0 := by
      apply BitVec.eq_of_toNat_eq
      rw [quotient, Nat.div_eq_of_lt (Nat.pow_lt_pow_right (by omega) small)]
      rfl
    rw [if_pos zero, if_pos zero, Nat.max_eq_left (by omega)]
    exact ⟨rfl, rfl⟩
  · have whole : (pow2 / 64).toNat = 2 ^ (j - 6) := by
      rw [quotient, Nat.pow_div (by omega) (by omega)]
    have nonzero : pow2 / 64 ≠ 0 := by
      intro zero
      rw [zero] at whole
      exact absurd whole.symm (Nat.two_pow_pos _).ne'
    rw [if_neg nonzero, if_neg nonzero, Nat.max_eq_right (by omega)]
    exact ⟨whole, power⟩

theorem least_bits {nbits j : Nat} (least : IsLeast (PowersFrom nbits) (2 ^ j)) :
    IsLeast (PowersFrom (max 64 nbits)) (2 ^ max 6 j) := by
  have word : 2 ^ 6 ≤ 2 ^ max 6 j := Nat.pow_le_pow_right (by omega) (Nat.le_max_left 6 j)
  have covers : 2 ^ j ≤ 2 ^ max 6 j := Nat.pow_le_pow_right (by omega) (Nat.le_max_right 6 j)
  refine ⟨⟨⟨_, rfl⟩, Nat.max_le.mpr ⟨word, Nat.le_trans least.1.2 covers⟩⟩, ?_⟩
  intro m bounded
  obtain ⟨⟨i, rfl⟩, large⟩ := bounded
  obtain ⟨atLeastWord, atLeastRequest⟩ := Nat.max_le.mp large
  have first : 6 ≤ i := (Nat.pow_le_pow_iff_right (by omega : 1 < 2)).mp atLeastWord
  have second : j ≤ i :=
    (Nat.pow_le_pow_iff_right (by omega)).mp (least.2 ⟨⟨i, rfl⟩, atLeastRequest⟩)
  exact Nat.pow_le_pow_right (by omega) (Nat.max_le.mpr ⟨first, second⟩)

/-- A returned filter has the least power of two of bits that covers the
request and a word. Its array is clear, if it has one. -/
theorem bloomNew_returned {heap : Heap} {nbits : SizeT} {b : BloomT}
    (returned : bloomNew heap nbits = .ok b) :
    ∃ k, Sized k b ∧ IsLeast (PowersFrom (max 64 nbits.toNat)) (2 ^ k) ∧
      (ArrayServed heap b → b.bits = List.replicate (2 ^ (k - 6)) 0) ∧
      (¬ ArrayServed heap b → b.bits = []) := by
  obtain ⟨pow2, rounded, built⟩ := Checked.bind_eq_ok returned
  obtain ⟨same, rounded', least⟩ := roundPow2_spec (roundPow2_returned rounded)
  cases rounded.symm.trans rounded'
  obtain ⟨j, power⟩ := least.1.1
  obtain ⟨words, bits⟩ := nwords_eq power
  rw [power] at least
  have large : 6 ≤ max 6 j := Nat.le_max_left 6 j
  have split : 2 ^ max 6 j = 2 ^ (max 6 j - 6) * 64 := by
    rw [← Nat.pow_add (n := 6), Nat.sub_add_cancel large]
  dsimp only at built
  generalize (if pow2 / 64 = 0 then 1 else pow2 / 64 : SizeT) = nwords at words built
  generalize (if pow2 / 64 = 0 then 64 else pow2 : SizeT) = whole at bits built
  cases header : heap.malloc sizeofBloomT with
  | false =>
      rw [header] at built
      cases built
  | true =>
      rw [header] at built
      have made := Except.ok.inj built
      have mask : (whole - 1).toNat + 1 = 2 ^ max 6 j := low_mask_toNat bits
      have bytes : (nwords * 8).toNat = ((whole - 1).toNat + 1) / 8 := by
        rw [mask, BitVec.toNat_mul, words]
        change 2 ^ (max 6 j - 6) * 8 % 2 ^ 64 = 2 ^ max 6 j / 8
        omega
      rw [words, bytes] at made
      subst made
      refine ⟨max 6 j, ⟨large, mask⟩, least_bits least, ?_, ?_⟩
      · intro served
        exact if_pos ((Bool.or_eq_true _ _).mpr served)
      · intro refused
        exact if_neg fun granted => refused ((Bool.or_eq_true _ _).mp granted)

end Quickbloom.Classic
