import Quickbloom.Filter.Construct
import Quickbloom.Krassovsky.Table

namespace Quickbloom.Krassovsky

open Quickbloom.Data Quickbloom.Machine
open Quickbloom.Filter (PowersFrom ampleHeap)
open Quickbloom.Source (Uint64 SizeT Heap)
open Quickbloom.Source.Krassovsky

/-! # The constructor of the patterned filter -/

/-- The allocator serves one of the two requests for the array of `b`. -/
def ArrayServed (heap : Heap) (b : BloomT) : Prop :=
  heap.posixMemalign 32 (8 * b.numBlocks.toNat) = true ∨
    heap.malloc (8 * b.numBlocks.toNat) = true

/-- The loop starts with one word, so it ends with the least power of two that
covers the request and a word. -/
theorem roundBits_returned {fuel : Nat} {nbits pow2 : SizeT}
    (returned : roundBits fuel nbits = .ok pow2) :
    ∃ k, (pow2 / 64).toNat = 2 ^ k ∧ 2 ^ k < 2 ^ 58 ∧
      IsLeast (PowersFrom (max 64 nbits.toNat)) (64 * 2 ^ k) := by
  have start : (64 : SizeT).toNat = 2 ^ 6 := rfl
  obtain ⟨j, power, above, large, below⟩ := doubleUntil_first start returned
  have fits := pow2.isLt
  have split : 2 ^ j = 64 * 2 ^ (j - 6) := by
    rw [← Nat.pow_add 2 6, Nat.add_sub_cancel' above]
  refine ⟨j - 6, ?_, by omega, ?_⟩
  · rw [BitVec.toNat_udiv, power, split]
    exact Nat.mul_div_cancel_left _ (by omega)
  · rw [← split]
    have word : 2 ^ 6 ≤ 2 ^ j := Nat.pow_le_pow_right (by omega) above
    refine ⟨⟨⟨j, rfl⟩, Nat.max_le.mpr ⟨word, large⟩⟩, ?_⟩
    intro m bounded
    obtain ⟨⟨i, rfl⟩, covers⟩ := bounded
    obtain ⟨atLeastWord, atLeastRequest⟩ := Nat.max_le.mp covers
    have first : 6 ≤ i := (Nat.pow_le_pow_iff_right (by omega : 1 < 2)).mp atLeastWord
    apply Nat.pow_le_pow_right (by omega)
    by_contra smaller
    have tooSmall := below i first (by omega)
    omega

section Construct

variable {heap : Heap} {tries fuel : Nat} {statics after : Statics Uint64} {nbits : SizeT}
  {created : BloomT}

/-- A returned filter has the least power of two of bits that covers the
request and a word. Its array is clear, if it has one. -/
theorem bloomNew_returned
    (returned : bloomNew heap tries fuel statics nbits = .ok (created, after)) :
    maskTableInit prngNext tries 0x123456789abcdef0 statics = .ok after ∧
    ∃ k, created.numBlocks.toNat = 2 ^ k ∧ created.numBlocksMask = created.numBlocks - 1 ∧
      IsLeast (PowersFrom (max 64 nbits.toNat)) (64 * 2 ^ k) ∧
      (ArrayServed heap created → created.bv = List.replicate (2 ^ k) 0) ∧
      (¬ ArrayServed heap created → created.bv = []) := by
  obtain ⟨made, initialized, returned⟩ := Checked.bind_eq_ok returned
  obtain ⟨pow2, rounded, returned⟩ := Checked.bind_eq_ok returned
  obtain ⟨k, words, small, least⟩ := roundBits_returned rounded
  have nonzero : pow2 / 64 ≠ 0 := by
    intro zero
    rw [zero] at words
    exact absurd words.symm (Nat.two_pow_pos _).ne'
  have bytes : (pow2 / 64 * 8).toNat = 8 * 2 ^ k := by
    rw [BitVec.toNat_mul, words, Nat.mul_comm]
    exact Nat.mod_eq_of_lt (by change 8 * 2 ^ k < 2 ^ 64; omega)
  dsimp only at returned
  rw [if_neg nonzero, bytes, words] at returned
  cases header : heap.malloc sizeofBloomT with
  | false =>
      rw [header] at returned
      cases returned
  | true =>
      rw [header] at returned
      obtain ⟨filter, same⟩ := Prod.mk.inj (Except.ok.inj returned)
      subst same filter
      refine ⟨initialized, k, words, rfl, least, ?_, ?_⟩
      · intro served
        rw [ArrayServed, words] at served
        exact if_pos ((Bool.or_eq_true _ _).mpr served)
      · intro refused
        rw [ArrayServed, words] at refused
        exact if_neg fun granted => refused ((Bool.or_eq_true _ _).mp granted)

theorem bloomNew_returns (header : heap.malloc sizeofBloomT = true)
    (initialized : maskTableInit prngNext tries 0x123456789abcdef0 statics = .ok after)
    (bound : nbits.toNat ≤ 2 ^ 63) :
    ∃ created, bloomNew heap tries 59 statics nbits = .ok (created, after) := by
  have start : (64 : SizeT).toNat = 2 ^ 6 := rfl
  obtain ⟨pow2, _, rounded, _⟩ := doubleUntil_returns start bound (show 64 - 6 < 59 by omega)
  have rounding : roundBits 59 nbits = .ok pow2 := rounded
  rw [bloomNew, initialized, Checked.ok_bind, rounding, Checked.ok_bind, header]
  exact ⟨_, rfl⟩

/-- From the seed of the file no position of the first window is drawn twice, so
that one test a position is enough, and after the first call the table stays. -/
theorem maskTableInit_seeded (statics : Statics Uint64) :
    ∃ after, maskTableInit prngNext 1 0x123456789abcdef0 statics = .ok after := by
  by_cases initialized : statics.maskTableInited = true
  · exact ⟨statics, by rw [maskTableInit, if_pos initialized]; rfl⟩
  · obtain ⟨first, finished⟩ := Checked.exists_of_isOk (by decide +kernel :
      (firstWindow prngNext 1 0x123456789abcdef0).isOk = true)
    obtain ⟨after, ran, _⟩ := maskTableInit_returns finished (eq_false_of_ne_true initialized)
    exact ⟨after, ran⟩

/-- The constructor returns exactly up to a request of `2 ^ 63` bits. Above that
`pow2_bits` becomes 0, and no number of further tests ends its loop. -/
theorem bloomNew_ends_iff (header : heap.malloc sizeofBloomT = true) (statics : Statics Uint64)
    (nbits : SizeT) :
    (∃ tries fuel result, bloomNew heap tries fuel statics nbits = .ok result) ↔
      nbits.toNat ≤ 2 ^ 63 := by
  refine ⟨?_, ?_⟩
  · intro returns
    obtain ⟨tries, fuel, result, returned⟩ := returns
    obtain ⟨_, _, returned⟩ := Checked.bind_eq_ok returned
    obtain ⟨_, rounded, _⟩ := Checked.bind_eq_ok returned
    have start : (64 : SizeT).toNat = 2 ^ 6 := rfl
    exact doubleUntil_returned start rounded
  · intro bound
    obtain ⟨after, initialized⟩ := maskTableInit_seeded statics
    obtain ⟨created, returned⟩ := bloomNew_returns header initialized bound
    exact ⟨1, 59, (created, after), returned⟩

end Construct

theorem bloomNew_ends_iff_million :
    (∃ tries fuel result, bloomNew ampleHeap tries fuel
      ⟨Vector.replicate maskBytes 0, false, 0⟩ 1000000 = .ok result) ∧
    ¬ ∃ tries fuel result, bloomNew ampleHeap tries fuel
      ⟨Vector.replicate maskBytes 0, false, 0⟩ (BitVec.allOnes 64) = .ok result := by
  refine ⟨(bloomNew_ends_iff rfl _ _).mpr (by decide), ?_⟩
  rw [bloomNew_ends_iff rfl]
  decide

end Quickbloom.Krassovsky
