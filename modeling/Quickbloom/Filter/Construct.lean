import Quickbloom.Filter.Geometry
import Quickbloom.Machine.Doubling
import Mathlib.Order.Bounds.Basic

namespace Quickbloom.Filter

open Quickbloom.Data Quickbloom.Machine Quickbloom.Source

/-! # The constructor and its loops -/

theorem shiftOne_toNat {j : Nat} (bound : j ≤ 63) : ((1 : SizeT) <<< j).toNat = 2 ^ j := by
  have small : 2 ^ j ≤ 2 ^ 63 := Nat.pow_le_pow_right (by omega) bound
  rw [BitVec.toNat_shiftLeft, Nat.shiftLeft_eq]
  change 1 % 2 ^ 64 * 2 ^ j % 2 ^ 64 = 2 ^ j
  omega

theorem log2Pow2_eq {n : SizeT} {k : Nat} (bound : k ≤ 63) (power : n.toNat = 2 ^ k) :
    log2Pow2 n = .ok (BitVec.ofNat 32 k) := by
  suffices loop : ∀ left j fuel, j + left = k → left < fuel →
      whileM (fun k : Uint32 =>
        if 64 ≤ k.toNat then (.error .shiftRange : Checked Bool)
        else .ok (decide ((1 : SizeT) <<< k.toNat < n)))
      (fun k => .ok (k + 1)) fuel (BitVec.ofNat 32 j) = .ok (BitVec.ofNat 32 k) from
    loop k 0 65 (by omega) (by omega)
  intro left
  induction left with
  | zero =>
      intro j fuel reached enough
      obtain ⟨rest, rfl⟩ : ∃ rest, fuel = rest + 1 := ⟨fuel - 1, by omega⟩
      obtain rfl : j = k := by omega
      have count : (BitVec.ofNat 32 j).toNat = j := by
        rw [BitVec.toNat_ofNat]
        omega
      rw [whileM_false]
      · rfl
      · rw [count, if_neg (by omega)]
        simp only [BitVec.lt_def, shiftOne_toNat bound, power, Nat.lt_irrefl, decide_false]
        rfl
  | succ left ih =>
      intro j fuel remaining enough
      obtain ⟨rest, rfl⟩ : ∃ rest, fuel = rest + 1 := ⟨fuel - 1, by omega⟩
      have below : 2 ^ j < 2 ^ k := Nat.pow_lt_pow_right (by omega) (by omega)
      have count : (BitVec.ofNat 32 j).toNat = j := by
        rw [BitVec.toNat_ofNat]
        omega
      rw [whileM_true]
      · have next : BitVec.ofNat 32 j + 1 = BitVec.ofNat 32 (j + 1) := (BitVec.ofNat_add j 1).symm
        rw [Checked.ok_bind, next]
        exact ih (j + 1) rest (by omega) (by omega)
      · rw [count, if_neg (by omega)]
        simp only [BitVec.lt_def, shiftOne_toNat (show j ≤ 63 by omega), power, below, decide_true]
        rfl

def PowersFrom (need : Nat) : Set Nat := {m | m.isPowerOfTwo ∧ need ≤ m}

/-- Below the overflow of `pow2`, the doubling loop ends at the least power of
two that is not below `nblocks`. -/
theorem roundPow2_spec {nblocks : SizeT} (bound : nblocks.toNat ≤ 2 ^ 63) :
    ∃ pow2, roundPow2 nblocks = .ok pow2 ∧ IsLeast (PowersFrom nblocks.toNat) pow2.toNat := by
  have one : (1 : SizeT).toNat = 2 ^ 0 := rfl
  obtain ⟨pow2, j, returned, power, _, large, below⟩ :=
    doubleUntil_returns one bound (show 64 - 0 < 65 by omega)
  refine ⟨pow2, returned, ⟨⟨j, power⟩, by rwa [power]⟩, ?_⟩
  intro m bounded
  obtain ⟨⟨i, rfl⟩, covers⟩ := bounded
  rw [power]
  apply Nat.pow_le_pow_right (by omega)
  by_contra smaller
  have tooSmall := below i (by omega) (by omega)
  omega

/-- The block count that `qb_new` computes before rounding. The addition wraps. -/
def requestedBlocks (nbits : SizeT) : Nat := max 1 ((nbits.toNat + 255) % 2 ^ 64 / 256)

def Heap.Grants (heap : Heap) : Prop :=
  (∀ size, heap.malloc size = true) ∧ ∀ alignment size, heap.posixMemalign alignment size = true

theorem nblocksMask_eq {nblocks : SizeT} {k : Nat} (power : nblocks.toNat = 2 ^ k) :
    nblocks - 1 = BitVec.ofNat 64 (2 ^ k - 1) := by
  have ones := low_mask_toNat power
  have fits := nblocks.isLt
  apply BitVec.eq_of_toNat_eq
  rw [BitVec.toNat_ofNat, Nat.mod_eq_of_lt (by omega)]
  omega

theorem idxShift_eq {k : Nat} (bound : k ≤ 32) :
    (32 - BitVec.ofNat 32 k : Uint32) = BitVec.ofNat 32 (32 - k) := by
  apply BitVec.eq_of_toNat_eq
  rw [BitVec.toNat_sub, BitVec.toNat_ofNat, BitVec.toNat_ofNat]
  change (2 ^ 32 - k % 2 ^ 32 + 32) % 2 ^ 32 = (32 - k) % 2 ^ 32
  omega

theorem requestedBlocks_eq (nbits : SizeT) :
    (if (nbits + 255) / 256 = 0 then 1 else (nbits + 255) / 256 : SizeT).toNat =
      requestedBlocks nbits := by
  have quotient : ((nbits + 255) / 256).toNat = (nbits.toNat + 255) % 2 ^ 64 / 256 := by
    rw [BitVec.toNat_udiv, BitVec.toNat_add]
    rfl
  rw [requestedBlocks, ← quotient]
  split
  · rename_i zero
    rw [zero]
    rfl
  · rename_i nonzero
    have positive : ((nbits + 255) / 256).toNat ≠ 0 := by
      intro zero
      exact nonzero (BitVec.eq_of_toNat_eq zero)
    omega

theorem qbNew_refuses (heap : Heap) {nbits : SizeT} (large : 2 ^ 31 < requestedBlocks nbits) :
    qbNew heap nbits = .ok none := by
  rw [← requestedBlocks_eq] at large
  rw [qbNew, if_pos]
  · rfl
  · rw [BitVec.lt_def]
    exact large

/-- Any other request is rounded up to a power of two and yields the empty
filter with that many blocks, unless the allocator refuses it. -/
theorem qbNew_rounds (heap : Heap) {nbits : SizeT} (small : requestedBlocks nbits ≤ 2 ^ 31) :
    ∃ k ≤ 31, IsLeast (PowersFrom (requestedBlocks nbits)) (2 ^ k) ∧
      qbNew heap nbits = .ok (if heap.malloc sizeofBloomT = true ∧
        heap.posixMemalign 32 (2 ^ k * 32) = true then some (emptyFilter k) else none) := by
  generalize counted : (if (nbits + 255) / 256 = 0 then 1 else (nbits + 255) / 256 : SizeT) = nblocks
  have requested : nblocks.toNat = requestedBlocks nbits := by rw [← counted, requestedBlocks_eq]
  obtain ⟨pow2, rounded, least⟩ := roundPow2_spec (show nblocks.toNat ≤ 2 ^ 63 by omega)
  obtain ⟨k, power⟩ := least.1.1
  rw [requested, power] at least
  have top : 2 ^ k ≤ 2 ^ 31 := least.2 ⟨⟨31, rfl⟩, small⟩
  have bound : k ≤ 31 := (Nat.pow_le_pow_iff_right (by omega)).mp top
  have accepted : ¬ qbMaxNblocks < nblocks := by
    rw [BitVec.lt_def, requested]
    exact Nat.not_lt.mpr small
  have bytes : (pow2 * sbbfBlockBytes).toNat = 2 ^ k * 32 := by
    rw [BitVec.toNat_mul, power]
    exact Nat.mod_eq_of_lt (by change 2 ^ k * 32 < 2 ^ 64; omega)
  have words : 2 ^ k * 32 / 4 = 8 * 2 ^ k := by omega
  refine ⟨k, bound, least, ?_⟩
  simp only [qbNew, counted, if_neg accepted, rounded, Checked.ok_bind, bytes, words,
    nblocksMask_eq power, log2Pow2_eq (show k ≤ 63 by omega) power,
    idxShift_eq (show k ≤ 32 by omega)]
  cases heap.malloc sizeofBloomT <;> cases heap.posixMemalign 32 (2 ^ k * 32) <;> rfl

theorem qbNew_returns {heap : Heap} {nbits : SizeT} {b : BloomT}
    (created : qbNew heap nbits = .ok (some b)) :
    ∃ k ≤ 31, b = emptyFilter k ∧ IsLeast (PowersFrom (requestedBlocks nbits)) (2 ^ k) := by
  rcases Nat.lt_or_ge (2 ^ 31) (requestedBlocks nbits) with large | small
  · rw [qbNew_refuses heap large] at created
    cases created
  · obtain ⟨k, bound, least, result⟩ := qbNew_rounds heap small
    rw [result] at created
    split at created
    · cases created
      exact ⟨k, bound, rfl, least⟩
    · cases created

theorem requestedBlocks_whole {k : Nat} (bound : k ≤ 31) :
    requestedBlocks (BitVec.ofNat 64 (256 * 2 ^ k)) = 2 ^ k := by
  have positive := Nat.two_pow_pos k
  have top : 2 ^ k ≤ 2 ^ 31 := Nat.pow_le_pow_right (by omega) bound
  rw [requestedBlocks, BitVec.toNat_ofNat]
  omega

theorem qbNew_blocks {heap : Heap} (grants : Heap.Grants heap) {k : Nat} (bound : k ≤ 31) :
    qbNew heap (BitVec.ofNat 64 (256 * 2 ^ k)) = .ok (some (emptyFilter k)) := by
  have top : 2 ^ k ≤ 2 ^ 31 := Nat.pow_le_pow_right (by omega) bound
  have requested := requestedBlocks_whole bound
  obtain ⟨j, _, least, result⟩ := qbNew_rounds heap
    (show requestedBlocks (BitVec.ofNat 64 (256 * 2 ^ k)) ≤ 2 ^ 31 by omega)
  have same : 2 ^ j = 2 ^ k := by
    rw [requested] at least
    exact Nat.le_antisymm (least.2 ⟨⟨k, rfl⟩, Nat.le_refl _⟩) least.1.2
  obtain rfl : j = k := Nat.pow_right_injective (Nat.le_refl 2) same
  rw [result, if_pos ⟨grants.1 _, grants.2 _ _⟩]

def neededBlocks (nbits : SizeT) : Nat := (nbits.toNat + 255) / 256

/-- `qb_new` ends, refuses exactly the requests above `QB_MAX_NBLOCKS`, and
otherwise returns the least power of two of blocks that covers the request. -/
def HonoursSize (heap : Heap) (nbits : SizeT) : Prop :=
  ∃ result, qbNew heap nbits = .ok result ∧
    (result = none ↔ qbMaxNblocks.toNat < neededBlocks nbits) ∧
    ∀ b, result = some b →
      IsLeast (PowersFrom (max 1 (neededBlocks nbits))) (b.nblocksMask.toNat + 1) ∧
      nbits.toNat ≤ 32 * b.bits.length

/-- The size contract holds of a request exactly if rounding it up to whole
blocks does not wrap. -/
theorem qbNew_honoursSize_iff {heap : Heap} (grants : Heap.Grants heap) (nbits : SizeT) :
    HonoursSize heap nbits ↔ nbits.toNat + 255 < 2 ^ 64 := by
  have cap : qbMaxNblocks.toNat = 2 ^ 31 := rfl
  refine ⟨?_, ?_⟩
  · intro honours
    obtain ⟨result, returned, refused, _⟩ := honours
    by_contra wraps
    have size := nbits.isLt
    -- The wrapped sum is below 256, so the request looks like one for a single block.
    have requested : requestedBlocks nbits = 1 := by
      rw [requestedBlocks]
      omega
    obtain ⟨k, _, _, built⟩ := qbNew_rounds heap
      (show requestedBlocks nbits ≤ 2 ^ 31 by omega)
    rw [if_pos ⟨grants.1 _, grants.2 _ _⟩] at built
    rw [built] at returned
    cases returned
    have beyond : qbMaxNblocks.toNat < neededBlocks nbits := by
      rw [cap, neededBlocks]
      omega
    cases refused.mpr beyond
  · intro exact
    have requested : requestedBlocks nbits = max 1 (neededBlocks nbits) := by
      rw [requestedBlocks, neededBlocks, Nat.mod_eq_of_lt exact]
    rcases Nat.lt_or_ge (2 ^ 31) (requestedBlocks nbits) with large | small
    · refine ⟨none, qbNew_refuses heap large, ?_, fun b none => by cases none⟩
      have beyond : 2 ^ 31 < neededBlocks nbits := by omega
      simp only [cap, beyond]
    · obtain ⟨k, bound, least, built⟩ := qbNew_rounds heap small
      rw [if_pos ⟨grants.1 _, grants.2 _ _⟩] at built
      have valid := emptyFilter_wellFormed bound
      refine ⟨some (emptyFilter k), built, ?_, ?_⟩
      · have within : ¬ 2 ^ 31 < neededBlocks nbits := by omega
        simp only [cap, within, reduceCtorEq]
      · intro b returned
        cases returned
        rw [valid.blocks, valid.words, ← requested]
        refine ⟨least, ?_⟩
        have covered : requestedBlocks nbits ≤ 2 ^ k := least.1.2
        have whole : nbits.toNat ≤ 256 * neededBlocks nbits := by
          rw [neededBlocks]
          omega
        omega

def ampleHeap : Heap := ⟨fun _ => true, fun _ _ => true⟩

theorem ampleHeap_grants : Heap.Grants ampleHeap := ⟨fun _ => rfl, fun _ _ => rfl⟩

theorem qbNew_honoursSize_iff_million : HonoursSize ampleHeap 1000000 :=
  (qbNew_honoursSize_iff ampleHeap_grants 1000000).mpr (by decide)

/-- Asked for `2 ^ 64 - 1` bits, `qb_new` returns a filter of one block. -/
theorem qbNew_wraps : qbNew ampleHeap (BitVec.allOnes 64) = .ok (some (emptyFilter 0)) ∧
    ¬ HonoursSize ampleHeap (BitVec.allOnes 64) := by
  have built : qbNew ampleHeap (BitVec.allOnes 64) = .ok (some (emptyFilter 0)) := by decide
  refine ⟨built, ?_⟩
  intro honours
  obtain ⟨result, returned, refused, _⟩ := honours
  rw [built] at returned
  cases returned
  cases refused.mpr (by decide)

end Quickbloom.Filter
