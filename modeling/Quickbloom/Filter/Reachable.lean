import Quickbloom.Filter.Runs

namespace Quickbloom.Filter

open Quickbloom.Data Quickbloom.Machine Quickbloom.Source Quickbloom.Probe

/-! # Reachable filters -/

inductive Call where
  | insert (operand : Operand)
  | contains (operand : Operand)

def Call.step (b : BloomT) : Call → Checked BloomT
  | .insert operand => b.call operand.insert
  | .contains operand => do
    let result ← b.run (operand.contains b)
    return result.2

def callRun (b : BloomT) (calls : List Call) : Checked BloomT := calls.foldlM Call.step b

inductive Constructed (build : Build) (heap : Heap) (b : BloomT) : Prop where
  | new (nbits : SizeT) (returned : qbNew heap nbits = .ok (some b))
  | deserialize (bytes : Option (Pointer Byte)) (nbytes : SizeT)
      (returned : qbDeserialize build heap bytes nbytes = .ok (some b))

theorem Constructed.wellFormed {build : Build} {heap : Heap} {b : BloomT}
    (ceiling : build.qbDeserializeMaxBytes = 1 <<< 30) (constructed : Constructed build heap b) :
    ∃ k, WellFormed k b := by
  cases constructed with
  | new nbits returned =>
      obtain ⟨k, bound, rfl, _⟩ := qbNew_returns returned
      exact ⟨k, emptyFilter_wellFormed bound⟩
  | deserialize bytes nbytes returned =>
      obtain ⟨k, loaded, capped, size, _, rfl⟩ := qbDeserialize_returns returned
      rw [ceiling, size] at capped
      change 32 * 2 ^ k ≤ 2 ^ 30 at capped
      have bound : k ≤ 25 := (Nat.pow_le_pow_iff_right (by omega)).mp (by omega : 2 ^ k ≤ 2 ^ 25)
      exact ⟨k, loadedFilter_wellFormed (by omega) loaded⟩

section Run

variable {k : Nat} {b : BloomT}

theorem WellFormed.call_step (valid : WellFormed k b) (call : Call) :
    ∃ after, Call.step b call = .ok after ∧ WellFormed k after ∧
      after.nblocksMask = b.nblocksMask ∧ after.idxShift = b.idxShift := by
  cases call with
  | insert operand =>
      obtain ⟨after, called, afterValid, _, header⟩ := valid.insert_call operand
      exact ⟨after, called, afterValid, header⟩
  | contains operand =>
      obtain ⟨found, ran⟩ := valid.contains_run operand
      exact ⟨b, by rw [Call.step, ran]; rfl, valid, rfl, rfl⟩

theorem WellFormed.callRun_ok (valid : WellFormed k b) (calls : List Call) :
    ∃ after, callRun b calls = .ok after ∧ WellFormed k after ∧
      after.nblocksMask = b.nblocksMask ∧ after.idxShift = b.idxShift := by
  induction calls generalizing b with
  | nil => exact ⟨b, rfl, valid, rfl, rfl⟩
  | cons call rest ih =>
      obtain ⟨next, stepped, nextValid, nextMask, nextShift⟩ := valid.call_step call
      obtain ⟨after, ran, afterValid, mask, shift⟩ := ih nextValid
      refine ⟨after, ?_, afterValid, mask.trans nextMask, shift.trans nextShift⟩
      rw [callRun, List.foldlM_cons, stepped]
      exact ran

theorem HeaderOf.log2Pow2_eq (header : HeaderOf k b) :
    log2Pow2 (b.nblocksMask + 1) = .ok (BitVec.ofNat 32 k) := by
  have bound := header.bound
  exact Filter.log2Pow2_eq (by omega) header.nblocks_toNat

end Run

/-- Whatever calls are made on a constructed filter, they return, the array,
the mask and the shift stay those of one power of two of blocks, queries
change nothing and every hash selects eight words of the array. -/
theorem callRun_inBounds {build : Build} {heap : Heap} {b : BloomT}
    (ceiling : build.qbDeserializeMaxBytes = 1 <<< 30) (constructed : Constructed build heap b)
    (calls : List Call) :
    ∃ after k, callRun b calls = .ok after ∧ k ≤ 31 ∧
      after.nblocksMask.toNat + 1 = 2 ^ k ∧ after.idxShift.toNat = 32 - k ∧
      (1 ≤ after.idxShift.toNat ∧ after.idxShift.toNat ≤ 32) ∧
      after.bits.length = 8 * 2 ^ k ∧
      after.nblocksMask = b.nblocksMask ∧ after.idxShift = b.idxShift ∧
      (∀ operand : Operand, Call.step after (.contains operand) = .ok after) ∧
      (∀ h, ∃ offset, blockFor after h = .ok offset ∧ offset + 8 ≤ after.bits.length) ∧
      log2Pow2 (after.nblocksMask + 1) = .ok (BitVec.ofNat 32 k) := by
  obtain ⟨k, valid⟩ := constructed.wellFormed ceiling
  obtain ⟨after, ran, afterValid, mask, shift⟩ := valid.callRun_ok calls
  have header := afterValid.toHeaderOf
  have bound := header.bound
  refine ⟨after, k, ran, bound, header.blocks, header.shift, ?_, afterValid.words, mask, shift,
    ?_, ?_, header.log2Pow2_eq⟩
  · rw [header.shift]
    omega
  · intro operand
    obtain ⟨found, unchanged⟩ := afterValid.contains_run operand
    rw [Call.step, unchanged]
    rfl
  · intro h
    exact ⟨8 * blockIndex k h, header.blockFor_eq h, header.inside afterValid.words h⟩

theorem callRun_inBounds_single :
    ∃ after k, callRun (emptyFilter 0) [.insert (.prehash 7), .contains (.prehash 9)] = .ok after ∧
      k ≤ 31 ∧ after.bits.length = 8 * 2 ^ k := by
  have constructed : Constructed {} ampleHeap (emptyFilter 0) := .new 0 (by decide)
  obtain ⟨after, k, ran, bound, _, _, _, words, _⟩ :=
    callRun_inBounds rfl constructed [.insert (.prehash 7), .contains (.prehash 9)]
  exact ⟨after, k, ran, bound, words⟩

end Quickbloom.Filter
