import Quickbloom.Data.Spread
import Quickbloom.Filter.Reachable

namespace Quickbloom.Filter

open Quickbloom.Data Quickbloom.Machine Quickbloom.Source Quickbloom.Probe

/-! # Hashes spread evenly over the cells

The block comes from the upper half of a hash and the positions from the lower
half. All salts are odd, so each lane sees a permutation of the lower halves.
-/

/-- The inverses of the salts, lane by lane. -/
def saltInverse : M256i :=
  mm256SetEpi32 0x87017dd1 0x356e9077 0x8017f763 0x0aac9bf7
    0xc3789db5 0x5f43bad3 0x80a51371 0x8246d3b3

theorem maskSalt_unit (lane : Fin 8) : maskSalt lane * saltInverse lane = 1 := by
  revert lane
  decide

/-- The lower halves that select one position in a lane. -/
theorem ncard_lanePosition (lane : Fin 8) {t : Nat} (inside : t < 32) :
    {lower : Uint32 | ((lower * maskSalt lane) >>> 27).toNat = t}.ncard = 2 ^ 27 := by
  simp only [BitVec.toNat_ushiftRight, Nat.shiftRight_eq_div_pow]
  rw [ncard_mul_unit (saltInverse lane) (maskSalt_unit lane) fun word => word.toNat / 2 ^ 27 = t]
  exact ncard_upperBits (by omega) (by omega)

theorem ncard_cell {k j t : Nat} (bound : k ≤ 31) (block : j < 2 ^ k) (lane : Fin 8)
    (inside : t < 32) :
    {h : Uint64 | blockIndex k h = j ∧ lanePosition lane h = t}.ncard = 2 ^ (59 - k) := by
  have upper : {upper : Uint32 | upper.toNat / 2 ^ (32 - k) = j}.ncard = 2 ^ (32 - k) := by
    apply ncard_upperBits (by omega)
    rwa [Nat.sub_sub_self (by omega)]
  have joined := ncard_parts (m := 32) (n := 32) (fun upper => upper / 2 ^ (32 - k) = j)
    fun lower => ((lower * maskSalt lane) >>> 27).toNat = t
  rw [upper, ncard_lanePosition lane inside, ← Nat.pow_add] at joined
  have total : 32 - k + 27 = 59 - k := by omega
  rw [← total, ← joined]
  congr 1
  ext h
  simp only [Set.mem_ofPred_eq, blockIndex_upperHalf (show k ≤ 32 by omega), lanePosition]

section Filters

variable {k : Nat} {b : BloomT}

theorem Constructed.wellFormed_blocks {build : Build} {heap : Heap}
    (constructed : Constructed build heap b) (bound : k ≤ 31)
    (blocks : b.nblocksMask.toNat + 1 = 2 ^ k) : WellFormed k b := by
  have same {made : Nat} (counted : b.nblocksMask.toNat + 1 = 2 ^ made) : made = k :=
    Nat.pow_right_injective (Nat.le_refl 2) (counted.symm.trans blocks)
  cases constructed with
  | new nbits returned =>
      obtain ⟨made, within, rfl, _⟩ := qbNew_returns returned
      have valid := emptyFilter_wellFormed within
      have exponent := same valid.blocks
      subst exponent
      exact valid
  | deserialize bytes nbytes returned =>
      obtain ⟨made, loaded, _, size, _, rfl⟩ := qbDeserialize_returns returned
      have fits := nbytes.isLt
      have exponent := same (loadedFilter_blocks (by omega) loaded)
      subst exponent
      exact loadedFilter_wellFormed bound loaded

theorem HeaderOf.selects_iff (header : HeaderOf k b) {j : Nat} (h : Uint64) :
    blockFor b h = .ok (8 * j) ↔ blockIndex k h = j := by
  rw [header.blockFor_eq, Except.ok.injEq]
  omega

/-- The hashes that select block `j` and set bit `t` of `lane`. -/
def selecting (b : BloomT) (j : Nat) (lane : Fin 8) (t : Nat) : Set Uint64 :=
  {h | blockFor b h = .ok (8 * j) ∧ (maskFor (h.setWidth 32) lane).getLsbD t = true}

theorem HeaderOf.ncard_selecting (header : HeaderOf k b) {j t : Nat} (block : j < 2 ^ k)
    (lane : Fin 8) (inside : t < 32) : (selecting b j lane t).ncard = 2 ^ (59 - k) := by
  rw [← ncard_cell header.bound block lane inside, selecting]
  congr 1
  ext h
  simp only [Set.mem_ofPred_eq, header.selects_iff, maskFor_bit, decide_eq_true_eq,
    eq_comm (a := t)]

/-- On every constructed filter of `2 ^ k` blocks, after any calls, all bits of
the array are selected by the same number of hashes, so none is dead, and a
hash sets one bit in each lane of one block. -/
theorem callRun_spread {build : Build} {heap : Heap} (constructed : Constructed build heap b)
    (bound : k ≤ 31) (blocks : b.nblocksMask.toNat + 1 = 2 ^ k) (calls : List Call) :
    ∃ after, callRun b calls = .ok after ∧ after.nblocksMask.toNat + 1 = 2 ^ k ∧
      after.bits.length = 8 * 2 ^ k ∧
      (∀ j < 2 ^ k, ∀ lane, ∀ t < 32, (selecting after j lane t).ncard = 2 ^ (59 - k)) ∧
      (∀ index < after.bits.length, ∀ t < 32,
        ∃ j lane h, index = 8 * j + lane.val ∧ h ∈ selecting after j lane t) ∧
      ∀ h, ∃ j < 2 ^ k, ∃ position : Fin 8 → Nat,
        blockFor after h = .ok (8 * j) ∧
        (∀ lane, position lane < 32 ∧
          ∀ t, (maskFor (h.setWidth 32) lane).getLsbD t = decide (t = position lane)) ∧
        ∃ next, after.call (fun b => qbInsertPrehash b h) = .ok next ∧
          contents next.bits =
            contents after.bits ∪ {cell | cell.1 = j ∧ cell.2.2 = position cell.2.1} := by
  have valid := constructed.wellFormed_blocks bound blocks
  obtain ⟨after, ran, afterValid, _⟩ := valid.callRun_ok calls
  have header := afterValid.toHeaderOf
  have counted : ∀ j < 2 ^ k, ∀ lane, ∀ t < 32,
      (selecting after j lane t).ncard = 2 ^ (59 - k) :=
    fun j block lane t inside => header.ncard_selecting block lane inside
  refine ⟨after, ran, header.blocks, afterValid.words, counted, ?_, ?_⟩
  · intro index inside t small
    have words := afterValid.words
    have block : index / 8 < 2 ^ k := by omega
    let lane : Fin 8 := ⟨index % 8, Nat.mod_lt _ (by omega)⟩
    have some : (selecting after (index / 8) lane t).ncard ≠ 0 := by
      rw [counted _ block lane t small]
      exact (Nat.two_pow_pos _).ne'
    obtain ⟨h, selected⟩ := Set.nonempty_of_ncard_ne_zero some
    exact ⟨index / 8, lane, h, (Nat.div_add_mod index 8).symm, selected⟩
  · intro h
    obtain ⟨next, called, _, cells, _⟩ := afterValid.insert_call (.prehash h)
    refine ⟨blockIndex k h, blockIndex_lt (by omega) h, fun lane => lanePosition lane h,
      header.blockFor_eq h, ?_, next, called, cells⟩
    exact fun lane => ⟨lanePosition_lt lane h, maskFor_bit h lane⟩

theorem callRun_spread_largest :
    ∃ after, callRun (emptyFilter 31) [.insert (.prehash 7)] = .ok after ∧
      (selecting after 5 3 31).ncard = 2 ^ 28 := by
  have constructed : Constructed {} ampleHeap (emptyFilter 31) :=
    .new (BitVec.ofNat 64 (256 * 2 ^ 31)) (qbNew_blocks ampleHeap_grants (Nat.le_refl 31))
  obtain ⟨after, ran, _, _, counted, _⟩ :=
    callRun_spread constructed (Nat.le_refl 31) (emptyFilter_wellFormed (by omega)).blocks
      [.insert (.prehash 7)]
  exact ⟨after, ran, counted 5 (by omega) 3 31 (by omega)⟩

end Filters

end Quickbloom.Filter
