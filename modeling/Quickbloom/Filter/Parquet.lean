import Quickbloom.Filter.Runs
import Quickbloom.Source.Impala

namespace Quickbloom.Filter

open Quickbloom.Machine Quickbloom.Source Quickbloom.Probe

/-! # Bit identity with the scalar split-block filter

The scalar filter selects blocks by a multiplication and goes through its lanes
one at a time. For a power of two of blocks both filters set the same cells.
-/

theorem sbbfSalt_eq : Impala.sbbfSalt = maskSalt := by
  have lanes : ∀ lane, Impala.sbbfSalt lane = maskSalt lane := by decide
  exact funext lanes

theorem blockMask_eq (h32 : Uint32) : Impala.blockMask h32 = maskFor h32 := by
  funext lane
  rw [Impala.blockMask, sbbfSalt_eq]
  rfl

section Lanes

variable {bits : Words} {block : Nat} (mask : M256i)

theorem orLane_contents (inside : 8 * block + 8 ≤ bits.length) (lane : Fin 8) :
    ∃ after, Impala.orLane (8 * block) mask bits lane = .ok after ∧ after.length = bits.length ∧
      contents after = contents bits ∪ laneCells block mask [lane] := by
  refine ⟨bits.set (8 * block + lane) (readVector bits (8 * block) lane ||| mask lane),
    ?_, List.length_set, contents_set inside mask lane⟩
  rw [Impala.orLane, readVector_eq inside lane]

theorem orLanes_contents (inside : 8 * block + 8 ≤ bits.length) (lanes : List (Fin 8)) :
    ∃ after, lanes.foldlM (Impala.orLane (8 * block) mask) bits = .ok after ∧
      after.length = bits.length ∧ contents after = contents bits ∪ laneCells block mask lanes := by
  induction lanes generalizing bits with
  | nil =>
      refine ⟨bits, rfl, rfl, ?_⟩
      simp [laneCells]
  | cons lane rest ih =>
      obtain ⟨next, set, nextLength, nextContents⟩ := orLane_contents mask inside lane
      obtain ⟨after, ran, length, cells⟩ := ih (nextLength.symm ▸ inside)
      refine ⟨after, ?_, length.trans nextLength, ?_⟩
      · rw [List.foldlM_cons, set]
        exact ran
      · rw [cells, nextContents, Set.union_assoc]
        congr 1
        ext cell
        simp only [laneCells, Set.mem_union, Set.mem_ofPred_eq, List.mem_cons, List.not_mem_nil,
          or_false, or_and_right, and_or_left]

theorem testLanes_hit (inside : 8 * block + 8 ≤ bits.length) (lanes : List (Fin 8)) :
    ∃ hit ≤ 1, Impala.testLanes bits (8 * block) mask lanes = .ok hit ∧
      (hit ≠ 0 ↔ ∀ lane ∈ lanes, Subword (mask lane) (readVector bits (8 * block) lane)) := by
  induction lanes with
  | nil => exact ⟨1, Nat.le_refl 1, rfl, by simp⟩
  | cons lane rest ih =>
      have decided := and_eq_right_iff (readVector bits (8 * block) lane) (mask lane)
      simp only [Impala.testLanes, readVector_eq inside lane, List.forall_mem_cons, ← decided]
      by_cases covered : readVector bits (8 * block) lane &&& mask lane = mask lane
      · obtain ⟨hit, bound, tested, iff⟩ := ih
        refine ⟨hit, bound, ?_, ?_⟩
        · rw [if_neg (not_not.mpr covered), tested]
        · simp only [covered, true_and]
          exact iff
      · exact ⟨0, Nat.zero_le 1, if_pos covered, by simp [covered]⟩

end Lanes

section Scalar

variable {k : Nat} {b : BloomT} {scalar : Impala.BloomT}

/-- Multiplying by a power of two and taking the upper half is a right shift. -/
theorem multiplyShift_eq (bound : k ≤ 32) (hi : Nat) : hi * 2 ^ k / 2 ^ 32 = hi / 2 ^ (32 - k) := by
  have split : 2 ^ 32 = 2 ^ (32 - k) * 2 ^ k := by rw [← Nat.pow_add, Nat.sub_add_cancel bound]
  rw [split, Nat.mul_div_mul_right _ _ (Nat.two_pow_pos k)]

theorem Impala.blockFor_eq (bound : k ≤ 31) (nblocks : scalar.nblocks.toNat = 2 ^ k) (h : Uint64) :
    Impala.blockFor scalar h = 8 * blockIndex k h := by
  have upper := upperHalf_lt h
  have top : 2 ^ k ≤ 2 ^ 31 := Nat.pow_le_pow_right (by omega) bound
  have product : h.toNat / 2 ^ 32 * 2 ^ k < 2 ^ 64 :=
    Nat.lt_of_lt_of_le (Nat.mul_lt_mul_of_lt_of_le upper top (Nat.two_pow_pos 31)) (by decide)
  have index : ((((h >>> 32).setWidth 32 : Uint32).setWidth 64 * scalar.nblocks) >>> 32).toNat =
      blockIndex k h := by
    rw [BitVec.toNat_ushiftRight, BitVec.toNat_mul, upperHalf_toNat, nblocks,
      Nat.mod_eq_of_lt product, Nat.shiftRight_eq_div_pow, multiplyShift_eq (by omega),
      blockIndex_upperHalf (by omega)]
  simp only [Impala.blockFor, index, Nat.mul_comm]

structure Simulates (k : Nat) (b : BloomT) (scalar : Impala.BloomT) : Prop where
  valid : WellFormed k b
  nblocks : scalar.nblocks.toNat = 2 ^ k
  bits : scalar.bits = b.bits

theorem Simulates.insert (same : Simulates k b scalar) (h : Uint64) :
    ∃ next scalarNext, b.call (Operand.prehash h).insert = .ok next ∧
      Impala.bloomInsertPrehash scalar h = .ok scalarNext ∧ Simulates k next scalarNext := by
  obtain ⟨valid, nblocks, bits⟩ := same
  have bound := valid.bound
  have inside : 8 * blockIndex k h + 8 ≤ scalar.bits.length := bits ▸ valid.inside valid.words h
  obtain ⟨next, called, nextValid, cells, _⟩ := valid.insert_call (.prehash h)
  obtain ⟨words, set, length, scalarCells⟩ :=
    orLanes_contents (maskFor (h.setWidth 32)) inside (List.finRange 8)
  have lanes : laneCells (blockIndex k h) (maskFor (h.setWidth 32)) (List.finRange 8) =
      probe k h := by
    rw [← maskCells_maskFor]
    ext cell
    simp only [laneCells, maskCells, Set.mem_ofPred_eq, List.mem_finRange, true_and]
  refine ⟨next, { scalar with bits := words }, called, ?_, nextValid, nblocks, ?_⟩
  · simp only [Impala.bloomInsertPrehash, Impala.blockFor_eq bound nblocks, blockMask_eq, set,
      Checked.ok_bind, Checked.pure_eq_ok]
  · apply contents_injective ((length.trans (congrArg _ bits)).trans valid.words) nextValid.words
    rw [scalarCells, lanes, cells, bits]
    rfl

theorem Simulates.contains (same : Simulates k b scalar) (h : Uint64) :
    ∃ found, b.run (qbContainsPrehash b h) = .ok (found, b) ∧
      Impala.bloomContainsPrehash scalar h = .ok found := by
  obtain ⟨valid, nblocks, bits⟩ := same
  have inside := valid.inside valid.words h
  have bound := valid.bound
  obtain ⟨hit, small, tested, covered⟩ :=
    testLanes_hit (maskFor (h.setWidth 32)) inside (List.finRange 8)
  refine ⟨hit, ?_, ?_⟩
  · have equal : mm256TestcSi256 (readVector b.bits (8 * blockIndex k h))
        (maskFor (h.setWidth 32)) = hit := by
      have flag := mm256TestcSi256_le_one (readVector b.bits (8 * blockIndex k h))
        (maskFor (h.setWidth 32))
      have answer := mm256TestcSi256_ne_zero_iff (readVector b.bits (8 * blockIndex k h))
        (maskFor (h.setWidth 32))
      simp only [List.mem_finRange, true_imp_iff] at covered
      rw [← covered] at answer
      omega
    rw [valid.qbContainsPrehash_eq, BloomT.run, Program.exec_load (by omega) inside,
      Program.exec_done, equal]
    rfl
  · simp only [Impala.bloomContainsPrehash, Impala.blockFor_eq bound nblocks, blockMask_eq, bits,
      tested]

theorem Simulates.run (same : Simulates k b scalar) (hashes : List Uint64) :
    ∃ after scalarAfter, insertRun b (hashes.map .prehash) = .ok after ∧
      hashes.foldlM Impala.bloomInsertPrehash scalar = .ok scalarAfter ∧
      Simulates k after scalarAfter := by
  induction hashes generalizing b scalar with
  | nil => exact ⟨b, scalar, rfl, rfl, same⟩
  | cons h rest ih =>
      obtain ⟨next, scalarNext, called, set, nextSame⟩ := same.insert h
      obtain ⟨after, scalarAfter, ran, scalarRan, afterSame⟩ := ih nextSame
      refine ⟨after, scalarAfter, ?_, ?_, afterSame⟩
      · rw [insertRun, List.map_cons, List.map_cons, BloomT.callEach, List.foldlM_cons, called]
        exact ran
      · rw [List.foldlM_cons, set]
        exact scalarRan

end Scalar

def emptyScalar (k : Nat) : Impala.BloomT where
  bits := List.replicate (8 * 2 ^ k) 0
  nblocks := BitVec.ofNat 64 (2 ^ k)

theorem bloomNew_blocks {heap : Heap} (grants : Heap.Grants heap) {k : Nat} (bound : k ≤ 31) :
    Impala.bloomNew heap (BitVec.ofNat 64 (256 * 2 ^ k)) = .ok (emptyScalar k) := by
  have top : 2 ^ k ≤ 2 ^ 31 := Nat.pow_le_pow_right (by omega) bound
  have requested := requestedBlocks_whole bound
  generalize BitVec.ofNat 64 (256 * 2 ^ k) = nbits at requested ⊢
  generalize counted : (if (nbits + 255) / 256 = 0 then 1 else (nbits + 255) / 256 : SizeT) = nblocks
  have blocks : nblocks.toNat = 2 ^ k := by rw [← counted, requestedBlocks_eq, requested]
  have count : nblocks = BitVec.ofNat 64 (2 ^ k) := by
    rw [← blocks, BitVec.ofNat_toNat, BitVec.setWidth_eq]
  have bytes : (nblocks * sbbfBlockBytes).toNat = 2 ^ k * 32 := by
    rw [BitVec.toNat_mul, blocks]
    exact Nat.mod_eq_of_lt (by change 2 ^ k * 32 < 2 ^ 64; omega)
  have words : 2 ^ k * 32 / 4 = 8 * 2 ^ k := by omega
  simp only [Impala.bloomNew, counted, grants.1, grants.2, bytes, words]
  rw [count]
  rfl

theorem emptyFilter_simulates {k : Nat} (bound : k ≤ 31) :
    Simulates k (emptyFilter k) (emptyScalar k) := by
  have top : 2 ^ k ≤ 2 ^ 31 := Nat.pow_le_pow_right (by omega) bound
  refine ⟨emptyFilter_wellFormed bound, ?_, rfl⟩
  rw [emptyScalar, BitVec.toNat_ofNat]
  exact Nat.mod_eq_of_lt (by omega)

/-- Asked for the same power of two of blocks, the two libraries start from the
same words, have the same words after every sequence of hashes, and give the
same answer on every hash. -/
theorem parquet_bitIdentical {heap : Heap} (grants : Heap.Grants heap) {k : Nat} (bound : k ≤ 31)
    (hashes : List Uint64) :
    qbNew heap (BitVec.ofNat 64 (256 * 2 ^ k)) = .ok (some (emptyFilter k)) ∧
    Impala.bloomNew heap (BitVec.ofNat 64 (256 * 2 ^ k)) = .ok (emptyScalar k) ∧
    (emptyFilter k).idxShift.toNat = 32 - k ∧ (emptyScalar k).nblocks.toNat = 2 ^ k ∧
    ∃ b scalar, insertRun (emptyFilter k) (hashes.map .prehash) = .ok b ∧
      hashes.foldlM Impala.bloomInsertPrehash (emptyScalar k) = .ok scalar ∧
      b.bits = scalar.bits ∧
      ∀ h, ∃ found, b.run (qbContainsPrehash b h) = .ok (found, b) ∧
        Impala.bloomContainsPrehash scalar h = .ok found := by
  have same := emptyFilter_simulates bound
  obtain ⟨b, scalar, ran, scalarRan, afterSame⟩ := same.run hashes
  exact ⟨qbNew_blocks grants bound, bloomNew_blocks grants bound, same.valid.shift, same.nblocks,
    b, scalar, ran, scalarRan, afterSame.bits.symm, afterSame.contains⟩

theorem parquet_bitIdentical_eightBlocks :
    ∃ b scalar, insertRun (emptyFilter 3)
        [.prehash 7, .prehash 0xC0FFEE, .prehash (5 <<< 61), .prehash (5 <<< 61 + 1)] = .ok b ∧
      [7, 0xC0FFEE, 5 <<< 61, 5 <<< 61 + 1].foldlM Impala.bloomInsertPrehash (emptyScalar 3) =
        .ok scalar ∧
      b.bits = scalar.bits ∧
      ∀ h, ∃ found, b.run (qbContainsPrehash b h) = .ok (found, b) ∧
        Impala.bloomContainsPrehash scalar h = .ok found := by
  obtain ⟨_, _, _, _, b, scalar, ran, scalarRan, bits, answers⟩ :=
    parquet_bitIdentical ampleHeap_grants (show 3 ≤ 31 by omega)
      [7, 0xC0FFEE, 5 <<< 61, 5 <<< 61 + 1]
  exact ⟨b, scalar, ran, scalarRan, bits, answers⟩

end Quickbloom.Filter
