import Quickbloom.Krassovsky.Masks

namespace Quickbloom.Krassovsky

open Quickbloom.Data Quickbloom.Machine.Epi64 Quickbloom.Source.Krassovsky
open Quickbloom.Machine (Checked Pointer load64 strideLoop_groups map_getD_range)
open Quickbloom.Source (Uint64)

/-! # The 8-way path is the scalar path on eight hashes

Lane by lane the vector code computes the masks and the block indices of the
scalar code. The stores of a batch are made one after the other, so aliased
blocks take in each other's bits.
-/

variable (table : MaskTable)

/-- A rotation by 0 shifts the lower part out by 64, which leaves no bit, as
the scalar code has it by a case of its own. -/
theorem constructMaskAvx2_eq (hash : M256i) :
    constructMaskAvx2 table hash = .ok fun lane => maskOf table (hash lane) := by
  have size : maskBytes = 136 := rfl
  have raw : mm256I64gatherEpi64 (fun index => load64 ((Pointer.start table.toList).add index))
      (mm256SrliEpi64 (mm256AndSi256 hash
        (mm256Set1Epi64x (((1 : Uint64) <<< logNumMasks) - 1))) 3) =
      .ok fun lane => tableWord table (maskIndex (hash lane) / 8) := by
    apply mm256I64gatherEpi64_ok
    intro lane
    have small : maskIndex (hash lane) < 1024 := Nat.mod_lt _ (by omega)
    have byte : ((hash lane &&& (((1 : Uint64) <<< logNumMasks) - 1)) >>> 3).toNat =
        maskIndex (hash lane) / 8 := by
      rw [BitVec.toNat_ushiftRight, maskIndex_toNat, Nat.shiftRight_eq_div_pow]
    simp only [mm256SrliEpi64, mm256AndSi256, mm256Set1Epi64x, byte]
    exact load64_table table (by omega)
  rw [constructMaskAvx2]
  simp only [raw, Checked.ok_bind, Checked.pure_eq_ok, Except.ok.injEq]
  funext lane
  have bit : (hash lane &&& (((1 : Uint64) <<< logNumMasks) - 1) &&& 7).toNat =
      maskIndex (hash lane) % 8 := by
    rw [← maskIndex_toNat]
    exact and_mask_toNat (k := 3) rfl _
  have turn : maskRotation (hash lane) < 64 := Nat.mod_lt _ (by omega)
  have rotation := maskRotation_toNat (hash lane)
  have count : (64 - (hash lane >>> logNumMasks &&& (((1 : Uint64) <<< rotateBits) - 1))).toNat =
      64 - maskRotation (hash lane) := by
    rw [BitVec.toNat_sub_of_le (by
      rw [BitVec.le_def, rotation]
      exact Nat.le_of_lt turn), rotation]
    rfl
  simp only [mm256OrSi256, mm256SllvEpi64, mm256SrlvEpi64, mm256SubEpi64, mm256AndSi256,
    mm256SrliEpi64, mm256Set1Epi64x, bit, rotation, count]
  rfl

/-- The blocks and masks of a batch do not depend on what it stores. -/
theorem orBlock_mask {b after : BloomT} {index mask : Uint64}
    (stored : orBlock b index mask = .ok after) : after.numBlocksMask = b.numBlocksMask := by
  obtain ⟨block, _, last⟩ := Checked.bind_eq_ok stored
  cases last
  rfl

theorem bloomInsertPrehash_eq (b : BloomT) (h : Uint64) :
    bloomInsertPrehash table b h = orBlock b (blockIdxScalar b h) (maskOf table h) := by
  rw [bloomInsertPrehash, constructMaskScalar_eq]
  rfl

def orEach (b : BloomT) (stores : List (Uint64 × Uint64)) : Checked BloomT :=
  stores.foldlM (fun b store => orBlock b store.1 store.2) b

theorem insertEach_eq (b origin : BloomT) (same : b.numBlocksMask = origin.numBlocksMask)
    (hashes : List Uint64) :
    hashes.foldlM (bloomInsertPrehash table) b =
      orEach b (hashes.map fun h => (blockIdxScalar origin h, maskOf table h)) := by
  induction hashes generalizing b with
  | nil => rfl
  | cons h rest ih =>
      have index : blockIdxScalar b h = blockIdxScalar origin h := by
        rw [blockIdxScalar, blockIdxScalar, same]
      rw [List.foldlM_cons, bloomInsertPrehash_eq, index, orEach, List.map_cons, List.foldlM_cons]
      cases stored : orBlock b (blockIdxScalar origin h) (maskOf table h) with
      | error reason => rfl
      | ok next => exact ih next ((orBlock_mask stored).trans same)

section Batch

variable {pointer : Pointer Uint64} {hash : Nat → Uint64} {i : Nat}

theorem loadu_pair (reads : ∀ j < 8, pointer.read j = .ok (hash (i + j))) :
    mm256LoaduSi256 (pointer.add 0) = .ok (fun lane => hash (i + lane)) ∧
      mm256LoaduSi256 (pointer.add 4) = .ok (fun lane => hash (i + (4 + lane))) := by
  refine ⟨?_, ?_⟩
  · apply mm256LoaduSi256_ok
    intro lane
    rw [Pointer.add_read, Nat.zero_add]
    exact reads lane (by omega)
  · apply mm256LoaduSi256_ok
    intro lane
    rw [Pointer.add_read]
    exact reads (4 + lane) (by omega)

theorem bloomInsertBatch8_eq (b : BloomT) (hash : Nat → Uint64)
    (reads : ∀ j < 8, pointer.read j = .ok (hash (i + j))) :
    bloomInsertBatch8 table b pointer =
      ((List.range' i 8).map hash).foldlM (bloomInsertPrehash table) b := by
  obtain ⟨hA, hB⟩ := loadu_pair reads
  rw [insertEach_eq table b b rfl, bloomInsertBatch8, hA, hB]
  simp only [Checked.ok_bind, constructMaskAvx2_eq, mm256ExtractEpi64]
  simp only [orEach, List.range', List.map_cons, List.map_nil, List.foldlM_cons, List.foldlM_nil,
    bind_pure]
  rfl

end Batch

section Bulk

variable {pointer : Pointer Uint64} {hashes : List Uint64}

theorem read_group (holds : pointer.Holds hashes) {i : Nat} (within : i + 8 ≤ hashes.length) :
    ∀ j < 8, (pointer.add i).read j = .ok (hashes.getD (i + j) 0) := by
  intro j bound
  rw [Pointer.add_read]
  exact holds.read_getD (by omega)

theorem bloomInsertBatch8Bulk_eq (holds : pointer.Holds hashes) (b : BloomT) :
    bloomInsertBatch8Bulk table b pointer hashes.length =
      hashes.foldlM (bloomInsertPrehash table) b := by
  have groups : ∀ b i, i + 8 ≤ hashes.length → bloomInsertBatch8 table b (pointer.add i) =
      (List.range' i 8).foldlM (fun b i => bloomInsertPrehash table b (hashes.getD i 0)) b := by
    intro b i within
    rw [bloomInsertBatch8_eq table b (hashes.getD · 0) (read_group holds within), List.foldlM_map]
  have singles : ∀ b i, i + 1 ≤ hashes.length →
      (do bloomInsertPrehash table b (← pointer.read i) : Checked BloomT) =
        bloomInsertPrehash table b (hashes.getD i 0) := by
    intro b i within
    have entry : pointer.read i = .ok (hashes.getD i 0) := holds.read_getD (by omega)
    rw [entry]
    rfl
  rw [bloomInsertBatch8Bulk, ← bind_assoc, strideLoop_groups _ (by omega) groups singles, bind_assoc,
    ← List.foldlM_map (f := fun i => hashes.getD i 0), map_getD_range]
  exact bind_pure _

end Bulk

/-- A filter of `2 ^ k` blocks with the mask that belongs to them. -/
structure Sized (k : Nat) (b : BloomT) : Prop where
  blocks : b.numBlocks.toNat = 2 ^ k
  mask : b.numBlocksMask = b.numBlocks - 1
  words : b.bv.length = 2 ^ k

section Queries

variable {k : Nat} {b : BloomT}

theorem Sized.mask_toNat (sized : Sized k b) : b.numBlocksMask.toNat + 1 = 2 ^ k := by
  rw [sized.mask]
  exact low_mask_toNat sized.blocks

theorem Sized.inside (sized : Sized k b) (h : Uint64) :
    (blockIdxScalar b h).toNat < b.bv.length := by
  have positive : 0 < 2 ^ k := Nat.two_pow_pos k
  rw [blockIdxScalar, and_mask_toNat sized.mask_toNat, sized.words]
  exact Nat.mod_lt _ positive

def blockOf (b : BloomT) (h : Uint64) : Uint64 := b.bv.getD (blockIdxScalar b h).toNat 0

def isHit (b : BloomT) (h : Uint64) : Bool := blockOf b h &&& maskOf table h = maskOf table h

theorem Sized.readBlock_eq (sized : Sized k b) (h : Uint64) :
    readBlock b (blockIdxScalar b h).toNat = .ok (blockOf b h) :=
  (Pointer.start_holds b.bv).read_getD (sized.inside h)

theorem Sized.bloomContainsPrehash_eq (sized : Sized k b) (h : Uint64) :
    bloomContainsPrehash table b h = .ok (isHit table b h).toNat := by
  rw [bloomContainsPrehash, constructMaskScalar_eq]
  simp only [Checked.ok_bind, sized.readBlock_eq, isHit, Checked.pure_eq_ok]
  by_cases hit : blockOf b h &&& maskOf table h = maskOf table h
  · rw [if_pos hit, decide_eq_true hit]
    rfl
  · rw [if_neg hit, decide_eq_false hit]
    rfl

/-- The move mask of a comparison has bit 0 of each lane's eight bits set
exactly if the lane compared equal. -/
theorem movemaskBit_lane (c : M256i) (lane : Fin 4) {hit : Bool}
    (compared : c lane = if hit = true then BitVec.allOnes 64 else 0) (position : Nat) :
    movemaskBit (mm256MovemaskEpi8 c) (8 * lane) position =
      (if hit = true then (1 : BitVec 32) <<< position else 0).setWidth 8 := by
  have bit : (mm256MovemaskEpi8 c).getLsbD (8 * lane) = hit := by
    have whole : 8 * lane.val / 8 = lane := by omega
    have first : 8 * (8 * lane.val % 8) + 7 = 7 := by omega
    rw [mm256MovemaskEpi8_bit c (by omega), first]
    simp only [whole, compared]
    cases hit <;> rfl
  have selected : (mm256MovemaskEpi8 c).sshiftRight (8 * lane) &&& 1 =
      if hit = true then (1 : BitVec 32) else 0 := by
    have one (t : Nat) : (1 : BitVec 32).getLsbD t = decide (t = 0) := by
      rw [show (1 : BitVec 32) = BitVec.twoPow 32 0 from rfl, BitVec.getLsbD_twoPow]
      simp [eq_comm]
    have inside : 8 * lane.val + 0 < 32 := by omega
    apply BitVec.eq_of_getLsbD_eq
    intro t _
    rw [BitVec.getLsbD_and, BitVec.getLsbD_sshiftRight, one]
    by_cases lowest : t = 0
    · subst lowest
      rw [if_pos inside, Nat.add_zero, bit]
      cases hit <;> rfl
    · cases hit <;> simp [lowest]
  rw [movemaskBit, selected]
  cases hit <;> simp

/-- The byte that `bloom_contains_batch8` puts together from its hits. -/
def hitByte (h0 h1 h2 h3 h4 h5 h6 h7 : Bool) : BitVec 8 :=
  let bit (hit : Bool) (position : Nat) : BitVec 8 :=
    (if hit = true then (1 : BitVec 32) <<< position else 0).setWidth 8
  0 ||| bit h0 0 ||| bit h1 1 ||| bit h2 2 ||| bit h3 3 ||| bit h4 4 ||| bit h5 5 ||| bit h6 6 |||
    bit h7 7

theorem popcount_hitByte (h0 h1 h2 h3 h4 h5 h6 h7 : Bool) :
    builtinPopcount (hitByte h0 h1 h2 h3 h4 h5 h6 h7) =
      [h0, h1, h2, h3, h4, h5, h6, h7].countP id := by
  revert h0 h1 h2 h3 h4 h5 h6 h7
  decide +kernel

theorem Sized.bloomContainsBatch8_eq (sized : Sized k b) {pointer : Pointer Uint64} {i : Nat}
    (hash : Nat → Uint64) (reads : ∀ j < 8, pointer.read j = .ok (hash (i + j))) :
    bloomContainsBatch8 table b pointer =
      .ok (hitByte (isHit table b (hash i)) (isHit table b (hash (i + 1)))
        (isHit table b (hash (i + 2))) (isHit table b (hash (i + 3)))
        (isHit table b (hash (i + 4))) (isHit table b (hash (i + 5)))
        (isHit table b (hash (i + 6))) (isHit table b (hash (i + 7)))) := by
  obtain ⟨hA, hB⟩ := loadu_pair reads
  have gather (lanes : M256i) : mm256I64gatherEpi64 (readBlock b) (blockIdxAvx2 b lanes) =
      .ok fun lane => blockOf b (lanes lane) :=
    mm256I64gatherEpi64_ok fun lane => sized.readBlock_eq (lanes lane)
  have compared (lanes : M256i) (lane : Fin 4) :
      mm256CmpeqEpi64 (mm256AndSi256 (fun lane => maskOf table (lanes lane))
        fun lane => blockOf b (lanes lane)) (fun lane => maskOf table (lanes lane)) lane =
      if isHit table b (lanes lane) = true then BitVec.allOnes 64 else 0 := by
    simp only [mm256CmpeqEpi64, mm256AndSi256, isHit, decide_eq_true_eq, BitVec.and_comm]
  have bit (lanes : M256i) (lane : Fin 4) := movemaskBit_lane _ lane (compared lanes lane)
  rw [bloomContainsBatch8, hA, hB]
  simp only [Checked.ok_bind, constructMaskAvx2_eq, gather, Checked.pure_eq_ok]
  have r0 : movemaskBit _ 0 0 = _ := bit (fun lane => hash (i + lane)) 0 0
  have r1 : movemaskBit _ 8 1 = _ := bit (fun lane => hash (i + lane)) 1 1
  have r2 : movemaskBit _ 16 2 = _ := bit (fun lane => hash (i + lane)) 2 2
  have r3 : movemaskBit _ 24 3 = _ := bit (fun lane => hash (i + lane)) 3 3
  have r4 : movemaskBit _ 0 4 = _ := bit (fun lane => hash (i + (4 + lane))) 0 4
  have r5 : movemaskBit _ 8 5 = _ := bit (fun lane => hash (i + (4 + lane))) 1 5
  have r6 : movemaskBit _ 16 6 = _ := bit (fun lane => hash (i + (4 + lane))) 2 6
  have r7 : movemaskBit _ 24 7 = _ := bit (fun lane => hash (i + (4 + lane))) 3 7
  beta_reduce at r0 r1 r2 r3 r4 r5 r6 r7
  rw [r0, r1, r2, r3, r4, r5, r6, r7]
  rfl

theorem foldlM_hits {α : Type} (hit : α → Bool) (items : List α) (hits : Nat) :
    items.foldlM (fun hits item => (.ok (hits + (hit item).toNat) : Checked Nat)) hits =
      .ok (hits + items.countP hit) := by
  induction items generalizing hits with
  | nil => rfl
  | cons item rest ih =>
      rw [List.foldlM_cons, Checked.ok_bind, ih, List.countP_cons]
      cases hit item
      · rfl
      · simp only [Bool.toNat_true, ↓reduceIte]
        congr 1
        omega

theorem Sized.bloomContainsBatch8Bulk_eq (sized : Sized k b) {pointer : Pointer Uint64}
    {hashes : List Uint64} (holds : pointer.Holds hashes) :
    bloomContainsBatch8Bulk table b pointer hashes.length =
      .ok (hashes.countP (isHit table b)) := by
  have groups : ∀ hits i, i + 8 ≤ hashes.length →
      (do return hits + builtinPopcount (← bloomContainsBatch8 table b (pointer.add i)) :
        Checked Nat) =
      (List.range' i 8).foldlM
        (fun hits i => .ok (hits + (isHit table b (hashes.getD i 0)).toNat)) hits := by
    intro hits i within
    rw [sized.bloomContainsBatch8_eq table (hashes.getD · 0) (read_group holds within),
      foldlM_hits fun i => isHit table b (hashes.getD i 0), Checked.ok_bind, popcount_hitByte]
    rfl
  have singles : ∀ hits i, i + 1 ≤ hashes.length →
      (do
        let found ← bloomContainsPrehash table b (← pointer.read i)
        return if found ≠ 0 then hits + 1 else hits : Checked Nat) =
      .ok (hits + (isHit table b (hashes.getD i 0)).toNat) := by
    intro hits i within
    have entry : pointer.read i = .ok (hashes.getD i 0) := holds.read_getD (by omega)
    rw [entry]
    simp only [Checked.ok_bind, sized.bloomContainsPrehash_eq, Checked.pure_eq_ok]
    cases isHit table b (hashes.getD i 0) <;> rfl
  have whole := congrArg (List.countP (isHit table b)) (map_getD_range hashes 0)
  rw [List.countP_map] at whole
  rw [bloomContainsBatch8Bulk, ← bind_assoc, strideLoop_groups _ (by omega) groups singles,
    bind_assoc, foldlM_hits fun i => isHit table b (hashes.getD i 0), Nat.zero_add, ← whole]
  rfl

end Queries

section Found

variable {k : Nat} {b : BloomT}

theorem or_and_mask (block mask : Uint64) : (block ||| mask) &&& mask = mask := by
  apply BitVec.eq_of_getLsbD_eq
  intro t _
  rw [BitVec.getLsbD_and, BitVec.getLsbD_or]
  cases block.getLsbD t <;> simp

theorem or_and_kept {block mask : Uint64} (more : Uint64) (kept : block &&& mask = mask) :
    (block ||| more) &&& mask = mask := by
  rw [← kept]
  apply BitVec.eq_of_getLsbD_eq
  intro t _
  simp only [BitVec.getLsbD_and, BitVec.getLsbD_or]
  cases block.getLsbD t <;> simp

/-- The filter with the mask of `h` in the block of `h`. -/
def storeMask (b : BloomT) (h : Uint64) : BloomT :=
  let index := (blockIdxScalar b h).toNat
  { b with bv := b.bv.set index (blockOf b h ||| maskOf table h) }

theorem Sized.storeMask (sized : Sized k b) (h : Uint64) : Sized k (storeMask table b h) :=
  ⟨sized.blocks, sized.mask, List.length_set.trans sized.words⟩

theorem Sized.bloomInsertPrehash_eq (sized : Sized k b) (h : Uint64) :
    bloomInsertPrehash table b h = .ok (Krassovsky.storeMask table b h) := by
  rw [Krassovsky.bloomInsertPrehash_eq, orBlock, sized.readBlock_eq]
  rfl

theorem Sized.blockOf_storeMask (sized : Sized k b) (h other : Uint64) :
    blockOf (Krassovsky.storeMask table b h) other =
      if blockIdxScalar b h = blockIdxScalar b other then blockOf b other ||| maskOf table h
      else blockOf b other := by
  have index : blockIdxScalar (Krassovsky.storeMask table b h) other = blockIdxScalar b other := rfl
  rw [blockOf, index, Krassovsky.storeMask, List.getD_eq_getElem?_getD]
  by_cases same : blockIdxScalar b h = blockIdxScalar b other
  · rw [if_pos same, blockOf, blockOf, same, List.getElem?_set_self (sized.inside other),
      Option.getD_some]
  · have apart : (blockIdxScalar b h).toNat ≠ (blockIdxScalar b other).toNat :=
      fun equal => same (BitVec.eq_of_toNat_eq equal)
    rw [if_neg same, List.getElem?_set_ne apart, blockOf, List.getD_eq_getElem?_getD]

theorem Sized.isHit_storeMask (sized : Sized k b) (h : Uint64) :
    isHit table (Krassovsky.storeMask table b h) h = true := by
  rw [isHit, decide_eq_true_eq, sized.blockOf_storeMask, if_pos rfl]
  exact or_and_mask _ _

theorem Sized.isHit_kept (sized : Sized k b) (h : Uint64) {other : Uint64}
    (hit : isHit table b other = true) :
    isHit table (Krassovsky.storeMask table b h) other = true := by
  rw [isHit, decide_eq_true_eq] at hit ⊢
  rw [sized.blockOf_storeMask]
  split
  · exact or_and_kept _ hit
  · exact hit

/-- A run of inserts on a filter that is sized returns one that is, with all
hashes found that were found before or are inserted. -/
theorem Sized.insertEach (sized : Sized k b) (hashes : List Uint64) :
    ∃ after, hashes.foldlM (bloomInsertPrehash table) b = .ok after ∧ Sized k after ∧
      ∀ h, isHit table b h = true ∨ h ∈ hashes → isHit table after h = true := by
  induction hashes generalizing b with
  | nil => exact ⟨b, rfl, sized, fun h found => found.resolve_right (by simp)⟩
  | cons first rest ih =>
      obtain ⟨after, inserted, sizedAfter, found⟩ := ih (sized.storeMask table first)
      refine ⟨after, ?_, sizedAfter, ?_⟩
      · rw [List.foldlM_cons, sized.bloomInsertPrehash_eq, Checked.ok_bind]
        exact inserted
      · intro h known
        apply found
        rcases known with hit | listed
        · exact .inl (sized.isHit_kept table first hit)
        · rcases List.mem_cons.mp listed with here | later
          · subst here
            exact .inl (sized.isHit_storeMask table h)
          · exact .inr later

end Found

/-- The 8-way path stores what the scalar path stores and counts what it
finds, so a hash that one of them inserts is found by the other. -/
theorem batch8_agrees (table : MaskTable) {pointer : Pointer Uint64} {hashes : List Uint64}
    (holds : pointer.Holds hashes) :
    (∀ b, bloomInsertBatch8Bulk table b pointer hashes.length =
      hashes.foldlM (bloomInsertPrehash table) b) ∧
    (∀ k b, Sized k b → ∃ found : Uint64 → Nat,
      (∀ h, bloomContainsPrehash table b h = .ok (found h)) ∧
      bloomContainsBatch8Bulk table b pointer hashes.length =
        .ok (hashes.countP fun h => found h ≠ 0)) ∧
    ∀ k b, Sized k b → ∃ after,
      hashes.foldlM (bloomInsertPrehash table) b = .ok after ∧
      bloomInsertBatch8Bulk table b pointer hashes.length = .ok after ∧ Sized k after ∧
      (∀ h ∈ hashes, bloomContainsPrehash table after h = .ok 1) ∧
      ∀ (probe : Pointer Uint64) (probes : List Uint64), probe.Holds probes → probes ⊆ hashes →
        bloomContainsBatch8Bulk table after probe probes.length = .ok probes.length := by
  have inserts := bloomInsertBatch8Bulk_eq table holds
  refine ⟨inserts, ?_, ?_⟩
  · intro k b sized
    refine ⟨fun h => (isHit table b h).toNat, sized.bloomContainsPrehash_eq table, ?_⟩
    rw [sized.bloomContainsBatch8Bulk_eq table holds]
    congr 2
    funext h
    beta_reduce
    cases isHit table b h <;> rfl
  · intro k b sized
    obtain ⟨after, inserted, sizedAfter, found⟩ := sized.insertEach table hashes
    refine ⟨after, inserted, (inserts b).trans inserted, sizedAfter, ?_, ?_⟩
    · intro h listed
      rw [sizedAfter.bloomContainsPrehash_eq, found h (.inr listed)]
      rfl
    · intro probe probes held listed
      rw [sizedAfter.bloomContainsBatch8Bulk_eq table held]
      congr 1
      exact List.countP_eq_length.mpr fun h probed => found h (.inr (listed probed))

/-- Nine hashes of one block: a batch with aliased stores and a single one. -/
theorem batch8_agrees_oneBlock :
    (∃ after, bloomInsertBatch8Bulk (Vector.replicate maskBytes 255) ⟨[0, 0], 2, 1⟩
        (Pointer.start (List.replicate 9 5)) 9 = .ok after ∧
      bloomContainsPrehash (Vector.replicate maskBytes 255) after 5 = .ok 1 ∧
      bloomContainsBatch8Bulk (Vector.replicate maskBytes 255) after
        (Pointer.start (List.replicate 9 5)) 9 = .ok 9) ∧
    ∃ found : Uint64 → Nat,
      bloomContainsBatch8Bulk (Vector.replicate maskBytes 255) ⟨[0, 0], 2, 1⟩
        (Pointer.start (List.replicate 9 5)) 9 =
          .ok ((List.replicate 9 5).countP fun h => found h ≠ 0) := by
  have holds := Pointer.start_holds (List.replicate 9 (5 : Uint64))
  have sized : Sized 1 ⟨[0, 0], 2, 1⟩ := ⟨rfl, rfl, rfl⟩
  obtain ⟨_, queries, round⟩ := batch8_agrees (Vector.replicate maskBytes 255) holds
  obtain ⟨after, _, batched, _, single, bulk⟩ := round 1 _ sized
  obtain ⟨found, _, counted⟩ := queries 1 _ sized
  exact ⟨⟨after, batched, single 5 (by simp), bulk _ _ holds fun _ listed => listed⟩, found, counted⟩

end Quickbloom.Krassovsky
