import Quickbloom.Data.Buckets
import Quickbloom.Fuse.Geometry

namespace Quickbloom.Fuse

open Quickbloom.Data Quickbloom.Machine
open Quickbloom.Source (Uint32 Uint64)
open Quickbloom.Source.BinaryFuse

/-! # Sorting the hashes by segment

Each segment's pointer starts inside the array of hashes. Where several stand at
the same place, or the product behind a start was cut to 32 bits, the search for
a free place goes on to the next segment, and it never runs out of segments.
-/

/-- The hashes of some keys under a seed, each as often as its key. -/
def hashes (seed : Uint64) (keys : List Uint64) : Multiset Uint64 :=
  (keys.map fun key => binaryFuseMixSplit key seed : List Uint64)

theorem hashes_card (seed : Uint64) (keys : List Uint64) :
    (hashes seed keys).card = keys.length := by
  simp [hashes]

theorem mem_hashes {seed hash : Uint64} {keys : List Uint64} :
    hash ∈ hashes seed keys ↔ ∃ key ∈ keys, binaryFuseMixSplit key seed = hash := by
  simp [hashes]

theorem hashes_take (seed : Uint64) {keys : List Uint64} {i : Nat} (bound : i < keys.length) :
    hashes seed (keys.take (i + 1)) =
      binaryFuseMixSplit keys[i] seed ::ₘ hashes seed (keys.take i) := by
  rw [hashes, List.take_succ_eq_append_getElem bound, List.map_append, ← Multiset.coe_add,
    Multiset.add_comm]
  rfl

theorem one_shiftLeft_toNat {amount : Nat} (bound : amount ≤ 31) :
    ((1 : Uint32) <<< amount).toNat = 2 ^ amount := by
  have small : 2 ^ amount < 2 ^ 32 := Nat.pow_lt_pow_right (by omega) (by omega)
  have one : (1 : Uint32).toNat = 1 := rfl
  rw [BitVec.toNat_shiftLeft, Nat.shiftLeft_eq, one, Nat.one_mul, Nat.mod_eq_of_lt small]

theorem segmentBits_returns {segmentCount : Uint32} (bound : segmentCount.toNat ≤ 2 ^ 31) :
    ∃ blockBits, segmentBits segmentCount = .ok blockBits ∧ 1 ≤ blockBits ∧ blockBits ≤ 31 := by
  refine whileM_keeps (fun blockBits => 1 ≤ blockBits ∧ blockBits ≤ 31)
    (fun blockBits => 32 - blockBits) ?_ ⟨by omega, by omega⟩ (by omega)
  intro blockBits bounds
  have defined : ¬ 32 ≤ blockBits := by omega
  by_cases more : (1 : Uint32) <<< blockBits < segmentCount
  · refine Or.inr ⟨blockBits + 1, by simp only [defined, more, decide_true, ↓reduceIte], rfl,
      ⟨by omega, ?_⟩, by omega⟩
    rw [BitVec.lt_def, one_shiftLeft_toNat bounds.2] at more
    have exponent : blockBits < 31 :=
      (Nat.pow_lt_pow_iff_right (by omega)).mp (by omega : 2 ^ blockBits < 2 ^ 31)
    omega
  · exact Or.inl (by simp only [defined, more, decide_false, ↓reduceIte])

/-- Where the pointer of a segment starts. -/
def startPosition (size : Uint32) (blockBits segment : Nat) : Nat :=
  ((BitVec.ofNat 64 segment * size.setWidth 64).setWidth 32 >>> blockBits).toNat

theorem startPosition_zero (size : Uint32) (blockBits : Nat) :
    startPosition size blockBits 0 = 0 := by
  simp [startPosition]

theorem startPosition_le {size : Uint32} {blockBits segment : Nat}
    (inside : segment < 2 ^ blockBits) : startPosition size blockBits segment ≤ size.toNat := by
  rw [startPosition, BitVec.toNat_ushiftRight, BitVec.toNat_setWidth, BitVec.toNat_mul,
    BitVec.toNat_ofNat, BitVec.toNat_setWidth, Nat.shiftRight_eq_div_pow]
  have cut : segment % 2 ^ 64 * (size.toNat % 2 ^ 64) % 2 ^ 64 % 2 ^ 32 ≤ segment * size.toNat := by
    calc segment % 2 ^ 64 * (size.toNat % 2 ^ 64) % 2 ^ 64 % 2 ^ 32
        ≤ segment % 2 ^ 64 * (size.toNat % 2 ^ 64) :=
          (Nat.mod_le _ _).trans (Nat.mod_le _ _)
      _ ≤ segment * size.toNat := Nat.mul_le_mul (Nat.mod_le _ _) (Nat.mod_le _ _)
  have product : segment * size.toNat ≤ 2 ^ blockBits * size.toNat :=
    Nat.mul_le_mul_right _ (by omega)
  calc _ ≤ 2 ^ blockBits * size.toNat / 2 ^ blockBits :=
        Nat.div_le_div_right (cut.trans product)
    _ = size.toNat := Nat.mul_div_cancel_left _ (Nat.two_pow_pos blockBits)

theorem startPositions_eq {size : Uint32} {blockBits : Nat} (bits : blockBits ≤ 31)
    {startPos : List (Option Nat)} (length : startPos.length = 2 ^ blockBits) :
    startPositions size blockBits startPos =
      .ok (tabulate (2 ^ blockBits) fun segment => some (startPosition size blockBits segment)) := by
  have count := one_shiftLeft_toNat bits
  have step : ∀ i filled, i < 2 ^ blockBits →
      (∃ content, filled = tabulate (2 ^ blockBits) content ∧
        ∀ j < i, content j = some (startPosition size blockBits j)) →
      ∃ next, storeAt filled i (some (startPosition size blockBits i)) = .ok next ∧
        ∃ content, next = tabulate (2 ^ blockBits) content ∧
          ∀ j < i + 1, content j = some (startPosition size blockBits j) := by
    intro i filled below written
    obtain ⟨content, rfl, earlier⟩ := written
    refine ⟨_, storeAt_tabulate below, _, rfl, ?_⟩
    intro j bound
    by_cases same : j = i
    · subst same
      exact Function.update_self _ _ _
    · rw [Function.update_of_ne same]
      exact earlier j (by omega)
  obtain ⟨filled, ran, content, rfl, all⟩ := strideLoop_invariant _ step (Nat.zero_le _)
    ⟨_, length ▸ eq_tabulate startPos none, fun j bound => absurd bound (by omega)⟩
  simp only [startPositions, count]
  rw [← tabulate_congr all]
  exact (congrArg (· >>= fun filled => pure filled.1) ran).trans rfl

theorem segment_test {block total segment : Nat} (slot : Nat → Uint64) {pointer : Nat → Nat}
    (known : segment < block) (inside : pointer segment < total) :
    (loadWritten (tabulate block fun segment => some (pointer segment)) segment >>= fun place =>
      loadAt (tabulate total slot) place >>= fun order => pure (order != 0)) =
    (.ok (slot (pointer segment) != 0) : Checked Bool) := by
  have written : loadWritten (tabulate block fun segment => some (pointer segment)) segment =
      .ok (pointer segment) := loadWritten_tabulate known rfl
  rw [written, Checked.ok_bind, loadAt_tabulate inside]
  rfl

theorem next_segment {blockBits : Nat} (bits : blockBits ≤ 31) {maskblock segment : Uint64}
    (mask : maskblock.toNat + 1 = 2 ^ blockBits) (known : segment.toNat < 2 ^ blockBits) :
    ((segment + 1) &&& maskblock).toNat =
      if segment.toNat + 1 = 2 ^ blockBits then 0 else segment.toNat + 1 := by
  have wide : 2 ^ blockBits ≤ 2 ^ 31 := Nat.pow_le_pow_right (by omega) bits
  have one : (1 : Uint64).toNat = 1 := rfl
  have sum : (segment + 1).toNat = segment.toNat + 1 := by
    rw [BitVec.toNat_add, one]
    omega
  rw [and_mask_toNat mask, sum]
  split
  · rename_i last
    rw [last, Nat.mod_self]
  · exact Nat.mod_eq_of_lt (by omega)

/-- How many segments the search still passes before it is at `target`. -/
def segmentsBefore (block target segment : Nat) : Nat :=
  if segment ≤ target then target - segment else target + block - segment

/-- The search ends at a segment whose pointer is at a free place, if there is one. -/
theorem freeSegment_returns {blockBits total : Nat} (bits : blockBits ≤ 31) {maskblock : Uint64}
    (mask : maskblock.toNat + 1 = 2 ^ blockBits) {slot : Nat → Uint64} {pointer : Nat → Nat}
    (inside : ∀ segment < 2 ^ blockBits, pointer segment < total)
    (free : ∃ segment < 2 ^ blockBits, slot (pointer segment) = 0) {start : Uint64}
    (known : start.toNat < 2 ^ blockBits) :
    ∃ segment : Uint64, freeSegment (tabulate total slot)
        (tabulate (2 ^ blockBits) fun segment => some (pointer segment)) maskblock start =
          .ok segment ∧
      segment.toNat < 2 ^ blockBits ∧ slot (pointer segment.toNat) = 0 := by
  obtain ⟨target, bound, empty⟩ := free
  have enough : segmentsBefore (2 ^ blockBits) target start.toNat < maskblock.toNat + 2 := by
    rw [segmentsBefore]
    split <;> omega
  obtain ⟨segment, returned, below, stopped⟩ := whileM_invariant
    (fun segment : Uint64 => segment.toNat < 2 ^ blockBits)
    (fun segment => segmentsBefore (2 ^ blockBits) target segment.toNat)
    (fun segment below => by
      have tested := segment_test slot below (inside _ below)
      by_cases here : slot (pointer segment.toNat) = 0
      · exact Or.inl (tested.trans (by rw [here]; rfl))
      · have different : segment.toNat ≠ target := by
          intro same
          exact here (same ▸ empty)
        have next := next_segment bits mask below
        have occupied : (slot (pointer segment.toNat) != 0) = true := by simpa using here
        refine Or.inr ⟨(segment + 1) &&& maskblock, tested.trans (by rw [occupied]), rfl, ?_, ?_⟩
        · rw [next]
          split <;> omega
        · rw [next, segmentsBefore, segmentsBefore]
          split <;> split <;> split <;> omega)
    known enough
  refine ⟨segment, returned, below, ?_⟩
  have ended := (segment_test slot below (inside _ below)).symm.trans stopped
  simpa using ended

/-- The arrays as functions of the place and of the segment. -/
def Placing.of (total block : Nat) (slot : Nat → Uint64) (pointer : Nat → Nat) : Placing :=
  { reverseOrder := tabulate total slot
    startPos := tabulate block fun segment => some (pointer segment) }

section Place

variable {blockBits size total : Nat} {slot : Nat → Uint64} {pointer : Nat → Nat}
  {placed : Multiset Uint64}

theorem placeKey_returns (positive : 1 ≤ blockBits) (bits : blockBits ≤ 31) (room : size < total)
    (buckets : Buckets size (2 ^ blockBits) 0 slot pointer placed) (few : placed.card < size)
    (seed key : Uint64) :
    ∃ nextSlot nextPointer,
      placeKey seed blockBits (Placing.of total (2 ^ blockBits) slot pointer) key =
        .ok (Placing.of total (2 ^ blockBits) nextSlot nextPointer) ∧
      Buckets size (2 ^ blockBits) 0 nextSlot nextPointer (binaryFuseMixSplit key seed ::ₘ placed) := by
  have mask : (((1 : Uint32) <<< blockBits - 1).setWidth 64 : Uint64).toNat + 1 = 2 ^ blockBits := by
    have low := low_mask_toNat (one_shiftLeft_toNat bits)
    have narrow := ((1 : Uint32) <<< blockBits - 1).isLt
    rw [BitVec.toNat_setWidth, Nat.mod_eq_of_lt (by omega), low]
  have inside : ∀ segment < 2 ^ blockBits, pointer segment < total := fun segment known =>
    lt_of_le_of_lt (buckets.within segment known) room
  have start : (binaryFuseMurmur64 (key + seed) >>> (64 - blockBits)).toNat < 2 ^ blockBits := by
    have small := (binaryFuseMurmur64 (key + seed)).isLt
    have power : 2 ^ 64 = 2 ^ (64 - blockBits) * 2 ^ blockBits := by
      rw [← Nat.pow_add, Nat.sub_add_cancel (by omega)]
    rw [BitVec.toNat_ushiftRight, Nat.shiftRight_eq_div_pow]
    exact Nat.div_lt_of_lt_mul (power ▸ small)
  obtain ⟨segment, found, known, free⟩ :=
    freeSegment_returns bits mask inside (buckets.free few) start
  have below := buckets.below known free
  refine ⟨_, _, ?_, buckets.place known free (binaryFuseMixSplit key seed)⟩
  have written : loadWritten (tabulate (2 ^ blockBits) fun segment => some (pointer segment))
      segment.toNat = .ok (pointer segment.toNat) := loadWritten_tabulate known rfl
  have moved : Function.update (fun segment => some (pointer segment)) segment.toNat
      (some (pointer segment.toNat + 1)) = fun other => some
        (Function.update pointer segment.toNat (pointer segment.toNat + 1) other) := by
    funext other
    by_cases same : other = segment.toNat
    · rw [same, Function.update_self, Function.update_self]
    · rw [Function.update_of_ne same, Function.update_of_ne same]
  simp only [placeKey, Placing.of, found, Checked.ok_bind, written,
    storeAt_tabulate (show pointer segment.toNat < total by omega), storeAt_tabulate known, moved]
  rfl

/-- All keys find a place, and afterwards the places hold their hashes. -/
theorem placeKeys_returns (positive : 1 ≤ blockBits) (bits : blockBits ≤ 31) (room : size < total)
    (buckets : Buckets size (2 ^ blockBits) 0 slot pointer 0) (seed : Uint64) {keys : List Uint64}
    (enough : size ≤ keys.length) :
    ∃ nextSlot nextPointer,
      placeKeys seed blockBits keys size (Placing.of total (2 ^ blockBits) slot pointer) =
        .ok (Placing.of total (2 ^ blockBits) nextSlot nextPointer) ∧
      nextSlot size ≠ 0 ∧
      (Multiset.range size).map nextSlot = hashes seed (keys.take size) := by
  have step : ∀ i placing, i < size →
      (∃ slot pointer, placing = Placing.of total (2 ^ blockBits) slot pointer ∧
        Buckets size (2 ^ blockBits) 0 slot pointer (hashes seed (keys.take i))) →
      ∃ next, (loadAt keys i >>= placeKey seed blockBits placing) = .ok next ∧
        ∃ slot pointer, next = Placing.of total (2 ^ blockBits) slot pointer ∧
          Buckets size (2 ^ blockBits) 0 slot pointer (hashes seed (keys.take (i + 1))) := by
    intro i placing below held
    obtain ⟨slot, pointer, rfl, buckets⟩ := held
    have few : (hashes seed (keys.take i)).card < size := by
      rw [hashes_card, List.length_take]
      omega
    obtain ⟨nextSlot, nextPointer, ran, more⟩ :=
      placeKey_returns positive bits room buckets few seed keys[i]
    refine ⟨_, ?_, nextSlot, nextPointer, rfl, ?_⟩
    · rw [loadAt_eq_ok (show i < keys.length by omega), Checked.ok_bind, ran]
    · rw [hashes_take seed (show i < keys.length by omega)]
      exact more
  obtain ⟨placing, ran, nextSlot, nextPointer, rfl, filled⟩ := strideLoop_invariant _ step
    (Nat.zero_le size) ⟨slot, pointer, rfl, buckets⟩
  refine ⟨nextSlot, nextPointer, ?_, filled.sentinel, filled.full ?_⟩
  · rw [placeKeys, ran]
    rfl
  · rw [hashes_card, List.length_take]
    omega

end Place

end Quickbloom.Fuse
