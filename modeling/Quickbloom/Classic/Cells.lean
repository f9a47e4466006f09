import Quickbloom.Classic.Probes
import Quickbloom.Data.BitArray

namespace Quickbloom.Classic

open Quickbloom.Data Quickbloom.Machine
open Quickbloom.Source (Uint64)
open Quickbloom.Source.Classic

/-! # Inserts and queries on the bit array -/

/-- A filter whose array was allocated. -/
structure Allocated (k : Nat) (b : BloomT) : Prop extends Sized k b where
  words : 64 * b.bits.length = 2 ^ k

theorem word_index (pos : Uint64) : (pos >>> 6).toNat = pos.toNat / 64 := by
  rw [BitVec.toNat_ushiftRight, Nat.shiftRight_eq_div_pow]

theorem bit_index (pos : Uint64) : (pos &&& 63).toNat = pos.toNat % 64 :=
  and_mask_toNat (k := 6) rfl pos

theorem next_position (pos h2 : Uint64) (i : Nat) :
    pos + BitVec.ofNat 64 (i + 1) * h2 = pos + h2 + BitVec.ofNat 64 i * h2 := by
  have step : BitVec.ofNat 64 (i + 1) = BitVec.ofNat 64 i + 1 := BitVec.ofNat_add i 1
  have once : 1 * h2 = h2 := BitVec.one_mul h2
  rw [step, BitVec.add_mul, once, BitVec.add_assoc, BitVec.add_comm h2]

section Found

variable {b : BloomT} {pos word : Uint64} (found : b.bits[place b pos / 64]? = some word)
include found

theorem selected_word : b.bits[((pos &&& b.bitMask) >>> 6).toNat]? = some word := by
  rw [word_index]
  exact found

theorem setBit_eq :
    setBit b pos = .ok { b with
      bits := b.bits.set (place b pos / 64) (word ||| (1 : Uint64) <<< (place b pos % 64)) } := by
  simp only [setBit, selected_word found]
  rw [word_index, bit_index]
  rfl

theorem getBit_eq : getBit b pos = .ok (word.getLsbD (place b pos % 64)).toNat := by
  simp only [getBit, selected_word found, shifted_bit (show 0 < 64 by omega)]
  rw [bit_index]
  rfl

end Found

section Allocated

variable {k : Nat} {b : BloomT}

theorem Allocated.word (valid : Allocated k b) (pos : Uint64) :
    ∃ word, b.bits[place b pos / 64]? = some word :=
  place_word (by
    rw [valid.words]
    exact valid.place_lt pos)

theorem Allocated.setBit_ok (valid : Allocated k b) (pos : Uint64) :
    ∃ after, setBit b pos = .ok after ∧ Allocated k after ∧ after.bitMask = b.bitMask ∧
      setBits after.bits = insert (place b pos) (setBits b.bits) := by
  obtain ⟨word, found⟩ := valid.word pos
  refine ⟨_, setBit_eq found, ⟨⟨valid.large, valid.mask⟩, ?_⟩, rfl, ?_⟩
  · simp only [List.length_set, valid.words]
  · exact setBits_or (by omega) found

theorem Allocated.getBit_ok (valid : Allocated k b) (pos : Uint64) :
    ∃ bit, getBit b pos = .ok bit ∧ (bit ≠ 0 ↔ place b pos ∈ setBits b.bits) := by
  obtain ⟨word, found⟩ := valid.word pos
  refine ⟨_, getBit_eq found, ?_⟩
  rw [mem_setBits_iff found]
  cases word.getLsbD (place b pos % 64) <;> simp

/-- After `i` iterations of an insert the first `i` positions are set and `pos`
is at the next one. -/
structure Inserting (k : Nat) (b : BloomT) (h1 h2 : Uint64) (i : Nat) (state : BloomT × Uint64) :
    Prop where
  valid : Allocated k state.1
  mask : state.1.bitMask = b.bitMask
  next : state.2 = h1 + BitVec.ofNat 64 i * h2
  cells : setBits state.1.bits = setBits b.bits ∪ visited (2 ^ k) h1.toNat h2.toNat i

theorem Inserting.step {h1 h2 : Uint64} {i : Nat} {state : BloomT × Uint64}
    (kept : Inserting k b h1 h2 i state) :
    ∃ after, (do
      let b ← setBit state.1 state.2
      return (b, state.2 + h2) : Checked (BloomT × Uint64)) = .ok after ∧
      Inserting k b h1 h2 (i + 1) after := by
  obtain ⟨after, marked, valid, mask, cells⟩ := kept.valid.setBit_ok state.2
  have selected : place state.1 state.2 = walk (2 ^ k) h1.toNat h2.toNat i := by
    rw [kept.next]
    exact kept.valid.position_eq h1 h2 i
  refine ⟨(after, state.2 + h2), ?_, valid, mask.trans kept.mask, ?_, ?_⟩
  · simp [marked]
  · rw [kept.next, next_position, BitVec.add_assoc, BitVec.add_assoc, BitVec.add_comm h2]
  · rw [cells, kept.cells, selected, visited_succ, Set.union_insert]

theorem Allocated.insertWithPair_ok (valid : Allocated k b) (h1 h2 : Uint64) :
    ∃ after, insertWithPair b h1 h2 = .ok after ∧ Allocated k after ∧ after.bitMask = b.bitMask ∧
      setBits after.bits =
        setBits b.bits ∪ visited (2 ^ k) h1.toNat h2.toNat kHashes := by
  have start : Inserting k b h1 h2 0 (b, h1) := ⟨valid, rfl, by simp, by simp⟩
  obtain ⟨last, ran, kept⟩ := strideLoop_invariant (Inserting k b h1 h2)
    (fun _ _ _ kept => kept.step) (Nat.zero_le kHashes) start
  refine ⟨last.1, ?_, kept.valid, kept.mask, kept.cells⟩
  rw [insertWithPair, ran]
  rfl

theorem Allocated.testPositions_ok (valid : Allocated k b) (h2 : Uint64) (left : Nat)
    (pos : Uint64) :
    ∃ found ≤ 1, testPositions b h2 left pos = .ok found ∧
      (found ≠ 0 ↔ ∀ i < left, position b pos h2 i ∈ setBits b.bits) := by
  induction left generalizing pos with
  | zero => exact ⟨1, by omega, rfl, by simp⟩
  | succ left ih =>
      obtain ⟨bit, got, here⟩ := valid.getBit_ok pos
      obtain ⟨found, small, rest, there⟩ := ih (pos + h2)
      have first : position b pos h2 0 = place b pos := by simp [position]
      have later (i : Nat) : position b pos h2 (i + 1) = position b (pos + h2) h2 i := by
        rw [position, position, next_position]
      rw [Nat.forall_lt_succ_left, first, ← here]
      simp only [later, ← there]
      by_cases clear : bit = 0
      · refine ⟨0, by omega, ?_, by simp [clear]⟩
        simp [testPositions, got, clear]
      · refine ⟨found, small, ?_, by simp [clear]⟩
        simp [testPositions, got, clear, rest]

theorem Allocated.bloomInsertPrehash_ok (valid : Allocated k b) (h : Uint64) :
    ∃ after, bloomInsertPrehash b h = .ok after ∧ Allocated k after ∧ after.bitMask = b.bitMask ∧
      setBits after.bits = setBits b.bits ∪ probe k h :=
  valid.insertWithPair_ok h (secondHash h)

theorem Allocated.bloomContainsPrehash_ok (valid : Allocated k b) (h : Uint64) :
    ∃ found ≤ 1, bloomContainsPrehash b h = .ok found ∧
      (found ≠ 0 ↔ probe k h ⊆ setBits b.bits) := by
  rw [valid.probe_subset_iff]
  exact valid.testPositions_ok (secondHash h) kHashes h

end Allocated

end Quickbloom.Classic
