import Mathlib.Data.List.Count
import Quickbloom.Data.LittleEndian

namespace Quickbloom.Data

/-! # Counting ones in a window

A row of bits is a function of the position; a window is a range of positions.
-/

def ones (bit : Nat → Bool) (start count : Nat) : Nat :=
  (List.range count).countP fun j => bit (start + j)

section Windows

variable {bit other : Nat → Bool} {start count : Nat}

theorem ones_zero : ones bit start 0 = 0 := rfl

theorem ones_succ : ones bit start (count + 1) = ones bit start count + (bit (start + count)).toNat := by
  rw [ones, ones, List.range_succ, List.countP_append, List.countP_singleton]
  cases bit (start + count) <;> rfl

theorem ones_add (first second : Nat) :
    ones bit start (first + second) = ones bit start first + ones bit (start + first) second := by
  induction second with
  | zero => rfl
  | succ second ih =>
      rw [← Nat.add_assoc, ones_succ, ih, ones_succ, Nat.add_assoc, Nat.add_assoc start]

theorem ones_one : ones bit start 1 = (bit start).toNat := by
  rw [ones_succ, ones_zero, Nat.zero_add, Nat.add_zero]

/-- Moving a window by one position exchanges its first bit for the next one. -/
theorem ones_slide :
    ones bit (start + 1) count + (bit start).toNat =
      ones bit start count + (bit (start + count)).toNat := by
  rw [← ones_succ, Nat.add_comm count 1, ones_add, ones_one, Nat.add_comm]

theorem ones_congr {origin : Nat} (same : ∀ j < count, bit (start + j) = other (origin + j)) :
    ones bit start count = ones other origin count := by
  rw [ones, ones]
  apply List.countP_congr
  intro j member
  rw [same j (List.mem_range.mp member)]

theorem ones_clear (clear : ∀ j < count, bit (start + j) = false) : ones bit start count = 0 := by
  rw [ones, List.countP_eq_zero]
  intro j member
  rw [clear j (List.mem_range.mp member)]
  exact Bool.false_ne_true

/-- Setting a clear bit of a window adds one. -/
theorem ones_set {position : Nat} (inside : position < count)
    (clear : bit (start + position) = false) (raised : other (start + position) = true)
    (same : ∀ j < count, j ≠ position → other (start + j) = bit (start + j)) :
    ones other start count = ones bit start count + 1 := by
  obtain ⟨rest, split⟩ : ∃ rest, count = position + (1 + rest) := ⟨count - position - 1, by omega⟩
  subst split
  have before : ones other start position = ones bit start position :=
    ones_congr fun j bound => same j (by omega) (by omega)
  have after : ones other (start + position + 1) rest = ones bit (start + position + 1) rest :=
    ones_congr fun j bound => by
      rw [Nat.add_assoc start, Nat.add_assoc start]
      exact same _ (by omega) (by omega)
  rw [ones_add, ones_add, ones_add, ones_add, ones_one, ones_one, before, after, clear, raised]
  simp only [Bool.toNat_true, Bool.toNat_false]
  omega

end Windows

/-- Rotation reorders the bits of a word. -/
theorem ones_rotate {width : Nat} (word : BitVec width) {count : Nat} (bound : count ≤ width) :
    ones (word <<< count ||| word >>> (width - count)).getLsbD 0 width = ones word.getLsbD 0 width := by
  obtain ⟨rest, split⟩ : ∃ rest, width = count + rest := ⟨width - count, by omega⟩
  have low : ones (word <<< count ||| word >>> (width - count)).getLsbD 0 count =
      ones word.getLsbD rest count := by
    apply ones_congr
    intro j inside
    have shift : width - count = rest := by omega
    simp only [BitVec.getLsbD_or, BitVec.getLsbD_shiftLeft, BitVec.getLsbD_ushiftRight, shift]
    simp [inside]
  have high : ones (word <<< count ||| word >>> (width - count)).getLsbD count rest =
      ones word.getLsbD 0 rest := by
    apply ones_congr
    intro j inside
    have above : word.getLsbD (rest + (count + j)) = false :=
      BitVec.getLsbD_of_ge _ _ (by omega)
    have shift : width - count = rest := by omega
    have within : count + j < width := by omega
    simp only [BitVec.getLsbD_or, BitVec.getLsbD_shiftLeft, BitVec.getLsbD_ushiftRight, shift, above]
    simp [within]
  have whole (bit : Nat → Bool) : ones bit 0 width = ones bit 0 count + ones bit count rest := by
    rw [split, ones_add, Nat.zero_add]
  have turned (bit : Nat → Bool) : ones bit 0 width = ones bit 0 rest + ones bit rest count := by
    rw [split, Nat.add_comm count rest, ones_add, Nat.zero_add]
  rw [whole, low, high, turned, Nat.add_comm]

theorem fromLittleEndian_testBit (bytes : List Byte) (t : Nat) :
    (fromLittleEndian bytes).testBit t = (bytes.getD (t / 8) 0).getLsbD (t % 8) := by
  induction bytes generalizing t with
  | nil => simp [fromLittleEndian]
  | cons byte rest ih =>
      have split := Nat.testBit_two_pow_mul_add (fromLittleEndian rest) byte.isLt t
      rw [fromLittleEndian, Nat.add_comm, split]
      by_cases first : t < 8
      · rw [if_pos first, Nat.div_eq_of_lt first, Nat.mod_eq_of_lt first, List.getD_cons_zero,
          BitVec.testBit_toNat]
      · have next : t / 8 = (t - 8) / 8 + 1 := by omega
        have offset : t % 8 = (t - 8) % 8 := by omega
        rw [if_neg first, ih, next, List.getD_cons_succ, offset]

end Quickbloom.Data
