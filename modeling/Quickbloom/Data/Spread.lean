import Quickbloom.Data.Mixing
import Mathlib.Data.Set.Card

namespace Quickbloom.Data

/-! # How many words meet a condition

A condition on the upper half and one on the lower half of a word are
independent, multiplication by a unit keeps counts, and fixing the upper bits
leaves the lower ones free.
-/

theorem upperPart_append {m n : Nat} (upper : BitVec m) (lower : BitVec n) :
    (upper ++ lower).toNat / 2 ^ n = upper.toNat := by
  have small := lower.isLt
  rw [BitVec.toNat_append, ← Nat.shiftLeft_add_eq_or_of_lt small, Nat.shiftLeft_eq,
    Nat.mul_comm, Nat.mul_add_div (Nat.two_pow_pos n), Nat.div_eq_of_lt small, Nat.add_zero]

theorem append_parts {m n : Nat} (word : BitVec (m + n)) :
    word.extractLsb' n m ++ word.setWidth n = word := by
  apply BitVec.eq_of_getLsbD_eq
  intro t bound
  rw [BitVec.getLsbD_append]
  by_cases below : t < n
  · simp [below]
  · have upper : t - n < m := by omega
    have place : n + (t - n) = t := by omega
    simp [below, upper, place]

theorem ncard_parts {m n : Nat} (upper : Nat → Prop) (lower : BitVec n → Prop) :
    {word : BitVec (m + n) | upper (word.toNat / 2 ^ n) ∧ lower (word.setWidth n)}.ncard =
      {part : BitVec m | upper part.toNat}.ncard * {part | lower part}.ncard := by
  have joined : {word : BitVec (m + n) | upper (word.toNat / 2 ^ n) ∧ lower (word.setWidth n)} =
      (fun parts : BitVec m × BitVec n => parts.1 ++ parts.2) ''
        ({part | upper part.toNat} ×ˢ {part | lower part}) := by
    ext word
    refine ⟨?_, ?_⟩
    · intro both
      refine ⟨(word.extractLsb' n m, word.setWidth n), ⟨?_, both.2⟩, append_parts word⟩
      have place := upperPart_append (word.extractLsb' n m) (word.setWidth n)
      rw [append_parts] at place
      change upper (word.extractLsb' n m).toNat
      rw [← place]
      exact both.1
    · intro image
      obtain ⟨parts, both, rfl⟩ := image
      refine ⟨?_, ?_⟩
      · rw [upperPart_append]
        exact both.1
      · rw [BitVec.setWidth_append_eq_right]
        exact both.2
  have injective : Function.Injective fun parts : BitVec m × BitVec n => parts.1 ++ parts.2 := by
    intro left right same
    refine Prod.ext (BitVec.eq_of_toNat_eq ?_) ?_
    · rw [← upperPart_append left.1 left.2, ← upperPart_append right.1 right.2]
      exact congrArg (fun word => word.toNat / 2 ^ n) same
    · rw [← BitVec.setWidth_append_eq_right (a := left.1) (b := left.2),
        ← BitVec.setWidth_append_eq_right (a := right.1) (b := right.2)]
      exact congrArg (BitVec.setWidth n) same
  rw [joined, Set.ncard_image_of_injective _ injective, Set.ncard_prod]

section Unit

variable {width : Nat} {unit : BitVec width}

theorem ncard_mul_unit (inverse : BitVec width) (inverts : unit * inverse = 1)
    (condition : BitVec width → Prop) :
    {word | condition (word * unit)}.ncard = {word | condition word}.ncard := by
  have inverted : inverse * unit = 1 := (BitVec.mul_comm inverse unit).trans inverts
  have image : (fun word => word * inverse) '' {word | condition word} =
      {word | condition (word * unit)} := by
    ext word
    refine ⟨?_, ?_⟩
    · intro found
      obtain ⟨source, holds, rfl⟩ := found
      change condition (source * inverse * unit)
      rw [mul_unit_cancel inverted]
      exact holds
    · intro holds
      exact ⟨word * unit, holds, mul_unit_cancel inverts word⟩
  rw [← image, Set.ncard_image_of_injective _ (mul_unit_injective unit inverted)]

/-- The words with given bits from `low` on. -/
theorem ncard_upperBits {low value : Nat} (within : low ≤ width) (bound : value < 2 ^ (width - low)) :
    {word : BitVec width | word.toNat / 2 ^ low = value}.ncard = 2 ^ low := by
  have positive : 0 < 2 ^ low := Nat.two_pow_pos low
  have fits (rest : Nat) (small : rest < 2 ^ low) : value * 2 ^ low + rest < 2 ^ width := by
    have whole : 2 ^ width = 2 ^ (width - low) * 2 ^ low := by
      rw [← Nat.pow_add, Nat.sub_add_cancel within]
    have next : (value + 1) * 2 ^ low ≤ 2 ^ (width - low) * 2 ^ low := Nat.mul_le_mul_right _ bound
    rw [Nat.add_mul] at next
    omega
  have image : {word : BitVec width | word.toNat / 2 ^ low = value} =
      (fun rest => BitVec.ofNat width (value * 2 ^ low + rest)) '' Finset.range (2 ^ low) := by
    ext word
    simp only [Set.mem_ofPred_eq, Set.mem_image, Finset.coe_range, Set.mem_Iio]
    refine ⟨?_, ?_⟩
    · intro selected
      refine ⟨word.toNat % 2 ^ low, Nat.mod_lt _ positive, ?_⟩
      rw [← selected, Nat.mul_comm, Nat.div_add_mod]
      rw [BitVec.ofNat_toNat, BitVec.setWidth_eq]
    · intro found
      obtain ⟨rest, small, rfl⟩ := found
      rw [BitVec.toNat_ofNat, Nat.mod_eq_of_lt (fits rest small), Nat.mul_comm,
        Nat.mul_add_div positive, Nat.div_eq_of_lt small, Nat.add_zero]
  have injective : Set.InjOn (fun rest => BitVec.ofNat width (value * 2 ^ low + rest))
      (Finset.range (2 ^ low)) := by
    intro left leftSmall right rightSmall same
    have numbers := congrArg BitVec.toNat same
    simp only [Finset.coe_range, Set.mem_Iio] at leftSmall rightSmall
    simp only [BitVec.toNat_ofNat, Nat.mod_eq_of_lt (fits left leftSmall),
      Nat.mod_eq_of_lt (fits right rightSmall)] at numbers
    omega
  rw [image, injective.ncard_image, Set.ncard_coe_finset, Finset.card_range]

end Unit

end Quickbloom.Data
