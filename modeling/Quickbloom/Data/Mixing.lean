import Mathlib.Data.Nat.GCD.Basic

namespace Quickbloom.Data

/-! # Mixing steps of word hashes

Multiplication by a unit and xor with an own right shift lose nothing, so a
chain of such steps carries a single difference to its end.
-/

variable {width : Nat}

theorem mul_unit_cancel {unit inverse : BitVec width} (inverts : unit * inverse = 1)
    (word : BitVec width) : word * unit * inverse = word := by
  rw [BitVec.mul_assoc, inverts]
  exact BitVec.mul_one word

theorem mul_unit_injective {unit : BitVec width} (inverse : BitVec width)
    (inverts : unit * inverse = 1) :
    Function.Injective fun word : BitVec width => word * unit := by
  intro left right same
  rw [← mul_unit_cancel inverts left, ← mul_unit_cancel inverts right]
  exact congrArg (fun word => word * inverse) same

theorem xor_injective (mask : BitVec width) :
    Function.Injective fun word : BitVec width => word ^^^ mask := by
  intro left right same
  exact (BitVec.xor_left_inj mask).mp same

/-- The top `shift` bits pass unchanged and each lower one is recovered from
the bit `shift` places above it. -/
theorem xorShiftRight_injective {shift : Nat} (positive : 0 < shift) :
    Function.Injective fun word : BitVec width => word ^^^ word >>> shift := by
  intro left right same
  have fromTop : ∀ depth t, width - t ≤ depth → left.getLsbD t = right.getLsbD t := by
    intro depth
    induction depth with
    | zero =>
        intro t above
        rw [BitVec.getLsbD_of_ge _ _ (by omega), BitVec.getLsbD_of_ge _ _ (by omega)]
    | succ depth ih =>
        intro t _
        by_cases inside : t < width
        · have higher := ih (shift + t) (by omega)
          have bit := congrArg (fun word : BitVec width => word.getLsbD t) same
          simp only [BitVec.getLsbD_xor, BitVec.getLsbD_ushiftRight, higher] at bit
          exact Bool.xor_left_inj.mp bit
        · exact ih t (by omega)
  exact BitVec.eq_of_getLsbD_eq fun t _ => fromTop width t (by omega)

/-- A rotation moves every bit to a place of its own. -/
theorem rotate_injective {left : Nat} (bound : left ≤ width) :
    Function.Injective fun word : BitVec width => word <<< left ||| word >>> (width - left) := by
  intro first second same
  apply BitVec.eq_of_getLsbD_eq
  intro t inside
  have bit (place : Nat) := congrArg (fun word : BitVec width => word.getLsbD place) same
  simp only [BitVec.getLsbD_or, BitVec.getLsbD_shiftLeft, BitVec.getLsbD_ushiftRight] at bit
  by_cases low : t + left < width
  · have gone (word : BitVec width) : word.getLsbD (width - left + (t + left)) = false :=
      BitVec.getLsbD_of_ge _ _ (by omega)
    simpa [low, gone, show ¬ t + left < left by omega, inside] using bit (t + left)
  · have place : width - left + (t + left - width) = t := by omega
    simpa [place, show t + left - width < left by omega] using bit (t + left - width)

section Chain

variable {σ τ : Type} {absorb : σ → τ → σ}

theorem foldl_injective (start : ∀ item, Function.Injective fun state => absorb state item)
    (items : List τ) : Function.Injective fun state => items.foldl absorb state := by
  induction items with
  | nil => exact Function.injective_id
  | cons item rest ih => exact ih.comp (start item)

/-- Two chains that take in one different item end in different states. -/
theorem foldl_differs (start : ∀ item, Function.Injective fun state => absorb state item)
    (next : ∀ state, Function.Injective (absorb state)) {left right : List τ} {position : Nat}
    (length : left.length = right.length) (differ : left[position]? ≠ right[position]?)
    (agree : ∀ index, index ≠ position → left[index]? = right[index]?) (state : σ) :
    left.foldl absorb state ≠ right.foldl absorb state := by
  induction left generalizing right position state with
  | nil =>
      have empty : right = [] := List.eq_nil_of_length_eq_zero length.symm
      subst empty
      exact absurd rfl differ
  | cons item rest ih =>
      cases right with
      | nil => cases length
      | cons other others =>
          cases position with
          | zero =>
              have tail : rest = others :=
                List.ext_getElem? fun index => agree (index + 1) (by omega)
              subst tail
              intro same
              have absorbed := next state (foldl_injective start rest same)
              exact differ (by simp [absorbed])
          | succ position =>
              have head : item = other := by simpa using agree 0 (by omega)
              subst head
              exact ih (by simpa using length) (by simpa using differ)
                (fun index apart => by simpa using agree (index + 1) (by omega)) _

end Chain

/-- The halves of a double-width number are equal exactly if it is a multiple
of the number of words plus one. -/
theorem halves_eq_iff {words product : Nat} (bound : product < words * words) :
    product % words = product / words ↔ words + 1 ∣ product := by
  have split := Nat.div_add_mod product words
  refine ⟨?_, ?_⟩
  · intro same
    refine ⟨product / words, ?_⟩
    rw [same] at split
    rw [Nat.add_mul, Nat.one_mul]
    exact split.symm
  · intro divides
    obtain ⟨factor, rfl⟩ := divides
    have small : factor < words := by
      by_contra large
      have more : words * words ≤ (words + 1) * factor :=
        Nat.mul_le_mul (by omega) (by omega)
      omega
    have form : (words + 1) * factor = factor + words * factor := by
      rw [Nat.add_mul, Nat.one_mul, Nat.add_comm]
    rw [form, Nat.add_mul_mod_self_left, Nat.mod_eq_of_lt small,
      Nat.add_mul_div_left _ _ (by omega), Nat.div_eq_of_lt small, Nat.zero_add]

/-- The full product of two words, its halves folded by xor. -/
def mulFold (a b : BitVec 64) : BitVec 64 :=
  let r : BitVec 128 := a.setWidth 128 * b.setWidth 128
  r.setWidth 64 ^^^ (r >>> 64).setWidth 64

section Fold

variable (a b : BitVec 64)

theorem product_lt : a.toNat * b.toNat < 2 ^ 64 * 2 ^ 64 :=
  Nat.mul_lt_mul'' a.isLt b.isLt

theorem mulFold_eq :
    mulFold a b = BitVec.ofNat 64 (a.toNat * b.toNat) ^^^ BitVec.ofNat 64 (a.toNat * b.toNat / 2 ^ 64) := by
  have bound := product_lt a b
  have wide : (a.setWidth 128 * b.setWidth 128).toNat = a.toNat * b.toNat := by
    have left := a.isLt
    have right := b.isLt
    rw [BitVec.toNat_mul, BitVec.toNat_setWidth, BitVec.toNat_setWidth,
      Nat.mod_eq_of_lt (by omega : a.toNat < 2 ^ 128), Nat.mod_eq_of_lt (by omega : b.toNat < 2 ^ 128)]
    exact Nat.mod_eq_of_lt bound
  have low : (a.setWidth 128 * b.setWidth 128).setWidth 64 = BitVec.ofNat 64 (a.toNat * b.toNat) := by
    apply BitVec.eq_of_toNat_eq
    rw [BitVec.toNat_setWidth, wide, BitVec.toNat_ofNat]
  have high : ((a.setWidth 128 * b.setWidth 128) >>> 64).setWidth 64 =
      BitVec.ofNat 64 (a.toNat * b.toNat / 2 ^ 64) := by
    apply BitVec.eq_of_toNat_eq
    rw [BitVec.toNat_setWidth, BitVec.toNat_ushiftRight, wide, Nat.shiftRight_eq_div_pow,
      BitVec.toNat_ofNat]
  simp only [mulFold, low, high]

theorem mulFold_eq_zero_iff : mulFold a b = 0 ↔ 2 ^ 64 + 1 ∣ a.toNat * b.toNat := by
  have bound := product_lt a b
  rw [← halves_eq_iff bound, mulFold_eq]
  refine BitVec.xor_eq_zero_iff.trans ?_
  refine ⟨?_, ?_⟩
  · intro same
    have halves := congrArg BitVec.toNat same
    rw [BitVec.toNat_ofNat, BitVec.toNat_ofNat] at halves
    omega
  · intro same
    apply BitVec.eq_of_toNat_eq
    rw [BitVec.toNat_ofNat, BitVec.toNat_ofNat]
    omega

theorem mulFold_comm : mulFold a b = mulFold b a := by
  rw [mulFold_eq, mulFold_eq, Nat.mul_comm]

theorem mulFold_zero : mulFold a 0 = 0 := by
  rw [mulFold_eq_zero_iff]
  exact Nat.dvd_zero _

theorem mulFold_one : mulFold a 1 = a := by
  have small := a.isLt
  apply BitVec.eq_of_toNat_eq
  rw [mulFold_eq]
  simp [Nat.div_eq_of_lt small]

/-- A factor without a divisor in common with `2 ^ 64 + 1` is folded to zero by zero only. -/
theorem mulFold_coprime (coprime : Nat.Coprime (2 ^ 64 + 1) a.toNat) : mulFold a b = 0 ↔ b = 0 := by
  rw [mulFold_eq_zero_iff, Nat.Coprime.dvd_mul_left coprime]
  refine ⟨?_, ?_⟩
  · intro divides
    have bound := b.isLt
    apply BitVec.eq_of_toNat_eq
    exact Nat.eq_zero_of_dvd_of_lt divides (by omega)
  · intro zero
    subst zero
    exact Nat.dvd_zero _

end Fold

end Quickbloom.Data
