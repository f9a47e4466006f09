import Mathlib.Data.Nat.Size
import Quickbloom.Fuse.Allocate
import Quickbloom.Fuse.Populate
import Quickbloom.Source.Xorfuse

namespace Quickbloom.Fuse

open Quickbloom.Data Quickbloom.Machine
open Quickbloom.Source (Uint32 Uint64 SizeT)
open Quickbloom.Source.BinaryFuse
open Quickbloom.Source.Xorfuse

/-! # The keys that wait for a build -/

/-- The keys are at the front of the buffer. -/
structure Staged (x : XfT) (keys : List Uint64) : Prop where
  cap : x.buf.length = x.bufCap.toNat
  len : x.bufLen.toNat = keys.length
  front : keys.map some <+: x.buf

section Growth

variable {lib : Libc} {x : XfT} {keys : List Uint64}

theorem Staged.fits (staged : Staged x keys) : keys.length ≤ x.bufCap.toNat := by
  have short := staged.front.length_le
  rw [List.length_map, staged.cap] at short
  exact short

theorem reallocBuf_longer (grants : ∀ bytes, lib.realloc bytes = true)
    {buf : List (Option Uint64)} {newCap : SizeT} (more : buf.length ≤ newCap.toNat)
    (bound : newCap.toNat < 2 ^ 61) :
    reallocBuf lib buf newCap = buf ++ List.replicate (newCap.toNat - buf.length) none := by
  have eight : (8 : SizeT).toNat = 8 := rfl
  have bytes : (newCap * 8).toNat / 8 = newCap.toNat := by
    rw [BitVec.toNat_mul, eight, Nat.mod_eq_of_lt (by omega), Nat.mul_div_cancel _ (by omega)]
  simp only [reallocBuf, bytes, grants, ↓reduceIte, List.take_of_length_le more]

/-- The buffer moved into a longer one. -/
theorem Staged.grow (staged : Staged x keys) (grants : ∀ bytes, lib.realloc bytes = true)
    {newCap : SizeT} (more : x.bufCap.toNat ≤ newCap.toNat) (bound : newCap.toNat < 2 ^ 61) :
    Staged { x with buf := reallocBuf lib x.buf newCap, bufCap := newCap } keys where
  cap := by
    have fits := staged.cap
    simp only
    rw [reallocBuf_longer grants (by omega) bound, List.length_append, List.length_replicate]
    omega
  len := staged.len
  front := by
    have fits := staged.cap
    simp only
    rw [reallocBuf_longer grants (by omega) bound]
    exact staged.front.trans (List.prefix_append _ _)

/-- A store behind the last key. -/
theorem Staged.store (staged : Staged x keys) (room : keys.length < x.bufCap.toNat) (key : Uint64) :
    ∃ buf, storeAt x.buf x.bufLen.toNat (some key) = .ok buf ∧
      buf.length = x.bufCap.toNat ∧ (keys ++ [key]).map some <+: buf := by
  have length : (keys.map some).length = x.bufLen.toNat := by rw [List.length_map, staged.len]
  obtain ⟨buf, stored, same, front⟩ :=
    storeAt_prefix staged.front (by rw [List.length_map, staged.cap]; exact room) (some key)
  rw [length] at stored
  refine ⟨buf, stored, same.trans staged.cap, ?_⟩
  rw [List.map_append]
  exact front

theorem bufPush_returns (staged : Staged x keys) (grants : ∀ bytes, lib.realloc bytes = true)
    (few : keys.length < 2 ^ 32) (key : Uint64) :
    ∃ after, bufPush lib x key = .ok after ∧ Staged after (keys ++ [key]) ∧
      after.filter = x.filter ∧ after.built = x.built := by
  have fits := staged.fits
  have one : (1 : SizeT).toNat = 1 := rfl
  have next : (x.bufLen + 1).toNat = (keys ++ [key]).length := by
    rw [BitVec.toNat_add, staged.len, one, List.length_append, List.length_singleton,
      Nat.mod_eq_of_lt (by omega)]
  by_cases full : x.bufLen = x.bufCap
  · generalize larger : (if x.bufCap ≠ 0 then x.bufCap * 2 else 1024) = newCap
    have exact_ : x.bufCap.toNat = keys.length := by rw [← full, staged.len]
    have doubled : keys.length < newCap.toNat ∧ newCap.toNat < 2 ^ 61 := by
      rw [← larger]
      by_cases empty : x.bufCap ≠ 0
      · have positive : x.bufCap.toNat ≠ 0 := fun zero => empty (BitVec.eq_of_toNat_eq zero)
        have two : (2 : SizeT).toNat = 2 := rfl
        rw [if_pos empty, BitVec.toNat_mul, two, Nat.mod_eq_of_lt (by omega)]
        omega
      · have zero : x.bufCap.toNat = 0 := by
          rw [not_not] at empty
          rw [empty]
          rfl
        have kilo : (1024 : SizeT).toNat = 1024 := rfl
        rw [if_neg empty, kilo]
        omega
    have grown := @Staged.grow lib _ _ staged grants _ (show x.bufCap.toNat ≤ newCap.toNat by omega)
      doubled.2
    obtain ⟨buf, stored, length, front⟩ := grown.store doubled.1 key
    refine ⟨{ x with buf, bufLen := x.bufLen + 1, bufCap := newCap }, ?_, ⟨length, next, front⟩,
      rfl, rfl⟩
    simp only [bufPush, if_pos full, larger]
    simp only at stored
    rw [stored]
    rfl
  · have apart : x.bufLen.toNat ≠ x.bufCap.toNat := fun same => full (BitVec.eq_of_toNat_eq same)
    have length := staged.len
    obtain ⟨buf, stored, length, front⟩ := staged.store (by omega) key
    refine ⟨{ x with buf, bufLen := x.bufLen + 1 }, ?_, ⟨length, next, front⟩, rfl, rfl⟩
    simp only [bufPush, if_neg full, stored]
    rfl

/-- One iteration of the doubling towards `target`. -/
theorem doubling_step {newCap target : SizeT} (below : newCap < target)
    (bound : target.toNat ≤ 2 ^ 33) :
    newCap.toNat ≤ (if newCap ≠ 0 then newCap * 2 else 1024 : SizeT).toNat ∧
      (if newCap ≠ 0 then newCap * 2 else 1024 : SizeT).toNat < 2 ^ 35 ∧
      36 - Nat.size (if newCap ≠ 0 then newCap * 2 else 1024 : SizeT).toNat <
        36 - Nat.size newCap.toNat := by
  rw [BitVec.lt_def] at below
  have small : Nat.size newCap.toNat ≤ 33 := Nat.size_le.mpr (by omega)
  by_cases nonzero : newCap ≠ 0
  · have two : (2 : SizeT).toNat = 2 := rfl
    have positive : 0 < newCap.toNat := by
      have apart : newCap.toNat ≠ 0 := fun zero => nonzero (BitVec.eq_of_toNat_eq zero)
      omega
    have value : (newCap * 2).toNat = newCap.toNat * 2 ^ 1 := by
      rw [BitVec.toNat_mul, two, Nat.pow_one, Nat.mod_eq_of_lt (by omega)]
    have longer : Nat.size (newCap.toNat * 2 ^ 1) = Nat.size newCap.toNat + 1 := by
      rw [← Nat.shiftLeft_eq]
      exact Nat.size_shiftLeft positive.ne' 1
    rw [if_pos nonzero, value, longer]
    omega
  · have kilo : (1024 : SizeT).toNat = 1024 := rfl
    have length : Nat.size 1024 = 11 := by decide
    rw [not_not] at nonzero
    subst nonzero
    rw [if_neg (not_not.mpr rfl), kilo, length]
    decide

theorem reserveMore_returns (staged : Staged x keys) (grants : ∀ bytes, lib.realloc bytes = true)
    {n : Nat} (few : keys.length + n ≤ 2 ^ 33) :
    ∃ after, reserveMore lib x (BitVec.ofNat 64 n) = .ok after ∧ Staged after keys ∧
      keys.length + n ≤ after.bufCap.toNat ∧ after.filter = x.filter ∧ after.built = x.built := by
  have total : (x.bufLen + BitVec.ofNat 64 n).toNat = keys.length + n := by
    rw [BitVec.toNat_add, staged.len, BitVec.toNat_ofNat, Nat.mod_eq_of_lt (by omega),
      Nat.mod_eq_of_lt (by omega)]
  generalize target_eq : x.bufLen + BitVec.ofNat 64 n = target at total
  by_cases small : x.bufCap < target
  · have start := small
    rw [BitVec.lt_def] at start
    obtain ⟨newCap, ran, bounds, stopped⟩ : ∃ newCap : SizeT,
        whileM (m := Checked) (fun newCap : SizeT => .ok (decide (newCap < target)))
          (fun newCap => .ok (if newCap ≠ 0 then newCap * 2 else 1024)) 130 x.bufCap = .ok newCap ∧
        (x.bufCap.toNat ≤ newCap.toNat ∧ newCap.toNat < 2 ^ 35) ∧
        (Except.ok (decide (newCap < target)) : Checked Bool) = .ok false := by
      apply whileM_invariant
        (fun newCap : SizeT => x.bufCap.toNat ≤ newCap.toNat ∧ newCap.toNat < 2 ^ 35)
        (fun newCap : SizeT => 36 - Nat.size newCap.toNat)
      · intro newCap invariant
        by_cases below : newCap < target
        · obtain ⟨more, bound, closer⟩ := doubling_step below (by omega)
          exact .inr ⟨_, congrArg Except.ok (decide_eq_true below), rfl,
            ⟨invariant.1.trans more, bound⟩, closer⟩
        · exact .inl (congrArg Except.ok (decide_eq_false below))
      · exact ⟨le_refl _, by omega⟩
      · omega
    have reached : ¬ newCap < target := by
      injection stopped with covered
      exact of_decide_eq_false covered
    rw [BitVec.lt_def] at reached
    refine ⟨_, ?_, staged.grow grants bounds.1 (by omega), ?_, rfl, rfl⟩
    · rw [reserveMore, target_eq, if_pos small, ran]
      rfl
    · simp only
      omega
  · refine ⟨x, ?_, staged, ?_, rfl, rfl⟩
    · rw [reserveMore, target_eq, if_neg small]
      rfl
    · rw [BitVec.lt_def] at small
      omega

end Growth

end Quickbloom.Fuse
