import Quickbloom.Filter.Hash

namespace Quickbloom.Filter

open Quickbloom.Data Quickbloom.Machine Quickbloom.Source

/-! # One different unit changes the variable-length hash

The hash is a chain over the words of the key. Every step of it is injective in
the hash so far and in the word it takes in.
-/

theorem mulM_injective : Function.Injective fun word : Uint64 => word * fasthashM :=
  mul_unit_injective 0x28fc23783fb0706d (by decide)

theorem fasthashMix_injective : Function.Injective fasthashMix :=
  mulM_injective.comp ((xorShiftRight_injective (by omega)).comp mulM_injective)

theorem fasthashFinish_injective : Function.Injective fasthashFinish :=
  (xorShiftRight_injective (by omega)).comp
    ((mul_unit_injective 0xa1bcefb14d101987 (by decide)).comp
      (xorShiftRight_injective (by omega)))

theorem fasthashAbsorb_start (k : Uint64) : Function.Injective fun h => fasthashAbsorb h k :=
  mulM_injective.comp (xor_injective (fasthashMix k))

theorem fasthashAbsorb_next (h : Uint64) : Function.Injective (fasthashAbsorb h) := by
  intro left right same
  exact fasthashMix_injective ((BitVec.xor_right_inj h).mp (mulM_injective same))

section Unit

variable {a b : List Byte} {u : Nat}

theorem slice_congr {start size : Nat}
    (agree : ∀ i, start ≤ i → i < start + size → a[i]? = b[i]?) :
    (a.drop start).take size = (b.drop start).take size := by
  apply List.ext_getElem?
  intro i
  by_cases inside : i < size
  · rw [List.getElem?_take_of_lt inside, List.getElem?_take_of_lt inside, List.getElem?_drop,
      List.getElem?_drop]
    exact agree _ (by omega) (by omega)
  · rw [List.getElem?_take_eq_none (by omega), List.getElem?_take_eq_none (by omega)]

theorem keyWord_congr {index : Nat}
    (agree : ∀ i, i / 8 = index → a[i]? = b[i]?) : keyWord a index = keyWord b index := by
  have same : (a.drop (index * 8)).take 8 = (b.drop (index * 8)).take 8 :=
    slice_congr fun i _ _ => agree i (by omega)
  rw [keyWord, keyWord, same]

theorem keyWord_differs (length : a.length = b.length) (differ : a ≠ b)
    (agree : ∀ i, i / 8 ≠ u → a[i]? = b[i]?) : keyWord a u ≠ keyWord b u := by
  intro same
  have sizes : ((a.drop (u * 8)).take 8).length = ((b.drop (u * 8)).take 8).length := by
    rw [List.length_take, List.length_take, List.length_drop, List.length_drop, length]
  have small (key : List Byte) : fromLittleEndian ((key.drop (u * 8)).take 8) < 2 ^ 64 := by
    have low := fromLittleEndian_lt ((key.drop (u * 8)).take 8)
    have short : 8 * ((key.drop (u * 8)).take 8).length ≤ 64 := by
      rw [List.length_take]
      omega
    exact Nat.lt_of_lt_of_le low (Nat.pow_le_pow_right (by omega) short)
  have values := congrArg BitVec.toNat same
  rw [keyWord, keyWord, BitVec.toNat_ofNat, BitVec.toNat_ofNat, Nat.mod_eq_of_lt (small a),
    Nat.mod_eq_of_lt (small b)] at values
  have bytes := fromLittleEndian_injective sizes values
  apply differ
  apply List.ext_getElem?
  intro i
  by_cases unit : i / 8 = u
  · have selected := congrArg (fun list : List Byte => list[i % 8]?) bytes
    simp only [List.getElem?_take_of_lt (Nat.mod_lt i (by omega : 0 < 8)), List.getElem?_drop] at selected
    rwa [← unit, Nat.div_add_mod' i 8] at selected
  · exact agree i unit

theorem keyWords_getElem? (key : List Byte) (index : Nat) :
    (keyWords key)[index]? =
      if index < (key.length + 7) / 8 then some (keyWord key index) else none := by
  rw [keyWords, List.getElem?_map]
  split
  next bound => rw [List.getElem?_range bound, Option.map_some]
  next bound => rw [List.getElem?_eq_none (by rw [List.length_range]; omega), Option.map_none]

theorem unit_inside (length : a.length = b.length) (differ : a ≠ b)
    (agree : ∀ i, i / 8 ≠ u → a[i]? = b[i]?) : u < (a.length + 7) / 8 := by
  by_contra outside
  apply differ
  apply List.ext_getElem?
  intro i
  by_cases unit : i / 8 = u
  · rw [List.getElem?_eq_none (by omega), List.getElem?_eq_none (by omega)]
  · exact agree i unit

end Unit

def HashesDiffer (a b : List Byte) : Prop :=
  ∃ ha hb, fasthash64Var (Pointer.start a) a.length = .ok ha ∧
    fasthash64Var (Pointer.start b) b.length = .ok hb ∧ ha ≠ hb

theorem hashesDiffer_of_unit {a b : List Byte} {u : Nat} (length : a.length = b.length)
    (differ : a ≠ b) (agree : ∀ i, i / 8 ≠ u → a[i]? = b[i]?) : HashesDiffer a b := by
  refine ⟨_, _, fasthash64Var_eq (Pointer.start_holds a), fasthash64Var_eq (Pointer.start_holds b), ?_⟩
  have inside := unit_inside length differ agree
  have words : (keyWords a).length = (keyWords b).length := by
    rw [keyWords, keyWords, List.length_map, List.length_map, length]
  have apart : (keyWords a)[u]? ≠ (keyWords b)[u]? := by
    rw [keyWords_getElem?, keyWords_getElem?, if_pos inside, if_pos (length ▸ inside)]
    intro same
    exact keyWord_differs length differ agree (Option.some.inj same)
  have others : ∀ index, index ≠ u → (keyWords a)[index]? = (keyWords b)[index]? := by
    intro index other
    rw [keyWords_getElem?, keyWords_getElem?, length,
      keyWord_congr fun i unit => agree i (by omega)]
  rw [length]
  intro same
  exact foldl_differs fasthashAbsorb_start fasthashAbsorb_next words apart others _
    (fasthashFinish_injective same)

/-- Keys of one length that differ within one 8-byte block, or within the
bytes after the last block, have different hashes. Byte `i` lies in unit
`i / 8`; the tail is unit `len / 8`. -/
theorem fasthash64Var_differs :
    (∀ (a b : List Byte) (u : Nat), a.length = b.length → a ≠ b →
      (∀ i, i / 8 ≠ u → a[i]? = b[i]?) → HashesDiffer a b) ∧
    (∀ len, 1 ≤ len → len ≤ 8 → ∀ a b : List Byte, a.length = len → b.length = len →
      a ≠ b → HashesDiffer a b) ∧
    (∀ (a : List Byte) (i : Nat) (byte : Byte), i < a.length → a[i]? ≠ some byte →
      HashesDiffer a (a.set i byte)) := by
  refine ⟨?_, ?_, ?_⟩
  · intro a b u length differ agree
    exact hashesDiffer_of_unit length differ agree
  · intro len _ short a b aLength bLength differ
    have agree : ∀ i, i / 8 ≠ 0 → a[i]? = b[i]? := by
      intro i above
      rw [List.getElem?_eq_none (by omega), List.getElem?_eq_none (by omega)]
    exact hashesDiffer_of_unit (aLength.trans bLength.symm) differ agree
  · intro a i byte inside changed
    have differ : a ≠ a.set i byte := by
      intro same
      rw [same, List.getElem?_set_self inside] at changed
      exact changed rfl
    have agree : ∀ j, j / 8 ≠ i / 8 → a[j]? = (a.set i byte)[j]? := by
      intro j apart
      rw [List.getElem?_set_ne (by
        intro same
        subst same
        exact apart rfl)]
    exact hashesDiffer_of_unit (List.length_set).symm differ agree

theorem fasthash64Var_differs_tail :
    HashesDiffer (List.replicate 11 0) (List.replicate 8 0 ++ [0, 1, 2]) ∧
    HashesDiffer [1, 2, 3] [1, 2, 4] ∧ HashesDiffer [1, 2, 3] ([1, 2, 3].set 0 9) := by
  refine ⟨?_, ?_, ?_⟩
  · refine fasthash64Var_differs.1 _ _ 1 (by decide) (by decide) ?_
    intro i apart
    have below : i < 8 ∨ 11 ≤ i := by omega
    rcases below with block | outside
    · rw [List.getElem?_append_left (by simpa using block), List.getElem?_replicate,
        List.getElem?_replicate, if_pos block, if_pos (by omega)]
    · rw [List.getElem?_eq_none (by simpa using outside),
        List.getElem?_eq_none (by simpa using outside)]
  · exact fasthash64Var_differs.2.1 3 (by omega) (by omega) _ _ rfl rfl (by decide)
  · exact fasthash64Var_differs.2.2 _ 0 9 (by decide) (by decide)

end Quickbloom.Filter
