import Quickbloom.Data.Bits
import Mathlib.Data.Set.Insert
import Mathlib.Data.Set.Basic

namespace Quickbloom.Data

/-! # Arrays of words as sets of bit places

Place `t` is bit `t % width` of word `t / width`.
-/

variable {width : Nat}

def setBits (words : List (BitVec width)) : Set Nat :=
  {place | ∃ word, words[place / width]? = some word ∧ word.getLsbD (place % width) = true}

@[simp] theorem setBits_zero (count : Nat) :
    setBits (List.replicate count (0 : BitVec width)) = ∅ := by
  ext place
  simp [setBits, List.getElem?_replicate]

section Words

variable {words : List (BitVec width)} {word : BitVec width} {place : Nat}

theorem place_word (inside : place < width * words.length) :
    ∃ word, words[place / width]? = some word :=
  ⟨_, List.getElem?_eq_getElem (Nat.div_lt_of_lt_mul inside)⟩

theorem mem_setBits_iff (found : words[place / width]? = some word) :
    place ∈ setBits words ↔ word.getLsbD (place % width) = true := by
  simp [setBits, found]

/-- ORing a mask into a word adds the places of the mask. -/
theorem setBits_orWord {index : Nat} (found : words[index]? = some word) (mask : BitVec width) :
    setBits (words.set index (word ||| mask)) =
      setBits words ∪ {place | place / width = index ∧ mask.getLsbD (place % width) = true} := by
  obtain ⟨inside, _⟩ := List.getElem?_eq_some_iff.mp found
  ext place
  rw [Set.mem_union, Set.mem_ofPred_eq]
  by_cases same : place / width = index
  · have written : (words.set index (word ||| mask))[place / width]? = some (word ||| mask) := by
      rw [same, List.getElem?_set_self inside]
    have before : words[place / width]? = some word := by rw [same, found]
    rw [mem_setBits_iff written, mem_setBits_iff before, BitVec.getLsbD_or, Bool.or_eq_true]
    simp only [same, true_and]
  · have kept : (words.set index (word ||| mask))[place / width]? = words[place / width]? :=
      List.getElem?_set_ne fun equal => same equal.symm
    simp only [setBits, Set.mem_ofPred_eq, kept, same, false_and, or_false]

/-- Setting a bit of the word of a place adds that place. -/
theorem setBits_or (positive : 0 < width) (found : words[place / width]? = some word) :
    setBits (words.set (place / width) (word ||| (1 : BitVec width) <<< (place % width))) =
      insert place (setBits words) := by
  have bit : place % width < width := Nat.mod_lt _ positive
  rw [setBits_orWord found]
  ext other
  rw [Set.mem_union, Set.mem_insert_iff, Set.mem_ofPred_eq, getLsbD_one_shiftLeft bit,
    decide_eq_true_eq, or_comm]
  have samePlace : other / width = place / width ∧ other % width = place % width ↔
      other = place := by
    refine ⟨?_, fun same => by rw [same]; exact ⟨rfl, rfl⟩⟩
    intro both
    rw [← Nat.div_add_mod other width, ← Nat.div_add_mod place width, both.1, both.2]
  rw [samePlace]

end Words

end Quickbloom.Data
