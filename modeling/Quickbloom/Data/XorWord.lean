import Mathlib.Algebra.Group.Basic

namespace Quickbloom.Data

/-! # Words under xor

The words of one width with xor as addition are a commutative group in which
every word is its own inverse, so a running xor is a sum.
-/

@[ext] structure XorWord (width : Nat) where
  word : BitVec width
deriving DecidableEq

namespace XorWord

variable {width : Nat}

instance : Zero (XorWord width) := ⟨⟨(0 : BitVec width)⟩⟩

instance : Add (XorWord width) := ⟨fun left right => ⟨left.word ^^^ right.word⟩⟩

instance : Neg (XorWord width) := ⟨fun item => item⟩

@[simp] theorem word_zero : (0 : XorWord width).word = (0 : BitVec width) := rfl

@[simp] theorem word_add (left right : XorWord width) :
    (left + right).word = left.word ^^^ right.word := rfl

@[simp] theorem word_neg (item : XorWord width) : (-item).word = item.word := rfl

instance : AddCommGroup (XorWord width) where
  add_assoc left middle right := XorWord.ext (BitVec.xor_assoc _ _ _)
  add_comm left right := XorWord.ext (BitVec.xor_comm _ _)
  zero_add item := XorWord.ext BitVec.zero_xor
  add_zero item := XorWord.ext BitVec.xor_zero
  neg_add_cancel item := XorWord.ext BitVec.xor_self
  nsmul := nsmulRec
  zsmul := zsmulRec

@[simp] theorem word_sub (left right : XorWord width) :
    (left - right).word = left.word ^^^ right.word := by
  rw [sub_eq_add_neg, word_add, word_neg]

end XorWord

end Quickbloom.Data
