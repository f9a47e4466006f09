import Mathlib.Data.Nat.Bitwise
import Mathlib.Tactic.Ring

namespace Quickbloom.Data

/-! # Little-endian words

Byte images of machine words, least significant byte first. Values are natural
numbers here; a word of `width` bits occupies `size` bytes when
`width = 8 * size`.
-/

abbrev Byte := BitVec 8

def fromLittleEndian : List Byte → Nat
  | [] => 0
  | byte :: rest => byte.toNat + 256 * fromLittleEndian rest

def toLittleEndian : Nat → Nat → List Byte
  | 0, _ => []
  | size + 1, value => BitVec.ofNat 8 value :: toLittleEndian size (value / 256)

@[simp] theorem toLittleEndian_length (size value : Nat) :
    (toLittleEndian size value).length = size := by
  induction size generalizing value with
  | zero => rfl
  | succ size ih => simp only [toLittleEndian, List.length_cons, ih]

theorem fromLittleEndian_lt (bytes : List Byte) :
    fromLittleEndian bytes < 2 ^ (8 * bytes.length) := by
  induction bytes with
  | nil => simp [fromLittleEndian]
  | cons byte rest ih =>
      have low := byte.isLt
      have power : 2 ^ (8 * (rest.length + 1)) = 256 * 2 ^ (8 * rest.length) := by
        rw [Nat.mul_add, Nat.pow_add, Nat.mul_comm]
      simp only [fromLittleEndian, List.length_cons, power]
      omega

theorem fromLittleEndian_toLittleEndian {size value : Nat} (bound : value < 2 ^ (8 * size)) :
    fromLittleEndian (toLittleEndian size value) = value := by
  induction size generalizing value with
  | zero =>
      have zero : value = 0 := by simpa using bound
      rw [zero]
      rfl
  | succ size ih =>
      have power : 2 ^ (8 * (size + 1)) = 2 ^ (8 * size) * 256 := by
        rw [Nat.mul_add, Nat.pow_add]
      have high : value / 256 < 2 ^ (8 * size) := Nat.div_lt_of_lt_mul (by
        rw [Nat.mul_comm, ← power]
        exact bound)
      simp only [toLittleEndian, fromLittleEndian, ih high, BitVec.toNat_ofNat]
      omega

theorem toLittleEndian_fromLittleEndian (bytes : List Byte) :
    toLittleEndian bytes.length (fromLittleEndian bytes) = bytes := by
  induction bytes with
  | nil => rfl
  | cons byte rest ih =>
      have low := byte.isLt
      have high : (byte.toNat + 256 * fromLittleEndian rest) / 256 = fromLittleEndian rest := by
        omega
      have head : BitVec.ofNat 8 (byte.toNat + 256 * fromLittleEndian rest) = byte := by
        apply BitVec.eq_of_toNat_eq
        simp only [BitVec.toNat_ofNat]
        omega
      simp only [fromLittleEndian, List.length_cons, toLittleEndian, high, ih, head]

theorem fromLittleEndian_append (low high : List Byte) :
    fromLittleEndian (low ++ high) =
      fromLittleEndian low + 2 ^ (8 * low.length) * fromLittleEndian high := by
  induction low with
  | nil => simp [fromLittleEndian]
  | cons byte rest ih =>
      have power : 2 ^ (8 * (rest.length + 1)) = 256 * 2 ^ (8 * rest.length) := by
        rw [Nat.mul_add, Nat.pow_add, Nat.mul_comm]
      rw [List.cons_append, fromLittleEndian, fromLittleEndian, ih, List.length_cons, power]
      ring

theorem fromLittleEndian_injective {left right : List Byte} (length : left.length = right.length)
    (same : fromLittleEndian left = fromLittleEndian right) : left = right := by
  rw [← toLittleEndian_fromLittleEndian left, length, same, toLittleEndian_fromLittleEndian]

theorem toLittleEndian_getElem? {size value index : Nat} (bound : index < size) :
    (toLittleEndian size value)[index]? = some (BitVec.ofNat 8 (value / 2 ^ (8 * index))) := by
  induction size generalizing value index with
  | zero => omega
  | succ size ih =>
      cases index with
      | zero => simp [toLittleEndian]
      | succ index =>
          have power : 2 ^ (8 * (index + 1)) = 256 * 2 ^ (8 * index) := by
            rw [Nat.mul_add, Nat.pow_add, Nat.mul_comm]
          rw [toLittleEndian, List.getElem?_cons_succ, ih (by omega), Nat.div_div_eq_div_mul, power]

section Words

variable {width size : Nat}

def encodeWords (size : Nat) (words : List (BitVec width)) : List Byte :=
  words.flatMap fun word => toLittleEndian size word.toNat

def decodeWords (width size : Nat) : Nat → List Byte → List (BitVec width)
  | 0, _ => []
  | count + 1, bytes =>
      BitVec.ofNat width (fromLittleEndian (bytes.take size)) ::
        decodeWords width size count (bytes.drop size)

@[simp] theorem encodeWords_nil : encodeWords size ([] : List (BitVec width)) = [] := rfl

theorem encodeWords_cons (word : BitVec width) (words : List (BitVec width)) :
    encodeWords size (word :: words) =
      toLittleEndian size word.toNat ++ encodeWords size words := rfl

@[simp] theorem encodeWords_length (words : List (BitVec width)) :
    (encodeWords size words).length = size * words.length := by
  induction words with
  | nil => simp
  | cons word words ih =>
      simp only [encodeWords_cons, List.length_append, toLittleEndian_length, ih,
        List.length_cons, Nat.mul_add, Nat.mul_one, Nat.add_comm]

@[simp] theorem decodeWords_length (count : Nat) (bytes : List Byte) :
    (decodeWords width size count bytes).length = count := by
  induction count generalizing bytes with
  | zero => rfl
  | succ count ih => simp only [decodeWords, List.length_cons, ih]

theorem decodeWords_encodeWords (fits : width = 8 * size) (words : List (BitVec width)) :
    decodeWords width size words.length (encodeWords size words) = words := by
  induction words with
  | nil => rfl
  | cons word words ih =>
      have first : (toLittleEndian size word.toNat ++ encodeWords size words).take size =
          toLittleEndian size word.toNat := List.take_left' (toLittleEndian_length ..)
      have rest : (toLittleEndian size word.toNat ++ encodeWords size words).drop size =
          encodeWords size words := List.drop_left' (toLittleEndian_length ..)
      have bound : word.toNat < 2 ^ (8 * size) := fits ▸ word.isLt
      simp only [encodeWords_cons, List.length_cons, decodeWords, first, rest, ih,
        fromLittleEndian_toLittleEndian bound, BitVec.ofNat_toNat, BitVec.setWidth_eq]

theorem encodeWords_decodeWords (fits : width = 8 * size) {count : Nat} {bytes : List Byte}
    (whole : bytes.length = size * count) :
    encodeWords size (decodeWords width size count bytes) = bytes := by
  induction count generalizing bytes with
  | zero =>
      have empty : bytes = [] := List.eq_nil_of_length_eq_zero whole
      rw [empty]
      rfl
  | succ count ih =>
      rw [Nat.mul_add, Nat.mul_one] at whole
      have taken : (bytes.take size).length = size := by
        rw [List.length_take]
        omega
      have bound : fromLittleEndian (bytes.take size) < 2 ^ width := by
        have below := fromLittleEndian_lt (bytes.take size)
        rwa [taken, ← fits] at below
      have head : toLittleEndian size (fromLittleEndian (bytes.take size)) = bytes.take size := by
        have inverse := toLittleEndian_fromLittleEndian (bytes.take size)
        rwa [taken] at inverse
      have tail : encodeWords size (decodeWords width size count (bytes.drop size)) =
          bytes.drop size := ih (by
        rw [List.length_drop]
        omega)
      rw [decodeWords, encodeWords_cons, BitVec.toNat_ofNat, Nat.mod_eq_of_lt bound, head, tail,
        List.take_append_drop]

theorem encodeWords_getElem? (words : List (BitVec width)) {index offset : Nat}
    (bound : offset < size) :
    (encodeWords size words)[size * index + offset]? =
      words[index]?.map fun word => BitVec.ofNat 8 (word.toNat / 2 ^ (8 * offset)) := by
  induction words generalizing index with
  | nil => simp
  | cons word words ih =>
      rw [encodeWords_cons]
      cases index with
      | zero =>
          rw [Nat.mul_zero, Nat.zero_add,
            List.getElem?_append_left (by rw [toLittleEndian_length]; exact bound),
            toLittleEndian_getElem? bound]
          simp only [List.getElem?_cons_zero, Option.map_some]
      | succ index =>
          rw [List.getElem?_append_right (by rw [toLittleEndian_length, Nat.mul_add]; omega),
            toLittleEndian_length, List.getElem?_cons_succ, ← ih]
          congr 1
          rw [Nat.mul_add]
          omega

theorem encodeWords_bit (fits : width = 8 * size) {words : List (BitVec width)} {index t : Nat}
    {word : BitVec width} (selected : words[index]? = some word) (bound : t < width) :
    ∃ byte, (encodeWords size words)[size * index + t / 8]? = some byte ∧
      byte.getLsbD (t % 8) = word.getLsbD t := by
  refine ⟨_, by rw [encodeWords_getElem? words (by omega), selected, Option.map_some], ?_⟩
  have low : t % 8 < 8 := Nat.mod_lt _ (by omega)
  have split : t % 8 + 8 * (t / 8) = t := Nat.mod_add_div t 8
  rw [BitVec.getLsbD_ofNat, decide_eq_true low, Bool.true_and, Nat.testBit_div_two_pow, split,
    BitVec.testBit_toNat]

end Words

end Quickbloom.Data
