import Quickbloom.Filter.Units
import Quickbloom.Impala.Xxh64

namespace Quickbloom.Impala

open Quickbloom.Data Quickbloom.Machine
open Quickbloom.Filter (keyWord keyWord_congr keyWord_differs slice_congr)
open Quickbloom.Source (Uint32 Uint64)
open Quickbloom.Source.Xxh64

/-! # One different unit of the tail changes the key hash -/

theorem mulPrime1_injective : Function.Injective fun word : Uint64 => word * qbXxhPrime64_1 :=
  mul_unit_injective 0x0887493432badb37 (by decide)

theorem mulPrime2_injective : Function.Injective fun word : Uint64 => word * qbXxhPrime64_2 :=
  mul_unit_injective 0x0ba79078168d4baf (by decide)

theorem mulPrime3_injective : Function.Injective fun word : Uint64 => word * qbXxhPrime64_3 :=
  mul_unit_injective 0xe9e9f4c41d6df849 (by decide)

theorem mulPrime5_injective : Function.Injective fun word : Uint64 => word * qbXxhPrime64_5 :=
  mul_unit_injective 0xc592c09fdfba7f0d (by decide)

theorem add_injective (addend : Uint64) : Function.Injective fun word : Uint64 => word + addend :=
  fun _ _ same => (BitVec.add_left_inj addend).mp same

theorem rotl64_injective {n : Nat} (bound : n ≤ 64) :
    Function.Injective fun word : Uint64 => qbXxhRotl64 word n :=
  rotate_injective bound

theorem round_injective : Function.Injective (qbXxhRound 0) := by
  intro left right same
  have products := rotl64_injective (by omega) (mulPrime1_injective same)
  exact mulPrime2_injective ((BitVec.add_right_inj 0).mp products)

theorem setWidth_injective {width : Nat} (narrow : width ≤ 64) :
    Function.Injective fun word : BitVec width => (word.setWidth 64 : Uint64) := by
  intro left right same
  have back := congrArg (BitVec.setWidth width) same
  simpa only [BitVec.setWidth_setWidth_of_le _ narrow, BitVec.setWidth_eq] using back

theorem absorbWord_start (k : Uint64) : Function.Injective fun h => absorbWord h k :=
  (add_injective _).comp (mulPrime1_injective.comp
    ((rotl64_injective (by omega)).comp (xor_injective _)))

theorem absorbHalf_start (k : Uint32) : Function.Injective fun h => absorbHalf h k :=
  (add_injective _).comp (mulPrime2_injective.comp
    ((rotl64_injective (by omega)).comp (xor_injective _)))

theorem absorbByte_start (byte : Byte) : Function.Injective fun h => absorbByte h byte :=
  mulPrime1_injective.comp ((rotl64_injective (by omega)).comp (xor_injective _))

theorem absorbWord_next (h : Uint64) : Function.Injective (absorbWord h) := by
  intro left right same
  have mixed := rotl64_injective (by omega) (mulPrime1_injective (add_injective _ same))
  exact round_injective ((BitVec.xor_right_inj h).mp mixed)

theorem absorbHalf_next (h : Uint64) : Function.Injective (absorbHalf h) := by
  intro left right same
  have mixed := rotl64_injective (by omega) (mulPrime2_injective (add_injective _ same))
  exact setWidth_injective (by omega) (mulPrime1_injective ((BitVec.xor_right_inj h).mp mixed))

theorem absorbByte_next (h : Uint64) : Function.Injective (absorbByte h) := by
  intro left right same
  have mixed := rotl64_injective (by omega) (mulPrime1_injective same)
  exact setWidth_injective (by omega) (mulPrime5_injective ((BitVec.xor_right_inj h).mp mixed))

theorem finishHash_injective : Function.Injective finishHash :=
  (xorShiftRight_injective (by omega)).comp (mulPrime3_injective.comp
    ((xorShiftRight_injective (by omega)).comp (mulPrime2_injective.comp
      (xorShiftRight_injective (by omega)))))

/-- Where the unit of the tail starts that byte `i` of a key belongs to. -/
def tailUnit (len i : Nat) : Nat :=
  if i < len / 8 * 8 then i / 8 * 8 else if i < len / 4 * 4 then len / 8 * 8 else i

theorem tailUnit_cases (len i : Nat) :
    (i < len / 8 * 8 ∧ tailUnit len i = i / 8 * 8) ∨
    (len / 8 * 8 ≤ i ∧ i < len / 4 * 4 ∧ tailUnit len i = len / 8 * 8) ∨
    (len / 8 * 8 ≤ i ∧ len / 4 * 4 ≤ i ∧ tailUnit len i = i) := by
  by_cases word : i < len / 8 * 8
  · exact .inl ⟨word, if_pos word⟩
  · by_cases half : i < len / 4 * 4
    · exact .inr (.inl ⟨Nat.le_of_not_lt word, half, by rw [tailUnit, if_neg word, if_pos half]⟩)
    · exact .inr (.inr ⟨Nat.le_of_not_lt word, Nat.le_of_not_lt half, by
        rw [tailUnit, if_neg word, if_neg half]⟩)

section Unit

variable {a b : List Byte}

theorem wordAt_congr {p : Nat} (agree : ∀ i, p ≤ i → i < p + 8 → a[i]? = b[i]?) :
    wordAt a p = wordAt b p := by
  rw [wordAt, wordAt, slice_congr agree]

theorem stripesHash_congr (length : a.length = b.length)
    (agree : ∀ i < a.length / 32 * 32, a[i]? = b[i]?) (seed : Uint64) :
    stripesHash a seed = stripesHash b seed := by
  have folded (v : Lanes) : (List.range' 0 (a.length / 32) 32).foldl (absorbStripe a) v =
      (List.range' 0 (a.length / 32) 32).foldl (absorbStripe b) v := by
    apply List.foldl_ext
    intro v p member
    obtain ⟨index, bound, rfl⟩ := List.mem_range'.mp member
    have word (shift : Nat) (inside : shift ≤ 24) :
        wordAt a (0 + 32 * index + shift) = wordAt b (0 + 32 * index + shift) :=
      wordAt_congr fun i _ above => agree i (by omega)
    have first := word 0 (by omega)
    rw [Nat.add_zero] at first
    rw [absorbStripe, absorbStripe, first, word 8 (by omega), word 16 (by omega),
      word 24 (by omega)]
  rw [stripesHash, stripesHash, ← length, folded]

theorem tailWords_getElem? (key : List Byte) (index : Nat) :
    (tailWords key)[index]? =
      if index < key.length % 32 / 8 then some (keyWord key (key.length / 32 * 4 + index))
      else none := by
  rw [tailWords, List.getElem?_map]
  split
  next bound =>
    have place : key.length / 32 * 32 + 8 * index = (key.length / 32 * 4 + index) * 8 := by omega
    rw [List.getElem?_range' bound, Option.map_some, wordAt, place]
    rfl
  next bound => rw [List.getElem?_eq_none (by rw [List.length_range']; omega), Option.map_none]

theorem tailWords_congr (length : a.length = b.length)
    (agree : ∀ i < a.length / 8 * 8, a[i]? = b[i]?) : tailWords a = tailWords b := by
  apply List.ext_getElem?
  intro index
  rw [tailWords_getElem?, tailWords_getElem?, ← length]
  split
  next bound => rw [keyWord_congr fun i unit => agree i (by omega)]
  next => rfl

theorem tailHalf_congr (length : a.length = b.length)
    (agree : ∀ i, a.length / 8 * 8 ≤ i → i < a.length / 4 * 4 → a[i]? = b[i]?) :
    tailHalf a = tailHalf b := by
  rw [tailHalf, tailHalf, ← length]
  split
  next room =>
    rw [halfAt, halfAt, slice_congr fun i low above => agree i low (by omega)]
  next => rfl

theorem tailBytes_congr (length : a.length = b.length)
    (agree : ∀ i, a.length / 4 * 4 ≤ i → a[i]? = b[i]?) : tailBytes a = tailBytes b := by
  apply List.ext_getElem?
  intro i
  rw [tailBytes, tailBytes, List.getElem?_drop, List.getElem?_drop, ← length]
  exact agree _ (by omega)

/-- A changed byte of a half word changes the half word. -/
theorem halfAt_differs {p i : Nat} (length : a.length = b.length) (inside : p + 4 ≤ a.length)
    (below : p ≤ i) (above : i < p + 4) (differ : a[i]? ≠ b[i]?) : halfAt a p ≠ halfAt b p := by
  intro same
  have size (key : List Byte) (long : p + 4 ≤ key.length) :
      ((key.drop p).take 4).length = 4 := by
    rw [List.length_take, List.length_drop]
    omega
  have small (key : List Byte) (long : p + 4 ≤ key.length) :
      fromLittleEndian ((key.drop p).take 4) < 2 ^ 32 := by
    have low := fromLittleEndian_lt ((key.drop p).take 4)
    rwa [size key long] at low
  have values := congrArg BitVec.toNat same
  rw [halfAt, halfAt, BitVec.toNat_ofNat, BitVec.toNat_ofNat, Nat.mod_eq_of_lt (small a inside),
    Nat.mod_eq_of_lt (small b (by omega))] at values
  have bytes := fromLittleEndian_injective
    ((size a inside).trans (size b (by omega)).symm) values
  have selected := congrArg (fun list : List Byte => list[i - p]?) bytes
  have place : p + (i - p) = i := by omega
  simp only [List.getElem?_take_of_lt (show i - p < 4 by omega), List.getElem?_drop, place]
    at selected
  exact differ selected

section Stages

variable {seed : Uint64}

theorem xxhValue_differs_word (length : a.length = b.length) (differ : a ≠ b) {j : Nat}
    (below : a.length / 32 * 4 ≤ j) (above : j < a.length / 8)
    (agree : ∀ i, i / 8 ≠ j → a[i]? = b[i]?) : xxhValue a seed ≠ xxhValue b seed := by
  have words : (tailWords a).length = (tailWords b).length := by
    rw [tailWords, tailWords, List.length_map, List.length_map, List.length_range',
      List.length_range', length]
  have place : a.length / 32 * 4 + (j - a.length / 32 * 4) = j := by omega
  have apart : (tailWords a)[j - a.length / 32 * 4]? ≠ (tailWords b)[j - a.length / 32 * 4]? := by
    rw [tailWords_getElem?, tailWords_getElem?, ← length, if_pos (by omega), if_pos (by omega),
      place]
    intro same
    exact keyWord_differs length differ agree (Option.some.inj same)
  have others : ∀ index, index ≠ j - a.length / 32 * 4 →
      (tailWords a)[index]? = (tailWords b)[index]? := by
    intro index other
    rw [tailWords_getElem?, tailWords_getElem?, ← length,
      keyWord_congr fun i unit => agree i (by omega)]
  rw [xxhValue, xxhValue, stripesHash_congr length (fun i bound => agree i (by omega)),
    tailHalf_congr length (fun i low _ => agree i (by omega)),
    tailBytes_congr length (fun i low => agree i (by omega)), length]
  intro same
  have bytes := foldl_injective absorbByte_start _ (finishHash_injective same)
  exact foldl_differs absorbWord_start absorbWord_next words apart others _
    (foldl_injective absorbHalf_start _ bytes)

theorem xxhValue_differs_half (length : a.length = b.length) {i : Nat}
    (below : a.length / 8 * 8 ≤ i) (above : i < a.length / 4 * 4) (differ : a[i]? ≠ b[i]?)
    (agree : ∀ i, i < a.length / 8 * 8 ∨ a.length / 4 * 4 ≤ i → a[i]? = b[i]?) :
    xxhValue a seed ≠ xxhValue b seed := by
  have room : 4 ≤ a.length % 8 := by omega
  rw [xxhValue, xxhValue, stripesHash_congr length (fun i bound => agree i (by omega)),
    tailWords_congr length (fun i bound => agree i (.inl bound)),
    tailBytes_congr length (fun i low => agree i (.inr low)), tailHalf, tailHalf, ← length,
    if_pos room, if_pos room]
  intro same
  have bytes := foldl_injective absorbByte_start _ (finishHash_injective same)
  exact halfAt_differs length (by omega) below (by omega) differ (absorbHalf_next _ bytes)

theorem xxhValue_differs_byte (length : a.length = b.length) {i : Nat}
    (below : a.length / 4 * 4 ≤ i) (differ : a[i]? ≠ b[i]?)
    (agree : ∀ j, j ≠ i → a[j]? = b[j]?) : xxhValue a seed ≠ xxhValue b seed := by
  have place : a.length / 4 * 4 + (i - a.length / 4 * 4) = i := by omega
  have bytes : (tailBytes a).length = (tailBytes b).length := by
    rw [tailBytes, tailBytes, List.length_drop, List.length_drop, length]
  have apart : (tailBytes a)[i - a.length / 4 * 4]? ≠ (tailBytes b)[i - a.length / 4 * 4]? := by
    rwa [tailBytes, tailBytes, List.getElem?_drop, List.getElem?_drop, ← length, place]
  have others : ∀ index, index ≠ i - a.length / 4 * 4 →
      (tailBytes a)[index]? = (tailBytes b)[index]? := by
    intro index other
    rw [tailBytes, tailBytes, List.getElem?_drop, List.getElem?_drop, ← length]
    exact agree _ (by omega)
  rw [xxhValue, xxhValue, stripesHash_congr length (fun j bound => agree j (by omega)),
    tailWords_congr length (fun j bound => agree j (by omega)),
    tailHalf_congr length (fun j _ bound => agree j (by omega)), length]
  intro same
  exact foldl_differs absorbByte_start absorbByte_next bytes apart others _
    (finishHash_injective same)

end Stages

theorem xxhValue_differs {u : Nat} (length : a.length = b.length) (differ : a ≠ b)
    (tail : a.length / 32 * 32 ≤ u) (agree : ∀ i, tailUnit a.length i ≠ u → a[i]? = b[i]?)
    (seed : Uint64) : xxhValue a seed ≠ xxhValue b seed := by
  obtain ⟨i, apart⟩ : ∃ i, a[i]? ≠ b[i]? := by
    by_contra same
    push Not at same
    exact differ (List.ext_getElem? same)
  have unit : tailUnit a.length i = u := by
    by_contra other
    exact apart (agree i other)
  have inside : i < a.length := by
    by_contra outside
    rw [List.getElem?_eq_none (by omega), List.getElem?_eq_none (by omega)] at apart
    exact apart rfl
  have other (j : Nat) := tailUnit_cases a.length j
  rcases tailUnit_cases a.length i with ⟨word, start⟩ | ⟨below, half, start⟩ | ⟨_, byte, start⟩
  · apply xxhValue_differs_word length differ (j := i / 8) (by omega) (by omega)
    intro j apart
    have placed := other j
    exact agree j (by omega)
  · apply xxhValue_differs_half length below half apart
    intro j apart
    have placed := other j
    exact agree j (by omega)
  · apply xxhValue_differs_byte length byte apart
    intro j apart
    have placed := other j
    exact agree j (by omega)

end Unit

def HashesDiffer (seed : Uint64) (a b : List Byte) : Prop :=
  ∃ ha hb, qbXxh64 (Pointer.start a) a.length seed = .ok ha ∧
    qbXxh64 (Pointer.start b) b.length seed = .ok hb ∧ ha ≠ hb

theorem hashesDiffer_of_unit {a b : List Byte} {u : Nat} (length : a.length = b.length)
    (differ : a ≠ b) (tail : a.length / 32 * 32 ≤ u)
    (agree : ∀ i, tailUnit a.length i ≠ u → a[i]? = b[i]?) (seed : Uint64) :
    HashesDiffer seed a b :=
  ⟨_, _, qbXxh64_eq (Pointer.start_holds a) seed, qbXxh64_eq (Pointer.start_holds b) seed,
    xxhValue_differs length differ tail agree seed⟩

/-- Keys of one length that differ within one word, half word or byte after the
last whole stripe have different hashes, with every seed. Below 32 bytes that
is every byte of the key, and a key of 1, 4 or 8 bytes is a single unit. -/
theorem xxh64_differs (seed : Uint64) :
    (∀ (a b : List Byte) (u : Nat), a.length = b.length → a ≠ b → a.length / 32 * 32 ≤ u →
      (∀ i, tailUnit a.length i ≠ u → a[i]? = b[i]?) → HashesDiffer seed a b) ∧
    (∀ a b : List Byte, a.length = 1 ∨ a.length = 4 ∨ a.length = 8 → b.length = a.length →
      a ≠ b → HashesDiffer seed a b) ∧
    ∀ (a : List Byte) (i : Nat) (byte : Byte), a.length / 32 * 32 ≤ i → i < a.length →
      a[i]? ≠ some byte → HashesDiffer seed a (a.set i byte) := by
  refine ⟨?_, ?_, ?_⟩
  · intro a b u length differ tail agree
    exact hashesDiffer_of_unit length differ tail agree seed
  · intro a b short length differ
    refine hashesDiffer_of_unit length.symm differ (u := 0) (by omega) ?_ seed
    intro i other
    have placed := tailUnit_cases a.length i
    have outside : a.length ≤ i := by omega
    rw [List.getElem?_eq_none outside, List.getElem?_eq_none (by omega)]
  · intro a i byte tail inside changed
    have differ : a ≠ a.set i byte := by
      intro same
      rw [same, List.getElem?_set_self inside] at changed
      exact changed rfl
    have placed := tailUnit_cases a.length i
    have start : a.length / 32 * 32 ≤ tailUnit a.length i := by omega
    refine hashesDiffer_of_unit List.length_set.symm differ start ?_ seed
    intro j apart
    rw [List.getElem?_set_ne (by
      intro same
      subst same
      exact apart rfl)]

/-- A byte of the half word of a key with a stripe, and keys of one unit. -/
theorem xxh64_differs_tail :
    HashesDiffer 0 (List.replicate 45 0) ((List.replicate 45 0).set 41 7) ∧
    HashesDiffer 9 [1, 2, 3, 4] [1, 2, 4, 3] ∧
    HashesDiffer 0 (List.replicate 45 0) ((List.replicate 45 0).set 33 1) := by
  refine ⟨?_, ?_, ?_⟩
  · exact (xxh64_differs 0).2.2 _ 41 7 (by decide) (by decide) (by decide)
  · exact (xxh64_differs 9).2.1 _ _ (by decide) rfl (by decide)
  · refine (xxh64_differs 0).1 _ _ 32 (by decide) (by decide) (by decide) ?_
    intro i apart
    rw [List.getElem?_set_ne (by
      intro same
      subst same
      exact apart (by decide))]

end Quickbloom.Impala
