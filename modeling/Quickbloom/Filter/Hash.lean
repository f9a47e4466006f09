import Quickbloom.Data.Mixing
import Quickbloom.Source.Hash

namespace Quickbloom.Filter

open Quickbloom.Data Quickbloom.Machine Quickbloom.Source

/-! # Keys are hashed inside their buffer

The hash of a key of `len` bytes reads those bytes only, so it returns whenever
they are there, and its value is a function of them.
-/

theorem hash16_congr {left right : Pointer Byte}
    (same : ∀ index < 16, left.read index = right.read index) : hash16 left = hash16 right := by
  have low : load64 left = load64 right :=
    load64_congr (fun index bound => same index (by omega))
  have high : load64 (left.add 8) = load64 (right.add 8) := load64_congr (by
    intro index bound
    rw [Pointer.add_read, Pointer.add_read]
    exact same (8 + index) (by omega))
  rw [hash16, hash16, low, high]

theorem fasthashTail_congr {left right : Pointer Byte} {label : Nat}
    (same : ∀ index < label, left.read index = right.read index) (t : Uint64) :
    fasthashTail left label t = fasthashTail right label t := by
  induction label generalizing t with
  | zero => rfl
  | succ label ih =>
      rw [fasthashTail, fasthashTail, same label (by omega)]
      exact congrArg _ (funext fun byte => ih (fun index bound => same index (by omega)) _)

/-- The tail switches of the comparisons are written out in their files. -/
theorem fasthashTail_unique {copy : Pointer Byte → Nat → Uint64 → Checked Uint64}
    (stop : ∀ tail t, copy tail 0 t = .ok t)
    (step : ∀ tail label t, copy tail (label + 1) t = do
      let byte ← tail.read label
      copy tail label (t ^^^ byte.setWidth 64 <<< (8 * label))) : copy = fasthashTail := by
  funext tail label t
  induction label generalizing t with
  | zero => exact stop tail t
  | succ label ih =>
      rw [step, fasthashTail]
      exact congrArg _ (funext fun byte => ih _)

theorem tailLabel_eq (len : Nat) : len &&& 7 = len % 8 := Nat.and_two_pow_sub_one_eq_mod len 3

theorem fasthash64Var_congr {left right : Pointer Byte} {len : Nat}
    (same : ∀ index < len, left.read index = right.read index) :
    fasthash64Var left len = fasthash64Var right len := by
  have blocks : ∀ (h : Uint64) (i : Nat), i + 1 ≤ len / 8 →
      load64 (left.add (i * 8)) = load64 (right.add (i * 8)) := by
    intro h i bound
    apply load64_congr
    intro index inside
    rw [Pointer.add_read, Pointer.add_read]
    exact same (i * 8 + index) (by omega)
  have tail : ∀ t, fasthashTail (left.add (len / 8 * 8)) (len &&& 7) t =
      fasthashTail (right.add (len / 8 * 8)) (len &&& 7) t := by
    intro t
    rw [tailLabel_eq]
    apply fasthashTail_congr
    intro index inside
    rw [Pointer.add_read, Pointer.add_read]
    exact same (len / 8 * 8 + index) (by omega)
  simp only [fasthash64Var, tail]
  rw [strideLoop_congr fun h i bound => by rw [blocks h i bound]]

theorem bloomHash_congr {left right : Pointer Byte} {len : Nat}
    (same : ∀ index < len, left.read index = right.read index) :
    bloomHash left len = bloomHash right len := by
  by_cases fast : len = 16
  · subst fast
    exact hash16_congr same
  · rw [bloomHash, bloomHash, if_neg fast, if_neg fast, fasthash64Var_congr same]

theorem foldlM_ok {σ α : Type} {body : σ → α → Checked σ} {step : σ → α → σ} {items : List α}
    (returns : ∀ state, ∀ item ∈ items, body state item = .ok (step state item)) (state : σ) :
    items.foldlM body state = .ok (items.foldl step state) := by
  induction items generalizing state with
  | nil => rfl
  | cons item rest ih =>
      rw [List.foldlM_cons, returns state item (by simp), Checked.ok_bind,
        ih (fun state other member => returns state other (by simp [member]))]
      rfl

def keyWord (key : List Byte) (index : Nat) : Uint64 :=
  BitVec.ofNat 64 (fromLittleEndian ((key.drop (index * 8)).take 8))

/-- The words that the variable-length hash takes in. The tail is mixed in as a
block is, padded with zeros to a word. -/
def keyWords (key : List Byte) : List Uint64 :=
  (List.range ((key.length + 7) / 8)).map (keyWord key)

/-- The words that `hash16` mixes into the first and the second half. -/
def mixFirst : Uint64 := 0x736f6d6570736575
def mixSecond : Uint64 := 0x646f72616e646f6d

def fasthashAbsorb (h k : Uint64) : Uint64 := (h ^^^ fasthashMix k) * fasthashM

def fasthashFinish (h : Uint64) : Uint64 :=
  let h := h ^^^ h >>> 23
  let h := h * 0x2127599bf4325c37
  h ^^^ h >>> 47

/-- A byte above `low` is xored into bits that are still clear. -/
theorem xor_byte {low shift : Nat} (small : low < 2 ^ shift) (byte : Byte) :
    BitVec.ofNat 64 (low + 2 ^ shift * byte.toNat) =
      BitVec.ofNat 64 low ^^^ byte.setWidth 64 <<< shift := by
  apply BitVec.eq_of_getLsbD_eq
  intro t inside
  rw [Nat.add_comm low]
  simp only [BitVec.getLsbD_xor, BitVec.getLsbD_shiftLeft, BitVec.getLsbD_setWidth,
    BitVec.getLsbD_ofNat, inside, decide_true, Bool.true_and,
    Nat.testBit_two_pow_mul_add byte.toNat small t, BitVec.testBit_toNat]
  by_cases below : t < shift
  · simp [below]
  · have clear : low.testBit t = false :=
      Nat.testBit_lt_two_pow (Nat.lt_of_lt_of_le small (Nat.pow_le_pow_right (by omega) (by omega)))
    have index : t - shift < 64 := by omega
    simp [below, clear, index]

section Holds

variable {pointer : Pointer Byte} {key : List Byte}

theorem load64_keyWord (holds : pointer.Holds key) {index : Nat}
    (bound : index * 8 + 8 ≤ key.length) :
    load64 (pointer.add (index * 8)) = .ok (keyWord key index) :=
  load64_holds (holds.add (index * 8)) (by rw [List.length_drop]; omega)

theorem hash16_eq (holds : pointer.Holds key) (long : 16 ≤ key.length) :
    hash16 pointer = .ok (mulFold (keyWord key 0 ^^^ mixFirst) (keyWord key 1 ^^^ mixSecond)) := by
  have low : load64 pointer = .ok (keyWord key 0) :=
    load64_keyWord holds (by omega : 0 * 8 + 8 ≤ key.length)
  have high : load64 (pointer.add 8) = .ok (keyWord key 1) :=
    load64_keyWord holds (by omega : 1 * 8 + 8 ≤ key.length)
  rw [hash16, low, high]
  rfl

theorem hash16_returns (holds : pointer.Holds key) (long : 16 ≤ key.length) :
    ∃ h, hash16 pointer = .ok h :=
  ⟨_, hash16_eq holds long⟩

theorem fasthashTail_eq (holds : pointer.Holds key) {label : Nat} (bound : label ≤ key.length)
    (t : Uint64) :
    fasthashTail pointer label t =
      .ok (t ^^^ BitVec.ofNat 64 (fromLittleEndian (key.take label))) := by
  induction label generalizing t with
  | zero => simp [fasthashTail, fromLittleEndian]
  | succ label ih =>
      have low := fromLittleEndian_lt (key.take label)
      have length : (key.take label).length = label := by
        rw [List.length_take]
        omega
      rw [length] at low
      have packed : fromLittleEndian (key.take (label + 1)) =
          fromLittleEndian (key.take label) + 2 ^ (8 * label) * key[label].toNat := by
        rw [List.take_succ_eq_append_getElem bound, fromLittleEndian_append, length]
        simp [fromLittleEndian]
      rw [fasthashTail, holds label bound, Checked.ok_bind, ih (by omega), packed, xor_byte low,
        BitVec.xor_assoc, BitVec.xor_comm (key[label].setWidth 64 <<< (8 * label))]

theorem fasthash64Var_eq (holds : pointer.Holds key) :
    fasthash64Var pointer key.length =
      .ok (fasthashFinish ((keyWords key).foldl fasthashAbsorb
        (BitVec.ofNat 64 key.length * fasthashM))) := by
  have blocks : ∀ h : Uint64,
      (List.range' 0 (key.length / 8)).foldlM (fun (h : Uint64) i => do
        let k ← load64 (pointer.add (i * 8))
        return (h ^^^ fasthashMix k) * fasthashM) h =
      .ok (((List.range (key.length / 8)).map (keyWord key)).foldl fasthashAbsorb h) := by
    intro h
    rw [List.range_eq_range', List.foldl_map, foldlM_ok]
    intro h i member
    have bound : i < key.length / 8 := by simpa [List.mem_range'_1] using member
    rw [load64_keyWord holds (by omega)]
    rfl
  have rest : (key.drop (key.length / 8 * 8)).length = key.length % 8 := by
    rw [List.length_drop]
    omega
  have tail : fasthashTail (pointer.add (key.length / 8 * 8)) (key.length % 8) 0 =
      .ok (keyWord key (key.length / 8)) := by
    have clear (word : Uint64) : 0 ^^^ word = word := BitVec.zero_xor
    rw [fasthashTail_eq (holds.add _) (Nat.le_of_eq rest.symm), clear, keyWord,
      List.take_of_length_le (Nat.le_of_eq rest),
      List.take_of_length_le (by rw [rest]; omega)]
  simp only [fasthash64Var]
  rw [strideLoop_one (Nat.zero_le _), Nat.sub_zero, blocks]
  simp only [Checked.ok_bind, Checked.pure_eq_ok, tailLabel_eq, tail]
  by_cases whole : key.length % 8 = 0
  · have count : (key.length + 7) / 8 = key.length / 8 := by omega
    rw [if_pos whole, keyWords, count]
    rfl
  · have count : (key.length + 7) / 8 = key.length / 8 + 1 := by omega
    rw [if_neg whole, keyWords, count, List.range_succ, List.map_append, List.foldl_append]
    rfl

theorem fasthash64Var_returns (holds : pointer.Holds key) :
    ∃ h, fasthash64Var pointer key.length = .ok h :=
  ⟨_, fasthash64Var_eq holds⟩

theorem bloomHash_returns (holds : pointer.Holds key) :
    ∃ h, bloomHash pointer key.length = .ok h := by
  by_cases fast : key.length = 16
  · rw [bloomHash, if_pos fast]
    exact hash16_returns holds (by omega)
  · rw [bloomHash, if_neg fast]
    exact fasthash64Var_returns holds

end Holds

def keyHash (key : List Byte) : Uint64 :=
  match bloomHash (Pointer.start key) key.length with
  | .ok h => h
  | .error _ => 0

/-- Wherever a key lies, `bloom_hash` returns its hash value. -/
theorem bloomHash_eq_keyHash {pointer : Pointer Byte} {key : List Byte}
    (holds : pointer.Holds key) : bloomHash pointer key.length = .ok (keyHash key) := by
  have own := Pointer.start_holds key
  have same : bloomHash pointer key.length = bloomHash (Pointer.start key) key.length :=
    bloomHash_congr (fun index bound => by rw [holds index bound, own index bound])
  obtain ⟨h, returned⟩ := bloomHash_returns own
  rw [same, keyHash, returned]

end Quickbloom.Filter
