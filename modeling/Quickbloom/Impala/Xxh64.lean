import Quickbloom.Filter.Hash
import Quickbloom.Machine.Returns
import Quickbloom.Source.Impala

namespace Quickbloom.Impala

open Quickbloom.Data Quickbloom.Machine
open Quickbloom.Filter (foldlM_ok)
open Quickbloom.Source (Uint32 Uint64)
open Quickbloom.Source.Impala (xxh64)
open Quickbloom.Source.Xxh64

/-! # The value of the key hash

A key is taken in as whole stripes, then as the words, the half word and the
bytes that are left. From the stripes on the hash is a chain of injective steps.
-/

def wordAt (key : List Byte) (p : Nat) : Uint64 :=
  BitVec.ofNat 64 (fromLittleEndian ((key.drop p).take 8))

def halfAt (key : List Byte) (p : Nat) : Uint32 :=
  BitVec.ofNat 32 (fromLittleEndian ((key.drop p).take 4))

def startLanes (seed : Uint64) : Lanes where
  v1 := seed + qbXxhPrime64_1 + qbXxhPrime64_2
  v2 := seed + qbXxhPrime64_2
  v3 := seed
  v4 := seed - qbXxhPrime64_1

def absorbStripe (key : List Byte) (v : Lanes) (p : Nat) : Lanes where
  v1 := qbXxhRound v.v1 (wordAt key p)
  v2 := qbXxhRound v.v2 (wordAt key (p + 8))
  v3 := qbXxhRound v.v3 (wordAt key (p + 16))
  v4 := qbXxhRound v.v4 (wordAt key (p + 24))

def joinLanes (v : Lanes) : Uint64 :=
  let h := qbXxhRotl64 v.v1 1 + qbXxhRotl64 v.v2 7 + qbXxhRotl64 v.v3 12 + qbXxhRotl64 v.v4 18
  qbXxhMergeRound (qbXxhMergeRound (qbXxhMergeRound (qbXxhMergeRound h v.v1) v.v2) v.v3) v.v4

/-- What the hash knows of a key before it takes in the tail. -/
def stripesHash (key : List Byte) (seed : Uint64) : Uint64 :=
  if 32 ≤ key.length then
    joinLanes ((List.range' 0 (key.length / 32) 32).foldl (absorbStripe key) (startLanes seed))
  else seed + qbXxhPrime64_5

def absorbWord (h k : Uint64) : Uint64 :=
  qbXxhRotl64 (h ^^^ qbXxhRound 0 k) 27 * qbXxhPrime64_1 + qbXxhPrime64_4

def absorbHalf (h : Uint64) (k : Uint32) : Uint64 :=
  qbXxhRotl64 (h ^^^ k.setWidth 64 * qbXxhPrime64_1) 23 * qbXxhPrime64_2 + qbXxhPrime64_3

def absorbByte (h : Uint64) (byte : Byte) : Uint64 :=
  qbXxhRotl64 (h ^^^ byte.setWidth 64 * qbXxhPrime64_5) 11 * qbXxhPrime64_1

def finishHash (h : Uint64) : Uint64 :=
  let h := h ^^^ h >>> 33
  let h := h * qbXxhPrime64_2
  let h := h ^^^ h >>> 29
  let h := h * qbXxhPrime64_3
  h ^^^ h >>> 32

def tailWords (key : List Byte) : List Uint64 :=
  (List.range' (key.length / 32 * 32) (key.length % 32 / 8) 8).map (wordAt key)

def tailHalf (key : List Byte) : List Uint32 :=
  if 4 ≤ key.length % 8 then [halfAt key (key.length / 8 * 8)] else []

def tailBytes (key : List Byte) : List Byte := key.drop (key.length / 4 * 4)

def xxhValue (key : List Byte) (seed : Uint64) : Uint64 :=
  finishHash ((tailBytes key).foldl absorbByte
    ((tailHalf key).foldl absorbHalf ((tailWords key).foldl absorbWord
      (stripesHash key seed + BitVec.ofNat 64 key.length))))

section Value

variable {pointer : Pointer Byte} {key : List Byte}

theorem read64_eq (holds : pointer.Holds key) {p : Nat} (bound : p + 8 ≤ key.length) :
    qbXxhRead64 (pointer.add p) = .ok (wordAt key p) :=
  load64_holds (holds.add p) (by rw [List.length_drop]; omega)

theorem read32_eq (holds : pointer.Holds key) {p : Nat} (bound : p + 4 ≤ key.length) :
    qbXxhRead32 (pointer.add p) = .ok (halfAt key p) :=
  load32_holds (holds.add p) (by rw [List.length_drop]; omega)

/-- The `do` loop over stripes tests after the first stripe what a `for` loop tests before it. -/
theorem stripeLoop_eq {len : Nat} (long : 32 ≤ len) (input : Pointer Byte) (v : Lanes) :
    doWhileM (fun state : Lanes × Nat => pure (decide (state.2 ≤ len - 32)))
      (fun state => do return (← qbXxhStripe input state.1 state.2, state.2 + 32)) len (v, 0) =
      strideLoop 32 len (qbXxhStripe input) (v, 0) := by
  apply doWhileM_strideLoop (by omega)
  intro state
  exact congrArg _ (decide_eq_decide.mpr (by omega))

theorem stripeLoop_holds (holds : pointer.Holds key) (v : Lanes) :
    strideLoop 32 key.length (qbXxhStripe pointer) (v, 0) =
      .ok ((List.range' 0 (key.length / 32) 32).foldl (absorbStripe key) v,
        key.length / 32 * 32) := by
  have reads (v : Lanes) : ∀ p ∈ List.range' 0 (key.length / 32) 32,
      qbXxhStripe pointer v p = .ok (absorbStripe key v p) := by
    intro p member
    obtain ⟨index, bound, rfl⟩ := List.mem_range'.mp member
    rw [qbXxhStripe, read64_eq holds (by omega), read64_eq holds (by omega),
      read64_eq holds (by omega), read64_eq holds (by omega)]
    rfl
  rw [strideLoop_steps (by omega) (Nat.zero_le _), Nat.sub_zero, Nat.zero_add, foldlM_ok reads]
  rfl

theorem stripes_eq (holds : pointer.Holds key) (seed : Uint64) :
    qbXxhStripes pointer key.length seed =
      .ok (stripesHash key seed, key.length / 32 * 32) := by
  have zero : seed + 0 = seed := BitVec.add_zero seed
  by_cases long : 32 ≤ key.length
  · rw [qbXxhStripes, if_pos long, zero]
    simp only [stripeLoop_eq long, stripeLoop_holds holds, stripesHash, if_pos long]
    rfl
  · have none : key.length / 32 = 0 := Nat.div_eq_of_lt (by omega)
    rw [qbXxhStripes, if_neg long, stripesHash, if_neg long, none]
    rfl

theorem words_eq (holds : pointer.Holds key) (h : Uint64) :
    strideLoop 8 key.length (fun h p => do
        let k1 := qbXxhRound 0 (← qbXxhRead64 (pointer.add p))
        let h := h ^^^ k1
        return qbXxhRotl64 h 27 * qbXxhPrime64_1 + qbXxhPrime64_4) (h, key.length / 32 * 32) =
      .ok ((tailWords key).foldl absorbWord h, key.length / 8 * 8) := by
  have count : (key.length - key.length / 32 * 32) / 8 = key.length % 32 / 8 := by omega
  have last : key.length / 32 * 32 + key.length % 32 / 8 * 8 = key.length / 8 * 8 := by omega
  rw [strideLoop_steps (by omega) (by omega), count, last, tailWords, List.foldl_map, foldlM_ok]
  · rfl
  · intro h p member
    obtain ⟨index, bound, rfl⟩ := List.mem_range'.mp member
    rw [read64_eq holds (by omega)]
    rfl

theorem half_eq (holds : pointer.Holds key) (h : Uint64) :
    qbXxhHalf pointer key.length h (key.length / 8 * 8) =
      .ok ((tailHalf key).foldl absorbHalf h, key.length / 4 * 4) := by
  by_cases room : 4 ≤ key.length % 8
  · have inside : key.length / 8 * 8 + 4 ≤ key.length := by omega
    have last : key.length / 8 * 8 + 4 = key.length / 4 * 4 := by omega
    rw [qbXxhHalf, if_pos inside, read32_eq holds inside, tailHalf, if_pos room, last]
    rfl
  · have last : key.length / 8 * 8 = key.length / 4 * 4 := by omega
    rw [qbXxhHalf, if_neg (by omega), tailHalf, if_neg room, last]
    rfl

theorem bytes_eq (holds : pointer.Holds key) (h : Uint64) :
    strideLoop 1 key.length (fun h p => do
        let byte ← pointer.read p
        let h := h ^^^ byte.setWidth 64 * qbXxhPrime64_5
        return qbXxhRotl64 h 11 * qbXxhPrime64_1) (h, key.length / 4 * 4) =
      .ok ((tailBytes key).foldl absorbByte h, key.length) := by
  suffices folded : ∀ count p h, p + count = key.length →
      (List.range' p count).foldlM (fun h p => do
        let byte ← pointer.read p
        let h := h ^^^ byte.setWidth 64 * qbXxhPrime64_5
        return qbXxhRotl64 h 11 * qbXxhPrime64_1) h =
      (.ok ((key.drop p).foldl absorbByte h) : Checked Uint64) by
    rw [strideLoop_one (by omega), folded _ _ _ (by omega)]
    rfl
  intro count
  induction count with
  | zero =>
      intro p h last
      rw [List.drop_of_length_le (by omega)]
      rfl
  | succ count ih =>
      intro p h last
      rw [List.range'_succ, List.foldlM_cons, holds p (by omega), List.drop_eq_getElem_cons (by omega),
        List.foldl_cons]
      exact ih (p + 1) _ (by omega)

theorem qbXxh64_eq (holds : pointer.Holds key) (seed : Uint64) :
    qbXxh64 pointer key.length seed = .ok (xxhValue key seed) := by
  simp only [qbXxh64, stripes_eq holds, Checked.ok_bind, words_eq holds, half_eq holds,
    bytes_eq holds]
  rfl

end Value

/-- The two copies write their constants in different bases. -/
theorem xxhStripes_eq (data : Pointer Byte) (len : Nat) (seed : Uint64) :
    Source.Impala.xxhStripes data len seed = qbXxhStripes data len seed := by
  have zero : seed + 0 = seed := BitVec.add_zero seed
  rw [qbXxhStripes, zero]
  rfl

theorem xxh64_eq (data : Pointer Byte) (len : Nat) (seed : Uint64) :
    xxh64 data len seed = qbXxh64 data len seed := by
  rw [xxh64, qbXxh64, xxhStripes_eq]
  rfl

section Reads

variable {data : Pointer Byte} {len : Nat} {seed h : Uint64}

theorem qbXxhStripe_readable {v next : Lanes} {p : Nat} (before : data.Readable p)
    (returned : qbXxhStripe data v p = .ok next) : data.Readable (p + 32) := by
  obtain ⟨k1, read1, returned⟩ := Checked.bind_eq_ok returned
  obtain ⟨k2, read2, returned⟩ := Checked.bind_eq_ok returned
  obtain ⟨k3, read3, returned⟩ := Checked.bind_eq_ok returned
  obtain ⟨k4, read4, _⟩ := Checked.bind_eq_ok returned
  have first : data.Readable (p + 8) := before.append (load64_readable read1)
  have second : data.Readable (p + 16) := first.append (load64_readable read2)
  have third : data.Readable (p + 24) := second.append (load64_readable read3)
  exact third.append (load64_readable read4)

theorem qbXxhStripes_readable {start : Uint64 × Nat}
    (returned : qbXxhStripes data len seed = .ok start) : data.Readable start.2 := by
  by_cases long : 32 ≤ len
  · rw [qbXxhStripes, if_pos long] at returned
    obtain ⟨stripes, looped, last⟩ := Checked.bind_eq_ok returned
    have reached : stripes.2 = start.2 := congrArg Prod.snd (Except.ok.inj last)
    rw [stripeLoop_eq long] at looped
    rw [← reached]
    exact (strideLoop_returned (m := Checked) (fun p _ => data.Readable p)
      (fun p v next _ before ran => qbXxhStripe_readable before ran)
      (fun index bound => absurd bound (by omega)) looped).1
  · rw [qbXxhStripes, if_neg long] at returned
    have reached : 0 = start.2 := congrArg Prod.snd (Except.ok.inj returned)
    rw [← reached]
    exact fun index bound => absurd bound (by omega)

theorem qbXxhHalf_readable {p : Nat} {next : Uint64 × Nat} (before : data.Readable p)
    (returned : qbXxhHalf data len h p = .ok next) : data.Readable next.2 := by
  by_cases room : p + 4 ≤ len
  · rw [qbXxhHalf, if_pos room] at returned
    obtain ⟨k, loaded, last⟩ := Checked.bind_eq_ok returned
    have reached : p + 4 = next.2 := congrArg Prod.snd (Except.ok.inj last)
    rw [← reached]
    exact before.append (load32_readable loaded)
  · rw [qbXxhHalf, if_neg room] at returned
    cases returned
    exact before

theorem qbXxh64_readable (returned : qbXxh64 data len seed = .ok h) : data.Readable len := by
  obtain ⟨start, stripes, returned⟩ := Checked.bind_eq_ok returned
  obtain ⟨words, looped, returned⟩ := Checked.bind_eq_ok returned
  obtain ⟨half, tested, returned⟩ := Checked.bind_eq_ok returned
  obtain ⟨bytes, last, _⟩ := Checked.bind_eq_ok returned
  have whole : data.Readable words.2 := (strideLoop_returned (m := Checked)
    (fun p _ => data.Readable p) (by
      intro p acc next _ before ran
      obtain ⟨k, loaded, _⟩ := Checked.bind_eq_ok ran
      exact before.append (load64_readable loaded)) (qbXxhStripes_readable stripes) looped).1
  obtain ⟨readable, stopped⟩ := strideLoop_returned (m := Checked)
    (fun p _ => data.Readable p) (by
      intro p acc next _ before ran
      obtain ⟨byte, found, _⟩ := Checked.bind_eq_ok ran
      refine before.append fun index bound => ?_
      have first : index = 0 := by omega
      subst first
      rw [Pointer.add_read, Nat.add_zero]
      exact ⟨byte, found⟩) (qbXxhHalf_readable whole tested) last
  exact readable.mono (by omega)

end Reads

/-- Both copies of the hash compute the same from every input and fault on the
same. They return exactly if all `len` bytes are there, and what they return
depends on these bytes only. -/
theorem xxh64_reads (data : Pointer Byte) (len : Nat) (seed : Uint64) :
    xxh64 data len seed = qbXxh64 data len seed ∧
    ((∃ h, qbXxh64 data len seed = .ok h) ↔ data.Readable len) ∧
    ∀ key : List Byte, data.Holds key → key.length = len →
      qbXxh64 data len seed = qbXxh64 (Pointer.start key) len seed := by
  refine ⟨xxh64_eq data len seed, ⟨?_, ?_⟩, ?_⟩
  · intro returns
    obtain ⟨h, returned⟩ := returns
    exact qbXxh64_readable returned
  · intro readable
    obtain ⟨key, length, holds⟩ := readable.holds
    subst length
    exact ⟨_, qbXxh64_eq holds seed⟩
  · intro key holds length
    subst length
    rw [qbXxh64_eq holds, qbXxh64_eq (Pointer.start_holds key)]

end Quickbloom.Impala
