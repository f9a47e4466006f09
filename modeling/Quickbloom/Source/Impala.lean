import Quickbloom.Source.Filter
import Quickbloom.Source.Xxh64

namespace Quickbloom.Source.Impala

open Quickbloom.Machine
open Quickbloom.Data (Byte)
open Quickbloom.Source.Xxh64 (Lanes)

/-! # The scalar filter of `comparisons/bloom_impala.c` -/

def xxhPrime64_1 : Uint64 := 0x9E3779B185EBCA87
def xxhPrime64_2 : Uint64 := 0xC2B2AE3D27D4EB4F
def xxhPrime64_3 : Uint64 := 0x165667B19E3779F9
def xxhPrime64_4 : Uint64 := 0x85EBCA77C2B2AE63
def xxhPrime64_5 : Uint64 := 0x27D4EB2F165667C5

def xxhRotl64 (x : Uint64) (r : Nat) : Uint64 := x <<< r ||| x >>> (64 - r)

def xxhRound (acc input : Uint64) : Uint64 :=
  let acc := acc + input * xxhPrime64_2
  let acc := xxhRotl64 acc 31
  acc * xxhPrime64_1

def xxhMergeRound (acc val : Uint64) : Uint64 :=
  let val := xxhRound 0 val
  let acc := acc ^^^ val
  acc * xxhPrime64_1 + xxhPrime64_4

/-- The body of the stripe loop of this file's copy of the hash. -/
def xxhStripe (data : Pointer Byte) (v : Lanes) (p : Nat) : Checked Lanes := do
  let k ← load64 (data.add p)
  let v1 := xxhRound v.v1 k
  let k ← load64 (data.add (p + 8))
  let v2 := xxhRound v.v2 k
  let k ← load64 (data.add (p + 16))
  let v3 := xxhRound v.v3 k
  let k ← load64 (data.add (p + 24))
  let v4 := xxhRound v.v4 k
  return { v1, v2, v3, v4 }

/-- The branch on the length: the hash so far and where the tail starts. -/
def xxhStripes (data : Pointer Byte) (len : Nat) (seed : Uint64) : Checked (Uint64 × Nat) :=
  if 32 ≤ len then do
    let v : Lanes := {
      v1 := seed + xxhPrime64_1 + xxhPrime64_2
      v2 := seed + xxhPrime64_2
      v3 := seed
      v4 := seed - xxhPrime64_1 }
    let limit := len - 32
    let (v, p) ← doWhileM (fun state => pure (decide (state.2 ≤ limit)))
      (fun state => do return (← xxhStripe data state.1 state.2, state.2 + 32)) len (v, 0)
    let h := xxhRotl64 v.v1 1 + xxhRotl64 v.v2 7 + xxhRotl64 v.v3 12 + xxhRotl64 v.v4 18
    let h := xxhMergeRound h v.v1
    let h := xxhMergeRound h v.v2
    let h := xxhMergeRound h v.v3
    let h := xxhMergeRound h v.v4
    return (h, p)
  else return (seed + xxhPrime64_5, 0)

/-- The branch on a half word in the tail. -/
def xxhHalf (data : Pointer Byte) (len : Nat) (h : Uint64) (p : Nat) : Checked (Uint64 × Nat) :=
  if p + 4 ≤ len then do
    let k ← load32 (data.add p)
    let h := h ^^^ k.setWidth 64 * xxhPrime64_1
    let h := xxhRotl64 h 23 * xxhPrime64_2 + xxhPrime64_3
    return (h, p + 4)
  else return (h, p)

def xxh64 (data : Pointer Byte) (len : Nat) (seed : Uint64) : Checked Uint64 := do
  let (h, p) ← xxhStripes data len seed
  let h := h + BitVec.ofNat 64 len
  let (h, p) ← strideLoop 8 len (fun h p => do
    let k ← load64 (data.add p)
    let h := h ^^^ xxhRound 0 k
    return xxhRotl64 h 27 * xxhPrime64_1 + xxhPrime64_4) (h, p)
  let (h, p) ← xxhHalf data len h p
  let (h, _) ← strideLoop 1 len (fun h p => do
    let byte ← data.read p
    let h := h ^^^ byte.setWidth 64 * xxhPrime64_5
    return xxhRotl64 h 11 * xxhPrime64_1) (h, p)
  let h := h ^^^ h >>> 33
  let h := h * xxhPrime64_2
  let h := h ^^^ h >>> 29
  let h := h * xxhPrime64_3
  return h ^^^ h >>> 32

def sbbfSalt : Fin 8 → Uint32
  | 0 => 0x47b6137b
  | 1 => 0x44974d91
  | 2 => 0x8824ad5b
  | 3 => 0xa2b7289d
  | 4 => 0x705495c7
  | 5 => 0x2df1424b
  | 6 => 0x9efc4947
  | 7 => 0x5c6bfb31

structure BloomT where
  bits : Words
  nblocks : SizeT
deriving DecidableEq, Repr

def blockMask (h32 : Uint32) (i : Fin 8) : Uint32 :=
  let bit := (h32 * sbbfSalt i) >>> 27
  1 <<< bit.toNat

def blockFor (b : BloomT) (h64 : Uint64) : Nat :=
  let hi : Uint32 := (h64 >>> 32).setWidth 32
  let idx : SizeT := (hi.setWidth 64 * b.nblocks) >>> 32
  idx.toNat * 8

def sizeofBloomT : Nat := 16

/-- The result of `malloc` is used unchecked. `calloc` stands in for a refused
`posix_memalign`; where it is refused too, `bits` is null and holds no word. -/
def bloomNew (heap : Heap) (nbits : SizeT) : Checked BloomT := do
  let nblocks := (nbits + 255) / 256
  let nblocks := if nblocks = 0 then 1 else nblocks
  if !heap.malloc sizeofBloomT then fault .outOfBounds
  let nbytes := nblocks * sbbfBlockBytes
  let granted := heap.posixMemalign 32 nbytes.toNat || heap.malloc nbytes.toNat
  return { bits := if granted then List.replicate (nbytes.toNat / 4) 0 else [], nblocks }

def orLane (blk : Nat) (mask : Fin 8 → Uint32) (bits : Words) (i : Fin 8) : Checked Words :=
  match bits[blk + i]? with
  | some word => .ok (bits.set (blk + i) (word ||| mask i))
  | none => .error .outOfBounds

def bloomInsertPrehash (b : BloomT) (h : Uint64) : Checked BloomT := do
  let blk := blockFor b h
  let mask := blockMask (h.setWidth 32)
  let bits ← (List.finRange 8).foldlM (orLane blk mask) b.bits
  return { b with bits }

/-- The remaining lanes of the early-exit loop. -/
def testLanes (bits : Words) (blk : Nat) (mask : Fin 8 → Uint32) : List (Fin 8) → Checked Nat
  | [] => .ok 1
  | i :: rest =>
    match bits[blk + i]? with
    | some word => if word &&& mask i ≠ mask i then .ok 0 else testLanes bits blk mask rest
    | none => .error .outOfBounds

def bloomContainsPrehash (b : BloomT) (h : Uint64) : Checked Nat :=
  let blk := blockFor b h
  let mask := blockMask (h.setWidth 32)
  testLanes b.bits blk mask (List.finRange 8)

def bloomInsert (b : BloomT) (key : Pointer Byte) (len : Nat) : Checked BloomT := do
  let h ← xxh64 key len 0
  let blk := blockFor b h
  let mask := blockMask (h.setWidth 32)
  let bits ← (List.finRange 8).foldlM (orLane blk mask) b.bits
  return { b with bits }

def bloomContains (b : BloomT) (key : Pointer Byte) (len : Nat) : Checked Nat := do
  let h ← xxh64 key len 0
  let blk := blockFor b h
  let mask := blockMask (h.setWidth 32)
  testLanes b.bits blk mask (List.finRange 8)

def bloomInsertBulk (b : BloomT) (keys : Pointer Byte) (klen n : Nat) : Checked BloomT := do
  let last ← strideLoop 1 n (fun b i => bloomInsert b (keys.add (i * klen)) klen) (b, 0)
  return last.1

def bloomContainsBulk (b : BloomT) (keys : Pointer Byte) (klen n : Nat) : Checked Nat := do
  let last ← strideLoop 1 n (fun hits i => do
    let found ← bloomContains b (keys.add (i * klen)) klen
    return if found ≠ 0 then hits + 1 else hits) (0, 0)
  return last.1

def bloomInsertPrehashBulk (b : BloomT) (hashes : Pointer Uint64) (n : Nat) : Checked BloomT := do
  let last ← strideLoop 1 n (fun b i => do bloomInsertPrehash b (← hashes.read i)) (b, 0)
  return last.1

def bloomContainsPrehashBulk (b : BloomT) (hashes : Pointer Uint64) (n : Nat) : Checked Nat := do
  let last ← strideLoop 1 n (fun hits i => do
    let found ← bloomContainsPrehash b (← hashes.read i)
    return if found ≠ 0 then hits + 1 else hits) (0, 0)
  return last.1

end Quickbloom.Source.Impala
