import Quickbloom.Source.Filter

namespace Quickbloom.Source.Classic

open Quickbloom.Data Quickbloom.Machine

/-! # The unblocked filter of `comparisons/bloom_classic.c` -/

def kHashes : Nat := 8

/-- `m = h1 * 0x9e3779b97f4a7c15; m ^= m >> 32; h2 = m | 1`, written out in each
of the three functions that make a pair. -/
def secondHash (h1 : Uint64) : Uint64 :=
  let m := h1 * 0x9e3779b97f4a7c15
  let m := m ^^^ m >>> 32
  m ||| 1

def hash16Pair (data : Pointer Byte) : Checked (Uint64 × Uint64) := do
  let a ← load64 data
  let b ← load64 (data.add 8)
  let r : BitVec 128 := a.setWidth 128 * b.setWidth 128
  let h1 : Uint64 := r.setWidth 64 ^^^ (r >>> 64).setWidth 64
  return (h1, secondHash h1)

def fasthashM : Uint64 := 0x880355f21e6d1965

/-- `k *= M; k ^= k >> 23; k *= M`, made once for each block and for the tail. -/
def fasthashMix (k : Uint64) : Uint64 :=
  let k := k * fasthashM
  let k := k ^^^ k >>> 23
  k * fasthashM

/-- The cases of the tail switch from `label` down. Each one takes in byte
`label - 1` and falls through. -/
def fasthashTail (tail : Pointer Byte) : Nat → Uint64 → Checked Uint64
  | 0, t => .ok t
  | label + 1, t => do
    let byte ← tail.read label
    fasthashTail tail label (t ^^^ byte.setWidth 64 <<< (8 * label))

def fasthash64Var (data : Pointer Byte) (len : Nat) : Checked Uint64 := do
  let p := data
  let h := BitVec.ofNat 64 len * fasthashM
  let nblocks := len / 8
  let blocks ← strideLoop 1 nblocks (fun h i => do
    let k ← load64 (p.add (i * 8))
    let k := fasthashMix k
    return (h ^^^ k) * fasthashM) (h, 0)
  let h := blocks.1
  let tail := p.add (nblocks * 8)
  let label := len &&& 7
  let h ← if label = 0 then pure h else do
    let t ← fasthashTail tail label 0
    let t := fasthashMix t
    pure ((h ^^^ t) * fasthashM)
  let h := h ^^^ h >>> 23
  let h := h * 0x2127599bf4325c37
  let h := h ^^^ h >>> 47
  return h

def bloomHashPair (data : Pointer Byte) (len : Nat) : Checked (Uint64 × Uint64) :=
  if len = 16 then hash16Pair data
  else do
    let h1 ← fasthash64Var data len
    return (h1, secondHash h1)

/-- `bit_mask` is the number of bits minus one. -/
structure BloomT where
  bits : List Uint64
  bitMask : SizeT
deriving DecidableEq, Repr

def sizeofBloomT : Nat := 16

/-- The rounding loop is that of `qb_new`, here over bits. The result of
`malloc` is used unchecked. `calloc` stands in for a refused `posix_memalign`;
where it is refused too, `bits` is null and holds no word. -/
def bloomNew (heap : Heap) (nbits : SizeT) : Checked BloomT := do
  let nbits ← roundPow2 nbits
  let nwords := nbits / 64
  let nbits := if nwords = 0 then 64 else nbits
  let nwords := if nwords = 0 then 1 else nwords
  if !heap.malloc sizeofBloomT then fault .outOfBounds
  let bitMask := nbits - 1
  let nbytes := nwords * 8
  let granted := heap.posixMemalign 64 nbytes.toNat || heap.malloc nbytes.toNat
  return { bits := if granted then List.replicate nwords.toNat 0 else [], bitMask }

def setBit (b : BloomT) (pos : Uint64) : Checked BloomT :=
  let pos := pos &&& b.bitMask
  let index := (pos >>> 6).toNat
  match b.bits[index]? with
  | some word =>
    .ok { b with bits := b.bits.set index (word ||| (1 : Uint64) <<< (pos &&& 63).toNat) }
  | none => .error .outOfBounds

def getBit (b : BloomT) (pos : Uint64) : Checked Nat :=
  let pos := pos &&& b.bitMask
  match b.bits[(pos >>> 6).toNat]? with
  | some word => .ok (word >>> (pos &&& 63).toNat &&& 1).toNat
  | none => .error .outOfBounds

def insertWithPair (b : BloomT) (h1 h2 : Uint64) : Checked BloomT := do
  let pos := h1
  let last ← strideLoop 1 kHashes (fun state _ => do
    let b ← setBit state.1 state.2
    return (b, state.2 + h2)) ((b, pos), 0)
  return last.1.1

/-- The remaining iterations of the early-exit loop, from position `pos` on. -/
def testPositions (b : BloomT) (h2 : Uint64) : Nat → Uint64 → Checked Nat
  | 0, _ => .ok 1
  | left + 1, pos => do
    let bit ← getBit b pos
    if bit = 0 then return 0
    testPositions b h2 left (pos + h2)

def containsWithPair (b : BloomT) (h1 h2 : Uint64) : Checked Nat :=
  testPositions b h2 kHashes h1

def bloomInsert (b : BloomT) (key : Pointer Byte) (len : Nat) : Checked BloomT := do
  let pair ← bloomHashPair key len
  insertWithPair b pair.1 pair.2

def bloomContains (b : BloomT) (key : Pointer Byte) (len : Nat) : Checked Nat := do
  let pair ← bloomHashPair key len
  containsWithPair b pair.1 pair.2

def bloomInsertBulk (b : BloomT) (keys : Pointer Byte) (klen n : Nat) : Checked BloomT := do
  let last ← strideLoop 1 n (fun b i => bloomInsert b (keys.add (i * klen)) klen) (b, 0)
  return last.1

def bloomContainsBulk (b : BloomT) (keys : Pointer Byte) (klen n : Nat) : Checked Nat := do
  let last ← strideLoop 1 n (fun hits i => do
    let found ← bloomContains b (keys.add (i * klen)) klen
    return if found ≠ 0 then hits + 1 else hits) (0, 0)
  return last.1

def prehashSplit (h : Uint64) : Uint64 × Uint64 := (h, secondHash h)

def bloomInsertPrehash (b : BloomT) (h : Uint64) : Checked BloomT :=
  let pair := prehashSplit h
  insertWithPair b pair.1 pair.2

def bloomContainsPrehash (b : BloomT) (h : Uint64) : Checked Nat :=
  let pair := prehashSplit h
  containsWithPair b pair.1 pair.2

def bloomInsertPrehashBulk (b : BloomT) (hashes : Pointer Uint64) (n : Nat) : Checked BloomT := do
  let last ← strideLoop 1 n (fun b i => do bloomInsertPrehash b (← hashes.read i)) (b, 0)
  return last.1

def bloomContainsPrehashBulk (b : BloomT) (hashes : Pointer Uint64) (n : Nat) : Checked Nat := do
  let last ← strideLoop 1 n (fun hits i => do
    let found ← bloomContainsPrehash b (← hashes.read i)
    return if found ≠ 0 then hits + 1 else hits) (0, 0)
  return last.1

end Quickbloom.Source.Classic
