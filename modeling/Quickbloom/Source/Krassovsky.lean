import Quickbloom.Machine.Epi64
import Quickbloom.Source.Filter

namespace Quickbloom.Source.Krassovsky

open Quickbloom.Data Quickbloom.Machine.Epi64
open Quickbloom.Machine (Checked Pointer fault load64 strideLoop whileM)

/-! # `comparisons/bloom_krassovsky.c`

Loop counters, positions and counts of bits are numbers; the running count of
the table construction is an integer, as an `int` may go down.
-/

def logNumMasks : Nat := 10
def numMasks : Nat := 1 <<< logNumMasks
def bitsPerMask : Nat := 57
def minBitsSet : Nat := 4
def maxBitsSet : Nat := 5
def rotateBits : Nat := 6
abbrev maskBytes : Nat := (numMasks + 64) / 8

abbrev MaskTable := Vector Byte maskBytes

def prngNext (state : Uint64) : Uint32 × Uint64 :=
  let state := state ^^^ state >>> 12
  let state := state ^^^ state <<< 25
  let state := state ^^^ state >>> 27
  (((state * 0x2545f4914f6cdd1d) >>> 32).setWidth 32, state)

/-- `(MASK_TABLE[i / 8] >> (i % 8)) & 1` -/
def tableBit (table : MaskTable) (i : Nat) : Checked Nat :=
  match table[i / 8]? with
  | some byte => .ok (byte >>> (i % 8) &&& 1).toNat
  | none => .error .outOfBounds

/-- `MASK_TABLE[i / 8] |= (uint8_t)(1u << (i % 8))` -/
def setTableBit (table : MaskTable) (i : Nat) : Checked MaskTable :=
  if inside : i / 8 < maskBytes then
    .ok (table.set (i / 8) (table[i / 8] ||| ((1 : Uint32) <<< (i % 8)).setWidth 8) inside)
  else .error .outOfBounds

section Init

-- `next` stands in for `prng_next`, which it is at the file's own generator.
variable {σ : Type} (next : σ → Uint32 × σ)

/-- The rejection loop for one position: `do pos = …; while (bit pos is set)`. -/
def drawClear (fuel : Nat) (table : MaskTable) (prng : σ) : Checked (Nat × σ) :=
  let draw (prng : σ) : Nat × σ := ((next prng).1.toNat % bitsPerMask, (next prng).2)
  whileM (fun state => do return decide ((← tableBit table state.1) ≠ 0))
    (fun state => .ok (draw state.2)) fuel (draw prng)

/-- The part of `mask_table_init` before the sliding loop: `num_set` and the
first window. Each rejection loop may make `fuel` tests. -/
def firstWindow (fuel : Nat) (prng : σ) : Checked (Nat × MaskTable × σ) := do
  let table : MaskTable := Vector.replicate maskBytes 0
  let range := maxBitsSet - minBitsSet + 1
  let numSet := minBitsSet + (next prng).1.toNat % range
  let placed ← strideLoop 1 numSet (fun (state : MaskTable × σ) _ => do
    let (pos, prng) ← drawClear next fuel state.1 state.2
    let table ← setTableBit state.1 pos
    return (table, prng)) ((table, (next prng).2), 0)
  return (numSet, placed.1)

structure Slide (σ : Type) where
  maskTable : MaskTable
  cur : Int
  prngState : σ

/-- The body of the sliding loop. -/
def slideBit (state : Slide σ) (i : Nat) : Checked (Slide σ) := do
  let leavingIdx := i - bitsPerMask
  let leaving ← tableBit state.maskTable leavingIdx
  if leaving = 1 ∧ state.cur = minBitsSet then
    let maskTable ← setTableBit state.maskTable i
    return { state with maskTable }
  if leaving = 0 ∧ state.cur = maxBitsSet then return state
  let (value, prngState) := next state.prngState
  if value.toNat % (bitsPerMask * 2) < minBitsSet + maxBitsSet then
    let maskTable ← setTableBit state.maskTable i
    return { maskTable, prngState, cur := if leaving = 0 then state.cur + 1 else state.cur }
  else
    return { state with prngState, cur := if leaving = 1 then state.cur - 1 else state.cur }

/-- The static variables of the file. -/
structure Statics (σ : Type) where
  maskTable : MaskTable
  maskTableInited : Bool
  prngState : σ

/-- `seed` is the state that the generator is reset to. -/
def maskTableInit (fuel : Nat) (seed : σ) (statics : Statics σ) : Checked (Statics σ) := do
  if statics.maskTableInited then return statics
  let (numSet, table, prng) ← firstWindow next fuel seed
  let totalBits := numMasks + bitsPerMask - 1
  let final ← strideLoop 1 totalBits (slideBit next)
    ({ maskTable := table, cur := numSet, prngState := prng }, bitsPerMask)
  return { maskTable := final.1.maskTable, maskTableInited := true, prngState := final.1.prngState }

end Init

def hash16 (data : Pointer Byte) : Checked Uint64 := do
  let a ← load64 data
  let b ← load64 (data.add 8)
  let r : BitVec 128 := a.setWidth 128 * b.setWidth 128
  return r.setWidth 64 ^^^ (r >>> 64).setWidth 64

def fasthashM : Uint64 := 0x880355f21e6d1965

/-- `k *= M; k ^= k >> 23; k *= M`, made once for each block and for the tail. -/
def fasthashMix (k : Uint64) : Uint64 :=
  let k := k * fasthashM
  let k := k ^^^ k >>> 23
  k * fasthashM

/-- The cases of the tail switch from `label` down. Each one takes in byte
`label - 1` and falls through. -/
def fasthashTail (tail : Pointer Byte) : Nat → Uint64 → Checked Uint64
  | 0, t => .ok t
  | label + 1, t => do
    let byte ← tail.read label
    fasthashTail tail label (t ^^^ byte.setWidth 64 <<< (8 * label))

def fasthash64Var (data : Pointer Byte) (len : Nat) : Checked Uint64 := do
  let p := data
  let h := BitVec.ofNat 64 len * fasthashM
  let nblocks := len / 8
  let blocks ← strideLoop 1 nblocks (fun h i => do
    let k ← load64 (p.add (i * 8))
    let k := fasthashMix k
    return (h ^^^ k) * fasthashM) (h, 0)
  let h := blocks.1
  let tail := p.add (nblocks * 8)
  let label := len &&& 7
  let h ← if label = 0 then pure h else do
    let t ← fasthashTail tail label 0
    let t := fasthashMix t
    pure ((h ^^^ t) * fasthashM)
  let h := h ^^^ h >>> 23
  let h := h * 0x2127599bf4325c37
  let h := h ^^^ h >>> 47
  return h

def bloomHash (data : Pointer Byte) (len : Nat) : Checked Uint64 :=
  if len = 16 then hash16 data else fasthash64Var data len

structure BloomT where
  bv : List Uint64
  numBlocks : Uint64
  numBlocksMask : Uint64
deriving DecidableEq, Repr

def sizeofBloomT : Nat := 24

/-- `while (pow2_bits < nbits) pow2_bits <<= 1`, for at most `fuel` tests. -/
def roundBits (fuel : Nat) (nbits : SizeT) : Checked SizeT :=
  whileM (fun pow2Bits : SizeT => .ok (decide (pow2Bits < nbits)))
    (fun pow2Bits => .ok (pow2Bits <<< 1)) fuel 64

/-- Each rejection loop of the table may make `tries` tests. The result of
`malloc` is used unchecked, after the rounding loop. `calloc` stands in for a
refused `posix_memalign`; where it is refused too, `bv` is null and holds no word. -/
def bloomNew (heap : Heap) (tries fuel : Nat) (statics : Statics Uint64) (nbits : SizeT) :
    Checked (BloomT × Statics Uint64) := do
  let statics ← maskTableInit prngNext tries 0x123456789abcdef0 statics
  let pow2Bits ← roundBits fuel nbits
  if !heap.malloc sizeofBloomT then fault .outOfBounds
  let numBlocks := pow2Bits / 64
  let numBlocks := if numBlocks = 0 then 1 else numBlocks
  let numBlocksMask := numBlocks - 1
  let nbytes := numBlocks * 8
  let granted := heap.posixMemalign 32 nbytes.toNat || heap.malloc nbytes.toNat
  let bv := if granted then List.replicate numBlocks.toNat 0 else []
  return ({ bv, numBlocks, numBlocksMask }, statics)

def constructMaskScalar (table : MaskTable) (h : Uint64) : Checked Uint64 := do
  let idx : Uint32 := (h &&& (((1 : Uint64) <<< logNumMasks) - 1)).setWidth 32
  let raw ← load64 ((Pointer.start table.toList).add (idx >>> 3).toNat)
  let unrot := raw >>> (idx &&& 7).toNat &&& (((1 : Uint64) <<< bitsPerMask) - 1)
  let rot : Uint32 := (h >>> logNumMasks &&& (((1 : Uint64) <<< rotateBits) - 1)).setWidth 32
  let up := unrot <<< rot.toNat
  let down := if rot = 0 then 0 else unrot >>> (64 - rot).toNat
  return up ||| down

def blockIdxScalar (b : BloomT) (h : Uint64) : Uint64 :=
  h >>> (logNumMasks + rotateBits) &&& b.numBlocksMask

def readBlock (b : BloomT) (index : Nat) : Checked Uint64 := (Pointer.start b.bv).read index

/-- `b->bv[index] |= mask` -/
def orBlock (b : BloomT) (index : Uint64) (mask : Uint64) : Checked BloomT := do
  let block ← readBlock b index.toNat
  return { b with bv := b.bv.set index.toNat (block ||| mask) }

def bloomInsertPrehash (table : MaskTable) (b : BloomT) (h : Uint64) : Checked BloomT := do
  let mask ← constructMaskScalar table h
  orBlock b (blockIdxScalar b h) mask

def bloomContainsPrehash (table : MaskTable) (b : BloomT) (h : Uint64) : Checked Nat := do
  let mask ← constructMaskScalar table h
  let block ← readBlock b (blockIdxScalar b h).toNat
  return if block &&& mask = mask then 1 else 0

def bloomInsert (table : MaskTable) (b : BloomT) (key : Pointer Byte) (len : Nat) :
    Checked BloomT := do
  bloomInsertPrehash table b (← bloomHash key len)

def bloomContains (table : MaskTable) (b : BloomT) (key : Pointer Byte) (len : Nat) :
    Checked Nat := do
  bloomContainsPrehash table b (← bloomHash key len)

def constructMaskAvx2 (table : MaskTable) (hash : M256i) : Checked M256i := do
  let maskIdxMask := mm256Set1Epi64x (((1 : Uint64) <<< logNumMasks) - 1)
  let mask57 := mm256Set1Epi64x (((1 : Uint64) <<< bitsPerMask) - 1)
  let v64 := mm256Set1Epi64x 64
  let rotMask := mm256Set1Epi64x (((1 : Uint64) <<< rotateBits) - 1)
  let seven := mm256Set1Epi64x 7
  let idx := mm256AndSi256 hash maskIdxMask
  let byteIdx := mm256SrliEpi64 idx 3
  let bitIdx := mm256AndSi256 idx seven
  let raw ← mm256I64gatherEpi64 (fun index => load64 ((Pointer.start table.toList).add index)) byteIdx
  let unrot := mm256AndSi256 (mm256SrlvEpi64 raw bitIdx) mask57
  let rot := mm256AndSi256 (mm256SrliEpi64 hash logNumMasks) rotMask
  let up := mm256SllvEpi64 unrot rot
  let down := mm256SrlvEpi64 unrot (mm256SubEpi64 v64 rot)
  return mm256OrSi256 up down

def blockIdxAvx2 (b : BloomT) (hash : M256i) : M256i :=
  let nbm := mm256Set1Epi64x b.numBlocksMask
  let idx := mm256SrliEpi64 hash (logNumMasks + rotateBits)
  mm256AndSi256 idx nbm

def bloomInsertBatch8 (table : MaskTable) (b : BloomT) (h : Pointer Uint64) : Checked BloomT := do
  let hA ← mm256LoaduSi256 (h.add 0)
  let hB ← mm256LoaduSi256 (h.add 4)
  let mA ← constructMaskAvx2 table hA
  let mB ← constructMaskAvx2 table hB
  let iA := blockIdxAvx2 b hA
  let iB := blockIdxAvx2 b hB
  let b ← orBlock b (mm256ExtractEpi64 iA 0) (mm256ExtractEpi64 mA 0)
  let b ← orBlock b (mm256ExtractEpi64 iA 1) (mm256ExtractEpi64 mA 1)
  let b ← orBlock b (mm256ExtractEpi64 iA 2) (mm256ExtractEpi64 mA 2)
  let b ← orBlock b (mm256ExtractEpi64 iA 3) (mm256ExtractEpi64 mA 3)
  let b ← orBlock b (mm256ExtractEpi64 iB 0) (mm256ExtractEpi64 mB 0)
  let b ← orBlock b (mm256ExtractEpi64 iB 1) (mm256ExtractEpi64 mB 1)
  let b ← orBlock b (mm256ExtractEpi64 iB 2) (mm256ExtractEpi64 mB 2)
  orBlock b (mm256ExtractEpi64 iB 3) (mm256ExtractEpi64 mB 3)

/-- `(uint8_t)(((m >> shift) & 1) << position)` of an `int32_t` move mask. -/
def movemaskBit (m : BitVec 32) (shift position : Nat) : BitVec 8 :=
  ((m.sshiftRight shift &&& 1) <<< position).setWidth 8

def bloomContainsBatch8 (table : MaskTable) (b : BloomT) (h : Pointer Uint64) :
    Checked (BitVec 8) := do
  let hA ← mm256LoaduSi256 (h.add 0)
  let hB ← mm256LoaduSi256 (h.add 4)
  let mA ← constructMaskAvx2 table hA
  let mB ← constructMaskAvx2 table hB
  let iA := blockIdxAvx2 b hA
  let iB := blockIdxAvx2 b hB
  let bA ← mm256I64gatherEpi64 (readBlock b) iA
  let bB ← mm256I64gatherEpi64 (readBlock b) iB
  let cA := mm256CmpeqEpi64 (mm256AndSi256 mA bA) mA
  let cB := mm256CmpeqEpi64 (mm256AndSi256 mB bB) mB
  let mAm := mm256MovemaskEpi8 cA
  let mBm := mm256MovemaskEpi8 cB
  let r : BitVec 8 := 0
  let r := r ||| movemaskBit mAm 0 0
  let r := r ||| movemaskBit mAm 8 1
  let r := r ||| movemaskBit mAm 16 2
  let r := r ||| movemaskBit mAm 24 3
  let r := r ||| movemaskBit mBm 0 4
  let r := r ||| movemaskBit mBm 8 5
  let r := r ||| movemaskBit mBm 16 6
  let r := r ||| movemaskBit mBm 24 7
  return r

def builtinPopcount {width : Nat} (x : BitVec width) : Nat := (List.range width).countP x.getLsbD

def bloomInsertBatch8Bulk (table : MaskTable) (b : BloomT) (hashes : Pointer Uint64) (n : Nat) :
    Checked BloomT := do
  let batched ← strideLoop 8 n (fun b i => bloomInsertBatch8 table b (hashes.add i)) (b, 0)
  let final ← strideLoop 1 n (fun b i => do bloomInsertPrehash table b (← hashes.read i)) batched
  return final.1

def bloomContainsBatch8Bulk (table : MaskTable) (b : BloomT) (hashes : Pointer Uint64) (n : Nat) :
    Checked Nat := do
  let batched ← strideLoop 8 n (fun hits i => do
    return hits + builtinPopcount (← bloomContainsBatch8 table b (hashes.add i))) (0, 0)
  let counted ← strideLoop 1 n (fun hits i => do
    let found ← bloomContainsPrehash table b (← hashes.read i)
    return if found ≠ 0 then hits + 1 else hits) batched
  return counted.1

/-- The local array `h` of the bulk calls over keys. -/
def hash16Batch (keys : Pointer Byte) (i : Nat) : Checked (List Uint64) :=
  (List.range 8).mapM fun j => hash16 (keys.add ((i + j) * 16))

def bloomInsertBulk (table : MaskTable) (b : BloomT) (keys : Pointer Byte) (klen n : Nat) :
    Checked BloomT := do
  let batched ← (if klen = 16 ∧ n ≥ 8 then
      strideLoop 8 n (fun b i => do
        let h ← hash16Batch keys i
        bloomInsertBatch8 table b (Pointer.start h)) (b, 0)
    else pure (b, 0))
  let final ← strideLoop 1 n (fun b i => bloomInsert table b (keys.add (i * klen)) klen) batched
  return final.1

def bloomContainsBulk (table : MaskTable) (b : BloomT) (keys : Pointer Byte) (klen n : Nat) :
    Checked Nat := do
  let batched ← (if klen = 16 ∧ n ≥ 8 then
      strideLoop 8 n (fun hits i => do
        let h ← hash16Batch keys i
        return hits + builtinPopcount (← bloomContainsBatch8 table b (Pointer.start h))) (0, 0)
    else pure (0, 0))
  let counted ← strideLoop 1 n (fun hits i => do
    let found ← bloomContains table b (keys.add (i * klen)) klen
    return if found ≠ 0 then hits + 1 else hits) batched
  return counted.1

def bloomInsertPrehashBulk (table : MaskTable) (b : BloomT) (hashes : Pointer Uint64) (n : Nat) :
    Checked BloomT :=
  bloomInsertBatch8Bulk table b hashes n

def bloomContainsPrehashBulk (table : MaskTable) (b : BloomT) (hashes : Pointer Uint64) (n : Nat) :
    Checked Nat :=
  bloomContainsBatch8Bulk table b hashes n

end Quickbloom.Source.Krassovsky
