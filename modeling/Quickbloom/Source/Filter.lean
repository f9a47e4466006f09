import Quickbloom.Machine.Program
import Quickbloom.Source.Hash

namespace Quickbloom.Source

open Quickbloom.Data Quickbloom.Machine

/-! # The filter of `quickbloom.c`

Entry points that work on an existing filter are programs over its `bits`; they
read `nblocks_mask` and `idx_shift` from the header and never write it.
-/

def sbbfBlockBytes : SizeT := 32

/-- The array behind `bits` starts at a 32-byte boundary, so word offsets that
are multiples of 8 are the aligned ones. -/
structure BloomT where
  bits : Words
  nblocksMask : SizeT
  idxShift : Uint32
deriving DecidableEq, Repr

def maskSalt : M256i :=
  mm256SetEpi32 0x5c6bfb31 0x9efc4947 0x2df1424b 0x705495c7
    0xa2b7289d 0x8824ad5b 0x44974d91 0x47b6137b

def maskFor (h32 : Uint32) : M256i :=
  let hbcast := mm256Set1Epi32 h32
  let prod := mm256MulloEpi32 hbcast maskSalt
  let shift := mm256SrliEpi32 prod 27
  let ones := mm256Set1Epi32 1
  mm256SllvEpi32 ones shift

/-- The word offset of the block of `h64`. The shift is made on a `uint64_t`. -/
def blockFor (b : BloomT) (h64 : Uint64) : Checked Nat :=
  let h32 : Uint32 := (h64 >>> 32).setWidth 32
  if 64 ≤ b.idxShift.toNat then .error .shiftRange
  else
    let idx : SizeT := h32.setWidth 64 >>> b.idxShift.toNat
    .ok (idx.toNat * 8)

/-- `while ((((size_t)1) << k) < n) k++`. The shift is undefined from 64 on. -/
def log2Pow2 (n : SizeT) : Checked Uint32 :=
  whileM (fun k : Uint32 =>
      if 64 ≤ k.toNat then .error .shiftRange else .ok (decide ((1 : SizeT) <<< k.toNat < n)))
    (fun k => .ok (k + 1)) 65 0

def qbMaxNblocks : SizeT := 1 <<< 31

/-- `while (pow2 < nblocks) pow2 <<= 1`. After 64 shifts `pow2` is 0 for good. -/
def roundPow2 (nblocks : SizeT) : Checked SizeT :=
  whileM (fun pow2 : SizeT => .ok (decide (pow2 < nblocks))) (fun pow2 => .ok (pow2 <<< 1)) 65 1

/-- The requests that the C allocator grants. -/
structure Heap where
  malloc : Nat → Bool
  posixMemalign : Nat → Nat → Bool

def sizeofBloomT : Nat := 24

def qbNew (heap : Heap) (nbits : SizeT) : Checked (Option BloomT) := do
  let nblocks := (nbits + 255) / 256
  let nblocks := if nblocks = 0 then 1 else nblocks
  if qbMaxNblocks < nblocks then return none
  let nblocks ← roundPow2 nblocks
  if !heap.malloc sizeofBloomT then return none
  let nbytes := nblocks * sbbfBlockBytes
  if !heap.posixMemalign 32 nbytes.toNat then return none
  let log2 ← log2Pow2 nblocks
  return some {
    bits := List.replicate (nbytes.toNat / 4) 0
    nblocksMask := nblocks - 1
    idxShift := 32 - log2 }

def qbInsert (b : BloomT) (key : Pointer Byte) (len : Nat) : Program Unit := do
  let h ← bloomHash key len
  let blk ← blockFor b h
  let m := maskFor (h.setWidth 32)
  let cur ← mm256LoadSi256 blk
  mm256StoreSi256 blk (mm256OrSi256 cur m)

def qbContains (b : BloomT) (key : Pointer Byte) (len : Nat) : Program Nat := do
  let h ← bloomHash key len
  let blk ← blockFor b h
  let m := maskFor (h.setWidth 32)
  let cur ← mm256LoadSi256 blk
  return mm256TestcSi256 cur m

/-- The macro `APPLY`. -/
def applyMask (p : Nat) (m : M256i) : Program Unit := do
  let c ← mm256LoadSi256 p
  mm256StoreSi256 p (mm256OrSi256 c m)

def qbInsertBulk (b : BloomT) (keys : Pointer Byte) (klen n : Nat) : Program Unit := do
  let unrolled ← if klen = 16 then
      strideLoop 4 n (fun _ i => do
        let h0 ← hash16 (keys.add ((i + 0) * 16))
        let h1 ← hash16 (keys.add ((i + 1) * 16))
        let h2 ← hash16 (keys.add ((i + 2) * 16))
        let h3 ← hash16 (keys.add ((i + 3) * 16))
        let p0 ← blockFor b h0
        let p1 ← blockFor b h1
        let p2 ← blockFor b h2
        let p3 ← blockFor b h3
        let m0 := maskFor (h0.setWidth 32)
        let m1 := maskFor (h1.setWidth 32)
        let m2 := maskFor (h2.setWidth 32)
        let m3 := maskFor (h3.setWidth 32)
        applyMask p0 m0
        applyMask p1 m1
        applyMask p2 m2
        applyMask p3 m3) ((), 0)
    else pure ((), 0)
  let _ ← strideLoop 1 n (fun _ i => qbInsert b (keys.add (i * klen)) klen) unrolled
  return ()

def qbContainsBulk (b : BloomT) (keys : Pointer Byte) (klen n : Nat) : Program Nat := do
  let unrolled ← if klen = 16 then
      strideLoop 4 n (fun hits i => do
        let h0 ← hash16 (keys.add ((i + 0) * 16))
        let h1 ← hash16 (keys.add ((i + 1) * 16))
        let h2 ← hash16 (keys.add ((i + 2) * 16))
        let h3 ← hash16 (keys.add ((i + 3) * 16))
        let p0 ← blockFor b h0
        let p1 ← blockFor b h1
        let p2 ← blockFor b h2
        let p3 ← blockFor b h3
        let m0 := maskFor (h0.setWidth 32)
        let m1 := maskFor (h1.setWidth 32)
        let m2 := maskFor (h2.setWidth 32)
        let m3 := maskFor (h3.setWidth 32)
        let c0 ← mm256LoadSi256 p0
        let c1 ← mm256LoadSi256 p1
        let c2 ← mm256LoadSi256 p2
        let c3 ← mm256LoadSi256 p3
        let hits := hits + mm256TestcSi256 c0 m0
        let hits := hits + mm256TestcSi256 c1 m1
        let hits := hits + mm256TestcSi256 c2 m2
        return hits + mm256TestcSi256 c3 m3) (0, 0)
    else pure (0, 0)
  let counted ← strideLoop 1 n (fun hits i => do
    let found ← qbContains b (keys.add (i * klen)) klen
    return if found ≠ 0 then hits + 1 else hits) unrolled
  return counted.1

def qbInsertPrehash (b : BloomT) (h : Uint64) : Program Unit := do
  let blk ← blockFor b h
  let m := maskFor (h.setWidth 32)
  let cur ← mm256LoadSi256 blk
  mm256StoreSi256 blk (mm256OrSi256 cur m)

def qbContainsPrehash (b : BloomT) (h : Uint64) : Program Nat := do
  let blk ← blockFor b h
  let m := maskFor (h.setWidth 32)
  let cur ← mm256LoadSi256 blk
  return mm256TestcSi256 cur m

def qbInsertPrehashBulk (b : BloomT) (hashes : Pointer Uint64) (n : Nat) : Program Unit := do
  let unrolled ← strideLoop 4 n (fun _ i => do
    let p0 ← blockFor b (← hashes.read (i + 0))
    let p1 ← blockFor b (← hashes.read (i + 1))
    let p2 ← blockFor b (← hashes.read (i + 2))
    let p3 ← blockFor b (← hashes.read (i + 3))
    let m0 := maskFor ((← hashes.read (i + 0)).setWidth 32)
    let m1 := maskFor ((← hashes.read (i + 1)).setWidth 32)
    let m2 := maskFor ((← hashes.read (i + 2)).setWidth 32)
    let m3 := maskFor ((← hashes.read (i + 3)).setWidth 32)
    applyMask p0 m0
    applyMask p1 m1
    applyMask p2 m2
    applyMask p3 m3) ((), 0)
  let _ ← strideLoop 1 n (fun _ i => do qbInsertPrehash b (← hashes.read i)) unrolled
  return ()

def qbContainsPrehashBulk (b : BloomT) (hashes : Pointer Uint64) (n : Nat) : Program Nat := do
  let unrolled ← strideLoop 4 n (fun hits i => do
    let p0 ← blockFor b (← hashes.read (i + 0))
    let p1 ← blockFor b (← hashes.read (i + 1))
    let p2 ← blockFor b (← hashes.read (i + 2))
    let p3 ← blockFor b (← hashes.read (i + 3))
    let m0 := maskFor ((← hashes.read (i + 0)).setWidth 32)
    let m1 := maskFor ((← hashes.read (i + 1)).setWidth 32)
    let m2 := maskFor ((← hashes.read (i + 2)).setWidth 32)
    let m3 := maskFor ((← hashes.read (i + 3)).setWidth 32)
    let c0 ← mm256LoadSi256 p0
    let c1 ← mm256LoadSi256 p1
    let c2 ← mm256LoadSi256 p2
    let c3 ← mm256LoadSi256 p3
    let hits := hits + mm256TestcSi256 c0 m0
    let hits := hits + mm256TestcSi256 c1 m1
    let hits := hits + mm256TestcSi256 c2 m2
    return hits + mm256TestcSi256 c3 m3) (0, 0)
  let counted ← strideLoop 1 n (fun hits i => do
    let found ← qbContainsPrehash b (← hashes.read i)
    return if found ≠ 0 then hits + 1 else hits) unrolled
  return counted.1

def BloomT.run {α : Type} (b : BloomT) (program : Program α) : Checked (α × BloomT) := do
  let result ← program.exec b.bits
  return (result.1, { b with bits := result.2 })

def BloomT.call (b : BloomT) (entry : BloomT → Program Unit) : Checked BloomT := do
  let result ← b.run (entry b)
  return result.2

def BloomT.callEach (b : BloomT) (entries : List (BloomT → Program Unit)) : Checked BloomT :=
  entries.foldlM BloomT.call b

end Quickbloom.Source
