import Quickbloom.Source.BinaryFuse

namespace Quickbloom.Source.Xorfuse

open Quickbloom.Data Quickbloom.Machine
open Quickbloom.Source.BinaryFuse

/-! # `comparisons/bloom_xorfuse.c` -/

def hash16 (data : Pointer Byte) : Checked Uint64 := do
  let a ← load64 data
  let b ← load64 (data.add 8)
  let r : BitVec 128 := a.setWidth 128 * b.setWidth 128
  return r.setWidth 64 ^^^ (r >>> 64).setWidth 64

def fasthashM : Uint64 := 0x880355f21e6d1965

/-- `k *= M; k ^= k >> 23; k *= M`, made once for each block and for the tail. -/
def fasthashMix (k : Uint64) : Uint64 :=
  let k := k * fasthashM
  let k := k ^^^ k >>> 23
  k * fasthashM

/-- The cases of the tail switch from `label` down. Each one takes in byte
`label - 1` and falls through. -/
def fasthashTail (tail : Pointer Byte) : Nat → Uint64 → Checked Uint64
  | 0, t => .ok t
  | label + 1, t => do
    let byte ← tail.read label
    fasthashTail tail label (t ^^^ byte.setWidth 64 <<< (8 * label))

def fasthash64Var (data : Pointer Byte) (len : Nat) : Checked Uint64 := do
  let p := data
  let h := BitVec.ofNat 64 len * fasthashM
  let nblocks := len / 8
  let blocks ← strideLoop 1 nblocks (fun h i => do
    let k ← load64 (p.add (i * 8))
    let k := fasthashMix k
    return (h ^^^ k) * fasthashM) (h, 0)
  let h := blocks.1
  let tail := p.add (nblocks * 8)
  let label := len &&& 7
  let h ← if label = 0 then pure h else do
    let t ← fasthashTail tail label 0
    let t := fasthashMix t
    pure ((h ^^^ t) * fasthashM)
  let h := h ^^^ h >>> 23
  let h := h * 0x2127599bf4325c37
  let h := h ^^^ h >>> 47
  return h

def bloomHash (data : Pointer Byte) (len : Nat) : Checked Uint64 :=
  if len = 16 then hash16 data else fasthash64Var data len

/-- `xf_t`, with the array behind `buf`: no element if the pointer is null. -/
structure XfT where
  filter : BinaryFuse8
  buf : List (Option Uint64)
  bufLen : SizeT
  bufCap : SizeT
  built : Bool
deriving DecidableEq, Repr

def sizeofXfT : Nat := 72

/-- `realloc` keeps what fits. The old array is lost if it is refused. -/
def reallocBuf (lib : Libc) (buf : List (Option Uint64)) (newCap : SizeT) :
    List (Option Uint64) :=
  let bytes := newCap * 8
  let count := bytes.toNat / 8
  if lib.realloc bytes.toNat then buf.take count ++ List.replicate (count - buf.length) none else []

def bufPush (lib : Libc) (x : XfT) (h : Uint64) : Checked XfT := do
  let x := if x.bufLen = x.bufCap then
      let newCap := if x.bufCap ≠ 0 then x.bufCap * 2 else 1024
      { x with buf := reallocBuf lib x.buf newCap, bufCap := newCap }
    else x
  let buf ← storeAt x.buf x.bufLen.toNat (some h)
  return { x with buf, bufLen := x.bufLen + 1 }

/-- The keys that a call reads from the buffer have been written to it. -/
def writtenKeys (buf : List (Option Uint64)) : Checked (List Uint64) :=
  buf.mapM fun
    | some key => .ok key
    | none => .error .outOfBounds

/-- `if (x->buf_len == 0) { buf_push(x, 0); buf_push(x, 1); }`. -/
def pushIfEmpty (lib : Libc) (x : XfT) : Checked XfT :=
  if x.bufLen = 0 then do
    let x ← bufPush lib x 0
    bufPush lib x 1
  else return x

/-- The results of the two calls are not looked at. -/
def build (lib : Libc) (x : XfT) : Checked XfT := do
  if x.built then return x
  let x ← pushIfEmpty lib x
  let allocated ← binaryFuse8Allocate lib (x.bufLen.setWidth 32) x.filter
  let keys ← writtenKeys (x.buf.take x.bufLen.toNat)
  let populated ← binaryFuse8Populate lib keys (x.bufLen.setWidth 32) allocated.2
  return { x with
    filter := populated.2.2
    buf := populated.2.1.map some ++ x.buf.drop x.bufLen.toNat
    built := true }

def bloomNew (lib : Libc) (nbits : SizeT) : Option XfT :=
  if lib.calloc 1 sizeofXfT then
    let reserve := nbits / 21
    let reserve := if reserve < 1024 then 1024 else reserve
    let granted := lib.malloc (reserve * 8).toNat
    some
      { filter :=
          { seed := 0, size := 0, segmentLength := 0, segmentLengthMask := 0, segmentCount := 0
            segmentCountLength := 0, arrayLength := 0, fingerprints := [] }
        buf := if granted then List.replicate reserve.toNat none else []
        bufLen := 0
        bufCap := if granted then reserve else 0
        built := false }
  else none

/-- `if (x->built) { binary_fuse8_free(&x->filter); x->built = 0; }`. -/
def unbuild (x : XfT) : XfT :=
  if x.built then { x with filter := binaryFuse8Free x.filter, built := false } else x

/-- `if (!x->built) build(x);`. -/
def ensureBuilt (lib : Libc) (x : XfT) : Checked XfT :=
  if !x.built then build lib x else return x

def bloomInsertPrehash (lib : Libc) (x : XfT) (h : Uint64) : Checked XfT :=
  bufPush lib (unbuild x) h

def bloomContainsPrehash (lib : Libc) (x : XfT) (h : Uint64) : Checked (XfT × Bool) := do
  let x ← ensureBuilt lib x
  let found ← binaryFuse8Contain h x.filter
  return (x, found)

def bloomInsert (lib : Libc) (x : XfT) (key : Pointer Byte) (len : Nat) : Checked XfT := do
  bloomInsertPrehash lib x (← bloomHash key len)

def bloomContains (lib : Libc) (x : XfT) (key : Pointer Byte) (len : Nat) :
    Checked (XfT × Bool) := do
  bloomContainsPrehash lib x (← bloomHash key len)

/-- Makes room for `n` more keys. The capacity doubles up to the first one that is
large enough, which may take it through 0 once. -/
def reserveMore (lib : Libc) (x : XfT) (n : SizeT) : Checked XfT := do
  if x.bufCap < x.bufLen + n then
    let newCap ← whileM (fun newCap : SizeT => .ok (decide (newCap < x.bufLen + n)))
      (fun newCap => .ok (if newCap ≠ 0 then newCap * 2 else 1024)) 130 x.bufCap
    return { x with buf := reallocBuf lib x.buf newCap, bufCap := newCap }
  else return x

def bloomInsertBulk (lib : Libc) (x : XfT) (keys : Pointer Byte) (klen n : Nat) :
    Checked XfT := do
  let x ← reserveMore lib (unbuild x) (BitVec.ofNat 64 n)
  let filled ← strideLoop 1 n (fun buf i => do
    let h ← bloomHash (keys.add (i * klen)) klen
    storeAt buf (x.bufLen.toNat + i) (some h)) (x.buf, 0)
  build lib { x with buf := filled.1, bufLen := x.bufLen + BitVec.ofNat 64 n }

def bloomContainsBulk (lib : Libc) (x : XfT) (keys : Pointer Byte) (klen n : Nat) :
    Checked (XfT × Nat) := do
  let x ← ensureBuilt lib x
  let last ← strideLoop 1 n (fun hits i => do
    let found ← binaryFuse8Contain (← bloomHash (keys.add (i * klen)) klen) x.filter
    return if found then hits + 1 else hits) (0, 0)
  return (x, last.1)

/-- The `memcpy` of the hashes goes element by element. -/
def bloomInsertPrehashBulk (lib : Libc) (x : XfT) (hashes : Pointer Uint64) (n : Nat) :
    Checked XfT := do
  let x ← reserveMore lib (unbuild x) (BitVec.ofNat 64 n)
  let filled ← strideLoop 1 n (fun buf i => do
    storeAt buf (x.bufLen.toNat + i) (some (← hashes.read i))) (x.buf, 0)
  build lib { x with buf := filled.1, bufLen := x.bufLen + BitVec.ofNat 64 n }

def bloomContainsPrehashBulk (lib : Libc) (x : XfT) (hashes : Pointer Uint64) (n : Nat) :
    Checked (XfT × Nat) := do
  let x ← ensureBuilt lib x
  let last ← strideLoop 1 n (fun hits i => do
    let found ← binaryFuse8Contain (← hashes.read i) x.filter
    return if found then hits + 1 else hits) (0, 0)
  return (x, last.1)

end Quickbloom.Source.Xorfuse
