import Quickbloom.Machine.Loop
import Quickbloom.Machine.Memory

namespace Quickbloom.Source

open Quickbloom.Data Quickbloom.Machine

abbrev Uint32 := BitVec 32
abbrev Uint64 := BitVec 64
abbrev SizeT := BitVec 64

/-! # The key hash of `quickbloom.c`

Lengths and loop counters are natural numbers: they index a buffer that lies in
the address space, so they do not reach the wrap of `size_t`.
-/

def hash16 (data : Pointer Byte) : Checked Uint64 := do
  let a ← load64 data
  let b ← load64 (data.add 8)
  let a := a ^^^ 0x736f6d6570736575
  let b := b ^^^ 0x646f72616e646f6d
  let r : BitVec 128 := a.setWidth 128 * b.setWidth 128
  return r.setWidth 64 ^^^ (r >>> 64).setWidth 64

def fasthashM : Uint64 := 0x880355f21e6d1965

/-- `k *= M; k ^= k >> 23; k *= M`, made once for each block and for the tail. -/
def fasthashMix (k : Uint64) : Uint64 :=
  let k := k * fasthashM
  let k := k ^^^ k >>> 23
  k * fasthashM

/-- The cases of the tail switch from `label` down. Each one takes in byte
`label - 1` and falls through. -/
def fasthashTail (tail : Pointer Byte) : Nat → Uint64 → Checked Uint64
  | 0, t => .ok t
  | label + 1, t => do
    let byte ← tail.read label
    fasthashTail tail label (t ^^^ byte.setWidth 64 <<< (8 * label))

def fasthash64Var (data : Pointer Byte) (len : Nat) : Checked Uint64 := do
  let p := data
  let h := BitVec.ofNat 64 len * fasthashM
  let nblocks := len / 8
  let blocks ← strideLoop 1 nblocks (fun h i => do
    let k ← load64 (p.add (i * 8))
    let k := fasthashMix k
    return (h ^^^ k) * fasthashM) (h, 0)
  let h := blocks.1
  let tail := p.add (nblocks * 8)
  let label := len &&& 7
  let h ← if label = 0 then pure h else do
    let t ← fasthashTail tail label 0
    let t := fasthashMix t
    pure ((h ^^^ t) * fasthashM)
  let h := h ^^^ h >>> 23
  let h := h * 0x2127599bf4325c37
  let h := h ^^^ h >>> 47
  return h

def bloomHash (data : Pointer Byte) (len : Nat) : Checked Uint64 :=
  if len = 16 then hash16 data else fasthash64Var data len

end Quickbloom.Source
