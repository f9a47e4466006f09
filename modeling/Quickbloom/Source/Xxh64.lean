import Quickbloom.Source.Hash

namespace Quickbloom.Source.Xxh64

open Quickbloom.Machine
open Quickbloom.Data (Byte)

/-! # `tools/xxh64.h`

The pointer `p` is kept as its offset from the input, and `limit` is the offset
of the last whole stripe.
-/

def qbXxhPrime64_1 : Uint64 := 11400714785074694791
def qbXxhPrime64_2 : Uint64 := 14029467366897019727
def qbXxhPrime64_3 : Uint64 := 1609587929392839161
def qbXxhPrime64_4 : Uint64 := 9650029242287828579
def qbXxhPrime64_5 : Uint64 := 2870177450012600261

def qbXxhRotl64 (x : Uint64) (n : Nat) : Uint64 := x <<< n ||| x >>> (64 - n)

def qbXxhRead64 (p : Pointer Byte) : Checked Uint64 := load64 p

def qbXxhRead32 (p : Pointer Byte) : Checked Uint32 := load32 p

def qbXxhRound (acc input : Uint64) : Uint64 :=
  let acc := acc + input * qbXxhPrime64_2
  let acc := qbXxhRotl64 acc 31
  acc * qbXxhPrime64_1

def qbXxhMergeRound (acc val : Uint64) : Uint64 :=
  let val := qbXxhRound 0 val
  let acc := acc ^^^ val
  acc * qbXxhPrime64_1 + qbXxhPrime64_4

/-- The four accumulators of the stripe loop. -/
structure Lanes where
  v1 : Uint64
  v2 : Uint64
  v3 : Uint64
  v4 : Uint64

/-- The body of the stripe loop. -/
def qbXxhStripe (input : Pointer Byte) (v : Lanes) (p : Nat) : Checked Lanes := do
  let v1 := qbXxhRound v.v1 (← qbXxhRead64 (input.add p))
  let v2 := qbXxhRound v.v2 (← qbXxhRead64 (input.add (p + 8)))
  let v3 := qbXxhRound v.v3 (← qbXxhRead64 (input.add (p + 16)))
  let v4 := qbXxhRound v.v4 (← qbXxhRead64 (input.add (p + 24)))
  return { v1, v2, v3, v4 }

/-- The branch on the length: the hash so far and where the tail starts. -/
def qbXxhStripes (input : Pointer Byte) (len : Nat) (seed : Uint64) : Checked (Uint64 × Nat) :=
  if 32 ≤ len then do
    let limit := len - 32
    let v : Lanes := {
      v1 := seed + qbXxhPrime64_1 + qbXxhPrime64_2
      v2 := seed + qbXxhPrime64_2
      v3 := seed + 0
      v4 := seed - qbXxhPrime64_1 }
    let (v, p) ← doWhileM (fun state => pure (decide (state.2 ≤ limit)))
      (fun state => do return (← qbXxhStripe input state.1 state.2, state.2 + 32)) len (v, 0)
    let h64 := qbXxhRotl64 v.v1 1 + qbXxhRotl64 v.v2 7
      + qbXxhRotl64 v.v3 12 + qbXxhRotl64 v.v4 18
    let h64 := qbXxhMergeRound h64 v.v1
    let h64 := qbXxhMergeRound h64 v.v2
    let h64 := qbXxhMergeRound h64 v.v3
    let h64 := qbXxhMergeRound h64 v.v4
    return (h64, p)
  else return (seed + qbXxhPrime64_5, 0)

/-- The branch on a half word in the tail. -/
def qbXxhHalf (input : Pointer Byte) (len : Nat) (h64 : Uint64) (p : Nat) :
    Checked (Uint64 × Nat) :=
  if p + 4 ≤ len then do
    let h64 := h64 ^^^ (← qbXxhRead32 (input.add p)).setWidth 64 * qbXxhPrime64_1
    let h64 := qbXxhRotl64 h64 23 * qbXxhPrime64_2 + qbXxhPrime64_3
    return (h64, p + 4)
  else return (h64, p)

def qbXxh64 (input : Pointer Byte) (len : Nat) (seed : Uint64) : Checked Uint64 := do
  let (h64, p) ← qbXxhStripes input len seed
  let h64 := h64 + BitVec.ofNat 64 len
  let (h64, p) ← strideLoop 8 len (fun h64 p => do
    let k1 := qbXxhRound 0 (← qbXxhRead64 (input.add p))
    let h64 := h64 ^^^ k1
    return qbXxhRotl64 h64 27 * qbXxhPrime64_1 + qbXxhPrime64_4) (h64, p)
  let (h64, p) ← qbXxhHalf input len h64 p
  let (h64, _) ← strideLoop 1 len (fun h64 p => do
    let h64 := h64 ^^^ (← input.read p).setWidth 64 * qbXxhPrime64_5
    return qbXxhRotl64 h64 11 * qbXxhPrime64_1) (h64, p)
  let h64 := h64 ^^^ h64 >>> 33
  let h64 := h64 * qbXxhPrime64_2
  let h64 := h64 ^^^ h64 >>> 29
  let h64 := h64 * qbXxhPrime64_3
  return h64 ^^^ h64 >>> 32

end Quickbloom.Source.Xxh64
