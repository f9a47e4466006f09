import Quickbloom.Source.Util

namespace Quickbloom.Source

open Quickbloom.Data Quickbloom.Machine

/-! # The fuzz harnesses under `tools`

A harness runs on the input of the fuzzer and ends the process if the library
breaks a promise.
-/

/-- How a harness ends other than by returning. -/
inductive Crash where
  /-- `__builtin_trap`. -/
  | trap
  | fault (reason : Fault)
  | estimate (reason : EstimateFault)
  | divisionByZero
deriving DecidableEq, Repr

abbrev Harness (α : Type) := Except Crash α

variable {α : Type}

def called (result : Checked α) : Harness α := result.mapError .fault

def estimated (result : Except EstimateFault α) : Harness α := result.mapError .estimate

/-- The allocator may answer each call of a run in its own way, and memory that
it grants holds anything. -/
structure Environment where
  build : Build
  log : Double → ℚ
  heap : Nat → Heap
  stale : Nat → Nat → Byte

def Environment.malloc (env : Environment) (call nbytes : Nat) : Option (List Byte) :=
  if (env.heap call).malloc nbytes then some ((List.range nbytes).map (env.stale call)) else none

/-- `0.01` as a `double`. -/
def onePercent : Double := .finite (5764607523034235 / 2 ^ 59)

/-- `for (i = 0; i < n; i++) if (!qb_contains(..)) __builtin_trap();` -/
def probeEach (f : BloomT) (data : Pointer Byte) (klen n : Nat) : Harness BloomT :=
  (List.range n).foldlM (fun f i => do
    let found ← called (f.run (qbContains f (data.add (i * klen)) klen))
    if found.1 = 0 then .error .trap else .ok found.2) f

namespace FuzzInsert

/-- From `qb_serialized_size` on. -/
def roundTrip (env : Environment) (f : BloomT) (data : Pointer Byte) (klen n : Nat) :
    Harness Unit := do
  let nbytes ← called (qbSerializedSize env.build (some f))
  match env.malloc 1 nbytes.toNat with
  | none => return ()
  | some buf =>
    let image ← called (qbSerialize env.build (some f) (some buf))
    match ← called (qbDeserialize env.build (env.heap 2) (image.map Pointer.start) nbytes) with
    | none => return ()
    | some g =>
      let _ ← probeEach g data klen n
      return ()

def llvmFuzzerTestOneInput (env : Environment) (data : Pointer Byte) (size : Nat) :
    Harness Nat := do
  if size < 16 then return 0
  let first ← called (data.read 0)
  let klen := first.toNat % 64 + 1
  let data := data.add 1
  let size := size - 1
  if size < klen then return 0
  let n := size / klen
  if n = 0 then return 0
  let n := if 4096 < n then 4096 else n
  let bits ← estimated (qbEstimateBits env.build env.log (BitVec.ofNat 64 n) onePercent)
  match ← called (qbNew (env.heap 0) bits) with
  | none => return 0
  | some f =>
    let f ← called (f.call fun f => qbInsertBulk f data klen n)
    let f ← probeEach f data klen n
    let hits ← called (f.run (qbContainsBulk f data klen n))
    if hits.1 < n then .error .trap
    roundTrip env hits.2 data klen n
    return 0

end FuzzInsert

namespace FuzzDeserialize

/-- `data ? data[i % nbytes] : 0` -/
def keyByte (data : Option (Pointer Byte)) (nbytes i : Nat) : Harness Byte :=
  match data with
  | none => .ok 0
  | some source =>
    if nbytes = 0 then .error .divisionByZero else called (source.read (i % nbytes))

/-- The two images are compared with `memcmp`. -/
def compareImages (env : Environment) (g : BloomT) (out : List Byte) (outN : SizeT) :
    Harness Unit := do
  let gn ← called (qbSerializedSize env.build (some g))
  if gn ≠ outN then .error .trap
  match env.malloc 3 gn.toNat with
  | none => return ()
  | some out2 =>
    match ← called (qbSerialize env.build (some g) (some out2)) with
    | none => return ()
    | some out2 =>
      let left ← called (memcpy (Pointer.start out) outN.toNat)
      let right ← called (memcpy (Pointer.start out2) outN.toNat)
      if left ≠ right then .error .trap

/-- From `qb_serialized_size` on. -/
def roundTrip (env : Environment) (f : BloomT) : Harness Unit := do
  let outN ← called (qbSerializedSize env.build (some f))
  if outN = 0 then return ()
  match env.malloc 1 outN.toNat with
  | none => return ()
  | some out =>
    match ← called (qbSerialize env.build (some f) (some out)) with
    | none => return ()
    | some out =>
      match ← called (qbDeserialize env.build (env.heap 2) (some (Pointer.start out)) outN) with
      | none => return ()
      | some g => compareImages env g out outN

def llvmFuzzerTestOneInput (env : Environment) (data : Option (Pointer Byte)) (size : Nat) :
    Harness Nat := do
  let nbytes := if 2 ^ 24 < size then 2 ^ 24 else size
  match ← called (qbDeserialize env.build (env.heap 0) data (BitVec.ofNat 64 nbytes)) with
  | none => return 0
  | some f =>
    let key ← (List.range 16).mapM (keyByte data nbytes)
    let found ← called (f.run (qbContains f (Pointer.start key) 16))
    let probed ← called (found.2.run (qbContainsPrehash found.2 0xC0FFEE))
    roundTrip env probed.2
    return 0

end FuzzDeserialize

namespace FuzzFasthashVar

def llvmFuzzerTestOneInput (env : Environment) (data : Pointer Byte) (size : Nat) :
    Harness Nat := do
  if size < 2 then return 0
  let first ← called (data.read 0)
  let klen := first.toNat % 23 + 1
  let data := data.add 1
  let size := size - 1
  let maxKeys := size / klen
  if maxKeys = 0 then return 0
  let maxKeys := if 2048 < maxKeys then 2048 else maxKeys
  let bits ← estimated (qbEstimateBits env.build env.log (BitVec.ofNat 64 maxKeys) onePercent)
  match ← called (qbNew (env.heap 0) bits) with
  | none => return 0
  | some f =>
    let f ← called (f.callEach ((List.range maxKeys).map fun i f =>
      qbInsert f (data.add (i * klen)) klen))
    let _ ← probeEach f data klen maxKeys
    return 0

end FuzzFasthashVar

end Quickbloom.Source
