import Mathlib.Data.Rat.Floor
import Quickbloom.Machine.Table
import Quickbloom.Source.Hash

namespace Quickbloom.Source.BinaryFuse

open Quickbloom.Data Quickbloom.Machine

/-! # `comparisons/binaryfusefilter.h`

Positions in an array and the counters of its loops are natural numbers: the
arrays have fewer than `2 ^ 32` elements.
-/

/-- The C library: the requests its allocator grants, its `qsort`, and the
`double` values of its logarithms and of an exact result after rounding. -/
structure Libc where
  malloc : Nat → Bool
  calloc : Nat → Nat → Bool
  realloc : Nat → Bool
  qsort : (Uint64 → Uint64 → Int) → List Uint64 → List Uint64
  log : ℚ → ℚ
  nearest : ℚ → ℚ

/-- `XOR_MAX_ITERATIONS`. -/
def xorMaxIterations : Nat := 100

/-- The difference is cut to an `int`. -/
def binaryFuseCmpfunc (a b : Uint64) : Int := ((a - b).setWidth 32).toInt

def binaryFuseSortAndRemoveDup (lib : Libc) (keys : List Uint64) (length : Nat) :
    Checked (List Uint64 × Nat) := do
  let keys := lib.qsort binaryFuseCmpfunc (keys.take length) ++ keys.drop length
  let kept ← strideLoop 1 length (fun state i => do
    let key ← loadAt state.1 i
    let before ← loadAt state.1 (i - 1)
    if key ≠ before then
      let keys ← storeAt state.1 state.2 key
      return (keys, state.2 + 1)
    else return state) ((keys, 1), 1)
  return kept.1

def binaryFuseMurmur64 (h : Uint64) : Uint64 :=
  let h := h ^^^ h >>> 33
  let h := h * 0xff51afd7ed558ccd
  let h := h ^^^ h >>> 33
  let h := h * 0xc4ceb9fe1a85ec53
  h ^^^ h >>> 33

def binaryFuseMixSplit (key seed : Uint64) : Uint64 := binaryFuseMurmur64 (key + seed)

def binaryFuse8Fingerprint (hash : Uint64) : Byte := (hash ^^^ hash >>> 32).setWidth 8

/-- The random number and the seed as the call leaves it. -/
def binaryFuseRngSplitmix64 (seed : Uint64) : Uint64 × Uint64 :=
  let seed := seed + 0x9E3779B97F4A7C15
  let z := (seed ^^^ seed >>> 30) * 0xBF58476D1CE4E5B9
  let z := (z ^^^ z >>> 27) * 0x94D049BB133111EB
  (z ^^^ z >>> 31, seed)

/-- `binary_fuse8_t`, with the array behind `Fingerprints`: no element if the
pointer is null. -/
structure BinaryFuse8 where
  seed : Uint64
  size : Uint32
  segmentLength : Uint32
  segmentLengthMask : Uint32
  segmentCount : Uint32
  segmentCountLength : Uint32
  arrayLength : Uint32
  fingerprints : List Byte
deriving DecidableEq, Repr

/-- With a 128-bit integer type. -/
def binaryFuseMulhi (a b : Uint64) : Uint64 :=
  ((a.setWidth 128 * b.setWidth 128 : BitVec 128) >>> 64).setWidth 64

/-- Without one. -/
def binaryFuseMulhiParts (a b : Uint64) : Uint64 :=
  let a0 : Uint64 := (a.setWidth 32).setWidth 64
  let a1 := a >>> 32
  let b0 : Uint64 := (b.setWidth 32).setWidth 64
  let b1 := b >>> 32
  let p11 := a1 * b1
  let p01 := a0 * b1
  let p10 := a1 * b0
  let p00 := a0 * b0
  let middle := p10 + p00 >>> 32 + (p01.setWidth 32).setWidth 64
  p11 + middle >>> 32 + p01 >>> 32

structure BinaryHashes where
  h0 : Uint32
  h1 : Uint32
  h2 : Uint32
deriving DecidableEq, Repr

def binaryFuse8HashBatch (hash : Uint64) (filter : BinaryFuse8) : BinaryHashes :=
  let hi := binaryFuseMulhi hash (filter.segmentCountLength.setWidth 64)
  let h0 : Uint32 := hi.setWidth 32
  let h1 := h0 + filter.segmentLength
  let h2 := h1 + filter.segmentLength
  { h0
    h1 := h1 ^^^ ((hash >>> 18).setWidth 32 &&& filter.segmentLengthMask)
    h2 := h2 ^^^ (hash.setWidth 32 &&& filter.segmentLengthMask) }

/-- The callers pass 0, 1 or 2, so the shift is by at most 36. -/
def binaryFuse8Hash (index hash : Uint64) (filter : BinaryFuse8) : Uint32 :=
  let h := binaryFuseMulhi hash (filter.segmentCountLength.setWidth 64)
  let h := h + index * filter.segmentLength.setWidth 64
  let hh := hash &&& ((1 : Uint64) <<< 36 - 1)
  let h := h ^^^ ((hh >>> (36 - 18 * index)) &&& filter.segmentLengthMask.setWidth 64)
  h.setWidth 32

def binaryFuse8Contain (key : Uint64) (filter : BinaryFuse8) : Checked Bool := do
  let hash := binaryFuseMixSplit key filter.seed
  let f := binaryFuse8Fingerprint hash
  let hashes := binaryFuse8HashBatch hash filter
  let f0 ← loadAt filter.fingerprints hashes.h0.toNat
  let f1 ← loadAt filter.fingerprints hashes.h1.toNat
  let f2 ← loadAt filter.fingerprints hashes.h2.toNat
  let f := f ^^^ (f0 ^^^ f1 ^^^ f2)
  return f == 0

/-- `(uint32_t)x` of a `double`, undefined if the whole part is no value of the type. -/
def toUint32 (x : ℚ) : Checked Uint32 :=
  let whole := if x < 0 then ⌈x⌉ else ⌊x⌋
  if 0 ≤ whole ∧ whole < 2 ^ 32 then .ok (BitVec.ofInt 32 whole) else .error .outOfBounds

def shiftedOne (amount : Uint32) : Checked Uint32 :=
  if 32 ≤ amount.toNat then .error .shiftRange else .ok ((1 : Uint32) <<< amount.toNat)

def binaryFuseCalculateSegmentLength (lib : Libc) (arity : Nat) (size : Uint32) :
    Checked Uint32 := do
  if arity = 3 then
    let quotient := lib.nearest (lib.log size.toNat / lib.log (lib.nearest 3.33))
    let amount ← toUint32 ⌊lib.nearest (quotient + 2.25)⌋
    shiftedOne amount
  else if arity = 4 then
    let quotient := lib.nearest (lib.log size.toNat / lib.log (lib.nearest 2.91))
    let amount ← toUint32 ⌊lib.nearest (quotient - 0.5)⌋
    shiftedOne amount
  else return 65536

def binaryFuseMax (a b : ℚ) : ℚ := if a < b then b else a

def binaryFuseCalculateSizeFactor (lib : Libc) (arity : Nat) (size : Uint32) : ℚ :=
  if arity = 3 then
    let quotient := lib.nearest (lib.nearest (0.25 * lib.log 1000000) / lib.log size.toNat)
    binaryFuseMax 1.125 (lib.nearest (0.875 + quotient))
  else if arity = 4 then
    let quotient := lib.nearest
      (lib.nearest (lib.nearest 0.305 * lib.log 600000) / lib.log size.toNat)
    binaryFuseMax (lib.nearest 1.075) (lib.nearest (lib.nearest 0.77 + quotient))
  else 2

/-- `round`, which takes a half away from zero. -/
def roundDouble (x : ℚ) : ℚ := if x < 0 then ⌈x - 1 / 2⌉ else ⌊x + 1 / 2⌋

def binaryFuse8Allocate (lib : Libc) (size : Uint32) (filter : BinaryFuse8) :
    Checked (Bool × BinaryFuse8) := do
  let arity : Uint32 := 3
  let segmentLength ← if size = 0 then pure 4
    else binaryFuseCalculateSegmentLength lib arity.toNat size
  let segmentLength := if 262144 < segmentLength then 262144 else segmentLength
  let segmentLengthMask := segmentLength - 1
  let sizeFactor := if size ≤ 1 then 0 else binaryFuseCalculateSizeFactor lib arity.toNat size
  let capacity ← if size ≤ 1 then pure 0
    else toUint32 (roundDouble (lib.nearest (size.toNat * sizeFactor)))
  let initSegmentCount := (capacity + segmentLength - 1) / segmentLength - (arity - 1)
  let arrayLength := (initSegmentCount + arity - 1) * segmentLength
  let segmentCount := (arrayLength + segmentLength - 1) / segmentLength
  let segmentCount := if segmentCount ≤ arity - 1 then 1 else segmentCount - (arity - 1)
  let arrayLength := (segmentCount + arity - 1) * segmentLength
  let segmentCountLength := segmentCount * segmentLength
  let granted := lib.calloc arrayLength.toNat 1
  return (granted,
    { filter with size, segmentLength, segmentLengthMask, segmentCount, segmentCountLength,
                  arrayLength
                  fingerprints := if granted then List.replicate arrayLength.toNat 0 else [] })

def binaryFuse8Free (_ : BinaryFuse8) : BinaryFuse8 :=
  { seed := 0, size := 0, segmentLength := 0, segmentLengthMask := 0, segmentCount := 0
    segmentCountLength := 0, arrayLength := 0, fingerprints := [] }

def binaryFuseMod3 (x : Byte) : Byte := if 2 < x then x - 3 else x

/-- The arrays that `binary_fuse8_populate` works on. -/
structure Workspace where
  reverseOrder : List Uint64
  alone : List (Option Nat)
  t2count : List Byte
  reverseH : List (Option Byte)
  t2hash : List Uint64
  startPos : List (Option Nat)
deriving DecidableEq, Repr

/-- `while (((uint32_t)1 << blockBits) < SegmentCount) blockBits += 1`. -/
def segmentBits (segmentCount : Uint32) : Checked Nat :=
  whileM (fun blockBits =>
      if 32 ≤ blockBits then .error .shiftRange
      else .ok (decide ((1 : Uint32) <<< blockBits < segmentCount)))
    (fun blockBits => .ok (blockBits + 1)) 33 1

/-- The product is cut to 32 bits before it is shifted. -/
def startPositions (size : Uint32) (blockBits : Nat) (startPos : List (Option Nat)) :
    Checked (List (Option Nat)) := do
  let block : Uint32 := (1 : Uint32) <<< blockBits
  let filled ← strideLoop 1 block.toNat (fun startPos i =>
    let place := (BitVec.ofNat 64 i * size.setWidth 64).setWidth 32 >>> blockBits
    storeAt startPos i (some place.toNat)) (startPos, 0)
  return filled.1

/-- The search passes every segment at most once before it ends. -/
def freeSegment (reverseOrder : List Uint64) (startPos : List (Option Nat))
    (maskblock segmentIndex : Uint64) : Checked Uint64 :=
  whileM (fun segmentIndex => do
      let place ← loadWritten startPos segmentIndex.toNat
      let order ← loadAt reverseOrder place
      return order != 0)
    (fun segmentIndex => .ok ((segmentIndex + 1) &&& maskblock)) (maskblock.toNat + 2) segmentIndex

structure Placing where
  reverseOrder : List Uint64
  startPos : List (Option Nat)

def placeKey (seed : Uint64) (blockBits : Nat) (placing : Placing) (key : Uint64) :
    Checked Placing := do
  let block : Uint32 := (1 : Uint32) <<< blockBits
  let maskblock : Uint64 := (block - 1).setWidth 64
  let hash := binaryFuseMurmur64 (key + seed)
  let segmentIndex := hash >>> (64 - blockBits)
  let segmentIndex ← freeSegment placing.reverseOrder placing.startPos maskblock segmentIndex
  let place ← loadWritten placing.startPos segmentIndex.toNat
  let reverseOrder ← storeAt placing.reverseOrder place hash
  let startPos ← storeAt placing.startPos segmentIndex.toNat (some (place + 1))
  return { reverseOrder, startPos }

def placeKeys (seed : Uint64) (blockBits : Nat) (keys : List Uint64) (size : Nat)
    (placing : Placing) : Checked Placing := do
  let placed ← strideLoop 1 size (fun placing i => do
    placeKey seed blockBits placing (← loadAt keys i)) (placing, 0)
  return placed.1

structure Tables where
  t2count : List Byte
  t2hash : List Uint64

/-- `t2count[h] += amount; t2count[h] ^= position; t2hash[h] ^= hash`. -/
def Tables.toggle (tables : Tables) (h : Nat) (amount position : Byte) (hash : Uint64) :
    Checked Tables := do
  let count ← loadAt tables.t2count h
  let t2count ← storeAt tables.t2count h ((count + amount) ^^^ position)
  let held ← loadAt tables.t2hash h
  let t2hash ← storeAt tables.t2hash h (held ^^^ hash)
  return { t2count, t2hash }

def Tables.repeats (tables : Tables) (h0 h1 h2 : Nat) : Checked Bool := do
  let x0 ← loadAt tables.t2hash h0
  let x1 ← loadAt tables.t2hash h1
  let x2 ← loadAt tables.t2hash h2
  let c0 ← loadAt tables.t2count h0
  let c1 ← loadAt tables.t2count h1
  let c2 ← loadAt tables.t2count h2
  return (x0 &&& x1 &&& x2) == 0 &&
    (x0 == 0 && c0 == 8 || x1 == 0 && c1 == 8 || x2 == 0 && c2 == 8)

structure Counted where
  tables : Tables
  duplicates : Nat
  error : Bool

def countHash (filter : BinaryFuse8) (counted : Counted) (hash : Uint64) : Checked Counted := do
  let h0 := (binaryFuse8Hash 0 hash filter).toNat
  let tables ← counted.tables.toggle h0 4 0 hash
  let h1 := (binaryFuse8Hash 1 hash filter).toNat
  let tables ← tables.toggle h1 4 1 hash
  let h2 := (binaryFuse8Hash 2 hash filter).toNat
  let tables ← tables.toggle h2 4 2 hash
  let repeated ← tables.repeats h0 h1 h2
  let counted ← if repeated then do
      let tables ← tables.toggle h0 (-4) 0 hash
      let tables ← tables.toggle h1 (-4) 1 hash
      let tables ← tables.toggle h2 (-4) 2 hash
      pure { counted with tables, duplicates := counted.duplicates + 1 }
    else pure { counted with tables }
  let c0 ← loadAt counted.tables.t2count h0
  let c1 ← loadAt counted.tables.t2count h1
  let c2 ← loadAt counted.tables.t2count h2
  let error := if c0 < 4 then true else counted.error
  let error := if c1 < 4 then true else error
  let error := if c2 < 4 then true else error
  return { counted with error }

def countHashes (filter : BinaryFuse8) (reverseOrder : List Uint64) (size : Nat)
    (tables : Tables) : Checked Counted := do
  let counted ← strideLoop 1 size (fun counted i => do
    countHash filter counted (← loadAt reverseOrder i))
    ({ tables, duplicates := 0, error := false }, 0)
  return counted.1

def collectAlone (capacity : Nat) (t2count : List Byte) (alone : List (Option Nat)) :
    Checked (List (Option Nat) × Nat) := do
  let collected ← strideLoop 1 capacity (fun state i => do
    let alone ← storeAt state.1 state.2 (some i)
    let count ← loadAt t2count i
    return (alone, if count >>> 2 = 1 then state.2 + 1 else state.2)) ((alone, 0), 0)
  return collected.1

structure Peel where
  tables : Tables
  alone : List (Option Nat)
  qsize : Nat
  reverseOrder : List Uint64
  reverseH : List (Option Byte)
  stacksize : Nat

/-- What is done at each of the two other cells of a removed hash. -/
def Peel.detach (peel : Peel) (other : Nat) (position : Byte) (hash : Uint64) : Checked Peel := do
  let alone ← storeAt peel.alone peel.qsize (some other)
  let count ← loadAt peel.tables.t2count other
  let qsize := if count >>> 2 = 2 then peel.qsize + 1 else peel.qsize
  let tables ← peel.tables.toggle other (-4) position hash
  return { peel with tables, alone, qsize }

def peelNext (filter : BinaryFuse8) (peel : Peel) : Checked Peel := do
  let qsize := peel.qsize - 1
  let index ← loadWritten peel.alone qsize
  let count ← loadAt peel.tables.t2count index
  if count >>> 2 = 1 then
    let hash ← loadAt peel.tables.t2hash index
    let h0 := (binaryFuse8Hash 0 hash filter).toNat
    let h1 := (binaryFuse8Hash 1 hash filter).toNat
    let h2 := (binaryFuse8Hash 2 hash filter).toNat
    -- Element 0 is not set here.
    let h012 := [none, some h1, some h2, some h0, some h1]
    let found := count &&& 3
    let reverseH ← storeAt peel.reverseH peel.stacksize (some found)
    let reverseOrder ← storeAt peel.reverseOrder peel.stacksize hash
    let peel := { peel with qsize, reverseH, reverseOrder, stacksize := peel.stacksize + 1 }
    let otherIndex1 ← loadWritten h012 (found.toNat + 1)
    let peel ← peel.detach otherIndex1 (binaryFuseMod3 (found + 1)) hash
    let otherIndex2 ← loadWritten h012 (found.toNat + 2)
    peel.detach otherIndex2 (binaryFuseMod3 (found + 2)) hash
  else return { peel with qsize }

def peelAll (filter : BinaryFuse8) (fuel : Nat) (peel : Peel) : Checked Peel :=
  whileM (fun peel => .ok (decide (0 < peel.qsize))) (peelNext filter) fuel peel

/-- What lives from one iteration to the next. -/
structure Population where
  keys : List Uint64
  size : Uint32
  seed : Uint64
  rngCounter : Uint64
  work : Workspace
deriving DecidableEq, Repr

/-- The end of an iteration that has failed. -/
def Population.again (state : Population) (capacity : Nat) : Checked Population := do
  let reverseOrder ← clearFirst 0 state.size.toNat state.work.reverseOrder
  let t2count ← clearFirst 0 capacity state.work.t2count
  let t2hash ← clearFirst 0 capacity state.work.t2hash
  let drawn := binaryFuseRngSplitmix64 state.rngCounter
  return { state with
    seed := drawn.1
    rngCounter := drawn.2
    work := { state.work with reverseOrder, t2count, t2hash } }

/-- One iteration, and whether it was the last. -/
def attempt (lib : Libc) (filter : BinaryFuse8) (blockBits : Nat) (state : Population) :
    Checked (Bool × Population) := do
  let capacity := filter.arrayLength.toNat
  let work := state.work
  let startPos ← startPositions state.size blockBits work.startPos
  let placed ← placeKeys state.seed blockBits state.keys state.size.toNat
    { reverseOrder := work.reverseOrder, startPos }
  let counted ← countHashes filter placed.reverseOrder state.size.toNat
    { t2count := work.t2count, t2hash := work.t2hash }
  let tables := counted.tables
  let work := { work with
    reverseOrder := placed.reverseOrder, startPos := placed.startPos
    t2count := tables.t2count, t2hash := tables.t2hash }
  if counted.error then
    let state ← { state with work }.again capacity
    return (false, state)
  else
    let collected ← collectAlone capacity tables.t2count work.alone
    let peel ← peelAll filter (capacity + 2 * state.size.toNat + 1)
      { tables, alone := collected.1, qsize := collected.2, reverseOrder := work.reverseOrder
        reverseH := work.reverseH, stacksize := 0 }
    let work := { work with
      reverseOrder := peel.reverseOrder, reverseH := peel.reverseH, alone := peel.alone
      t2count := peel.tables.t2count, t2hash := peel.tables.t2hash }
    if BitVec.ofNat 32 (peel.stacksize + counted.duplicates) = state.size then
      return (true, { state with size := BitVec.ofNat 32 peel.stacksize, work })
    else
      let state ← if 0 < counted.duplicates then do
          let kept ← binaryFuseSortAndRemoveDup lib state.keys state.size.toNat
          pure { state with keys := kept.1, size := BitVec.ofNat 32 kept.2, work }
        else pure { state with work }
      let state ← state.again capacity
      return (false, state)

/-- The iterations that are left. -/
def attempts (lib : Libc) (filter : BinaryFuse8) (blockBits : Nat) :
    Nat → Population → Checked (Bool × Population)
  | 0, state => .ok (false, state)
  | left + 1, state => do
    let result ← attempt lib filter blockBits state
    if result.1 then return result else attempts lib filter blockBits left result.2

/-- The fingerprint of the hash at place `i` of the stack, which counts down. -/
def assignNext (filter : BinaryFuse8) (work : Workspace) (state : List Byte × Uint32) :
    Checked (List Byte × Uint32) := do
  let hash ← loadAt work.reverseOrder state.2.toNat
  let xor2 := binaryFuse8Fingerprint hash
  let found ← loadWritten work.reverseH state.2.toNat
  let h0 := (binaryFuse8Hash 0 hash filter).toNat
  let h1 := (binaryFuse8Hash 1 hash filter).toNat
  let h2 := (binaryFuse8Hash 2 hash filter).toNat
  let h012 := [h0, h1, h2, h0, h1]
  let target ← loadAt h012 found.toNat
  let other1 ← loadAt h012 (found.toNat + 1)
  let other2 ← loadAt h012 (found.toNat + 2)
  let held1 ← loadAt state.1 other1
  let held2 ← loadAt state.1 other2
  let fingerprints ← storeAt state.1 target (xor2 ^^^ held1 ^^^ held2)
  return (fingerprints, state.2 - 1)

/-- The loop ends when the counter wraps. -/
def assignFingerprints (filter : BinaryFuse8) (size : Uint32) (work : Workspace) :
    Checked (List Byte) := do
  let assigned ← whileM (fun state : List Byte × Uint32 => .ok (decide (state.2 < size)))
    (assignNext filter work) (size.toNat + 1) (filter.fingerprints, size - 1)
  return assigned.1

/-- The result, the keys as they are left, and the filter. -/
def binaryFuse8Populate (lib : Libc) (keys : List Uint64) (size : Uint32) (filter : BinaryFuse8) :
    Checked (Bool × List Uint64 × BinaryFuse8) := do
  if size ≠ filter.size then return (false, keys, filter)
  let drawn := binaryFuseRngSplitmix64 0x726b2b9d438b9d4d
  let capacity := filter.arrayLength.toNat
  let blockBits ← segmentBits filter.segmentCount
  let block := 1 <<< blockBits
  if !(lib.malloc (capacity * 4) && lib.calloc capacity 1 && lib.malloc size.toNat &&
      lib.calloc capacity 8 && lib.calloc (size + 1).toNat 8 && lib.malloc (block * 4)) then
    return (false, keys, { filter with seed := drawn.1 })
  let reverseOrder ← storeAt (List.replicate (size + 1).toNat 0) size.toNat 1
  let work : Workspace :=
    { reverseOrder, alone := List.replicate capacity none, t2count := List.replicate capacity 0
      reverseH := List.replicate size.toNat none, t2hash := List.replicate capacity 0
      startPos := List.replicate block none }
  let result ← attempts lib filter blockBits xorMaxIterations
    { keys, size, seed := drawn.1, rngCounter := drawn.2, work }
  let state := result.2
  if result.1 then
    let fingerprints ← assignFingerprints filter state.size state.work
    return (true, state.keys, { filter with seed := state.seed, fingerprints })
  else return (false, state.keys, { filter with seed := state.seed })

end Quickbloom.Source.BinaryFuse
