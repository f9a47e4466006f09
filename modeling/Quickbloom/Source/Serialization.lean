import Quickbloom.Source.Filter

namespace Quickbloom.Source

open Quickbloom.Data Quickbloom.Machine

/-! # Serialization in `quickbloom.c` -/

structure Build where
  qbDeserializeMaxBytes : SizeT := 1 <<< 30
  ndebug : Bool := false

def cAssert (build : Build) (condition : Bool) : Checked Unit :=
  if !build.ndebug && !condition then .error .assertion else .ok ()

def qbSerializedSize (build : Build) (p : Option BloomT) : Checked SizeT := do
  cAssert build p.isSome
  match p with
  | none => return 0
  | some b => return (b.nblocksMask + 1) * sbbfBlockBytes

/-- The buffer at `dst` after the call. -/
def qbSerialize (build : Build) (p : Option BloomT) (dst : Option (List Byte)) :
    Checked (Option (List Byte)) := do
  cAssert build p.isSome
  cAssert build dst.isSome
  match p, dst with
  | some b, some buffer =>
    let nbytes := (b.nblocksMask + 1) * sbbfBlockBytes
    let image ← memcpy (Pointer.start (encodeWords 4 b.bits)) nbytes.toNat
    if buffer.length < nbytes.toNat then fault .outOfBounds
    return some (image ++ buffer.drop nbytes.toNat)
  | _, _ => return dst

def qbDeserialize (build : Build) (heap : Heap) (bytes : Option (Pointer Byte)) (nbytes : SizeT) :
    Checked (Option BloomT) := do
  match bytes with
  | none => return none
  | some source =>
    if nbytes = 0 ∨ build.qbDeserializeMaxBytes < nbytes then return none
    if nbytes % sbbfBlockBytes ≠ 0 then return none
    let nblocks := nbytes / sbbfBlockBytes
    if nblocks &&& (nblocks - 1) ≠ 0 then return none
    if !heap.malloc sizeofBloomT then return none
    if !heap.posixMemalign 32 nbytes.toNat then return none
    let image ← memcpy source nbytes.toNat
    let log2 ← log2Pow2 nblocks
    return some {
      bits := decodeWords 32 4 (nbytes.toNat / 4) image
      nblocksMask := nblocks - 1
      idxShift := 32 - log2 }

end Quickbloom.Source
