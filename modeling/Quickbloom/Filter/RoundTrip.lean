import Quickbloom.Filter.Runs

namespace Quickbloom.Filter

open Quickbloom.Data Quickbloom.Machine Quickbloom.Source Quickbloom.Probe

/-! # Serialization round trips -/

/-- `qb_serialize` of `b` writes `bytes`, in the documented layout: bit `t` of
lane `lane` of a block is bit `t % 8` of byte `t / 8` of that lane. -/
structure SerializesTo (build : Build) (b : BloomT) (bytes : List Byte) : Prop where
  fits : bytes.length < 2 ^ 64
  size : qbSerializedSize build (some b) = .ok (BitVec.ofNat 64 bytes.length)
  whole : bytes.length = 4 * b.bits.length
  written : ∀ buffer : List Byte, buffer.length = bytes.length →
    qbSerialize build (some b) (some buffer) = .ok (some bytes)
  layout : ∀ (block : Nat) (lane : Fin 8) (t : Nat), 32 * block + 32 ≤ bytes.length → t < 32 →
    ∃ word byte, b.bits[8 * block + lane]? = some word ∧
      bytes[32 * block + 4 * lane + t / 8]? = some byte ∧
      byte.getLsbD (t % 8) = word.getLsbD t

theorem WellFormed.serializesTo {k : Nat} {b : BloomT} (valid : WellFormed k b) (build : Build) :
    SerializesTo build b (image b) where
  fits := by
    have top : 2 ^ k ≤ 2 ^ 31 := Nat.pow_le_pow_right (by omega) valid.bound
    rw [image_length valid]
    omega
  size := by rw [qbSerializedSize_eq build valid, image_length valid]
  whole := by
    rw [image_length valid, valid.words]
    omega
  written := by
    intro buffer length
    rw [image_length valid] at length
    rw [qbSerialize_eq build valid (Nat.le_of_eq length.symm), ← length, List.drop_length,
      List.append_nil]
  layout := by
    intro block lane t inside bound
    rw [image_length valid] at inside
    exact image_bit valid lane bound (by omega)

def LoadableLength (length : Nat) : Prop := ∃ k ≤ 25, length = 32 * 2 ^ k

section Default

variable {build : Build} {heap : Heap}

theorem acceptedSize_default (ceiling : build.qbDeserializeMaxBytes = 1 <<< 30) (nbytes : SizeT) :
    AcceptedSize build nbytes ↔ LoadableLength nbytes.toNat := by
  rw [AcceptedSize, ceiling]
  change nbytes.toNat ≤ 2 ^ 30 ∧ _ ↔ _
  refine ⟨?_, ?_⟩
  · intro accepted
    obtain ⟨capped, k, size⟩ := accepted
    exact ⟨k, (Nat.pow_le_pow_iff_right (by omega)).mp (by omega : 2 ^ k ≤ 2 ^ 25), size⟩
  · intro loadable
    obtain ⟨k, bound, size⟩ := loadable
    have top : 2 ^ k ≤ 2 ^ 25 := Nat.pow_le_pow_right (by omega) bound
    exact ⟨by omega, k, size⟩

theorem qbDeserialize_loads (grants : Heap.Grants heap)
    (ceiling : build.qbDeserializeMaxBytes = 1 <<< 30) {source : Pointer Byte} {nbytes : SizeT}
    {bytes : List Byte} (holds : source.Holds bytes) (length : bytes.length = nbytes.toNat)
    (loadable : LoadableLength nbytes.toNat) :
    ∃ b, qbDeserialize build heap (some source) nbytes = .ok (some b) ∧
      SerializesTo build b bytes := by
  obtain ⟨capped, _⟩ := (acceptedSize_default ceiling nbytes).mpr loadable
  obtain ⟨k, bound, size⟩ := loadable
  have valid := loadedFilter_wellFormed (show k ≤ 31 by omega) bytes
  refine ⟨loadedFilter k bytes, qbDeserialize_accepts grants capped size holds length, ?_⟩
  have serializes := valid.serializesTo build
  rwa [image_loadedFilter (length.trans size)] at serializes

theorem WellFormed.qbDeserialize_image {k : Nat} {b : BloomT} (valid : WellFormed k b)
    (grants : Heap.Grants heap) (ceiling : build.qbDeserializeMaxBytes = 1 <<< 30) :
    qbDeserialize build heap (some (Pointer.start (image b)))
        (BitVec.ofNat 64 (image b).length) =
      .ok (if (image b).length ≤ 2 ^ 30 then some b else none) := by
  have size := serializedSize_toNat valid.bound
  have bytes := image_length valid
  rw [bytes]
  have capped : (BitVec.ofNat 64 (32 * 2 ^ k)).toNat ≤ build.qbDeserializeMaxBytes.toNat ↔
      32 * 2 ^ k ≤ 2 ^ 30 := by
    rw [size, ceiling]
    rfl
  by_cases small : 32 * 2 ^ k ≤ 2 ^ 30
  · rw [if_pos small, qbDeserialize_accepts grants (capped.mpr small) size
      (Pointer.start_holds _) (bytes.trans size.symm), loadedFilter_image valid]
  · rw [if_neg small, qbDeserialize_rejects (fun accepted => small (capped.mp accepted.1))]

end Default

/-- With the default ceiling and enough memory, exactly the loadable lengths
are accepted, every accepted byte string is the image of the filter loaded from
it, and every filter that inserts build is loaded back from its image, up to
the ceiling. -/
theorem qbSerialize_bijection {build : Build} {heap : Heap} (grants : Heap.Grants heap)
    (ceiling : build.qbDeserializeMaxBytes = 1 <<< 30) :
    (∀ (source : Pointer Byte) (nbytes : SizeT), ¬ (∃ k ≤ 25, nbytes.toNat = 32 * 2 ^ k) →
      qbDeserialize build heap (some source) nbytes = .ok none) ∧
    (∀ (source : Pointer Byte) (nbytes : SizeT) (bytes : List Byte),
      (∃ k ≤ 25, nbytes.toNat = 32 * 2 ^ k) → source.Holds bytes → bytes.length = nbytes.toNat →
      ∃ b, qbDeserialize build heap (some source) nbytes = .ok (some b) ∧
        SerializesTo build b bytes) ∧
    (∀ (nbits : SizeT) (created : BloomT) (operands : List Operand),
      qbNew heap nbits = .ok (some created) →
      ∃ b bytes, insertRun created operands = .ok b ∧ SerializesTo build b bytes ∧
        qbDeserialize build heap (some (Pointer.start bytes)) (BitVec.ofNat 64 bytes.length) =
          .ok (if 4 * b.bits.length ≤ 2 ^ 30 then some b else none)) := by
  refine ⟨?_, ?_, ?_⟩
  · intro source nbytes rejected
    exact qbDeserialize_rejects (mt (acceptedSize_default ceiling nbytes).mp rejected) _
  · intro source nbytes bytes loadable holds length
    exact qbDeserialize_loads grants ceiling holds length loadable
  · intro nbits created operands returned
    obtain ⟨k, bound, rfl, _⟩ := qbNew_returns returned
    obtain ⟨b, ran, valid, _⟩ := (emptyFilter_wellFormed bound).insertRun_ok operands
    have serializes := valid.serializesTo build
    have reloaded := valid.qbDeserialize_image grants ceiling
    refine ⟨b, image b, ran, serializes, ?_⟩
    rw [serializes.whole] at reloaded ⊢
    exact reloaded

theorem qbSerialize_bijection_block :
    ∃ b, qbDeserialize {} ampleHeap (some (Pointer.start (List.replicate 32 255))) 32 =
        .ok (some b) ∧ SerializesTo {} b (List.replicate 32 255) :=
  (qbSerialize_bijection ampleHeap_grants rfl).2.1 _ 32 _ ⟨0, by decide⟩ (Pointer.start_holds _)
    (by decide)

end Quickbloom.Filter
