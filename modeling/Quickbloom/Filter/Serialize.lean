import Quickbloom.Filter.Construct
import Quickbloom.Source.Serialization

namespace Quickbloom.Filter

open Quickbloom.Data Quickbloom.Machine Quickbloom.Source

/-! # The image of a filter -/

def image (b : BloomT) : List Byte := encodeWords 4 b.bits

def AcceptedSize (build : Build) (nbytes : SizeT) : Prop :=
  nbytes.toNat ≤ build.qbDeserializeMaxBytes.toNat ∧ ∃ k, nbytes.toNat = 32 * 2 ^ k

section Serialize

variable {k : Nat} {b : BloomT}

theorem image_length (valid : WellFormed k b) : (image b).length = 32 * 2 ^ k := by
  rw [image, encodeWords_length, valid.words]
  omega

theorem image_bit (valid : WellFormed k b) {block t : Nat} (lane : Fin 8) (bound : t < 32)
    (inside : block < 2 ^ k) :
    ∃ word byte, b.bits[8 * block + lane]? = some word ∧
      (image b)[32 * block + 4 * lane + t / 8]? = some byte ∧
      byte.getLsbD (t % 8) = word.getLsbD t := by
  have present : 8 * block + lane < b.bits.length := by
    rw [valid.words]
    omega
  have selected := List.getElem?_eq_getElem present
  obtain ⟨byte, found, bit⟩ := encodeWords_bit (show 32 = 8 * 4 from rfl) selected bound
  have index : 4 * (8 * block + lane) + t / 8 = 32 * block + 4 * lane + t / 8 := by omega
  rw [index] at found
  exact ⟨_, byte, selected, found, bit⟩

theorem serializedBytes_eq (valid : WellFormed k b) :
    ((b.nblocksMask + 1) * sbbfBlockBytes).toNat = 32 * 2 ^ k := by
  have top : 2 ^ k ≤ 2 ^ 31 := Nat.pow_le_pow_right (by omega) valid.bound
  rw [BitVec.toNat_mul, valid.nblocks_toNat]
  change 2 ^ k * 32 % 2 ^ 64 = 32 * 2 ^ k
  omega

theorem serializedSize_toNat (bound : k ≤ 31) :
    (BitVec.ofNat 64 (32 * 2 ^ k)).toNat = 32 * 2 ^ k := by
  have top : 2 ^ k ≤ 2 ^ 31 := Nat.pow_le_pow_right (by omega) bound
  rw [BitVec.toNat_ofNat]
  exact Nat.mod_eq_of_lt (by omega)

theorem qbSerializedSize_eq (build : Build) (valid : WellFormed k b) :
    qbSerializedSize build (some b) = .ok (BitVec.ofNat 64 (32 * 2 ^ k)) := by
  have size := serializedBytes_eq valid
  have asserted : cAssert build (some b).isSome = .ok () := by simp [cAssert]
  rw [qbSerializedSize, asserted, ← size, BitVec.ofNat_toNat, BitVec.setWidth_eq]
  rfl

theorem qbSerialize_eq (build : Build) (valid : WellFormed k b) {buffer : List Byte}
    (room : 32 * 2 ^ k ≤ buffer.length) :
    qbSerialize build (some b) (some buffer) =
      .ok (some (image b ++ buffer.drop (32 * 2 ^ k))) := by
  have asserted (present : Bool) (holds : present = true) : cAssert build present = .ok () := by
    simp [cAssert, holds]
  have copied : memcpy (Pointer.start (encodeWords 4 b.bits)) (32 * 2 ^ k) = .ok (image b) := by
    rw [← image_length valid]
    exact memcpy_whole (Pointer.start_holds _)
  simp only [qbSerialize, asserted _ Option.isSome_some, Checked.ok_bind,
    serializedBytes_eq valid, copied, if_neg (Nat.not_lt.mpr room)]
  rfl

end Serialize

section Deserialize

variable {build : Build} {heap : Heap} {source : Pointer Byte} {nbytes : SizeT}

theorem powerTest_iff {nblocks : SizeT} (nonzero : nblocks ≠ 0) :
    nblocks &&& (nblocks - 1) = 0 ↔ nblocks.toNat.isPowerOfTwo := by
  have positive : nblocks.toNat ≠ 0 := fun zero => nonzero (BitVec.eq_of_toNat_eq zero)
  have before : (nblocks - 1).toNat = nblocks.toNat - 1 :=
    BitVec.toNat_sub_of_le (by
      rw [BitVec.le_def]
      exact Nat.one_le_iff_ne_zero.mpr positive)
  rw [← Nat.and_sub_one_eq_zero_iff_isPowerOfTwo positive, ← BitVec.toNat_inj, BitVec.toNat_and,
    before]
  rfl

theorem acceptedSize_iff :
    AcceptedSize build nbytes ↔
      ¬ (nbytes = 0 ∨ build.qbDeserializeMaxBytes < nbytes) ∧ nbytes % sbbfBlockBytes = 0 ∧
        nbytes / sbbfBlockBytes &&& (nbytes / sbbfBlockBytes - 1) = 0 := by
  have quotient : (nbytes / sbbfBlockBytes).toNat = nbytes.toNat / 32 := BitVec.toNat_udiv
  have remainder : nbytes % sbbfBlockBytes = 0 ↔ nbytes.toNat % 32 = 0 := by
    rw [← BitVec.toNat_inj, BitVec.toNat_umod]
    rfl
  rw [remainder, BitVec.lt_def]
  refine ⟨?_, ?_⟩
  · intro accepted
    obtain ⟨ceiling, k, size⟩ := accepted
    have positive := Nat.two_pow_pos k
    have nonzero : nbytes ≠ 0 := by
      intro zero
      subst zero
      change 0 = 32 * 2 ^ k at size
      omega
    have blocks : nbytes.toNat / 32 = 2 ^ k := by omega
    refine ⟨?_, by omega, ?_⟩
    · intro range
      rcases range with zero | beyond
      · exact nonzero zero
      · omega
    · rw [powerTest_iff]
      · exact ⟨k, quotient.trans blocks⟩
      · intro zero
        rw [zero] at quotient
        change 0 = nbytes.toNat / 32 at quotient
        omega
  · intro checks
    obtain ⟨checked, multiple, test⟩ := checks
    have nonzero : nbytes.toNat ≠ 0 := fun zero => checked (.inl (BitVec.eq_of_toNat_eq zero))
    rw [powerTest_iff] at test
    · obtain ⟨k, blocks⟩ := test
      exact ⟨by omega, k, by omega⟩
    · intro zero
      rw [zero] at quotient
      change 0 = nbytes.toNat / 32 at quotient
      omega

theorem qbDeserialize_rejects (rejected : ¬ AcceptedSize build nbytes) (bytes : Option (Pointer Byte)) :
    qbDeserialize build heap bytes nbytes = .ok none := by
  cases bytes with
  | none => rfl
  | some source =>
      rw [acceptedSize_iff] at rejected
      simp only [qbDeserialize]
      by_cases range : nbytes = 0 ∨ build.qbDeserializeMaxBytes < nbytes
      · rw [if_pos range]
        rfl
      · rw [if_neg range]
        by_cases multiple : nbytes % sbbfBlockBytes = 0
        · rw [if_neg (not_not.mpr multiple), if_pos fun test => rejected ⟨range, multiple, test⟩]
          rfl
        · rw [if_pos multiple]
          rfl

/-- The filter that is built from an image of `2 ^ k` blocks. For `k` above 32
the subtraction of the shift wraps. -/
def loadedFilter (k : Nat) (bytes : List Byte) : BloomT where
  bits := decodeWords 32 4 (8 * 2 ^ k) bytes
  nblocksMask := BitVec.ofNat 64 (2 ^ k - 1)
  idxShift := 32 - BitVec.ofNat 32 k

theorem qbDeserialize_accepted (heap : Heap) (source : Pointer Byte) {k : Nat}
    (ceiling : nbytes.toNat ≤ build.qbDeserializeMaxBytes.toNat)
    (size : nbytes.toNat = 32 * 2 ^ k) :
    qbDeserialize build heap (some source) nbytes =
      if heap.malloc sizeofBloomT = true ∧ heap.posixMemalign 32 nbytes.toNat = true then
        memcpy source nbytes.toNat >>= fun bytes => .ok (some (loadedFilter k bytes))
      else .ok none := by
  obtain ⟨range, multiple, test⟩ := acceptedSize_iff.mp ⟨ceiling, k, size⟩
  have positive := Nat.two_pow_pos k
  have fits := nbytes.isLt
  have blocks : (nbytes / sbbfBlockBytes).toNat = 2 ^ k := by
    have quotient : (nbytes / sbbfBlockBytes).toNat = nbytes.toNat / 32 := BitVec.toNat_udiv
    omega
  have small : k ≤ 63 := by
    have below : 2 ^ k < 2 ^ 64 := by omega
    have := (Nat.pow_lt_pow_iff_right (by omega)).mp below
    omega
  have mask := nblocksMask_eq blocks
  have words : nbytes.toNat / 4 = 8 * 2 ^ k := by omega
  rw [mask] at test
  simp only [qbDeserialize, if_neg range, if_neg (not_not.mpr multiple), mask,
    if_neg (not_not.mpr test), log2Pow2_eq small blocks, words, Checked.ok_bind]
  cases heap.malloc sizeofBloomT <;> cases heap.posixMemalign 32 nbytes.toNat <;> rfl

theorem qbDeserialize_accepts (grants : Heap.Grants heap) {k : Nat}
    (ceiling : nbytes.toNat ≤ build.qbDeserializeMaxBytes.toNat) (size : nbytes.toNat = 32 * 2 ^ k)
    {bytes : List Byte} (holds : source.Holds bytes) (length : bytes.length = nbytes.toNat) :
    qbDeserialize build heap (some source) nbytes = .ok (some (loadedFilter k bytes)) := by
  rw [qbDeserialize_accepted heap source ceiling size, if_pos ⟨grants.1 _, grants.2 _ _⟩, ← length,
    memcpy_whole holds, Checked.ok_bind]

theorem qbDeserialize_returns {bytes : Option (Pointer Byte)} {b : BloomT}
    (returned : qbDeserialize build heap bytes nbytes = .ok (some b)) :
    ∃ k loaded, nbytes.toNat ≤ build.qbDeserializeMaxBytes.toNat ∧ nbytes.toNat = 32 * 2 ^ k ∧
      loaded.length = 32 * 2 ^ k ∧ b = loadedFilter k loaded := by
  by_cases accepted : AcceptedSize build nbytes
  · obtain ⟨ceiling, k, size⟩ := accepted
    cases bytes with
    | none => cases returned
    | some source =>
        rw [qbDeserialize_accepted heap source ceiling size] at returned
        split at returned
        · obtain ⟨loaded, copied, built⟩ := Checked.bind_eq_ok returned
          cases built
          exact ⟨k, loaded, ceiling, size, (memcpy_length copied).trans size, rfl⟩
        · cases returned
  · rw [qbDeserialize_rejects accepted bytes] at returned
    cases returned

theorem loadedFilter_wellFormed {k : Nat} (bound : k ≤ 31) (bytes : List Byte) :
    WellFormed k (loadedFilter k bytes) := by
  have header := (emptyFilter_wellFormed bound).toHeaderOf
  have shift : (loadedFilter k bytes).idxShift = (emptyFilter k).idxShift :=
    idxShift_eq (by omega)
  exact ⟨⟨bound, header.blocks, by rw [shift, header.shift]⟩, decodeWords_length ..⟩

theorem loadedFilter_blocks {k : Nat} (fits : 2 ^ k ≤ 2 ^ 64) (bytes : List Byte) :
    (loadedFilter k bytes).nblocksMask.toNat + 1 = 2 ^ k := by
  have positive := Nat.two_pow_pos k
  change (2 ^ k - 1) % 2 ^ 64 + 1 = 2 ^ k
  omega

theorem image_loadedFilter {k : Nat} {bytes : List Byte} (length : bytes.length = 32 * 2 ^ k) :
    image (loadedFilter k bytes) = bytes :=
  encodeWords_decodeWords (by omega) (by rw [length]; omega)

theorem loadedFilter_image {k : Nat} {b : BloomT} (valid : WellFormed k b) :
    loadedFilter k (image b) = b := by
  have loaded := loadedFilter_wellFormed valid.bound (image b)
  have bits : (loadedFilter k (image b)).bits = b.bits := by
    rw [loadedFilter, image, ← valid.words]
    exact decodeWords_encodeWords (by omega) b.bits
  exact loaded.ext valid (by rw [bits])

end Deserialize

/-- The geometry that `block_for` supports: no more blocks than
`QB_MAX_NBLOCKS`, a shift that has not wrapped, and every block in its reach. -/
structure Supported (b : BloomT) : Prop where
  capped : b.nblocksMask.toNat + 1 ≤ qbMaxNblocks.toNat
  exact : b.idxShift.toNat + Nat.log 2 (b.nblocksMask.toNat + 1) = 32
  range : 1 ≤ b.idxShift.toNat ∧ b.idxShift.toNat ≤ 32
  defined : ∀ h, ∃ offset, blockFor b h = .ok offset
  reachable : ∀ block < b.nblocksMask.toNat + 1, ∃ h, blockFor b h = .ok (8 * block)

theorem blockIndex_onto {k block : Nat} (bound : k ≤ 64) (inside : block < 2 ^ k) :
    ∃ h : Uint64, blockIndex k h = block := by
  have width : 2 ^ k * 2 ^ (64 - k) = 2 ^ 64 := by
    rw [← Nat.pow_add, Nat.add_sub_cancel' bound]
  have positive := Nat.two_pow_pos (64 - k)
  have fits : block * 2 ^ (64 - k) < 2 ^ 64 := by
    rw [← width]
    exact Nat.mul_lt_mul_of_pos_right inside positive
  refine ⟨BitVec.ofNat 64 (block * 2 ^ (64 - k)), ?_⟩
  rw [blockIndex, BitVec.toNat_ofNat, Nat.mod_eq_of_lt fits, Nat.mul_div_cancel _ positive]

theorem HeaderOf.supported {k : Nat} {b : BloomT} (header : HeaderOf k b) : Supported b where
  capped := by
    rw [header.blocks]
    exact Nat.pow_le_pow_right (by omega) header.bound
  exact := by
    have bound := header.bound
    rw [header.blocks, header.shift, Nat.log_pow (by omega)]
    omega
  range := by
    have bound := header.bound
    rw [header.shift]
    omega
  defined := fun h => ⟨_, header.blockFor_eq h⟩
  reachable := by
    intro block inside
    have bound := header.bound
    rw [header.blocks] at inside
    obtain ⟨h, same⟩ := blockIndex_onto (by omega) inside
    exact ⟨h, by rw [header.blockFor_eq, same]⟩

/-- A loaded filter is supported exactly if its image is not larger than
`QB_MAX_NBLOCKS` blocks, and a build loads only supported filters exactly if its
ceiling is below the next image size. -/
theorem qbDeserialize_supported_iff {heap : Heap} (grants : Heap.Grants heap) (build : Build) :
    (∀ bytes nbytes b, qbDeserialize build heap bytes nbytes = .ok (some b) →
      (Supported b ↔ nbytes.toNat ≤ 32 * qbMaxNblocks.toNat)) ∧
    ((∀ bytes nbytes b, qbDeserialize build heap bytes nbytes = .ok (some b) → Supported b) ↔
      build.qbDeserializeMaxBytes.toNat < 2 ^ 37) := by
  have each : ∀ bytes nbytes b, qbDeserialize build heap bytes nbytes = .ok (some b) →
      (Supported b ↔ nbytes.toNat ≤ 32 * qbMaxNblocks.toNat) := by
    intro bytes nbytes b returned
    obtain ⟨k, loaded, _, size, _, rfl⟩ := qbDeserialize_returns returned
    have cap : qbMaxNblocks.toNat = 2 ^ 31 := rfl
    have fits := nbytes.isLt
    have blocks := loadedFilter_blocks (by omega : 2 ^ k ≤ 2 ^ 64) loaded
    refine ⟨?_, ?_⟩
    · intro supported
      have capped := supported.capped
      omega
    · intro small
      have bound : k ≤ 31 := (Nat.pow_le_pow_iff_right (by omega)).mp (by omega : 2 ^ k ≤ 2 ^ 31)
      exact (loadedFilter_wellFormed bound loaded).toHeaderOf.supported
  refine ⟨each, ?_, ?_⟩
  · intro all
    by_contra large
    -- The first size beyond the cap, 2 ^ 32 blocks, is accepted under such a ceiling.
    have size : (BitVec.ofNat 64 (2 ^ 37) : SizeT).toNat = 32 * 2 ^ 32 := by decide
    have ceiling : (BitVec.ofNat 64 (2 ^ 37) : SizeT).toNat ≤
        build.qbDeserializeMaxBytes.toNat := by
      rw [size]
      omega
    obtain ⟨zeros, length⟩ : ∃ zeros : List Byte, zeros.length = 32 * 2 ^ 32 :=
      ⟨List.replicate _ 0, List.length_replicate⟩
    have returned := qbDeserialize_accepts grants ceiling size
      (Pointer.start_holds zeros) (length.trans size.symm)
    have small := (each _ _ _ returned).mp (all _ _ _ returned)
    rw [size] at small
    exact absurd small (by decide)
  · intro small bytes nbytes b returned
    obtain ⟨k, _, ceiling, size, _⟩ := qbDeserialize_returns returned
    have cap : qbMaxNblocks.toNat = 2 ^ 31 := rfl
    have below : 2 ^ k < 2 ^ 32 := by omega
    have bound : k < 32 := (Nat.pow_lt_pow_iff_right (by omega)).mp below
    have top : 2 ^ k ≤ 2 ^ 31 := Nat.pow_le_pow_right (by omega) (by omega)
    exact (each bytes nbytes b returned).mpr (by omega)

theorem qbDeserialize_supported_iff_default :
    (∀ bytes nbytes b, qbDeserialize {} ampleHeap bytes nbytes = .ok (some b) →
      (Supported b ↔ nbytes.toNat ≤ 32 * qbMaxNblocks.toNat)) ∧
    ((∀ bytes nbytes b, qbDeserialize {} ampleHeap bytes nbytes = .ok (some b) → Supported b) ↔
      ({} : Build).qbDeserializeMaxBytes.toNat < 2 ^ 37) :=
  qbDeserialize_supported_iff ampleHeap_grants {}

/-- A build with a ceiling of 256 GiB loads an image of that size. The shift of
the loaded filter wraps and `block_for` is undefined on every hash. -/
theorem qbDeserialize_wraps :
    ∃ b, qbDeserialize { qbDeserializeMaxBytes := 1 <<< 38 } ampleHeap
        (some (Pointer.start (List.replicate (2 ^ 38) 0))) (1 <<< 38) = .ok (some b) ∧
      b.idxShift = 0xFFFFFFFF ∧ (∀ h, blockFor b h = .error .shiftRange) ∧ ¬ Supported b := by
  have length : (List.replicate (2 ^ 38) (0 : Byte)).length = 2 ^ 38 := List.length_replicate
  generalize List.replicate (2 ^ 38) (0 : Byte) = zeros at length ⊢
  have size : (1 <<< 38 : SizeT).toNat = 32 * 2 ^ 33 := by decide
  have fault : ∀ h, blockFor (loadedFilter 33 zeros) h = .error .shiftRange := fun _ => rfl
  refine ⟨loadedFilter 33 zeros, ?_, rfl, fault, ?_⟩
  · exact qbDeserialize_accepts ampleHeap_grants (Nat.le_refl _) size (Pointer.start_holds zeros)
      length
  · intro supported
    obtain ⟨offset, defined⟩ := supported.defined 0
    rw [fault] at defined
    cases defined

end Quickbloom.Filter
