import Quickbloom.Filter.Counts
import Quickbloom.Filter.RoundTrip
import Quickbloom.Filter.Sizing
import Quickbloom.Source.Fuzz

namespace Quickbloom.Filter

open Quickbloom.Data Quickbloom.Machine Quickbloom.Source Quickbloom.Probe

/-! # The fuzz harnesses end by returning

No input and no allocator brings a harness to a trap, or the library to a read
outside the input.
-/

section Steps

variable {α β : Type}

@[simp] theorem called_ok (value : α) : called (.ok value) = .ok value := rfl

@[simp] theorem estimated_ok (value : α) : estimated (.ok value) = .ok value := rfl

@[simp] theorem Harness.ok_bind (value : α) (next : α → Harness β) :
    ((Except.ok value : Harness α) >>= next) = next value := rfl

@[simp] theorem Harness.pure_eq_ok (value : α) : (pure value : Harness α) = .ok value := rfl

end Steps

theorem Environment.malloc_length {env : Environment} {call nbytes : Nat} {buffer : List Byte}
    (granted : env.malloc call nbytes = some buffer) : buffer.length = nbytes := by
  rw [Environment.malloc] at granted
  split at granted
  · cases granted
    rw [List.length_map, List.length_range]
  · cases granted

theorem onePercent_rate : isRate onePercent = true := by
  norm_num [isRate, onePercent, Double.lt]

/-- The size of a few thousand items at one percent fits, whatever the build. -/
theorem estimate_onePercent (build : Build) {log : Double → ℚ} (accurate : -5 ≤ log onePercent)
    {n : Nat} (few : n ≤ 4096) :
    ∃ bits, qbEstimateBits build log (BitVec.ofNat 64 n) onePercent = .ok bits := by
  have count : (BitVec.ofNat 64 n).toNat = n := by
    rw [BitVec.toNat_ofNat, Nat.mod_eq_of_lt (by omega)]
  have rate := onePercent_rate
  rw [isRate, Bool.and_eq_true] at rate
  by_cases none : BitVec.ofNat 64 n = 0
  · exact ⟨256, by rw [qbEstimateBits, if_pos none]; rfl⟩
  · have items : (n : ℚ) ≤ 4096 := by exact_mod_cast few
    have zero : (0 : ℚ) ≤ n := by exact_mod_cast Nat.zero_le n
    have small : -(n : ℚ) * log onePercent / ln2Sq ≤ 2 ^ 20 := by
      rw [ln2Sq, div_le_iff₀ (by norm_num)]
      nlinarith
    let m : ℚ := if -(n : ℚ) * log onePercent / ln2Sq < 256 then 256
      else -(n : ℚ) * log onePercent / ln2Sq
    have range : 256 ≤ m ∧ m ≤ 2 ^ 20 := by
      simp only [m]
      split <;> constructor <;> linarith
    have floor : ⌊m + 1 / 2⌋₊ < 2 ^ 64 := by
      rw [Nat.floor_lt (by linarith [range.1])]
      have bound := range.2
      norm_num
      linarith
    have value : qbEstimateBits build log (BitVec.ofNat 64 n) onePercent = toSizeT (m + 1 / 2) := by
      simp only [qbEstimateBits, if_neg none, rate, count, m]
      cases build.ndebug <;> rfl
    exact ⟨_, by rw [value, toSizeT_eq (by linarith [range.1]), if_pos floor]⟩

/-- Whatever the allocator does, `qb_new` ends, and a filter it makes is empty. -/
theorem qbNew_ends (heap : Heap) (nbits : SizeT) :
    qbNew heap nbits = .ok none ∨ ∃ k ≤ 31, qbNew heap nbits = .ok (some (emptyFilter k)) := by
  rcases Nat.lt_or_ge (2 ^ 31) (requestedBlocks nbits) with large | small
  · exact .inl (qbNew_refuses heap large)
  · obtain ⟨k, bound, _, built⟩ := qbNew_rounds heap small
    split at built
    · exact .inr ⟨k, bound, built⟩
    · exact .inl built

section Filter

variable {k : Nat} {b : BloomT} {bytes : List Byte} {data : Pointer Byte} {klen n : Nat}

theorem probeEach_passes (valid : WellFormed k b) (holds : data.Holds bytes)
    (sized : bytes.length = n * klen)
    (present : ∀ h ∈ batchHashes bytes klen n, probe k h ⊆ contents b.bits) :
    probeEach b data klen n = .ok b := by
  suffices each : ∀ indices : List Nat, (∀ i ∈ indices, i < n) →
      indices.foldlM (fun f i => do
        let found ← called (f.run (qbContains f (data.add (i * klen)) klen))
        if found.1 = 0 then .error .trap else .ok found.2) b = .ok b from
    each (List.range n) fun i member => List.mem_range.mp member
  intro indices below
  induction indices with
  | nil => rfl
  | cons i rest ih =>
      have bound : i < n := below i List.mem_cons_self
      have hash := bloomHash_batchKey holds sized bound
      have query : qbContains b (data.add (i * klen)) klen =
          qbContainsPrehash b (keyHash (batchKey bytes klen i)) := by
        rw [qbContains, hash]
        rfl
      obtain ⟨found, ran, reports⟩ :=
        valid.qbContainsPrehash_run (keyHash (batchKey bytes klen i))
      have hit : found ≠ 0 :=
        reports.mpr (present _ (List.mem_map.mpr ⟨i, List.mem_range.mpr bound, rfl⟩))
      rw [List.foldlM_cons, query, ran, called_ok, Harness.ok_bind, if_neg hit, Harness.ok_bind]
      exact ih fun i member => below i (List.mem_cons_of_mem _ member)

theorem WellFormed.reload (valid : WellFormed k b) (build : Build) (heap : Heap) :
    qbDeserialize build heap (some (Pointer.start (image b))) (BitVec.ofNat 64 (32 * 2 ^ k)) =
        .ok none ∨
      qbDeserialize build heap (some (Pointer.start (image b))) (BitVec.ofNat 64 (32 * 2 ^ k)) =
        .ok (some b) := by
  have bytes := serializedSize_toNat valid.bound
  by_cases ceiling : 32 * 2 ^ k ≤ build.qbDeserializeMaxBytes.toNat
  · have copied : memcpy (Pointer.start (image b)) (32 * 2 ^ k) = .ok (image b) := by
      rw [← image_length valid]
      exact memcpy_whole (Pointer.start_holds _)
    rw [qbDeserialize_accepted heap _ (by rw [bytes]; exact ceiling) bytes, bytes, copied,
      Checked.ok_bind, loadedFilter_image valid]
    split
    · exact .inr rfl
    · exact .inl rfl
  · refine .inl (qbDeserialize_rejects (fun accepted => ceiling ?_) _)
    rw [← bytes]
    exact accepted.1

theorem WellFormed.qbSerialize_fresh (valid : WellFormed k b) (build : Build) {buffer : List Byte}
    (length : buffer.length = (BitVec.ofNat 64 (32 * 2 ^ k)).toNat) :
    qbSerialize build (some b) (some buffer) = .ok (some (image b)) := by
  rw [serializedSize_toNat valid.bound] at length
  rw [qbSerialize_eq build valid (Nat.le_of_eq length.symm), ← length, List.drop_length,
    List.append_nil]

theorem WellFormed.insertBatch (valid : WellFormed k b) (holds : data.Holds bytes)
    (sized : bytes.length = n * klen) :
    ∃ after, b.call (fun f => qbInsertBulk f data klen n) = .ok after ∧ WellFormed k after ∧
      ∀ h ∈ batchHashes bytes klen n, probe k h ⊆ contents after.bits := by
  obtain ⟨after, ran, afterValid, cells, _⟩ := valid.insertEach_call (batchHashes bytes klen n)
  refine ⟨after, ?_, afterValid, fun h member => ?_⟩
  · rw [funext fun f => qbInsertBulk_eq (b := f) holds sized, ran]
  · rw [cells]
    exact reports_inserted member

theorem WellFormed.insertKeys (valid : WellFormed k b) (holds : data.Holds bytes)
    (sized : bytes.length = n * klen) :
    ∃ after, b.callEach ((List.range n).map fun i f => qbInsert f (data.add (i * klen)) klen) =
        .ok after ∧ WellFormed k after ∧
      ∀ h ∈ batchHashes bytes klen n, probe k h ⊆ contents after.bits := by
  rw [callEach_qbInsert holds sized, ← funext fun f => qbInsertBulk_eq (b := f) holds sized]
  exact valid.insertBatch holds sized

theorem WellFormed.countBatch (valid : WellFormed k b) (holds : data.Holds bytes)
    (sized : bytes.length = n * klen)
    (present : ∀ h ∈ batchHashes bytes klen n, probe k h ⊆ contents b.bits) :
    b.run (qbContainsBulk b data klen n) = .ok (n, b) := by
  obtain ⟨found, answers, reports⟩ := valid.found
  have hit : ∀ h ∈ batchHashes bytes klen n, decide (found h ≠ 0) = true := by
    intro h member
    exact decide_eq_true ((reports h).mpr (present h member))
  rw [qbContainsBulk_eq holds sized, containsEach_counts answers,
    List.countP_eq_length.mpr hit, batchHashes, List.length_map, List.length_range, Nat.zero_add]

theorem FuzzInsert.roundTrip_passes (env : Environment) (valid : WellFormed k b)
    (holds : data.Holds bytes) (sized : bytes.length = n * klen)
    (present : ∀ h ∈ batchHashes bytes klen n, probe k h ⊆ contents b.bits) :
    FuzzInsert.roundTrip env b data klen n = .ok () := by
  rw [FuzzInsert.roundTrip, qbSerializedSize_eq env.build valid]
  simp only [called_ok, Harness.ok_bind]
  cases granted : env.malloc 1 (BitVec.ofNat 64 (32 * 2 ^ k)).toNat with
  | none => rfl
  | some buffer =>
      simp only [valid.qbSerialize_fresh env.build (Environment.malloc_length granted), called_ok,
        Harness.ok_bind, Option.map_some]
      rcases valid.reload env.build (env.heap 2) with refused | loaded
      · rw [refused]
        rfl
      · rw [loaded]
        simp only [called_ok, Harness.ok_bind, probeEach_passes valid holds sized present]
        rfl

end Filter

/-- The keys of a batch lie behind the first byte of the input. -/
theorem behindFirst {input : List Byte} {klen n : Nat} (fits : n * klen ≤ input.length - 1) :
    ((Pointer.start input).add 1).Holds ((input.drop 1).take (n * klen)) ∧
      ((input.drop 1).take (n * klen)).length = n * klen := by
  refine ⟨((Pointer.start_holds input).add 1).take _, ?_⟩
  rw [List.length_take, List.length_drop]
  omega

theorem firstByte {input : List Byte} (nonempty : 0 < input.length) :
    ∃ first, (Pointer.start input).read 0 = .ok first :=
  ⟨_, Pointer.start_holds input 0 nonempty⟩

theorem cappedCount (size klen cap : Nat) :
    (if cap < size / klen then cap else size / klen) ≤ cap ∧
      (if cap < size / klen then cap else size / klen) * klen ≤ size := by
  have whole := Nat.div_mul_le_self size klen
  split
  next above =>
    refine ⟨Nat.le_refl _, Nat.le_trans ?_ whole⟩
    exact Nat.mul_le_mul_right klen (Nat.le_of_lt above)
  next within => exact ⟨Nat.le_of_not_lt within, whole⟩

/-- `fuzz_insert` finds no false negative, before or after the round trip. -/
theorem fuzzInsert_passes (env : Environment) (accurate : -5 ≤ env.log onePercent)
    (input : List Byte) :
    FuzzInsert.llvmFuzzerTestOneInput env (Pointer.start input) input.length = .ok 0 := by
  rw [FuzzInsert.llvmFuzzerTestOneInput]
  by_cases short : input.length < 16
  · rw [if_pos short]
    rfl
  · obtain ⟨first, read⟩ := firstByte (show 0 < input.length by omega)
    rw [if_neg short, read]
    simp only [called_ok, Harness.ok_bind]
    generalize chosen : first.toNat % 64 + 1 = klen
    have positive : 0 < klen := by omega
    by_cases small : input.length - 1 < klen
    · rw [if_pos small]
      rfl
    · have some : 0 < (input.length - 1) / klen := Nat.div_pos (by omega) positive
      rw [if_neg small, if_neg (by omega)]
      obtain ⟨few, fits⟩ := cappedCount (input.length - 1) klen 4096
      generalize (if 4096 < (input.length - 1) / klen then 4096
        else (input.length - 1) / klen) = n at few fits
      obtain ⟨bits, estimated⟩ := estimate_onePercent env.build accurate few
      rw [estimated]
      simp only [estimated_ok, Harness.ok_bind]
      rcases qbNew_ends (env.heap 0) bits with refused | ⟨k, bound, created⟩
      · rw [refused]
        rfl
      · rw [created]
        simp only [called_ok, Harness.ok_bind]
        obtain ⟨holds, sized⟩ := behindFirst fits
        obtain ⟨after, inserted, valid, present⟩ :=
          (emptyFilter_wellFormed bound).insertBatch holds sized
        rw [inserted]
        simp only [called_ok, Harness.ok_bind, probeEach_passes valid holds sized present,
          valid.countBatch holds sized present, lt_irrefl, ↓reduceIte,
          FuzzInsert.roundTrip_passes env valid holds sized present, Harness.pure_eq_ok]

theorem fuzzInsert_passes_keys :
    FuzzInsert.llvmFuzzerTestOneInput ⟨{}, fun _ => -4, fun _ => ampleHeap, fun _ _ => 0⟩
      (Pointer.start (7 :: List.replicate 80 1)) 81 = .ok 0 :=
  fuzzInsert_passes _ (by norm_num) (7 :: List.replicate 80 1)

/-- `fuzz_fasthash_var` finds no false negative for keys of any length. -/
theorem fuzzFasthashVar_passes (env : Environment) (accurate : -5 ≤ env.log onePercent)
    (input : List Byte) :
    FuzzFasthashVar.llvmFuzzerTestOneInput env (Pointer.start input) input.length = .ok 0 := by
  rw [FuzzFasthashVar.llvmFuzzerTestOneInput]
  by_cases short : input.length < 2
  · rw [if_pos short]
    rfl
  · obtain ⟨first, read⟩ := firstByte (show 0 < input.length by omega)
    rw [if_neg short, read]
    simp only [called_ok, Harness.ok_bind]
    generalize first.toNat % 23 + 1 = klen
    by_cases none : (input.length - 1) / klen = 0
    · rw [if_pos none]
      rfl
    · rw [if_neg none]
      obtain ⟨few, fits⟩ := cappedCount (input.length - 1) klen 2048
      generalize (if 2048 < (input.length - 1) / klen then 2048
        else (input.length - 1) / klen) = n at few fits
      obtain ⟨bits, estimated⟩ :=
        estimate_onePercent env.build accurate (show n ≤ 4096 by omega)
      rw [estimated]
      simp only [estimated_ok, Harness.ok_bind]
      rcases qbNew_ends (env.heap 0) bits with refused | ⟨k, bound, created⟩
      · rw [refused]
        rfl
      · rw [created]
        simp only [called_ok, Harness.ok_bind]
        obtain ⟨holds, sized⟩ := behindFirst fits
        obtain ⟨after, inserted, valid, present⟩ :=
          (emptyFilter_wellFormed bound).insertKeys holds sized
        rw [inserted]
        simp only [called_ok, Harness.ok_bind, probeEach_passes valid holds sized present]
        rfl

theorem fuzzFasthashVar_passes_tails :
    FuzzFasthashVar.llvmFuzzerTestOneInput ⟨{}, fun _ => -4, fun _ => ampleHeap, fun _ _ => 0⟩
      (Pointer.start (6 :: List.replicate 21 1)) 22 = .ok 0 :=
  fuzzFasthashVar_passes _ (by norm_num) (6 :: List.replicate 21 1)

section Deserialize

variable {k : Nat} {b : BloomT}

theorem compareImages_passes (env : Environment) (valid : WellFormed k b) :
    FuzzDeserialize.compareImages env b (image b) (BitVec.ofNat 64 (32 * 2 ^ k)) = .ok () := by
  rw [FuzzDeserialize.compareImages, qbSerializedSize_eq env.build valid]
  simp only [called_ok, Harness.ok_bind, ne_eq, not_true_eq_false, ↓reduceIte]
  cases granted : env.malloc 3 (BitVec.ofNat 64 (32 * 2 ^ k)).toNat with
  | none => rfl
  | some buffer =>
      have copied : memcpy (Pointer.start (image b)) (BitVec.ofNat 64 (32 * 2 ^ k)).toNat =
          .ok (image b) := by
        rw [serializedSize_toNat valid.bound, ← image_length valid]
        exact memcpy_whole (Pointer.start_holds _)
      simp only [valid.qbSerialize_fresh env.build (Environment.malloc_length granted), called_ok,
        Harness.ok_bind, copied, not_true_eq_false, ↓reduceIte]
      rfl

theorem FuzzDeserialize.roundTrip_passes (env : Environment) (valid : WellFormed k b) :
    FuzzDeserialize.roundTrip env b = .ok () := by
  have positive : BitVec.ofNat 64 (32 * 2 ^ k) ≠ 0 := by
    intro zero
    have count := serializedSize_toNat valid.bound
    rw [zero] at count
    exact absurd count.symm (Nat.ne_of_gt (Nat.mul_pos (by omega) (Nat.two_pow_pos k)))
  rw [FuzzDeserialize.roundTrip, qbSerializedSize_eq env.build valid]
  simp only [called_ok, Harness.ok_bind, if_neg positive]
  cases granted : env.malloc 1 (BitVec.ofNat 64 (32 * 2 ^ k)).toNat with
  | none => rfl
  | some buffer =>
      simp only [valid.qbSerialize_fresh env.build (Environment.malloc_length granted), called_ok,
        Harness.ok_bind]
      rcases valid.reload env.build (env.heap 2) with refused | loaded
      · rw [refused]
        rfl
      · rw [loaded]
        simp only [called_ok, Harness.ok_bind, compareImages_passes env valid]

/-- The key is read from the bytes that were deserialized. -/
theorem keyBytes_ok {input : List Byte} {nbytes : Nat} (positive : 0 < nbytes)
    (inside : nbytes ≤ input.length) (indices : List Nat) :
    ∃ key, indices.mapM (FuzzDeserialize.keyByte (some (Pointer.start input)) nbytes) = .ok key ∧
      key.length = indices.length := by
  induction indices with
  | nil => exact ⟨[], rfl, rfl⟩
  | cons i rest ih =>
      obtain ⟨key, read, length⟩ := ih
      have bound : i % nbytes < input.length :=
        Nat.lt_of_lt_of_le (Nat.mod_lt i positive) inside
      have byte : FuzzDeserialize.keyByte (some (Pointer.start input)) nbytes i =
          .ok input[i % nbytes] := by
        rw [FuzzDeserialize.keyByte, if_neg (Nat.ne_of_gt positive),
          Pointer.start_holds input _ bound]
        rfl
      refine ⟨input[i % nbytes] :: key, ?_, by rw [List.length_cons, length, List.length_cons]⟩
      rw [List.mapM_cons, byte, Harness.ok_bind, read, Harness.ok_bind]
      rfl

/-- What `qb_deserialize` makes of an input that ends where the pointer says. -/
theorem qbDeserialize_ends (build : Build) (heap : Heap) {input : List Byte} {nbytes : Nat}
    (inside : nbytes ≤ input.length) (ceiling : nbytes ≤ 2 ^ 24) :
    qbDeserialize build heap (some (Pointer.start input)) (BitVec.ofNat 64 nbytes) = .ok none ∨
      0 < nbytes ∧ ∃ k loaded, WellFormed k loaded ∧
        qbDeserialize build heap (some (Pointer.start input)) (BitVec.ofNat 64 nbytes) =
          .ok (some loaded) := by
  have count : (BitVec.ofNat 64 nbytes).toNat = nbytes := by
    rw [BitVec.toNat_ofNat, Nat.mod_eq_of_lt (by omega)]
  by_cases accepted : AcceptedSize build (BitVec.ofNat 64 nbytes)
  · obtain ⟨capped, k, size⟩ := accepted
    rw [qbDeserialize_accepted heap _ capped size, count,
      memcpy_holds (Pointer.start_holds input) inside, Checked.ok_bind]
    split
    · have positive := Nat.two_pow_pos k
      have small : 2 ^ k ≤ 2 ^ 19 := by omega
      have bound : k ≤ 19 := (Nat.pow_le_pow_iff_right (by omega)).mp small
      exact .inr ⟨by omega, k, _, loadedFilter_wellFormed (by omega) _, rfl⟩
    · exact .inl rfl
  · exact .inl (qbDeserialize_rejects accepted _)

theorem FuzzDeserialize.input_passes (env : Environment) (input : List Byte) :
    FuzzDeserialize.llvmFuzzerTestOneInput env (some (Pointer.start input)) input.length =
      .ok 0 := by
  simp only [FuzzDeserialize.llvmFuzzerTestOneInput]
  obtain ⟨inside, ceiling⟩ : (if 2 ^ 24 < input.length then 2 ^ 24 else input.length) ≤
      input.length ∧ (if 2 ^ 24 < input.length then 2 ^ 24 else input.length) ≤ 2 ^ 24 := by
    split <;> omega
  generalize (if 2 ^ 24 < input.length then 2 ^ 24 else input.length) = nbytes at inside ceiling
  rcases qbDeserialize_ends env.build (env.heap 0) inside ceiling with
    refused | ⟨positive, k, loaded, valid, returned⟩
  · rw [refused]
    rfl
  · obtain ⟨key, read, length⟩ := keyBytes_ok positive inside (List.range 16)
    have query : qbContains loaded (Pointer.start key) 16 =
        qbContainsPrehash loaded (keyHash key) := by
      have hashed := qbContains_eq (b := loaded) (Pointer.start_holds key)
      rwa [length, List.length_range] at hashed
    obtain ⟨_, found, _⟩ := valid.qbContainsPrehash_run (keyHash key)
    obtain ⟨_, probed, _⟩ := valid.qbContainsPrehash_run 0xC0FFEE
    rw [returned]
    simp only [called_ok, Harness.ok_bind, read, query, found, probed,
      FuzzDeserialize.roundTrip_passes env valid]
    rfl

end Deserialize

/-- `fuzz_deserialize` reads nothing but its input, whatever the bytes, and what
it deserializes survives a second round trip unchanged. -/
theorem fuzzDeserialize_passes (env : Environment) (input : Option (List Byte)) :
    FuzzDeserialize.llvmFuzzerTestOneInput env (input.map Pointer.start)
      (input.elim 0 List.length) = .ok 0 := by
  cases input with
  | none => rfl
  | some input => exact FuzzDeserialize.input_passes env input

end Quickbloom.Filter
