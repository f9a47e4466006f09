import Quickbloom.Filter.Query
import Quickbloom.Filter.Serialize

namespace Quickbloom.Filter

open Quickbloom.Data Quickbloom.Machine Quickbloom.Source Quickbloom.Probe

/-! # Runs of calls on one filter -/

structure KeyBatch where
  klen : Nat
  n : Nat
  bytes : List Byte
  sized : bytes.length = n * klen

def KeyBatch.hashes (batch : KeyBatch) : List Uint64 :=
  batchHashes batch.bytes batch.klen batch.n

inductive Operand where
  | key (bytes : List Byte)
  | keys (batch : KeyBatch)
  | prehash (h : Uint64)
  | prehashes (hashes : List Uint64)

namespace Operand

def hashes : Operand → List Uint64
  | .key bytes => [keyHash bytes]
  | .keys batch => batch.hashes
  | .prehash h => [h]
  | .prehashes hashes => hashes

def insert (b : BloomT) : Operand → Program Unit
  | .key bytes => qbInsert b (Pointer.start bytes) bytes.length
  | .keys batch => qbInsertBulk b (Pointer.start batch.bytes) batch.klen batch.n
  | .prehash h => qbInsertPrehash b h
  | .prehashes hashes => qbInsertPrehashBulk b (Pointer.start hashes) hashes.length

def contains (b : BloomT) : Operand → Program Nat
  | .key bytes => qbContains b (Pointer.start bytes) bytes.length
  | .keys batch => qbContainsBulk b (Pointer.start batch.bytes) batch.klen batch.n
  | .prehash h => qbContainsPrehash b h
  | .prehashes hashes => qbContainsPrehashBulk b (Pointer.start hashes) hashes.length

theorem insert_eq (b : BloomT) (operand : Operand) :
    operand.insert b = insertEach b operand.hashes := by
  have single (h : Uint64) : qbInsertPrehash b h = insertEach b [h] := (bind_pure_unit).symm
  cases operand with
  | key bytes => exact (qbInsert_eq (Pointer.start_holds bytes)).trans (single _)
  | keys batch => exact qbInsertBulk_eq (Pointer.start_holds batch.bytes) batch.sized
  | prehash h => exact single h
  | prehashes hashes => exact qbInsertPrehashBulk_eq (Pointer.start_holds hashes)

theorem contains_eq (b : BloomT) (operand : Operand) :
    operand.contains b = containsEach b 0 operand.hashes := by
  have single (h : Uint64) : qbContainsPrehash b h = containsEach b 0 [h] := by
    rw [containsEach_cons]
    simp only [Nat.zero_add]
    exact (bind_pure _).symm
  cases operand with
  | key bytes => exact (qbContains_eq (Pointer.start_holds bytes)).trans (single _)
  | keys batch => exact qbContainsBulk_eq (Pointer.start_holds batch.bytes) batch.sized
  | prehash h => exact single h
  | prehashes hashes => exact qbContainsPrehashBulk_eq (Pointer.start_holds hashes)

end Operand

section Steps

variable {k : Nat} {b : BloomT}

theorem WellFormed.insert_call (valid : WellFormed k b) (operand : Operand) :
    ∃ after, b.call operand.insert = .ok after ∧ WellFormed k after ∧
      contents after.bits = insertAll (probe k) (contents b.bits) operand.hashes ∧
      after.nblocksMask = b.nblocksMask ∧ after.idxShift = b.idxShift := by
  rw [show operand.insert = fun b => insertEach b operand.hashes from
    funext fun b => operand.insert_eq b]
  exact valid.insertEach_call operand.hashes

theorem WellFormed.contains_run (valid : WellFormed k b) (operand : Operand) :
    ∃ found, b.run (operand.contains b) = .ok (found, b) := by
  rw [operand.contains_eq]
  exact valid.containsEach_run operand.hashes

end Steps

def insertRun (b : BloomT) (operands : List Operand) : Checked BloomT :=
  b.callEach (operands.map fun operand b => operand.insert b)

theorem WellFormed.insertRun_ok {k : Nat} {b : BloomT} (valid : WellFormed k b)
    (operands : List Operand) :
    ∃ after, insertRun b operands = .ok after ∧ WellFormed k after ∧
      contents after.bits =
        insertAll (probe k) (contents b.bits) (operands.flatMap Operand.hashes) := by
  induction operands generalizing b with
  | nil => exact ⟨b, rfl, valid, rfl⟩
  | cons operand rest ih =>
      obtain ⟨next, called, nextValid, nextCells, _⟩ := valid.insert_call operand
      obtain ⟨after, ran, afterValid, cells⟩ := ih nextValid
      refine ⟨after, ?_, afterValid, ?_⟩
      · rw [insertRun, List.map_cons, BloomT.callEach, List.foldlM_cons, called]
        exact ran
      · rw [cells, nextCells, List.flatMap_cons, insertAll_append]

/-- Two insert runs from one filter that insert the same set of hashes leave one
image, whatever their order, repetition and batching: whatever the buffers held,
both calls of `qb_serialize` write the same bytes. -/
theorem insertRun_image {k : Nat} {b : BloomT} (valid : WellFormed k b) (build : Build)
    {first second : List Operand}
    (same : ∀ h, h ∈ first.flatMap Operand.hashes ↔ h ∈ second.flatMap Operand.hashes) :
    ∃ left right, insertRun b first = .ok left ∧ insertRun b second = .ok right ∧
      ∃ size bytes, qbSerializedSize build (some left) = .ok size ∧
        qbSerializedSize build (some right) = .ok size ∧ bytes.length = size.toNat ∧
        ∀ leftBuffer rightBuffer : List Byte,
          leftBuffer.length = size.toNat → rightBuffer.length = size.toNat →
          qbSerialize build (some left) (some leftBuffer) = .ok (some bytes) ∧
          qbSerialize build (some right) (some rightBuffer) = .ok (some bytes) := by
  obtain ⟨left, leftRan, leftValid, leftCells⟩ := valid.insertRun_ok first
  obtain ⟨right, rightRan, rightValid, rightCells⟩ := valid.insertRun_ok second
  have equal : left = right := leftValid.ext rightValid (by
    rw [leftCells, rightCells, insertAll_congr same])
  subst equal
  have size := qbSerializedSize_eq build leftValid
  have count := serializedSize_toNat valid.bound
  have written : ∀ buffer : List Byte,
      buffer.length = (BitVec.ofNat 64 (32 * 2 ^ k)).toNat →
      qbSerialize build (some left) (some buffer) = .ok (some (image left)) := by
    intro buffer length
    rw [count] at length
    rw [qbSerialize_eq build leftValid (Nat.le_of_eq length.symm), ← length, List.drop_length,
      List.append_nil]
  refine ⟨left, left, leftRan, rightRan, _, image left, size, size,
    (image_length leftValid).trans count.symm, ?_⟩
  intro leftBuffer rightBuffer leftLength rightLength
  exact ⟨written leftBuffer leftLength, written rightBuffer rightLength⟩

theorem insertRun_image_single :
    ∃ left right, insertRun (emptyFilter 1) [.prehash 3, .prehashes [5, 3]] = .ok left ∧
      insertRun (emptyFilter 1) [.prehashes [3, 5]] = .ok right ∧
      ∃ size bytes, qbSerializedSize {} (some left) = .ok size ∧
        qbSerializedSize {} (some right) = .ok size ∧ bytes.length = size.toNat ∧
        ∀ leftBuffer rightBuffer : List Byte,
          leftBuffer.length = size.toNat → rightBuffer.length = size.toNat →
          qbSerialize {} (some left) (some leftBuffer) = .ok (some bytes) ∧
          qbSerialize {} (some right) (some rightBuffer) = .ok (some bytes) :=
  insertRun_image (emptyFilter_wellFormed (by omega)) {} (by
    intro h
    simp only [List.flatMap_cons, List.flatMap_nil, Operand.hashes, List.cons_append,
      List.nil_append, List.append_nil, List.mem_cons, List.not_mem_nil, or_false]
    tauto)

inductive Event where
  | insert (operand : Operand)
  /-- The filter is replaced by `qb_deserialize` of its `qb_serialize`. -/
  | reload

def Event.hashes : Event → List Uint64
  | .insert operand => operand.hashes
  | .reload => []

/-- One event; `none` is the null pointer that a refused reload returns. -/
def Event.step (build : Build) (heap : Heap) (b : BloomT) : Event → Checked (Option BloomT)
  | .insert operand => do
    let next ← b.call operand.insert
    return some next
  | .reload => do
    let size ← qbSerializedSize build (some b)
    let dst ← qbSerialize build (some b) (some (List.replicate size.toNat 0))
    qbDeserialize build heap (dst.map Pointer.start) size

def eventRun (build : Build) (heap : Heap) : BloomT → List Event → Checked (Option BloomT)
  | b, [] => .ok (some b)
  | b, event :: rest => do
    match ← event.step build heap b with
    | none => return none
    | some next => eventRun build heap next rest

section Events

variable {k : Nat} {b : BloomT} (build : Build) (heap : Heap)

theorem WellFormed.reload_step (valid : WellFormed k b) :
    Event.step build heap b .reload =
      if 32 * 2 ^ k ≤ build.qbDeserializeMaxBytes.toNat ∧ heap.malloc sizeofBloomT = true ∧
        heap.posixMemalign 32 (32 * 2 ^ k) = true then .ok (some b) else .ok none := by
  have bytes := serializedSize_toNat valid.bound
  have room : 32 * 2 ^ k ≤ (List.replicate (32 * 2 ^ k) (0 : Byte)).length := by
    rw [List.length_replicate]
  have written := qbSerialize_eq build valid room
  rw [List.drop_of_length_le (by rw [List.length_replicate]), List.append_nil] at written
  simp only [Event.step, qbSerializedSize_eq build valid, Checked.ok_bind, bytes, written, Option.map_some]
  by_cases ceiling : 32 * 2 ^ k ≤ build.qbDeserializeMaxBytes.toNat
  · have copied : memcpy (Pointer.start (image b)) (32 * 2 ^ k) = .ok (image b) := by
      rw [← image_length valid]
      exact memcpy_whole (Pointer.start_holds _)
    rw [qbDeserialize_accepted heap _ (by rw [bytes]; exact ceiling) bytes, bytes, copied,
      Checked.ok_bind, loadedFilter_image valid]
    simp only [ceiling, true_and]
  · rw [qbDeserialize_rejects fun accepted => ceiling (by
      rw [← bytes]
      exact accepted.1), if_neg (fun both => ceiling both.1)]

/-- A run never faults. Where it keeps a filter, the cells are those of the
inserted hashes; it loses the filter only in a refused reload. -/
theorem WellFormed.eventRun_ok (valid : WellFormed k b) (events : List Event) :
    (∃ after, eventRun build heap b events = .ok (some after) ∧ WellFormed k after ∧
      contents after.bits =
        insertAll (probe k) (contents b.bits) (events.flatMap Event.hashes)) ∨
    (eventRun build heap b events = .ok none ∧ Event.reload ∈ events ∧
      ¬ (32 * 2 ^ k ≤ build.qbDeserializeMaxBytes.toNat ∧ Heap.Grants heap)) := by
  induction events generalizing b with
  | nil => exact .inl ⟨b, rfl, valid, rfl⟩
  | cons event rest ih =>
      cases event with
      | insert operand =>
          obtain ⟨next, called, nextValid, nextCells, _⟩ := valid.insert_call operand
          have stepped : eventRun build heap b (.insert operand :: rest) =
              eventRun build heap next rest := by
            simp only [eventRun, Event.step, called, Checked.ok_bind, Checked.pure_eq_ok]
          rcases ih nextValid with ⟨after, ran, afterValid, cells⟩ | ⟨lost, reloaded, refused⟩
          · refine .inl ⟨after, stepped.trans ran, afterValid, ?_⟩
            rw [cells, nextCells, List.flatMap_cons, insertAll_append]
            rfl
          · exact .inr ⟨stepped.trans lost, List.mem_cons_of_mem _ reloaded, refused⟩
      | reload =>
          have stepped := valid.reload_step build heap
          split at stepped
          · have same : eventRun build heap b (.reload :: rest) = eventRun build heap b rest := by
              simp only [eventRun, stepped, Checked.ok_bind]
            rcases ih valid with ⟨after, ran, afterValid, cells⟩ | ⟨lost, reloaded, refused⟩
            · exact .inl ⟨after, same.trans ran, afterValid, cells⟩
            · exact .inr ⟨same.trans lost, List.mem_cons_of_mem _ reloaded, refused⟩
          · rename_i denied
            refine .inr ⟨?_, List.mem_cons_self, ?_⟩
            · simp only [eventRun, stepped, Checked.ok_bind, Checked.pure_eq_ok]
            · intro both
              obtain ⟨ceiling, grants⟩ := both
              exact denied ⟨ceiling, grants.1 _, grants.2 _ _⟩

end Events

end Quickbloom.Filter
