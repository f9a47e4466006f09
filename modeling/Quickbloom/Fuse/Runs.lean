import Quickbloom.Classic.Batches
import Quickbloom.Filter.Copies
import Quickbloom.Fuse.Build

namespace Quickbloom.Fuse

open Quickbloom.Data Quickbloom.Machine
open Quickbloom.Classic (Item Batch firstHash)
open Quickbloom.Filter (batchKey batchKey_length batchKey_holds xorfuse_bloomHash_eq)
open Quickbloom.Source (Uint32 Uint64 SizeT)
open Quickbloom.Source.BinaryFuse
open Quickbloom.Source.Xorfuse

/-! # Runs of inserts and queries

A query builds the filter if it is not built, and an insert gives it up again.
-/

def batchHashes (batch : Batch) : List Uint64 := batch.items.map Item.hash

def insertBatch (lib : Libc) (x : XfT) : Batch → Checked XfT
  | .single (.key data bytes _) => bloomInsert lib x data bytes.length
  | .single (.prehash h) => bloomInsertPrehash lib x h
  | .keys data batch _ => bloomInsertBulk lib x data batch.klen batch.n
  | .prehashes data hashes _ => bloomInsertPrehashBulk lib x data hashes.length

/-- A single query counts as a bulk query of one key. -/
def containsBatch (lib : Libc) (x : XfT) : Batch → Checked (XfT × Nat)
  | .single (.key data bytes _) => do
    let result ← bloomContains lib x data bytes.length
    return (result.1, result.2.toNat)
  | .single (.prehash h) => do
    let result ← bloomContainsPrehash lib x h
    return (result.1, result.2.toNat)
  | .keys data batch _ => bloomContainsBulk lib x data batch.klen batch.n
  | .prehashes data hashes _ => bloomContainsPrehashBulk lib x data hashes.length

inductive Call where
  | insert (batch : Batch)
  | contains (batch : Batch)

def Call.run (lib : Libc) (x : XfT) : Call → Checked XfT
  | .insert batch => insertBatch lib x batch
  | .contains batch => do
    let result ← containsBatch lib x batch
    return result.1

def Call.inserted : Call → List Uint64
  | .insert batch => batchHashes batch
  | .contains _ => []

def runCalls (lib : Libc) (x : XfT) (calls : List Call) : Checked XfT :=
  calls.foldlM (Call.run lib) x

/-- The buffer has all inserted keys, and two more at most. -/
structure Serving (inserted : List Uint64) (x : XfT) (keys : List Uint64) : Prop where
  staged : Staged x keys
  whole : ∀ key ∈ inserted, key ∈ keys
  known : ∀ key ∈ keys, key ∈ inserted ∨ key = 0 ∨ key = 1
  count : keys.length ≤ inserted.length + 2
  built : x.built = true → Built x.filter keys

section Steps

variable {lib : Libc} {x : XfT} {inserted keys : List Uint64}

theorem Serving.unbuild (serving : Serving inserted x keys) :
    Serving inserted (unbuild x) keys ∧ (unbuild x).built = false := by
  rw [Source.Xorfuse.unbuild]
  by_cases done : x.built = true
  · rw [if_pos done]
    exact ⟨⟨⟨serving.staged.cap, serving.staged.len, serving.staged.front⟩, serving.whole,
      serving.known, serving.count, fun built => (by cases built)⟩, rfl⟩
  · rw [if_neg done]
    exact ⟨serving, Bool.eq_false_of_not_eq_true done⟩

theorem Serving.admissible (serving : Serving inserted x keys)
    (safe : ∀ key ∈ inserted, Admissible key) : ∀ key ∈ keys, Admissible key := by
  intro key member
  rcases serving.known key member with earlier | rfl | rfl
  · exact safe key earlier
  · exact admissible_zero
  · exact admissible_one

theorem keysOrTwo_members (keys : List Uint64) : (∀ key ∈ keys, key ∈ keysOrTwo keys) ∧
    (∀ key ∈ keysOrTwo keys, key ∈ keys ∨ key = 0 ∨ key = 1) ∧
    (keysOrTwo keys).length ≤ max 2 keys.length := by
  by_cases none : keys = []
  · subst none
    simp [keysOrTwo]
  · simp only [keysOrTwo, none, ↓reduceIte]
    exact ⟨fun _ member => member, fun _ member => .inl member, le_max_right _ _⟩

theorem Serving.build (serving : Serving inserted x keys) (serves : Serves lib)
    (few : inserted.length + 2 ≤ 3800000000) (safe : ∀ key ∈ inserted, Admissible key)
    (pending : x.built = false) :
    ∃ after next, build lib x = .ok after ∧ Serving inserted after next ∧ after.built = true := by
  have count := serving.count
  obtain ⟨after, next, ran, staged, done, length, same, built⟩ := build_returns serving.staged serves
    (by omega) (serving.admissible safe) pending
  obtain ⟨covers, known, short⟩ := keysOrTwo_members keys
  refine ⟨after, next, ran, ⟨staged, ?_, ?_, by omega, fun _ => built⟩, done⟩
  · intro key member
    exact (same key).mpr (covers key (serving.whole key member))
  · intro key member
    rcases known key ((same key).mp member) with earlier | fixed
    · exact serving.known key earlier
    · exact .inr fixed

theorem Serving.ensureBuilt (serving : Serving inserted x keys) (serves : Serves lib)
    (few : inserted.length + 2 ≤ 3800000000) (safe : ∀ key ∈ inserted, Admissible key) :
    ∃ after next, ensureBuilt lib x = .ok after ∧ Serving inserted after next ∧
      after.built = true := by
  by_cases done : x.built = true
  · refine ⟨x, keys, ?_, serving, done⟩
    rw [Source.Xorfuse.ensureBuilt, done]
    rfl
  · have pending := Bool.eq_false_of_not_eq_true done
    obtain ⟨after, next, ran, kept, built⟩ := serving.build serves few safe pending
    refine ⟨after, next, ?_, kept, built⟩
    rw [Source.Xorfuse.ensureBuilt, pending]
    exact ran

theorem Serving.push (serving : Serving inserted x keys) (serves : Serves lib)
    (few : inserted.length + 2 ≤ 3800000000) (key : Uint64) :
    ∃ after next, bloomInsertPrehash lib x key = .ok after ∧
      Serving (inserted ++ [key]) after next := by
  obtain ⟨unbuilt, pending⟩ := serving.unbuild
  have count := unbuilt.count
  obtain ⟨after, ran, staged, _, built⟩ :=
    bufPush_returns unbuilt.staged serves.realloc (by omega) key
  refine ⟨after, keys ++ [key], ran, staged, ?_, ?_, ?_, fun done => ?_⟩
  · intro other member
    rcases List.mem_append.mp member with earlier | last
    · exact List.mem_append_left _ (serving.whole other earlier)
    · exact List.mem_append_right _ last
  · intro other member
    rcases List.mem_append.mp member with earlier | last
    · exact (serving.known other earlier).imp_left (List.mem_append_left _)
    · exact .inl (List.mem_append_right _ last)
  · simp only [List.length_append, List.length_singleton]
    omega
  · rw [built, pending] at done
    cases done

/-- The loop that appends the hashes of a batch. -/
theorem Staged.fill (staged : Staged x keys) {hashes : List Uint64} {source : Nat → Checked Uint64}
    (reads : ∀ i, (bound : i < hashes.length) → source i = .ok hashes[i])
    (room : keys.length + hashes.length ≤ x.bufCap.toNat) :
    ∃ buf, strideLoop 1 hashes.length (fun buf i => do
        storeAt buf (x.bufLen.toNat + i) (some (← source i))) (x.buf, 0) =
          .ok (buf, hashes.length) ∧
      buf.length = x.bufCap.toNat ∧ (keys ++ hashes).map some <+: buf := by
  suffices loop : ∃ buf, strideLoop 1 hashes.length (fun buf i => do
        storeAt buf (x.bufLen.toNat + i) (some (← source i))) (x.buf, 0) =
          .ok (buf, hashes.length) ∧
      (buf.length = x.bufCap.toNat ∧ (keys ++ hashes.take hashes.length).map some <+: buf) by
    rwa [List.take_length] at loop
  apply strideLoop_invariant
    (fun i buf => buf.length = x.bufCap.toNat ∧ (keys ++ hashes.take i).map some <+: buf)
  · intro i buf bound kept
    obtain ⟨length, front⟩ := kept
    have place : ((keys ++ hashes.take i).map some).length = x.bufLen.toNat + i := by
      rw [List.length_map, List.length_append, List.length_take, staged.len]
      omega
    have before := staged.len
    obtain ⟨next, stored, same, longer⟩ :=
      storeAt_prefix front (by rw [place]; omega) (some hashes[i])
    rw [place] at stored
    refine ⟨next, ?_, same.trans length, ?_⟩
    · simp only [reads i bound, Checked.ok_bind, stored]
    · rw [List.take_succ_eq_append_getElem bound, ← List.append_assoc, List.map_append]
      exact longer
  · exact Nat.zero_le _
  · exact ⟨staged.cap, by simpa using staged.front⟩

theorem Serving.fillAndBuild (serving : Serving inserted x keys) (serves : Serves lib)
    {hashes : List Uint64} {source : Nat → Checked Uint64}
    (reads : ∀ i, (bound : i < hashes.length) → source i = .ok hashes[i])
    (few : (inserted ++ hashes).length + 2 ≤ 3800000000)
    (safe : ∀ key ∈ inserted ++ hashes, Admissible key) :
    ∃ after next, (do
        let x ← reserveMore lib (Source.Xorfuse.unbuild x) (BitVec.ofNat 64 hashes.length)
        let filled ← strideLoop 1 hashes.length (fun buf i => do
          storeAt buf (x.bufLen.toNat + i) (some (← source i))) (x.buf, 0)
        Source.Xorfuse.build lib { x with
          buf := filled.1, bufLen := x.bufLen + BitVec.ofNat 64 hashes.length }) = .ok after ∧
      Serving (inserted ++ hashes) after next := by
  obtain ⟨unbuilt, pending⟩ := serving.unbuild
  have count := unbuilt.count
  rw [List.length_append] at few
  obtain ⟨larger, reserved, staged, room, _, kept⟩ :=
    reserveMore_returns unbuilt.staged serves.realloc
      (show keys.length + hashes.length ≤ 2 ^ 33 by omega)
  obtain ⟨buf, filled, length, front⟩ := staged.fill reads room
  have total : (larger.bufLen + BitVec.ofNat 64 hashes.length).toNat =
      (keys ++ hashes).length := by
    rw [BitVec.toNat_add, staged.len, BitVec.toNat_ofNat, Nat.mod_eq_of_lt (by omega),
      Nat.mod_eq_of_lt (by omega), List.length_append]
  have ready : Serving (inserted ++ hashes) { larger with
      buf, bufLen := larger.bufLen + BitVec.ofNat 64 hashes.length } (keys ++ hashes) := by
    refine ⟨⟨length, total, front⟩, ?_, ?_, ?_, fun done => ?_⟩
    · intro key member
      rcases List.mem_append.mp member with earlier | last
      · exact List.mem_append_left _ (serving.whole key earlier)
      · exact List.mem_append_right _ last
    · intro key member
      rcases List.mem_append.mp member with earlier | last
      · exact (serving.known key earlier).imp_left (List.mem_append_left _)
      · exact .inl (List.mem_append_right _ last)
    · rw [List.length_append, List.length_append]
      omega
    · simp only at done
      rw [kept, pending] at done
      cases done
  obtain ⟨after, next, ran, done, _⟩ := ready.build serves
    (by rw [List.length_append]; omega) safe (kept.trans pending)
  refine ⟨after, next, ?_, done⟩
  rw [reserved, Checked.ok_bind, filled, Checked.ok_bind, ran]

end Steps

theorem batchHashes_keys {data : Pointer Byte} {batch : Filter.KeyBatch}
    {holds : data.Holds batch.bytes} :
    (batchHashes (.keys data batch holds)).length = batch.n ∧
      ∀ i, (bound : i < (batchHashes (.keys data batch holds)).length) →
        bloomHash (data.add (i * batch.klen)) batch.klen =
          .ok (batchHashes (.keys data batch holds))[i] := by
  have length : (batchHashes (.keys data batch holds)).length = batch.n := by
    simp [batchHashes, Batch.items]
  refine ⟨length, ?_⟩
  intro i bound
  have size : (batchKey batch.bytes batch.klen i).length = batch.klen :=
    batchKey_length batch.sized (by omega)
  have part : (data.add (i * batch.klen)).Holds (batchKey batch.bytes batch.klen i) :=
    batchKey_holds holds
  have hashed := xorfuse_bloomHash_eq part
  rw [size] at hashed
  rw [hashed]
  simp [batchHashes, Batch.items, Item.hash]

theorem batchHashes_prehashes {data : Pointer Uint64} {hashes : List Uint64}
    {holds : data.Holds hashes} : batchHashes (.prehashes data hashes holds) = hashes := by
  rw [batchHashes, Batch.items, List.map_map]
  exact List.map_id hashes

section Calls

variable {lib : Libc} {x : XfT} {inserted keys : List Uint64}

theorem Serving.insert (serving : Serving inserted x keys) (serves : Serves lib) (batch : Batch)
    (few : (inserted ++ batchHashes batch).length + 2 ≤ 3800000000)
    (safe : ∀ key ∈ inserted ++ batchHashes batch, Admissible key) :
    ∃ after next, insertBatch lib x batch = .ok after ∧
      Serving (inserted ++ batchHashes batch) after next := by
  have fewer : inserted.length + 2 ≤ 3800000000 := by
    rw [List.length_append] at few
    omega
  cases batch with
  | single item =>
      cases item with
      | key data bytes holds =>
          obtain ⟨after, next, ran, kept⟩ := serving.push serves fewer (firstHash bytes)
          refine ⟨after, next, ?_, kept⟩
          rw [insertBatch, bloomInsert, xorfuse_bloomHash_eq holds]
          exact ran
      | prehash h => exact serving.push serves fewer h
  | keys data batch holds =>
      obtain ⟨length, reads⟩ := @batchHashes_keys data batch holds
      obtain ⟨after, next, ran, kept⟩ := serving.fillAndBuild serves reads few safe
      rw [length] at ran
      exact ⟨after, next, ran, kept⟩
  | prehashes data hashes holds =>
      rw [batchHashes_prehashes] at few safe ⊢
      exact serving.fillAndBuild serves holds few safe

/-- The loop that counts the hashes that are found. -/
theorem count_returns {filter : BinaryFuse8} {answers : Uint64 → Bool} {hashes : List Uint64}
    {source : Nat → Checked Uint64}
    (answered : ∀ key, binaryFuse8Contain key filter = .ok (answers key))
    (reads : ∀ i, (bound : i < hashes.length) → source i = .ok hashes[i]) :
    strideLoop 1 hashes.length (fun hits i => do
        let found ← binaryFuse8Contain (← source i) filter
        return if found then hits + 1 else hits) (0, 0) =
      .ok (hashes.countP answers, hashes.length) := by
  suffices loop : ∃ hits, strideLoop 1 hashes.length (fun hits i => do
        let found ← binaryFuse8Contain (← source i) filter
        return if found then hits + 1 else hits) (0, 0) = .ok (hits, hashes.length) ∧
      hits = (hashes.take hashes.length).countP answers by
    obtain ⟨hits, ran, rfl⟩ := loop
    rwa [List.take_length] at ran
  apply strideLoop_invariant (fun i hits => hits = (hashes.take i).countP answers)
  · intro i hits bound kept
    refine ⟨_, by rw [reads i bound, Checked.ok_bind, answered]; rfl, ?_⟩
    rw [List.take_succ_eq_append_getElem bound, List.countP_append, List.countP_singleton, ← kept]
    by_cases hit : answers hashes[i] = true
    · simp [hit]
    · simp [hit]
  · exact Nat.zero_le _
  · rfl

/-- Every query on a state whose filter is built answers by that filter. -/
theorem containsBatch_eq {after : XfT} {answers : Uint64 → Bool}
    (ready : ensureBuilt lib x = .ok after)
    (answered : ∀ key, binaryFuse8Contain key after.filter = .ok (answers key)) (batch : Batch) :
    containsBatch lib x batch = .ok (after, (batchHashes batch).countP answers) := by
  cases batch with
  | single item =>
      cases item with
      | key data bytes holds =>
          rw [containsBatch, bloomContains, xorfuse_bloomHash_eq holds, Checked.ok_bind,
            bloomContainsPrehash, ready, Checked.ok_bind, answered]
          cases found : answers (firstHash bytes) <;>
            simp [batchHashes, Batch.items, Item.hash, found]
      | prehash h =>
          rw [containsBatch, bloomContainsPrehash, ready, Checked.ok_bind, answered]
          cases found : answers h <;> simp [batchHashes, Batch.items, Item.hash, found]
  | keys data batch holds =>
      obtain ⟨length, reads⟩ := @batchHashes_keys data batch holds
      have counted := count_returns answered reads
      rw [length] at counted
      rw [containsBatch, bloomContainsBulk, ready, Checked.ok_bind, counted]
      rfl
  | prehashes data hashes holds =>
      have counted := count_returns answered holds
      rw [containsBatch, bloomContainsPrehashBulk, ready, Checked.ok_bind, counted,
        batchHashes_prehashes]
      rfl

theorem Serving.call (serving : Serving inserted x keys) (serves : Serves lib) (call : Call)
    (few : (inserted ++ call.inserted).length + 2 ≤ 3800000000)
    (safe : ∀ key ∈ inserted ++ call.inserted, Admissible key) :
    ∃ after next, call.run lib x = .ok after ∧ Serving (inserted ++ call.inserted) after next := by
  cases call with
  | insert batch => exact serving.insert serves batch few safe
  | contains batch =>
      simp only [Call.inserted, List.append_nil] at few safe ⊢
      obtain ⟨after, next, ready, kept, done⟩ := serving.ensureBuilt serves few safe
      choose answers answered using (kept.built done).contain
      refine ⟨after, next, ?_, kept⟩
      rw [Call.run, containsBatch_eq ready answered]
      rfl

theorem Serving.calls (serving : Serving inserted x keys) (serves : Serves lib) (calls : List Call)
    (few : (inserted ++ calls.flatMap Call.inserted).length + 2 ≤ 3800000000)
    (safe : ∀ key ∈ inserted ++ calls.flatMap Call.inserted, Admissible key) :
    ∃ after next, runCalls lib x calls = .ok after ∧
      Serving (inserted ++ calls.flatMap Call.inserted) after next := by
  induction calls generalizing x inserted keys with
  | nil =>
      rw [List.flatMap_nil, List.append_nil]
      exact ⟨x, keys, rfl, serving⟩
  | cons call rest ih =>
      rw [List.flatMap_cons, ← List.append_assoc] at few safe ⊢
      have shorter : (inserted ++ call.inserted).length + 2 ≤ 3800000000 := by
        rw [List.length_append] at few
        omega
      obtain ⟨middle, held, ran, kept⟩ := serving.call serves call shorter
        fun key member => safe key (List.mem_append_left _ member)
      obtain ⟨after, next, rest, last⟩ := ih kept few safe
      refine ⟨after, next, ?_, last⟩
      rw [runCalls, List.foldlM_cons, ran]
      exact rest

end Calls

end Quickbloom.Fuse
