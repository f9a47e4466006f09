import Quickbloom.Classic.Batches
import Quickbloom.Classic.Construct

namespace Quickbloom.Classic

open Quickbloom.Data Quickbloom.Machine Quickbloom.Probe
open Quickbloom.Source (Uint64 SizeT Heap)
open Quickbloom.Source.Classic
open Quickbloom.Filter (ampleHeap)

/-! # Double hashing probes distinct bits -/

def positions (b : BloomT) (h1 h2 : Uint64) : Set Nat :=
  {t | ∃ i < kHashes, t = position b h1 h2 i}

/-- The positions of a pair are below the number of bits and pairwise distinct. -/
def Distinct (b : BloomT) (h1 h2 : Uint64) : Prop :=
  (∀ i < kHashes, position b h1 h2 i < b.bitMask.toNat + 1) ∧
    ∀ i < kHashes, ∀ j < kHashes, position b h1 h2 i = position b h1 h2 j → i = j

/-- An insert of the item adds the positions of its pair and no other bit. -/
def Sets (b : BloomT) (item : Item) (h1 h2 : Uint64) : Prop :=
  ∃ after, item.insert b = .ok after ∧ after.bitMask = b.bitMask ∧
    after.bits.length = b.bits.length ∧
    setBits after.bits = setBits b.bits ∪ positions b h1 h2 ∧
    (setBits b.bits = ∅ → (setBits after.bits).ncard = 8)

/-- A query of the item is nonzero exactly if all positions of its pair are set. -/
def Tests (b : BloomT) (item : Item) (h1 h2 : Uint64) : Prop :=
  ∃ found, item.contains b = .ok found ∧
    (found ≠ 0 ↔ ∀ i < kHashes, position b h1 h2 i ∈ setBits b.bits)

section Items

variable {k : Nat} {b : BloomT} {item : Item} {h1 h2 : Uint64}

theorem Sized.distinct (sized : Sized k b) (derived : item.pair = .ok (h1, h2)) :
    Distinct b h1 h2 := by
  rw [item.pair_eq] at derived
  cases derived
  refine ⟨?_, ?_⟩
  · intro i _
    rw [sized.mask]
    exact sized.place_lt _
  · intro i first j second same
    exact sized.position_injective (secondHash_odd item.hash) first second same

theorem Allocated.sets (valid : Allocated k b) (derived : item.pair = .ok (h1, h2)) :
    Sets b item h1 h2 := by
  rw [item.pair_eq] at derived
  cases derived
  obtain ⟨after, set, afterValid, mask, cells⟩ := valid.insert_item item
  refine ⟨after, set, mask, ?_, ?_, ?_⟩
  · have before := valid.words
    have words := afterValid.words
    omega
  · rw [cells, valid.probe_eq]
    rfl
  · intro empty
    rw [cells, empty, Set.empty_union]
    exact ncard_probe valid.large item.hash

theorem Allocated.tests (valid : Allocated k b) (derived : item.pair = .ok (h1, h2)) :
    Tests b item h1 h2 := by
  rw [item.pair_eq] at derived
  cases derived
  obtain ⟨found, _, returned, exact⟩ := valid.bloomContainsPrehash_ok item.hash
  rw [valid.probe_subset_iff] at exact
  exact ⟨found, (item.contains_eq b).trans returned, exact⟩

/-- A bulk query of inserted items counts all of them. -/
theorem Allocated.contains_inserted (valid : Allocated k b) {places : Set Nat} {inserted : List Item}
    (cells : setBits b.bits = insertAll (probe k) places (inserted.map Item.hash))
    {queries : Batch} (known : ∀ query ∈ queries.items, ∃ item ∈ inserted, item.pair = query.pair) :
    queries.contains b = .ok queries.items.length := by
  obtain ⟨found, answers⟩ := valid.found
  have hit : ∀ query ∈ queries.items, decide (found query ≠ 0) = true := by
    intro query member
    obtain ⟨item, earlier, same⟩ := known query member
    rw [decide_eq_true_eq, (answers query).2.2, cells, ← Item.hash_eq_of_pair same]
    exact reports_inserted (List.mem_map_of_mem earlier)
  rw [Batch.contains_counts fun item => ⟨(answers item).1, (answers item).2.1⟩,
    List.countP_eq_length.mpr hit]

end Items

/-- In every filter from `bloom_new` the eight positions of every key and
prehash are distinct. After every run of inserts an insert sets exactly these
positions, a query tests exactly these, and no inserted item is reported
absent. Only where both requests for the array are refused is there no array. -/
theorem doubleHashing_exact {heap : Heap} {nbits : SizeT} {created : BloomT}
    (returned : bloomNew heap nbits = .ok created) :
    (∃ k, 6 ≤ k ∧ created.bitMask.toNat + 1 = 2 ^ k) ∧
    (∀ item : Item, ∃ h1 h2, item.pair = .ok (h1, h2) ∧ Distinct created h1 h2) ∧
    (ArrayServed heap created →
      64 * created.bits.length = created.bitMask.toNat + 1 ∧ setBits created.bits = ∅ ∧
      ∀ batches : List Batch, ∃ b, insertRun created batches = .ok b ∧
        b.bitMask = created.bitMask ∧
        (∀ item : Item, ∃ h1 h2, item.pair = .ok (h1, h2) ∧ Distinct b h1 h2 ∧
          Sets b item h1 h2 ∧ Tests b item h1 h2) ∧
        ∀ queries : Batch,
          (∀ query ∈ queries.items, ∃ inserted ∈ batches.flatMap Batch.items,
            inserted.pair = query.pair) →
          queries.contains b = .ok queries.items.length) ∧
    (¬ ArrayServed heap created → created.bits = []) := by
  obtain ⟨k, sized, _, clear, missing⟩ := bloomNew_returned returned
  refine ⟨⟨k, sized.large, sized.mask⟩, ?_, ?_, missing⟩
  · intro item
    exact ⟨_, _, item.pair_eq, sized.distinct item.pair_eq⟩
  · intro served
    have bits := clear served
    have words : 64 * created.bits.length = 2 ^ k := by
      rw [bits, List.length_replicate, ← Nat.pow_add 2 6, Nat.add_sub_cancel' sized.large]
    have empty : setBits created.bits = ∅ := by
      rw [bits]
      exact setBits_zero _
    have valid : Allocated k created := ⟨sized, words⟩
    refine ⟨words.trans sized.mask.symm, empty, ?_⟩
    intro batches
    obtain ⟨b, ran, afterValid, mask, cells⟩ := valid.insertRun_ok batches
    refine ⟨b, ran, mask, ?_, ?_⟩
    · intro item
      exact ⟨_, _, item.pair_eq, afterValid.distinct item.pair_eq, afterValid.sets item.pair_eq,
        afterValid.tests item.pair_eq⟩
    · intro queries known
      exact afterValid.contains_inserted cells known

theorem doubleHashing_exact_twoWords :
    ∃ b, insertRun ⟨[0, 0], 127⟩ [.single (.prehash 7)] = .ok b ∧
      Batch.contains b (.single (.prehash 7)) = .ok 1 := by
  have created : bloomNew ampleHeap 100 = .ok ⟨[0, 0], 127⟩ := by decide
  obtain ⟨_, _, allocated, _⟩ := doubleHashing_exact created
  obtain ⟨_, _, runs⟩ := allocated (.inl rfl)
  obtain ⟨b, ran, _, _, found⟩ := runs [.single (.prehash 7)]
  refine ⟨b, ran, found (.single (.prehash 7)) ?_⟩
  intro query member
  exact ⟨query, member, rfl⟩

end Quickbloom.Classic
