import Quickbloom.Fuse.Tally
import Quickbloom.Machine.Loop

namespace Quickbloom.Fuse

open Quickbloom.Data Quickbloom.Machine Quickbloom.Peeling
open Quickbloom.Source (Uint32 Uint64)
open Quickbloom.Source.BinaryFuse

/-! # The counting pass

Every hash is added at its three cells. A hash that turns out to be the only
other one at one of its cells is a repetition and is taken out again. A pass
without error leaves the loads of a collection that has every hash.
-/

section Loads

variable {filter : BinaryFuse8} {active : Multiset Uint64} {hash : Uint64} {place : Nat}

theorem share_count : (share (cell filter) weight hash place).1 =
    BitVec.ofNat 6 (share (cell filter) (fun _ _ => 1) hash place) := by
  have ones : ∀ position, (weight hash position).1 = 1 := fun _ => rfl
  simp only [share, Fin.sum_univ_three, Prod.fst_add, apply_ite Prod.fst, ones, Prod.fst_zero]
  split <;> split <;> split <;> rfl

theorem load_count : (load (cell filter) weight active place).1 =
    BitVec.ofNat 6 (degree (cell filter) active place) := by
  induction active using Multiset.induction with
  | empty => rfl
  | cons hash rest ih =>
      rw [load_cons, degree_cons, Prod.fst_add, share_count, ih, BitVec.ofNat_add]

theorem load_empty : (load (cell filter) weight active place).count < 4 ↔
    degree (cell filter) active place % 64 = 0 := by
  have zero : (0 : BitVec 6).toNat = 0 := rfl
  rw [Tally.count, count_empty, load_count, ← BitVec.toNat_inj, BitVec.toNat_ofNat, zero]

end Loads

/-- A cell that looks as if it held one hash twice. -/
def Tally.Pair (tally : Tally) : Prop := tally.hash = 0 ∧ tally.count = 8

instance (tally : Tally) : Decidable tally.Pair :=
  inferInstanceAs (Decidable (tally.hash = 0 ∧ tally.count = 8))

def added (filter : BinaryFuse8) (tally : Nat → Tally) (hash : Uint64) (place : Nat) : Tally :=
  tally place + share (cell filter) weight hash place

def Repeated (filter : BinaryFuse8) (tally : Nat → Tally) (hash : Uint64) : Prop :=
  ∃ position, (added filter tally hash (cell filter hash position)).Pair

instance (filter : BinaryFuse8) (tally : Nat → Tally) (hash : Uint64) :
    Decidable (Repeated filter tally hash) :=
  inferInstanceAs (Decidable (∃ _, _))

/-- One of the cells of the hash has a count that reads as zero. -/
def Wrapped (filter : BinaryFuse8) (tally : Nat → Tally) (hash : Uint64) : Prop :=
  ∃ position, (tally (cell filter hash position)).count < 4

instance (filter : BinaryFuse8) (tally : Nat → Tally) (hash : Uint64) :
    Decidable (Wrapped filter tally hash) :=
  inferInstanceAs (Decidable (∃ _, _))

section Step

variable {e : Nat} {filter : BinaryFuse8} {tally : Nat → Tally} {hash : Uint64}

theorem Shaped.loadCount (shaped : Shaped e filter) (position : Fin 3) :
    loadAt (Tables.of filter.arrayLength.toNat tally).t2count (cell filter hash position) =
      .ok (tally (cell filter hash position)).count :=
  loadAt_tabulate (shaped.cell_lt hash position)

theorem Shaped.loadHash (shaped : Shaped e filter) (position : Fin 3) :
    loadAt (Tables.of filter.arrayLength.toNat tally).t2hash (cell filter hash position) =
      .ok (tally (cell filter hash position)).hash :=
  loadAt_tabulate (shaped.cell_lt hash position)

theorem exists_position {P : Fin 3 → Prop} : (∃ position, P position) ↔ P 0 ∨ P 1 ∨ P 2 := by
  simp [Fin.exists_fin_succ]

/-- The test on the conjunction of the three words only saves the others. -/
theorem Shaped.repeats_eq (shaped : Shaped e filter) :
    (Tables.of filter.arrayLength.toNat tally).repeats (cell filter hash 0) (cell filter hash 1)
      (cell filter hash 2) = .ok (decide (∃ position, (tally (cell filter hash position)).Pair)) := by
  simp only [Tables.repeats, shaped.loadCount, shaped.loadHash, Checked.ok_bind,
    Checked.pure_eq_ok, exists_position, Tally.Pair]
  congr 1
  rw [Bool.eq_iff_iff]
  simp only [Bool.and_eq_true, Bool.or_eq_true, beq_iff_eq, decide_eq_true_eq]
  refine ⟨?_, ?_⟩
  · intro both
    rcases both.2 with (first | second) | third
    · exact Or.inl first
    · exact Or.inr (Or.inl second)
    · exact Or.inr (Or.inr third)
  · intro pair
    rcases pair with first | second | third
    · exact ⟨by simp [first.1], Or.inl (Or.inl first)⟩
    · exact ⟨by simp [second.1], Or.inl (Or.inr second)⟩
    · exact ⟨by simp [third.1], Or.inr third⟩

theorem flag_or {first second third : Prop} [Decidable first] [Decidable second] [Decidable third]
    (flag : Bool) :
    (if third then true else if second then true else if first then true else flag) =
      (flag || decide (first ∨ second ∨ third)) := by
  by_cases first <;> by_cases second <;> by_cases third <;> simp [*]

/-- What the counting of one hash leaves, in terms of the tables as functions. -/
theorem Shaped.countHash_eq (shaped : Shaped e filter) (duplicates : Nat) (error : Bool) :
    countHash filter { tables := Tables.of filter.arrayLength.toNat tally, duplicates, error } hash =
      .ok (if Repeated filter tally hash then
          { tables := Tables.of filter.arrayLength.toNat tally, duplicates := duplicates + 1
            error := error || decide (Wrapped filter tally hash) }
        else
          { tables := Tables.of filter.arrayLength.toNat (added filter tally hash), duplicates
            error := error || decide (Wrapped filter (added filter tally hash) hash) }) := by
  have add : ∀ next : Tables → Checked Counted, _ = _ :=
    @Shaped.toggle_three _ _ shaped hash 4 _ add_zero
      (fun tally position => toggle_add (shaped.cell_lt hash position)) tally _
  have sub : ∀ next : Tables → Checked Counted, _ = _ :=
    @Shaped.toggle_three _ _ shaped hash (-4) _ sub_zero
      (fun tally position => toggle_sub (shaped.cell_lt hash position)) (added filter tally hash) _
  have back : (fun place => added filter tally hash place - share (cell filter) weight hash place) =
      tally := by
    funext place
    exact add_sub_cancel_right _ _
  have errors : ∀ tally : Nat → Tally, ∀ counted : Counted,
      counted.tables = Tables.of filter.arrayLength.toNat tally → (do
        let c0 ← loadAt counted.tables.t2count (cell filter hash 0)
        let c1 ← loadAt counted.tables.t2count (cell filter hash 1)
        let c2 ← loadAt counted.tables.t2count (cell filter hash 2)
        let error := if c0 < 4 then true else counted.error
        let error := if c1 < 4 then true else error
        let error := if c2 < 4 then true else error
        return { counted with error } : Checked Counted) =
      .ok { counted with error := counted.error || decide (Wrapped filter tally hash) } := by
    intro tally counted held
    have loaded : ∀ position, loadAt counted.tables.t2count (cell filter hash position) =
        .ok (tally (cell filter hash position)).count := by
      rw [held]
      exact shaped.loadCount
    simp only [loaded, Checked.ok_bind, Checked.pure_eq_ok, Wrapped, exists_position, flag_or]
  have repeats : (Tables.of filter.arrayLength.toNat (added filter tally hash)).repeats
      (binaryFuse8Hash 0 hash filter).toNat (binaryFuse8Hash 1 hash filter).toNat
      (binaryFuse8Hash 2 hash filter).toNat = .ok (decide (Repeated filter tally hash)) :=
    shaped.repeats_eq
  simp only [countHash]
  rw [add]
  change (Tables.of filter.arrayLength.toNat (added filter tally hash)).repeats _ _ _ >>= _ = _
  rw [repeats, Checked.ok_bind]
  by_cases repeated : Repeated filter tally hash
  · rw [if_pos (decide_eq_true repeated), if_pos repeated]
    refine (sub _).trans ?_
    rw [back, Checked.pure_eq_ok, Checked.ok_bind]
    exact errors tally _ rfl
  · rw [if_neg (by simpa using repeated), if_neg repeated, Checked.pure_eq_ok, Checked.ok_bind]
    exact errors (added filter tally hash) _ rfl

end Step

/-- `active` is what the tables hold after `hashes`: each of them, and some of
them more than once. -/
structure Active (filter : BinaryFuse8) (hashes active : Multiset Uint64) (duplicates : Nat) :
    Prop where
  within : active ≤ hashes
  covers : ∀ hash ∈ hashes, hash ∈ active
  count : active.card + duplicates = hashes.card
  small : ∀ place, degree (cell filter) active place < 64

inductive Passing (filter : BinaryFuse8) (hashes : Multiset Uint64) : Counted → Prop where
  | clean {active : Multiset Uint64} {duplicates : Nat}
      (holds : Active filter hashes active duplicates) :
      Passing filter hashes
        { tables := Tables.of filter.arrayLength.toNat (load (cell filter) weight active)
          duplicates, error := false }
  | crowded {tally : Nat → Tally} {duplicates place : Nat}
      (many : 64 ≤ degree (cell filter) hashes place) :
      Passing filter hashes
        { tables := Tables.of filter.arrayLength.toNat tally, duplicates, error := true }

section Pass

variable {e : Nat} {filter : BinaryFuse8} {hashes active : Multiset Uint64} {duplicates : Nat}

theorem added_load (hash : Uint64) : added filter (load (cell filter) weight active) hash =
    load (cell filter) weight (hash ::ₘ active) := by
  funext place
  rw [added, load_cons, add_comm]

/-- A cell reads as a pair only if it holds the same hash once before. -/
theorem Active.repeated (holds : Active filter hashes active duplicates) (shaped : Shaped e filter)
    {hash : Uint64} (repeated : Repeated filter (load (cell filter) weight active) hash) :
    hash ∈ active := by
  obtain ⟨position, pair⟩ := repeated
  have small := holds.small (cell filter hash position)
  have sum : added filter (load (cell filter) weight active) hash (cell filter hash position) =
      load (cell filter) weight active (cell filter hash position) + weight hash position := by
    rw [added, share_cell (shaped.cell_injective hash)]
  rw [sum] at pair
  have two := ((count_pair _ _).mp pair.2).1
  have single : degree (cell filter) active (cell filter hash position) = 1 := by
    have total : (BitVec.ofNat 6 (degree (cell filter) active (cell filter hash position)) + 1 :
        BitVec 6) = 2 := by
      rw [← load_count]
      exact two
    have value := congrArg BitVec.toNat total
    rw [BitVec.toNat_add, BitVec.toNat_ofNat] at value
    have one : (1 : BitVec 6).toNat = 1 := rfl
    have twice : (2 : BitVec 6).toNat = 2 := rfl
    omega
  obtain ⟨other, member, place, _, _, held⟩ := degree_one weight shaped.cell_injective single
  have words : other ^^^ hash = 0 := by
    have empty := pair.1
    rw [held] at empty
    exact empty
  have same : other = hash := BitVec.xor_eq_zero_iff.mp words
  exact same ▸ member

theorem Shaped.degree_cell (shaped : Shaped e filter) (active : Multiset Uint64) (hash : Uint64)
    (position : Fin 3) :
    degree (cell filter) (hash ::ₘ active) (cell filter hash position) =
      1 + degree (cell filter) active (cell filter hash position) := by
  rw [degree_cons, share_cell (shaped.cell_injective hash)]

theorem degree_apart {hash : Uint64} {place : Nat}
    (apart : ∀ position, cell filter hash position ≠ place) :
    degree (cell filter) (hash ::ₘ active) place = degree (cell filter) active place := by
  rw [degree_cons, share_apart apart, zero_add]

theorem Active.repeat (holds : Active filter hashes active duplicates) {hash : Uint64}
    (member : hash ∈ active) : Active filter (hash ::ₘ hashes) active (duplicates + 1) where
  within := holds.within.trans (Multiset.le_cons_self hashes hash)
  covers other inside := by
    cases Multiset.mem_cons.mp inside with
    | inl same => exact same ▸ member
    | inr earlier => exact holds.covers other earlier
  count := by rw [Multiset.card_cons, ← holds.count, Nat.add_assoc]
  small := holds.small

theorem Active.extend (holds : Active filter hashes active duplicates) (shaped : Shaped e filter)
    {hash : Uint64} (sound : ¬ Wrapped filter (load (cell filter) weight (hash ::ₘ active)) hash) :
    Active filter (hash ::ₘ hashes) (hash ::ₘ active) duplicates where
  within := (Multiset.cons_le_cons_iff hash).mpr holds.within
  covers other inside := by
    cases Multiset.mem_cons.mp inside with
    | inl same => exact same ▸ Multiset.mem_cons_self hash active
    | inr earlier => exact Multiset.mem_cons_of_mem (holds.covers other earlier)
  count := by
    have count := holds.count
    rw [Multiset.card_cons, Multiset.card_cons]
    omega
  small place := by
    have small := holds.small place
    by_cases apart : ∀ position, cell filter hash position ≠ place
    · rw [degree_apart apart]
      exact small
    · push Not at apart
      obtain ⟨position, rfl⟩ := apart
      have more := shaped.degree_cell active hash position
      -- A 64th hash would have turned the count to zero.
      have counted : ¬ degree (cell filter) (hash ::ₘ active) (cell filter hash position) % 64 = 0 :=
        fun none => sound ⟨position, load_empty.mpr none⟩
      omega

theorem Active.crowd (holds : Active filter hashes active duplicates) (shaped : Shaped e filter)
    {hash : Uint64} (wrapped : Wrapped filter (load (cell filter) weight (hash ::ₘ active)) hash) :
    ∃ place, 64 ≤ degree (cell filter) (hash ::ₘ hashes) place := by
  obtain ⟨position, few⟩ := wrapped
  have none := load_empty.mp few
  have more := shaped.degree_cell active hash position
  have fewer := degree_mono (cell filter) (cell filter hash position)
    ((Multiset.cons_le_cons_iff hash).mpr holds.within)
  exact ⟨cell filter hash position, by omega⟩

theorem Active.next (holds : Active filter hashes active duplicates) (shaped : Shaped e filter)
    (hash : Uint64) : ∃ next, countHash filter
      { tables := Tables.of filter.arrayLength.toNat (load (cell filter) weight active)
        duplicates, error := false } hash = .ok next ∧ Passing filter (hash ::ₘ hashes) next := by
  rw [shaped.countHash_eq]
  refine ⟨_, rfl, ?_⟩
  by_cases repeated : Repeated filter (load (cell filter) weight active) hash
  · have member := holds.repeated shaped repeated
    have sound : ¬ Wrapped filter (load (cell filter) weight active) hash := by
      intro wrapped
      obtain ⟨position, few⟩ := wrapped
      have small := holds.small (cell filter hash position)
      have none := load_empty.mp few
      have zero : degree (cell filter) active (cell filter hash position) = 0 := by omega
      exact degree_eq_zero.mp zero hash member position rfl
    rw [if_pos repeated, decide_eq_false sound]
    exact Passing.clean (holds.repeat member)
  · rw [if_neg repeated, added_load]
    by_cases wrapped : Wrapped filter (load (cell filter) weight (hash ::ₘ active)) hash
    · obtain ⟨place, many⟩ := holds.crowd shaped wrapped
      rw [decide_eq_true wrapped]
      exact Passing.crowded many
    · rw [decide_eq_false wrapped]
      exact Passing.clean (holds.extend shaped wrapped)

theorem Passing.next {counted : Counted} (passing : Passing filter hashes counted)
    (shaped : Shaped e filter) (hash : Uint64) :
    ∃ next, countHash filter counted hash = .ok next ∧ Passing filter (hash ::ₘ hashes) next := by
  cases passing with
  | clean holds => exact holds.next shaped hash
  | @crowded tally duplicates place many =>
      have more := degree_mono (cell filter) place (Multiset.le_cons_self hashes hash)
      rw [shaped.countHash_eq, Bool.true_or, Bool.true_or]
      refine ⟨_, rfl, ?_⟩
      split
      · exact Passing.crowded (le_trans many more)
      · exact Passing.crowded (le_trans many more)

/-- The pass never faults, and without an error the tables hold every hash. -/
theorem Shaped.countHashes_passing (shaped : Shaped e filter) {size total : Nat}
    (within : size ≤ total) (order : Nat → Uint64) :
    ∃ counted, countHashes filter (tabulate total order) size
        (Tables.of filter.arrayLength.toNat fun _ => 0) = .ok counted ∧
      Passing filter ((Multiset.range size).map order) counted := by
  have empty : (fun _ => 0) = load (cell filter) weight 0 := funext fun _ => load_zero.symm
  have start : Passing filter ((Multiset.range 0).map order)
      { tables := Tables.of filter.arrayLength.toNat fun _ => 0, duplicates := 0, error := false } := by
    rw [empty]
    exact Passing.clean
      { within := le_refl _, covers := by simp, count := by simp, small := by simp [degree] }
  have step : ∀ i counted, i < size → Passing filter ((Multiset.range i).map order) counted →
      ∃ next, (loadAt (tabulate total order) i >>= countHash filter counted) = .ok next ∧
        Passing filter ((Multiset.range (i + 1)).map order) next := by
    intro i counted below passing
    obtain ⟨next, counts, more⟩ := passing.next shaped (order i)
    refine ⟨next, ?_, ?_⟩
    · rw [loadAt_tabulate (by omega), Checked.ok_bind, counts]
    · rw [Multiset.range_succ, Multiset.map_cons]
      exact more
  obtain ⟨counted, ran, passing⟩ := strideLoop_invariant
    (fun i counted => Passing filter ((Multiset.range i).map order) counted) step
    (Nat.zero_le size) start
  refine ⟨counted, ?_, passing⟩
  rw [countHashes, ran]
  rfl

end Pass

end Quickbloom.Fuse
