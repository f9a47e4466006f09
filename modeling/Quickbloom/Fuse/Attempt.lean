import Quickbloom.Data.Mixing
import Quickbloom.Fuse.Assign
import Quickbloom.Fuse.Dedup
import Quickbloom.Fuse.Placing

namespace Quickbloom.Fuse

open Quickbloom.Data Quickbloom.Machine Quickbloom.Peeling
open Quickbloom.Source (Uint32 Uint64)
open Quickbloom.Source.BinaryFuse

/-! # One attempt

An attempt starts from cleared arrays. It ends with all hashes on the stack, or
it clears the arrays again for the next seed.
-/

section Hash

theorem murmur64_injective : Function.Injective binaryFuseMurmur64 := by
  have shift := @xorShiftRight_injective 64 33 (by omega)
  have first := mul_unit_injective _
    (by decide : (0xff51afd7ed558ccd : Uint64) * 0x4f74430c22a54005 = 1)
  have second := mul_unit_injective _
    (by decide : (0xc4ceb9fe1a85ec53 : Uint64) * 0x9cb4b2f8129337db = 1)
  exact shift.comp (second.comp (shift.comp (first.comp shift)))

theorem mixSplit_injective (seed : Uint64) :
    Function.Injective fun key => binaryFuseMixSplit key seed := by
  intro left right same
  have sums : left + seed = right + seed := murmur64_injective same
  exact (BitVec.add_left_inj seed).mp sums

theorem mixSplit_zero {key seed : Uint64} : binaryFuseMixSplit key seed = 0 ↔ key + seed = 0 := by
  have zero : binaryFuseMurmur64 0 = 0 := by decide
  refine ⟨fun same => murmur64_injective (same.trans zero.symm), fun same => ?_⟩
  rw [binaryFuseMixSplit, same, zero]

theorem hashes_nodup {keys : List Uint64} (nodup : keys.Nodup) (seed : Uint64) :
    (hashes seed keys).Nodup :=
  Multiset.coe_nodup.mpr (nodup.map (mixSplit_injective seed))

end Hash

/-- The arrays have room for `total` keys, and the place behind the keys that
are left stops the pointers. -/
structure Sized (filter : BinaryFuse8) (blockBits total : Nat) (state : Population) : Prop where
  few : state.size.toNat ≤ total
  order : ∃ slot, state.work.reverseOrder = tabulate (total + 1) slot ∧ slot state.size.toNat ≠ 0
  alone : state.work.alone.length = filter.arrayLength.toNat
  t2count : state.work.t2count.length = filter.arrayLength.toNat
  reverseH : state.work.reverseH.length = total
  t2hash : state.work.t2hash.length = filter.arrayLength.toNat
  startPos : state.work.startPos.length = 2 ^ blockBits

structure Cleared (filter : BinaryFuse8) (blockBits total : Nat) (state : Population) : Prop
    extends Sized filter blockBits total state where
  free : ∀ place < state.size.toNat, state.work.reverseOrder[place]? = some 0
  tables : { t2count := state.work.t2count, t2hash := state.work.t2hash } =
    Tables.of filter.arrayLength.toNat fun _ => 0

/-- The keys that are left are those of the buffer, without some repetitions. -/
structure SameKeys (buffer : List Uint64) (total : Nat) (state : Population) : Prop where
  length : state.keys.length = buffer.length
  members : ∀ key, key ∈ state.keys.take state.size.toNat ↔ key ∈ buffer.take total
  whole : ∀ key, key ∈ state.keys.take total ↔ key ∈ buffer.take total
  untouched : (buffer.take total).Nodup → state.keys = buffer ∧ state.size.toNat = total

section Again

variable {filter : BinaryFuse8} {blockBits total : Nat} {state : Population}

theorem Sized.again (sized : Sized filter blockBits total state) :
    ∃ next, state.again filter.arrayLength.toNat = .ok next ∧
      Cleared filter blockBits total next ∧ next.keys = state.keys ∧ next.size = state.size ∧
      (next.seed, next.rngCounter) = binaryFuseRngSplitmix64 state.rngCounter := by
  obtain ⟨slot, order, stops⟩ := sized.order
  have few := sized.few
  have clearedOrder : clearFirst 0 state.size.toNat state.work.reverseOrder = .ok
      (tabulate (total + 1) fun place => if place < state.size.toNat then 0 else slot place) := by
    rw [order]
    exact clearFirst_tabulate (by omega)
  have ran : state.again filter.arrayLength.toNat = .ok { state with
      seed := (binaryFuseRngSplitmix64 state.rngCounter).1
      rngCounter := (binaryFuseRngSplitmix64 state.rngCounter).2
      work := { state.work with
        reverseOrder := tabulate (total + 1) fun place =>
          if place < state.size.toNat then 0 else slot place
        t2count := tabulate filter.arrayLength.toNat fun _ => 0
        t2hash := tabulate filter.arrayLength.toNat fun _ => 0 } } := by
    rw [Population.again, clearedOrder, Checked.ok_bind, clearFirst_all sized.t2count,
      Checked.ok_bind, clearFirst_all sized.t2hash, Checked.ok_bind]
    rfl
  refine ⟨_, ran, ?_, rfl, rfl, rfl⟩
  exact {
    few := few
    order := ⟨_, rfl, by simpa using stops⟩
    alone := sized.alone
    t2count := tabulate_length
    reverseH := sized.reverseH
    t2hash := tabulate_length
    startPos := sized.startPos
    free := fun place bound => by
      have inside : place < state.size.toNat := bound
      change (tabulate (total + 1) _)[place]? = some 0
      rw [tabulate_getElem? (by omega), if_pos inside]
    tables := (tables_zero _).symm }

end Again

/-- No two keys are the same, or the hash of no key is the empty place. -/
def SafeSeed (keys : List Uint64) (seed : Uint64) : Prop :=
  keys.Nodup ∨ ∀ key ∈ keys, key + seed ≠ 0

/-- Under this seed no cell gets 64 hashes, and the hashes can be peeled. -/
def GoodSeed (filter : BinaryFuse8) (keys : List Uint64) (seed : Uint64) : Prop :=
  (∀ place, degree (cell filter) (hashes seed keys) place < 64) ∧
    Peelable (cell filter) (hashes seed keys)

section Counted

variable {e : Nat} {filter : BinaryFuse8} {blockBits total : Nat} {state : Population}

/-- The places after the keys were sorted by segment, and the pass over them. -/
theorem Cleared.counted (cleared : Cleared filter blockBits total state) (shaped : Shaped e filter)
    (positive : 1 ≤ blockBits) (bits : blockBits ≤ 31)
    (enough : state.size.toNat ≤ state.keys.length) :
    ∃ startPos slot pointer counted,
      startPositions state.size blockBits state.work.startPos = .ok startPos ∧
      placeKeys state.seed blockBits state.keys state.size.toNat
        { reverseOrder := state.work.reverseOrder, startPos } =
          .ok (Placing.of (total + 1) (2 ^ blockBits) slot pointer) ∧
      countHashes filter (tabulate (total + 1) slot) state.size.toNat
        { t2count := state.work.t2count, t2hash := state.work.t2hash } = .ok counted ∧
      slot state.size.toNat ≠ 0 ∧
      (Multiset.range state.size.toNat).map slot =
        hashes state.seed (state.keys.take state.size.toNat) ∧
      Passing filter (hashes state.seed (state.keys.take state.size.toNat)) counted := by
  obtain ⟨slot, order, stops⟩ := cleared.order
  have few := cleared.few
  have free : ∀ place < state.size.toNat, slot place = 0 := by
    intro place bound
    have found := cleared.free place bound
    rw [order, tabulate_getElem? (by omega)] at found
    exact Option.some.inj found
  have start := Buckets.start (Nat.two_pow_pos blockBits) stops free
    (startPosition_zero state.size blockBits) (fun segment known => startPosition_le known)
  obtain ⟨placedSlot, pointer, placed, sentinel, content⟩ :=
    placeKeys_returns positive bits (show state.size.toNat < total + 1 by omega) start state.seed
      enough
  obtain ⟨counted, counts, passing⟩ := shaped.countHashes_passing
    (show state.size.toNat ≤ total + 1 by omega) placedSlot
  rw [content] at passing
  refine ⟨_, placedSlot, pointer, counted, startPositions_eq bits cleared.startPos, ?_, ?_,
    sentinel, content, passing⟩
  · rw [order]
    exact placed
  · rw [cleared.tables]
    exact counts

end Counted

section Overlay

variable {size total : Nat} {slot : Nat → Uint64} {stack : List (Uint64 × Fin 3)}

/-- The places after the stack was written over the first of them. -/
theorem overlay_slots (short : stack.length ≤ size) (within : size ≤ total)
    (slot : Nat → Uint64) :
    ∃ next, stack.map Prod.fst ++ (tabulate (total + 1) slot).drop stack.length =
        tabulate (total + 1) next ∧ next size = slot size ∧
      ∀ place < size, next place = slot place ∨ ∃ pair ∈ stack, next place = pair.1 := by
  have length : (stack.map Prod.fst ++ (tabulate (total + 1) slot).drop stack.length).length =
      total + 1 := by
    simp
    omega
  have entries := eq_tabulate
    (stack.map Prod.fst ++ (tabulate (total + 1) slot).drop stack.length) 0
  rw [length] at entries
  have beyond : ∀ place ≤ size, stack.length ≤ place →
      (stack.map Prod.fst ++ (tabulate (total + 1) slot).drop stack.length).getD place 0 =
        slot place := by
    intro place bound above
    rw [List.getD_eq_getElem?_getD, List.getElem?_append_right (by simpa using above),
      List.length_map, List.getElem?_drop, Nat.add_sub_cancel' above,
      tabulate_getElem? (by omega), Option.getD_some]
  refine ⟨_, entries, beyond size (le_refl _) short, ?_⟩
  intro place bound
  by_cases above : stack.length ≤ place
  · exact Or.inl (beyond place (by omega) above)
  · have below : place < stack.length := by omega
    have inside : place < (stack.map Prod.fst).length := by simpa using above
    refine Or.inr ⟨stack[place], List.getElem_mem below, ?_⟩
    rw [List.getD_eq_getElem?_getD, List.getElem?_append_left inside,
      List.getElem?_eq_getElem inside, Option.getD_some, List.getElem_map]

end Overlay

section End

variable {e : Nat} {filter : BinaryFuse8} {blockBits total : Nat}
  {state : Population} {startPos : List (Option Nat)} {slot : Nat → Uint64} {pointer : Nat → Nat}

theorem attempt_crowded (lib : Libc)
    (started : startPositions state.size blockBits state.work.startPos = .ok startPos)
    (placed : placeKeys state.seed blockBits state.keys state.size.toNat
      { reverseOrder := state.work.reverseOrder, startPos } =
        .ok (Placing.of (total + 1) (2 ^ blockBits) slot pointer))
    {tally : Nat → Tally} {duplicates : Nat}
    (counts : countHashes filter (tabulate (total + 1) slot) state.size.toNat
      { t2count := state.work.t2count, t2hash := state.work.t2hash } =
        .ok { tables := Tables.of filter.arrayLength.toNat tally, duplicates, error := true })
    (sized : Sized filter blockBits total state) (sentinel : slot state.size.toNat ≠ 0) :
    ∃ next, attempt lib filter blockBits state = .ok (false, next) ∧
      Cleared filter blockBits total next ∧ next.keys = state.keys ∧ next.size = state.size ∧
      (next.seed, next.rngCounter) = binaryFuseRngSplitmix64 state.rngCounter := by
  have spent : Sized filter blockBits total { state with work := { state.work with
      reverseOrder := tabulate (total + 1) slot
      startPos := tabulate (2 ^ blockBits) fun segment => some (pointer segment)
      t2count := (Tables.of filter.arrayLength.toNat tally).t2count
      t2hash := (Tables.of filter.arrayLength.toNat tally).t2hash } } :=
    { few := sized.few
      order := ⟨slot, rfl, sentinel⟩
      alone := sized.alone
      t2count := tabulate_length
      reverseH := sized.reverseH
      t2hash := tabulate_length
      startPos := tabulate_length }
  obtain ⟨next, ran, cleared⟩ := spent.again
  refine ⟨next, ?_, cleared⟩
  simp only [attempt, started, placed, Placing.of, counts, Checked.ok_bind, ↓reduceIte, ran,
    Checked.pure_eq_ok]

/-- What is known where the counting pass ended without an error. -/
structure Clean (filter : BinaryFuse8) (blockBits total : Nat) (state : Population)
    (startPos : List (Option Nat)) (slot : Nat → Uint64) (pointer : Nat → Nat)
    (active : Multiset Uint64) (duplicates : Nat) : Prop where
  started : startPositions state.size blockBits state.work.startPos = .ok startPos
  placed : placeKeys state.seed blockBits state.keys state.size.toNat
    { reverseOrder := state.work.reverseOrder, startPos } =
      .ok (Placing.of (total + 1) (2 ^ blockBits) slot pointer)
  counts : countHashes filter (tabulate (total + 1) slot) state.size.toNat
    { t2count := state.work.t2count, t2hash := state.work.t2hash } =
      .ok { tables := Tables.of filter.arrayLength.toNat (load (cell filter) weight active)
            duplicates, error := false }
  active : Active filter (hashes state.seed (state.keys.take state.size.toNat)) active duplicates
  enough : state.size.toNat ≤ state.keys.length

/-- The work arrays with what an attempt without error leaves in them. -/
def workAfter (blockBits : Nat) (pointer : Nat → Nat) (peel : Peel) : Workspace :=
  { reverseOrder := peel.reverseOrder, alone := peel.alone, t2count := peel.tables.t2count
    reverseH := peel.reverseH, t2hash := peel.tables.t2hash
    startPos := tabulate (2 ^ blockBits) fun segment => some (pointer segment) }

section Clean

variable {active : Multiset Uint64} {duplicates : Nat}

/-- The attempt up to its last test. -/
theorem Clean.attempt_eq (clean : Clean filter blockBits total state startPos slot pointer active
    duplicates) (lib : Libc) (shaped : Shaped e filter)
    (sized : Sized filter blockBits total state) :
    ∃ left stack peel,
      Peels filter { edges := active, order := tabulate (total + 1) slot, found := state.work.reverseH }
        left stack [] peel ∧
      (stack.length = active.card ↔ Peelable (cell filter) active) ∧
      attempt lib filter blockBits state =
        if BitVec.ofNat 32 (stack.length + duplicates) = state.size then
          .ok (true, { state with
            size := BitVec.ofNat 32 stack.length, work := workAfter blockBits pointer peel })
        else do
          let state ← if 0 < duplicates then do
              let kept ← binaryFuseSortAndRemoveDup lib state.keys state.size.toNat
              pure { state with
                keys := kept.1, size := BitVec.ofNat 32 kept.2
                work := workAfter blockBits pointer peel }
            else pure { state with work := workAfter blockBits pointer peel }
          let state ← state.again filter.arrayLength.toNat
          return (false, state) := by
  have few := sized.few
  have count := clean.active.count
  have enough := clean.enough
  rw [hashes_card, List.length_take, Nat.min_eq_left enough] at count
  have ready : Before.Ready
      { edges := active, order := tabulate (total + 1) slot, found := state.work.reverseH } filter :=
    { small := clean.active.small
      order := by
        simp only [tabulate_length]
        omega
      found := by
        simp only [sized.reverseH]
        omega }
  obtain ⟨collected, collects, left, stack, peel, ran, peels, exact_⟩ :=
    peel_returns shaped ready sized.alone (show active.card ≤ state.size.toNat by omega)
  refine ⟨left, stack, peel, peels, exact_, ?_⟩
  simp only [attempt, clean.started, clean.placed, Placing.of, clean.counts, Checked.ok_bind,
    Bool.false_eq_true, ↓reduceIte, collects, ran, peels.stacksize, Checked.pure_eq_ok]
  rfl

theorem Clean.unique (clean : Clean filter blockBits total state startPos slot pointer active
    duplicates) (nodup : (state.keys.take state.size.toNat).Nodup) :
    active = hashes state.seed (state.keys.take state.size.toNat) ∧ duplicates = 0 := by
  have same : active = hashes state.seed (state.keys.take state.size.toNat) :=
    le_antisymm clean.active.within
      ((Multiset.le_iff_subset (hashes_nodup nodup state.seed)).mpr fun _ member =>
        clean.active.covers _ member)
  have count := clean.active.count
  rw [same] at count
  exact ⟨same, by omega⟩

end Clean

end End

/-- All keys are on the stack in a peeling order. -/
structure Finished (filter : BinaryFuse8) (buffer : List Uint64) (total : Nat) (seed : Uint64)
    (state : Population) : Prop where
  drawn : state.seed = seed
  length : state.keys.length = buffer.length
  whole : ∀ key, key ∈ state.keys.take total ↔ key ∈ buffer.take total
  stack : ∃ stack : List (Uint64 × Fin 3), state.size = BitVec.ofNat 32 stack.length ∧
    stack.length < 2 ^ 32 ∧ stack.map Prod.fst <+: state.work.reverseOrder ∧
    stack.map foundByte <+: state.work.reverseH ∧ PeelOrder (cell filter) stack ∧
    ∀ key ∈ buffer.take total, binaryFuseMixSplit key seed ∈ taken stack

/-- All is ready for another seed. -/
structure Restarted (filter : BinaryFuse8) (blockBits : Nat) (buffer : List Uint64) (total : Nat)
    (rngCounter : Uint64) (state : Population) : Prop where
  cleared : Cleared filter blockBits total state
  same : SameKeys buffer total state
  drawn : (state.seed, state.rngCounter) = binaryFuseRngSplitmix64 rngCounter

section Whole

variable {e : Nat} {lib : Libc} {filter : BinaryFuse8} {blockBits total : Nat}
  {buffer : List Uint64} {state : Population}

theorem SameKeys.nodup (same : SameKeys buffer total state) (nodup : (buffer.take total).Nodup) :
    state.keys.take state.size.toNat = buffer.take total := by
  obtain ⟨keys, size⟩ := same.untouched nodup
  rw [keys, size]

theorem SameKeys.safe (same : SameKeys buffer total state)
    (safe : SafeSeed (buffer.take total) state.seed) (repeated : ¬ (buffer.take total).Nodup) :
    ∀ hash ∈ hashes state.seed (state.keys.take state.size.toNat), hash ≠ 0 := by
  intro hash member zero
  obtain ⟨key, inside, hashed⟩ := mem_hashes.mp member
  have nonzero := safe.resolve_left repeated key ((same.members key).mp inside)
  exact nonzero (mixSplit_zero.mp (hashed.trans zero))

/-- What an attempt ends with. Where no key is repeated, it is the last one
exactly if its seed is good. -/
structure Attempted (filter : BinaryFuse8) (blockBits : Nat) (buffer : List Uint64) (total : Nat)
    (state : Population) (result : Bool × Population) : Prop where
  finished : result.1 = true → Finished filter buffer total state.seed result.2
  restarted : result.1 = false →
    Restarted filter blockBits buffer total state.rngCounter result.2
  decided : (buffer.take total).Nodup →
    (result.1 = true ↔ GoodSeed filter (buffer.take total) state.seed)

theorem SameKeys.restart (same : SameKeys buffer total state) {next : Population}
    (keys : next.keys = state.keys) (size : next.size = state.size) :
    SameKeys buffer total next where
  length := keys ▸ same.length
  members := by rw [keys, size]; exact same.members
  whole := by rw [keys]; exact same.whole
  untouched := by rw [keys, size]; exact same.untouched

section Clean

variable {startPos : List (Option Nat)} {slot : Nat → Uint64} {pointer : Nat → Nat}
  {active left : Multiset Uint64} {duplicates : Nat} {stack : List (Uint64 × Fin 3)} {peel : Peel}

theorem Clean.finished (clean : Clean filter blockBits total state startPos slot pointer active
    duplicates) (same : SameKeys buffer total state)
    (peels : Peels filter
      { edges := active, order := tabulate (total + 1) slot, found := state.work.reverseH }
      left stack [] peel) (all : stack.length = active.card) :
    Finished filter buffer total state.seed { state with
      size := BitVec.ofNat 32 stack.length, work := workAfter blockBits pointer peel } := by
  have length := peels.progress.length
  have none : left = 0 := Multiset.card_eq_zero.mp (by simp only at length; omega)
  have parts := peels.progress.parts
  rw [none, add_zero] at parts
  have count := clean.active.count
  rw [hashes_card, List.length_take] at count
  have small := state.size.isLt
  refine ⟨rfl, same.length, same.whole, stack, rfl, by omega, ?_, ?_, peels.progress.peels, ?_⟩
  · simp only [workAfter, peels.order]
    exact List.prefix_append _ _
  · simp only [workAfter, peels.found]
    exact List.prefix_append _ _
  · intro key member
    rw [parts]
    exact clean.active.covers _ (mem_hashes.mpr ⟨key, (same.members key).mpr member, rfl⟩)

theorem Clean.stack_short (clean : Clean filter blockBits total state startPos slot pointer active
    duplicates) (peels : Peels filter
      { edges := active, order := tabulate (total + 1) slot, found := state.work.reverseH }
      left stack [] peel) : stack.length + duplicates ≤ state.size.toNat := by
  have length := peels.progress.length
  have count := clean.active.count
  rw [hashes_card, List.length_take] at count
  simp only at length
  omega

/-- The arrays an attempt leaves fit a smaller count of keys too, if no hash
that may now stand behind them reads as an empty place. -/
theorem Clean.spent (clean : Clean filter blockBits total state startPos slot pointer active
    duplicates) (sized : Sized filter blockBits total state) (sentinel : slot state.size.toNat ≠ 0)
    (content : (Multiset.range state.size.toNat).map slot =
      hashes state.seed (state.keys.take state.size.toNat))
    (peels : Peels filter
      { edges := active, order := tabulate (total + 1) slot, found := state.work.reverseH }
      left stack [] peel) (keys : List Uint64) {size : Uint32}
    (fewer : size = state.size ∨ size.toNat ≤ state.size.toNat ∧
      ∀ hash ∈ hashes state.seed (state.keys.take state.size.toNat), hash ≠ 0) :
    Sized filter blockBits total { state with
      keys, size, work := workAfter blockBits pointer peel } := by
  have few := sized.few
  have short := clean.stack_short peels
  obtain ⟨next, order, kept, entries⟩ :=
    overlay_slots (show stack.length ≤ state.size.toNat by omega) sized.few slot
  obtain ⟨tally, tables, _⟩ := peels.tables
  have stops : next size.toNat ≠ 0 := by
    by_cases same : size = state.size
    · rw [same, kept]
      exact sentinel
    · obtain ⟨bound, nonzero⟩ := fewer.resolve_left same
      have different : size.toNat ≠ state.size.toNat := fun equal => same (BitVec.eq_of_toNat_eq equal)
      have below : size.toNat < state.size.toNat := by omega
      apply nonzero
      rcases entries size.toNat below with old | ⟨pair, member, new⟩
      · rw [old, ← content]
        exact Multiset.mem_map_of_mem slot (Multiset.mem_range.mpr below)
      · rw [new]
        have within := clean.active.within
        have part : pair.1 ∈ active := by
          have parts := peels.progress.parts
          simp only at parts
          rw [← parts]
          exact Multiset.mem_add.mpr (Or.inl (mem_taken.mpr ⟨pair.2, member⟩))
        exact Multiset.mem_of_le within part
  have ordered := peels.order
  have found := peels.found
  have alone := peels.alone.length
  simp only at ordered found
  exact {
    few := by
      rcases fewer with same | less
      · exact same ▸ few
      · exact less.1.trans few
    order := ⟨next, ordered.trans order, stops⟩
    alone := alone
    t2count := by simp [workAfter, tables, Tables.of]
    reverseH := by
      have length := sized.reverseH
      simp only [workAfter, found, List.length_append, List.length_map, List.length_drop, length]
      omega
    t2hash := by simp [workAfter, tables, Tables.of]
    startPos := by simp [workAfter] }

theorem SameKeys.dedup (same : SameKeys buffer total state) (few : state.size.toNat ≤ total)
    {kept : List Uint64 × Nat} (length : kept.1.length = state.keys.length)
    (fits : kept.2 ≤ state.size.toNat)
    (rest : kept.1.drop state.size.toNat = state.keys.drop state.size.toNat)
    (members : ∀ key, key ∈ kept.1.take kept.2 ↔ key ∈ state.keys.take state.size.toNat)
    (front : ∀ key, key ∈ kept.1.take state.size.toNat ↔ key ∈ state.keys.take state.size.toNat)
    (repeated : ¬ (buffer.take total).Nodup) (work : Workspace) :
    SameKeys buffer total { state with
      keys := kept.1, size := BitVec.ofNat 32 kept.2, work } := by
  have small := state.size.isLt
  have size : (BitVec.ofNat 32 kept.2).toNat = kept.2 := by
    rw [BitVec.toNat_ofNat]
    omega
  refine ⟨length.trans same.length, ?_, ?_, fun nodup => absurd nodup repeated⟩
  · intro key
    rw [← same.members key, ← members key]
    simp only [size]
  · intro key
    have parts : total = state.size.toNat + (total - state.size.toNat) := by omega
    rw [← same.whole key]
    simp only
    rw [parts, List.take_add, List.take_add, List.mem_append, List.mem_append, rest, front key]

/-- An attempt that got stuck is ready for another one. -/
theorem Clean.stuck (clean : Clean filter blockBits total state startPos slot pointer active
    duplicates) (sorts : Permutes lib) (same : SameKeys buffer total state)
    (sized : Sized filter blockBits total state) (sentinel : slot state.size.toNat ≠ 0)
    (content : (Multiset.range state.size.toNat).map slot =
      hashes state.seed (state.keys.take state.size.toNat))
    (safe : SafeSeed (buffer.take total) state.seed)
    (peels : Peels filter
      { edges := active, order := tabulate (total + 1) slot, found := state.work.reverseH }
      left stack [] peel) :
    ∃ next, (do
        let state ← if 0 < duplicates then do
            let kept ← binaryFuseSortAndRemoveDup lib state.keys state.size.toNat
            pure { state with
              keys := kept.1, size := BitVec.ofNat 32 kept.2
              work := workAfter blockBits pointer peel }
          else pure { state with work := workAfter blockBits pointer peel }
        let state ← state.again filter.arrayLength.toNat
        return (false, state)) = (.ok (false, next) : Checked (Bool × Population)) ∧
      Restarted filter blockBits buffer total state.rngCounter next := by
  by_cases repeats : 0 < duplicates
  · have short := clean.stack_short peels
    have repeated : ¬ (buffer.take total).Nodup := by
      intro nodup
      have none := (clean.unique (by rw [same.nodup nodup]; exact nodup)).2
      omega
    obtain ⟨kept, ran, length, some, fits, rest, members, front⟩ :=
      sortAndRemoveDup_returns sorts (show 1 ≤ state.size.toNat by omega) clean.enough
    have small := state.size.isLt
    have size : (BitVec.ofNat 32 kept.2).toNat = kept.2 := by
      rw [BitVec.toNat_ofNat]
      omega
    have spent := clean.spent sized sentinel content peels kept.1
      (Or.inr ⟨show (BitVec.ofNat 32 kept.2).toNat ≤ state.size.toNat by omega,
        same.safe safe repeated⟩)
    obtain ⟨next, again, cleared, keys, sizes, drawn⟩ := spent.again
    refine ⟨next, ?_, cleared, ?_, drawn⟩
    · rw [if_pos repeats, ran]
      simp only [Checked.ok_bind, Checked.pure_eq_ok, again]
    · exact (same.dedup sized.few length fits rest members front repeated
        (workAfter blockBits pointer peel)).restart keys sizes
  · have spent := clean.spent sized sentinel content peels state.keys (Or.inl rfl)
    obtain ⟨next, again, cleared, keys, sizes, drawn⟩ := spent.again
    refine ⟨next, ?_, cleared, same.restart keys sizes, drawn⟩
    rw [if_neg repeats]
    simp only [Checked.ok_bind, Checked.pure_eq_ok, again]

end Clean

/-- An attempt returns. -/
theorem attempt_returns (shaped : Shaped e filter) (sorts : Permutes lib) (positive : 1 ≤ blockBits)
    (bits : blockBits ≤ 31) (enough : total ≤ buffer.length)
    (cleared : Cleared filter blockBits total state) (same : SameKeys buffer total state)
    (safe : SafeSeed (buffer.take total) state.seed) :
    ∃ result, attempt lib filter blockBits state = .ok result ∧
      Attempted filter blockBits buffer total state result := by
  have few := cleared.few
  have length := same.length
  obtain ⟨startPos, slot, pointer, counted, started, placed, counts, sentinel, content, passing⟩ :=
    cleared.counted shaped positive bits (by omega)
  cases passing with
  | @crowded tally duplicates place many =>
      obtain ⟨next, ran, again, keys, size, drawn⟩ :=
        attempt_crowded lib started placed counts cleared.toSized sentinel
      refine ⟨(false, next), ran, ?_⟩
      exact {
        finished := fun last => by cases last
        restarted := fun _ => ⟨again, same.restart keys size, drawn⟩
        decided := fun nodup => by
          rw [same.nodup nodup] at many
          refine ⟨fun last => (by cases last), fun good => ?_⟩
          have small := good.1 place
          omega }
  | @clean active duplicates holds =>
      have clean : Clean filter blockBits total state startPos slot pointer active duplicates :=
        ⟨started, placed, counts, holds, by omega⟩
      obtain ⟨left, stack, peel, peels, all, ran⟩ := clean.attempt_eq lib shaped cleared.toSized
      have short := clean.stack_short peels
      have count := holds.count
      rw [hashes_card, List.length_take] at count
      have small := state.size.isLt
      have good : (buffer.take total).Nodup →
          (stack.length = active.card ↔ GoodSeed filter (buffer.take total) state.seed) := by
        intro nodup
        have unique := (clean.unique (by rw [same.nodup nodup]; exact nodup)).1
        rw [same.nodup nodup] at unique
        rw [all, unique, GoodSeed]
        exact (and_iff_right (unique ▸ holds.small)).symm
      by_cases done : stack.length = active.card
      · rw [if_pos (by rw [show stack.length + duplicates = state.size.toNat by omega,
          BitVec.ofNat_toNat, BitVec.setWidth_eq])] at ran
        refine ⟨_, ran, fun _ => clean.finished same peels done, fun last => (by cases last), ?_⟩
        exact fun nodup => ⟨fun _ => (good nodup).mp done, fun _ => rfl⟩
      · have unequal : BitVec.ofNat 32 (stack.length + duplicates) ≠ state.size := by
          intro equal
          have value := congrArg BitVec.toNat equal
          rw [BitVec.toNat_ofNat] at value
          omega
        obtain ⟨next, stuck, restarted⟩ :=
          clean.stuck sorts same cleared.toSized sentinel content safe peels
        rw [if_neg unequal, stuck] at ran
        refine ⟨_, ran, fun last => (by cases last), fun _ => restarted, ?_⟩
        exact fun nodup => ⟨fun last => (by cases last), fun seeded =>
          absurd ((good nodup).mpr seeded) done⟩

end Whole

end Quickbloom.Fuse
