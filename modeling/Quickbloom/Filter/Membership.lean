import Quickbloom.Filter.Runs

namespace Quickbloom.Filter

open Quickbloom.Data Quickbloom.Machine Quickbloom.Source Quickbloom.Probe

/-! # Exact membership -/

/-- Each lane of the block of `h` has the bit of `h` from some inserted hash. -/
def Covered (b : BloomT) (inserted : List Uint64) (h : Uint64) : Prop :=
  ∀ lane, ∃ earlier ∈ inserted,
    blockFor b earlier = blockFor b h ∧ lanePosition lane earlier = lanePosition lane h

def Answers (b : BloomT) (query : Program Nat) (answer : Prop) : Prop :=
  ∃ found, b.run query = .ok (found, b) ∧ (found ≠ 0 ↔ answer)

section Reports

variable {k : Nat} {b : BloomT}

theorem HeaderOf.blockFor_inj (header : HeaderOf k b) {left right : Uint64} :
    blockFor b left = blockFor b right ↔ blockIndex k left = blockIndex k right := by
  rw [header.blockFor_eq, header.blockFor_eq, Except.ok.injEq]
  omega

/-- The probes of a filter that selects its block by `place`, whatever that is. -/
theorem reports_iff_lanes (place : Uint64 → Nat) (inserted : List Uint64) (h : Uint64) :
    Reports (fun h => {cell : Cell | cell.1 = place h ∧ cell.2.2 = lanePosition cell.2.1 h})
        (insertAll (fun h => {cell : Cell | cell.1 = place h ∧
          cell.2.2 = lanePosition cell.2.1 h}) ∅ inserted) h ↔
      ∀ lane, ∃ earlier ∈ inserted,
        place earlier = place h ∧ lanePosition lane earlier = lanePosition lane h := by
  rw [reports_insertAll_empty]
  refine ⟨?_, ?_⟩
  · intro probed lane
    obtain ⟨earlier, member, block, position⟩ :=
      probed (place h, lane, lanePosition lane h) ⟨rfl, rfl⟩
    exact ⟨earlier, member, block.symm, position.symm⟩
  · intro covered cell probed
    obtain ⟨block, lane, t⟩ := cell
    obtain ⟨inBlock, inLane⟩ := probed
    obtain ⟨earlier, member, sameBlock, samePosition⟩ := covered lane
    exact ⟨earlier, member, inBlock.trans sameBlock.symm, inLane.trans samePosition.symm⟩

theorem reports_iff_covered (header : HeaderOf k b) (inserted : List Uint64) (h : Uint64) :
    Reports (probe k) (insertAll (probe k) ∅ inserted) h ↔ Covered b inserted h := by
  simp only [Covered, header.blockFor_inj]
  exact reports_iff_lanes (blockIndex k) inserted h

theorem covered_inserted {inserted : List Uint64} {h : Uint64} (member : h ∈ inserted) :
    Covered b inserted h :=
  fun _ => ⟨h, member, rfl, rfl⟩

theorem not_covered_nil (h : Uint64) : ¬ Covered b [] h := by
  intro covered
  obtain ⟨_, member, _⟩ := covered 0
  cases member

theorem Answers.congr {query : Program Nat} {left right : Prop} (answers : Answers b query left)
    (same : left ↔ right) : Answers b query right := by
  obtain ⟨found, ran, exact⟩ := answers
  exact ⟨found, ran, exact.trans same⟩

theorem WellFormed.answers (valid : WellFormed k b) {inserted : List Uint64}
    (cells : contents b.bits = insertAll (probe k) ∅ inserted) (h : Uint64) :
    Answers b (qbContainsPrehash b h) (Covered b inserted h) := by
  obtain ⟨found, ran, reports⟩ := valid.qbContainsPrehash_run h
  rw [cells, reports_iff_covered valid.toHeaderOf] at reports
  exact ⟨found, ran, reports⟩

end Reports

/-- After every run from `qb_new`, a hash is found exactly if inserted hashes
of its block cover its lanes, and a key exactly if its hash is. A run can only
lose its filter in a reload that is above the ceiling or gets no memory. -/
theorem qbContains_exact {heap : Heap} {nbits : SizeT} {created : BloomT}
    (returned : qbNew heap nbits = .ok (some created)) (build : Build) (events : List Event) :
    ∃ result, eventRun build heap created events = .ok result ∧
      (result = none → Event.reload ∈ events ∧
        ¬ (4 * created.bits.length ≤ build.qbDeserializeMaxBytes.toNat ∧ Heap.Grants heap)) ∧
      ∀ b, result = some b →
        (∀ h, Answers b (qbContainsPrehash b h) (Covered b (events.flatMap Event.hashes) h)) ∧
        (∀ (key : Pointer Byte) (bytes : List Byte), key.Holds bytes →
          ∃ h, bloomHash key bytes.length = .ok h ∧
            Answers b (qbContains b key bytes.length)
              (Covered b (events.flatMap Event.hashes) h)) ∧
        (∀ h ∈ events.flatMap Event.hashes, Answers b (qbContainsPrehash b h) True) ∧
        (events.flatMap Event.hashes = [] → ∀ h, Answers b (qbContainsPrehash b h) False) := by
  obtain ⟨k, bound, rfl, _⟩ := qbNew_returns returned
  have valid := emptyFilter_wellFormed bound
  have size : 4 * (emptyFilter k).bits.length = 32 * 2 ^ k := by
    rw [valid.words]
    omega
  rcases valid.eventRun_ok build heap events with
    ⟨after, ran, afterValid, cells⟩ | ⟨lost, reloaded, refused⟩
  · refine ⟨some after, ran, (fun absent => nomatch absent), ?_⟩
    intro b same
    cases same
    rw [emptyFilter_contents] at cells
    have answers := afterValid.answers cells
    refine ⟨answers, ?_, ?_, ?_⟩
    · intro key bytes holds
      refine ⟨keyHash bytes, bloomHash_eq_keyHash holds, ?_⟩
      rw [qbContains_eq holds]
      exact answers (keyHash bytes)
    · intro h member
      exact (answers h).congr (iff_true_intro (covered_inserted member))
    · intro nothing h
      rw [nothing] at answers
      exact (answers h).congr (iff_false_intro (not_covered_nil h))
  · exact ⟨none, lost, fun _ => ⟨reloaded, by rwa [size]⟩, fun b same => nomatch same⟩

theorem qbContains_exact_reloaded :
    ∃ b, eventRun {} ampleHeap (emptyFilter 3)
        [.insert (.prehash 7), .insert (.prehashes [0xC0FFEE, 5 <<< 61]), .reload,
          .insert (.prehash 9)] = .ok (some b) ∧
      Answers b (qbContainsPrehash b (5 <<< 61)) True ∧
      Answers b (qbContainsPrehash b 9) True := by
  have created : qbNew ampleHeap 2048 = .ok (some (emptyFilter 3)) :=
    @qbNew_blocks ampleHeap ampleHeap_grants 3 (by omega)
  have fits : 4 * (emptyFilter 3).bits.length ≤ ({} : Build).qbDeserializeMaxBytes.toNat := by
    rw [(emptyFilter_wellFormed (by omega)).words]
    decide
  obtain ⟨result, ran, lost, kept⟩ := qbContains_exact created {}
    [.insert (.prehash 7), .insert (.prehashes [0xC0FFEE, 5 <<< 61]), .reload,
      .insert (.prehash 9)]
  cases result with
  | none => exact absurd ⟨fits, ampleHeap_grants⟩ (lost rfl).2
  | some b =>
      obtain ⟨_, _, found, _⟩ := kept b rfl
      exact ⟨b, ran, found _ (by decide), found _ (by decide)⟩

end Quickbloom.Filter
