import Quickbloom.Filter.Runs

namespace Quickbloom.Filter

open Quickbloom.Machine Quickbloom.Source Quickbloom.Probe

/-! # Filters of two sizes

The block index of the smaller filter is a prefix of that of the larger one, so
the smaller filter is the larger one with neighbouring blocks ORed together.
-/

def coarsen (width : Nat) (cell : Cell) : Cell := (cell.1 / width, cell.2)

def orBlocks (bits : Words) (first count : Nat) : M256i :=
  (List.range count).foldl
    (fun sum d => mm256OrSi256 sum (readVector bits (8 * (first + d)))) (mm256Set1Epi32 0)

theorem orBlocks_bit (bits : Words) (first count : Nat) (lane : Fin 8) (t : Nat) :
    (orBlocks bits first count lane).getLsbD t = true ↔
      ∃ d < count, (readVector bits (8 * (first + d)) lane).getLsbD t = true := by
  induction count with
  | zero => simp [orBlocks, mm256Set1Epi32]
  | succ count ih =>
      have step : orBlocks bits first (count + 1) =
          mm256OrSi256 (orBlocks bits first count) (readVector bits (8 * (first + count))) := by
        rw [orBlocks, List.range_succ, List.foldl_append]
        rfl
      rw [step, mm256OrSi256, BitVec.getLsbD_or, Bool.or_eq_true, ih]
      refine ⟨?_, ?_⟩
      · intro found
        rcases found with ⟨d, bound, bit⟩ | bit
        · exact ⟨d, by omega, bit⟩
        · exact ⟨count, by omega, bit⟩
      · intro found
        obtain ⟨d, bound, bit⟩ := found
        rcases Nat.lt_succ_iff_lt_or_eq.mp bound with below | rfl
        · exact .inl ⟨d, below, bit⟩
        · exact .inr bit

section Two

variable {k k' : Nat}

theorem blockIndex_coarsen (order : k ≤ k') (bound : k' ≤ 64) (h : Uint64) :
    blockIndex k' h / 2 ^ (k' - k) = blockIndex k h := by
  have width : 2 ^ (64 - k') * 2 ^ (k' - k) = 2 ^ (64 - k) := by
    rw [← Nat.pow_add]
    congr 1
    omega
  rw [blockIndex, blockIndex, Nat.div_div_eq_div_mul, width]

/-- Coarsening takes what a hash probes in the larger filter to what it probes
in the smaller one. -/
theorem coarsen_probe (order : k ≤ k') (bound : k' ≤ 64) (h : Uint64) :
    coarsen (2 ^ (k' - k)) '' probe k' h = probe k h := by
  have index := blockIndex_coarsen order bound h
  ext ⟨block, lane, t⟩
  refine ⟨?_, ?_⟩
  · intro covered
    obtain ⟨⟨fine, lane', t'⟩, ⟨inBlock, inLane⟩, same⟩ := covered
    cases same
    exact ⟨(congrArg (· / 2 ^ (k' - k)) inBlock).trans index, inLane⟩
  · intro probed
    obtain ⟨inBlock, inLane⟩ := probed
    refine ⟨(blockIndex k' h, lane, t), ⟨rfl, inLane⟩, ?_⟩
    change (blockIndex k' h / 2 ^ (k' - k), lane, t) = (block, lane, t)
    rw [index, ← show block = blockIndex k h from inBlock]

variable {small large : BloomT}

theorem readVector_coarsen (order : k ≤ k') (valid : WellFormed k small)
    (largeValid : WellFormed k' large)
    (cells : coarsen (2 ^ (k' - k)) '' contents large.bits = contents small.bits)
    {block : Nat} (inside : block < 2 ^ k) :
    readVector small.bits (8 * block) =
      orBlocks large.bits (block * 2 ^ (k' - k)) (2 ^ (k' - k)) := by
  have width : 2 ^ k * 2 ^ (k' - k) = 2 ^ k' := by rw [← Nat.pow_add, Nat.add_sub_cancel' order]
  have positive := Nat.two_pow_pos (k' - k)
  have within : ∀ d < 2 ^ (k' - k), 8 * (block * 2 ^ (k' - k) + d) + 8 ≤ large.bits.length := by
    intro d bound
    have next : (block + 1) * 2 ^ (k' - k) ≤ 2 ^ k * 2 ^ (k' - k) := Nat.mul_le_mul_right _ inside
    rw [Nat.add_mul, Nat.one_mul, width] at next
    exact block_inside largeValid.words (by omega)
  funext lane
  apply BitVec.eq_of_getLsbD_eq
  intro t _
  rw [Bool.eq_iff_iff, orBlocks_bit, ← mem_contents_iff (block_inside valid.words inside), ← cells]
  refine ⟨?_, ?_⟩
  · intro covered
    obtain ⟨⟨fine, lane', t'⟩, present, same⟩ := covered
    cases same
    have position : fine / 2 ^ (k' - k) * 2 ^ (k' - k) + fine % 2 ^ (k' - k) = fine :=
      Nat.div_add_mod' fine _
    have remainder := Nat.mod_lt fine positive
    refine ⟨fine % 2 ^ (k' - k), remainder, ?_⟩
    rw [← mem_contents_iff (within _ remainder), position]
    exact present
  · intro found
    obtain ⟨d, bound, bit⟩ := found
    rw [← mem_contents_iff (within d bound)] at bit
    refine ⟨_, bit, ?_⟩
    change ((block * 2 ^ (k' - k) + d) / 2 ^ (k' - k), lane, t) = (block, lane, t)
    rw [Nat.mul_comm, Nat.mul_add_div positive, Nat.div_eq_of_lt bound, Nat.add_zero]

theorem insertRun_coarsen (order : k ≤ k') (bound : k' ≤ 31) (operands : List Operand) :
    ∃ small large, insertRun (emptyFilter k) operands = .ok small ∧
      insertRun (emptyFilter k') operands = .ok large ∧
      WellFormed k small ∧ WellFormed k' large ∧
      coarsen (2 ^ (k' - k)) '' contents large.bits = contents small.bits := by
  obtain ⟨small, ran, valid, cells⟩ :=
    (emptyFilter_wellFormed (Nat.le_trans order bound)).insertRun_ok operands
  obtain ⟨large, largeRan, largeValid, largeCells⟩ :=
    (emptyFilter_wellFormed bound).insertRun_ok operands
  refine ⟨small, large, ran, largeRan, valid, largeValid, ?_⟩
  rw [largeCells, cells, image_insertAll (coarsen_probe order (by omega)), emptyFilter_contents,
    emptyFilter_contents, Set.image_empty]

end Two

def Present (b : BloomT) (h : Uint64) : Prop :=
  ∃ found, b.run (qbContainsPrehash b h) = .ok (found, b) ∧ found ≠ 0

theorem WellFormed.present_iff {k : Nat} {b : BloomT} (valid : WellFormed k b) (h : Uint64) :
    Present b h ↔ Reports (probe k) (contents b.bits) h := by
  obtain ⟨found, ran, reports⟩ := valid.qbContainsPrehash_run h
  rw [← reports]
  refine ⟨?_, ?_⟩
  · intro present
    obtain ⟨other, same, nonzero⟩ := present
    rw [ran] at same
    cases same
    exact nonzero
  · intro nonzero
    exact ⟨found, ran, nonzero⟩

theorem present_coarsen {k k' : Nat} {small large : BloomT} (order : k ≤ k')
    (valid : WellFormed k small) (largeValid : WellFormed k' large)
    (cells : coarsen (2 ^ (k' - k)) '' contents large.bits = contents small.bits) {h : Uint64}
    (present : Present large h) : Present small h := by
  have bound := largeValid.bound
  rw [largeValid.present_iff] at present
  rw [valid.present_iff, ← cells]
  exact present.image (coarsen_probe order (by omega))

theorem qbNew_mono {heap : Heap} {nbits nbits' : SizeT} {b b' : BloomT} (order : nbits ≤ nbits')
    (exact : nbits'.toNat + 255 < 2 ^ 64) (created : qbNew heap nbits = .ok (some b))
    (created' : qbNew heap nbits' = .ok (some b')) :
    ∃ k k', k ≤ k' ∧ k' ≤ 31 ∧ b = emptyFilter k ∧ b' = emptyFilter k' := by
  obtain ⟨k, _, rfl, least⟩ := qbNew_returns created
  obtain ⟨k', bound, rfl, least'⟩ := qbNew_returns created'
  have requested : requestedBlocks nbits ≤ requestedBlocks nbits' := by
    rw [BitVec.le_def] at order
    rw [requestedBlocks, requestedBlocks, Nat.mod_eq_of_lt exact, Nat.mod_eq_of_lt (by omega)]
    omega
  have blocks : 2 ^ k ≤ 2 ^ k' := least.2 ⟨least'.1.1, Nat.le_trans requested least'.1.2⟩
  exact ⟨k, k', (Nat.pow_le_pow_iff_right (by omega)).mp blocks, bound, rfl, rfl⟩

/-- After the same inserts, the blocks of the smaller of two filters are the
ORs of the blocks of the larger one, and what the larger one reports present
the smaller one reports too. In particular a larger request to `qb_new` does
not add false positives. -/
theorem resize_noFalsePositives :
    (∀ (k k' : Nat) (operands : List Operand), k ≤ k' → k' ≤ 31 →
      ∃ small large, insertRun (emptyFilter k) operands = .ok small ∧
        insertRun (emptyFilter k') operands = .ok large ∧
        (small.bits.length = 8 * 2 ^ k ∧ large.bits.length = 8 * 2 ^ k') ∧
        (∀ block < 2 ^ k, readVector small.bits (8 * block) =
          orBlocks large.bits (block * 2 ^ (k' - k)) (2 ^ (k' - k))) ∧
        ∀ h, Present large h → Present small h) ∧
    (∀ (heap : Heap) (nbits nbits' : SizeT) (b b' : BloomT) (operands : List Operand),
      nbits ≤ nbits' → nbits'.toNat + 255 < 2 ^ 64 →
      qbNew heap nbits = .ok (some b) → qbNew heap nbits' = .ok (some b') →
      ∃ small large, insertRun b operands = .ok small ∧ insertRun b' operands = .ok large ∧
        ∀ h, Present large h → Present small h) := by
  refine ⟨?_, ?_⟩
  · intro k k' operands order bound
    obtain ⟨small, large, ran, largeRan, valid, largeValid, cells⟩ :=
      insertRun_coarsen order bound operands
    refine ⟨small, large, ran, largeRan, ⟨valid.words, largeValid.words⟩, ?_, ?_⟩
    · intro block inside
      exact readVector_coarsen order valid largeValid cells inside
    · intro h present
      exact present_coarsen order valid largeValid cells present
  · intro heap nbits nbits' b b' operands order exact created created'
    obtain ⟨k, k', blocks, bound, rfl, rfl⟩ := qbNew_mono order exact created created'
    obtain ⟨small, large, ran, largeRan, valid, largeValid, cells⟩ :=
      insertRun_coarsen blocks bound operands
    refine ⟨small, large, ran, largeRan, ?_⟩
    intro h present
    exact present_coarsen blocks valid largeValid cells present

theorem resize_noFalsePositives_double :
    (∃ small large, insertRun (emptyFilter 1) [.prehash 7, .prehashes [0xC0FFEE, 7 <<< 61]] =
        .ok small ∧
      insertRun (emptyFilter 3) [.prehash 7, .prehashes [0xC0FFEE, 7 <<< 61]] = .ok large ∧
      (small.bits.length = 8 * 2 ^ 1 ∧ large.bits.length = 8 * 2 ^ 3) ∧
      (∀ block < 2 ^ 1, readVector small.bits (8 * block) =
        orBlocks large.bits (block * 2 ^ (3 - 1)) (2 ^ (3 - 1))) ∧
      ∀ h, Present large h → Present small h) ∧
    ∃ b b' small large, qbNew ampleHeap 512 = .ok (some b) ∧
      qbNew ampleHeap 2048 = .ok (some b') ∧
      insertRun b [.prehash 7, .prehashes [0xC0FFEE, 7 <<< 61]] = .ok small ∧
      insertRun b' [.prehash 7, .prehashes [0xC0FFEE, 7 <<< 61]] = .ok large ∧
      ∀ h, Present large h → Present small h := by
  have few : qbNew ampleHeap 512 = .ok (some (emptyFilter 1)) :=
    @qbNew_blocks ampleHeap ampleHeap_grants 1 (by omega)
  have many : qbNew ampleHeap 2048 = .ok (some (emptyFilter 3)) :=
    @qbNew_blocks ampleHeap ampleHeap_grants 3 (by omega)
  obtain ⟨small, large, ran, largeRan, within⟩ := resize_noFalsePositives.2 ampleHeap 512 2048 _ _
    [.prehash 7, .prehashes [0xC0FFEE, 7 <<< 61]] (by decide) (by decide) few many
  exact ⟨resize_noFalsePositives.1 1 3 _ (by omega) (by omega),
    _, _, small, large, few, many, ran, largeRan, within⟩

end Quickbloom.Filter
