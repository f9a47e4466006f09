import Quickbloom.Krassovsky.Masks
import Quickbloom.Machine.Returns

namespace Quickbloom.Krassovsky

open Quickbloom.Data Quickbloom.Machine Quickbloom.Source.Krassovsky
open Quickbloom.Source (Uint32 Uint64)

/-! # The mask table keeps 4 or 5 ones in every window

Nothing is assumed of the generator: each branch of the sliding loop keeps the
running count equal to the ones of the last 57 bits and within its bounds.
-/

variable {σ : Type} {next : σ → Uint32 × σ}

theorem drawClear_returned {fuel : Nat} {table : MaskTable} {prng : σ} {drawn : Nat × σ}
    (returned : drawClear next fuel table prng = .ok drawn) :
    drawn.1 < 57 ∧ tableBits table drawn.1 = false := by
  have position (value : Uint32) : value.toNat % bitsPerMask < 57 := Nat.mod_lt _ (by decide)
  have result := whileM_returned (m := Checked) (fun state : Nat × σ => state.1 < 57) (by
    intro state after _ _ ran
    have same := Except.ok.inj ran
    subst same
    exact position _) (position _) returned
  obtain ⟨inside, tested⟩ := result
  refine ⟨inside, ?_⟩
  have size : maskBytes = 136 := rfl
  have bit : tableBit table drawn.1 = .ok (tableBits table drawn.1).toNat :=
    tableBit_eq (by omega)
  obtain ⟨leaving, read, stopped⟩ := returns_bind tested
  rw [Checked.returns_iff, bit] at read
  have value := Except.ok.inj read
  have clear := returns_pure stopped
  cases found : tableBits table drawn.1 with
  | false => rfl
  | true =>
      rw [found] at value
      subst value
      cases clear

structure Placed (count : Nat) (table : MaskTable) : Prop where
  ones : ones (tableBits table) 0 57 = count
  clear : ∀ t, 57 ≤ t → tableBits table t = false

theorem placed_zero : Placed 0 (Vector.replicate maskBytes 0) := by
  have bits : ∀ t, tableBits (Vector.replicate maskBytes 0) t = false := by
    intro t
    rw [tableBits, Vector.toList_replicate, List.getD_eq_getElem?_getD, List.getElem?_replicate]
    split <;> simp
  exact ⟨ones_clear fun j _ => bits _, fun t _ => bits t⟩

theorem Placed.set {count position : Nat} {table after : MaskTable} (placed : Placed count table)
    (inside : position < 57) (clear : tableBits table position = false)
    (written : setTableBit table position = .ok after) : Placed (count + 1) after := by
  have size : maskBytes = 136 := rfl
  obtain ⟨result, ran, raised, same⟩ := @setTableBit_eq table position (by omega)
  rw [written] at ran
  cases ran
  refine ⟨?_, ?_⟩
  · rw [← placed.ones]
    apply ones_set inside
    · rwa [Nat.zero_add]
    · rwa [Nat.zero_add]
    · intro j _ apart
      rw [Nat.zero_add]
      exact same j apart
  · intro t above
    rw [same t (by omega)]
    exact placed.clear t above

theorem firstWindow_returned {fuel : Nat} {prng : σ} {first : Nat × MaskTable × σ}
    (returned : firstWindow next fuel prng = .ok first) :
    4 ≤ first.1 ∧ first.1 ≤ 5 ∧ Placed first.1 first.2.1 := by
  obtain ⟨placed, looped, last⟩ := Checked.bind_eq_ok returned
  cases last
  have result := strideLoop_returned (m := Checked)
    (fun i (state : MaskTable × σ) =>
      i ≤ minBitsSet + (next prng).1.toNat % (maxBitsSet - minBitsSet + 1) ∧ Placed i state.1) (by
    intro i state after more kept ran
    obtain ⟨drawn, drew, rest⟩ := returns_bind ran
    obtain ⟨table, written, last⟩ := returns_bind rest
    have same := returns_pure last
    subst same
    obtain ⟨inside, clear⟩ := drawClear_returned drew
    exact ⟨more, kept.2.set inside clear written⟩) ⟨Nat.zero_le _, placed_zero⟩ looped
  obtain ⟨⟨within, kept⟩, stopped⟩ := result
  have count : placed.2 = minBitsSet + (next prng).1.toNat % (maxBitsSet - minBitsSet + 1) := by
    omega
  have choice : (next prng).1.toNat % (maxBitsSet - minBitsSet + 1) < 2 := Nat.mod_lt _ (by decide)
  rw [count] at kept
  have least : minBitsSet = 4 := rfl
  exact ⟨by simp only; omega, by simp only; omega, kept⟩

/-- Before index `i`: every window that ends below `i` has 4 or 5 ones, the
counter is that of the last one, and nothing is set from `i` on. -/
structure Sliding (i : Nat) (state : Slide σ) : Prop where
  windows : ∀ start, start + 57 ≤ i →
    4 ≤ ones (tableBits state.maskTable) start 57 ∧ ones (tableBits state.maskTable) start 57 ≤ 5
  from57 : 57 ≤ i
  count : state.cur = ones (tableBits state.maskTable) (i - 57) 57
  clear : ∀ t, i ≤ t → tableBits state.maskTable t = false

section Slide

variable {i : Nat} {state after : Slide σ}

/-- What every branch comes down to: bit `i` is written or not, and the counter
follows the bit that leaves the window and the one that enters it. -/
theorem Sliding.push (sliding : Sliding i state)
    (same : ∀ t, t ≠ i → tableBits after.maskTable t = tableBits state.maskTable t)
    (moved : after.cur + (tableBits state.maskTable (i - 57)).toNat =
      state.cur + (tableBits after.maskTable i).toNat)
    (low : 4 ≤ after.cur) (high : after.cur ≤ 5) : Sliding (i + 1) after := by
  have from57 := sliding.from57
  have kept : ∀ start, start + 57 ≤ i → ones (tableBits after.maskTable) start 57 =
      ones (tableBits state.maskTable) start 57 :=
    fun start within => ones_congr fun j bound => same _ (by omega)
  have slide : ones (tableBits after.maskTable) (i - 57 + 1) 57 +
      (tableBits after.maskTable (i - 57)).toNat =
      ones (tableBits after.maskTable) (i - 57) 57 + (tableBits after.maskTable (i - 57 + 57)).toNat :=
    ones_slide
  have last : i - 57 + 57 = i := by omega
  have count : after.cur = ones (tableBits after.maskTable) (i - 57 + 1) 57 := by
    rw [last, same (i - 57) (by omega), kept (i - 57) (by omega)] at slide
    have before := sliding.count
    omega
  refine ⟨?_, by omega, ?_, ?_⟩
  · intro start within
    by_cases earlier : start + 57 ≤ i
    · rw [kept start earlier]
      exact sliding.windows start earlier
    · have newest : start = i - 57 + 1 := by omega
      rw [newest]
      omega
  · have index : i + 1 - 57 = i - 57 + 1 := by omega
    rw [index]
    exact count
  · intro t above
    rw [same t (by omega)]
    exact sliding.clear t (by omega)

theorem Sliding.counter (sliding : Sliding i state) : 4 ≤ state.cur ∧ state.cur ≤ 5 := by
  have from57 := sliding.from57
  have window := sliding.windows (i - 57) (by omega)
  have count := sliding.count
  omega

theorem slideBit_ok (sliding : Sliding i state) (inside : i < 1080) :
    ∃ after, slideBit next state i = .ok after ∧ Sliding (i + 1) after := by
  have size : maskBytes = 136 := rfl
  have from57 := sliding.from57
  have counter := sliding.counter
  have leaving : tableBit state.maskTable (i - bitsPerMask) =
      .ok (tableBits state.maskTable (i - 57)).toNat := tableBit_eq (by
    have width : bitsPerMask = 57 := rfl
    omega)
  obtain ⟨table, written, raised, same⟩ :=
    @setTableBit_eq state.maskTable i (by omega)
  have clear := sliding.clear i (Nat.le_refl i)
  have least : (minBitsSet : Int) = 4 := rfl
  have most : (maxBitsSet : Int) = 5 := rfl
  simp only [slideBit, leaving, written, Checked.ok_bind, Checked.pure_eq_ok, least, most]
  cases bit : tableBits state.maskTable (i - 57) with
  | true =>
      simp only [Bool.toNat_true, true_and, Nat.one_ne_zero, false_and, ↓reduceIte]
      by_cases forced : state.cur = 4
      · rw [if_pos forced]
        refine ⟨_, rfl, sliding.push same ?_ ?_ ?_⟩ <;> simp [bit, raised, forced]
      · rw [if_neg forced]
        by_cases drawn : (next state.prngState).1.toNat % (bitsPerMask * 2) < minBitsSet + maxBitsSet
        · rw [if_pos drawn]
          refine ⟨_, rfl, sliding.push same ?_ ?_ ?_⟩
          · simp [bit, raised]
          · exact counter.1
          · exact counter.2
        · rw [if_neg drawn]
          refine ⟨_, rfl, sliding.push (fun t _ => rfl) ?_ ?_ ?_⟩
          · simp [bit, clear]
          · simp only
            omega
          · simp only
            omega
  | false =>
      simp only [Bool.toNat_false, Nat.zero_ne_one, false_and, true_and, ↓reduceIte]
      by_cases forced : state.cur = 5
      · rw [if_pos forced]
        exact ⟨_, rfl, sliding.push (fun t _ => rfl) (by simp [bit, clear]) counter.1 counter.2⟩
      · rw [if_neg forced]
        by_cases drawn : (next state.prngState).1.toNat % (bitsPerMask * 2) < minBitsSet + maxBitsSet
        · rw [if_pos drawn]
          refine ⟨_, rfl, sliding.push same ?_ ?_ ?_⟩
          · simp [bit, raised]
          · simp only
            omega
          · simp only
            omega
        · rw [if_neg drawn]
          exact ⟨_, rfl, sliding.push (fun t _ => rfl) (by simp [bit, clear]) counter.1 counter.2⟩

end Slide

theorem Placed.sliding {count : Nat} {table : MaskTable} (placed : Placed count table)
    (low : 4 ≤ count) (high : count ≤ 5) (prng : σ) :
    Sliding 57 { maskTable := table, cur := count, prngState := prng } := by
  refine ⟨?_, Nat.le_refl 57, ?_, placed.clear⟩
  · intro start within
    obtain rfl : start = 0 := by omega
    rw [placed.ones]
    exact ⟨low, high⟩
  · rw [Nat.sub_self, placed.ones]

theorem maskTableInit_returns {seed : σ} {fuel : Nat} {first : Nat × MaskTable × σ}
    (finished : firstWindow next fuel seed = .ok first) {statics : Statics σ}
    (fresh : statics.maskTableInited = false) :
    ∃ after, maskTableInit next fuel seed statics = .ok after ∧ after.maskTableInited = true ∧
      ∀ start < 1024, 4 ≤ ones (tableBits after.maskTable) start 57 ∧
        ones (tableBits after.maskTable) start 57 ≤ 5 := by
  obtain ⟨low, high, placed⟩ := firstWindow_returned finished
  have step : ∀ i (state : Slide σ), i < 1080 → Sliding i state →
      ∃ after, slideBit next state i = .ok after ∧ Sliding (i + 1) after :=
    fun i state inside kept => slideBit_ok kept inside
  obtain ⟨final, looped, sliding⟩ :=
    strideLoop_invariant Sliding step (by omega) (placed.sliding low high first.2.2)
  let built : Statics σ := ⟨final.maskTable, true, final.prngState⟩
  have ran : maskTableInit next fuel seed statics = .ok built := by
    have total : numMasks + 57 - 1 = 1080 := rfl
    have width : bitsPerMask = 57 := rfl
    simp only [maskTableInit, fresh, Bool.false_eq_true, ↓reduceIte, finished, Checked.ok_bind, total,
      width, looped, Checked.pure_eq_ok]
    rfl
  exact ⟨built, ran, rfl, fun start bound => sliding.windows start (by omega)⟩

/-- The mask of a hash has the ones of a window. -/
theorem popcount_window {table : MaskTable}
    (windows : ∀ start < 1024, 4 ≤ ones (tableBits table) start 57 ∧
      ones (tableBits table) start 57 ≤ 5) (h : Uint64) :
    ∃ mask, constructMaskScalar table h = .ok mask ∧
      (builtinPopcount mask = 4 ∨ builtinPopcount mask = 5) := by
  have window := windows (maskIndex h) (Nat.mod_lt _ (by omega))
  refine ⟨_, constructMaskScalar_eq table h, ?_⟩
  rw [popcount_maskOf]
  omega

/-- Whatever the generator draws, once the first window is found the table is
built with 4 or 5 ones in every window, so every hash reads its mask inside the
table and the mask has 4 or 5 bits. -/
theorem maskTableInit_windows {σ : Type} {next : σ → Uint32 × σ} {seed : σ} {fuel : Nat}
    {first : Nat × MaskTable × σ} (finished : firstWindow next fuel seed = .ok first)
    {statics : Statics σ} (fresh : statics.maskTableInited = false) :
    ∃ after, maskTableInit next fuel seed statics = .ok after ∧ after.maskTableInited = true ∧
      (∀ start < numMasks,
        minBitsSet ≤ ones (tableBits after.maskTable) start bitsPerMask ∧
        ones (tableBits after.maskTable) start bitsPerMask ≤ maxBitsSet) ∧
      ∀ h, ∃ mask, constructMaskScalar after.maskTable h = .ok mask ∧
        (builtinPopcount mask = 4 ∨ builtinPopcount mask = 5) := by
  obtain ⟨after, ran, initialized, windows⟩ := maskTableInit_returns finished fresh
  exact ⟨after, ran, initialized, windows, popcount_window windows⟩

theorem maskTableInit_windows_seeded :
    ∃ after, maskTableInit prngNext 1 0x123456789abcdef0
        ⟨Vector.replicate maskBytes 0, false, 0⟩ = .ok after ∧ after.maskTableInited = true ∧
      (∀ start < numMasks,
        minBitsSet ≤ ones (tableBits after.maskTable) start bitsPerMask ∧
        ones (tableBits after.maskTable) start bitsPerMask ≤ maxBitsSet) ∧
      ∀ h, ∃ mask, constructMaskScalar after.maskTable h = .ok mask ∧
        (builtinPopcount mask = 4 ∨ builtinPopcount mask = 5) := by
  obtain ⟨first, finished⟩ := Checked.exists_of_isOk (by decide +kernel :
    (firstWindow prngNext 1 0x123456789abcdef0).isOk = true)
  exact maskTableInit_windows finished rfl

end Quickbloom.Krassovsky
