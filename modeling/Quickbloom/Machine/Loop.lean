import Quickbloom.Machine.Fault

namespace Quickbloom.Machine

/-! # Loops with explicit fuel

`whileM` runs a C `while` loop for at most `fuel` tests and faults if none of
them ended it. A loop is shown to end by producing its result; the fuel then
says how many tests that took at most.
-/

section While

variable {m : Type → Type} [Monad m] [MonadFault m] {σ : Type}

def whileM (test : σ → m Bool) (body : σ → m σ) : Nat → σ → m σ
  | 0, _ => fault .outOfFuel
  | fuel + 1, state => do
    if ← test state then whileM test body fuel (← body state) else return state

/-- `do body while (test)`, with at most `fuel` tests. -/
def doWhileM (test : σ → m Bool) (body : σ → m σ) (fuel : Nat) (state : σ) : m σ := do
  whileM test body fuel (← body state)

/-- `for (; i + stride <= n; i += stride)` over an accumulator and the index. -/
def strideLoop (stride n : Nat) (body : σ → Nat → m σ) (start : σ × Nat) : m (σ × Nat) :=
  whileM (fun state => pure (decide (state.2 + stride ≤ n)))
    (fun state => do return (← body state.1 state.2, state.2 + stride)) (n + 1) start

end While

section Rules

variable {m : Type → Type} [Monad m] [LawfulMonad m] [MonadFault m] {σ : Type}
  {test : σ → m Bool} {body : σ → m σ} {fuel : Nat} {state : σ}

theorem whileM_true (holds : test state = pure true) :
    whileM test body (fuel + 1) state = body state >>= whileM test body fuel := by
  simp only [whileM, holds, pure_bind, ↓reduceIte]

theorem whileM_false (fails : test state = pure false) :
    whileM test body (fuel + 1) state = pure state := by
  simp only [whileM, fails, pure_bind, Bool.false_eq_true, ↓reduceIte]

end Rules

/-- Total correctness of a checked loop: a variant that bounds the remaining
iterations and an invariant that every iteration keeps. -/
theorem whileM_invariant {σ : Type} {test : σ → Checked Bool} {body : σ → Checked σ}
    (invariant : σ → Prop) (variant : σ → Nat)
    (step : ∀ state, invariant state → test state = .ok false ∨
      ∃ next, test state = .ok true ∧ body state = .ok next ∧ invariant next ∧
        variant next < variant state)
    {fuel : Nat} {state : σ} (initial : invariant state) (enough : variant state < fuel) :
    ∃ final, whileM test body fuel state = .ok final ∧ invariant final ∧
      test final = .ok false := by
  induction fuel generalizing state with
  | zero => omega
  | succ fuel ih =>
      rcases step state initial with stopped | ⟨next, holds, ran, kept, smaller⟩
      · exact ⟨state, whileM_false stopped, initial, stopped⟩
      · obtain ⟨final, returned, last⟩ := ih kept (by omega)
        refine ⟨final, ?_, last⟩
        rw [whileM_true holds, ran]
        exact returned

/-- The same rule where it does not matter which test ended the loop. -/
theorem whileM_keeps {σ : Type} {test : σ → Checked Bool} {body : σ → Checked σ}
    (invariant : σ → Prop) (variant : σ → Nat)
    (step : ∀ state, invariant state → test state = .ok false ∨
      ∃ next, test state = .ok true ∧ body state = .ok next ∧ invariant next ∧
        variant next < variant state)
    {fuel : Nat} {state : σ} (initial : invariant state) (enough : variant state < fuel) :
    ∃ final, whileM test body fuel state = .ok final ∧ invariant final := by
  obtain ⟨final, returned, kept, _⟩ := whileM_invariant invariant variant step initial enough
  exact ⟨final, returned, kept⟩

/-- A result does not depend on how much fuel was left. -/
theorem whileM_unique {σ : Type} {test : σ → Checked Bool} {body : σ → Checked σ} {fuel other : Nat}
    {state first second : σ} (ran : whileM test body fuel state = .ok first)
    (again : whileM test body other state = .ok second) : first = second := by
  induction fuel generalizing other state with
  | zero => cases ran
  | succ fuel ih =>
      cases other with
      | zero => cases again
      | succ other =>
          obtain ⟨more, tested, rest⟩ := Checked.bind_eq_ok ran
          obtain ⟨more', tested', rest'⟩ := Checked.bind_eq_ok again
          cases tested.symm.trans tested'
          cases more with
          | false => exact Except.ok.inj (rest.symm.trans rest')
          | true =>
              obtain ⟨next, moved, left⟩ := Checked.bind_eq_ok rest
              obtain ⟨next', moved', left'⟩ := Checked.bind_eq_ok rest'
              cases moved.symm.trans moved'
              exact ih left left'

section Stride

variable {m : Type → Type} [Monad m] [LawfulMonad m] [MonadFault m] {σ : Type}
  {body wide : σ → Nat → m σ} {stride n i fuel : Nat} {acc : σ}

private abbrev strideM (stride n : Nat) (body : σ → Nat → m σ) : Nat → σ × Nat → m (σ × Nat) :=
  whileM (fun state => pure (decide (state.2 + stride ≤ n)))
    (fun state => do return (← body state.1 state.2, state.2 + stride))

private theorem strideM_next (more : i + stride ≤ n) :
    strideM stride n body (fuel + 1) (acc, i) =
      body acc i >>= fun next => strideM stride n body fuel (next, i + stride) := by
  rw [strideM, whileM_true (by simp only [more, decide_true])]
  simp only [bind_assoc, pure_bind]

private theorem strideM_last (done : ¬ i + stride ≤ n) :
    strideM stride n body (fuel + 1) (acc, i) = pure (acc, i) :=
  whileM_false (by simp only [done, decide_false])

private theorem strideM_one (within : i ≤ n) (enough : n - i < fuel) :
    strideM 1 n body fuel (acc, i) =
      (List.range' i (n - i)).foldlM body acc >>= fun final => pure (final, n) := by
  induction fuel generalizing acc i with
  | zero => omega
  | succ fuel ih =>
      by_cases more : i + 1 ≤ n
      · have count : n - i = n - (i + 1) + 1 := by omega
        rw [strideM_next more, count, List.range'_succ, List.foldlM_cons, bind_assoc]
        exact congrArg _ (funext fun next => ih more (by omega))
      · have last : i = n := by omega
        subst last
        rw [strideM_last more]
        simp only [Nat.sub_self, List.range'_zero, List.foldlM_nil, pure_bind]

theorem strideLoop_one (within : i ≤ n) :
    strideLoop 1 n body (acc, i) =
      (List.range' i (n - i)).foldlM body acc >>= fun final => pure (final, n) :=
  strideM_one within (by omega)

/-- A strided loop goes through the whole strides that are left. -/
theorem strideLoop_steps (positive : 0 < stride) (within : i ≤ n) :
    strideLoop stride n body (acc, i) =
      (List.range' i ((n - i) / stride) stride).foldlM body acc >>= fun final =>
        pure (final, i + (n - i) / stride * stride) := by
  suffices general : ∀ fuel acc i, i ≤ n → n - i < fuel →
      strideM stride n body fuel (acc, i) =
        (List.range' i ((n - i) / stride) stride).foldlM body acc >>= fun final =>
          pure (final, i + (n - i) / stride * stride) from
    general (n + 1) acc i within (by omega)
  intro fuel
  induction fuel with
  | zero => intro acc i _ enough; omega
  | succ fuel ih =>
      intro acc i within enough
      by_cases more : i + stride ≤ n
      · have left : n - i = n - (i + stride) + stride := by omega
        have count : (n - i) / stride = (n - (i + stride)) / stride + 1 := by
          rw [left, Nat.add_div_right _ positive]
        rw [strideM_next more, count, List.range'_succ, List.foldlM_cons, bind_assoc]
        refine congrArg _ (funext fun next => ?_)
        rw [ih next (i + stride) more (by omega), Nat.add_mul, Nat.one_mul, Nat.add_assoc i,
          Nat.add_comm stride]
      · have none : (n - i) / stride = 0 := Nat.div_eq_of_lt (by omega)
        rw [strideM_last more, none, List.range'_zero, List.foldlM_nil, pure_bind, Nat.zero_mul,
          Nat.add_zero]

/-- The body of a `do` loop is run before its test. -/
theorem doWhileM_strideLoop {test : σ × Nat → m Bool} (first : i + stride ≤ n)
    (same : ∀ state, test state = pure (decide (state.2 + stride ≤ n))) :
    doWhileM test (fun state => do return (← body state.1 state.2, state.2 + stride)) n (acc, i) =
      strideLoop stride n body (acc, i) := by
  have tests : test = fun state => pure (decide (state.2 + stride ≤ n)) := funext same
  rw [strideLoop, whileM_true (by simp only [first, decide_true]), doWhileM, tests]

/-- An unrolled loop followed by the one-step loop for the remainder is the
one-step loop, provided the unrolled body is its `stride` consecutive steps. -/
theorem strideLoop_unroll (positive : 0 < stride) (within : i ≤ n)
    (unrolled : ∀ acc i, i + stride ≤ n → wide acc i = (List.range' i stride).foldlM body acc) :
    (strideLoop stride n wide (acc, i) >>= strideLoop 1 n body) =
      (List.range' i (n - i)).foldlM body acc >>= fun final => pure (final, n) := by
  suffices general : ∀ fuel acc i, i ≤ n → n - i < fuel →
      (strideM stride n wide fuel (acc, i) >>= strideLoop 1 n body) =
        (List.range' i (n - i)).foldlM body acc >>= fun final => pure (final, n) from
    general (n + 1) acc i within (by omega)
  intro fuel
  induction fuel with
  | zero => intro acc i _ enough; omega
  | succ fuel ih =>
      intro acc i within enough
      by_cases more : i + stride ≤ n
      · have count : n - i = stride + (n - (i + stride)) := by omega
        rw [strideM_next more, unrolled acc i more, bind_assoc, count, ← List.range'_append_1,
          List.foldlM_append, bind_assoc]
        exact congrArg _ (funext fun next => ih next (i + stride) more (by omega))
      · rw [strideM_last more, pure_bind, strideLoop_one within]

theorem strideLoop_congr {other : σ → Nat → m σ}
    (same : ∀ acc i, i + stride ≤ n → body acc i = other acc i) (start : σ × Nat) :
    strideLoop stride n body start = strideLoop stride n other start := by
  suffices general : ∀ fuel state, strideM stride n body fuel state =
      strideM stride n other fuel state from general (n + 1) start
  intro fuel
  induction fuel with
  | zero => intro state; rfl
  | succ fuel ih =>
      intro ⟨acc, i⟩
      by_cases more : i + stride ≤ n
      · rw [strideM_next more, strideM_next more, same acc i more]
        exact congrArg _ (funext fun next => ih (next, i + stride))
      · rw [strideM_last more, strideM_last more]

/-- An unrolled loop and the loop for its remainder visit every index below `n`
once and in order. -/
theorem strideLoop_groups (step : σ → Nat → m σ) {single : σ → Nat → m σ} (positive : 0 < stride)
    (unrolled : ∀ acc i, i + stride ≤ n → wide acc i = (List.range' i stride).foldlM step acc)
    (remainder : ∀ acc i, i + 1 ≤ n → single acc i = step acc i) :
    (strideLoop stride n wide (acc, 0) >>= strideLoop 1 n single) =
      (List.range n).foldlM step acc >>= fun final => pure (final, n) := by
  rw [funext (strideLoop_congr remainder), strideLoop_unroll positive (Nat.zero_le n) unrolled,
    Nat.sub_zero, List.range_eq_range']

theorem strideLoop_four (step : σ → Nat → m σ) {single : σ → Nat → m σ}
    (unrolled : ∀ acc i, i + 4 ≤ n → wide acc i = [i, i + 1, i + 2, i + 3].foldlM step acc)
    (remainder : ∀ acc i, i + 1 ≤ n → single acc i = step acc i) :
    (strideLoop 4 n wide (acc, 0) >>= strideLoop 1 n single) =
      (List.range n).foldlM step acc >>= fun final => pure (final, n) := by
  have four (i : Nat) : List.range' i 4 = [i, i + 1, i + 2, i + 3] := by
    simp only [List.range', Nat.add_assoc, Nat.reduceAdd]
  refine strideLoop_groups step (by omega) ?_ remainder
  intro acc i within
  rw [unrolled acc i within, four]

end Stride

/-- A loop over the entries of a list is a fold over the list. -/
theorem strideLoop_items {σ η : Type} {n : Nat} {body : σ → Nat → Checked σ} (step : σ → η → Checked σ)
    (item : Nat → η) (same : ∀ acc i, i + 1 ≤ n → body acc i = step acc (item i)) (acc : σ) :
    (strideLoop 1 n body (acc, 0) >>= fun last => pure last.1) =
      ((List.range n).map item).foldlM step acc := by
  rw [strideLoop_congr same, strideLoop_one (Nat.zero_le n), bind_assoc, List.foldlM_map,
    List.range_eq_range']
  simp only [pure_bind, bind_pure, Nat.sub_zero]

theorem foldlM_flatMap {σ α η : Type} {whole : σ → α → Checked σ} {step : σ → η → Checked σ}
    {parts : α → List η} (same : ∀ state item, whole state item = (parts item).foldlM step state)
    (items : List α) (state : σ) :
    items.foldlM whole state = (items.flatMap parts).foldlM step state := by
  induction items generalizing state with
  | nil => rfl
  | cons item rest ih =>
      rw [List.foldlM_cons, List.flatMap_cons, List.foldlM_append, same]
      exact congrArg _ (funext ih)

/-- A checked loop whose body returns and keeps the invariant at every index
runs up to `n`. -/
theorem strideLoop_invariant {σ : Type} {body : σ → Nat → Checked σ} {n i : Nat} {acc : σ}
    (invariant : Nat → σ → Prop)
    (step : ∀ i acc, i < n → invariant i acc →
      ∃ next, body acc i = .ok next ∧ invariant (i + 1) next)
    (within : i ≤ n) (initial : invariant i acc) :
    ∃ final, strideLoop 1 n body (acc, i) = .ok (final, n) ∧ invariant n final := by
  rw [strideLoop_one within]
  suffices folded : ∀ count i acc, i + count = n → invariant i acc →
      ∃ final, (List.range' i count).foldlM body acc = .ok final ∧ invariant n final by
    obtain ⟨final, ran, kept⟩ := folded (n - i) i acc (by omega) initial
    exact ⟨final, by rw [ran]; rfl, kept⟩
  intro count
  induction count with
  | zero =>
      intro i acc last kept
      exact ⟨acc, rfl, last ▸ kept⟩
  | succ count ih =>
      intro i acc last kept
      obtain ⟨next, ran, keptNext⟩ := step i acc (by omega) kept
      obtain ⟨final, rest, keptFinal⟩ := ih (i + 1) next (by omega) keptNext
      refine ⟨final, ?_, keptFinal⟩
      rw [List.range'_succ, List.foldlM_cons, ran]
      exact rest

end Quickbloom.Machine
