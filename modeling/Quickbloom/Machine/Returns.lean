import Quickbloom.Machine.Loop
import Quickbloom.Machine.Program

namespace Quickbloom.Machine

/-! # What a computation that returned has done

Partial correctness for both monads of the machine: `Returns` says that a
computation may end with a value, and a value of a loop was reached through
iterations that returned.
-/

class MayReturn (m : Type → Type) [Monad m] [MonadFault m] where
  Returns {α : Type} : m α → α → Prop
  returns_pure {α : Type} {value result : α} : Returns (pure value) result → value = result
  returns_bind {α β : Type} {first : m α} {next : α → m β} {result : β} :
    Returns (first >>= next) result → ∃ value, Returns first value ∧ Returns (next value) result
  returns_fault {α : Type} {reason : Fault} {result : α} : ¬ Returns (fault reason) result

export MayReturn (Returns returns_pure returns_bind returns_fault)

instance : MayReturn Checked where
  Returns computation result := computation = .ok result
  returns_pure := Except.ok.inj
  returns_bind := Checked.bind_eq_ok
  returns_fault := fun returned => nomatch returned

theorem Checked.returns_iff {α : Type} {computation : Checked α} {result : α} :
    Returns computation result ↔ computation = .ok result := Iff.rfl

/-- A program may return what some array lets it return. -/
instance : MayReturn Program where
  Returns program result := ∃ before after, program.exec before = .ok (result, after)
  returns_pure := by
    intro α value result returned
    obtain ⟨before, after, ran⟩ := returned
    cases ran
    rfl
  returns_bind := by
    intro α β first next result returned
    obtain ⟨before, after, ran⟩ := returned
    rw [Program.exec_bind] at ran
    obtain ⟨middle, ranFirst, ranNext⟩ := Checked.bind_eq_ok ran
    exact ⟨middle.1, ⟨before, middle.2, ranFirst⟩, middle.2, after, ranNext⟩
  returns_fault := by
    intro α reason result returned
    obtain ⟨before, after, ran⟩ := returned
    cases ran

theorem Program.returns_lift {α : Type} {computation : Checked α} {result : α}
    (returned : Returns (liftM computation : Program α) result) : computation = .ok result := by
  obtain ⟨before, after, ran⟩ := returned
  cases computation with
  | error reason => cases ran
  | ok value =>
      cases ran
      rfl

section Loops

variable {m : Type → Type} [Monad m] [MonadFault m] [MayReturn m] {σ : Type}

theorem whileM_returned {test : σ → m Bool} {body : σ → m σ} (invariant : σ → Prop)
    (step : ∀ state next, invariant state → Returns (test state) true →
      Returns (body state) next → invariant next)
    {fuel : Nat} {state final : σ} (initial : invariant state)
    (returned : Returns (whileM test body fuel state) final) :
    invariant final ∧ Returns (test final) false := by
  induction fuel generalizing state with
  | zero => exact absurd returned returns_fault
  | succ fuel ih =>
      obtain ⟨more, tested, rest⟩ := returns_bind returned
      cases more with
      | false =>
          have last := returns_pure rest
          subst last
          exact ⟨initial, tested⟩
      | true =>
          obtain ⟨next, ran, following⟩ := returns_bind rest
          exact ih (step state next initial tested ran) following

/-- A strided loop that returned has kept its invariant in every iteration and
has stopped at the first index without a whole stride below `n`. -/
theorem strideLoop_returned {stride n : Nat} {body : σ → Nat → m σ} (invariant : Nat → σ → Prop)
    (step : ∀ i acc next, i + stride ≤ n → invariant i acc → Returns (body acc i) next →
      invariant (i + stride) next)
    {acc : σ} {i : Nat} {final : σ × Nat} (initial : invariant i acc)
    (returned : Returns (strideLoop stride n body (acc, i)) final) :
    invariant final.2 final.1 ∧ n < final.2 + stride := by
  have result := whileM_returned (fun state : σ × Nat => invariant state.2 state.1) (by
    intro state next kept tested ran
    have more := returns_pure tested
    obtain ⟨acc, ranBody, last⟩ := returns_bind ran
    have same := returns_pure last
    subst same
    exact step state.2 state.1 acc (by simpa using more) kept ranBody) initial returned
  refine ⟨result.1, ?_⟩
  have stopped := returns_pure result.2
  simpa using stopped

/-- An unrolled loop and the loop for its remainder, once both returned, have
reached `n`. -/
theorem strideLoop_groups_returned {stride n : Nat} {wide single : σ → Nat → m σ}
    (reached : Nat → Prop)
    (group : ∀ i acc next, Returns (wide acc i) next → reached i → reached (i + stride))
    (one : ∀ i acc next, Returns (single acc i) next → reached i → reached (i + 1))
    {acc : σ} {i : Nat} {final : σ × Nat} (initial : reached i)
    (returned : Returns (strideLoop stride n wide (acc, i) >>= strideLoop 1 n single) final) :
    ∃ last, n ≤ last ∧ reached last := by
  obtain ⟨unrolled, first, rest⟩ := returns_bind returned
  obtain ⟨half, _⟩ := strideLoop_returned (fun i _ => reached i)
    (fun i acc next _ kept ran => group i acc next ran kept) initial first
  obtain ⟨whole, stopped⟩ := strideLoop_returned (fun i _ => reached i)
    (fun i acc next _ kept ran => one i acc next ran kept) half rest
  exact ⟨final.2, by omega, whole⟩

end Loops

end Quickbloom.Machine
