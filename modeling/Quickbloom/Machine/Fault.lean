import Mathlib.Init

namespace Quickbloom.Machine

/-! # Faults of the C abstract machine

Embedded C code is evaluated in `Checked`: an undefined behaviour, a failed
assertion, or a loop that is not known to end is a `Fault`, never a value that
later code could go on computing with.
-/

inductive Fault where
  | outOfBounds
  | misaligned
  | shiftRange
  | assertion
  /-- A loop that has not ended within its bound on the number of tests. -/
  | outOfFuel
deriving DecidableEq, Repr

abbrev Checked (α : Type) := Except Fault α

class MonadFault (m : Type → Type) where
  fault {α : Type} : Fault → m α

export MonadFault (fault)

instance : MonadFault Checked where
  fault := .error

variable {α β : Type}

@[simp] theorem Checked.ok_bind (value : α) (next : α → Checked β) :
    ((Except.ok value : Checked α) >>= next) = next value := rfl

@[simp] theorem Checked.pure_eq_ok (value : α) : (pure value : Checked α) = .ok value := rfl

theorem Checked.bind_eq_ok {first : Checked α} {next : α → Checked β} {result : β}
    (returned : (first >>= next) = .ok result) :
    ∃ value, first = .ok value ∧ next value = .ok result := by
  cases first with
  | error reason => cases returned
  | ok value => exact ⟨value, rfl, returned⟩

theorem Checked.exists_of_isOk {computation : Checked α} (returns : computation.isOk = true) :
    ∃ value, computation = .ok value := by
  cases computation with
  | error reason => cases returns
  | ok value => exact ⟨value, rfl⟩

end Quickbloom.Machine
