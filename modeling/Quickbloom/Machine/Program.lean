import Quickbloom.Machine.Simd

namespace Quickbloom.Machine

/-! # Programs over a shared array of words

A program is what embedded code does to the array: a tree of aligned vector
loads and stores. The same program is run here in one piece by `exec`, and lane
by lane next to other threads by `Thread`.
-/

inductive Program (α : Type) where
  | done (result : α)
  | fault (reason : Fault)
  | load (pointer : Nat) (next : M256i → Program α)
  | store (pointer : Nat) (value : M256i) (next : Program α)

namespace Program

variable {α β γ : Type}

protected def bind : Program α → (α → Program β) → Program β
  | .done result, following => following result
  | .fault reason, _ => .fault reason
  | .load pointer next, following => .load pointer fun value => (next value).bind following
  | .store pointer value next, following => .store pointer value (next.bind following)

instance : Monad Program where
  pure := .done
  bind := Program.bind

instance : MonadFault Program where
  fault := .fault

def ofChecked : Checked α → Program α
  | .ok value => .done value
  | .error reason => .fault reason

instance : MonadLift Checked Program where
  monadLift := ofChecked

@[simp] theorem pure_eq_done (value : α) : (pure value : Program α) = .done value := rfl

@[simp] theorem done_bind (value : α) (following : α → Program β) :
    (Program.done value >>= following) = following value := rfl

@[simp] theorem fault_bind (reason : Fault) (following : α → Program β) :
    (Program.fault reason >>= following) = .fault reason := rfl

@[simp] theorem load_bind (pointer : Nat) (next : M256i → Program α) (following : α → Program β) :
    (Program.load pointer next >>= following) =
      .load pointer fun value => next value >>= following := rfl

@[simp] theorem store_bind (pointer : Nat) (value : M256i) (next : Program α)
    (following : α → Program β) :
    (Program.store pointer value next >>= following) =
      .store pointer value (next >>= following) := rfl

@[simp] theorem lift_ok (value : α) :
    (liftM (Except.ok value : Checked α) : Program α) = .done value := rfl

@[simp] theorem lift_error (reason : Fault) :
    (liftM (Except.error reason : Checked α) : Program α) = .fault reason := rfl

private theorem bind_done (program : Program α) : (program >>= Program.done) = program := by
  induction program with
  | done result => rfl
  | fault reason => rfl
  | load pointer next ih => exact congrArg _ (funext ih)
  | store pointer value next ih => exact congrArg _ ih

private theorem bind_bind (program : Program α) (first : α → Program β) (second : β → Program γ) :
    ((program >>= first) >>= second) = program >>= fun value => first value >>= second := by
  induction program with
  | done result => rfl
  | fault reason => rfl
  | load pointer next ih => exact congrArg _ (funext ih)
  | store pointer value next ih => exact congrArg _ ih

instance : LawfulMonad Program := LawfulMonad.mk' Program bind_done (fun _ _ => rfl) bind_bind

def exec : Program α → Words → Checked (α × Words)
  | .done result, memory => .ok (result, memory)
  | .fault reason, _ => .error reason
  | .load pointer next, memory => do (next (← loadVector memory pointer)).exec memory
  | .store pointer value next, memory => do next.exec (← storeVector memory pointer value)

@[simp] theorem exec_done (result : α) (memory : Words) :
    (Program.done result).exec memory = .ok (result, memory) := rfl

theorem exec_bind (program : Program α) (following : α → Program β) (memory : Words) :
    (program >>= following).exec memory =
      program.exec memory >>= fun result => (following result.1).exec result.2 := by
  induction program generalizing memory with
  | done result => rfl
  | fault reason => rfl
  | load pointer next ih =>
      rw [load_bind, exec, exec]
      cases loaded : loadVector memory pointer with
      | error reason => rfl
      | ok value => exact ih value memory
  | store pointer value next ih =>
      rw [store_bind, exec, exec]
      cases stored : storeVector memory pointer value with
      | error reason => rfl
      | ok written => exact ih written

variable {memory : Words} {pointer : Nat}

theorem exec_load (aligned : pointer % 8 = 0) (inside : pointer + 8 ≤ memory.length)
    (next : M256i → Program α) :
    (Program.load pointer next).exec memory = (next (readVector memory pointer)).exec memory := by
  rw [exec, loadVector_ok aligned inside]
  rfl

theorem exec_store (aligned : pointer % 8 = 0) (inside : pointer + 8 ≤ memory.length)
    (value : M256i) (next : Program α) :
    (Program.store pointer value next).exec memory =
      next.exec (writeVector memory pointer value) := by
  rw [exec, storeVector_ok aligned inside]
  rfl

end Program

def mm256LoadSi256 (pointer : Nat) : Program M256i := .load pointer .done

def mm256StoreSi256 (pointer : Nat) (value : M256i) : Program Unit :=
  .store pointer value (.done ())

end Quickbloom.Machine
