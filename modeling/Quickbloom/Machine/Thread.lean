import Mathlib.Data.Finset.Card
import Mathlib.Data.Fintype.Basic
import Mathlib.Logic.Relation
import Quickbloom.Machine.Program

namespace Quickbloom.Machine

/-! # Threads that access vectors lane by lane

Each lane of a vector access is an atomic access of its own. The lanes come in
any order, and other threads may step between any two of them.
-/

inductive LaneAccess where
  | load (pointer : Nat) (lane : Fin 8) (word : BitVec 32) (first : Bool)
  | store (pointer : Nat) (lane : Fin 8) (word : BitVec 32) (last : Bool)

def LaneAccess.begins : LaneAccess → Bool
  | .load _ _ _ first => first
  | .store .. => false

def LaneAccess.ends : LaneAccess → Bool
  | .load .. => false
  | .store _ _ _ last => last

inductive Thread (α : Type) where
  | finished (result : α)
  | faulted (reason : Fault)
  | loading (pointer : Nat) (register : M256i) (remaining : Finset (Fin 8))
      (next : M256i → Program α)
  | storing (pointer : Nat) (register : M256i) (remaining : Finset (Fin 8)) (next : Program α)

namespace Thread

variable {α : Type}

def enter : Program α → Thread α
  | .done result => .finished result
  | .fault reason => .faulted reason
  | .load pointer next => .loading pointer (fun _ => 0) Finset.univ next
  | .store pointer value next => .storing pointer value Finset.univ next

def afterLoad (pointer : Nat) (register : M256i) (remaining : Finset (Fin 8))
    (next : M256i → Program α) : Thread α :=
  if remaining = ∅ then enter (next register) else .loading pointer register remaining next

def afterStore (pointer : Nat) (register : M256i) (remaining : Finset (Fin 8))
    (next : Program α) : Thread α :=
  if remaining = ∅ then enter next else .storing pointer register remaining next

/-- One lane access. A thread whose vector access fails its check does not step. -/
inductive Step : Thread α → Words → LaneAccess → Thread α → Words → Prop where
  | load {pointer : Nat} {register : M256i} {remaining : Finset (Fin 8)}
      {next : M256i → Program α} {memory : Words} {lane : Fin 8} (member : lane ∈ remaining)
      (checked : checkVector memory pointer = .ok ()) :
      Step (.loading pointer register remaining next) memory
        (.load pointer lane (readVector memory pointer lane) (decide (remaining = Finset.univ)))
        (afterLoad pointer (Function.update register lane (readVector memory pointer lane))
          (remaining.erase lane) next)
        memory
  | store {pointer : Nat} {register : M256i} {remaining : Finset (Fin 8)}
      {next : Program α} {memory : Words} {lane : Fin 8} (member : lane ∈ remaining)
      (checked : checkVector memory pointer = .ok ()) :
      Step (.storing pointer register remaining next) memory
        (.store pointer lane (register lane) (decide (remaining.erase lane = ∅)))
        (afterStore pointer register (remaining.erase lane) next)
        (memory.set (pointer + lane) (register lane))

inductive Run : Thread α → Words → List LaneAccess → Thread α → Words → Prop where
  | nil (thread : Thread α) (memory : Words) : Run thread memory [] thread memory
  | cons {thread middle last : Thread α} {memory between after : Words} {access : LaneAccess}
      {rest : List LaneAccess} (moved : Step thread memory access middle between)
      (following : Run middle between rest last after) :
      Run thread memory (access :: rest) last after

theorem allLanes_ne_empty : (Finset.univ : Finset (Fin 8)) ≠ ∅ := Finset.univ_nonempty.ne_empty

theorem noLane {accessed : Fin 8 → Prop} :
    ∀ lane, lane ∉ (Finset.univ : Finset (Fin 8)) → accessed lane :=
  fun lane outside => absurd (Finset.mem_univ lane) outside

variable {thread middle last : Thread α} {memory between after : Words}

theorem Run.append {first second : List LaneAccess} (start : Run thread memory first middle between)
    (following : Run middle between second last after) :
    Run thread memory (first ++ second) last after := by
  induction start with
  | nil => exact following
  | cons moved _ ih => exact .cons moved (ih following)

section Vectors

variable {pointer : Nat} {remaining : Finset (Fin 8)}

theorem update_loaded {register value : M256i} (lane : Fin 8)
    (loaded : ∀ lane, lane ∉ remaining → register lane = value lane) :
    ∀ other, other ∉ remaining.erase lane →
      Function.update register lane (value lane) other = value other := by
  intro other outside
  by_cases same : other = lane
  · rw [same, Function.update_self]
  · rw [Function.update_of_ne same]
    exact loaded other (fun inside => outside (Finset.mem_erase.mpr ⟨same, inside⟩))

theorem load_run (register : M256i) (next : M256i → Program α) (pending : remaining ≠ ∅)
    (checked : checkVector memory pointer = .ok ())
    (loaded : ∀ lane, lane ∉ remaining → register lane = readVector memory pointer lane) :
    ∃ access rest, access.begins = decide (remaining = Finset.univ) ∧
      Run (.loading pointer register remaining next) memory (access :: rest)
        (enter (next (readVector memory pointer))) memory := by
  induction remaining using Finset.strongInduction generalizing register with
  | H remaining ih =>
      obtain ⟨lane, member⟩ := Finset.nonempty_iff_ne_empty.mpr pending
      have filled := update_loaded lane loaded
      have moved : Step (.loading pointer register remaining next) memory _ _ _ :=
        .load member checked
      by_cases last : remaining.erase lane = ∅
      · have whole : Function.update register lane (readVector memory pointer lane) =
            readVector memory pointer := by
          funext other
          exact filled other (by rw [last]; exact Finset.notMem_empty other)
        rw [afterLoad, if_pos last, whole] at moved
        exact ⟨_, [], rfl, .cons moved (.nil _ _)⟩
      · rw [afterLoad, if_neg last] at moved
        obtain ⟨access, rest, _, following⟩ := ih _ (Finset.erase_ssubset member) _ last filled
        exact ⟨_, _, rfl, .cons moved following⟩

theorem store_run (register : M256i) (next : Program α) (pending : remaining ≠ ∅)
    (checked : checkVector memory pointer = .ok ())
    (stored : ∀ lane, lane ∉ remaining → memory[pointer + lane.val]? = some (register lane)) :
    ∃ trace, Run (.storing pointer register remaining next) memory trace (enter next)
      (writeVector memory pointer register) := by
  induction remaining using Finset.strongInduction generalizing memory with
  | H remaining ih =>
      obtain ⟨aligned, inside⟩ := checkVector_inside checked
      obtain ⟨lane, member⟩ := Finset.nonempty_iff_ne_empty.mpr pending
      have insideSet : pointer + 8 ≤ (memory.set (pointer + lane) (register lane)).length := by
        rw [List.length_set]
        exact inside
      have written : ∀ other, other ∉ remaining.erase lane →
          (memory.set (pointer + lane) (register lane))[pointer + other.val]? =
            some (register other) := by
        intro other outside
        by_cases same : other = lane
        · rw [same, List.getElem?_set_self (by omega)]
        · have apart : lane.val ≠ other.val := fun equal => same (Fin.ext equal.symm)
          rw [List.getElem?_set_ne (by omega)]
          exact stored other (fun inside => outside (Finset.mem_erase.mpr ⟨same, inside⟩))
      have moved : Step (.storing pointer register remaining next) memory _ _ _ :=
        .store member checked
      rw [← writeVector_set inside register lane (register lane)]
      by_cases last : remaining.erase lane = ∅
      · rw [afterStore, if_pos last] at moved
        rw [writeVector_self insideSet fun other => written other (by
          rw [last]
          exact Finset.notMem_empty other)]
        exact ⟨_, .cons moved (.nil _ _)⟩
      · rw [afterStore, if_neg last] at moved
        obtain ⟨rest, following⟩ := ih _ (Finset.erase_ssubset member) last
          (checkVector_ok aligned insideSet) written
        exact ⟨_, .cons moved following⟩

end Vectors

/-- A program that returns when run in one piece has a lane-by-lane run to the
same result and the same memory. -/
theorem exec_run {program : Program α} {result : α} (ran : program.exec memory = .ok (result, after)) :
    ∃ trace, Run (enter program) memory trace (.finished result) after := by
  induction program generalizing memory with
  | done value =>
      cases ran
      exact ⟨[], .nil _ _⟩
  | fault reason => cases ran
  | load pointer next ih =>
      rw [Program.exec] at ran
      obtain ⟨value, loaded, following⟩ := Checked.bind_eq_ok ran
      obtain ⟨⟨⟩, checked, read⟩ := Checked.bind_eq_ok loaded
      cases read
      obtain ⟨access, rest, _, moved⟩ := load_run (fun _ => 0) next
        allLanes_ne_empty checked noLane
      obtain ⟨trace, finished⟩ := ih _ following
      exact ⟨_, moved.append finished⟩
  | store pointer value next ih =>
      rw [Program.exec] at ran
      obtain ⟨written, stored, following⟩ := Checked.bind_eq_ok ran
      obtain ⟨⟨⟩, checked, wrote⟩ := Checked.bind_eq_ok stored
      cases wrote
      obtain ⟨trace, moved⟩ := store_run value next
        allLanes_ne_empty checked noLane
      obtain ⟨rest, finished⟩ := ih following
      exact ⟨_, moved.append finished⟩

end Thread

end Quickbloom.Machine
