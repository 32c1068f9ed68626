import CudaOpenMp.Library.Interleaving
import Mathlib.Order.WellFounded

/-!
Barriers for teams of threads. A barrier lets a thread of the team go on when the others have
arrived as often, apart from those that have returned.
-/

structure Barrier (ι : Type) where
  arrived : ι → Nat
  returned : ι → Bool

namespace Barrier

variable {ι κ : Type} {team : ι → κ} {barrier : Barrier ι} {i j : ι}

def fresh : Barrier ι := ⟨fun _ => 0, fun _ => false⟩

def Open (team : ι → κ) (barrier : Barrier ι) (i : ι) : Prop :=
  ∀ j, team j = team i → barrier.returned j = true ∨ barrier.arrived i ≤ barrier.arrived j

theorem exists_open {waiting : ι → Prop} (waits : waiting i)
    (ahead : ∀ i j, waiting i → team j = team i →
      waiting j ∨ barrier.returned j = true ∨ barrier.arrived i ≤ barrier.arrived j) :
    ∃ i, waiting i ∧ Open team barrier i := by
  obtain ⟨last, waits, least⟩ :=
    (measure barrier.arrived).wf.has_min { j | waiting j } ⟨i, waits⟩
  refine ⟨last, waits, ?_⟩
  intro j same
  rcases ahead last j waits same with waitsToo | through
  · exact Or.inr (Nat.le_of_not_lt (least j waitsToo))
  · exact through

variable [DecidableEq ι]

def arrive (barrier : Barrier ι) (i : ι) : Barrier ι :=
  { barrier with arrived := Function.update barrier.arrived i (barrier.arrived i + 1) }

def leave (barrier : Barrier ι) (i : ι) : Barrier ι :=
  { barrier with returned := Function.update barrier.returned i true }

@[simp] theorem arrive_arrived_self : (barrier.arrive i).arrived i = barrier.arrived i + 1 :=
  Function.update_self ..

@[simp] theorem leave_arrived : (barrier.leave i).arrived = barrier.arrived := rfl

@[simp] theorem leave_returned_self : (barrier.leave i).returned i = true := Function.update_self ..

theorem arrive_arrived_of_ne (other : j ≠ i) : (barrier.arrive i).arrived j = barrier.arrived j :=
  Function.update_of_ne other ..

theorem leave_returned_of_ne (other : j ≠ i) : (barrier.leave i).returned j = barrier.returned j :=
  Function.update_of_ne other ..

theorem arrived_le_arrive : barrier.arrived j ≤ (barrier.arrive i).arrived j := by
  by_cases same : j = i
  · subst same
    rw [arrive_arrived_self]
    exact Nat.le_succ _
  · rw [arrive_arrived_of_ne same]

end Barrier
