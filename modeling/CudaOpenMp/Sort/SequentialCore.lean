import CudaOpenMp.Library.Exchange
import CudaOpenMp.Library.Loops

/-!
Executable model of the sorting loops in `oe_sort.c` and `b_sort.c`. Memory goes on behind the `n`
cells of the array, with any content, and a run keeps the indices that it has read or written.
-/

namespace CudaOpenMp

structure Sorting where
  x : Nat → Int
  changes : Int
  touched : List Nat

namespace Sorting

def start (x : Nat → Int) : Sorting := ⟨x, 1, []⟩

/-- The body of both `for` loops: `x[i]` and `x[i+1]` are compared and exchanged. -/
def visit (s : Sorting) (i : Nat) : Sorting :=
  let touched := (i + 1) :: i :: s.touched
  if s.x i > s.x (i + 1) then
    let temp := s.x i
    let x := Function.update s.x i (s.x (i + 1))
    let x := Function.update x (i + 1) temp
    ⟨x, 1, touched⟩
  else ⟨s.x, s.changes, touched⟩

def pass (s : Sorting) (indices : List Nat) : Sorting :=
  indices.foldl visit { s with changes := 0 }

end Sorting

/-- A run of some number of rounds ends, has kept to the array and has sorted it. -/
def SortsInside (run : Nat → Option Sorting) (n : Nat) (x : Nat → Int) : Prop :=
  ∃ rounds last, run rounds = some last ∧ (∀ i ∈ last.touched, i < n) ∧ Exchange.Sorts n x last.x

namespace OeSort

structure State where
  sorting : Sorting
  even : Nat

/-- The values of `i` in `for(i=even; i<n; i+=2)`. -/
def indices (even n : Nat) : List Nat := List.range' even ((n - even + 1) / 2) 2

def round (n : Nat) (s : State) : State where
  sorting := s.sorting.pass (indices s.even n)
  even := 1 - s.even

/-- The `while` loop, for a given number of rounds. -/
def run (n : Nat) (x : Nat → Int) (rounds : Nat) : Option Sorting :=
  (Loops.whileLoop (fun s => s.sorting.changes ≠ 0) (round n) rounds ⟨Sorting.start x, 0⟩).map
    State.sorting

end OeSort

namespace BSort

structure State where
  sorting : Sorting
  n : Int

def round (s : State) : State where
  sorting := s.sorting.pass (List.range s.n.toNat)
  n := s.n - 1

def run (n : Nat) (x : Nat → Int) (rounds : Nat) : Option Sorting :=
  (Loops.whileLoop (fun s => s.sorting.changes ≠ 0) round rounds ⟨Sorting.start x, n⟩).map
    State.sorting

end BSort

end CudaOpenMp
