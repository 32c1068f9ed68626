import CudaOpenMp.Library.Exchange
import CudaOpenMp.Library.Interleaving

/-!
Model of the sorting loop in `poe_sort.c`. In each round of the `while` loop a team of threads takes
turns in any order: every thread stores `changes = 0` and then executes its iterations of two loops,
each with a sum of its own for `changes` that it adds to the shared one before the barrier. The
counter `nr`, which nothing else reads, and the clock are left out.
-/

namespace CudaOpenMp.PoeSort

open Interleaving

/-- The two loops of the parallel region. -/
inductive Phase where
  | even
  | odd

def Phase.first : Phase → Nat
  | even => 0
  | odd => 1

/-- The values of `i` in `for(i = first; i < n - 1; i = i + 2)`. -/
def iterations (n : Nat) (phase : Phase) : List Nat :=
  List.range' phase.first ((n - 1 - phase.first + 1) / 2) 2

/-- The iterations that each thread executes, in its order. Together they are those of the loop. -/
structure Schedule (n threads : Nat) (phase : Phase) where
  own : Fin threads → List Nat
  dealt : (List.ofFn own).flatten.Perm (iterations n phase)

/-- What the runtime is free to choose for a parallel region. -/
structure Team (n : Nat) where
  threads : Nat
  inhabited : 0 < threads
  schedule : (phase : Phase) → Schedule n threads phase

/-- The places of a thread. In a loop it has a list of iterations left and a private `changes`. -/
inductive Stage where
  | clear (todo : List Nat)
  | loop (todo : List Nat) (changes : Nat)
  | lift (i : Nat) (todo : List Nat) (changes : Nat)
  | shift (i : Nat) (todo : List Nat) (changes : Nat) (tmp : Int)
  | drop (i : Nat) (todo : List Nat) (changes : Nat) (tmp : Int)
  | wait

structure Memory where
  x : Nat → Int
  changes : Nat

inductive Act {threads : Nat} (t : Fin threads) : Memory → Stage → Memory → Stage → Prop
  | clear {g : Memory} {todo : List Nat} :
      Act t g (.clear todo) { g with changes := 0 } (.loop todo 0)
  | keep {g : Memory} {i : Nat} {todo : List Nat} {changes : Nat} : ¬g.x i > g.x (i + 1) →
      Act t g (.loop (i :: todo) changes) g (.loop todo changes)
  | compare {g : Memory} {i : Nat} {todo : List Nat} {changes : Nat} : g.x i > g.x (i + 1) →
      Act t g (.loop (i :: todo) changes) g (.lift i todo changes)
  | lift {g : Memory} {i : Nat} {todo : List Nat} {changes : Nat} :
      Act t g (.lift i todo changes) g (.shift i todo changes (g.x i))
  | shift {g : Memory} {i : Nat} {todo : List Nat} {changes : Nat} {tmp : Int} :
      Act t g (.shift i todo changes tmp)
        { g with x := Function.update g.x i (g.x (i + 1)) } (.drop i todo changes tmp)
  | drop {g : Memory} {i : Nat} {todo : List Nat} {changes : Nat} {tmp : Int} :
      Act t g (.drop i todo changes tmp)
        { g with x := Function.update g.x (i + 1) tmp } (.loop todo (changes + 1))
  | combine {g : Memory} {changes : Nat} :
      Act t g (.loop [] changes) { g with changes := g.changes + changes } .wait

/-- The initial thread at the test of the `while` loop, a parallel region in one of its loops, or
the end of the `while` loop. -/
inductive Program (n : Nat) where
  | test (g : Memory)
  | region (team : Team n) (phase : Phase) (s : State (Fin team.threads) Memory Stage)
  | exited (g : Memory)

def enter {n : Nat} (team : Team n) (g : Memory) : State (Fin team.threads) Memory Stage :=
  ⟨g, fun t => .clear ((team.schedule .even).own t)⟩

def second {n : Nat} (team : Team n) (g : Memory) : State (Fin team.threads) Memory Stage :=
  ⟨g, fun t => .loop ((team.schedule .odd).own t) 0⟩

/-- A barrier lets the threads through when all of them wait. -/
def Arrived {threads : Nat} (s : State (Fin threads) Memory Stage) : Prop :=
  ∀ t, s.locals t = .wait

inductive Step {n : Nat} : Program n → Program n → Prop
  | fork {g : Memory} (team : Team n) : g.changes ≠ 0 →
      Step (.test g) (.region team .even (enter team g))
  | turn {team : Team n} {phase : Phase} {s s' : State (Fin team.threads) Memory Stage} :
      Interleaving.Step Act s s' → Step (.region team phase s) (.region team phase s')
  | barrier {team : Team n} {s : State (Fin team.threads) Memory Stage} : Arrived s →
      Step (.region team .even s) (.region team .odd (second team s.shared))
  | join {team : Team n} {s : State (Fin team.threads) Memory Stage} : Arrived s →
      Step (.region team .odd s) (.test s.shared)
  | exit {g : Memory} : g.changes = 0 → Step (.test g) (.exited g)

def start (n : Nat) (x : Nat → Int) : Program n := .test ⟨x, 1⟩

abbrev Run {n : Nat} := Relation.ReflTransGen (@Step n)

end CudaOpenMp.PoeSort
