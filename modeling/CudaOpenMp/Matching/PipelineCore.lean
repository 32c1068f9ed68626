import CudaOpenMp.Library.Monitor

/-!
The two threads of `test_all_cpu.cpp`: one loads the test cases and hands them over in a queue,
`main` processes them. A test case is of any type.
-/

namespace CudaOpenMp.Pipeline

open Interleaving Monitors

/-- A test case with the two matrices that were allocated for it, by the number of their
allocation. -/
structure LoadedCase (α : Type) where
  tc : α
  hT : Nat
  hS : Nat

inductive Event (α : Type) where
  | processed (lc : LoadedCase α)
  | freed (matrix : Nat)

inductive Party where
  | producer
  | main
deriving DecidableEq

/-- The place in `producer_thread_func`, named after what is done next. -/
inductive Loading (α : Type) where
  | next
  | loadT (tc : α)
  | loadS (tc : α) (hT : Nat)
  | lockPush (lc : LoadedCase α)
  | push (lc : LoadedCase α)
  | unlockPush
  | notifyOne
  | lockDone
  | setDone
  | unlockDone
  | notifyAll
  | finish
  | returned

inductive Consuming (α : Type) where
  | head
  | lock
  | test
  | wait
  | waiting
  | check
  | take
  | leave
  | unlock (lc : LoadedCase α)
  | process (lc : LoadedCase α)
  | freeT (lc : LoadedCase α)
  | freeS (lc : LoadedCase α)
  | count
  | join
  | finished

/-- The cases that are still to be loaded, and the number of those that were consumed. -/
inductive Local (α : Type) where
  | producer (place : Loading α) (todo : List α)
  | main (place : Consuming α) (consumed : Nat)

/-- `log` records what `main` has done with the cases; no thread reads it. -/
structure Shared (α : Type) where
  monitor : Monitor Party Unit
  queue : List (LoadedCase α)
  done : Bool
  allocated : Nat
  producerReturned : Bool
  exited : Bool
  log : List (Event α)

section
variable {α : Type} (opensT opensS : α → Bool) (numTests : Nat)

inductive Produces : Shared α → Loading α → List α → Shared α → Loading α → List α → Prop
  | next {g : Shared α} {tc : α} {todo : List α} :
      Produces g .next (tc :: todo) g (.loadT tc) todo
  | last {g : Shared α} : Produces g .next [] g .lockDone []
  | loadT {g : Shared α} {tc : α} {todo : List α} : opensT tc = true →
      Produces g (.loadT tc) todo { g with allocated := g.allocated + 1 }
        (.loadS tc g.allocated) todo
  | failT {g : Shared α} {tc : α} {todo : List α} : opensT tc = false →
      Produces g (.loadT tc) todo { g with exited := true } (.loadT tc) todo
  | loadS {g : Shared α} {tc : α} {hT : Nat} {todo : List α} : opensS tc = true →
      Produces g (.loadS tc hT) todo { g with allocated := g.allocated + 1 }
        (.lockPush ⟨tc, hT, g.allocated⟩) todo
  | failS {g : Shared α} {tc : α} {hT : Nat} {todo : List α} : opensS tc = false →
      Produces g (.loadS tc hT) todo { g with exited := true } (.loadS tc hT) todo
  | lockPush {g : Shared α} {lc : LoadedCase α} {todo : List α} : g.monitor.owner = none →
      Produces g (.lockPush lc) todo { g with monitor := g.monitor.lock .producer } (.push lc) todo
  | push {g : Shared α} {lc : LoadedCase α} {todo : List α} :
      Produces g (.push lc) todo { g with queue := g.queue ++ [lc] } .unlockPush todo
  | unlockPush {g : Shared α} {todo : List α} :
      Produces g .unlockPush todo { g with monitor := g.monitor.unlock } .notifyOne todo
  | notifyOne {g : Shared α} {todo : List α} {m : Monitor Party Unit} : g.monitor.Signal () m →
      Produces g .notifyOne todo { g with monitor := m } .next todo
  | lockDone {g : Shared α} {todo : List α} : g.monitor.owner = none →
      Produces g .lockDone todo { g with monitor := g.monitor.lock .producer } .setDone todo
  | setDone {g : Shared α} {todo : List α} :
      Produces g .setDone todo { g with done := true } .unlockDone todo
  | unlockDone {g : Shared α} {todo : List α} :
      Produces g .unlockDone todo { g with monitor := g.monitor.unlock } .notifyAll todo
  | notifyAll {g : Shared α} {todo : List α} :
      Produces g .notifyAll todo { g with monitor := g.monitor.notifyAll () } .finish todo
  | finish {g : Shared α} {todo : List α} :
      Produces g .finish todo { g with producerReturned := true } .returned todo

inductive Consumes : Shared α → Consuming α → Nat → Shared α → Consuming α → Nat → Prop
  | head {g : Shared α} {consumed : Nat} : consumed < numTests →
      Consumes g .head consumed g .lock consumed
  | stop {g : Shared α} {consumed : Nat} : ¬consumed < numTests →
      Consumes g .head consumed g .join consumed
  | lock {g : Shared α} {consumed : Nat} : g.monitor.owner = none →
      Consumes g .lock consumed { g with monitor := g.monitor.lock .main } .test consumed
  | pass {g : Shared α} {consumed : Nat} : (!g.queue.isEmpty || g.done) = true →
      Consumes g .test consumed g .check consumed
  | fail {g : Shared α} {consumed : Nat} : (!g.queue.isEmpty || g.done) = false →
      Consumes g .test consumed g .wait consumed
  | wait {g : Shared α} {consumed : Nat} :
      Consumes g .wait consumed { g with monitor := g.monitor.wait .main () } .waiting consumed
  | resume {g : Shared α} {consumed : Nat} : g.monitor.asleep .main = none →
      g.monitor.owner = none →
      Consumes g .waiting consumed { g with monitor := g.monitor.lock .main } .test consumed
  | empty {g : Shared α} {consumed : Nat} : g.queue = [] →
      Consumes g .check consumed g .leave consumed
  | some {g : Shared α} {consumed : Nat} : g.queue ≠ [] →
      Consumes g .check consumed g .take consumed
  | leave {g : Shared α} {consumed : Nat} :
      Consumes g .leave consumed { g with monitor := g.monitor.unlock } .join consumed
  | take {g : Shared α} {consumed : Nat} {lc : LoadedCase α} {rest : List (LoadedCase α)} :
      g.queue = lc :: rest →
      Consumes g .take consumed { g with queue := rest } (.unlock lc) consumed
  | unlock {g : Shared α} {consumed : Nat} {lc : LoadedCase α} :
      Consumes g (.unlock lc) consumed { g with monitor := g.monitor.unlock } (.process lc) consumed
  | process {g : Shared α} {consumed : Nat} {lc : LoadedCase α} :
      Consumes g (.process lc) consumed { g with log := g.log ++ [.processed lc] } (.freeT lc)
        consumed
  | freeT {g : Shared α} {consumed : Nat} {lc : LoadedCase α} :
      Consumes g (.freeT lc) consumed { g with log := g.log ++ [.freed lc.hT] } (.freeS lc)
        consumed
  | freeS {g : Shared α} {consumed : Nat} {lc : LoadedCase α} :
      Consumes g (.freeS lc) consumed { g with log := g.log ++ [.freed lc.hS] } .count consumed
  | count {g : Shared α} {consumed : Nat} :
      Consumes g .count consumed g .head (consumed + 1)
  | join {g : Shared α} {consumed : Nat} : g.producerReturned = true →
      Consumes g .join consumed g .finished consumed

inductive Work : Action Party (Shared α) (Local α)
  | producer {g g' : Shared α} {place place' : Loading α} {todo todo' : List α} :
      g.exited = false → Produces opensT opensS g place todo g' place' todo' →
      Work .producer g (.producer place todo) g' (.producer place' todo')
  | main {g g' : Shared α} {place place' : Consuming α} {consumed consumed' : Nat} :
      g.exited = false → Consumes numTests g place consumed g' place' consumed' →
      Work .main g (.main place consumed) g' (.main place' consumed')

/-- A sleeper may wake up without a signal. -/
inductive Spurious : Action Party (Shared α) (Local α)
  | wake {g : Shared α} {p : Party} {l : Local α} : g.exited = false →
      g.monitor.asleep p ≠ none → Spurious p g l { g with monitor := g.monitor.wake p } l

def Act : Action Party (Shared α) (Local α) :=
  fun p g l g' l' => Work opensT opensS numTests p g l g' l' ∨ Spurious p g l g' l'

end

def start {α : Type} (tests : List α) : State Party (Shared α) (Local α) where
  shared := ⟨Monitor.free, [], false, 0, false, false, []⟩
  locals
    | .producer => .producer .next tests
    | .main => .main .head 0

end CudaOpenMp.Pipeline
