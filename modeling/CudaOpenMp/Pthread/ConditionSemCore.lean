import CudaOpenMp.Library.Interleaving
import Mathlib.Data.List.Infix

/-!
Model of the circular buffer of `condition_sem.c`, with one thread that produces and one that
consumes. Every access to the shared memory is a step of its own.
-/

namespace CudaOpenMp.ConditionSem

open Interleaving

def bufferSize : Nat := 8

def endFlag : Int := -1

def bufferIsFull (posWriteTo posReadFrom : Nat) : Bool :=
  (posWriteTo + 1) % bufferSize == posReadFrom

def bufferIsEmpty (posWriteTo posReadFrom : Nat) : Bool := posWriteTo == posReadFrom

inductive Party where
  | producer
  | consumer
deriving DecidableEq

def Party.other : Party → Party
  | .producer => .consumer
  | .consumer => .producer

def Party.stops : Party → Nat → Nat → Bool
  | .producer => bufferIsFull
  | .consumer => bufferIsEmpty

/-- The place in a call, named after what is done next. -/
inductive Stage where
  | idle
  | test
  | compare
  | semWait
  | loadPos
  | access
  | loadMove
  | move
  | semPost
  | loadWrap
  | wrap
  | leave
  | ended
deriving DecidableEq

/-- `loaded` is the position that was read last. `calls` has the variable `item` of each call to
come: the argument of `Produce`, and what the variable that `Consume` declares happens to hold. -/
structure Local where
  stage : Stage
  loaded : Nat
  item : Int
  calls : List Int

/-- A finished call: what it has put into the buffer or taken from it, and its variable `item` when
it returned. -/
structure Call where
  moved : List Int
  item : Int
deriving DecidableEq

/-- The calls that have returned, and what the current one has moved so far. The program does not
read it. -/
structure History where
  finished : List Call
  current : List Int

/-- `position` is `posWriteTo` for the producer and `posReadFrom` for the consumer. `number` is
`blank_number` for the producer and `product_number` for the consumer. -/
structure Shared where
  buffer : Nat → Int
  position : Party → Nat
  number : Party → Nat
  history : Party → History

def Shared.place (g : Shared) (p : Party) (pos : Nat) : Shared :=
  { g with position := Function.update g.position p pos }

def Shared.count (g : Shared) (p : Party) (number : Nat) : Shared :=
  { g with number := Function.update g.number p number }

def Shared.record (g : Shared) (p : Party) (h : History) : Shared :=
  { g with history := Function.update g.history p h }

def Shared.accessed (g : Shared) (p : Party) (pos : Nat) (item : Int) : Shared × Int :=
  match p with
  | .producer => ({ g with buffer := Function.update g.buffer pos item }, item)
  | .consumer => (g, g.buffer pos)

/-- `ConsumerThread` ends with the first `END_FLAG` that it gets. -/
def afterCall : Party → Int → Stage
  | .producer, _ => .idle
  | .consumer, item => if item = endFlag then .ended else .idle

inductive Act : Action Party Shared Local
  | call {p : Party} {g : Shared} {loaded : Nat} {old item : Int} {calls : List Int} :
      Act p g ⟨.idle, loaded, old, item :: calls⟩ g ⟨.test, loaded, item, calls⟩
  | test {p : Party} {g : Shared} {loaded : Nat} {item : Int} {calls : List Int} :
      Act p g ⟨.test, loaded, item, calls⟩ g ⟨.compare, g.position .producer, item, calls⟩
  | stop {p : Party} {g : Shared} {loaded : Nat} {item : Int} {calls : List Int} :
      p.stops loaded (g.position .consumer) = true →
      Act p g ⟨.compare, loaded, item, calls⟩ g ⟨.leave, loaded, item, calls⟩
  | go {p : Party} {g : Shared} {loaded : Nat} {item : Int} {calls : List Int} :
      p.stops loaded (g.position .consumer) = false →
      Act p g ⟨.compare, loaded, item, calls⟩ g ⟨.semWait, loaded, item, calls⟩
  | semWait {p : Party} {g : Shared} {loaded : Nat} {item : Int} {calls : List Int} :
      0 < g.number p →
      Act p g ⟨.semWait, loaded, item, calls⟩ (g.count p (g.number p - 1))
        ⟨.loadPos, loaded, item, calls⟩
  | loadPos {p : Party} {g : Shared} {loaded : Nat} {item : Int} {calls : List Int} :
      Act p g ⟨.loadPos, loaded, item, calls⟩ g ⟨.access, g.position p, item, calls⟩
  | access {p : Party} {g : Shared} {loaded : Nat} {item : Int} {calls : List Int} :
      Act p g ⟨.access, loaded, item, calls⟩
        ((g.accessed p loaded item).1.record p ⟨(g.history p).finished,
          (g.history p).current ++ [(g.accessed p loaded item).2]⟩)
        ⟨.loadMove, loaded, (g.accessed p loaded item).2, calls⟩
  | loadMove {p : Party} {g : Shared} {loaded : Nat} {item : Int} {calls : List Int} :
      Act p g ⟨.loadMove, loaded, item, calls⟩ g ⟨.move, g.position p, item, calls⟩
  | move {p : Party} {g : Shared} {loaded : Nat} {item : Int} {calls : List Int} :
      Act p g ⟨.move, loaded, item, calls⟩ (g.place p (loaded + 1)) ⟨.semPost, loaded, item, calls⟩
  | semPost {p : Party} {g : Shared} {loaded : Nat} {item : Int} {calls : List Int} :
      Act p g ⟨.semPost, loaded, item, calls⟩ (g.count p.other (g.number p.other + 1))
        ⟨.loadWrap, loaded, item, calls⟩
  | loadWrap {p : Party} {g : Shared} {loaded : Nat} {item : Int} {calls : List Int} :
      Act p g ⟨.loadWrap, loaded, item, calls⟩ g
        ⟨if g.position p ≥ bufferSize then .wrap else .test, g.position p, item, calls⟩
  | wrap {p : Party} {g : Shared} {loaded : Nat} {item : Int} {calls : List Int} :
      Act p g ⟨.wrap, loaded, item, calls⟩ (g.place p 0) ⟨.test, loaded, item, calls⟩
  | leave {p : Party} {g : Shared} {loaded : Nat} {item : Int} {calls : List Int} :
      Act p g ⟨.leave, loaded, item, calls⟩
        (g.record p ⟨(g.history p).finished ++ [⟨(g.history p).current, item⟩], []⟩)
        ⟨afterCall p item, loaded, item, calls⟩

def start (items garbage : List Int) : State Party Shared Local where
  shared := ⟨fun _ => 0, fun _ => 0, fun | .producer => bufferSize | .consumer => 0,
    fun _ => ⟨[], []⟩⟩
  locals
    | .producer => ⟨.idle, 0, 0, items⟩
    | .consumer => ⟨.idle, 0, 0, garbage⟩

end CudaOpenMp.ConditionSem
