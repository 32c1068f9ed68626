import CudaOpenMp.Library.Monitor

/-!
Model of the circular buffer of `condition.c`, with one thread that produces and one that
consumes.
-/

namespace CudaOpenMp.Condition

open Interleaving Monitors

def bufferSize : Nat := 8

structure Products where
  buffer : Nat → Int
  posReadFrom : Nat
  posWriteTo : Nat

inductive Cond where
  | notEmpty
  | notFull
deriving DecidableEq

def bufferIsFull (products : Products) : Bool :=
  (products.posWriteTo + 1) % bufferSize == products.posReadFrom

def bufferIsEmpty (products : Products) : Bool := products.posWriteTo == products.posReadFrom

def wrapped (pos : Nat) : Nat := if pos ≥ bufferSize then 0 else pos

/-- The parts in which `Produce` and `Consume` differ. -/
structure Operation where
  stops : Products → Bool
  waitsFor : Cond
  access : Products → Int → Products × Int
  advance : Products → Products
  wrap : Products → Products
  signals : Cond

def produce : Operation where
  stops := bufferIsFull
  waitsFor := .notFull
  access := fun products item =>
    ({ products with buffer := Function.update products.buffer products.posWriteTo item }, item)
  advance := fun products => { products with posWriteTo := products.posWriteTo + 1 }
  wrap := fun products => { products with posWriteTo := wrapped products.posWriteTo }
  signals := .notEmpty

def consume : Operation where
  stops := bufferIsEmpty
  waitsFor := .notEmpty
  access := fun products _ => (products, products.buffer products.posReadFrom)
  advance := fun products => { products with posReadFrom := products.posReadFrom + 1 }
  wrap := fun products => { products with posReadFrom := wrapped products.posReadFrom }
  signals := .notFull

inductive Party where
  | producer
  | consumer
deriving DecidableEq

def operation : Party → Operation
  | .producer => produce
  | .consumer => consume

/-- The place in a call, named after what is done next. -/
inductive Stage where
  | idle
  | lock
  | test
  | wait
  | waiting
  | access
  | advance
  | wrap
  | signal
  | unlock
deriving DecidableEq

/-- `calls` has the variable `item` of each call to come: the argument of `Produce`, and what the
variable that `Consume` declares happens to hold. -/
structure Local where
  stage : Stage
  item : Int
  calls : List Int

/-- What was passed to a call, stored or fetched, and returned from, and how often the position
was moved. The program does not read it. -/
structure History where
  passed : List Int
  accessed : List Int
  returned : List Int
  moved : Nat

structure Shared where
  monitor : Monitor Party Cond
  products : Products
  history : Party → History

def Shared.record (g : Shared) (p : Party) (f : History → History) : Shared :=
  { g with history := Function.update g.history p (f (g.history p)) }

inductive Act : Action Party Shared Local
  | call {p : Party} {g : Shared} {old item : Int} {calls : List Int} :
      Act p g ⟨.idle, old, item :: calls⟩
        (g.record p fun h => { h with passed := h.passed ++ [item] }) ⟨.lock, item, calls⟩
  | lock {p : Party} {g : Shared} {item : Int} {calls : List Int} : g.monitor.owner = none →
      Act p g ⟨.lock, item, calls⟩ { g with monitor := g.monitor.lock p } ⟨.test, item, calls⟩
  | stop {p : Party} {g : Shared} {item : Int} {calls : List Int} :
      (operation p).stops g.products = true →
      Act p g ⟨.test, item, calls⟩ g ⟨.wait, item, calls⟩
  | go {p : Party} {g : Shared} {item : Int} {calls : List Int} :
      (operation p).stops g.products = false →
      Act p g ⟨.test, item, calls⟩ g ⟨.access, item, calls⟩
  | wait {p : Party} {g : Shared} {item : Int} {calls : List Int} :
      Act p g ⟨.wait, item, calls⟩
        { g with monitor := g.monitor.wait p (operation p).waitsFor } ⟨.waiting, item, calls⟩
  | spurious {p : Party} {g : Shared} {item : Int} {calls : List Int} :
      Act p g ⟨.waiting, item, calls⟩ { g with monitor := g.monitor.wake p }
        ⟨.waiting, item, calls⟩
  | resume {p : Party} {g : Shared} {item : Int} {calls : List Int} :
      g.monitor.asleep p = none → g.monitor.owner = none →
      Act p g ⟨.waiting, item, calls⟩ { g with monitor := g.monitor.lock p } ⟨.test, item, calls⟩
  | access {p : Party} {g : Shared} {item : Int} {calls : List Int} :
      Act p g ⟨.access, item, calls⟩
        ({ g with products := ((operation p).access g.products item).1 }.record p fun h =>
          { h with accessed := h.accessed ++ [((operation p).access g.products item).2] })
        ⟨.advance, ((operation p).access g.products item).2, calls⟩
  | advance {p : Party} {g : Shared} {item : Int} {calls : List Int} :
      Act p g ⟨.advance, item, calls⟩
        ({ g with products := (operation p).advance g.products }.record p fun h =>
          { h with moved := h.moved + 1 })
        ⟨.wrap, item, calls⟩
  | wrap {p : Party} {g : Shared} {item : Int} {calls : List Int} :
      Act p g ⟨.wrap, item, calls⟩ { g with products := (operation p).wrap g.products }
        ⟨.signal, item, calls⟩
  | signal {p : Party} {g : Shared} {item : Int} {calls : List Int} {m : Monitor Party Cond} :
      g.monitor.Signal (operation p).signals m →
      Act p g ⟨.signal, item, calls⟩ { g with monitor := m } ⟨.unlock, item, calls⟩
  | unlock {p : Party} {g : Shared} {item : Int} {calls : List Int} :
      Act p g ⟨.unlock, item, calls⟩
        ({ g with monitor := g.monitor.unlock }.record p fun h =>
          { h with returned := h.returned ++ [item] })
        ⟨.idle, item, calls⟩

def start (items garbage : List Int) : State Party Shared Local where
  shared := ⟨Monitor.free, ⟨fun _ => 0, 0, 0⟩, fun _ => ⟨[], [], [], 0⟩⟩
  locals
    | .producer => ⟨.idle, 0, items⟩
    | .consumer => ⟨.idle, 0, garbage⟩

end CudaOpenMp.Condition
