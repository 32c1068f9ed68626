import CudaOpenMp.Library.Interleaving
import CudaOpenMp.Server.ResponseCore
import Mathlib.Data.Fintype.Option

/-!
The threads of `server.c`, with the network beside them, which can break a connection at any time.
What `recv` returns and which descriptor `accept` takes is left open; files that are read do not
change. Nothing handles `SIGPIPE`, which ends the process.
-/

namespace CudaOpenMp.Server

open Interleaving

inductive Party (n : Nat) where
  | main
  | network
  | worker (i : Fin n)
deriving DecidableEq

instance (n : Nat) : Fintype (Party n) :=
  Fintype.ofSurjective
    (fun place : Option (Option (Fin n)) => (place.map fun i => (i.map Party.worker).getD .network).getD .main)
    fun p => by
      cases p with
      | main => exact ⟨none, rfl⟩
      | network => exact ⟨some none, rfl⟩
      | worker i => exact ⟨some (some i), rfl⟩

inductive Descriptor where
  | other
  | listener
  | conn (c : Nat)
deriving DecidableEq

/-- The next `send` on a connection that was reset fails with `ECONNRESET`, and all later ones, or all
on a connection that is broken, with `EPIPE`. -/
inductive Link where
  | up
  | reset
  | broken
deriving DecidableEq

/-- A connection, with the worker that has accepted it, what that has received, what the server has
sent, and who has shut it down first. -/
structure Conn (n : Nat) where
  owner : Fin n
  request : Option Request
  received : Bytes
  link : Link
  cut : Option (Fin n)
  closed : Bool

namespace Conn
variable {n : Nat} (conn : Conn n)

/-- Whether a `send` fails with `EPIPE`. -/
def pipe : Bool := conn.cut.isSome || conn.link = .broken

def take (bytes : Bytes) : Conn n :=
  match conn.link with
  | .up => { conn with received := conn.received ++ bytes }
  | .reset | .broken => { conn with link := .broken }

def lose (link : Link) : Conn n := if conn.link = .up then { conn with link := link } else conn

def shut (i : Fin n) : Conn n := { conn with cut := some (conn.cut.getD i) }

end Conn

/-- Connections are numbered in the order of `accept`. A line in the log has the number of the
connection it was written for, and `given` the request numbers in order. The program knows neither. -/
structure Shared (n : Nat) where
  created : Nat
  listening : Bool
  fds : Nat → Option Descriptor
  accepted : Nat
  conns : Nat → Option (Conn n)
  nextRequestId : Int32
  acceptMutex : Option (Fin n)
  given : List (Nat × Int32)
  log : List (Nat × Bytes)
  logOpen : Bool
  exited : Fin n → Bool
  crashed : Bool

/-- The place in a thread, named after what is done next. -/
inductive Stage where
  | accept
  | lock (clientd c : Nat)
  | number (clientd c : Nat)
  | increment (clientd c : Nat) (request_id : Int32)
  | unlock (clientd c : Nat) (request_id : Int32)
  | receive (clientd c : Nat) (request_id : Int32)
  | calls (clientd c : Nat) (request_id : Int32) (todo : List Call)
  | exited
  | create (k : Nat)
  | stdin
  | shutdown
  | close
  | join (j : Nat)
  | fclose
  | finished
  | idle

/-- The descriptor that `socket` returns: the first behind the standard ones, since the file
`config.txt` is closed again. -/
def serverd : Nat := 3

namespace Shared
variable {n : Nat} (g : Shared n)

def edit (c : Nat) (f : Conn n → Conn n) : Shared n :=
  { g with conns := Function.update g.conns c ((g.conns c).map f) }

def opened (i : Fin n) (clientd : Nat) : Shared n :=
  { g with
    fds := Function.update g.fds clientd (some (.conn g.accepted))
    conns := Function.update g.conns g.accepted (some ⟨i, none, [], .up, none, false⟩)
    accepted := g.accepted + 1 }

/-- Whether `send` raises `SIGPIPE`. -/
def sigpipe (clientd : Nat) : Bool :=
  match g.fds clientd with
  | some (.conn c) => (g.conns c).any Conn.pipe
  | some .listener => true
  | some .other | none => false

def send (clientd : Nat) (bytes : Bytes) : Shared n :=
  if g.sigpipe clientd then { g with crashed := true }
  else match g.fds clientd with
    | some (.conn c) => g.edit c (·.take bytes)
    | some .listener | some .other | none => g

/-- Whether `send` does not fail when it raises no signal. -/
def sendable (clientd : Nat) : Bool :=
  match g.fds clientd with
  | some (.conn c) => (g.conns c).any fun conn => conn.link = .up
  | some .listener | some .other | none => false

def release (d : Nat) : Shared n := { g with fds := Function.update g.fds d none }

def close (clientd : Nat) : Shared n :=
  match g.fds clientd with
  | some (.conn c) => (g.edit c fun conn => { conn with closed := true }).release clientd
  | some .listener | some .other | none => g.release clientd

def shutdown (i : Fin n) (clientd : Nat) : Shared n :=
  match g.fds clientd with
  | some (.conn c) => g.edit c (·.shut i)
  | some .listener => { g with listening := false }
  | some .other | none => g

def perform (i : Fin n) (clientd c : Nat) : Call → Shared n
  | .fputs line => { g with log := g.log ++ [(c, line)] }
  | .send bytes | .chunk bytes => g.send clientd bytes
  | .close => g.close clientd
  | .shutdown => g.shutdown i clientd
  | .spin => g
  | .undefined => { g with crashed := true }

end Shared

def Call.isChunk : Call → Bool
  | .chunk _ => true
  | .fputs _ | .send _ | .close | .shutdown | .spin | .undefined => false

/-- What is left to do after a call: a `send` that fails ends the loop over the file. -/
def Shared.after {n : Nat} (g : Shared n) (clientd : Nat) (call : Call) (rest : List Call) :
    List Call :=
  if call.isChunk = true ∧ g.sendable clientd = false then rest.dropWhile Call.isChunk else rest

variable (files : Bytes → Option Entry) {n : Nat}

/-- `accept` fails for good when the listening socket was shut down or closed. -/
inductive Act : Action (Party n) (Shared n) Stage
  | create {g : Shared n} {k : Nat} : k < n →
      Act .main g (.create k) { g with created := k + 1 } (.create (k + 1))
  | created {g : Shared n} {k : Nat} : n ≤ k → Act .main g (.create k) g .stdin
  | exit {g : Shared n} : Act .main g .stdin g .shutdown
  | shutdown {g : Shared n} : Act .main g .shutdown { g with listening := false } .close
  | close {g : Shared n} : Act .main g .close (g.release serverd) (.join 0)
  | join {g : Shared n} (j : Fin n) : g.exited j = true → Act .main g (.join j) g (.join (j + 1))
  | joined {g : Shared n} {j : Nat} : n ≤ j → Act .main g (.join j) g .fclose
  | fclose {g : Shared n} : Act .main g .fclose { g with logOpen := false } .finished
  | reset {g : Shared n} (c : Nat) (link : Link) : Act .network g .idle (g.edit c (·.lose link)) .idle
  | accept {g : Shared n} {i : Fin n} {clientd : Nat} : i.val < g.created →
      g.fds serverd = some .listener → g.listening = true → g.fds clientd = none →
      Act (.worker i) g .accept (g.opened i clientd) (.lock clientd g.accepted)
  | refused {g : Shared n} {i : Fin n} : i.val < g.created →
      g.fds serverd ≠ some .listener ∨ g.listening = false →
      Act (.worker i) g .accept { g with exited := Function.update g.exited i true } .exited
  | lock {g : Shared n} {i : Fin n} {clientd c : Nat} : g.acceptMutex = none →
      Act (.worker i) g (.lock clientd c) { g with acceptMutex := some i } (.number clientd c)
  | number {g : Shared n} {i : Fin n} {clientd c : Nat} :
      Act (.worker i) g (.number clientd c) { g with given := g.given ++ [(c, g.nextRequestId)] }
        (.increment clientd c g.nextRequestId)
  | increment {g : Shared n} {i : Fin n} {clientd c : Nat} {request_id : Int32} :
      Act (.worker i) g (.increment clientd c request_id)
        { g with nextRequestId := g.nextRequestId + 1 } (.unlock clientd c request_id)
  | unlock {g : Shared n} {i : Fin n} {clientd c : Nat} {request_id : Int32} :
      Act (.worker i) g (.unlock clientd c request_id) { g with acceptMutex := none }
        (.receive clientd c request_id)
  | dropped {g : Shared n} {i : Fin n} {clientd c : Nat} {request_id : Int32} :
      Act (.worker i) g (.receive clientd c request_id) g .accept
  | receive {g : Shared n} {i : Fin n} {clientd c : Nat} {request_id : Int32} (r : Request) :
      r.thread_index = i.val → r.request_id = request_id → r.buff ≠ [] → r.buff.length < 1000 →
      r.timestamp.length < 30 →
      Act (.worker i) g (.receive clientd c request_id)
        (g.edit c fun conn => { conn with request := some r })
        (.calls clientd c request_id (r.handle files))
  | call {g : Shared n} {i : Fin n} {clientd c : Nat} {request_id : Int32} {call : Call}
      {rest : List Call} : call ≠ .spin →
      Act (.worker i) g (.calls clientd c request_id (call :: rest)) (g.perform i clientd c call)
        (.calls clientd c request_id (g.after clientd call rest))
  | again {g : Shared n} {i : Fin n} {clientd c : Nat} {request_id : Int32} :
      Act (.worker i) g (.calls clientd c request_id []) g .accept

/-- Undefined behaviour and `SIGPIPE` end all threads. -/
def Turn : Action (Party n) (Shared n) Stage :=
  fun p g l g' l' => g.crashed = false ∧ Act files p g l g' l'

def start (n : Nat) : State (Party n) (Shared n) Stage where
  shared :=
    { created := 0
      listening := true
      fds := fun d => if d < 3 ∨ d = 4 then some .other else if d = serverd then some .listener else none
      accepted := 0
      conns := fun _ => none
      nextRequestId := 0
      acceptMutex := none
      given := []
      log := []
      logOpen := true
      exited := fun _ => false
      crashed := false }
  locals
    | .main => .create 0
    | .network => .idle
    | .worker _ => .accept

end CudaOpenMp.Server
