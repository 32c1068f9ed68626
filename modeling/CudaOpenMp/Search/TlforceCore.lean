import CudaOpenMp.Library.Interleaving
import CudaOpenMp.Search.KeySpace

/-!
Executable model of the search in `tlforce.cpp`: the worker threads, one action at a
time, and the main thread that cuts the keys of each length into chunks. The progress
thread only reads, and `encrypt(PLAINTEXT, key) == TARGET` is a parameter.
-/

namespace CudaOpenMp.TlforceSearch

open Interleaving KeySpace

structure Shared where
  checked : UInt64
  found : Bool
  locked : Bool
  results : List (List Char)

/-- The places in the body of `worker` between two actions. -/
inductive Stage where
  | test
  | lock
  | push
  | publish
  | unlock
  | tally
  | flush
  | advance
  | last
  | done
  deriving DecidableEq, Repr

structure Worker where
  length : Nat
  endIdx : UInt64
  combo : List Nat
  key : List Char
  localChecked : UInt64
  k : UInt64
  stage : Stage

structure Job where
  length : Nat
  chunk : Chunk

def Job.start (job : Job) : Worker where
  length := job.length
  endIdx := job.chunk.last
  combo := fillDigits job.length job.chunk.first
  key := List.replicate job.length ' '
  localChecked := 0
  k := job.chunk.first
  stage := .test

/-- The carry loop over the places of `combo`, the last place first. -/
def carryUp : List Nat → Nat → List Nat
  | [], _ => []
  | place :: rest, carry =>
      if carry = 0 then place :: rest
      else if 36 ≤ place + carry then 0 :: carryUp rest 1
      else (place + carry) :: carryUp rest 0

def advance (combo : List Nat) : List Nat := (carryUp combo.reverse 1).reverse

/-- One action of a worker; `none` when it waits for the mutex or has returned. -/
def step (isMatch : List Char → Bool) (g : Shared) (w : Worker) : Option (Shared × Worker) :=
  match w.stage with
  | .test =>
      if w.k < w.endIdx then
        let key := w.combo.map chr
        some (g, { w with key := key, stage := if isMatch key then .lock else .tally })
      else some (g, { w with stage := .last })
  | .lock => if g.locked then none else some ({ g with locked := true }, { w with stage := .push })
  | .push => some ({ g with results := g.results ++ [w.key] }, { w with stage := .publish })
  | .publish => some ({ g with found := true }, { w with stage := .unlock })
  | .unlock => some ({ g with locked := false }, { w with stage := .tally })
  | .tally =>
      let localChecked := w.localChecked + 1
      some (g, { w with
        localChecked := localChecked
        stage := if localChecked % 200 = 0 then .flush else .advance })
  | .flush =>
      some ({ g with checked := g.checked + 200 }, { w with localChecked := 0, stage := .advance })
  | .advance => some (g, { w with combo := advance w.combo, k := w.k + 1, stage := .test })
  | .last => some ({ g with checked := g.checked + w.localChecked }, { w with stage := .done })
  | .done => none

def act (isMatch : List Char → Bool) {n : Nat} : Action (Fin n) Shared Worker :=
  fun _ g w g' w' => step isMatch g w = some (g', w')

/-! The main thread. -/

def countOf (length : Nat) : UInt64 := (List.range length).foldl (fun cnt _ => cnt * 36) 1

def total : UInt64 := [1, 2, 3, 4].foldl (fun total length => total + countOf length) 0

def jobs (nthreads : UInt32) : List Job :=
  [1, 2, 3, 4].flatMap fun length =>
    (ceilChunks (countOf length) nthreads.toUInt64).map fun chunk => ⟨length, chunk⟩

end CudaOpenMp.TlforceSearch
