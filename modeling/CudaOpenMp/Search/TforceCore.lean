import CudaOpenMp.Library.Interleaving
import CudaOpenMp.Search.KeySpace

/-!
Executable model of the search in `tforce.cpp`, which stops at the first hit. The flag
`g_stop` is read with relaxed ordering, so a read may still see the old value. `try_key` is a
parameter: the permutation that it reports, if it succeeds.
-/

namespace CudaOpenMp.TforceSearch

open Interleaving KeySpace

variable {Perm : Type}

structure Shared (Perm : Type) where
  checked : UInt64
  stop : Bool
  locked : Bool
  results : List (List Char × Perm)

/-- The places in the body of `worker` between two actions. It returns after a hit, or is
done at the end of the loop or at the `break`. -/
inductive Stage (Perm : Type) where
  | load
  | attempt
  | lock (foundKey : List Char) (foundPerm : Perm)
  | push (foundKey : List Char) (foundPerm : Perm)
  | unlock
  | raise
  | countHit
  | count
  | returned
  | done

structure Worker (Perm : Type) where
  endIdx : UInt64
  idx : UInt64
  stage : Stage Perm

def spawn (chunk : Chunk) : Worker Perm := ⟨chunk.last, chunk.first, .load⟩

/-- One action of a worker; `stale` tells whether a read of the flag misses its latest value. -/
def step (tryKey : List Char → Option Perm) (stale : Bool) (g : Shared Perm) (w : Worker Perm) :
    Option (Shared Perm × Worker Perm) :=
  match w.stage with
  | .load =>
      if w.idx < w.endIdx then
        let stop := if stale then false else g.stop
        some (g, { w with stage := if stop then .done else .attempt })
      else some (g, { w with stage := .done })
  | .attempt =>
      let key := (fillDigits 4 w.idx).map chr
      match tryKey key with
      | some foundPerm => some (g, { w with stage := .lock key foundPerm })
      | none => some (g, { w with stage := .count })
  | .lock foundKey foundPerm =>
      if g.locked then none
      else some ({ g with locked := true }, { w with stage := .push foundKey foundPerm })
  | .push foundKey foundPerm =>
      some ({ g with results := g.results ++ [(foundKey, foundPerm)] }, { w with stage := .unlock })
  | .unlock => some ({ g with locked := false }, { w with stage := .raise })
  | .raise => some ({ g with stop := true }, { w with stage := .countHit })
  | .countHit => some ({ g with checked := g.checked + 1 }, { w with stage := .returned })
  | .count =>
      some ({ g with checked := g.checked + 1 }, { w with idx := w.idx + 1, stage := .load })
  | .returned => none
  | .done => none

def act (tryKey : List Char → Option Perm) {n : Nat} : Action (Fin n) (Shared Perm) (Worker Perm) :=
  fun _ g w g' w' => ∃ stale, step tryKey stale g w = some (g', w')

def Worker.finished (w : Worker Perm) : Prop :=
  match w.stage with
  | .returned | .done => True
  | .load | .attempt | .lock _ _ | .push _ _ | .unlock | .raise | .countHit | .count => False

/-! The main thread. -/

def keyLength : Nat := 4

def total : UInt64 := (List.range keyLength).foldl (fun total _ => total * 36) 1

def jobs (numThreads : Int32) : List Chunk := ceilChunks total numThreads.toInt64.toUInt64

/-- The jobs for what `hardware_concurrency` returns. A division by zero has no result, and the loop
does not run for a negative number of threads. -/
def split (hardwareConcurrency : UInt32) : Option (List Chunk) :=
  let numThreads := hardwareConcurrency.toInt32
  if numThreads = 0 then none else some (if numThreads < 0 then [] else jobs numThreads)

end CudaOpenMp.TforceSearch
