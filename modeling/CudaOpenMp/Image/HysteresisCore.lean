import CudaOpenMp.Image.Raster
import CudaOpenMp.Library.Interleaving

/-!
Executable model of edge linking in `canny_cuda.cu` and `canny_compare.cu`. Every read and
every write of the edge map is one action, so threads can run in between.
-/

namespace CudaOpenMp.Canny

open Interleaving Rasters Raster IndexRanges

/-- The edge map: 255 for a strong pixel, 128 for a weak one. -/
abbrev Edges := Nat → UInt8

def hystIter : Nat := 5

def numThreads : Nat := 8

inductive Stage where
  | next
  | look (p : Pixel) (rest : List Pixel) (connected : Bool)
  | mark (p : Pixel)

structure Worker where
  todo : List Pixel
  stage : Stage

/-- One access. With `early` the loops over the neighbours stop at the first strong one. -/
def step (w : Nat) (early : Bool) (edges : Edges) (t : Worker) : Option (Edges × Worker) :=
  match t.stage with
  | .next =>
      match t.todo with
      | [] => none
      | p :: todo =>
          some (edges, ⟨todo, if edges (cell w p) = 128 then .look p (around p) false else .next⟩)
  | .look p [] connected =>
      some (edges, { t with stage := if connected then .mark p else .next })
  | .look p (q :: rest) connected =>
      let connected := connected || edges (cell w q) == 255
      some (edges, { t with stage := if early && connected then .mark p else .look p rest connected })
  | .mark p => some (Function.update edges (cell w p) 255, { t with stage := .next })

def act {ι : Type} (w : Nat) (early : Bool) : Action ι Edges Worker :=
  fun _ edges t edges' t' => step w early edges t = some (edges', t')

def Worker.finished (t : Worker) : Prop := t.todo = [] ∧ t.stage = .next

/-- A pass of some kind, taken several times, each after the end of the one before. -/
def Times (pass : Edges → Edges → Prop) : Nat → Edges → Edges → Prop
  | 0, before, after => after = before
  | k + 1, before, after => ∃ middle, Times pass k before middle ∧ pass middle after

/-! The kernels, launched on blocks of 16 × 16 threads. -/

abbrev Thread (w h : Nat) := Place (gridSize w h (16, 16)) (16, 16)

def hysteresisKernel (w h : Nat) (place : Thread w h) : Worker :=
  ⟨if Interior w h place.pixel then [place.pixel] else [], .next⟩

def HysteresisLaunch (w h : Nat) (before after : Edges) : Prop :=
  ∃ s, Run (act w false) ⟨before, hysteresisKernel w h⟩ s ∧
    (∀ place, (s.locals place).finished) ∧ s.shared = after

inductive CleanupStage where
  | check
  | erase
  | done
  deriving DecidableEq

def cleanupStep (w h : Nat) (p : Pixel) (edges : Edges) (stage : CleanupStage) :
    Option (Edges × CleanupStage) :=
  match stage with
  | .check =>
      some (edges, if Inside w h p ∧ edges (cell w p) = 128 then .erase else .done)
  | .erase => some (Function.update edges (cell w p) 0, .done)
  | .done => none

def cleanupAct (w h : Nat) : Action (Thread w h) Edges CleanupStage :=
  fun place edges t edges' t' => cleanupStep w h place.pixel edges t = some (edges', t')

def CleanupLaunch (w h : Nat) (before after : Edges) : Prop :=
  ∃ s, Run (cleanupAct w h) ⟨before, fun _ => .check⟩ s ∧
    (∀ place, s.locals place = .done) ∧ s.shared = after

/-- What `main` does with an edge map on the device. -/
def GpuPath (w h : Nat) (before after : Edges) : Prop :=
  ∃ middle, Times (HysteresisLaunch w h) hystIter before middle ∧ CleanupLaunch w h middle after

/-! The threads of `canny_compare.cu`. -/

def pthreadRows (w h first last : Nat) : List Pixel :=
  (indices first last).flatMap fun y =>
    if y = 0 ∨ y = h - 1 then [] else (indices 1 (w - 1)).map fun x => (x, y)

def pthreadHyst (w h : Nat) (t : Fin numThreads) : Worker :=
  ⟨pthreadRows w h (yStart numThreads h t) (yEnd numThreads h t), .next⟩

/-- `dispatch_threads` with `pthread_hyst`. -/
def PthreadPass (w h : Nat) (before after : Edges) : Prop :=
  ∃ f, ForkRun (act w true) Worker.finished (Forked.start before (pthreadHyst w h)) f ∧
    f.joined = numThreads ∧ f.state.shared = after

def cpuCleanup (w h : Nat) (edges : Edges) : Edges :=
  (List.range (w * h)).foldl
    (fun edges i => if edges i = 128 then Function.update edges i 0 else edges) edges

def PthreadPath (w h : Nat) (before after : Edges) : Prop :=
  ∃ middle, Times (PthreadPass w h) hystIter before middle ∧ after = cpuCleanup w h middle

/-! The single thread of `canny_compare.cu`. -/

def visit (w : Nat) (edges : Edges) (p : Pixel) : Edges :=
  if edges (cell w p) = 128 then
    let conn := (around p).any fun q => edges (cell w q) == 255
    if conn then Function.update edges (cell w p) 255 else edges
  else edges

def cpuPass (w h : Nat) (edges : Edges) : Edges := (interiorPixels w h).foldl (visit w) edges

def cpuHysteresis (w h : Nat) (edges : Edges) : Edges :=
  (List.range hystIter).foldl (fun edges _ => cpuPass w h edges) edges

def cpuPath (w h : Nat) (edges : Edges) : Edges := cpuCleanup w h (cpuHysteresis w h edges)

end CudaOpenMp.Canny
