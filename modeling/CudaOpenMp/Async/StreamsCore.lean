import CudaOpenMp.Library.Streams
import Mathlib.Data.Finset.Prod
import Mathlib.Order.Interval.Finset.Nat

/-!
Executable model of `async.cu`, `block_stream.cu`, `block_stream1.cu`, `nonblock_stream.cu` and
`nonblock_stream1.cu`. A call of the runtime runs cell by cell; the legacy default stream waits
for the streams of `cudaStreamCreate` and these wait for it.
-/

namespace CudaOpenMp.Async

open Streams

structure Cell (F : Type) where
  a : F
  d_a : F
deriving DecidableEq

structure Maths (F : Type) where
  float : Nat → F
  sinf : F → F
  cosf : F → F
  sqrtf : F → F
  fabs : F → F

def blockSize : Nat := 256

/-- `n / nStreams`, with `n = 4 * 1024 * blockSize * nStreams` -/
def streamSize (nStreams : Nat) : Nat := 4 * 1024 * blockSize * nStreams / nStreams

section
variable {F : Type} [Zero F] [One F] [Add F] [Sub F] [Mul F]

def kernel (maths : Maths F) (i : Nat) (x : F) : F :=
  let s := maths.sinf (maths.float i)
  let c := maths.cosf (maths.float i)
  x + maths.sqrtf (s * s + c * c)

def maxError [LT F] [DecidableLT F] (maths : Maths F) (a : List F) : F :=
  a.foldl (fun maxE x => if maths.fabs (x - 1) > maxE then maths.fabs (x - 1) else maxE) 0

/-- The errors that are printed, one for every `n` values read. -/
def printed [LT F] [DecidableLT F] (maths : Maths F) (n : Nat) : Nat → List F → List F
  | 0, _ => []
  | versions + 1, seen =>
      maxError maths (seen.take n) :: printed maths n versions (seen.drop n)

def memset (n : Nat) : Call Nat (Cell F) :=
  ⟨.host, Finset.range n, fun _ cell => { cell with a := 0 }⟩

def upload (stream : Stream) (offset size : Nat) : Call Nat (Cell F) :=
  ⟨stream, Finset.Ico offset (offset + size), fun _ cell => { cell with d_a := cell.a }⟩

def launch (maths : Maths F) (stream : Stream) (blocks threads offset : Nat) : Call Nat (Cell F) :=
  ⟨stream,
    (Finset.range blocks ×ˢ Finset.range threads).image fun at' => offset + at'.2 + at'.1 * threads,
    fun i cell => { cell with d_a := kernel maths i cell.d_a }⟩

def download (stream : Stream) (offset size : Nat) : Call Nat (Cell F) :=
  ⟨stream, Finset.Ico offset (offset + size), fun _ cell => { cell with a := cell.d_a }⟩

def record : Call Nat (Cell F) := ⟨.default, ∅, fun _ cell => cell⟩

/-! The versions. `maxError` reads all of `a`. -/

def reads (n : Nat) : List (Command Nat (Cell F)) := (List.range n).map .read

def baseline (maths : Maths F) (n : Nat) : List (Command Nat (Cell F)) :=
  [.issue (memset n), .wait, .issue record, .issue (upload .default 0 n), .wait,
    .issue (launch maths .default (n / blockSize) blockSize 0), .issue (download .default 0 n), .wait,
    .issue record, .wait] ++ reads n

/-- From `memset` to `maxError`, with the calls on the streams in between. -/
def version (n : Nat) (calls : List (Call Nat (Cell F))) : List (Command Nat (Cell F)) :=
  [.issue (memset n), .wait, .issue record] ++ calls.map .issue ++ [.issue record, .wait] ++ reads n

def version1 (maths : Maths F) (nStreams : Nat) (stream : Nat → Stream) : List (Call Nat (Cell F)) :=
  (List.range nStreams).flatMap fun i =>
    let offset := i * streamSize nStreams
    [upload (stream i) offset (streamSize nStreams),
      launch maths (stream i) (streamSize nStreams / blockSize) blockSize offset,
      download (stream i) offset (streamSize nStreams)]

def version2 (maths : Maths F) (nStreams : Nat) (stream : Nat → Stream) : List (Call Nat (Cell F)) :=
  (List.range nStreams).map (fun i =>
      upload (stream i) (i * streamSize nStreams) (streamSize nStreams)) ++
    (List.range nStreams).map (fun i =>
      launch maths (stream i) (streamSize nStreams / blockSize) blockSize (i * streamSize nStreams)) ++
    (List.range nStreams).map (fun i =>
      download (stream i) (i * streamSize nStreams) (streamSize nStreams))

/-- `async.cu` has `nStreams = 4`. -/
def async (maths : Maths F) (nStreams : Nat) : List (Command Nat (Cell F)) :=
  baseline maths (4 * 1024 * blockSize * nStreams) ++
    version (4 * 1024 * blockSize * nStreams) (version1 maths nStreams .blocking) ++
    version (4 * 1024 * blockSize * nStreams) (version2 maths nStreams .blocking)

/-- The second part goes to the default stream, the others to `stream[0]`, `stream[1]` and so on. -/
def around (create : Nat → Stream) : Nat → Stream
  | 0 => create 0
  | 1 => .default
  | i + 2 => create (i + 1)

/-- `block_stream.cu` with `nStreams = 4` and `block_stream1.cu` with `nStreams = 3` -/
def blockStream (maths : Maths F) (nStreams : Nat) : List (Command Nat (Cell F)) :=
  baseline maths (4 * 1024 * blockSize * nStreams) ++
    version (4 * 1024 * blockSize * nStreams) (version2 maths nStreams (around .blocking))

/-- `nonblock_stream.cu` with `nStreams = 4` and `nonblock_stream1.cu` with `nStreams = 3` -/
def nonblockStream (maths : Maths F) (nStreams : Nat) : List (Command Nat (Cell F)) :=
  baseline maths (4 * 1024 * blockSize * nStreams) ++
    version (4 * 1024 * blockSize * nStreams) (version2 maths nStreams (around .nonBlocking))

end

end CudaOpenMp.Async
