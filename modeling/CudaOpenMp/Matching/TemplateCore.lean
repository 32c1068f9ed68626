import CudaOpenMp.Library.CInt
import CudaOpenMp.Library.Moments
import CudaOpenMp.Library.Raster
import CudaOpenMp.Library.Stores
import Mathlib.Algebra.Order.Floor.Defs
import Mathlib.Data.Fintype.Prod
import Mathlib.Data.Nat.Sqrt
import Mathlib.Data.Rat.Floor
import Mathlib.Data.UInt

/-!
Executable model of the two kernels of `test_all.cu` and of the loops on the host, there and in
`test_all_cpu.cpp`. Numbers of type `float` are rational and `sqrtf` is a parameter. Indices into
the matrices and the sizes of these are ints, which can overflow; what depends only on the
template and on a block stays far below.
-/

namespace CudaOpenMp.TemplateMatching

open Rasters Stores Tiling Moments

/-- A target and a template, stored row by row. -/
structure TestCase where
  T : Nat → UInt8
  tRows : Nat
  tCols : Nat
  S : Nat → UInt8
  sRows : Nat
  sCols : Nat

def maxSSize : Nat := 1024

structure TestCase.Valid (tc : TestCase) : Prop where
  rows : 1 ≤ tc.sRows ∧ tc.sRows ≤ tc.tRows
  cols : 1 ≤ tc.sCols ∧ tc.sCols ≤ tc.tCols
  small : tc.sRows * tc.sCols ≤ maxSSize

def TestCase.outR (tc : TestCase) : Nat := tc.tRows - tc.sRows + 1

def TestCase.outC (tc : TestCase) : Nat := tc.tCols - tc.sCols + 1

def TestCase.outSize (tc : TestCase) : Option Nat :=
  (int32 (tc.outR * tc.outC)).map Int.toNat

def TestCase.sSize (tc : TestCase) : Option Nat :=
  (int32 (tc.sRows * tc.sCols)).map Int.toNat

inductive Cell where
  | pcc (index : Nat)
  | ssd (index : Nat)
deriving DecidableEq

/-- An `ssd` has no value when a conversion to `unsigned int` left the range of that type. -/
def Contents : Cell → Type
  | .pcc _ => Rat
  | .ssd _ => Option UInt32

abbrev Output := Memory Contents

abbrev Statement := Assign Contents

structure Scores where
  pcc : Rat
  ssd : Option UInt32

def write (outIdx : Nat) (scores : Scores) : List Statement :=
  [assign (.pcc outIdx) fun _ => scores.pcc, assign (.ssd outIdx) fun _ => scores.ssd]

/-- How often a thread writes a cell. -/
def writes (program : Option (List Statement)) (cell : Cell) : Nat :=
  ((program.getD []).map Assign.loc).count cell

structure WritesOnce {ι : Type} (program : ι → Option (List Statement)) (size : Nat) : Prop where
  defined : ∀ i, (program i).isSome = true
  inside : ∀ i, ∀ a ∈ (program i).getD [], ∃ k < size, a.loc = .pcc k ∨ a.loc = .ssd k
  once : ∀ k < size, ∀ written ∈ [Cell.pcc k, Cell.ssd k], ∃ i,
    writes (program i) written = 1 ∧ ∀ j, j ≠ i → writes (program j) written = 0

def toFloat (byte : UInt8) : Rat := byte.toNat

/-- The conversion to `unsigned int`, which cuts off the fraction. -/
def toUnsigned (value : Rat) : Option UInt32 :=
  if -1 < value ∧ value < 2 ^ 32 then some (UInt32.ofNat ⌊value⌋.toNat) else none

section
variable (sqrtf : Rat → Rat)

def correlation (num denX denY : Rat) : Rat :=
  if 0 < denX ∧ 0 < denY then num / (sqrtf denX * sqrtf denY) else 0

structure Sums where
  sumX : Rat
  sumY : Rat
  sumX2 : Rat
  sumY2 : Rat
  sumXY : Rat

def Sums.add (sums : Sums) (x y : Rat) : Sums where
  sumX := sums.sumX + x
  sumY := sums.sumY + y
  sumX2 := sums.sumX2 + x * x
  sumY2 := sums.sumY2 + y * y
  sumXY := sums.sumXY + x * y

def Sums.scores (sums : Sums) (n : Nat) : Scores :=
  let meanX := sums.sumX / n
  let meanY := sums.sumY / n
  let num := sums.sumXY - n * meanX * meanY
  let denX := sums.sumX2 - n * meanX * meanX
  let denY := sums.sumY2 - n * meanY * meanY
  ⟨correlation sqrtf num denX denY, toUnsigned (sums.sumX2 + sums.sumY2 - 2 * sums.sumXY)⟩

def onePass (rows cols : Nat) (x y : Nat → Nat → Option UInt8) : Option Scores := do
  let sums ← loopsM rows cols (fun (sums : Sums) i j => do
    return sums.add (toFloat (← x i j)) (toFloat (← y i j))) ⟨0, 0, 0, 0, 0⟩
  return sums.scores sqrtf (rows * cols)

structure Totals where
  sumX : Rat
  sumY : Rat

def Totals.add (totals : Totals) (x y : Rat) : Totals := ⟨totals.sumX + x, totals.sumY + y⟩

structure Deviations where
  num : Rat
  denX : Rat
  denY : Rat
  ssd : Option UInt32

def Deviations.add (meanX meanY : Rat) (dev : Deviations) (x y : Rat) : Deviations :=
  let dx := x - meanX
  let dy := y - meanY
  let diff := x - y
  { num := dev.num + dx * dy
    denX := dev.denX + dx * dx
    denY := dev.denY + dy * dy
    ssd := do
      let ssd ← dev.ssd
      let square ← toUnsigned (diff * diff)
      pure (ssd + square) }

def twoPasses (rows cols : Nat) (x y : Nat → Nat → Option UInt8) : Option Scores := do
  let n := rows * cols
  let totals ← loopsM rows cols (fun (totals : Totals) i j => do
    return totals.add (toFloat (← x i j)) (toFloat (← y i j))) ⟨0, 0⟩
  let meanX := totals.sumX / n
  let meanY := totals.sumY / n
  let dev ← loopsM rows cols (fun (dev : Deviations) i j => do
    return dev.add meanX meanY (toFloat (← x i j)) (toFloat (← y i j))) ⟨0, 0, 0, some 0⟩
  return ⟨correlation sqrtf dev.num dev.denX dev.denY, dev.ssd⟩

/-! The host. -/

variable (tc : TestCase)

/-- The pixels of the template, and those of the target under it when it lies at `(c, r)`. -/
def templateAt (S : Nat → UInt8) (i j : Nat) : Option UInt8 := do
  return S (← intIndex i tc.sCols j)

def targetAt (c r : Int) (i j : Nat) : Option UInt8 := do
  let row ← int32 (r + i)
  let column ← int32 (c + j)
  return tc.T (← intIndex row tc.tCols column)

/-- The iterations of the two loops that each thread of a parallel region runs. -/
structure HandedOut {ι : Type} (share : ι → List Pixel) (w h : Nat) : Prop where
  inside : ∀ i, ∀ p ∈ share i, Inside w h p
  once : ∀ p, Inside w h p → ∃ i, (share i).count p = 1 ∧ ∀ j, j ≠ i → p ∉ share j

def matchCPU {numThreads : Nat} (share : Fin numThreads → List Pixel) (thread : Fin numThreads) :
    Option (List Statement) := do
  let written ← (share thread).mapM fun (c, r) => do
    let scores ← onePass sqrtf tc.sRows tc.sCols (templateAt tc tc.S) (targetAt tc c r)
    let outIdx ← intIndex r (tc.tCols - tc.sCols + 1 : Nat) c
    return write outIdx scores
  return written.flatten

def templateSums (S : Nat → UInt8) (n : Nat) : Rat × Rat :=
  (List.range n).foldl (fun sums i => (sums.1 + toFloat (S i),
    sums.2 + toFloat (S i) * toFloat (S i))) (0, 0)

structure TargetSums where
  sumY : Rat
  sumY2 : Rat
  sumXY : Rat

def TargetSums.add (sums : TargetSums) (x y : Rat) : TargetSums :=
  ⟨sums.sumY + y, sums.sumY2 + y * y, sums.sumXY + x * y⟩

/-- The loops of `test_all_cpu.cpp`. -/
def TestAllCpu.matchCPU {numThreads : Nat} (share : Fin numThreads → List Pixel)
    (thread : Fin numThreads) : Option (List Statement) := do
  let outC := tc.tCols - tc.sCols + 1
  let n := tc.sRows * tc.sCols
  let (sumX, sumX2) := templateSums tc.S n
  let meanX := sumX / n
  let denX := sumX2 - n * meanX * meanX
  let sf := fun i => toFloat (tc.S i)
  let written ← (share thread).mapM fun (c, r) => do
    let sums ← loopsM tc.sRows tc.sCols (fun (sums : TargetSums) i j => do
      return sums.add (sf (← intIndex i tc.sCols j)) (toFloat (← targetAt tc c r i j))) ⟨0, 0, 0⟩
    let meanY := sums.sumY / n
    let denY := sums.sumY2 - n * meanY * meanY
    let num := sums.sumXY - n * meanX * meanY
    let idx ← intIndex r outC c
    return write idx
      ⟨correlation sqrtf num denX denY, toUnsigned (sumX2 + sums.sumY2 - 2 * sums.sumXY)⟩
  return written.flatten

/-! The kernels. -/

/-- A size of a block that `run_test_case` does not skip. -/
structure BlockSize where
  x : Nat
  y : Nat
  positive : 0 < x ∧ 0 < y
  few : x * y ≤ 1024

def BlockSize.dims (block : BlockSize) : Nat × Nat := (block.x, block.y)

abbrev Thread (tc : TestCase) (block : BlockSize) :=
  Place (gridSize tc.outC tc.outR block.dims) block.dims

variable (block : BlockSize)

/-- The coordinates of a thread, which are computed without sign and stored in ints. -/
def threadC {tc : TestCase} {block : BlockSize} (place : Thread tc block) : Int :=
  narrow place.pixel.1

def threadR {tc : TestCase} {block : BlockSize} (place : Thread tc block) : Int :=
  narrow place.pixel.2

def matchKernel (place : Thread tc block) : Option (List Statement) :=
  let c := threadC place
  let r := threadR place
  if r < (tc.tRows - tc.sRows + 1 : Nat) ∧ c < (tc.tCols - tc.sCols + 1 : Nat) then do
    let scores ← twoPasses sqrtf tc.sRows tc.sCols (templateAt tc tc.S) (targetAt tc c r)
    let outIdx ← intIndex r (tc.tCols - tc.sCols + 1 : Nat) c
    return write outIdx scores
  else some []

end

/-- The copy into `c_S`, which fails when the template does not fit. -/
def memcpyToSymbol (hS : Nat → UInt8) (count : Nat) (cS : Nat → UInt8) : Option (Nat → UInt8) :=
  if count ≤ maxSSize then some fun i => if i < count then hS i else cS i else none

section
variable (tc : TestCase) (block : BlockSize)

def tileW : Nat := block.x + tc.sCols - 1

def tileH : Nat := block.y + tc.sRows - 1

/-- The number of bytes of shared memory that the launch asks for. -/
def sharedMemSize : Nat := (block.y + tc.sRows - 1) * (block.x + tc.sCols - 1)

abbrev Shared := Memory fun _ : Nat => UInt8

abbrev Lane := Fin block.dims.1 × Fin block.dims.2

def blockOf {tc : TestCase} {block : BlockSize} (place : Thread tc block) : Nat × Nat :=
  (place.1.1, place.1.2)

/-- One turn of the loop before the barrier. -/
def loadCell (numbers : Nat × Nat) (i : Nat) : Option (Assign fun _ : Nat => UInt8) := do
  let tr := i / tileW tc block
  let tcol := i % tileW tc block
  let globalR ← int32 (narrow (numbers.2 * block.y) + tr)
  let globalC ← int32 (narrow (numbers.1 * block.x) + tcol)
  if globalR < tc.tRows ∧ globalC < tc.tCols then
    let index ← intIndex globalR tc.tCols globalC
    return assign (tr * tileW tc block + tcol) fun _ => tc.T index
  else
    return assign (tr * tileW tc block + tcol) fun _ => 0

def loadTile (numbers : Nat × Nat) (thread : Lane block) :
    Option (List (Assign fun _ : Nat => UInt8)) :=
  let tid := thread.2.val * block.x + thread.1.val
  (strided tid (tileW tc block * tileH tc block) (block.x * block.y)).mapM
    (loadCell tc block numbers)

def tileIndex (thread : Lane block) (i j : Nat) : Nat :=
  (thread.2 + i) * tileW tc block + (thread.1 + j)

def matchTile (sqrtf : Rat → Rat) (cS : Nat → UInt8) (sT : Shared) (place : Thread tc block) :
    Option (List Statement) :=
  let c := threadC place
  let r := threadR place
  if r < (tc.tRows - tc.sRows + 1 : Nat) ∧ c < (tc.tCols - tc.sCols + 1 : Nat) then do
    let scores ← onePass sqrtf tc.sRows tc.sCols (templateAt tc cS) fun i j =>
      some (sT (tileIndex tc block place.2 i j))
    let outIdx ← intIndex r (tc.tCols - tc.sCols + 1 : Nat) c
    return write outIdx scores
  else some []

/-- The threads of the launch after the copy into `c_S`. Every block fills its tile, whose memory
has any contents before, and its threads read from it after the barrier. -/
def MatchKernelOptimized (sqrtf : Rat → Rat) (program : Thread tc block → Option (List Statement)) :
    Prop :=
  ∃ (count : Nat) (old cS : Nat → UInt8) (before sT : Nat × Nat → Shared),
    tc.sSize = some count ∧ memcpyToSymbol tc.S count old = some cS ∧
    (∀ place : Thread tc block,
      Runs (loadTile tc block (blockOf place)) (before (blockOf place)) (sT (blockOf place))) ∧
    program = fun place => matchTile tc block sqrtf cS (sT (blockOf place)) place

end

end CudaOpenMp.TemplateMatching
