import CudaOpenMp.Image.Raster
import CudaOpenMp.Library.Stores
import Mathlib.Algebra.Order.Field.Rat
import Mathlib.Order.Defs.Unbundled

/-!
Executable model of the first two stages of `canny_compare.cu` and `canny_cuda.cu`, in the
three versions: kernel, single thread and pthread. Magnitudes are of any type with a test for
`≥`; the square root and the angle are parameters.
-/

namespace CudaOpenMp.Canny

open Rasters Raster Stores IndexRanges

inductive Word where
  | mag (index : Nat)
  | dir (index : Nat)
  | edges (index : Nat)
  deriving DecidableEq

abbrev Content (M : Type) : Word → Type
  | .mag _ => M
  | .dir _ => UInt8
  | .edges _ => UInt8

abbrev Buffers (M : Type) := Memory (Content M)

abbrev Statement (M : Type) := Assign (Content M)

/-- The direction in `sobel_kernel`, from an angle in degrees. -/
def kernelDirection (angle : Rat) : UInt8 :=
  let angle := if angle < 0 then angle + 180 else angle
  if (0 ≤ angle ∧ angle < 22.5) ∨ (157.5 ≤ angle ∧ angle ≤ 180) then 0
  else if 22.5 ≤ angle ∧ angle < 67.5 then 45
  else if 67.5 ≤ angle ∧ angle < 112.5 then 90
  else if 112.5 ≤ angle ∧ angle < 157.5 then 135
  else 0

def quantizeAngle (angle : Rat) : UInt8 :=
  let angle := if angle < 0 then angle + 180 else angle
  if (0 ≤ angle ∧ angle < 22.5) ∨ 157.5 ≤ angle then 0
  else if 22.5 ≤ angle ∧ angle < 67.5 then 45
  else if 67.5 ≤ angle ∧ angle < 112.5 then 90
  else 135

section
variable {M : Type} [Zero M] (norm : Int → Int → M) (direction : Int → Int → UInt8)
  (input : Nat → UInt8) (w h : Nat)

def magnitudeAt (p : Pixel) : M :=
  norm (gradX (windowAt input w p)) (gradY (windowAt input w p))

def directionAt (p : Pixel) : UInt8 :=
  direction (gradX (windowAt input w p)) (gradY (windowAt input w p))

def storeGradient (p : Pixel) : List (Statement M) :=
  [assign (.mag (cell w p)) fun _ => magnitudeAt norm input w p,
    assign (.dir (cell w p)) fun _ => directionAt direction input w p]

def clearGradient (p : Pixel) : List (Statement M) :=
  [assign (.mag (cell w p)) fun _ => (0 : M), assign (.dir (cell w p)) fun _ => (0 : UInt8)]

def sobelKernel (place : Place (gridSize w h (16, 16)) (16, 16)) : List (Statement M) :=
  let p := place.pixel
  if Interior w h p then storeGradient norm direction input w p
  else if Inside w h p then clearGradient w p
  else []

def cpuSobel : List (Statement M) :=
  (interiorPixels w h).flatMap (storeGradient norm direction input w)

def pthreadSobel (first last : Nat) : List (Statement M) :=
  (indices first last).flatMap fun y =>
    if y = 0 ∨ y = h - 1 then (List.range w).flatMap fun x => clearGradient w (x, y)
    else (List.range w).flatMap fun x =>
      if x = 0 ∨ x = w - 1 then clearGradient w (x, y)
      else storeGradient norm direction input w (x, y)

end

/-! Non-maximum suppression and thresholds. -/

def ends (d : UInt8) (p : Pixel) : Option (Pixel × Pixel) :=
  if d = 0 then some (shift p (-1) 0, shift p 1 0)
  else if d = 45 then some (shift p (-1) 1, shift p 1 (-1))
  else if d = 90 then some (shift p 0 (-1), shift p 0 1)
  else if d = 135 then some (shift p (-1) (-1), shift p 1 1)
  else none

section
variable {M : Type} [Zero M] [LE M] [DecidableLE M] (lowThr highThr : M) (w h : Nat)

def isMaximum (buffers : Buffers M) (p : Pixel) : Bool :=
  let m : M := buffers (.mag (cell w p))
  let d : UInt8 := buffers (.dir (cell w p))
  let (m1, m2) : M × M := match ends d p with
    | some (a, b) => (buffers (.mag (cell w a)), buffers (.mag (cell w b)))
    | none => (0, 0)
  decide (m1 ≤ m) && decide (m2 ≤ m)

def level (m : M) : UInt8 := if highThr ≤ m then 255 else if lowThr ≤ m then 128 else 0

/-- The `if` and its `else` branch in the kernel and in `pthread_nms`. -/
def storeLevel (p : Pixel) : List (Statement M) :=
  [assign (.edges (cell w p)) fun buffers =>
    if isMaximum w buffers p then level lowThr highThr (buffers (.mag (cell w p)) : M) else 0]

def clearLevel (p : Pixel) : List (Statement M) :=
  [assign (.edges (cell w p)) fun _ => (0 : UInt8)]

def nmsThresholdKernel (place : Place (gridSize w h (16, 16)) (16, 16)) : List (Statement M) :=
  let p := place.pixel
  if Interior w h p then storeLevel lowThr highThr w p
  else if Inside w h p then clearLevel w p
  else []

def cpuClear : List (Statement M) :=
  (List.range (w * h)).map fun index => assign (.edges index) fun _ => (0 : UInt8)

/-- The loops of `cpu_nms_threshold`, whose `if` has no `else`. -/
def cpuLevels : List (Statement M) :=
  (interiorPixels w h).map fun p => ⟨.edges (cell w p), fun buffers =>
    if isMaximum w buffers p then some (level lowThr highThr (buffers (.mag (cell w p)) : M))
    else none⟩

def cpuNmsThreshold : List (Statement M) := cpuClear w h ++ cpuLevels lowThr highThr w h

def pthreadNms (first last : Nat) : List (Statement M) :=
  (indices first last).flatMap fun y =>
    if y = 0 ∨ y = h - 1 then (List.range w).flatMap fun x => clearLevel w (x, y)
    else (List.range w).flatMap fun x =>
      if x = 0 ∨ x = w - 1 then clearLevel w (x, y)
      else storeLevel lowThr highThr w (x, y)

end

end CudaOpenMp.Canny
