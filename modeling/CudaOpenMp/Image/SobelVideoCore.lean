import CudaOpenMp.Image.SobelBenchmarkCore

/-!
Executable model of `sobel_video.cu`: the kernel that shows the Sobel result in the blocks that have
been revealed, and the frames that `main` writes. The square root is a parameter.
-/

namespace CudaOpenMp.SobelVideo

open Rasters Raster Stores
open SobelBenchmark (shade)

def blockSize : Nat × Nat := (16, 16)

section
variable (magnitude : Int → Int → Rat) (input : Nat → UInt8) (w h : Nat)

def sobelKernelProgressive (revealedBlocks blocksPerRow : Nat)
    (place : Place (gridSize w h blockSize) blockSize) : List Statement :=
  let blockLinearIdx := place.1.2 * blocksPerRow + place.1.1
  let (x, y) := place.pixel
  if x ≥ w ∨ y ≥ h then []
  else if blockLinearIdx > revealedBlocks then
    [assign (cell w (x, y)) fun _ => input (cell w (x, y))]
  else if x > 0 ∧ x < w - 1 ∧ y > 0 ∧ y < h - 1 then
    [assign (cell w (x, y)) fun _ => shade magnitude (windowAt input w (x, y))]
  else [assign (cell w (x, y)) fun _ => input (cell w (x, y))]

/-! `main`. -/

def totalBlocks : Nat := (gridSize w h blockSize).1 * (gridSize w h blockSize).2

def stepOf (totalBlocks : Nat) : Nat :=
  let step := (totalBlocks + 90 - 1) / 90
  if step < 1 then 1 else step

theorem stepOf_positive (totalBlocks : Nat) : 0 < stepOf totalBlocks := by
  rw [stepOf]
  split <;> omega

def revealedFrom (totalBlocks revealed : Nat) : List Nat :=
  if revealed ≤ totalBlocks then
    revealed :: revealedFrom totalBlocks (revealed + stepOf totalBlocks)
  else []
termination_by totalBlocks + 1 - revealed
decreasing_by
  have positive := stepOf_positive totalBlocks
  omega

/-- Launches one after the other on the same output buffer, which is copied back after each. -/
inductive Launches : Image → List Nat → List Image → Image → Prop
  | nil (d : Image) : Launches d [] [] d
  | cons {d next last : Image} {revealed : Nat} {rest : List Nat} {frames : List Image} :
      Launch (sobelKernelProgressive magnitude input w h revealed (gridSize w h blockSize).1) d next →
      Launches next rest frames last → Launches d (revealed :: rest) (next :: frames) last

/-- The frames of the loop, and 30 times the frame of one more launch. -/
def Video (d : Image) (written : List Image) : Prop :=
  ∃ frames last held,
    Launches magnitude input w h d (revealedFrom (totalBlocks w h) 0) frames last ∧
    Launch (sobelKernelProgressive magnitude input w h (totalBlocks w h)
      (gridSize w h blockSize).1) last held ∧
    written = frames ++ List.replicate 30 held

end

end CudaOpenMp.SobelVideo
