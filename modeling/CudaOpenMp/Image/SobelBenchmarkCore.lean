import CudaOpenMp.Image.Pixelwise
import CudaOpenMp.Library.Tiling

/-!
Executable model of the five kernels of `sobel_benchmark.cu` and of the buffers that `main`
hands to them. The magnitude of a gradient is a parameter.
-/

namespace CudaOpenMp.SobelBenchmark

open Rasters Raster Stores IndexRanges Tiling

section
variable (magnitude : Int → Int → Rat)

def shade (window : Window) : UInt8 := toByte (magnitude (gradX window) (gradY window))

/-! One pixel for each thread. -/

variable (input : Nat → UInt8) (w h : Nat) {grid block : Nat × Nat}

def sobelBaseline (place : Place grid block) : List Statement :=
  let (x, y) := place.pixel
  if x < 1 ∨ x ≥ w - 1 ∨ y < 1 ∨ y ≥ h - 1 then []
  else [assign (cell w (x, y)) fun _ => shade magnitude (windowAt input w (x, y))]

def ldg (input : Nat → UInt8) (index : Nat) : UInt8 := input index

def sobelLdg (place : Place grid block) : List Statement :=
  let (x, y) := place.pixel
  if x < 1 ∨ x ≥ w - 1 ∨ y < 1 ∨ y ≥ h - 1 then []
  else [assign (cell w (x, y)) fun _ =>
    shade magnitude fun dx dy => ldg input (cell w (shift (x, y) dx dy))]

/-- `tex` is the texture, read at a column and a row that may lie outside the image. -/
def sobelTex (tex : Int → Int → UInt8) (place : Place grid block) : List Statement :=
  let (x, y) := place.pixel
  if x ≥ w ∨ y ≥ h then []
  else [assign (cell w (x, y)) fun _ => shade magnitude fun dx dy => tex (x + dx) (y + dy)]

end

/-! Four pixels for each thread, from words of four bytes. -/

def paddedW (w : Nat) : Nat := ((BitVec.ofNat 32 w + 3#32) &&& ~~~3#32).toNat

/-- The rows copied into the padded buffer. -/
def padCopies (input : Nat → UInt8) (w h : Nat) : List Statement :=
  (List.range h).flatMap fun y =>
    (List.range w).map fun x => assign (y * paddedW w + x) fun _ => input (y * w + x)

def hPad (input : Nat → UInt8) (w h : Nat) : Image := exec (padCopies input w h) fun _ => 0

structure Uchar4 where
  x : UInt8
  y : UInt8
  z : UInt8
  w : UInt8

def loadWord (bytes : Image) (index : Nat) : Uchar4 :=
  ⟨bytes (4 * index), bytes (4 * index + 1), bytes (4 * index + 2), bytes (4 * index + 3)⟩

/-- The six bytes of a row, from one before the word of a thread to one after it. -/
def strip (bytes : Image) (pitch4 col4 row : Nat) : List UInt8 :=
  let r0 := loadWord bytes (row * pitch4 + (col4 - 1))
  let r1 := loadWord bytes (row * pitch4 + col4)
  let r2 := loadWord bytes (row * pitch4 + (col4 + 1))
  [r0.w, r1.x, r1.y, r1.z, r1.w, r2.x]

def sobelVec4 (magnitude : Int → Int → Rat) (bytes : Image) (w h pitch4 : Nat)
    {grid block : Nat × Nat} (place : Place grid block) : List Statement :=
  let (col4, y) := place.pixel
  let x := col4 * 4
  if x < 1 ∨ x + 3 ≥ w - 1 ∨ y < 1 ∨ y ≥ h - 1 then []
  else (List.range 4).map fun i => assign (y * w + (x + i)) fun _ =>
    shade magnitude fun dx dy => (strip bytes pitch4 col4 (y + dy).toNat).getD (i + 1 + dx).toNat 0

def vec4Threads (magnitude : Int → Int → Rat) (input : Nat → UInt8) (w h : Nat)
    (block : Nat × Nat) : Place (gridSize (paddedW w / 4) h block) block → List Statement :=
  sobelVec4 magnitude (hPad input w h) w h (paddedW w / 4)

/-! Tiles in shared memory. -/

def tile : Nat := 16

def SW : Nat := tile + 2

/-- The shared array of a block; a cell that was not written has no value. -/
abbrev Shared := Memory fun _ : Nat × Nat => Option UInt8

/-- `blockIdx * TILE - 1`, computed without sign and stored in an `int`. -/
def base (block : Nat) : Int := (BitVec.ofNat 32 block * BitVec.ofNat 32 tile - 1#32).toInt

def outCoord (block thread : Nat) : Int :=
  (BitVec.ofNat 32 block * BitVec.ofNat 32 tile + BitVec.ofNat 32 thread).toInt

def clamp (size : Nat) (coord : Int) : Int := max 0 (min (size - 1) coord)

def sourceIndex (w h : Nat) (block : Nat × Nat) (i : Nat) : Int :=
  let gx := clamp w (base block.1 + (i % SW : Nat))
  let gy := clamp h (base block.2 + (i / SW : Nat))
  gy * w + gx

/-- A load that has no value outside the array. -/
def fetch (input : Nat → UInt8) (size : Nat) (index : Int) : Option UInt8 :=
  if 0 ≤ index ∧ index < size then some (input index.toNat) else none

abbrev Lane := Fin tile × Fin tile

/-- The loop before the barrier. -/
def loadTile (input : Nat → UInt8) (w h : Nat) (block : Nat × Nat) (thread : Lane) :
    List (Assign fun _ : Nat × Nat => Option UInt8) :=
  let tid := thread.2.val * tile + thread.1.val
  (strided tid (SW * SW) (tile * tile)).map fun i =>
    assign (i / SW, i % SW) fun _ => fetch input (w * h) (sourceIndex w h block i)

def sharedAt (smem : Shared) (row col : Int) : Option UInt8 :=
  if (0 ≤ row ∧ row < SW) ∧ 0 ≤ col ∧ col < SW then smem (row.toNat, col.toNat) else none

def offsets : List (Int × Int) :=
  [(-1, -1), (1, -1), (-1, 0), (1, 0), (-1, 1), (1, 1), (0, -1), (0, 1)]

/-- What a thread stores after the barrier; without a value if it reads a cell without one. -/
def drawTile (magnitude : Int → Int → Rat) (w h : Nat) (smem : Shared) (block : Nat × Nat)
    (thread : Lane) : Option (List Statement) :=
  let outX := outCoord block.1 thread.1
  let outY := outCoord block.2 thread.2
  let read (dx dy : Int) : Option UInt8 :=
    sharedAt smem (thread.2.val + 1 + dy) (thread.1.val + 1 + dx)
  if outX < 1 ∨ outX ≥ (w : Int) - 1 ∨ outY < 1 ∨ outY ≥ (h : Int) - 1 then some []
  else if offsets.all fun d => (read d.1 d.2).isSome then
    some [assign (outY * w + outX).toNat fun _ =>
      shade magnitude fun dx dy => (read dx dy).getD 0]
  else none

abbrev SmemPlace (w h : Nat) := Place (gridSize w h (tile, tile)) (tile, tile)

def SmemPlace.block {w h : Nat} (place : SmemPlace w h) : Nat × Nat := (place.1.1, place.1.2)

/-- Every block fills its tile; after the barrier its threads draw from it. -/
def SmemLaunch (magnitude : Int → Int → Rat) (input : Nat → UInt8) (w h : Nat)
    (before after : Image) : Prop :=
  ∃ (tiles : Nat × Nat → Shared) (program : SmemPlace w h → List Statement),
    (∀ place : SmemPlace w h,
      Launch (loadTile input w h place.block) (fun _ => none) (tiles place.block)) ∧
    (∀ place, drawTile magnitude w h (tiles place.block) place.block place.2 = some (program place)) ∧
    Launch program before after

end CudaOpenMp.SobelBenchmark
