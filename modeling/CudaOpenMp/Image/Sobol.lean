import CudaOpenMp.Image.SobelBenchmark

/-!
The kernel of `sobol.cu` and the loops of `sobol_cpu.cpp`. Neither stores anything in the frame
of the picture, and only the loops start from a cleared one.
-/

namespace CudaOpenMp.Sobol

open Rasters Raster Stores SobelBenchmark

section
variable (magnitude : Int → Int → Rat) (input : Nat → UInt8) (w h : Nat)

def sobelKernel (place : Place (gridSize w h (16, 8)) (16, 8)) : List Statement :=
  let (x, y) := place.pixel
  if x > 0 ∧ x < w - 1 ∧ y > 0 ∧ y < h - 1 then
    [assign (cell w (x, y)) fun _ =>
      shade magnitude fun dx dy => ldg input (cell w (shift (x, y) dx dy))]
  else []

def cpuLoops : List Statement :=
  (interiorPixels w h).flatMap fun p =>
    [assign (cell w p) fun _ => shade magnitude (windowAt input w p)]

/-- The vector is filled with zeros when it is made. -/
def outputData : Image := exec (cpuLoops magnitude input w h) fun _ => 0

end

variable {magnitude : Int → Int → Rat} {input : Nat → UInt8} {w h : Nat}

theorem sobelKernel_eq : sobelKernel magnitude input w h = fun place =>
    paint w (inner w h fun p => shade magnitude (windowAt input w p)) place.pixel := by
  funext place
  rw [paint_inner]
  rfl

theorem cpuLoops_pixelwise :
    Pixelwise w h (paint w (inner w h fun p => shade magnitude (windowAt input w p)))
      fun _ : Unit => cpuLoops magnitude input w h where
  only := by
    intro _ a member
    obtain ⟨p, inside, body⟩ := List.mem_flatMap.mp member
    have interior := mem_interiorPixels.mp inside
    exact ⟨p, interior.inside, by rwa [paint_inner, if_pos interior]⟩
  all := by
    intro p _
    refine ⟨(), ?_⟩
    intro a member
    rw [paint_inner] at member
    split at member
    · next interior => exact List.mem_flatMap.mpr ⟨p, mem_interiorPixels.mpr interior, member⟩
    · cases member

/-- The pictures are equal exactly when the frame of the device buffer is zero beforehand. -/
theorem pictures_agree_iff {d₀ d₁ : Image} (launch : Launch (sobelKernel magnitude input w h) d₀ d₁) :
    (∀ p, Inside w h p → d₁ (cell w p) = outputData magnitude input w h (cell w p)) ↔
      ∀ p, Inside w h p → ¬Interior w h p → d₀ (cell w p) = 0 := by
  rw [sobelKernel_eq] at launch
  have device := (paint_settles (inner_pixelwise ⟨by decide, by decide⟩ _)).launch launch
  rw [outputData, painted_exec cpuLoops_pixelwise, device]
  apply forall₂_congr
  intro p inside
  rw [painted_cell inside, painted_cell inside, SobelBenchmark.inner]
  by_cases interior : Interior w h p <;> simp [interior]

theorem pictures_agree_iff_stripes : ∃ d₁, Launch (sobelKernel root stripes 3 3) (fun _ => 0) d₁ ∧
    ((∀ p, Inside 3 3 p → d₁ (cell 3 p) = outputData root stripes 3 3 (cell 3 p)) ↔
      ∀ p, Inside 3 3 p → ¬Interior 3 3 p → (0 : UInt8) = 0) := by
  obtain ⟨d₁, launch⟩ := exists_launch (sobelKernel root stripes 3 3) fun _ => 0
  exact ⟨d₁, launch, pictures_agree_iff launch⟩

theorem stale_frame_differs : ∃ d₁, Launch (sobelKernel root stripes 3 3) (fun _ => 9) d₁ ∧
    ¬∀ p, Inside 3 3 p → d₁ (cell 3 p) = outputData root stripes 3 3 (cell 3 p) := by
  obtain ⟨d₁, launch⟩ := exists_launch (sobelKernel root stripes 3 3) fun _ => 9
  refine ⟨d₁, launch, ?_⟩
  intro agree
  have device : d₁ = painted 3 3 (inner 3 3 fun p => shade root (windowAt stripes 3 p)) fun _ => 9 := by
    rw [sobelKernel_eq] at launch
    exact (paint_settles (inner_pixelwise ⟨by decide, by decide⟩ _)).launch launch
  have corner := agree (0, 0) (by decide)
  rw [device, outputData, painted_exec cpuLoops_pixelwise] at corner
  revert corner
  decide

end CudaOpenMp.Sobol
