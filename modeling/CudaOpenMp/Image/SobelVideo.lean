import CudaOpenMp.Image.SobelBenchmark
import CudaOpenMp.Image.SobelVideoCore

/-!
Each frame of `sobel_video.cu` shows one block more than it should: the comparison in the kernel
lets the block with the number of revealed blocks through.
-/

namespace CudaOpenMp.SobelVideo

open Rasters Raster Stores
open SobelBenchmark (shade stripes)

section
variable (magnitude : Int → Int → Rat) (input : Nat → UInt8) (w h : Nat)

/-- The full Sobel picture, whose frame is copied from the input. -/
def sobelPicture (p : Pixel) : UInt8 :=
  if Interior w h p then shade magnitude (windowAt input w p) else input (cell w p)

def blockOf (p : Pixel) : Nat := cell (gridSize w h blockSize).1 (p.1 / 16, p.2 / 16)

/-- The Sobel result on the blocks below the number of revealed ones, and the input elsewhere. -/
def Shows (revealed : Nat) (frame : Image) : Prop :=
  ∀ p, Inside w h p → frame (cell w p) =
    if blockOf w h p < min revealed (totalBlocks w h) then sobelPicture magnitude input w h p
    else input (cell w p)

def Unchanged (block : Nat) : Prop :=
  ∀ p, Inside w h p → blockOf w h p = block → sobelPicture magnitude input w h p = input (cell w p)

def Reveals (revealed : Nat) (frame : Image) : Prop :=
  ∀ p, Inside w h p → frame (cell w p) =
    if blockOf w h p ≤ revealed then sobelPicture magnitude input w h p else input (cell w p)

end

variable {magnitude : Int → Int → Rat} {input : Nat → UInt8} {w h : Nat}

theorem blockOf_lt {p : Pixel} (inside : Inside w h p) : blockOf w h p < totalBlocks w h :=
  cell_lt ⟨block_lt (by decide) inside.1, block_lt (by decide) inside.2⟩

theorem blockOf_place (place : Place (gridSize w h blockSize) blockSize) :
    blockOf w h place.pixel = place.1.2 * (gridSize w h blockSize).1 + place.1.1 := by
  have column : place.2.1.val < 16 := place.2.1.isLt
  have row : place.2.2.val < 16 := place.2.2.isLt
  have across : place.pixel.1 / 16 = place.1.1 := by
    change (place.1.1.val * 16 + place.2.1.val) / 16 = _
    omega
  have down : place.pixel.2 / 16 = place.1.2 := by
    change (place.1.2.val * 16 + place.2.2.val) / 16 = _
    omega
  rw [blockOf, across, down, cell]

/-- The value that the thread of a pixel stores. -/
def progressive (magnitude : Int → Int → Rat) (input : Nat → UInt8) (w h revealed : Nat)
    (p : Pixel) : Option UInt8 :=
  if Inside w h p then
    some (if blockOf w h p ≤ revealed then sobelPicture magnitude input w h p else input (cell w p))
  else none

theorem kernel_eq (revealed : Nat) :
    sobelKernelProgressive magnitude input w h revealed (gridSize w h blockSize).1 = fun place =>
      paint w (progressive magnitude input w h revealed) place.pixel := by
  funext place
  rw [sobelKernelProgressive, ← blockOf_place, paint, progressive]
  generalize place.pixel = p
  obtain ⟨x, y⟩ := p
  dsimp only
  by_cases inside : Inside w h (x, y)
  · have within : ¬(x ≥ w ∨ y ≥ h) := by
      obtain ⟨column, row⟩ := inside
      omega
    rw [if_pos inside, if_neg within]
    by_cases shown : blockOf w h (x, y) ≤ revealed
    · rw [if_pos shown, if_neg (by omega), sobelPicture]
      by_cases interior : Interior w h (x, y)
      · rw [if_pos interior]
        exact if_pos interior
      · rw [if_neg interior]
        exact if_neg interior
    · rw [if_neg shown, if_pos (by omega)]
  · have without : x ≥ w ∨ y ≥ h := by
      by_contra within
      exact inside ⟨by omega, by omega⟩
    rw [if_neg inside, if_pos without]

theorem kernel_pixelwise (revealed : Nat) :
    Pixelwise w h (paint w (progressive magnitude input w h revealed))
      (sobelKernelProgressive magnitude input w h revealed (gridSize w h blockSize).1) where
  only := by
    intro place a member
    rw [kernel_eq] at member
    refine ⟨place.pixel, ?_, member⟩
    obtain ⟨v, stored, _⟩ := mem_paint.mp member
    simp only [progressive, Option.ite_none_right_eq_some] at stored
    exact stored.1
  all := by
    intro p inside
    obtain ⟨place, same⟩ := @exists_place w h blockSize (by decide) p inside
    refine ⟨place, ?_⟩
    intro a member
    rw [kernel_eq]
    simpa only [same] using member

theorem launch_reveals {revealed : Nat} {before after : Image}
    (launch : Launch (sobelKernelProgressive magnitude input w h revealed
      (gridSize w h blockSize).1) before after) : Reveals magnitude input w h revealed after := by
  intro p inside
  rw [(paint_settles (kernel_pixelwise revealed)).launch launch, painted_cell inside, progressive,
    if_pos inside, Option.getD_some]

theorem launches_reveal {before last : Image} {values : List Nat} {frames : List Image}
    (launches : Launches magnitude input w h before values frames last) :
    List.Forall₂ (Reveals magnitude input w h) values frames := by
  induction launches with
  | nil => exact List.Forall₂.nil
  | cons launch _ ih => exact List.Forall₂.cons (launch_reveals launch) ih

/-- The frame is the intended one exactly if the block too many does not change it. -/
theorem shows_iff {revealed : Nat} {frame : Image}
    (reveals : Reveals magnitude input w h revealed frame) :
    Shows magnitude input w h revealed frame ↔ Unchanged magnitude input w h revealed := by
  constructor
  · intro shows p inside same
    have intended := shows p inside
    rw [reveals p inside, if_pos (by omega), if_neg (by omega)] at intended
    exact intended
  · intro unchanged p inside
    have below := blockOf_lt inside
    rw [reveals p inside]
    rcases Nat.lt_trichotomy (blockOf w h p) revealed with before | same | after
    · rw [if_pos (by omega), if_pos (by omega)]
    · rw [if_pos (by omega), if_neg (by omega), unchanged p inside same]
    · rw [if_neg (by omega), if_neg (by omega)]

theorem forall_shows_iff {values : List Nat} {frames : List Image}
    (reveals : List.Forall₂ (Reveals magnitude input w h) values frames) :
    List.Forall₂ (Shows magnitude input w h) values frames ↔
      ∀ revealed ∈ values, Unchanged magnitude input w h revealed := by
  induction reveals with
  | nil => simp
  | cons first _ ih => rw [List.forall₂_cons, shows_iff first, ih, List.forall_mem_cons]

/-! The loop of `main`. -/

theorem mem_revealedFrom {total first value : Nat} :
    value ∈ revealedFrom total first ↔
      first ≤ value ∧ value ≤ total ∧ stepOf total ∣ value - first := by
  induction first using revealedFrom.induct total with
  | case1 first more ih =>
      rw [revealedFrom, if_pos more, List.mem_cons, ih]
      constructor
      · rintro (rfl | ⟨later, bound, divides⟩)
        · exact ⟨Nat.le_refl _, more, by simp⟩
        · have split : value - first = value - (first + stepOf total) + stepOf total := by omega
          refine ⟨by omega, bound, ?_⟩
          rw [split]
          exact Nat.dvd_add divides (Nat.dvd_refl _)
      · rintro ⟨low, bound, divides⟩
        by_cases same : value = first
        · exact Or.inl same
        · have far := Nat.le_of_dvd (by omega) divides
          have split : value - (first + stepOf total) = value - first - stepOf total := by omega
          refine Or.inr ⟨by omega, bound, ?_⟩
          rw [split]
          exact Nat.dvd_sub divides (Nat.dvd_refl _)
  | case2 first done =>
      rw [revealedFrom, if_neg done]
      constructor
      · intro impossible
        cases impossible
      · rintro ⟨low, bound, _⟩
        omega

theorem revealedFrom_rising (total first : Nat) : (revealedFrom total first).Pairwise (· ≤ ·) := by
  induction first using revealedFrom.induct total with
  | case1 first more ih =>
      rw [revealedFrom, if_pos more, List.pairwise_cons]
      refine ⟨?_, ih⟩
      intro value later
      exact (Nat.le_add_right _ _).trans (mem_revealedFrom.mp later).1
  | case2 first done =>
      rw [revealedFrom, if_neg done]
      exact List.Pairwise.nil

/-! The video. -/

def shownValues (w h : Nat) : List Nat :=
  revealedFrom (totalBlocks w h) 0 ++ List.replicate 30 (totalBlocks w h)

theorem video_reveals {before : Image} {written : List Image}
    (video : Video magnitude input w h before written) :
    List.Forall₂ (Reveals magnitude input w h) (shownValues w h) written := by
  obtain ⟨frames, last, held, launches, final, rfl⟩ := video
  have whole := launch_reveals final
  have held : List.Forall₂ (Reveals magnitude input w h)
      (List.replicate 30 (totalBlocks w h)) (List.replicate 30 held) := by
    rw [List.forall₂_iff_get]
    refine ⟨by simp, ?_⟩
    intro i _ _
    simp only [List.get_eq_getElem, List.getElem_replicate]
    exact whole
  exact List.rel_append (launches_reveal launches) held

theorem shownValues_rising (w h : Nat) : (shownValues w h).Pairwise (· ≤ ·) := by
  refine List.pairwise_append.mpr ⟨revealedFrom_rising _ 0, ?_, ?_⟩
  · exact List.pairwise_replicate.mpr (Or.inr (Nat.le_refl _))
  · intro value early last held
    rw [List.eq_of_mem_replicate held]
    exact (mem_revealedFrom.mp early).2.1

theorem video_grows {before : Image} {written : List Image}
    (video : Video magnitude input w h before written) :
    (shownValues w h).Pairwise (· ≤ ·) ∧
      List.Forall₂ (Reveals magnitude input w h) (shownValues w h) written ∧
      ∃ frames held, written = frames ++ List.replicate 30 held ∧
        ∀ p, Inside w h p → held (cell w p) = sobelPicture magnitude input w h p := by
  refine ⟨shownValues_rising w h, video_reveals video, ?_⟩
  obtain ⟨frames, last, held, _, final, rfl⟩ := video
  refine ⟨frames, held, rfl, ?_⟩
  intro p inside
  rw [launch_reveals final p inside, if_pos (Nat.le_of_lt (blockOf_lt inside))]

/-- However the threads take turns, the video is the intended one exactly if none of the blocks that
are shown one frame too early differs from the input. -/
theorem video_iff {before : Image} {written : List Image}
    (video : Video magnitude input w h before written) :
    List.Forall₂ (Shows magnitude input w h) (shownValues w h) written ↔
      ∀ block < totalBlocks w h, stepOf (totalBlocks w h) ∣ block →
        Unchanged magnitude input w h block := by
  rw [forall_shows_iff (video_reveals video)]
  constructor
  · intro all block below divides
    apply all
    exact List.mem_append_left _ (mem_revealedFrom.mpr ⟨Nat.zero_le _, by omega, divides⟩)
  · intro some value listed p inside same
    have below := blockOf_lt inside
    rcases List.mem_append.mp listed with early | final
    · have divides := (mem_revealedFrom.mp early).2.2
      exact some value (by omega) divides p inside same
    · have last := List.eq_of_mem_replicate final
      omega

theorem exists_launches (before : Image) (values : List Nat) :
    ∃ frames last, Launches magnitude input w h before values frames last := by
  induction values generalizing before with
  | nil => exact ⟨[], before, Launches.nil before⟩
  | cons revealed rest ih =>
      obtain ⟨next, launch⟩ := exists_launch
        (sobelKernelProgressive magnitude input w h revealed (gridSize w h blockSize).1) before
      obtain ⟨frames, last, later⟩ := ih next
      exact ⟨next :: frames, last, Launches.cons launch later⟩

theorem exists_video (magnitude : Int → Int → Rat) (input : Nat → UInt8) (w h : Nat)
    (before : Image) : ∃ written, Video magnitude input w h before written := by
  obtain ⟨frames, last, launches⟩ := @exists_launches magnitude input w h before
    (revealedFrom (totalBlocks w h) 0)
  obtain ⟨held, final⟩ := exists_launch (sobelKernelProgressive magnitude input w h
    (totalBlocks w h) (gridSize w h blockSize).1) last
  exact ⟨_, frames, last, held, launches, final, rfl⟩

theorem video_iff_stripes : ∃ written, Video root stripes 3 3 (fun _ => 0) written ∧
    (List.Forall₂ (Shows root stripes 3 3) (shownValues 3 3) written ↔
      ∀ block < totalBlocks 3 3, stepOf (totalBlocks 3 3) ∣ block →
        Unchanged root stripes 3 3 block) := by
  obtain ⟨written, video⟩ := exists_video root stripes 3 3 fun _ => 0
  exact ⟨written, video, video_iff video⟩

theorem first_frame_not_input : ∃ written, Video root stripes 3 3 (fun _ => 0) written ∧
    ¬List.Forall₂ (Shows root stripes 3 3) (shownValues 3 3) written := by
  obtain ⟨written, video⟩ := exists_video root stripes 3 3 fun _ => 0
  refine ⟨written, video, ?_⟩
  rw [forall_shows_iff (video_reveals video)]
  intro same
  have first : 0 ∈ revealedFrom (totalBlocks 3 3) 0 :=
    mem_revealedFrom.mpr ⟨Nat.le_refl _, Nat.zero_le _, Nat.dvd_zero _⟩
  have centre := same 0 (List.mem_append_left _ first) (1, 1) (by decide) (by decide)
  have across : gradX (windowAt stripes 3 (1, 1)) = 100 := by decide
  have down : gradY (windowAt stripes 3 (1, 1)) = 0 := by decide
  have slope : root 100 0 = (100 : Nat) := by
    rw [root, ← Nat.sqrt_eq 100]
    rfl
  have bright : toByte (100 : Nat) = 100 := by
    rw [toByte, if_neg (by norm_num), Int.floor_natCast]
    rfl
  rw [sobelPicture, if_pos (by decide), shade, across, down, slope, bright] at centre
  cases centre

end CudaOpenMp.SobelVideo
