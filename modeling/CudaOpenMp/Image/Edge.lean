import CudaOpenMp.Image.EdgeCore
import CudaOpenMp.Image.Pixelwise

/-!
Gradient and thresholds on the device and in the pthreads: both fill their buffers with one
function of the image, whatever the order of the threads.
-/

namespace CudaOpenMp.Canny

open Rasters Raster Stores IndexRanges

variable {M : Type} [Zero M] {w h : Nat}

section
variable (norm : Int → Int → M) (direction : Int → Int → UInt8) (input : Nat → UInt8)

def gradientBuffers (w h : Nat) (start : Buffers M) : Buffers M
  | .mag index =>
      if index < w * h then
        if Interior w h (pixelOf w index) then magnitudeAt norm input w (pixelOf w index) else 0
      else start (.mag index)
  | .dir index =>
      if index < w * h then
        if Interior w h (pixelOf w index) then directionAt direction input w (pixelOf w index)
        else 0
      else start (.dir index)
  | .edges index => start (.edges index)

variable {norm direction input} {start : Buffers M} {p : Pixel}

theorem gradientBuffers_mag (inside : Inside w h p) :
    (gradientBuffers norm direction input w h start (.mag (cell w p)) : M) =
      if Interior w h p then magnitudeAt norm input w p else 0 := by
  simp only [gradientBuffers, cell_lt inside, if_true, pixelOf_cell inside]

theorem gradientBuffers_dir (inside : Inside w h p) :
    (gradientBuffers norm direction input w h start (.dir (cell w p)) : UInt8) =
      if Interior w h p then directionAt direction input w p else 0 := by
  simp only [gradientBuffers, cell_lt inside, if_true, pixelOf_cell inside]

theorem gradient_value {a : Statement M} (inside : Inside w h p)
    (member : a ∈ framed w h (storeGradient norm direction input w) (clearGradient w) p)
    (m : Buffers M) :
    a.value m = some (gradientBuffers norm direction input w h start a.loc) := by
  by_cases interior : Interior w h p
  · rw [framed, if_pos interior] at member
    rcases List.mem_pair.mp member with rfl | rfl
    · simp only [assign, gradientBuffers_mag inside, if_pos interior]
    · simp only [assign, gradientBuffers_dir inside, if_pos interior]
  · rw [framed, if_neg interior] at member
    rcases List.mem_pair.mp member with rfl | rfl
    · simp only [assign, gradientBuffers_mag inside, if_neg interior]
    · simp only [assign, gradientBuffers_dir inside, if_neg interior]

theorem gradient_locs (p : Pixel) (l : Word) (own : l = .mag (cell w p) ∨ l = .dir (cell w p)) :
    ∃ a ∈ framed w h (storeGradient norm direction input w) (clearGradient w) p, a.loc = l := by
  rw [framed]
  split
  · rcases own with rfl | rfl
    · exact ⟨_, List.mem_pair.mpr (Or.inl rfl), rfl⟩
    · exact ⟨_, List.mem_pair.mpr (Or.inr rfl), rfl⟩
  · rcases own with rfl | rfl
    · exact ⟨_, List.mem_pair.mpr (Or.inl rfl), rfl⟩
    · exact ⟨_, List.mem_pair.mpr (Or.inr rfl), rfl⟩

variable {ι : Type} {program : ι → List (Statement M)}

theorem gradient_settles (pixelwise : Pixelwise w h
      (framed w h (storeGradient norm direction input w) (clearGradient w)) program) :
    Settles program start (gradientBuffers norm direction input w h start) where
  value := by
    intro i a member m _
    obtain ⟨p, inside, body⟩ := pixelwise.only i a member
    exact Or.inl (gradient_value inside body m)
  rest := by
    intro l free
    have assigned {index : Nat} (below : index < w * h)
        (own : l = .mag index ∨ l = .dir index) : Assigned program l := by
      obtain ⟨p, inside, rfl⟩ := exists_pixel below
      obtain ⟨a, member, loc⟩ := @gradient_locs M _ w h norm direction input p l own
      obtain ⟨i, all⟩ := pixelwise.all p inside
      exact ⟨i, a, all a member, loc⟩
    cases l with
    | mag index =>
        by_cases below : index < w * h
        · exact (free (assigned below (Or.inl rfl))).elim
        · simp only [gradientBuffers, if_neg below]
    | dir index =>
        by_cases below : index < w * h
        · exact (free (assigned below (Or.inr rfl))).elim
        · simp only [gradientBuffers, if_neg below]
    | edges index => rfl

variable (norm direction input) in
theorem sobelKernel_launch {before after : Buffers M}
    (launch : Launch (sobelKernel norm direction input w h) before after) :
    after = gradientBuffers norm direction input w h before :=
  (gradient_settles (pixelwise_grid ⟨by decide, by decide⟩ _ _)).launch launch

variable (norm direction input) in
theorem pthreadSobel_dispatch {n : Nat} (positive : 0 < n) {before after : Buffers M}
    (dispatch : Dispatch (fun t : Fin n =>
      pthreadSobel norm direction input w h (yStart n h t) (yEnd n h t)) before after) :
    after = gradientBuffers norm direction input w h before :=
  (gradient_settles (pixelwise_rows positive _ _)).launch dispatch.launch

end

/-! Suppression and thresholds. -/

theorem ends_inside {d : UInt8} {p a b : Pixel} (interior : Interior w h p)
    (found : ends d p = some (a, b)) : Inside w h a ∧ Inside w h b := by
  have near {dx dy : Int} (columns : -1 ≤ dx ∧ dx ≤ 1) (rows : -1 ≤ dy ∧ dy ≤ 1) :=
    shift_inside interior columns rows
  simp only [ends] at found
  split at found
  · cases found
    exact ⟨near (by decide) (by decide), near (by decide) (by decide)⟩
  · split at found
    · cases found
      exact ⟨near (by decide) (by decide), near (by decide) (by decide)⟩
    · split at found
      · cases found
        exact ⟨near (by decide) (by decide), near (by decide) (by decide)⟩
      · split at found
        · cases found
          exact ⟨near (by decide) (by decide), near (by decide) (by decide)⟩
        · cases found

variable [LE M] [DecidableLE M] {lowThr highThr : M}

theorem isMaximum_congr {first second : Buffers M} {p : Pixel} (interior : Interior w h p)
    (mags : ∀ q, Inside w h q →
      (first (.mag (cell w q)) : M) = second (.mag (cell w q)))
    (dirs : (first (.dir (cell w p)) : UInt8) = second (.dir (cell w p))) :
    isMaximum w first p = isMaximum w second p := by
  simp only [isMaximum, dirs, mags p interior.inside]
  cases found : ends (second (.dir (cell w p))) p with
  | none => rfl
  | some pair =>
      obtain ⟨a, b⟩ := pair
      obtain ⟨left, right⟩ := ends_inside interior found
      simp only [mags a left, mags b right]

def levelBuffers (lowThr highThr : M) (w h : Nat) (start : Buffers M) : Buffers M
  | .mag index => start (.mag index)
  | .dir index => start (.dir index)
  | .edges index =>
      if index < w * h then
        if Interior w h (pixelOf w index) ∧ isMaximum w start (pixelOf w index) then
          level lowThr highThr (start (.mag index))
        else 0
      else start (.edges index)

theorem levelBuffers_edges {start : Buffers M} {p : Pixel} (inside : Inside w h p) :
    (levelBuffers lowThr highThr w h start (.edges (cell w p)) : UInt8) =
      if Interior w h p ∧ isMaximum w start p then
        level lowThr highThr (start (.mag (cell w p)))
      else 0 := by
  simp only [levelBuffers, cell_lt inside, if_true, pixelOf_cell inside]

theorem level_settles {ι : Type} {program : ι → List (Statement M)} {start : Buffers M}
    (pixelwise : Pixelwise w h (framed w h (storeLevel lowThr highThr w) (clearLevel w)) program) :
    Settles program start (levelBuffers lowThr highThr w h start) := by
  have loc {p : Pixel} {a : Statement M}
      (member : a ∈ framed w h (storeLevel lowThr highThr w) (clearLevel w) p) :
      a.loc = .edges (cell w p) := by
    rw [framed] at member
    split at member <;> rw [List.mem_singleton.mp member] <;> rfl
  have only {l : Word} (assigned : Assigned program l) : ∃ index, l = .edges index := by
    obtain ⟨i, a, member, rfl⟩ := assigned
    obtain ⟨p, _, body⟩ := pixelwise.only i a member
    exact ⟨_, loc body⟩
  constructor
  · intro i a member m same
    obtain ⟨p, inside, body⟩ := pixelwise.only i a member
    have mags (index : Nat) : (m (.mag index) : M) = start (.mag index) :=
      same (.mag index) fun assigned => by obtain ⟨_, wrong⟩ := only assigned; cases wrong
    have dirs (index : Nat) : (m (.dir index) : UInt8) = start (.dir index) :=
      same (.dir index) fun assigned => by obtain ⟨_, wrong⟩ := only assigned; cases wrong
    refine Or.inl ?_
    by_cases interior : Interior w h p
    · rw [framed, if_pos interior] at body
      obtain rfl := List.mem_singleton.mp body
      have kept := isMaximum_congr interior (fun q _ => mags (cell w q)) (dirs (cell w p))
      simp only [assign, levelBuffers_edges inside, interior, true_and, kept, mags]
    · rw [framed, if_neg interior] at body
      obtain rfl := List.mem_singleton.mp body
      simp only [assign, levelBuffers_edges inside, interior, false_and, if_false]
  · intro l free
    cases l with
    | mag index => rfl
    | dir index => rfl
    | edges index =>
        by_cases below : index < w * h
        · obtain ⟨p, inside, rfl⟩ := exists_pixel below
          obtain ⟨i, all⟩ := pixelwise.all p inside
          have body : ∃ a, a ∈ framed w h (storeLevel lowThr highThr w) (clearLevel w) p := by
            rw [framed]
            split <;> exact ⟨_, List.mem_singleton_self _⟩
          obtain ⟨a, member⟩ := body
          exact (free ⟨i, a, all a member, loc member⟩).elim
        · simp only [levelBuffers, if_neg below]

theorem nmsThresholdKernel_launch {before after : Buffers M}
    (launch : Launch (nmsThresholdKernel lowThr highThr w h) before after) :
    after = levelBuffers lowThr highThr w h before :=
  (level_settles (pixelwise_grid ⟨by decide, by decide⟩ _ _)).launch launch

theorem pthreadNms_dispatch {n : Nat} (positive : 0 < n) {before after : Buffers M}
    (dispatch : Dispatch (fun t : Fin n =>
      pthreadNms lowThr highThr w h (yStart n h t) (yEnd n h t)) before after) :
    after = levelBuffers lowThr highThr w h before :=
  (level_settles (pixelwise_rows positive _ _)).launch dispatch.launch

end CudaOpenMp.Canny
