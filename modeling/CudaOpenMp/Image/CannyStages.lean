import CudaOpenMp.Image.Edge
import Mathlib.Data.Fintype.Prod
import Mathlib.Data.Nat.Sqrt
import Mathlib.Tactic.Linarith
import Mathlib.Tactic.NormNum

/-!
The edge map before linking in `canny_compare.cu`. The pthreads fill the buffers as the kernels
do. The single thread leaves the frame of its magnitudes as `malloc` returned it, and agrees
only when what it then reads there does no harm.
-/

namespace CudaOpenMp.Canny

open Rasters Raster Stores IndexRanges

theorem kernelDirection_eq {angle : Rat} (lower : -180 ≤ angle) (upper : angle ≤ 180) :
    kernelDirection angle = quantizeAngle angle := by
  simp only [kernelDirection, quantizeAngle]
  have range : 0 ≤ (if angle < 0 then angle + 180 else angle) ∧
      (if angle < 0 then angle + 180 else angle) ≤ 180 := by
    split <;> constructor <;> linarith
  generalize (if angle < 0 then angle + 180 else angle) = folded at range
  obtain ⟨low, high⟩ := range
  simp only [low, high, true_and, and_true]
  split
  · rfl
  · next outside =>
    split
    · rfl
    · split
      · rfl
      · split
        · rfl
        · next first second third =>
          exfalso
          rw [not_or, not_lt, not_le] at outside
          rw [not_and, not_lt] at first second third
          have one := first outside.1
          have two := second one
          have three := third two
          linarith [outside.2]

section
variable {M : Type} [Zero M] [LE M] [DecidableLE M] {w h : Nat}

theorem pthread_eq_kernels {n : Nat} (positive : 1 ≤ n) {angle : Int → Int → Rat}
    (range : ∀ dx dy, -180 ≤ angle dx dy ∧ angle dx dy ≤ 180) (norm : Int → Int → M)
    (lowThr highThr : M) (input : Nat → UInt8) {g₀ g₁ g₂ c₀ c₁ c₂ : Buffers M}
    (sobel : Launch (sobelKernel norm (fun dx dy => kernelDirection (angle dx dy)) input w h) g₀ g₁)
    (nms : Launch (nmsThresholdKernel lowThr highThr w h) g₁ g₂)
    (pthreadSobel : Dispatch (fun t : Fin n => pthreadSobel norm
      (fun dx dy => quantizeAngle (angle dx dy)) input w h (yStart n h t) (yEnd n h t)) c₀ c₁)
    (pthreadNms : Dispatch (fun t : Fin n =>
      pthreadNms lowThr highThr w h (yStart n h t) (yEnd n h t)) c₁ c₂) :
    ∀ index < w * h, (g₂ (.mag index) : M) = c₂ (.mag index) ∧
      (g₂ (.dir index) : UInt8) = c₂ (.dir index) ∧
      (g₂ (.edges index) : UInt8) = c₂ (.edges index) := by
  have same : (fun dx dy => kernelDirection (angle dx dy)) =
      fun dx dy => quantizeAngle (angle dx dy) := by
    funext dx dy
    exact kernelDirection_eq (range dx dy).1 (range dx dy).2
  rw [same] at sobel
  have first := sobelKernel_launch _ _ _ sobel
  have second := pthreadSobel_dispatch _ _ _ positive pthreadSobel
  have mags {index : Nat} (below : index < w * h) :
      (g₁ (.mag index) : M) = c₁ (.mag index) := by
    rw [first, second]
    simp only [gradientBuffers, if_pos below]
  have dirs {index : Nat} (below : index < w * h) :
      (g₁ (.dir index) : UInt8) = c₁ (.dir index) := by
    rw [first, second]
    simp only [gradientBuffers, if_pos below]
  rw [nmsThresholdKernel_launch nms, pthreadNms_dispatch positive pthreadNms]
  intro index below
  refine ⟨mags below, dirs below, ?_⟩
  obtain ⟨p, inside, rfl⟩ := exists_pixel below
  simp only [levelBuffers_edges inside, mags (cell_lt inside)]
  by_cases interior : Interior w h p
  · rw [isMaximum_congr interior (fun q inner => mags (cell_lt inner)) (dirs (cell_lt inside))]
  · simp only [interior, false_and, if_false]

end

/-- The square root, rounded down: exact for the sums of squares below. -/
def rootFloor (dx dy : Int) : Nat := Nat.sqrt (dx * dx + dy * dy).toNat

def brightColumn (index : Nat) : UInt8 := if index % 3 = 2 then 25 else 0

def stale (mag : Nat) : Buffers Nat
  | .mag _ => mag
  | .dir _ => 1
  | .edges _ => 7

theorem pthread_eq_kernels_square : ∃ g₁ g₂ c₁ c₂ : Buffers Nat,
    Launch (sobelKernel rootFloor (fun _ _ => kernelDirection 0) brightColumn 3 3) (stale 5) g₁ ∧
    Launch (nmsThresholdKernel 50 100 3 3) g₁ g₂ ∧
    Dispatch (fun t : Fin 2 => pthreadSobel rootFloor (fun _ _ => quantizeAngle 0) brightColumn 3 3
      (yStart 2 3 t) (yEnd 2 3 t)) (stale 200) c₁ ∧
    Dispatch (fun t : Fin 2 => pthreadNms 50 100 3 3 (yStart 2 3 t) (yEnd 2 3 t)) c₁ c₂ ∧
    ∀ index < 3 * 3, (g₂ (.mag index) : Nat) = c₂ (.mag index) ∧
      (g₂ (.dir index) : UInt8) = c₂ (.dir index) ∧
      (g₂ (.edges index) : UInt8) = c₂ (.edges index) := by
  obtain ⟨g₁, sobel⟩ := exists_launch
    (sobelKernel rootFloor (fun _ _ => kernelDirection 0) brightColumn 3 3) (stale 5)
  obtain ⟨g₂, nms⟩ := exists_launch (nmsThresholdKernel 50 100 3 3) g₁
  obtain ⟨c₁, rows⟩ := exists_dispatch (fun t : Fin 2 => pthreadSobel rootFloor
    (fun _ _ => quantizeAngle 0) brightColumn 3 3 (yStart 2 3 t) (yEnd 2 3 t)) (stale 200)
  obtain ⟨c₂, levels⟩ := exists_dispatch
    (fun t : Fin 2 => pthreadNms 50 100 3 3 (yStart 2 3 t) (yEnd 2 3 t)) c₁
  exact ⟨g₁, g₂, c₁, c₂, sobel, nms, rows, levels,
    @pthread_eq_kernels Nat _ _ _ 3 3 2 (by decide) (fun _ _ => 0) (fun _ _ => by norm_num)
      rootFloor 50 100 brightColumn _ _ _ _ _ _ sobel nms rows levels⟩

/-! The single thread. -/

section
variable {M : Type} {w h : Nat} (norm : Int → Int → M) (direction : Int → Int → UInt8)
  (input : Nat → UInt8)

/-- The buffers after `cpu_sobel`, which leaves the frame alone. -/
def cpuGradientBuffers (w h : Nat) (start : Buffers M) : Buffers M
  | .mag index =>
      if index < w * h ∧ Interior w h (pixelOf w index) then
        magnitudeAt norm input w (pixelOf w index)
      else start (.mag index)
  | .dir index =>
      if index < w * h ∧ Interior w h (pixelOf w index) then
        directionAt direction input w (pixelOf w index)
      else start (.dir index)
  | .edges index => start (.edges index)

variable {norm direction input} {start : Buffers M}

theorem cpuGradientBuffers_mag {p : Pixel} (inside : Inside w h p) :
    (cpuGradientBuffers norm direction input w h start (.mag (cell w p)) : M) =
      if Interior w h p then magnitudeAt norm input w p else start (.mag (cell w p)) := by
  simp only [cpuGradientBuffers, cell_lt inside, true_and, pixelOf_cell inside]

theorem cpuGradientBuffers_dir {p : Pixel} (inside : Inside w h p) :
    (cpuGradientBuffers norm direction input w h start (.dir (cell w p)) : UInt8) =
      if Interior w h p then directionAt direction input w p else start (.dir (cell w p)) := by
  simp only [cpuGradientBuffers, cell_lt inside, true_and, pixelOf_cell inside]

theorem cpuSobel_exec : exec (cpuSobel norm direction input w h) start =
    cpuGradientBuffers norm direction input w h start := by
  apply Settles.exec
  have mem {a : Statement M} : a ∈ cpuSobel norm direction input w h ↔
      ∃ p, Interior w h p ∧ a ∈ storeGradient norm direction input w p := by
    simp only [cpuSobel, List.mem_flatMap, mem_interiorPixels]
  constructor
  · rintro _ a member m -
    obtain ⟨p, interior, body⟩ := mem.mp member
    refine Or.inl ?_
    rcases List.mem_pair.mp body with rfl | rfl
    · simp only [assign, cpuGradientBuffers_mag interior.inside, if_pos interior]
    · simp only [assign, cpuGradientBuffers_dir interior.inside, if_pos interior]
  · intro l free
    have apart {index : Nat} (own : l = .mag index ∨ l = .dir index) :
        ¬(index < w * h ∧ Interior w h (pixelOf w index)) := by
      rintro ⟨below, interior⟩
      apply free
      have place := (pixelOf_inside below).2
      rcases own with rfl | rfl
      · exact ⟨(), _, mem.mpr ⟨_, interior, List.mem_pair.mpr (Or.inl rfl)⟩, congrArg _ place⟩
      · exact ⟨(), _, mem.mpr ⟨_, interior, List.mem_pair.mpr (Or.inr rfl)⟩, congrArg _ place⟩
    cases l with
    | mag index => simp only [cpuGradientBuffers, if_neg (apart (Or.inl rfl))]
    | dir index => simp only [cpuGradientBuffers, if_neg (apart (Or.inr rfl))]
    | edges index => rfl

theorem cpuClear_exec : exec (cpuClear w h) start = fun l => match l with
    | .mag index => start (.mag index)
    | .dir index => start (.dir index)
    | .edges index => if index < w * h then 0 else start (.edges index) := by
  apply Settles.exec
  constructor
  · rintro _ a member m -
    obtain ⟨index, range, rfl⟩ := List.mem_map.mp member
    refine Or.inl ?_
    simp only [assign, if_pos (List.mem_range.mp range)]
  · intro l free
    cases l with
    | mag index => rfl
    | dir index => rfl
    | edges index =>
        have beyond : ¬index < w * h := by
          intro below
          exact free ⟨(), _, List.mem_map_of_mem (List.mem_range.mpr below), rfl⟩
        simp only [if_neg beyond]

variable [LE M] [DecidableLE M] {lowThr highThr : M}

theorem level_eq_zero_iff {m : M} : level lowThr highThr m = 0 ↔ ¬(lowThr ≤ m ∨ highThr ≤ m) := by
  rw [level]
  by_cases high : highThr ≤ m
  · simp [high]
  · by_cases low : lowThr ≤ m <;> simp [high, low]

variable [Zero M]

theorem cpuNmsThreshold_exec : exec (cpuNmsThreshold lowThr highThr w h) start =
    levelBuffers lowThr highThr w h start := by
  rw [cpuNmsThreshold, exec_append, cpuClear_exec]
  apply Settles.exec
  have only {l : Word} (assigned : Assigned (fun _ : Unit => cpuLevels lowThr highThr w h) l) :
      ∃ p, Interior w h p ∧ l = .edges (cell w p) := by
    obtain ⟨_, a, member, rfl⟩ := assigned
    obtain ⟨p, inner, rfl⟩ := List.mem_map.mp member
    exact ⟨p, mem_interiorPixels.mp inner, rfl⟩
  constructor
  · rintro _ a member m same
    obtain ⟨p, inner, rfl⟩ := List.mem_map.mp member
    have interior := mem_interiorPixels.mp inner
    have mags (index : Nat) : (m (.mag index) : M) = start (.mag index) :=
      same (.mag index) fun assigned => by obtain ⟨_, _, wrong⟩ := only assigned; cases wrong
    have dirs (index : Nat) : (m (.dir index) : UInt8) = start (.dir index) :=
      same (.dir index) fun assigned => by obtain ⟨_, _, wrong⟩ := only assigned; cases wrong
    have kept := isMaximum_congr interior (fun q _ => mags (cell w q)) (dirs (cell w p))
    simp only [kept, mags, levelBuffers_edges interior.inside, interior, true_and,
      if_pos (cell_lt interior.inside)]
    cases isMaximum w start p with
    | true => exact Or.inl rfl
    | false => exact Or.inr ⟨rfl, rfl⟩
  · intro l free
    cases l with
    | mag index => rfl
    | dir index => rfl
    | edges index =>
        by_cases below : index < w * h
        · have frame : ¬Interior w h (pixelOf w index) := by
            intro interior
            apply free
            rw [← (pixelOf_inside below).2]
            exact ⟨(), _, List.mem_map_of_mem (mem_interiorPixels.mpr interior), rfl⟩
          simp only [levelBuffers, if_pos below, frame, false_and, if_false]
        · simp only [levelBuffers, if_neg below]

/-- What a pixel that could be an edge reads in the frame is not above its own magnitude. -/
def FrameHarmless (norm : Int → Int → M) (direction : Int → Int → UInt8) (input : Nat → UInt8)
    (lowThr highThr : M) (w h : Nat) (mag : Nat → M) : Prop :=
  ∀ p a b, Interior w h p → ends (directionAt direction input w p) p = some (a, b) →
    lowThr ≤ magnitudeAt norm input w p ∨ highThr ≤ magnitudeAt norm input w p →
    (∀ q, q = a ∨ q = b → Interior w h q →
      magnitudeAt norm input w q ≤ magnitudeAt norm input w p) →
    ∀ q, q = a ∨ q = b → ¬Interior w h q → mag (cell w q) ≤ magnitudeAt norm input w p

def Leads (norm : Int → Int → M) (direction : Int → Int → UInt8) (input : Nat → UInt8) (w h : Nat)
    (frame : Nat → M) (p : Pixel) : Prop :=
  match ends (directionAt direction input w p) p with
  | some (a, b) => ∀ q, q = a ∨ q = b →
      (if Interior w h q then magnitudeAt norm input w q else frame (cell w q)) ≤
        magnitudeAt norm input w p
  | none => 0 ≤ magnitudeAt norm input w p

theorem isMaximum_iff {buffers : Buffers M} {frame : Nat → M} {p : Pixel}
    (interior : Interior w h p)
    (mags : ∀ q, Inside w h q → (buffers (.mag (cell w q)) : M) =
      if Interior w h q then magnitudeAt norm input w q else frame (cell w q))
    (dirs : (buffers (.dir (cell w p)) : UInt8) = directionAt direction input w p) :
    isMaximum w buffers p = true ↔ Leads norm direction input w h frame p := by
  have own := mags p interior.inside
  rw [if_pos interior] at own
  simp only [isMaximum, dirs, own, Leads]
  cases found : ends (directionAt direction input w p) p with
  | none => simp
  | some pair =>
      obtain ⟨a, b⟩ := pair
      obtain ⟨left, right⟩ := ends_inside interior found
      simp only [mags a left, mags b right, Bool.and_eq_true, decide_eq_true_eq, forall_eq_or_imp,
        forall_eq]

theorem gradient_leads {p : Pixel} (interior : Interior w h p) :
    isMaximum w (gradientBuffers norm direction input w h start) p = true ↔
      Leads norm direction input w h (fun _ => 0) p := by
  apply isMaximum_iff interior fun q inside => gradientBuffers_mag inside
  rw [gradientBuffers_dir interior.inside, if_pos interior]

theorem cpuGradient_leads {p : Pixel} (interior : Interior w h p) :
    isMaximum w (cpuGradientBuffers norm direction input w h start) p = true ↔
      Leads norm direction input w h (fun index => start (.mag index)) p := by
  apply isMaximum_iff interior fun q inside => cpuGradientBuffers_mag inside
  rw [cpuGradientBuffers_dir interior.inside, if_pos interior]

/-- The single thread ends with the map of the kernels exactly when the frame is harmless. -/
theorem cpu_eq_kernels_iff (nonneg : ∀ dx dy, 0 ≤ norm dx dy) {g₀ g₁ g₂ : Buffers M}
    (sobel : Launch (sobelKernel norm direction input w h) g₀ g₁)
    (nms : Launch (nmsThresholdKernel lowThr highThr w h) g₁ g₂) (c₀ : Buffers M) :
    (∀ index < w * h, (exec (cpuNmsThreshold lowThr highThr w h)
        (exec (cpuSobel norm direction input w h) c₀) (.edges index) : UInt8) =
      g₂ (.edges index)) ↔
      FrameHarmless norm direction input lowThr highThr w h fun index => c₀ (.mag index) := by
  rw [cpuNmsThreshold_exec, cpuSobel_exec, nmsThresholdKernel_launch nms,
    sobelKernel_launch _ _ _ sobel]
  have positive (p : Pixel) : 0 ≤ magnitudeAt norm input w p := nonneg _ _
  constructor
  · intro same p a b interior found strong maximum q pair border
    by_contra above
    have inside := interior.inside
    have equal := same _ (cell_lt inside)
    rw [levelBuffers_edges inside, levelBuffers_edges inside] at equal
    have kept : Leads norm direction input w h (fun _ => 0) p := by
      rw [Leads, found]
      intro r member
      split
      · next inner => exact maximum r member inner
      · exact positive p
    have dropped : ¬Leads norm direction input w h (fun index => c₀ (.mag index)) p := by
      rw [Leads, found]
      intro all
      have below := all q pair
      rw [if_neg border] at below
      exact above below
    rw [if_neg fun both => dropped ((cpuGradient_leads interior).mp both.2),
      if_pos ⟨interior, (gradient_leads interior).mpr kept⟩, gradientBuffers_mag inside,
      if_pos interior] at equal
    exact level_eq_zero_iff.mp equal.symm strong
  · intro harmless index below
    obtain ⟨p, inside, rfl⟩ := exists_pixel below
    rw [levelBuffers_edges inside, levelBuffers_edges inside, gradientBuffers_mag inside,
      cpuGradientBuffers_mag inside]
    by_cases interior : Interior w h p
    · by_cases strong : lowThr ≤ magnitudeAt norm input w p ∨ highThr ≤ magnitudeAt norm input w p
      · have agree : Leads norm direction input w h (fun index => c₀ (.mag index)) p ↔
            Leads norm direction input w h (fun _ => 0) p := by
          simp only [Leads]
          cases found : ends (directionAt direction input w p) p with
          | none => rfl
          | some pair =>
              obtain ⟨a, b⟩ := pair
              constructor
              · intro all q member
                by_cases inner : Interior w h q
                · simpa only [if_pos inner] using all q member
                · simpa only [if_neg inner] using positive p
              · intro all q member
                by_cases inner : Interior w h q
                · simpa only [if_pos inner] using all q member
                · rw [if_neg inner]
                  apply harmless p a b interior found strong _ q member inner
                  intro r other inside
                  simpa only [if_pos inside] using all r other
        have kept : isMaximum w (cpuGradientBuffers norm direction input w h c₀) p =
            isMaximum w (gradientBuffers norm direction input w h g₀) p :=
          Bool.eq_iff_iff.mpr ((cpuGradient_leads interior).trans
            (agree.trans (gradient_leads interior).symm))
        simp only [interior, true_and, if_true, kept]
      · have zero := level_eq_zero_iff.mpr strong
        simp only [interior, true_and, if_true, zero, ite_self]
    · simp only [interior, false_and, if_false]

end

theorem cpu_eq_kernels_iff_square : ∃ g₁ g₂ : Buffers Nat,
    Launch (sobelKernel rootFloor (fun _ _ => 0) brightColumn 3 3) (stale 5) g₁ ∧
    Launch (nmsThresholdKernel 50 100 3 3) g₁ g₂ ∧
    ((∀ index < 3 * 3, (exec (cpuNmsThreshold 50 100 3 3)
        (exec (cpuSobel rootFloor (fun _ _ => 0) brightColumn 3 3) (stale 60)) (.edges index) :
          UInt8) = g₂ (.edges index)) ↔
      FrameHarmless rootFloor (fun _ _ => 0) brightColumn 50 100 3 3 fun index =>
        stale 60 (.mag index)) := by
  obtain ⟨g₁, sobel⟩ := exists_launch
    (sobelKernel rootFloor (fun _ _ => 0) brightColumn 3 3) (stale 5)
  obtain ⟨g₂, nms⟩ := exists_launch (nmsThresholdKernel 50 100 3 3) g₁
  exact ⟨g₁, g₂, sobel, nms, cpu_eq_kernels_iff (fun _ _ => Nat.zero_le _) sobel nms (stale 60)⟩

/-- With 200 left in the frame the single thread drops the edge that the kernels find. -/
theorem frame_differs : ∃ g₁ g₂ : Buffers Nat,
    Launch (sobelKernel rootFloor (fun _ _ => 0) brightColumn 3 3) (stale 5) g₁ ∧
    Launch (nmsThresholdKernel 50 100 3 3) g₁ g₂ ∧
    (g₂ (.edges 4) : UInt8) = 255 ∧
    (exec (cpuNmsThreshold 50 100 3 3)
      (exec (cpuSobel rootFloor (fun _ _ => 0) brightColumn 3 3) (stale 200)) (.edges 4) :
        UInt8) = 0 := by
  obtain ⟨g₁, sobel⟩ := exists_launch
    (sobelKernel rootFloor (fun _ _ => 0) brightColumn 3 3) (stale 5)
  obtain ⟨g₂, nms⟩ := exists_launch (nmsThresholdKernel 50 100 3 3) g₁
  refine ⟨g₁, g₂, sobel, nms, ?_, ?_⟩
  · rw [nmsThresholdKernel_launch nms, sobelKernel_launch _ _ _ sobel]
    decide +kernel
  · rw [cpuNmsThreshold_exec, cpuSobel_exec]
    decide +kernel

end CudaOpenMp.Canny
