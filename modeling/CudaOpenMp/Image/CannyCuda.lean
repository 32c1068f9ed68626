import CudaOpenMp.Image.CannyCompare
import CudaOpenMp.Image.CannyStages

/-!
`canny_cuda.cu` launches the linking kernel five times. The weak pixels that are then erased
are without a path to a strong one exactly when no such path is longer than five steps.
-/

namespace CudaOpenMp.Canny

open Rasters Raster Stores Spreading

def edgeMap {M : Type} (buffers : Buffers M) : Edges := fun index => buffers (.edges index)

section
variable {M : Type} [Zero M] [LE M] [DecidableLE M] {lowThr highThr : M} {w h : Nat}

theorem edgeMap_weak {before after : Buffers M}
    (produced : Launch (nmsThresholdKernel lowThr highThr w h) before after) {p : Pixel}
    (inside : Inside w h p) (low : edgeMap after (cell w p) = 128) : p ∈ weak w h (edgeMap after) := by
  refine ⟨?_, low⟩
  by_contra border
  rw [edgeMap, nmsThresholdKernel_launch produced, levelBuffers_edges inside,
    if_neg fun both => border both.1] at low
  exact absurd low (by decide)

/-- What the cleanup erases after five launches is joined to no strong pixel of the map. -/
def ErasesUnlinked (w h : Nat) (edges : Edges) : Prop :=
  ∀ middle out, Times (HysteresisLaunch w h) 5 edges middle → CleanupLaunch w h middle out →
    ∀ p, Inside w h p → edges (cell w p) = 128 → out (cell w p) = 0 →
      ¬∃ q ∈ reach w h edges, Adjacent q p

theorem erasesUnlinked_of_short {before after : Buffers M}
    (produced : Launch (nmsThresholdKernel lowThr highThr w h) before after)
    (short : reach w h (edgeMap after) ⊆ within w h (edgeMap after) 5) :
    ErasesUnlinked w h (edgeMap after) := by
  rintro middle out times clean p inside low erased ⟨q, reached, adjacent⟩
  have member := edgeMap_weak produced inside low
  obtain ⟨_, between⟩ := times.linking fun _ _ => HysteresisLaunch.linking
  have high := between.lower (short (linked_step reached adjacent member))
  rw [← strong_cleaned, ← clean.eq_cleaned] at high
  exact absurd (erased.symm.trans high.2) (by decide)

theorem short_of_erasesUnlinked {edges : Edges} (erases : ErasesUnlinked w h edges) :
    reach w h edges ⊆ within w h edges 5 := by
  obtain ⟨middle, times, marked⟩ := exists_fewest (w := w) (h := h) 5 edges
  obtain ⟨out, clean⟩ := exists_cleanup (w := w) (h := h) middle
  intro p reached
  rcases mem_linked_iff.mp reached with first | ⟨member, near⟩
  · exact marked_subset_ball 5 first
  · by_contra far
    have inside := member.1.inside
    have erased : out (cell w p) = 0 := by
      rw [clean.eq_cleaned, cleaned]
      obtain ⟨grown, _⟩ := times.linking fun _ _ => HysteresisLaunch.linking
      rcases grown.weak_union member with still | high
      · rw [if_pos ⟨cell_lt inside, still.2⟩]
      · rw [marked] at high
        exact (far high).elim
    exact erases middle out times clean p inside member.2 erased near

theorem erasesUnlinked_iff {before after : Buffers M}
    (produced : Launch (nmsThresholdKernel lowThr highThr w h) before after) :
    ErasesUnlinked w h (edgeMap after) ↔
      reach w h (edgeMap after) ⊆ within w h (edgeMap after) 5 :=
  ⟨short_of_erasesUnlinked, erasesUnlinked_of_short produced⟩

end

/-- Ten by three pixels: a step at the last row, and one brighter pixel in the middle row. -/
def stepImage (index : Nat) : UInt8 := if index = 11 then 30 else if 20 ≤ index then 20 else 0

/-- The angles of the two gradients that occur, (0, 80) and (-60, 80), in degrees. -/
def stepAngle (dx _dy : Int) : Rat := if dx = 0 then 90 else 126.87

def stepDirection (dx dy : Int) : UInt8 := kernelDirection (stepAngle dx dy)

theorem erasesUnlinked_iff_step : ∃ g₁ g₂ : Buffers Nat,
    Launch (sobelKernel rootFloor stepDirection stepImage 10 3) (stale 5) g₁ ∧
    Launch (nmsThresholdKernel 50 100 10 3) g₁ g₂ ∧
    (ErasesUnlinked 10 3 (edgeMap g₂) ↔
      reach 10 3 (edgeMap g₂) ⊆ within 10 3 (edgeMap g₂) 5) := by
  obtain ⟨g₁, sobel⟩ := exists_launch (sobelKernel rootFloor stepDirection stepImage 10 3) (stale 5)
  obtain ⟨g₂, nms⟩ := exists_launch (nmsThresholdKernel 50 100 10 3) g₁
  exact ⟨g₁, g₂, sobel, nms, erasesUnlinked_iff nms⟩

theorem stepImage_edges {g₁ g₂ : Buffers Nat}
    (sobel : Launch (sobelKernel rootFloor stepDirection stepImage 10 3) (stale 5) g₁)
    (nms : Launch (nmsThresholdKernel 50 100 10 3) g₁ g₂) :
    (∀ index < 30, edgeMap g₂ index = 255 ↔ index = 12) ∧
      ∀ index < 19, 12 < index → edgeMap g₂ index = 128 := by
  rw [nmsThresholdKernel_launch nms, sobelKernel_launch _ _ _ sobel]
  constructor <;> decide +kernel

theorem step_erases_linked : ∃ g₁ g₂ : Buffers Nat,
    Launch (sobelKernel rootFloor stepDirection stepImage 10 3) (stale 5) g₁ ∧
    Launch (nmsThresholdKernel 50 100 10 3) g₁ g₂ ∧ ¬ErasesUnlinked 10 3 (edgeMap g₂) := by
  obtain ⟨g₁, sobel⟩ := exists_launch (sobelKernel rootFloor stepDirection stepImage 10 3) (stale 5)
  obtain ⟨g₂, nms⟩ := exists_launch (nmsThresholdKernel 50 100 10 3) g₁
  obtain ⟨high, low⟩ := stepImage_edges sobel nms
  refine ⟨g₁, g₂, sobel, nms, fun erases => ?_⟩
  apply @chain_late 10 3 (edgeMap g₂) 2 8 ⟨by decide, (high 12 (by decide)).mpr rfl⟩ _ _ 5
    (by decide) (short_of_erasesUnlinked erases)
  · rintro ⟨x, y⟩ ⟨inside, found⟩
    have place : y * 10 + x = 12 := (high _ (cell_lt inside)).mp found
    have column : x < 10 := inside.1
    simp only
    omega
  · intro x lower upper
    refine ⟨⟨by simp only; omega, by simp only; omega, Nat.one_pos, Nat.one_lt_two⟩, ?_⟩
    exact low (1 * 10 + x) (by omega) (by omega)

end CudaOpenMp.Canny
