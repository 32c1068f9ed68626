import CudaOpenMp.Image.Cleanup

/-!
Edge linking in `canny_compare.cu`: what any number of launches can mark, and when the three
paths of `main` end with the same map.
-/

namespace CudaOpenMp.Canny

open Rasters Raster Spreading

variable {w h : Nat}

theorem Grown.unchanged {before after : Edges} (grown : Grown w h before after) {p : Pixel}
    (inside : Inside w h p) (other : p ∉ weak w h before) :
    after (cell w p) = before (cell w p) := by
  rcases grown (cell w p) with same | ⟨q, low, place, _⟩
  · exact same
  · have equal := cell_inj inside low.1.inside place
    rw [equal] at other
    exact (other low).elim

theorem Grown.ext {start first second : Edges} (one : Grown w h start first)
    (two : Grown w h start second) (same : strong w h first = strong w h second) :
    first = second := by
  have marked {a b : Edges} (grown : Grown w h start b) (equal : strong w h a = strong w h b)
      {p : Pixel} (low : p ∈ weak w h start) (high : a (cell w p) = 255) : b (cell w p) = 255 := by
    have member : p ∈ strong w h a := ⟨low.1.inside, high⟩
    rw [equal] at member
    exact member.2
  funext index
  rcases one index with left | ⟨p, low, place, high⟩
  · rcases two index with right | ⟨p, low, place, high⟩
    · rw [left, right]
    · subst place
      rw [high]
      exact marked one same.symm low high
  · subst place
    rw [high]
    exact (marked two same low high).symm

theorem launches_between {k : Nat} {before after : Edges}
    (times : Times (HysteresisLaunch w h) k before after) :
    within w h before k ⊆ strong w h after ∧ strong w h after ⊆ reach w h before ∧
      ∀ p, Inside w h p → before (cell w p) ≠ 128 ∨ ¬Interior w h p →
        after (cell w p) = before (cell w p) := by
  obtain ⟨grown, between⟩ := times.linking fun _ _ => HysteresisLaunch.linking
  refine ⟨between.lower, between.upper, ?_⟩
  rintro p inside apart
  apply grown.unchanged inside
  rintro ⟨interior, low⟩
  rcases apart with high | border
  · exact high low
  · exact border interior

/-- A strong pixel and six weak ones to the right of it, in the middle of three rows. -/
def row : Edges := fun index => if index = 10 then 255 else if 10 < index ∧ index < 17 then 128 else 0

theorem launches_between_row : ∃ after, Times (HysteresisLaunch 9 3) 2 row after ∧
    within 9 3 row 2 ⊆ strong 9 3 after ∧ strong 9 3 after ⊆ reach 9 3 row ∧
      ∀ p, Inside 9 3 p → row (cell 9 p) ≠ 128 ∨ ¬Interior 9 3 p →
        after (cell 9 p) = row (cell 9 p) := by
  obtain ⟨after, times⟩ := exists_launches 2 row
  exact ⟨after, times, launches_between times⟩

theorem cpuHysteresis_times (edges : Edges) :
    Times (fun before after => after = cpuPass w h before) hystIter edges
      (cpuHysteresis w h edges) := by
  have partway (count : Nat) : Times (fun before after => after = cpuPass w h before) count edges
      ((List.range count).foldl (fun edges _ => cpuPass w h edges) edges) := by
    induction count with
    | zero => rfl
    | succ count ih =>
        rw [List.range_succ, List.foldl_append]
        exact ⟨_, ih, rfl⟩
  exact partway hystIter

theorem cpuHysteresis_linking (edges : Edges) : Grown w h edges (cpuHysteresis w h edges) ∧
    Between Adjacent (weak w h edges) (strong w h edges) hystIter
      (strong w h (cpuHysteresis w h edges)) := by
  apply (cpuHysteresis_times edges).linking
  rintro before after same
  rw [same]
  exact cpuPass_linking before

theorem passes_eq {pass : Edges → Edges → Prop}
    (links : ∀ before after, pass before after → Linking w h before after) {edges middle : Edges}
    (short : reach w h edges ⊆ within w h edges hystIter)
    (times : Times pass hystIter edges middle) : middle = cpuHysteresis w h edges := by
  obtain ⟨grown, between⟩ := times.linking links
  obtain ⟨grownCpu, betweenCpu⟩ := cpuHysteresis_linking (w := w) (h := h) edges
  apply grown.ext grownCpu
  rw [between.eq_linked short, betweenCpu.eq_linked short]

theorem gpuPath_eq {edges gpu : Edges} (short : reach w h edges ⊆ within w h edges hystIter)
    (path : GpuPath w h edges gpu) : gpu = cpuPath w h edges := by
  obtain ⟨middle, times, clean⟩ := path
  rw [clean.eq_cleaned, cpuPath, cpuCleanup_eq,
    passes_eq (fun _ _ => HysteresisLaunch.linking) short times]

theorem pthreadPath_eq {edges pthread : Edges}
    (short : reach w h edges ⊆ within w h edges hystIter)
    (path : PthreadPath w h edges pthread) : pthread = cpuPath w h edges := by
  obtain ⟨middle, times, rfl⟩ := path
  rw [cpuPath, passes_eq (fun _ _ => PthreadPass.linking) short times]

/-- If every schedule on the device ends with one map, no path is longer than the passes. -/
theorem reach_subset_of_agree {edges out : Edges}
    (agree : ∀ gpu, GpuPath w h edges gpu → gpu = out) :
    reach w h edges ⊆ within w h edges hystIter := by
  have outcome {middle : Edges} (times : Times (HysteresisLaunch w h) hystIter edges middle) :
      strong w h middle = strong w h out := by
    obtain ⟨after, clean⟩ := exists_cleanup (w := w) (h := h) middle
    rw [← agree after ⟨middle, times, clean⟩, clean.eq_cleaned, strong_cleaned]
  obtain ⟨few, fewest, exact'⟩ := exists_fewest (w := w) (h := h) hystIter edges
  obtain ⟨many, further, more⟩ := exists_further (w := w) (h := h) 4 edges
  apply linked_subset_ball
  calc within w h edges (hystIter + 1) ⊆ strong w h many := more
    _ = strong w h few := by rw [outcome further, outcome fewest]
    _ ⊆ within w h edges hystIter := exact'.subset

theorem paths_agree_iff (edges : Edges) :
    ((∀ gpu, GpuPath w h edges gpu → gpu = cpuPath w h edges) ∧
      ∀ pthread, PthreadPath w h edges pthread → pthread = cpuPath w h edges) ↔
      reach w h edges ⊆ within w h edges hystIter := by
  constructor
  · rintro ⟨agree, _⟩
    exact reach_subset_of_agree agree
  · intro short
    exact ⟨fun _ => gpuPath_eq short, fun _ => pthreadPath_eq short⟩

/-! A row of weak pixels to the right of a strong one. -/

section
variable {edges : Edges} {first last : Nat}

theorem chain_reach (start : (first, 1) ∈ strong w h edges)
    (low : ∀ x, first < x → x ≤ last → (x, 1) ∈ weak w h edges) {x : Nat} (lower : first ≤ x)
    (upper : x ≤ last) : (x, 1) ∈ reach w h edges := by
  induction x, lower using Nat.le_induction with
  | base => exact marked_subset_linked start
  | succ x lower ih =>
      have adjacent : Adjacent (x, 1) (x + 1, 1) := by
        refine ⟨by simp, ?_, ?_, ?_, ?_⟩ <;> simp only <;> omega
      exact linked_step (ih (by omega)) adjacent (low (x + 1) (by omega) upper)

theorem chain_within (start : ∀ p ∈ strong w h edges, p.1 ≤ first) (k : Nat) :
    ∀ p ∈ within w h edges k, p.1 ≤ first + k := by
  induction k with
  | zero => exact start
  | succ k ih =>
      rintro p (near | ⟨_, q, near, adjacent⟩)
      · exact (ih p near).trans (Nat.le_succ _)
      · have bound := ih q near
        obtain ⟨_, _, step, _⟩ := adjacent
        omega

theorem chain_late (start : (first, 1) ∈ strong w h edges)
    (only : ∀ p ∈ strong w h edges, p.1 ≤ first)
    (low : ∀ x, first < x → x ≤ last → (x, 1) ∈ weak w h edges) {k : Nat}
    (far : first + k < last) : ¬reach w h edges ⊆ within w h edges k := by
  intro short
  have near := chain_within only k _ (short (chain_reach start low (by omega) (Nat.le_refl last)))
  simp only at near
  omega

end

theorem row_values (index : Nat) : row index = 0 ∨ row index = 128 ∨ row index = 255 := by
  rw [row]
  split
  · simp
  · split <;> simp

theorem row_strong {index : Nat} (high : row index = 255) : index = 10 := by
  by_contra other
  rw [row, if_neg other] at high
  by_cases range : 10 < index ∧ index < 17
  · rw [if_pos range] at high
    exact absurd high (by decide)
  · rw [if_neg range] at high
    exact absurd high (by decide)

theorem row_late : ¬reach 9 3 row ⊆ within 9 3 row hystIter := by
  apply @chain_late 9 3 row 1 7 ⟨by decide, by decide⟩
  · rintro ⟨x, y⟩ ⟨⟨column, _⟩, high⟩
    have place : y * 9 + x = 10 := row_strong high
    simp only at column ⊢
    omega
  · intro x lower upper
    refine ⟨⟨by simp only; omega, by simp only; omega, Nat.one_pos, Nat.one_lt_two⟩, ?_⟩
    have right : ¬1 * 9 + x = 10 := by omega
    have range : 10 < 1 * 9 + x ∧ 1 * 9 + x < 17 := by omega
    rw [row, cell, if_neg right, if_pos range]
  · decide

theorem row_disagrees : (∀ index, row index = 0 ∨ row index = 128 ∨ row index = 255) ∧
    ¬((∀ gpu, GpuPath 9 3 row gpu → gpu = cpuPath 9 3 row) ∧
      ∀ pthread, PthreadPath 9 3 row pthread → pthread = cpuPath 9 3 row) := by
  refine ⟨row_values, ?_⟩
  rintro ⟨agree, _⟩
  exact row_late (reach_subset_of_agree agree)

end CudaOpenMp.Canny
