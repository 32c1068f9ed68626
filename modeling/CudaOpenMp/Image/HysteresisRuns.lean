import CudaOpenMp.Image.Hysteresis
import Mathlib.Data.Fintype.Prod

/-!
Launches of the kernel that can happen: one in which all threads look before any of them
marks, and one in which an edge grows by two pixels.
-/

namespace CudaOpenMp.Canny

open Interleaving Rasters Raster Spreading

variable {w h : Nat}

theorem visit_grown {p : Pixel} (interior : Interior w h p) (edges : Edges) :
    Grown w h edges (visit w edges p) := by
  rw [visit]
  split
  · next low =>
    dsimp only
    split
    · exact (Grown.refl edges).mark ⟨interior, low⟩
    · exact .refl edges
  · exact .refl edges

theorem visit_marks {p : Pixel} {edges : Edges} (member : p ∈ weak w h edges ∪ strong w h edges)
    (near : ∃ q ∈ around p, q ∈ strong w h edges) : p ∈ strong w h (visit w edges p) := by
  rcases member with ⟨interior, low⟩ | ⟨inside, high⟩
  · obtain ⟨q, close, _, found⟩ := near
    have conn : ((around p).any fun q => edges (cell w q) == 255) = true :=
      List.any_eq_true.mpr ⟨q, close, beq_iff_eq.mpr found⟩
    rw [visit, if_pos low]
    simp only [conn, if_true]
    exact (mem_strong_mark interior.inside).mpr (Or.inl rfl)
  · have stays : ¬edges (cell w p) = 128 := by
      rw [high]
      decide
    rw [visit, if_neg stays]
    exact ⟨inside, high⟩

section
variable {ι : Type} [DecidableEq ι] [Fintype ι]

theorem exists_finish (early : Bool) (job : ι → List Pixel) (edges : Edges) :
    ∃ after, Run (act w early) ⟨edges, fun i => ⟨job i, .next⟩⟩ ⟨after, fun _ => ⟨[], .next⟩⟩ := by
  have one (i : ι) (served : Finset ι) (g : Edges) (locals : ι → Worker)
      (here : locals i = ⟨job i, .next⟩) : ∃ g', True ∧
        Run (act w early) ⟨g, locals⟩ ⟨g', Function.update locals i ⟨[], .next⟩⟩ := by
    have run := visits_alone w early locals i g (job i)
    rw [← here, solo_self] at run
    exact ⟨_, trivial, run⟩
  obtain ⟨after, -, run⟩ := @Run.each ι Edges Worker _ (act w early) (fun i => ⟨job i, .next⟩)
    (fun _ => ⟨[], .next⟩) (fun _ _ => True) Finset.univ
    (fun i _ served g _ _ => one i served g) edges trivial
  exact ⟨after, by simpa using run⟩

end

theorem exists_hysteresisLaunch (edges : Edges) : ∃ after, HysteresisLaunch w h edges after := by
  obtain ⟨after, run⟩ := exists_finish (w := w) false
    (fun place : Thread w h => (hysteresisKernel w h place).todo) edges
  exact ⟨after, _, run, fun _ => ⟨rfl, rfl⟩, rfl⟩

theorem exists_launches (k : Nat) (edges : Edges) :
    ∃ after, Times (HysteresisLaunch w h) k edges after := by
  induction k with
  | zero => exact ⟨edges, rfl⟩
  | succ k ih =>
      obtain ⟨middle, earlier⟩ := ih
      obtain ⟨after, last⟩ := exists_hysteresisLaunch (w := w) (h := h) middle
      exact ⟨after, middle, earlier, last⟩

/-! All threads look at the map of the start. -/

theorem look_waits {ι : Type} [DecidableEq ι] (locals : ι → Worker) (i : ι) (edges : Edges)
    (todo rest : List Pixel) (p : Pixel) (connected : Bool) :
    Run (act w false) (solo locals i edges ⟨todo, .look p rest connected⟩)
      (solo locals i edges
        ⟨todo, .look p [] (connected || rest.any fun q => edges (cell w q) == 255)⟩) := by
  induction rest generalizing connected with
  | nil => rw [List.any_nil, Bool.or_false]
  | cons q rest ih =>
      rw [List.any_cons, ← Bool.or_assoc]
      exact .head (Step.solo locals i rfl) (ih _)

/-- What a thread of the kernel has seen before it marks its pixel. -/
def decided (w h : Nat) (edges : Edges) (place : Thread w h) : Worker :=
  if Interior w h place.pixel ∧ edges (cell w place.pixel) = 128 then
    ⟨[], .look place.pixel [] ((around place.pixel).any fun q => edges (cell w q) == 255)⟩
  else ⟨[], .next⟩

theorem kernel_decides (locals : Thread w h → Worker) (place : Thread w h) (edges : Edges) :
    Run (act w false) (solo locals place edges (hysteresisKernel w h place))
      (solo locals place edges (decided w h edges place)) := by
  rw [hysteresisKernel, decided]
  by_cases interior : Interior w h place.pixel
  · rw [if_pos interior]
    have first : Step (act w false) (solo locals place edges ⟨[place.pixel], .next⟩) _ :=
      Step.solo locals place rfl
    by_cases low : edges (cell w place.pixel) = 128
    · rw [if_pos low] at first
      rw [if_pos ⟨interior, low⟩]
      have rest := @look_waits w _ _ locals place edges [] (around place.pixel) place.pixel false
      rw [Bool.false_or] at rest
      exact .head first rest
    · rw [if_neg low] at first
      rw [if_neg fun both => low both.2]
      exact .single first
  · rw [if_neg interior, if_neg fun both => interior both.1]

theorem decided_marks (locals : Thread w h → Worker) (place : Thread w h) (start edges : Edges) :
    ∃ after, (∀ p, p ∈ strong w h after ↔ p ∈ strong w h edges ∨
        p = place.pixel ∧ p ∈ weak w h start ∧ ∃ q ∈ around p, start (cell w q) = 255) ∧
      Run (act w false) (solo locals place edges (decided w h start place))
        (solo locals place after ⟨[], .next⟩) := by
  rw [decided]
  by_cases low : Interior w h place.pixel ∧ start (cell w place.pixel) = 128
  · rw [if_pos low]
    refine ⟨_, ?_, look_alone w false locals place edges [] [] place.pixel _⟩
    intro p
    simp only [List.any_nil, Bool.or_false, List.any_eq_true, beq_iff_eq]
    split
    · next near =>
      rw [mem_strong_mark low.1.inside, or_comm]
      constructor
      · rintro (old | same)
        · exact Or.inl old
        · subst same
          exact Or.inr ⟨rfl, low, near⟩
      · exact Or.imp id And.left
    · next far =>
      constructor
      · exact Or.inl
      · rintro (old | ⟨same, _, near⟩)
        · exact old
        · subst same
          exact (far near).elim
  · rw [if_neg low]
    refine ⟨edges, fun p => ⟨Or.inl, ?_⟩, .refl⟩
    rintro (old | ⟨same, member, _⟩)
    · exact old
    · subst same
      exact (low member).elim

theorem exists_synchronous (edges : Edges) : ∃ after, HysteresisLaunch w h edges after ∧
    strong w h after = grow Adjacent (weak w h edges) (strong w h edges) := by
  obtain ⟨middle, same, looked⟩ := @Run.each (Thread w h) Edges Worker _ (act w false)
    (hysteresisKernel w h) (decided w h edges) (fun _ g => g = edges) Finset.univ
    (by
      rintro place - served g - rfl locals here
      have run := kernel_decides locals place g
      rw [← here, solo_self] at run
      exact ⟨g, rfl, run⟩)
    edges rfl
  rw [same] at looked
  obtain ⟨after, marked, run⟩ := @Run.each (Thread w h) Edges Worker _ (act w false)
    (decided w h edges) (fun _ => ⟨[], .next⟩)
    (fun served g => ∀ p, p ∈ strong w h g ↔ p ∈ strong w h edges ∨
      (∃ place ∈ served, p = place.pixel) ∧ p ∈ weak w h edges ∧
        ∃ q ∈ around p, edges (cell w q) = 255) Finset.univ
    (by
      intro place _ served g fresh held locals here
      obtain ⟨g', marks, run⟩ := decided_marks locals place edges g
      rw [← here, solo_self] at run
      refine ⟨g', ?_, run⟩
      intro p
      rw [marks, held]
      rw [or_assoc, ← or_and_right, @or_comm (∃ place ∈ served, _)]
      simp only [Finset.mem_insert, exists_eq_or_imp])
    edges (by simp)
  simp only [Finset.mem_univ, if_true] at looked run
  refine ⟨after, ⟨_, looked.trans run, fun _ => ⟨rfl, rfl⟩, rfl⟩, ?_⟩
  ext p
  rw [marked]
  simp only [Finset.mem_univ, true_and]
  constructor
  · rintro (old | ⟨_, low, q, near, high⟩)
    · exact Or.inl old
    · rcases (mem_around low.1).mp near with same | adjacent
      · rw [← same] at low
        exact absurd (low.2.symm.trans high) (by decide)
      · exact Or.inr ⟨low, q, ⟨around_inside low.1 near, high⟩, adjacent⟩
  · rintro (old | ⟨low, q, ⟨_, high⟩, adjacent⟩)
    · exact Or.inl old
    · obtain ⟨place, same⟩ := exists_thread low.1.inside
      exact Or.inr ⟨⟨place, same.symm⟩, low, q, (mem_around low.1).mpr (Or.inr adjacent), high⟩

theorem exists_fewest (k : Nat) (edges : Edges) :
    ∃ after, Times (HysteresisLaunch w h) k edges after ∧
      strong w h after = within w h edges k := by
  induction k with
  | zero => exact ⟨edges, rfl, rfl⟩
  | succ k ih =>
      obtain ⟨middle, earlier, same⟩ := ih
      obtain ⟨after, last, grows⟩ := exists_synchronous (w := w) (h := h) middle
      obtain ⟨grown, _⟩ := earlier.linking fun _ _ => HysteresisLaunch.linking
      refine ⟨after, ⟨middle, earlier, last⟩, ?_⟩
      rw [grows, grow_eq_of_free grown.weak_subset grown.weak_union, same]
      rfl

/-! The threads of the pixels beside a strong one go first. -/

def Beside (w h : Nat) (edges : Edges) (place : Thread w h) : Prop :=
  place.pixel ∈ weak w h edges ∧ ∃ q ∈ around place.pixel, q ∈ strong w h edges

theorem exists_first (edges : Edges) : ∃ after, Grown w h edges after ∧
    (∀ place, Beside w h edges place → place.pixel ∈ strong w h after) ∧
    ∃ job : Thread w h → List Pixel,
      (∀ place, Beside w h edges place → job place = []) ∧
      (∀ place, ¬Beside w h edges place → job place = (hysteresisKernel w h place).todo) ∧
      Run (act w false) ⟨edges, hysteresisKernel w h⟩ ⟨after, fun place => ⟨job place, .next⟩⟩ := by
  classical
  obtain ⟨after, ⟨grown, marked⟩, run⟩ := @Run.each (Thread w h) Edges Worker _ (act w false)
    (hysteresisKernel w h) (fun _ => ⟨[], .next⟩)
    (fun served g => Grown w h edges g ∧ ∀ place ∈ served, place.pixel ∈ strong w h g)
    (Finset.univ.filter (Beside w h edges))
    (by
      rintro place member served g - ⟨grown, marked⟩ locals here
      obtain ⟨low, q, near, high⟩ := (Finset.mem_filter.mp member).2
      have run := visits_alone w false locals place g (hysteresisKernel w h place).todo
      have job : (hysteresisKernel w h place).todo = [place.pixel] := if_pos low.1
      have start : (⟨(hysteresisKernel w h place).todo, .next⟩ : Worker) = locals place := here.symm
      rw [start, solo_self, job] at run
      have more := visit_grown low.1 g
      refine ⟨_, ⟨grown.trans more, ?_⟩, run⟩
      intro other served
      rcases Finset.mem_insert.mp served with same | old
      · rw [same]
        exact visit_marks (grown.weak_union low) ⟨q, near, grown.strong_subset high⟩
      · exact more.strong_subset (marked other old))
    edges ⟨.refl edges, by simp⟩
  refine ⟨after, grown, fun place beside => marked place (by simpa using beside),
    fun place => if Beside w h edges place then [] else (hysteresisKernel w h place).todo,
    fun _ beside => if_pos beside, fun _ far => if_neg far, ?_⟩
  convert run using 2
  funext place
  by_cases beside : Beside w h edges place <;> simp [beside, hysteresisKernel]

theorem exists_quick (edges : Edges) : ∃ after, HysteresisLaunch w h edges after ∧
    within w h edges 2 ⊆ strong w h after := by
  obtain ⟨middle, grown, marked, job, served, waiting, first⟩ := exists_first (w := w) (h := h) edges
  obtain ⟨after, rest⟩ := exists_finish (w := w) false job middle
  have interior (place : Thread w h) : ∀ p ∈ job place, Interior w h p := by
    intro p member
    by_cases beside : Beside w h edges place
    · rw [served place beside] at member
      cases member
    · rw [waiting place beside] at member
      exact hysteresisKernel_interior place p member
  have tracks : Tracks w h middle job _ := (Tracks.initial interior).run rest
  have once : within w h edges 1 ⊆ strong w h middle := by
    rintro p (high | ⟨low, q, high, adjacent⟩)
    · exact grown.strong_subset high
    · obtain ⟨place, same⟩ := exists_thread low.1.inside
      subst same
      exact marked place ⟨low, q, (mem_around low.1).mpr (Or.inr adjacent), high⟩
  have more := tracks.sound.grown.strong_subset
  refine ⟨after, ⟨_, first.trans rest, fun _ => ⟨rfl, rfl⟩, rfl⟩, ?_⟩
  rintro p (near | ⟨low, q, near, adjacent⟩)
  · exact more (once near)
  · rcases grown.weak_union low with still | high
    · obtain ⟨place, same⟩ := exists_thread low.1.inside
      have late : ¬Beside w h edges place := by
        intro beside
        have high := marked place beside
        rw [same] at high
        exact absurd (still.2.symm.trans high.2) (by decide)
      have member : p ∈ job place := by
        rw [waiting place late]
        simp [hysteresisKernel, same, low.1]
      exact tracks.served (fun _ => ⟨rfl, rfl⟩) member still
        ⟨q, (mem_around low.1).mpr (Or.inr adjacent), once near⟩
    · exact more high

theorem exists_further (k : Nat) (edges : Edges) :
    ∃ after, Times (HysteresisLaunch w h) (k + 1) edges after ∧
      within w h edges (k + 2) ⊆ strong w h after := by
  obtain ⟨middle, earlier⟩ := exists_launches (w := w) (h := h) k edges
  obtain ⟨after, last, quick⟩ := exists_quick (w := w) (h := h) middle
  obtain ⟨grown, between⟩ := earlier.linking fun _ _ => HysteresisLaunch.linking
  refine ⟨after, ⟨middle, earlier, last⟩, ?_⟩
  rw [within, ball_eq_of_free grown.weak_subset grown.weak_union] at quick
  rw [within, ← ball_add]
  exact (ball_mono between.lower 2).trans quick

end CudaOpenMp.Canny
