import CudaOpenMp.Image.Hysteresis
import CudaOpenMp.Image.HysteresisRuns

/-!
The kernel and the loop that erase the weak pixels which are left agree, whatever the order
of the threads.
-/

namespace CudaOpenMp.Canny

open Interleaving Rasters Raster

def cleaned (w h : Nat) (edges : Edges) : Edges :=
  fun index => if index < w * h ∧ edges index = 128 then 0 else edges index

theorem cpuCleanup_eq (w h : Nat) (edges : Edges) : cpuCleanup w h edges = cleaned w h edges := by
  have partway (count : Nat) : (List.range count).foldl
      (fun edges i => if edges i = 128 then Function.update edges i 0 else edges) edges =
      fun index => if index < count ∧ edges index = 128 then 0 else edges index := by
    induction count with
    | zero => simp
    | succ count ih =>
        rw [List.range_succ, List.foldl_append, ih]
        simp only [List.foldl_cons, List.foldl_nil, Nat.lt_irrefl, false_and, if_false]
        funext index
        by_cases last : index = count
        · subst last
          by_cases low : edges index = 128 <;> simp [low]
        · have same : index < count + 1 ↔ index < count := by omega
          simp only [same]
          split
          · rw [Function.update_of_ne last]
          · rfl
  exact partway (w * h)

variable {w h : Nat}

/-- Each thread deals with the cell of its own pixel. -/
def Erased (start edges : Edges) (w h : Nat) (p : Pixel) : CleanupStage → Prop
  | .check => Inside w h p → edges (cell w p) = start (cell w p)
  | .erase => Inside w h p ∧ start (cell w p) = 128
  | .done => Inside w h p → start (cell w p) = 128 → edges (cell w p) = 0

structure Cleans (start : Edges) (s : State (Thread w h) Edges CleanupStage) : Prop where
  sound : ∀ index, s.shared index = start index ∨
    index < w * h ∧ start index = 128 ∧ s.shared index = 0
  each : ∀ place, Erased start s.shared w h place.pixel (s.locals place)

theorem Cleans.step {start : Edges} {s t : State (Thread w h) Edges CleanupStage}
    (cleans : Cleans start s) (move : Step (cleanupAct w h) s t) : Cleans start t := by
  obtain ⟨sound, each⟩ := cleans
  cases move with
  | turn place acted =>
      rename_i edges stage
      have own := each place
      cases here : s.locals place with
      | check =>
          rw [here] at own acted
          cases acted
          refine ⟨sound, ?_⟩
          intro other
          by_cases same : other = place
          · subst same
            simp only [Function.update_self]
            split
            · next low => exact ⟨low.1, (own low.1).symm.trans low.2⟩
            · next high =>
              intro inside low
              exact (high ⟨inside, (own inside).trans low⟩).elim
          · simp only [Function.update_of_ne same]
            exact each other
      | erase =>
          rw [here] at own acted
          cases acted
          obtain ⟨inside, low⟩ := own
          constructor
          · intro index
            by_cases same : index = cell w place.pixel
            · subst same
              simp only [Function.update_self]
              exact Or.inr ⟨cell_lt inside, low, trivial⟩
            · simp only [Function.update_of_ne same]
              exact sound index
          · intro other
            by_cases same : other = place
            · subst same
              simp only [Function.update_self]
              exact fun _ _ => Function.update_self ..
            · have apart (within : Inside w h other.pixel) :
                  cell w other.pixel ≠ cell w place.pixel :=
                fun equal => same (pixel_inj (cell_inj within inside equal))
              have before := each other
              simp only [Function.update_of_ne same]
              cases stage : s.locals other with
              | check =>
                  rw [stage] at before
                  intro within
                  rw [Function.update_of_ne (apart within)]
                  exact before within
              | erase =>
                  rw [stage] at before
                  exact before
              | done =>
                  rw [stage] at before
                  intro within old
                  rw [Function.update_of_ne (apart within)]
                  exact before within old
      | done =>
          rw [here] at acted
          cases acted

theorem CleanupLaunch.eq_cleaned {before after : Edges} (launch : CleanupLaunch w h before after) :
    after = cleaned w h before := by
  obtain ⟨s, run, done, rfl⟩ := launch
  have cleans : Cleans before s :=
    run.invariant ⟨fun _ => Or.inl rfl, fun _ _ => rfl⟩ fun _ _ move held => held.step move
  funext index
  rw [cleaned]
  split
  · next low =>
    obtain ⟨p, inside, same⟩ := exists_pixel low.1
    obtain ⟨place, own⟩ := exists_thread inside
    have erased := cleans.each place
    rw [done, own] at erased
    subst same
    exact erased inside low.2
  · next high =>
    rcases cleans.sound index with same | ⟨below, low, _⟩
    · exact same
    · exact (high ⟨below, low⟩).elim

theorem exists_cleanup (edges : Edges) : ∃ after, CleanupLaunch w h edges after := by
  obtain ⟨after, -, run⟩ := @Run.each (Thread w h) Edges CleanupStage _ (cleanupAct w h)
    (fun _ => .check) (fun _ => .done) (fun _ _ => True) Finset.univ
    (by
      intro place _ served g _ _ locals here
      rw [← solo_self locals place, here]
      have first : Step (cleanupAct w h) (solo locals place g .check) _ :=
        Step.solo locals place rfl
      by_cases low : Inside w h place.pixel ∧ g (cell w place.pixel) = 128
      · rw [if_pos low] at first
        exact ⟨_, trivial, .head first (.single (Step.solo locals place rfl))⟩
      · rw [if_neg low] at first
        exact ⟨g, trivial, .single first⟩)
    edges trivial
  exact ⟨after, _, by simpa using run, fun _ => rfl, rfl⟩

theorem strong_cleaned (edges : Edges) : strong w h (cleaned w h edges) = strong w h edges := by
  ext p
  simp only [strong, cleaned, Set.mem_ofPred_eq]
  constructor
  · rintro ⟨inside, high⟩
    split at high
    · exact absurd high (by decide)
    · exact ⟨inside, high⟩
  · rintro ⟨inside, high⟩
    refine ⟨inside, ?_⟩
    rw [high]
    simp

end CudaOpenMp.Canny
