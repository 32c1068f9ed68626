import CudaOpenMp.Image.HysteresisCore
import CudaOpenMp.Library.Spreading

/-!
What one pass of edge linking does, in any interleaving: it reaches every weak pixel beside a
strong one and none that no weak path joins to a strong one.
-/

namespace CudaOpenMp.Canny

open Interleaving Rasters Raster IndexRanges Spreading

def strong (w h : Nat) (edges : Edges) : Set Pixel := {p | Inside w h p ∧ edges (cell w p) = 255}

def weak (w h : Nat) (edges : Edges) : Set Pixel := {p | Interior w h p ∧ edges (cell w p) = 128}

/-- The strong pixels and the weak ones that weak paths join to them. -/
abbrev reach (w h : Nat) (edges : Edges) : Set Pixel :=
  linked Adjacent (weak w h edges) (strong w h edges)

abbrev within (w h : Nat) (edges : Edges) (k : Nat) : Set Pixel :=
  ball Adjacent (weak w h edges) (strong w h edges) k

variable {w h : Nat}

/-- Only weak pixels change, and they become strong. -/
def Grown (w h : Nat) (before after : Edges) : Prop :=
  ∀ index, after index = before index ∨
    ∃ p ∈ weak w h before, index = cell w p ∧ after index = 255

theorem Grown.refl (edges : Edges) : Grown w h edges edges := fun _ => Or.inl rfl

theorem Grown.strong_subset {before after : Edges} (grown : Grown w h before after) :
    strong w h before ⊆ strong w h after := by
  rintro p ⟨inside, high⟩
  refine ⟨inside, ?_⟩
  rcases grown (cell w p) with same | ⟨_, _, _, up⟩
  · rw [same, high]
  · exact up

theorem Grown.weak_subset {before after : Edges} (grown : Grown w h before after) :
    weak w h after ⊆ weak w h before := by
  rintro p ⟨interior, low⟩
  refine ⟨interior, ?_⟩
  rcases grown (cell w p) with same | ⟨_, _, _, up⟩
  · rw [← same, low]
  · rw [up] at low
    exact absurd low (by decide)

theorem Grown.weak_union {before after : Edges} (grown : Grown w h before after) :
    weak w h before ⊆ weak w h after ∪ strong w h after := by
  rintro p ⟨interior, low⟩
  rcases grown (cell w p) with same | ⟨_, _, _, up⟩
  · exact Or.inl ⟨interior, by rw [same, low]⟩
  · exact Or.inr ⟨interior.inside, up⟩

theorem Grown.trans {first second third : Edges} (one : Grown w h first second)
    (two : Grown w h second third) : Grown w h first third := by
  intro index
  rcases two index with same | ⟨p, member, place, up⟩
  · rw [same]
    exact one index
  · exact Or.inr ⟨p, one.weak_subset member, place, up⟩

theorem Grown.mark {before after : Edges} (grown : Grown w h before after) {p : Pixel}
    (member : p ∈ weak w h before) :
    Grown w h before (Function.update after (cell w p) 255) := by
  intro index
  by_cases place : index = cell w p
  · refine Or.inr ⟨p, member, place, ?_⟩
    rw [place, Function.update_self]
  · rw [Function.update_of_ne place]
    exact grown index

theorem mem_strong_mark {edges : Edges} {p q : Pixel} (inside : Inside w h p) :
    q ∈ strong w h (Function.update edges (cell w p) 255) ↔ q = p ∨ q ∈ strong w h edges := by
  simp only [strong, Set.mem_ofPred_eq]
  by_cases same : q = p
  · rw [same, Function.update_self]
    simp [inside]
  · constructor
    · rintro ⟨other, high⟩
      have apart : cell w q ≠ cell w p := fun equal => same (cell_inj other inside equal)
      rw [Function.update_of_ne apart] at high
      exact Or.inr ⟨other, high⟩
    · rintro (equal | ⟨other, high⟩)
      · exact absurd equal same
      · have apart : cell w q ≠ cell w p := fun equal => same (cell_inj other inside equal)
        exact ⟨other, by rw [Function.update_of_ne apart, high]⟩

theorem reach_of_around {edges : Edges} {p q : Pixel} (member : p ∈ weak w h edges)
    (near : q ∈ around p) (reached : q ∈ reach w h edges) : p ∈ reach w h edges := by
  rcases (mem_around member.1).mp near with same | adjacent
  · rwa [← same]
  · exact linked_step reached adjacent member

structure Sound (w h : Nat) (start edges : Edges) : Prop where
  grown : Grown w h start edges
  reached : strong w h edges ⊆ reach w h start

/-- Strong at the end of the visit if it was weak beside a strong pixel at the start. -/
def Served (w h : Nat) (start edges : Edges) (p : Pixel) : Prop :=
  p ∈ weak w h start → (∃ q ∈ around p, q ∈ strong w h start) → p ∈ strong w h edges

def Seen (w h : Nat) (start edges : Edges) : Stage → Prop
  | .next => True
  | .look p rest connected =>
      p ∈ weak w h start ∧
      (connected = true → ∃ q ∈ around p, q ∈ strong w h edges) ∧
      (∀ q ∈ rest, q ∈ around p) ∧
      ∀ q ∈ around p, q ∈ strong w h start → connected = true ∨ q ∈ rest
  | .mark p => p ∈ weak w h start ∧ ∃ q ∈ around p, q ∈ strong w h edges

def Stage.at (p : Pixel) : Stage → Prop
  | .next => False
  | .look q _ _ => p = q
  | .mark q => p = q

structure Progress (w h : Nat) (start : Edges) (job : List Pixel) (edges : Edges) (t : Worker) :
    Prop where
  interior : ∀ p ∈ t.todo, Interior w h p
  seen : Seen w h start edges t.stage
  served : ∀ p ∈ job, p ∈ t.todo ∨ t.stage.at p ∨ Served w h start edges p

theorem Seen.mono {start before after : Edges} (more : strong w h before ⊆ strong w h after)
    {stage : Stage} (seen : Seen w h start before stage) : Seen w h start after stage := by
  cases stage with
  | next => trivial
  | look p rest connected =>
      obtain ⟨member, found, near, left⟩ := seen
      exact ⟨member, fun yes => (found yes).imp fun q hit => ⟨hit.1, more hit.2⟩, near, left⟩
  | mark p =>
      obtain ⟨member, q, near, high⟩ := seen
      exact ⟨member, q, near, more high⟩

theorem Progress.mono {start before after : Edges} {job : List Pixel} {t : Worker}
    (more : strong w h before ⊆ strong w h after)
    (progress : Progress w h start job before t) : Progress w h start job after t where
  interior := progress.interior
  seen := progress.seen.mono more
  served := by
    intro p member
    rcases progress.served p member with waiting | current | done
    · exact Or.inl waiting
    · exact Or.inr (Or.inl current)
    · exact Or.inr (Or.inr fun low near => more (done low near))

theorem step_edges {early : Bool} {start edges edges' : Edges} {t t' : Worker}
    (seen : Seen w h start edges t.stage) (acted : step w early edges t = some (edges', t')) :
    edges' = edges ∨ ∃ p ∈ weak w h start, (∃ q ∈ around p, q ∈ strong w h edges) ∧
      edges' = Function.update edges (cell w p) 255 := by
  rcases t with ⟨todo, stage⟩
  cases stage with
  | next =>
      cases todo with
      | nil => cases acted
      | cons p todo =>
          cases acted
          exact Or.inl rfl
  | look p rest connected =>
      cases rest <;> cases acted <;> exact Or.inl rfl
  | mark p =>
      cases acted
      exact Or.inr ⟨p, seen.1, seen.2, rfl⟩

theorem Sound.step {early : Bool} {start edges edges' : Edges} {t t' : Worker}
    (sound : Sound w h start edges) (seen : Seen w h start edges t.stage)
    (acted : step w early edges t = some (edges', t')) :
    Sound w h start edges' ∧ strong w h edges ⊆ strong w h edges' := by
  rcases step_edges seen acted with same | ⟨p, member, ⟨q, near, high⟩, marked⟩
  · subst same
    exact ⟨sound, subset_rfl⟩
  · subst marked
    have inside := member.1.inside
    refine ⟨⟨sound.grown.mark member, ?_⟩, ?_⟩
    · intro other found
      rcases (mem_strong_mark inside).mp found with same | old
      · rw [same]
        exact reach_of_around member near (sound.reached high)
      · exact sound.reached old
    · intro other old
      exact (mem_strong_mark inside).mpr (Or.inr old)

theorem Progress.step {early : Bool} {start edges edges' : Edges} {job : List Pixel}
    {t t' : Worker} (sound : Sound w h start edges) (progress : Progress w h start job edges t)
    (acted : step w early edges t = some (edges', t')) : Progress w h start job edges' t' := by
  obtain ⟨soundAfter, more⟩ := sound.step progress.seen acted
  obtain ⟨interior, seen, served⟩ := progress.mono more
  have before := progress.seen
  rcases t with ⟨todo, stage⟩
  cases stage with
  | next =>
      cases todo with
      | nil => cases acted
      | cons p todo =>
          cases acted
          have own := interior p List.mem_cons_self
          refine ⟨fun q member => interior q (List.mem_cons_of_mem p member), ?_, ?_⟩
          · split
            · next low =>
              -- The pixel was weak at the start as well.
              exact ⟨sound.grown.weak_subset ⟨own, low⟩, by simp, fun _ near => near,
                fun _ near _ => Or.inr near⟩
            · trivial
          · intro q member
            rcases served q member with waiting | current | done
            · rcases List.mem_cons.mp waiting with same | later
              · subst same
                split
                · exact Or.inr (Or.inl rfl)
                · next high =>
                  refine Or.inr (Or.inr fun low _ => ?_)
                  exact (sound.grown.weak_union low).resolve_left fun still => high still.2
              · exact Or.inl later
            · exact current.elim
            · exact Or.inr (Or.inr done)
  | look p rest connected =>
      obtain ⟨member, found, near, left⟩ := before
      cases rest with
      | nil =>
          cases acted
          cases connected with
          | true => exact ⟨interior, ⟨member, found rfl⟩, served⟩
          | false =>
              refine ⟨interior, trivial, ?_⟩
              intro q job
              rcases served q job with waiting | current | done
              · exact Or.inl waiting
              · -- Nothing around the pixel was strong at the start.
                subst current
                refine Or.inr (Or.inr fun _ ⟨other, close, high⟩ => ?_)
                simpa using left other close high
              · exact Or.inr (Or.inr done)
      | cons q rest =>
          cases acted
          have inside := around_inside member.1 (near q List.mem_cons_self)
          have found' : (connected || edges (cell w q) == 255) = true →
              ∃ q ∈ around p, q ∈ strong w h edges := by
            rw [Bool.or_eq_true, beq_iff_eq]
            rintro (earlier | now)
            · exact found earlier
            · exact ⟨q, near q List.mem_cons_self, inside, now⟩
          by_cases stops : (early && (connected || edges (cell w q) == 255)) = true
          · have connected' := (Bool.and_eq_true _ _ ▸ stops).2
            simp only [stops, if_true]
            exact ⟨interior, ⟨member, found' connected'⟩, served⟩
          · simp only [stops]
            refine ⟨interior, ⟨member, found', fun other later =>
              near other (List.mem_cons_of_mem q later), ?_⟩, served⟩
            intro other close high
            rcases left other close high with earlier | waiting
            · exact Or.inl (by rw [earlier, Bool.true_or])
            · rcases List.mem_cons.mp waiting with same | later
              · subst same
                have still := sound.grown.strong_subset high
                exact Or.inl (by rw [Bool.or_eq_true, beq_iff_eq]; exact Or.inr still.2)
              · exact Or.inr later
  | mark p =>
      cases acted
      refine ⟨interior, trivial, ?_⟩
      intro q job
      rcases served q job with waiting | current | done
      · exact Or.inl waiting
      · subst current
        refine Or.inr (Or.inr fun low _ => ?_)
        exact (mem_strong_mark low.1.inside).mpr (Or.inl rfl)
      · exact Or.inr (Or.inr done)

/-! Whole passes. -/

structure Linking (w h : Nat) (before after : Edges) : Prop where
  grown : Grown w h before after
  pass : Pass Adjacent (weak w h before) (strong w h before) (strong w h after)

section
variable {ι : Type} [DecidableEq ι] {early : Bool} {start : Edges} {job : ι → List Pixel}
  {s : State ι Edges Worker}

/-- The map is sound, and each thread is on its way through its pixels. -/
structure Tracks (w h : Nat) (start : Edges) (job : ι → List Pixel) (s : State ι Edges Worker) :
    Prop where
  sound : Sound w h start s.shared
  progress : ∀ i, Progress w h start (job i) s.shared (s.locals i)

omit [DecidableEq ι] in
theorem Tracks.initial (interior : ∀ i, ∀ p ∈ job i, Interior w h p) :
    Tracks w h start job ⟨start, fun i => ⟨job i, .next⟩⟩ where
  sound := ⟨.refl start, marked_subset_linked⟩
  progress := fun i => ⟨interior i, trivial, fun _ member => Or.inl member⟩

theorem Tracks.step {t : State ι Edges Worker} (tracks : Tracks w h start job s)
    (move : Step (act w early) s t) : Tracks w h start job t := by
  obtain ⟨sound, progress⟩ := tracks
  cases move with
  | turn i acted =>
      obtain ⟨after, more⟩ := sound.step (progress i).seen acted
      refine ⟨after, ?_⟩
      intro j
      by_cases same : j = i
      · subst same
        simp only [Function.update_self]
        exact (progress j).step sound acted
      · simp only [Function.update_of_ne same]
        exact (progress j).mono more

theorem Tracks.run {t : State ι Edges Worker} (tracks : Tracks w h start job s)
    (run : Run (act w early) s t) : Tracks w h start job t :=
  run.invariant tracks fun _ _ move before => before.step move

omit [DecidableEq ι] in
theorem Tracks.served (tracks : Tracks w h start job s) (done : ∀ i, (s.locals i).finished)
    {i : ι} {p : Pixel} (member : p ∈ job i) : Served w h start s.shared p := by
  obtain ⟨empty, idle⟩ := done i
  rcases (tracks.progress i).served p member with waiting | current | served
  · rw [empty] at waiting
    cases waiting
  · rw [idle] at current
    exact current.elim
  · exact served

omit [DecidableEq ι] in
theorem Tracks.linking (tracks : Tracks w h start job s) (done : ∀ i, (s.locals i).finished)
    (covers : ∀ p, Interior w h p → ∃ i, p ∈ job i) : Linking w h start s.shared := by
  obtain ⟨grown, reached⟩ := tracks.sound
  refine ⟨grown, ?_, reached⟩
  rintro p (high | ⟨low, q, high, adjacent⟩)
  · exact grown.strong_subset high
  · obtain ⟨i, member⟩ := covers p low.1
    apply tracks.served done member low
    exact ⟨q, (mem_around low.1).mpr (Or.inr adjacent), high⟩

end

theorem Times.linking {pass : Edges → Edges → Prop}
    (links : ∀ before after, pass before after → Linking w h before after) {k : Nat}
    {before after : Edges} (times : Times pass k before after) :
    Grown w h before after ∧
      Between Adjacent (weak w h before) (strong w h before) k (strong w h after) := by
  induction k generalizing after with
  | zero =>
      cases times
      exact ⟨.refl _, .zero⟩
  | succ k ih =>
      obtain ⟨middle, earlier, last⟩ := times
      obtain ⟨grown, between⟩ := ih earlier
      have link := links _ _ last
      exact ⟨grown.trans link.grown,
        between.pass (link.pass.widen grown.weak_subset grown.weak_union)⟩

theorem hysteresisKernel_interior (place : Thread w h) :
    ∀ p ∈ (hysteresisKernel w h place).todo, Interior w h p := by
  intro p member
  simp only [hysteresisKernel] at member
  split at member
  · next inner => rwa [List.mem_singleton.mp member]
  · cases member

theorem exists_thread {p : Pixel} (inside : Inside w h p) :
    ∃ place : Thread w h, place.pixel = p := exists_place ⟨by decide, by decide⟩ inside

theorem mem_hysteresisKernel {p : Pixel} (interior : Interior w h p) :
    ∃ place, p ∈ (hysteresisKernel w h place).todo := by
  obtain ⟨place, same⟩ := exists_thread interior.inside
  refine ⟨place, ?_⟩
  simp [hysteresisKernel, same, interior]

theorem HysteresisLaunch.linking {before after : Edges}
    (launch : HysteresisLaunch w h before after) : Linking w h before after := by
  obtain ⟨s, run, done, rfl⟩ := launch
  have tracks := (Tracks.initial hysteresisKernel_interior).run run
  exact tracks.linking done fun p interior => mem_hysteresisKernel interior

theorem mem_pthreadRows {first last : Nat} {p : Pixel} :
    p ∈ pthreadRows w h first last ↔
      (first ≤ p.2 ∧ p.2 < last) ∧ (p.2 ≠ 0 ∧ p.2 ≠ h - 1) ∧ 1 ≤ p.1 ∧ p.1 < w - 1 := by
  obtain ⟨x, y⟩ := p
  simp only [pthreadRows, List.mem_flatMap, mem_indices]
  constructor
  · rintro ⟨row, range, member⟩
    split at member
    · cases member
    · next middle =>
      obtain ⟨column, bounds, same⟩ := List.mem_map.mp member
      cases same
      exact ⟨range, not_or.mp middle, mem_indices.mp bounds⟩
  · rintro ⟨range, middle, columns⟩
    refine ⟨y, range, ?_⟩
    rw [if_neg (not_or.mpr middle)]
    exact List.mem_map_of_mem (mem_indices.mpr columns)

theorem pthreadHyst_interior (t : Fin numThreads) :
    ∀ p ∈ (pthreadHyst w h t).todo, Interior w h p := by
  intro p member
  obtain ⟨⟨_, last⟩, ⟨top, bottom⟩, left, right⟩ := mem_pthreadRows.mp member
  have height := yEnd_le (h := h) t.isLt
  exact ⟨left, right, by omega, by omega⟩

theorem mem_pthreadHyst {p : Pixel} (interior : Interior w h p) :
    ∃ t, p ∈ (pthreadHyst w h t).todo := by
  obtain ⟨t, row, _⟩ := existsUnique_hasRow (by decide : 0 < numThreads) interior.inside.2
  obtain ⟨left, right, top, bottom⟩ := interior
  exact ⟨t, mem_pthreadRows.mpr ⟨row, ⟨by omega, by omega⟩, left, right⟩⟩

theorem finished_stuck {early : Bool} {edges edges' : Edges} {t t' : Worker}
    (done : t.finished) : step w early edges t ≠ some (edges', t') := by
  obtain ⟨empty, idle⟩ := done
  simp [step, empty, idle]

theorem PthreadPass.linking {before after : Edges} (pass : PthreadPass w h before after) :
    Linking w h before after := by
  obtain ⟨f, run, joined, rfl⟩ := pass
  have tracks := (Tracks.initial pthreadHyst_interior).run run.run
  have done (t : Fin numThreads) : (f.state.locals t).finished :=
    run.joined_finished rfl (fun _ _ _ _ _ done acted => finished_stuck done acted) t
      (by rw [joined]; exact t.isLt)
  exact tracks.linking done fun p interior => mem_pthreadHyst interior

/-! A thread that runs alone visits its pixels as the sequential loop does. -/

section
variable {ι : Type} [DecidableEq ι] (w : Nat) (early : Bool) (locals : ι → Worker) (i : ι)

theorem look_alone (edges : Edges) (todo rest : List Pixel) (p : Pixel) (connected : Bool) :
    Run (act w early) (solo locals i edges ⟨todo, .look p rest connected⟩)
      (solo locals i
        (if connected || rest.any fun q => edges (cell w q) == 255 then
          Function.update edges (cell w p) 255 else edges) ⟨todo, .next⟩) := by
  have marked : Run (act w early) (solo locals i edges ⟨todo, .mark p⟩)
      (solo locals i (Function.update edges (cell w p) 255) ⟨todo, .next⟩) :=
    .single (Step.solo locals i rfl)
  induction rest generalizing connected with
  | nil =>
      cases connected with
      | false => exact .single (Step.solo locals i rfl)
      | true => exact .head (Step.solo locals i rfl) marked
  | cons q rest ih =>
      rw [List.any_cons, ← Bool.or_assoc]
      by_cases stops : (early && (connected || edges (cell w q) == 255)) = true
      · have found := (Bool.and_eq_true _ _ ▸ stops).2
        rw [found, Bool.true_or, if_pos rfl]
        refine .head (Step.solo locals i ?_) marked
        simp only [act, step, stops, if_true]
      · refine .head (Step.solo locals i ?_) (ih _)
        simp only [act, step, stops]
        rfl

theorem visit_alone (edges : Edges) (todo : List Pixel) (p : Pixel) :
    Run (act w early) (solo locals i edges ⟨p :: todo, .next⟩)
      (solo locals i (visit w edges p) ⟨todo, .next⟩) := by
  have first : Step (act w early) (solo locals i edges ⟨p :: todo, .next⟩) _ :=
    Step.solo locals i rfl
  rw [visit]
  by_cases low : edges (cell w p) = 128
  · rw [if_pos low] at first ⊢
    exact .head first (look_alone w early locals i edges todo (around p) p false)
  · rw [if_neg low] at first ⊢
    exact .single first

theorem visits_alone (edges : Edges) (todo : List Pixel) :
    Run (act w early) (solo locals i edges ⟨todo, .next⟩)
      (solo locals i (todo.foldl (visit w) edges) ⟨[], .next⟩) := by
  induction todo generalizing edges with
  | nil => exact .refl
  | cons p todo ih => exact (visit_alone w early locals i edges todo p).trans (ih _)

end

theorem foldl_visit_linking {todo : List Pixel} (interior : ∀ p ∈ todo, Interior w h p)
    (covers : ∀ p, Interior w h p → p ∈ todo) (before : Edges) :
    Linking w h before (todo.foldl (visit w) before) := by
  have tracks := @Tracks.initial w h Unit before (fun _ : Unit => todo) fun _ => interior
  have run := visits_alone w true (fun _ : Unit => ⟨todo, .next⟩) () before todo
  rw [solo_self _ () before] at run
  refine (tracks.run run).linking (fun _ => ?_) fun p inner => ⟨(), covers p inner⟩
  simp [solo, Worker.finished]

theorem cpuPass_linking (edges : Edges) : Linking w h edges (cpuPass w h edges) :=
  foldl_visit_linking (fun _ => mem_interiorPixels.mp) (fun _ => mem_interiorPixels.mpr) edges

end CudaOpenMp.Canny
