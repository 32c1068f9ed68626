import CudaOpenMp.Library.Interleaving

/-!
Threads that assign to cells of a shared memory. When the assigned values depend on no cell
that is assigned, and assignments to one cell agree, every order ends with the same memory.
-/

namespace Stores

open Interleaving

variable {Loc : Type} {Val : Loc → Type}

abbrev Memory (Val : Loc → Type) := (l : Loc) → Val l

/-- A statement that assigns to one cell, or is skipped. -/
structure Assign (Val : Loc → Type) where
  loc : Loc
  value : Memory Val → Option (Val loc)

def assign (l : Loc) (value : Memory Val → Val l) : Assign Val := ⟨l, fun m => some (value m)⟩

variable [DecidableEq Loc]

def Assign.run (a : Assign Val) (m : Memory Val) : Memory Val :=
  match a.value m with
  | some v => Function.update m a.loc v
  | none => m

def exec (program : List (Assign Val)) (m : Memory Val) : Memory Val :=
  program.foldl (fun m a => a.run m) m

/-- One statement of a thread, given by those it has still to run. -/
def step (m : Memory Val) : List (Assign Val) → Option (Memory Val × List (Assign Val))
  | [] => none
  | a :: rest => some (a.run m, rest)

def act {ι : Type} : Action ι (Memory Val) (List (Assign Val)) :=
  fun _ m todo m' todo' => step m todo = some (m', todo')

theorem exec_append (first second : List (Assign Val)) (m : Memory Val) :
    exec (first ++ second) m = exec second (exec first m) := List.foldl_append ..

section
variable {ι : Type} [DecidableEq ι]

/-- All threads run to their end, in some order. -/
def Launch (program : ι → List (Assign Val)) (before after : Memory Val) : Prop :=
  ∃ s, Run act ⟨before, program⟩ s ∧ (∀ i, s.locals i = []) ∧ s.shared = after

/-- The same for threads whose programs may have no value: all of them have one. -/
def Runs (program : ι → Option (List (Assign Val))) (before after : Memory Val) : Prop :=
  ∃ todo, (∀ i, program i = some (todo i)) ∧ Launch todo before after

theorem Runs.launch {program : ι → Option (List (Assign Val))} {todo : ι → List (Assign Val)}
    {before after : Memory Val} (runs : Runs program before after)
    (known : ∀ i, program i = some (todo i)) : Launch todo before after := by
  obtain ⟨others, same, launch⟩ := runs
  have equal : others = todo := by
    funext i
    exact Option.some.inj ((same i).symm.trans (known i))
  rwa [equal] at launch

/-- The same for threads that are started and joined by a main thread. -/
def Dispatch {n : Nat} (program : Fin n → List (Assign Val)) (before after : Memory Val) : Prop :=
  ∃ f, ForkRun act (· = []) (Forked.start before program) f ∧ f.joined = n ∧
    f.state.shared = after

theorem Dispatch.launch {n : Nat} {program : Fin n → List (Assign Val)} {before after : Memory Val}
    (dispatch : Dispatch program before after) : Launch program before after := by
  obtain ⟨f, run, joined, rfl⟩ := dispatch
  refine ⟨f.state, run.run, ?_, rfl⟩
  intro i
  apply run.joined_finished rfl _ i (by rw [joined]; exact i.isLt)
  rintro _ _ _ _ _ rfl acted
  cases acted

theorem exec_run (locals : ι → List (Assign Val)) (i : ι) (m : Memory Val)
    (program : List (Assign Val)) :
    Run act (solo locals i m program) (solo locals i (exec program m) []) := by
  induction program generalizing m with
  | nil => exact .refl
  | cons a rest ih => exact .head (Step.solo locals i rfl) (ih _)

theorem exec_launch (program : List (Assign Val)) (m : Memory Val) :
    Launch (fun _ : Unit => program) m (exec program m) := by
  have run := exec_run (fun _ : Unit => program) () m program
  rw [solo_self _ () m] at run
  exact ⟨_, run, fun _ => by simp [solo], rfl⟩

theorem exists_launch [Fintype ι] (program : ι → List (Assign Val)) (before : Memory Val) :
    ∃ after, Launch program before after := by
  obtain ⟨after, -, run⟩ := @Run.each ι (Memory Val) (List (Assign Val)) _ act program
    (fun _ => []) (fun _ _ => True) Finset.univ
    (by
      intro i _ _ m _ _ locals here
      have run := exec_run locals i m (program i)
      rw [← here, solo_self] at run
      exact ⟨_, trivial, run⟩)
    before trivial
  exact ⟨after, _, by simpa using run, fun _ => rfl, rfl⟩

theorem exists_dispatch {n : Nat} (program : Fin n → List (Assign Val)) (before : Memory Val) :
    ∃ after, Dispatch program before after := by
  obtain ⟨_, s, run, done, _⟩ := exists_launch program before
  obtain ⟨f, forked, joined, _⟩ := @exists_joined _ _ n act (· = []) _ _ s run done
  exact ⟨_, f, forked, joined, rfl⟩

/-- What the threads run between two barriers, one part after the other. -/
def Phases : List (ι → List (Assign Val)) → Memory Val → Memory Val → Prop
  | [], before, after => after = before
  | program :: rest, before, after =>
      ∃ middle, Launch program before middle ∧ Phases rest middle after

theorem exists_phases [Fintype ι] (programs : List (ι → List (Assign Val))) (before : Memory Val) :
    ∃ after, Phases programs before after := by
  induction programs generalizing before with
  | nil => exact ⟨before, rfl⟩
  | cons program rest ih =>
      obtain ⟨middle, launch⟩ := exists_launch program before
      obtain ⟨after, later⟩ := ih middle
      exact ⟨after, middle, launch, later⟩

end

/-! The memory that every order ends with. -/

section
variable {ι : Type} {program : ι → List (Assign Val)} {start target : Memory Val}

def Assigned (program : ι → List (Assign Val)) (l : Loc) : Prop := ∃ i, ∃ a ∈ program i, a.loc = l

omit [DecidableEq Loc]

/-- What is assigned is the value in the target, read from the cells that are not assigned. -/
structure Settles (program : ι → List (Assign Val)) (start target : Memory Val) : Prop where
  value : ∀ i, ∀ a ∈ program i, ∀ m : Memory Val,
    (∀ l, ¬Assigned program l → m l = start l) →
    a.value m = some (target a.loc) ∨ a.value m = none ∧ target a.loc = start a.loc
  rest : ∀ l, ¬Assigned program l → target l = start l

structure Tracks (program : ι → List (Assign Val)) (start target : Memory Val)
    (s : State ι (Memory Val) (List (Assign Val))) : Prop where
  sub : ∀ i, ∀ a ∈ s.locals i, a ∈ program i
  old : ∀ l, ¬Assigned program l → s.shared l = start l
  either : ∀ l, s.shared l = start l ∨ s.shared l = target l
  pending : ∀ i, ∀ a ∈ program i, a ∈ s.locals i ∨ s.shared a.loc = target a.loc

variable [DecidableEq Loc]

theorem Assign.run_cases {a : Assign Val} {m : Memory Val}
    (value : a.value m = some (target a.loc) ∨ a.value m = none ∧ m a.loc = target a.loc) :
    a.run m a.loc = target a.loc ∧ ∀ l, l ≠ a.loc → a.run m l = m l := by
  rcases value with assigned | ⟨skipped, same⟩
  · simp only [Assign.run, assigned, Function.update_self, true_and]
    intro l other
    rw [Function.update_of_ne other]
  · simp only [Assign.run, skipped]
    exact ⟨same, fun _ _ => trivial⟩

variable [DecidableEq ι]

theorem Tracks.step {s t : State ι (Memory Val) (List (Assign Val))}
    (settles : Settles program start target) (tracks : Tracks program start target s)
    (move : Step act s t) : Tracks program start target t := by
  obtain ⟨sub, old, either, pending⟩ := tracks
  cases move with
  | turn i acted =>
      cases todo : s.locals i with
      | nil =>
          rw [todo] at acted
          cases acted
      | cons a later =>
          rw [todo] at acted
          cases acted
          have member : a ∈ program i := sub i a (by rw [todo]; exact List.mem_cons_self)
          have value : a.value s.shared = some (target a.loc) ∨
              a.value s.shared = none ∧ s.shared a.loc = target a.loc := by
            rcases settles.value i a member s.shared old with assigned | ⟨skipped, same⟩
            · exact Or.inl assigned
            · refine Or.inr ⟨skipped, ?_⟩
              rcases either a.loc with unchanged | done
              · rw [unchanged, same]
              · exact done
          obtain ⟨own, others⟩ := Assign.run_cases value
          have moved (l : Loc) : a.run s.shared l = s.shared l ∨ a.run s.shared l = target l := by
            by_cases same : l = a.loc
            · subst same
              exact Or.inr own
            · exact Or.inl (others l same)
          refine ⟨?_, ?_, ?_, ?_⟩
          · intro j b
            by_cases same : j = i
            · subst same
              simp only [Function.update_self]
              intro left
              exact sub j b (by rw [todo]; exact List.mem_cons_of_mem a left)
            · simp only [Function.update_of_ne same]
              exact sub j b
          · intro l untouched
            have other : l ≠ a.loc := by
              rintro rfl
              exact untouched ⟨i, a, member, rfl⟩
            exact (others l other).trans (old l untouched)
          · intro l
            rcases moved l with same | done
            · simp only [same]
              exact either l
            · exact Or.inr done
          · intro j b assigned
            rcases pending j b assigned with waiting | done
            · by_cases same : j = i
              · subst same
                rw [todo] at waiting
                simp only [Function.update_self]
                rcases List.mem_cons.mp waiting with rfl | left
                · exact Or.inr own
                · exact Or.inl left
              · simp only [Function.update_of_ne same]
                exact Or.inl waiting
            · refine Or.inr ?_
              rcases moved b.loc with same | done'
              · simp only [same, done]
              · exact done'

theorem Settles.launch {after : Memory Val} (settles : Settles program start target)
    (launch : Launch program start after) : after = target := by
  obtain ⟨s, run, done, rfl⟩ := launch
  have tracks : Tracks program start target s :=
    run.invariant ⟨fun _ _ member => member, fun _ _ => rfl, fun _ => Or.inl rfl,
      fun _ _ member => Or.inl member⟩ fun _ _ move held => held.step settles move
  funext l
  by_cases assigned : Assigned program l
  · obtain ⟨i, a, member, rfl⟩ := assigned
    rcases tracks.pending i a member with waiting | settled
    · rw [done] at waiting
      cases waiting
    · exact settled
  · rw [tracks.old l assigned, settles.rest l assigned]

end

theorem Settles.exec {program : List (Assign Val)} {start target : Memory Val}
    (settles : Settles (fun _ : Unit => program) start target) :
    exec program start = target :=
  settles.launch (exec_launch program start)

theorem Launch.values {ι : Type} [DecidableEq ι] {program : ι → List (Assign Val)}
    {start after : Memory Val} (launch : Launch program start after) (value : Memory Val)
    (only : ∀ i, ∀ a ∈ program i, ∀ m, a.value m = some (value a.loc)) :
    (∀ l, Assigned program l → after l = value l) ∧
      ∀ l, ¬Assigned program l → after l = start l := by
  classical
  have settles : Settles program start fun l => if Assigned program l then value l else start l := by
    refine ⟨?_, fun l free => if_neg free⟩
    intro i a member m _
    refine Or.inl ?_
    rw [only i a member m, if_pos ⟨i, a, member, rfl⟩]
  rw [settles.launch launch]
  exact ⟨fun l assigned => if_pos assigned, fun l free => if_neg free⟩

/-! Threads that keep to cells of their own. -/

section
variable {ι : Type} {program : ι → List (Assign Val)} {owns : ι → Loc → Prop}
  {start after : Memory Val}

/-- A thread writes its own cells, and reads these and cells that belong to no thread. -/
structure Owned (program : ι → List (Assign Val)) (owns : ι → Loc → Prop) : Prop where
  apart : ∀ i j l, owns i l → owns j l → i = j
  writes : ∀ i, ∀ a ∈ program i, owns i a.loc
  reads : ∀ i, ∀ a ∈ program i, ∀ m m' : Memory Val,
    (∀ l, owns i l ∨ (∀ j, ¬owns j l) → m l = m' l) → a.value m = a.value m'

theorem Assign.run_other (a : Assign Val) (m : Memory Val) {l : Loc} (other : l ≠ a.loc) :
    a.run m l = m l := by
  cases found : a.value m with
  | some v => simp only [Assign.run, found, Function.update_of_ne other]
  | none => simp only [Assign.run, found]

theorem Assign.run_congr {a : Assign Val} {m m' : Memory Val} (value : a.value m = a.value m')
    {l : Loc} (same : m l = m' l) : a.run m l = a.run m' l := by
  by_cases here : l = a.loc
  · subst here
    cases found : a.value m' with
    | some v => simp only [Assign.run, value, found, Function.update_self]
    | none => simpa only [Assign.run, value, found] using same
  · rw [Assign.run_other a m here, Assign.run_other a m' here, same]

theorem exec_other {todo : List (Assign Val)} {l : Loc} (other : ∀ a ∈ todo, a.loc ≠ l)
    (m : Memory Val) : exec todo m l = m l := by
  induction todo generalizing m with
  | nil => rfl
  | cons a rest ih =>
      obtain ⟨first, later⟩ := List.forall_mem_cons.mp other
      exact (ih later (a.run m)).trans (a.run_other m first.symm)

/-- Each thread has come as far as if it were alone. -/
structure Alone (program : ι → List (Assign Val)) (owns : ι → Loc → Prop) (start : Memory Val)
    (s : State ι (Memory Val) (List (Assign Val))) : Prop where
  free : ∀ l, (∀ i, ¬owns i l) → s.shared l = start l
  own : ∀ i, ∃ done, program i = done ++ s.locals i ∧
    ∀ l, owns i l → s.shared l = exec done start l

variable [DecidableEq ι]

theorem Alone.step {s t : State ι (Memory Val) (List (Assign Val))} (owned : Owned program owns)
    (alone : Alone program owns start s) (move : Step act s t) : Alone program owns start t := by
  obtain ⟨free, own⟩ := alone
  cases move with
  | turn i acted =>
      obtain ⟨done, split, mine⟩ := own i
      cases todo : s.locals i with
      | nil =>
          rw [todo] at acted
          cases acted
      | cons a later =>
          rw [todo] at acted split
          cases acted
          have member : a ∈ program i := by simp [split]
          have belongs := owned.writes i a member
          have untouched {l : Loc} (unowned : ∀ j, ¬owns j l) : exec done start l = start l := by
            apply exec_other
            rintro b before rfl
            exact unowned i (owned.writes i b (by rw [split]; exact List.mem_append_left _ before))
          have value : a.value s.shared = a.value (exec done start) := by
            apply owned.reads i a member
            rintro l (ours | unowned)
            · exact mine l ours
            · rw [free l unowned, untouched unowned]
          refine ⟨?_, ?_⟩
          · intro l unowned
            have other : l ≠ a.loc := by
              rintro rfl
              exact unowned i belongs
            exact (a.run_other _ other).trans (free l unowned)
          · intro j
            by_cases same : j = i
            · subst same
              refine ⟨done ++ [a], by simp [split], ?_⟩
              intro l ours
              rw [exec_append]
              exact Assign.run_congr value (mine l ours)
            · obtain ⟨before, parts, theirs⟩ := own j
              refine ⟨before, by simpa [Function.update_of_ne same] using parts, ?_⟩
              intro l belongsThere
              have other : l ≠ a.loc := by
                rintro rfl
                exact same (owned.apart j i _ belongsThere belongs)
              exact (a.run_other _ other).trans (theirs l belongsThere)

/-- Every order ends with what each thread makes of its cells when it runs alone. -/
theorem Owned.launch (owned : Owned program owns) (launch : Launch program start after) :
    (∀ i l, owns i l → after l = exec (program i) start l) ∧
      ∀ l, (∀ i, ¬owns i l) → after l = start l := by
  obtain ⟨s, run, done, rfl⟩ := launch
  have alone : Alone program owns start s :=
    run.invariant ⟨fun _ _ => rfl, fun _ => ⟨[], rfl, fun _ _ => rfl⟩⟩
      fun _ _ move held => held.step owned move
  refine ⟨?_, alone.free⟩
  intro i l belongs
  obtain ⟨before, split, mine⟩ := alone.own i
  rw [done, List.append_nil] at split
  rw [mine l belongs, split]

theorem Launch.own {loc : ι → Loc} {value : (i : ι) → Val (loc i)}
    (launch : Launch (fun i => [assign (loc i) fun _ => value i]) start after)
    (apart : ∀ i j, loc i = loc j → i = j) (i : ι) : after (loc i) = value i := by
  have owned : Owned (fun i => [assign (loc i) fun _ => value i]) fun i l => l = loc i := by
    refine ⟨?_, ?_, ?_⟩
    · rintro i j l rfl same
      exact apart i j same
    · intro i a member
      rw [List.mem_singleton.mp member]
      rfl
    · intro i a member m m' _
      rw [List.mem_singleton.mp member]
      rfl
  rw [(owned.launch launch).1 i (loc i) rfl]
  exact Function.update_self ..

end

end Stores
