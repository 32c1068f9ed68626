import Mathlib.Algebra.BigOperators.Group.Finset.Basic
import Mathlib.Algebra.BigOperators.Group.Finset.Piecewise
import Mathlib.Algebra.Order.BigOperators.Group.Finset
import Mathlib.Data.Multiset.AddSub
import Mathlib.Data.UInt
import Mathlib.Logic.Relation

/-!
Threads that share one memory and take turns in any order. The rules below turn a fact
about one action of one thread into a fact about every run.
-/

namespace Interleaving

structure State (ι Shared Local : Type) where
  shared : Shared
  locals : ι → Local

/-- One atomic action of a thread: shared and local memory before and after. -/
abbrev Action (ι Shared Local : Type) := ι → Shared → Local → Shared → Local → Prop

variable {ι Shared Local : Type} [DecidableEq ι]

inductive Step (act : Action ι Shared Local) : State ι Shared Local → State ι Shared Local → Prop
  | turn {s : State ι Shared Local} (i : ι) {shared : Shared} {thread : Local} :
      act i s.shared (s.locals i) shared thread →
        Step act s ⟨shared, Function.update s.locals i thread⟩

abbrev Run (act : Action ι Shared Local) := Relation.ReflTransGen (Step act)

variable {act : Action ι Shared Local}

theorem Run.invariant {Inv : State ι Shared Local → Prop} {s t : State ι Shared Local}
    (run : Run act s t) (start : Inv s) (step : ∀ s t, Step act s t → Inv s → Inv t) : Inv t := by
  induction run with
  | refl => exact start
  | tail _ move ih => exact step _ _ move ih

/-- An assertion about each thread that its own actions keep and the others do not disturb. -/
structure Stable (act : Action ι Shared Local) (assertion : ι → Shared → Local → Prop) : Prop where
  own : ∀ i g l g' l', act i g l g' l' → assertion i g l → assertion i g' l'
  others : ∀ i j g l g' l' m, i ≠ j → act i g l g' l' → assertion i g l →
    assertion j g m → assertion j g' m

theorem Stable.step {assertion : ι → Shared → Local → Prop} (stable : Stable act assertion)
    {s t : State ι Shared Local} (move : Step act s t)
    (before : ∀ i, assertion i s.shared (s.locals i)) :
    ∀ i, assertion i t.shared (t.locals i) := by
  cases move with
  | turn i acted =>
      intro j
      by_cases same : j = i
      · subst j
        simp only [Function.update_self]
        exact stable.own _ _ _ _ _ acted (before i)
      · simp only [Function.update_of_ne same]
        exact stable.others i j _ _ _ _ _ (Ne.symm same) acted (before i) (before j)

theorem Stable.run {assertion : ι → Shared → Local → Prop} (stable : Stable act assertion)
    {s t : State ι Shared Local} (run : Run act s t)
    (start : ∀ i, assertion i s.shared (s.locals i)) :
    ∀ i, assertion i t.shared (t.locals i) :=
  run.invariant start fun _ _ move before => stable.step move before

/-- When every action adds the same amount to a shared total and to the share of the thread
that takes it, the total stays the sum of the shares. -/
theorem Stable.sum {M : Type} [AddCommMonoid M] [Fintype ι]
    {assertion : ι → Shared → Local → Prop} (stable : Stable act assertion)
    (total : Shared → M) (share : ι → Local → M)
    (adds : ∀ i g l g' l', act i g l g' l' → assertion i g l →
      ∃ amount, total g' = total g + amount ∧ share i l' = share i l + amount)
    {s t : State ι Shared Local} (run : Run act s t)
    (start : ∀ i, assertion i s.shared (s.locals i))
    (balanced : total s.shared = ∑ i, share i (s.locals i)) :
    total t.shared = ∑ i, share i (t.locals i) := by
  induction run with
  | refl => exact balanced
  | tail path move ih =>
      have held := stable.run path start
      cases move with
      | turn i acted =>
          obtain ⟨amount, grows, shareGrows⟩ := adds _ _ _ _ _ acted (held i)
          rename_i middle _ thread
          have rest : ∑ j ∈ Finset.univ \ {i}, share j (Function.update middle.locals i thread j) =
              ∑ j ∈ Finset.univ \ {i}, share j (middle.locals j) := by
            apply Finset.sum_congr rfl
            intro j member
            rw [Function.update_of_ne (by simpa using member)]
          have split (f : ι → M) : ∑ j, f j = f i + ∑ j ∈ Finset.univ \ {i}, f j := by
            rw [← Finset.erase_eq, Finset.add_sum_erase _ _ (Finset.mem_univ i)]
          rw [split] at ih ⊢
          simp only [Function.update_self]
          rw [grows, ih, rest, shareGrows]
          exact add_right_comm _ _ _

/-- Threads that can always go on until they are finished, each time with less left to do. -/
theorem exists_finished [Fintype ι] {Inv finished : State ι Shared Local → Prop}
    (rank : ι → Shared → Local → Nat)
    (go : ∀ s, Inv s → finished s ∨ ∃ t, Step act s t ∧ Inv t ∧
      ∑ i, rank i t.shared (t.locals i) < ∑ i, rank i s.shared (s.locals i))
    {s : State ι Shared Local} (held : Inv s) : ∃ t, Run act s t ∧ finished t ∧ Inv t := by
  induction left : ∑ i, rank i s.shared (s.locals i) using Nat.strong_induction_on generalizing s with
  | _ amount ih =>
      rcases go s held with done | ⟨next, move, kept, less⟩
      · exact ⟨s, .refl, done, held⟩
      · obtain ⟨t, run, done, final⟩ := ih _ (left ▸ less) kept rfl
        exact ⟨t, .head move run, done, final⟩

theorem sum_rank_lt [Fintype ι] (rank : ι → Shared → Local → Nat) {s : State ι Shared Local}
    {i : ι} {shared : Shared} {thread : Local}
    (own : rank i shared thread < rank i s.shared (s.locals i))
    (others : ∀ j, j ≠ i → rank j shared (s.locals j) = rank j s.shared (s.locals j)) :
    ∑ j, rank j shared (Function.update s.locals i thread j) <
      ∑ j, rank j s.shared (s.locals j) := by
  apply Finset.sum_lt_sum
  · intro j _
    by_cases same : j = i
    · subst same
      rw [Function.update_self]
      exact Nat.le_of_lt own
    · rw [Function.update_of_ne same, others j same]
  · exact ⟨i, Finset.mem_univ i, by rw [Function.update_self]; exact own⟩

theorem sum_update [Fintype ι] (share : ι → Local → Nat) (locals : ι → Local) (i : ι)
    (thread : Local) :
    ∑ j, share j (Function.update locals i thread j) + share i (locals i) =
      ∑ j, share j (locals j) + share i thread := by
  have others : ∑ j ∈ Finset.univ.erase i, share j (Function.update locals i thread j) =
      ∑ j ∈ Finset.univ.erase i, share j (locals j) := by
    apply Finset.sum_congr rfl
    intro j member
    rw [Function.update_of_ne (Finset.ne_of_mem_erase member)]
  rw [← Finset.add_sum_erase _ _ (Finset.mem_univ i), Function.update_self, others,
    ← Finset.add_sum_erase _ (fun j => share j (locals j)) (Finset.mem_univ i)]
  omega

theorem sum_ofNat {κ : Type} (set : Finset κ) (f : κ → Nat) :
    ∑ i ∈ set, UInt64.ofNat (f i) = UInt64.ofNat (∑ i ∈ set, f i) := by
  let cast : Nat →+ UInt64 := ⟨⟨UInt64.ofNat, rfl⟩, UInt64.ofNat_add⟩
  exact (map_sum cast f set).symm

theorem sum_coe {α κ : Type} (list : List κ) (f : κ → List α) :
    (list.map fun x => (f x : Multiset α)).sum = (list.flatMap f : List α) := by
  induction list with
  | nil => rfl
  | cons first rest ih => rw [List.map_cons, List.sum_cons, ih, List.flatMap_cons, Multiset.coe_add]

/-- A shared 64-bit counter, against what each thread has added to it. -/
theorem Stable.counter [Fintype ι] {assertion : ι → Shared → Local → Prop}
    (stable : Stable act assertion) (counter : Shared → UInt64) (share : ι → Local → Nat)
    (adds : ∀ i g l g' l', act i g l g' l' → assertion i g l →
      ∃ amount, counter g' = counter g + UInt64.ofNat amount ∧ share i l' = share i l + amount)
    {s t : State ι Shared Local} (run : Run act s t)
    (start : ∀ i, assertion i s.shared (s.locals i))
    (balanced : counter s.shared = UInt64.ofNat (∑ i, share i (s.locals i))) :
    counter t.shared = UInt64.ofNat (∑ i, share i (t.locals i)) := by
  rw [← sum_ofNat] at balanced ⊢
  apply stable.sum counter (fun i l => UInt64.ofNat (share i l)) _ run start balanced
  intro i g l g' l' acted held
  obtain ⟨amount, grows, shareGrows⟩ := adds i g l g' l' acted held
  exact ⟨UInt64.ofNat amount, grows, by rw [shareGrows, UInt64.ofNat_add]⟩

/-- The state in which one thread has moved on and the others have not. -/
def solo (locals : ι → Local) (i : ι) (shared : Shared) (thread : Local) : State ι Shared Local :=
  ⟨shared, Function.update locals i thread⟩

theorem solo_self (locals : ι → Local) (i : ι) (shared : Shared) :
    solo locals i shared (locals i) = ⟨shared, locals⟩ := by
  rw [solo, Function.update_eq_self]

theorem Step.solo (locals : ι → Local) (i : ι) {g g' : Shared} {l l' : Local}
    (acted : act i g l g' l') : Step act (solo locals i g l) (solo locals i g' l') := by
  have turn : Step act (Interleaving.solo locals i g l)
      ⟨g', Function.update (Interleaving.solo locals i g l).locals i l'⟩ :=
    .turn i (by simpa only [Interleaving.solo, Function.update_self] using acted)
  rwa [Interleaving.solo, Function.update_idem] at turn

/-- Threads that act one after the other, with a relation between the memory and the set of
those that have acted. -/
theorem Run.each {source target : ι → Local} {memory : Finset ι → Shared → Prop} (set : Finset ι)
    (one : ∀ i ∈ set, ∀ served g, i ∉ served → memory served g → ∀ locals : ι → Local,
      locals i = source i → ∃ g', memory (insert i served) g' ∧
        Run act ⟨g, locals⟩ ⟨g', Function.update locals i (target i)⟩)
    {g : Shared} (start : memory ∅ g) : ∃ g', memory set g' ∧
      Run act ⟨g, source⟩ ⟨g', fun i => if i ∈ set then target i else source i⟩ := by
  have partway (served : Finset ι) (sub : served ⊆ set) : ∃ g', memory served g' ∧
      Run act ⟨g, source⟩ ⟨g', fun i => if i ∈ served then target i else source i⟩ := by
    induction served using Finset.induction with
    | empty => exact ⟨g, start, by simpa using Relation.ReflTransGen.refl⟩
    | insert i served fresh ih =>
        obtain ⟨member, rest⟩ := Finset.insert_subset_iff.mp sub
        obtain ⟨middle, held, run⟩ := ih rest
        obtain ⟨last, after, turn⟩ := one i member served middle fresh held
          (fun i => if i ∈ served then target i else source i) (by simp [fresh])
        refine ⟨last, after, run.trans ?_⟩
        convert turn using 2
        funext j
        by_cases same : j = i <;> simp [same]
  exact partway set subset_rfl

/-! Threads that run one after the other, each of them alone. -/

structure Solo (act : Action ι Shared Local) (finished : Local → Prop) (locals : ι → Local)
    (rest : Shared → Prop) (alone : ι → Shared → Local → Prop)
    (rank : ι → Shared → Local → Nat) : Prop where
  enter : ∀ i g, rest g → alone i g (locals i)
  move : ∀ i g l, alone i g l → (finished l ∧ rest g) ∨
    ∃ g' l', act i g l g' l' ∧ alone i g' l' ∧ rank i g' l' < rank i g l

section
variable {finished : Local → Prop} {locals : ι → Local} {rest : Shared → Prop}
  {alone : ι → Shared → Local → Prop} {rank : ι → Shared → Local → Nat}

theorem Solo.finish (solo : Solo act finished locals rest alone rank) (i : ι) (fuel : Nat)
    (s : State ι Shared Local) (held : alone i s.shared (s.locals i))
    (enough : rank i s.shared (s.locals i) < fuel) :
    ∃ shared thread, finished thread ∧ rest shared ∧
      Run act s ⟨shared, Function.update s.locals i thread⟩ := by
  induction fuel generalizing s with
  | zero => omega
  | succ fuel ih =>
      rcases solo.move i _ _ held with ⟨done, calm⟩ | ⟨shared, thread, acted, kept, lower⟩
      · refine ⟨s.shared, s.locals i, done, calm, ?_⟩
        rw [Function.update_eq_self]
      · obtain ⟨final, last, done, calm, run⟩ :=
          ih ⟨shared, Function.update s.locals i thread⟩ (by simpa using kept)
            (by simp only [Function.update_self]; omega)
        refine ⟨final, last, done, calm, ?_⟩
        rw [Function.update_idem] at run
        exact .head (.turn i acted) run

theorem Solo.exists_done [Fintype ι] (solo : Solo act finished locals rest alone rank)
    {shared : Shared} (calm : rest shared) :
    ∃ s, Run act ⟨shared, locals⟩ s ∧ ∀ i, finished (s.locals i) := by
  have serial (served : Finset ι) : ∃ s : State ι Shared Local, Run act ⟨shared, locals⟩ s ∧
      rest s.shared ∧ ∀ i, if i ∈ served then finished (s.locals i) else s.locals i = locals i := by
    induction served using Finset.induction with
    | empty => exact ⟨⟨shared, locals⟩, .refl, calm, fun _ => by simp⟩
    | insert i served fresh ih =>
        obtain ⟨s, run, quiet, held⟩ := ih
        have waiting : s.locals i = locals i := by simpa [fresh] using held i
        have starts : alone i s.shared (s.locals i) := by
          rw [waiting]
          exact solo.enter i _ quiet
        obtain ⟨after, thread, ended, quietAfter, more⟩ := solo.finish i _ s starts (Nat.lt_succ_self _)
        refine ⟨_, run.trans more, quietAfter, ?_⟩
        intro j
        by_cases same : j = i
        · simpa [same] using ended
        · simpa [same] using held j
  obtain ⟨s, run, _, held⟩ := serial Finset.univ
  exact ⟨s, run, fun i => by simpa using held i⟩

end

/-! A main thread that starts `n` threads in order and then waits for each of them. -/

structure Forked (n : Nat) (Shared Local : Type) where
  state : State (Fin n) Shared Local
  spawned : Nat
  joined : Nat

inductive ForkStep {n : Nat} (act : Action (Fin n) Shared Local) (finished : Local → Prop) :
    Forked n Shared Local → Forked n Shared Local → Prop
  | spawn {f : Forked n Shared Local} : f.spawned < n →
      ForkStep act finished f { f with spawned := f.spawned + 1 }
  | turn {f : Forked n Shared Local} {state : State (Fin n) Shared Local} (i : Fin n)
      {shared : Shared} {thread : Local} : i.val < f.spawned →
      act i f.state.shared (f.state.locals i) shared thread →
      state = ⟨shared, Function.update f.state.locals i thread⟩ →
      ForkStep act finished f { f with state := state }
  | join {f : Forked n Shared Local} (bound : f.joined < n) : f.spawned = n →
      finished (f.state.locals ⟨f.joined, bound⟩) →
      ForkStep act finished f { f with joined := f.joined + 1 }

abbrev ForkRun {n : Nat} (act : Action (Fin n) Shared Local) (finished : Local → Prop) :=
  Relation.ReflTransGen (ForkStep act finished)

def Forked.start {n : Nat} (shared : Shared) (locals : Fin n → Local) : Forked n Shared Local :=
  ⟨⟨shared, locals⟩, 0, 0⟩

section
variable {n : Nat} {forkAct : Action (Fin n) Shared Local} {finished : Local → Prop}

theorem ForkRun.run {f g : Forked n Shared Local} (run : ForkRun forkAct finished f g) :
    Run forkAct f.state g.state := by
  induction run with
  | refl => exact .refl
  | tail _ move ih =>
      cases move with
      | spawn _ => exact ih
      | turn i _ acted result =>
          subst result
          exact ih.tail (.turn i acted)
      | join _ _ _ => exact ih

theorem ForkRun.joined_finished {f g : Forked n Shared Local}
    (run : ForkRun forkAct finished f g) (none : f.joined = 0)
    (halted : ∀ i g l g' l', finished l → ¬forkAct i g l g' l') :
    ∀ i : Fin n, i.val < g.joined → finished (g.state.locals i) := by
  induction run with
  | refl =>
      intro i below
      omega
  | tail _ move ih =>
      cases move with
      | spawn _ => exact ih
      | turn i _ acted result =>
          subst result
          intro j below
          by_cases same : j = i
          · subst j
            exact (halted _ _ _ _ _ (ih i below) acted).elim
          · simp only [Function.update_of_ne same]
            exact ih j below
      | join bound _ done =>
          rename_i middle _ _
          intro j below
          by_cases earlier : j.val < middle.joined
          · exact ih j earlier
          · have last : j = ⟨middle.joined, bound⟩ := by
              apply Fin.ext
              simp only at below
              change j.val = middle.joined
              omega
            rw [last]
            exact done

theorem exists_spawned (shared : Shared) (locals : Fin n → Local) :
    ForkRun forkAct finished (Forked.start shared locals) ⟨⟨shared, locals⟩, n, 0⟩ := by
  have started (count : Nat) (bound : count ≤ n) :
      ForkRun forkAct finished (Forked.start shared locals) ⟨⟨shared, locals⟩, count, 0⟩ := by
    induction count with
    | zero => exact .refl
    | succ count ih => exact (ih (by omega)).tail (.spawn (show count < n by omega))
  exact started n (Nat.le_refl n)

theorem ForkRun.of_run {s t : State (Fin n) Shared Local} (run : Run forkAct s t) :
    ForkRun forkAct finished ⟨s, n, 0⟩ ⟨t, n, 0⟩ := by
  induction run with
  | refl => exact .refl
  | tail _ move ih =>
      cases move with
      | turn i acted => exact ih.tail (.turn i i.isLt acted rfl)

/-- After a run in which all threads finish, the main thread can join them. -/
theorem exists_joined {locals : Fin n → Local} {shared : Shared} {s : State (Fin n) Shared Local}
    (run : Run forkAct ⟨shared, locals⟩ s) (done : ∀ i, finished (s.locals i)) :
    ∃ f, ForkRun forkAct finished (Forked.start shared locals) f ∧ f.joined = n ∧ f.state = s := by
  have started : ForkRun forkAct finished (Forked.start shared locals) ⟨s, n, 0⟩ :=
    (exists_spawned shared locals).trans (ForkRun.of_run run)
  have joining (count : Nat) (bound : count ≤ n) :
      ForkRun forkAct finished (Forked.start shared locals) ⟨s, n, count⟩ := by
    induction count with
    | zero => exact started
    | succ count ih =>
        exact (ih (by omega)).tail (.join (show count < n by omega) rfl (done _))
  exact ⟨_, joining n (Nat.le_refl n), rfl, rfl⟩

/-- Running the threads one after the other lets the main thread join them all. -/
theorem Solo.exists_joined {locals : Fin n → Local} {rest : Shared → Prop}
    {alone : Fin n → Shared → Local → Prop} {rank : Fin n → Shared → Local → Nat}
    (solo : Solo forkAct finished locals rest alone rank) {shared : Shared} (calm : rest shared) :
    ∃ f, ForkRun forkAct finished (Forked.start shared locals) f ∧ f.joined = n := by
  obtain ⟨s, run, done⟩ := solo.exists_done calm
  obtain ⟨f, forked, joined, _⟩ := Interleaving.exists_joined run done
  exact ⟨f, forked, joined⟩

theorem ForkRun.le {locals : Fin n → Local} {shared : Shared} {f : Forked n Shared Local}
    (run : ForkRun forkAct finished (Forked.start shared locals) f) : f.spawned ≤ n ∧ f.joined ≤ n := by
  induction run with
  | refl => exact ⟨Nat.zero_le n, Nat.zero_le n⟩
  | tail _ move ih =>
      cases move with
      | spawn below => exact ⟨below, ih.2⟩
      | turn _ _ _ _ => exact ih
      | join below _ _ => exact ⟨ih.1, below⟩

/-- The main thread can join all threads from any point on, when they can finish from there. -/
theorem ForkRun.exists_joined {locals : Fin n → Local} {shared : Shared} {f : Forked n Shared Local}
    {s : State (Fin n) Shared Local} (run : ForkRun forkAct finished (Forked.start shared locals) f)
    (more : Run forkAct f.state s) (done : ∀ i, finished (s.locals i)) :
    ∃ g, ForkRun forkAct finished f g ∧ g.joined = n ∧ g.state = s := by
  obtain ⟨spawned, joined⟩ := run.le
  have spawning (count : Nat) (bound : f.spawned + count ≤ n) :
      ForkRun forkAct finished f ⟨f.state, f.spawned + count, f.joined⟩ := by
    induction count with
    | zero => exact .refl
    | succ count ih =>
        exact (ih (by omega)).tail (.spawn (show f.spawned + count < n by omega))
  have all := spawning (n - f.spawned) (by omega)
  rw [Nat.add_sub_cancel' spawned] at all
  have turning : ForkRun forkAct finished f ⟨s, n, f.joined⟩ := by
    clear done
    induction more with
    | refl => exact all
    | tail _ move ih =>
        cases move with
        | turn i acted => exact ih.tail (.turn i i.isLt acted rfl)
  have joining (count : Nat) (bound : f.joined + count ≤ n) :
      ForkRun forkAct finished f ⟨s, n, f.joined + count⟩ := by
    induction count with
    | zero => exact turning
    | succ count ih =>
        exact (ih (by omega)).tail (.join (show f.joined + count < n by omega) rfl (done _))
  exact ⟨_, joining (n - f.joined) (by omega), Nat.add_sub_cancel' joined, rfl⟩

end

end Interleaving
