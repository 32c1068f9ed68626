import CudaOpenMp.Library.Monitor

/-!
The start of the horse race of `race_mutex_cond.c`. A horse that reaches its wait after the only
broadcast is left behind, unless `main` has destroyed the mutex by then.
-/

namespace CudaOpenMp.RaceMutexCond

open Interleaving Monitors

def target : Nat := 10000

inductive Thread (n : Nat) where
  | main
  | horse (i : Fin n)
deriving DecidableEq

/-- The place in `GoRun` or in `main`, named after what is done next. `create` and `join` carry the
loop variable of `main`, and `race` the variable `move`. -/
inductive Stage where
  | lock
  | wait
  | waiting
  | unlock
  | race (move : Nat)
  | returned
  | create (i : Nat)
  | sleep
  | lockMain
  | broadcast
  | unlockMain
  | condDestroy
  | mutexDestroy
  | join (i : Nat)
  | ended
deriving DecidableEq

/-- `created` counts the calls of `pthread_create`, and `users` is the count that the mutex keeps
of the threads between its `lock` and its `unlock`. -/
structure Shared (n : Nat) where
  monitor : Monitor (Thread n) Unit
  users : Nat
  created : Nat
  returned : Fin n → Bool
  condDestroyed : Bool
  mutexDestroyed : Bool

def Shared.lock {n : Nat} (g : Shared n) (i : Thread n) : Shared n :=
  { g with monitor := g.monitor.lock i, users := g.users + 1 }

def Shared.unlock {n : Nat} (g : Shared n) : Shared n :=
  { g with monitor := g.monitor.unlock, users := g.users - 1 }

/-- With a destroyed mutex the calls on it return `EINVAL` at once, which `GoRun` does not act
on. A mutex in use is not destroyed (`EBUSY`), and `pthread_cond_destroy` waits for the
sleepers. -/
inductive Act (n : Nat) : Action (Thread n) (Shared n) Stage
  | lock {i : Fin n} {g : Shared n} : i.val < g.created → g.mutexDestroyed = false →
      g.monitor.owner = none → Act n (.horse i) g .lock (g.lock (.horse i)) .wait
  | lockInvalid {i : Fin n} {g : Shared n} : i.val < g.created → g.mutexDestroyed = true →
      Act n (.horse i) g .lock g .wait
  | wait {i : Fin n} {g : Shared n} : g.mutexDestroyed = false →
      Act n (.horse i) g .wait { g with monitor := g.monitor.wait (.horse i) () } .waiting
  | waitInvalid {i : Fin n} {g : Shared n} : g.mutexDestroyed = true →
      Act n (.horse i) g .wait g .unlock
  | spurious {i : Fin n} {g : Shared n} :
      Act n (.horse i) g .waiting { g with monitor := g.monitor.wake (.horse i) } .waiting
  | resume {i : Fin n} {g : Shared n} : g.monitor.asleep (.horse i) = none →
      g.mutexDestroyed = false → g.monitor.owner = none →
      Act n (.horse i) g .waiting { g with monitor := g.monitor.lock (.horse i) } .unlock
  | resumeInvalid {i : Fin n} {g : Shared n} : g.monitor.asleep (.horse i) = none →
      g.mutexDestroyed = true → Act n (.horse i) g .waiting g .unlock
  | unlock {i : Fin n} {g : Shared n} : g.mutexDestroyed = false →
      Act n (.horse i) g .unlock g.unlock (.race 0)
  | unlockInvalid {i : Fin n} {g : Shared n} : g.mutexDestroyed = true →
      Act n (.horse i) g .unlock g (.race 0)
  | move {i : Fin n} {g : Shared n} {move : Nat} : move < target →
      Act n (.horse i) g (.race move) g (.race (move + 1))
  | finish {i : Fin n} {g : Shared n} {move : Nat} : target ≤ move →
      Act n (.horse i) g (.race move)
        { g with returned := Function.update g.returned i true } .returned
  | create {g : Shared n} {i : Nat} : i < n →
      Act n .main g (.create i) { g with created := i + 1 } (.create (i + 1))
  | created {g : Shared n} {i : Nat} : n ≤ i → Act n .main g (.create i) g .sleep
  | sleep {g : Shared n} : Act n .main g .sleep g .lockMain
  | lockMain {g : Shared n} : g.monitor.owner = none →
      Act n .main g .lockMain (g.lock .main) .broadcast
  | broadcast {g : Shared n} :
      Act n .main g .broadcast { g with monitor := g.monitor.notifyAll () } .unlockMain
  | unlockMain {g : Shared n} : Act n .main g .unlockMain g.unlock .condDestroy
  | condDestroy {g : Shared n} : (∀ i, g.monitor.asleep i = none) →
      Act n .main g .condDestroy { g with condDestroyed := true } .mutexDestroy
  | mutexDestroy {g : Shared n} : g.users = 0 →
      Act n .main g .mutexDestroy { g with mutexDestroyed := true } (.join 0)
  | mutexBusy {g : Shared n} : g.users ≠ 0 → Act n .main g .mutexDestroy g (.join 0)
  | join {g : Shared n} {i : Nat} (bound : i < n) : g.returned ⟨i, bound⟩ = true →
      Act n .main g (.join i) g (.join (i + 1))
  | joined {g : Shared n} {i : Nat} : n ≤ i → Act n .main g (.join i) g .ended

def start (n : Nat) : State (Thread n) (Shared n) Stage where
  shared := ⟨Monitor.free, 0, 0, fun _ => false, false, false⟩
  locals
    | .main => .create 0
    | .horse _ => .lock

def Stage.begun : Stage → Bool
  | .waiting | .unlock | .race _ | .returned => true
  | .lock | .wait | .create _ | .sleep | .lockMain | .broadcast | .unlockMain | .condDestroy
  | .mutexDestroy | .join _ | .ended => false

/-- Nothing in `main` after this point wakes a horse. -/
def Stage.afterBroadcast : Stage → Bool
  | .unlockMain | .condDestroy | .mutexDestroy | .join _ | .ended => true
  | .lock | .wait | .waiting | .unlock | .race _ | .returned | .create _ | .sleep | .lockMain
  | .broadcast => false

/-- After the broadcast no horse sleeps, and none is still to wait. -/
def Started {n : Nat} (s : State (Thread n) (Shared n) Stage) : Prop :=
  (s.locals .main).afterBroadcast = true → ∀ i : Fin n,
    s.shared.monitor.asleep (.horse i) = none ∧
      ((s.locals (.horse i)).begun = true ∨ s.shared.mutexDestroyed = true)

/-- If `main` broadcasts in this step, every horse has begun to wait. -/
def Timely {n : Nat} (s t : State (Thread n) (Shared n) Stage) : Prop :=
  (s.locals .main).afterBroadcast = false → (t.locals .main).afterBroadcast = true →
    ∀ i : Fin n, (s.locals (.horse i)).begun = true

abbrev TimelyRun (n : Nat) :=
  Relation.ReflTransGen fun s t : State (Thread n) (Shared n) Stage =>
    Step (Act n) s t ∧ Timely s t

section
variable {n : Nat} {g g' : Shared n} {l l' : Stage} {s t : State (Thread n) (Shared n) Stage}

theorem act_horse {i : Fin n} (act : Act n (.horse i) g l g' l')
    (settled : l.begun = true ∨ g.mutexDestroyed = true) :
    (l'.begun = true ∨ g'.mutexDestroyed = true) ∧
      ∀ j, g.monitor.asleep j = none → g'.monitor.asleep j = none := by
  cases act with
  | lock _ intact | wait intact =>
      rcases settled with begun | destroyed
      · cases begun
      · rw [intact] at destroyed
        cases destroyed
  | lockInvalid _ destroyed => exact ⟨Or.inr destroyed, fun _ none => none⟩
  | spurious =>
      refine ⟨Or.inl rfl, fun j none => ?_⟩
      by_cases same : j = .horse i
      · simp [Monitor.wake, same]
      · simp [Monitor.wake, same, none]
  | waitInvalid | resume | resumeInvalid | unlock | unlockInvalid | move | finish =>
      exact ⟨Or.inl rfl, fun _ none => none⟩

theorem act_destroyed {thread : Thread n} (act : Act n thread g l g' l')
    (destroyed : g.mutexDestroyed = true) : g'.mutexDestroyed = true := by
  cases act with
  | mutexDestroy => rfl
  | _ => exact destroyed

theorem act_main (act : Act n .main g l g' l') (after : l'.afterBroadcast = true) :
    l = .broadcast ∧ g'.monitor = g.monitor.notifyAll () ∨
      l.afterBroadcast = true ∧ g'.monitor.asleep = g.monitor.asleep := by
  cases act with
  | create | created | sleep | lockMain => cases after
  | broadcast => exact Or.inl ⟨rfl, rfl⟩
  | unlockMain | condDestroy | mutexDestroy | mutexBusy | join | joined => exact Or.inr ⟨rfl, rfl⟩

theorem notifyAll_awake (m : Monitor (Thread n) Unit) (j : Thread n) :
    (m.notifyAll ()).asleep j = none := by
  cases asleep : (m.notifyAll ()).asleep j with
  | none => rfl
  | some c => exact ((Monitor.notifyAll_asleep asleep).1 rfl).elim

theorem Started.step (started : Started s) (move : Step (Act n) s t) (timely : Timely s t) :
    Started t := by
  intro after
  cases move with
  | turn thread acted =>
      cases thread with
      | main =>
          simp only [Function.update_self] at after
          intro i
          rcases act_main acted after with ⟨here, broadcast⟩ | ⟨before, asleep⟩
          · refine ⟨?_, Or.inl ?_⟩
            · simp only [broadcast, notifyAll_awake]
            · have begun := timely (by rw [here]; rfl) (by simpa using after) i
              simpa using begun
          · obtain ⟨awake, settled⟩ := started before i
            refine ⟨by simpa only [asleep] using awake, ?_⟩
            exact settled.imp (fun begun => by simpa using begun) (act_destroyed acted)
      | horse j =>
          have before : (s.locals .main).afterBroadcast = true := by simpa using after
          have ⟨still, others⟩ := act_horse acted (started before j).2
          intro i
          refine ⟨others _ (started before i).1, ?_⟩
          by_cases same : i = j
          · subst i
            simpa using still
          · have apart : Thread.horse i ≠ .horse j := by simpa using same
            exact (started before i).2.imp (fun begun => by simpa [apart] using begun)
              (act_destroyed acted)

theorem Started.run (run : TimelyRun n (start n) s) : Started s := by
  induction run with
  | refl => exact nofun
  | tail _ step ih => exact ih.step step.1 step.2

theorem afterBroadcast_step (move : Step (Act n) s t)
    (after : (s.locals .main).afterBroadcast = true) :
    (t.locals .main).afterBroadcast = true := by
  cases move with
  | turn thread acted =>
      cases thread with
      | main =>
          generalize s.locals .main = here at after acted
          simp only [Function.update_self]
          cases acted with
          | create | created | sleep | lockMain | broadcast => cases after
          | unlockMain | condDestroy | mutexDestroy | mutexBusy | join | joined => rfl
      | horse j => simpa using after

theorem started_later (begun : ∀ i : Fin n, (s.locals (.horse i)).begun = true)
    (move : Step (Act n) s t) (before : (s.locals .main).afterBroadcast = false)
    (after : (t.locals .main).afterBroadcast = true) {u : State (Thread n) (Shared n) Stage}
    (run : Run (Act n) t u) : Started u := by
  have nothing : Started s := by
    intro already
    rw [before] at already
    cases already
  let Kept (v : State (Thread n) (Shared n) Stage) : Prop :=
    (v.locals .main).afterBroadcast = true ∧ Started v
  have called : Kept u := by
    refine Run.invariant run ⟨after, nothing.step move fun _ _ => begun⟩ ?_
    rintro v w next ⟨past, started⟩
    refine ⟨afterBroadcast_step next past, started.step next fun still => ?_⟩
    rw [past] at still
    cases still
  exact called.2

def Stage.holds : Stage → Bool
  | .wait | .unlock | .broadcast | .unlockMain => true
  | .lock | .waiting | .race _ | .returned | .create _ | .sleep | .lockMain | .condDestroy
  | .mutexDestroy | .join _ | .ended => false

def Stage.joining : Stage → Bool
  | .join _ | .ended => true
  | .lock | .wait | .waiting | .unlock | .race _ | .returned | .create _ | .sleep | .lockMain
  | .broadcast | .unlockMain | .condDestroy | .mutexDestroy => false

def Stage.count (n : Nat) : Stage → Nat
  | .create i => i
  | .lock | .wait | .waiting | .unlock | .race _ | .returned | .sleep | .lockMain | .broadcast
  | .unlockMain | .condDestroy | .mutexDestroy | .join _ | .ended => n

structure Knows (thread : Thread n) (g : Shared n) (l : Stage) : Prop where
  owner : g.mutexDestroyed = false → l.holds = true → g.monitor.owner = some thread
  intact : thread = .main → g.mutexDestroyed = true → l.joining = true
  created : thread = .main → g.created = l.count n ∧ l.count n ≤ n
  horse : thread ≠ .main → l = .lock ∨ l = .wait ∨ l.begun = true

theorem act_owner {thread : Thread n} (act : Act n thread g l g' l') (knows : Knows thread g l)
    (intact : g'.mutexDestroyed = false) (holds : l'.holds = true) :
    g'.monitor.owner = some thread := by
  cases act with
  | lock | resume | lockMain => rfl
  | lockInvalid _ destroyed | resumeInvalid _ destroyed =>
      rw [destroyed] at intact
      cases intact
  | waitInvalid destroyed =>
      rw [destroyed] at intact
      cases intact
  | broadcast => exact knows.owner intact rfl
  | _ => cases holds

theorem act_others {thread other : Thread n} (act : Act n thread g l g' l')
    (knows : Knows thread g l) (different : thread ≠ other)
    (owner : g.monitor.owner = some other) : g'.monitor.owner = some other := by
  have mine (same : g.monitor.owner = some thread) : g'.monitor.owner = some other := by
    rw [same] at owner
    exact absurd (Option.some.inj owner) different
  cases act with
  | lock _ _ free | resume _ _ free | lockMain free =>
      rw [free] at owner
      cases owner
  | wait intact | unlock intact => exact mine (knows.owner intact rfl)
  | unlockMain =>
      cases destroyed : g.mutexDestroyed with
      | false => exact mine (knows.owner destroyed rfl)
      | true => cases knows.intact rfl destroyed
  | _ => exact owner

theorem act_intact (act : Act n .main g l g' l') (knows : Knows .main g l)
    (destroyed : g'.mutexDestroyed = true) : l'.joining = true := by
  cases act with
  | mutexDestroy | mutexBusy | join | joined => rfl
  | create | created | sleep | lockMain | broadcast | unlockMain | condDestroy =>
      cases knows.intact rfl destroyed

theorem act_created (act : Act n .main g l g' l') (knows : Knows .main g l) :
    g'.created = l'.count n ∧ l'.count n ≤ n := by
  obtain ⟨count, few⟩ := knows.created rfl
  cases act with
  | create more => exact ⟨rfl, more⟩
  | created last =>
      have all : _ = n := Nat.le_antisymm few last
      exact ⟨count.trans all, Nat.le_refl n⟩
  | sleep | lockMain | broadcast | unlockMain | condDestroy | mutexDestroy | mutexBusy | join
  | joined => exact ⟨count, few⟩

theorem act_place {i : Fin n} (act : Act n (.horse i) g l g' l') :
    l' = .lock ∨ l' = .wait ∨ l'.begun = true := by
  cases act with
  | lock | lockInvalid => exact Or.inr (Or.inl rfl)
  | _ => exact Or.inr (Or.inr rfl)

theorem act_main_only {i : Fin n} (act : Act n (.horse i) g l g' l') :
    g'.created = g.created ∧ g'.mutexDestroyed = g.mutexDestroyed := by
  cases act <;> exact ⟨rfl, rfl⟩

theorem knows_stable : Stable (Act n) fun thread g l => Knows thread g l where
  own := by
    intro thread g l g' l' act knows
    cases thread with
    | main =>
        exact ⟨act_owner act knows, fun _ => act_intact act knows,
          fun _ => act_created act knows, fun other => absurd rfl other⟩
    | horse i => exact ⟨act_owner act knows, nofun, nofun, fun _ => act_place act⟩
  others := by
    intro thread other g l g' l' m different act knows rest
    have owner (intact : g'.mutexDestroyed = false) (holds : m.holds = true) :
        g'.monitor.owner = some other := by
      have before : g.mutexDestroyed = false := by
        cases destroyed : g.mutexDestroyed with
        | false => rfl
        | true =>
            rw [act_destroyed act destroyed] at intact
            cases intact
      exact act_others act knows different (rest.owner before holds)
    cases thread with
    | main => exact ⟨owner, fun same => absurd same.symm different,
        fun same => absurd same.symm different, rest.horse⟩
    | horse i =>
        obtain ⟨created, destroyed⟩ := act_main_only act
        refine ⟨owner, ?_, ?_, rest.horse⟩
        · rw [destroyed]
          exact rest.intact
        · rw [created]
          exact rest.created

theorem run_knows (run : Run (Act n) (start n) s) (thread : Thread n) :
    Knows thread s.shared (s.locals thread) := by
  refine knows_stable.run run ?_ thread
  rintro (_ | i)
  · exact ⟨nofun, nofun, fun _ => ⟨rfl, Nat.zero_le n⟩, fun other => absurd rfl other⟩
  · exact ⟨nofun, nofun, nofun, fun _ => Or.inl rfl⟩

theorem wait_alone (locals : Thread n → Stage) (i : Fin n) {g : Shared n}
    (created : i.val < g.created) (intact : g.mutexDestroyed = false)
    (free : g.monitor.owner = none) :
    Run (Act n) (solo locals (.horse i) g .lock) (solo locals (.horse i)
      { g.lock (.horse i) with monitor := (g.monitor.lock (.horse i)).wait (.horse i) () }
      .waiting) := by
  have lock := Step.solo locals (.horse i) (@Act.lock n i g created intact free)
  have wait := Step.solo locals (.horse i) (@Act.wait n i (g.lock (.horse i)) intact)
  exact .head lock (.single wait)

theorem act_broadcast (act : Act n .main g l g' l') (before : l.afterBroadcast = false)
    (after : l'.afterBroadcast = true) :
    l = .broadcast ∧ g' = { g with monitor := g.monitor.notifyAll () } ∧ l' = .unlockMain := by
  cases act with
  | create | created | sleep | lockMain => cases after
  | broadcast => exact ⟨rfl, rfl, rfl⟩
  | unlockMain | condDestroy | mutexDestroy | mutexBusy | join | joined => cases before

theorem step_broadcast (move : Step (Act n) s t) (before : (s.locals .main).afterBroadcast = false)
    (after : (t.locals .main).afterBroadcast = true) :
    s.locals .main = .broadcast ∧
      t = solo s.locals .main { s.shared with monitor := s.shared.monitor.notifyAll () }
        .unlockMain := by
  cases move with
  | turn thread acted =>
      cases thread with
      | main =>
          simp only [Function.update_self] at after
          obtain ⟨here, rfl, rfl⟩ := act_broadcast acted before after
          exact ⟨here, rfl⟩
      | horse j =>
          have same : (s.locals .main).afterBroadcast = true := by simpa using after
          rw [before] at same
          cases same

/-- While a horse sleeps, `main` does not get past `pthread_cond_destroy`, and the horse can only
wake up by itself. -/
theorem left_behind {i : Fin n} (here : s.locals .main = .condDestroy)
    (asleep : s.shared.monitor.asleep (.horse i) = some ()) (move : Step (Act n) s t) :
    t.locals .main = .condDestroy ∧ (t.shared.monitor.asleep (.horse i) = some () ∨
      t.shared.monitor = s.shared.monitor.wake (.horse i)) := by
  cases move with
  | turn thread acted =>
      cases thread with
      | main =>
          rw [here] at acted
          cases acted with
          | condDestroy nobody =>
              rw [nobody] at asleep
              cases asleep
      | horse j =>
          refine ⟨by simpa using here, ?_⟩
          generalize s.locals (.horse j) = there at acted
          by_cases same : i = j
          · subst j
            cases acted with
            | wait => exact Or.inl (by simp [Monitor.wait])
            | spurious => exact Or.inr rfl
            | resume awake | resumeInvalid awake =>
                rw [asleep] at awake
                cases awake
            | _ => exact Or.inl asleep
          · have apart : Thread.horse i ≠ .horse j := by simpa using same
            cases acted with
            | wait => exact Or.inl (by simpa [Monitor.wait, apart] using asleep)
            | spurious => exact Or.inl (by simpa [Monitor.wake, apart] using asleep)
            | _ => exact Or.inl asleep

/-- The horse sleeps, and nothing but a wake-up without a signal brings it or `main` on. -/
def Stranded (i : Fin n) (s : State (Thread n) (Shared n) Stage) : Prop :=
  s.shared.monitor.asleep (.horse i) = some () ∧ ∀ t, Run (Act n) s t →
    t.locals .main = .condDestroy ∧ t.shared.monitor.asleep (.horse i) = some () ∨
      ∃ u v, Run (Act n) s u ∧ Step (Act n) u v ∧
        v.shared.monitor = u.shared.monitor.wake (.horse i) ∧ Run (Act n) v t

theorem stranded {i : Fin n} (here : s.locals .main = .condDestroy)
    (asleep : s.shared.monitor.asleep (.horse i) = some ()) : Stranded i s := by
  refine ⟨asleep, fun t run => ?_⟩
  induction run with
  | refl => exact Or.inl ⟨here, asleep⟩
  | @tail middle last run move ih =>
      rcases ih with ⟨stays, sleeps⟩ | ⟨u, v, reach, wake, woken, rest⟩
      · obtain ⟨next, still | woken⟩ := left_behind stays sleeps move
        · exact Or.inl ⟨next, still⟩
        · exact Or.inr ⟨middle, last, run, move, woken, .refl⟩
      · exact Or.inr ⟨u, v, reach, wake, woken, rest.tail move⟩

theorem exists_stranded (run : Run (Act n) (start n) s) (move : Step (Act n) s t)
    (before : (s.locals .main).afterBroadcast = false)
    (after : (t.locals .main).afterBroadcast = true) {i : Fin n}
    (late : (s.locals (.horse i)).begun = false) :
    ∃ u, Run (Act n) t u ∧ u.locals .main = .condDestroy ∧ Stranded i u := by
  obtain ⟨here, rfl⟩ := step_broadcast move before after
  have main := run_knows run .main
  have horse := run_knows run (.horse i)
  rw [here] at main
  have intact : s.shared.mutexDestroyed = false := by
    cases destroyed : s.shared.mutexDestroyed with
    | false => rfl
    | true => cases main.intact rfl destroyed
  -- The mutex is with `main`, so the horse is not between `lock` and `wait`.
  have entering : s.locals (.horse i) = .lock := by
    rcases horse.horse nofun with lock | wait | begun
    · exact lock
    · have owner := horse.owner intact (by rw [wait]; rfl)
      rw [main.owner intact rfl] at owner
      cases owner
    · rw [late] at begun
      cases begun
  have created : i.val < s.shared.created := by
    rw [(main.created rfl).1]
    exact i.isLt
  let called : Shared n := { s.shared with monitor := s.shared.monitor.notifyAll () }
  have unlock := Step.solo s.locals .main (@Act.unlockMain n called)
  let locals := Function.update s.locals .main .condDestroy
  have wait := @wait_alone n locals i called.unlock created intact rfl
  rw [show Stage.lock = locals (.horse i) by simp [locals, entering], solo_self] at wait
  exact ⟨_, .head unlock wait, rfl, stranded rfl (by simp [solo, Monitor.wait])⟩

end

/-- All horses start in a run in which each of them has begun to wait when `main` broadcasts. When
one of them has not, it can be left behind, and `main` with it. -/
theorem started_run (n : Nat) :
    (∀ s, TimelyRun n (start n) s → Started s) ∧
      ∀ s t, Run (Act n) (start n) s → Step (Act n) s t →
        (s.locals .main).afterBroadcast = false → (t.locals .main).afterBroadcast = true →
          ((∀ u, Run (Act n) t u → Started u) ↔ ∀ i : Fin n, (s.locals (.horse i)).begun = true) ∧
          ∀ i : Fin n, (s.locals (.horse i)).begun = false →
            ∃ u, Run (Act n) t u ∧ u.locals .main = .condDestroy ∧ Stranded i u := by
  refine ⟨fun _ run => Started.run run, ?_⟩
  intro s t run move before after
  refine ⟨⟨?_, fun begun u later => started_later begun move before after later⟩,
    fun i late => exists_stranded run move before after late⟩
  intro started i
  by_contra late
  obtain ⟨u, later, here, asleep, _⟩ :=
    exists_stranded run move before after (Bool.eq_false_iff.mpr late)
  have awake := (started u later (by rw [here]; rfl) i).1
  rw [asleep] at awake
  cases awake

theorem create_alone {n : Nat} (k : Nat) (bound : k ≤ n) :
    Run (Act n) (start n) (solo (start n).locals .main
      { (start n).shared with created := k } (.create k)) := by
  induction k with
  | zero =>
      rw [show Stage.create 0 = (start n).locals .main from rfl, solo_self]
      exact .refl
  | succ k ih =>
      exact (ih (by omega)).tail (Step.solo _ _ (.create bound))

theorem main_alone {n : Nat} (locals : Thread n → Stage) {g : Shared n}
    (free : g.monitor.owner = none) :
    Run (Act n) (solo locals .main g (.create n)) (solo locals .main (g.lock .main) .broadcast) := by
  have created := Step.solo locals .main (@Act.created n g n (Nat.le_refl n))
  have sleep := Step.solo locals .main (@Act.sleep n g)
  have lock := Step.solo locals .main (@Act.lockMain n g free)
  exact .head created (.head sleep (.single lock))

theorem TimelyRun.of_run {n : Nat} {s t : State (Thread n) (Shared n) Stage}
    (run : Run (Act n) s t) (before : (t.locals .main).afterBroadcast = false) :
    TimelyRun n s t := by
  induction run with
  | refl => exact .refl
  | @tail middle last _ move ih =>
      have earlier : (middle.locals .main).afterBroadcast = false := by
        cases after : (middle.locals .main).afterBroadcast with
        | false => rfl
        | true => rw [afterBroadcast_step move after] at before; cases before
      refine (ih earlier).tail ⟨move, fun _ after => ?_⟩
      rw [before] at after
      cases after

theorem started_run_one : ∃ s, TimelyRun 1 (start 1) s ∧ s.locals .main = .unlockMain ∧
    Started s := by
  let created : Shared 1 := { (start 1).shared with created := 1 }
  let waited : Shared 1 := { created.lock (.horse 0) with
    monitor := (created.monitor.lock (.horse 0)).wait (.horse 0) () }
  let locals := Function.update (start 1).locals .main (.create 1)
  let ready := Function.update locals (.horse 0) .waiting
  have create := create_alone 1 (Nat.le_refl 1)
  have wait := @wait_alone 1 locals 0 created (by decide) rfl rfl
  rw [show Stage.lock = locals (.horse 0) from rfl, solo_self] at wait
  have reach := @main_alone 1 ready waited rfl
  rw [show Stage.create 1 = ready .main from rfl, solo_self] at reach
  have broadcast := Step.solo ready .main (@Act.broadcast 1 (waited.lock .main))
  have timely := TimelyRun.of_run (create.trans (wait.trans reach)) rfl
  have run := timely.tail ⟨broadcast, fun _ _ i => by rw [Fin.fin_one_eq_zero i]; rfl⟩
  exact ⟨_, run, rfl, (started_run 1).1 _ run⟩

theorem not_started_five : ¬∀ n s, Run (Act n) (start n) s → Started s := by
  intro holds
  have reach := (create_alone 5 (Nat.le_refl 5)).trans
    (@main_alone 5 (start 5).locals { (start 5).shared with created := 5 } rfl)
  have broadcast := Step.solo (start 5).locals .main
    (@Act.broadcast 5 (Shared.lock { (start 5).shared with created := 5 } .main))
  obtain ⟨u, later, here, asleep, _⟩ := @exists_stranded 5 _ _ reach broadcast rfl rfl 0 rfl
  have awake := (holds 5 u ((reach.tail broadcast).trans later) (by rw [here]; rfl) 0).1
  rw [asleep] at awake
  cases awake

end CudaOpenMp.RaceMutexCond
