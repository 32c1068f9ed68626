import CudaOpenMp.Library.Interleaving
import CudaOpenMp.Library.RwLock

/-!
The two writers and two readers of `read_write_lock.c`. The second reader locks once more where
it is to unlock.
-/

namespace CudaOpenMp.ReadWriteLock

open Interleaving

inductive Thread where
  | main
  | write1
  | write2
  | read1
  | read2
deriving DecidableEq

def spawned : List Thread := [.write1, .read1, .read2, .write2]

def Thread.writes : Thread → Bool
  | .write1 | .write2 => true
  | .main | .read1 | .read2 => false

def Thread.reads : Thread → Bool
  | .read1 | .read2 => true
  | .main | .write1 | .write2 => false

/-- The place in a thread, named after what is done next. At `file` it has taken the lock, and at
`release` it makes the last of its calls on the lock. -/
inductive Stage where
  | sleep
  | lock
  | file
  | release
  | exit
  | exited
  | create (k : Nat)
  | join (k : Nat)
  | destroy
  | ended
deriving DecidableEq

structure Shared where
  rwlock : RwLock Thread
  created : Nat
  exited : Thread → Bool

def Shared.Started (g : Shared) (t : Thread) : Prop := t ∈ spawned.take g.created

/-- A call of `pthread_rwlock_rdlock` waits only for a writer that has the lock. -/
inductive Act : Action Thread Shared Stage
  | sleep {t : Thread} {g : Shared} : g.Started t → Act t g .sleep g .lock
  | wrlock {t : Thread} {g : Shared} : t.writes = true → g.Started t →
      g.rwlock.writer = none → (∀ r, g.rwlock.readers r = 0) →
      Act t g .lock { g with rwlock := g.rwlock.wrlock t } .file
  | rdlock {t : Thread} {g : Shared} : t.reads = true → g.Started t → g.rwlock.writer = none →
      Act t g .lock { g with rwlock := g.rwlock.rdlock t } .file
  | file {t : Thread} {g : Shared} : Act t g .file g .release
  | unlock {t : Thread} {g : Shared} : t ≠ .read2 →
      Act t g .release { g with rwlock := g.rwlock.unlock t } .exit
  | rdlockAgain {g : Shared} : g.rwlock.writer = none →
      Act .read2 g .release { g with rwlock := g.rwlock.rdlock .read2 } .exit
  | exit {t : Thread} {g : Shared} :
      Act t g .exit { g with exited := Function.update g.exited t true } .exited
  | create {g : Shared} {k : Nat} : k < spawned.length →
      Act .main g (.create k) { g with created := k + 1 } (.create (k + 1))
  | created {g : Shared} {k : Nat} : spawned.length ≤ k → Act .main g (.create k) g (.join 0)
  | join {g : Shared} {k : Nat} {t : Thread} : spawned[k]? = some t → g.exited t = true →
      Act .main g (.join k) g (.join (k + 1))
  | joined {g : Shared} {k : Nat} : spawned.length ≤ k → Act .main g (.join k) g .destroy
  | destroy {g : Shared} : Act .main g .destroy g .ended

def start : State Thread Shared Stage where
  shared := ⟨RwLock.free, 0, fun _ => false⟩
  locals
    | .main => .create 0
    | .write1 => .lock
    | .write2 | .read1 | .read2 => .sleep

def writing : Thread → Stage → Bool
  | .write1, .file | .write1, .release | .write2, .file | .write2, .release => true
  | _, _ => false

def shares : Thread → Stage → Nat
  | .read1, .file | .read1, .release | .read2, .file | .read2, .release => 1
  | .read2, .exit | .read2, .exited => 2
  | _, _ => 0

structure Own (t : Thread) (g : Shared) (l : Stage) : Prop where
  writer : g.rwlock.writer = some t ↔ writing t l = true
  readers : g.rwlock.readers t = shares t l
  exited : g.exited t = true → l = .exited

section
variable {t u : Thread} {g g' : Shared} {l l' : Stage}

theorem Own.unlock (own : Own t g .release) (other : t ≠ .read2) :
    ¬(g.rwlock.unlock t).Holds t := by
  have ⟨writer, readers, _⟩ := own
  by_cases held : g.rwlock.writer = some t
  · rw [RwLock.unlock_of_writer held]
    have wrote := writer.mp held
    rintro (still | share)
    · cases still
    · cases t <;> simp_all [writing, shares]
  · rw [RwLock.unlock_of_reader held]
    rintro (still | share)
    · exact held still
    · cases t <;> simp_all [shares]

theorem Act.running (act : Act t g l g' l') : l ≠ .exited := by
  rintro rfl
  cases act

theorem Own.step (own : Own t g l) (act : Act t g l g' l') : Own t g' l' := by
  have writer := own.writer
  have readers := own.readers
  have running : g.exited t ≠ true := fun done => act.running (own.exited done)
  cases act with
  | sleep =>
      refine ⟨?_, ?_, fun done => (running done).elim⟩
      · cases t <;> exact writer
      · cases t <;> exact readers
  | wrlock writes =>
      refine ⟨?_, ?_, fun done => (running done).elim⟩
      · cases t <;> simp_all [RwLock.wrlock, writing, Thread.writes]
      · cases t <;> simp_all [RwLock.wrlock, shares, Thread.writes]
  | rdlock reads _ idle =>
      refine ⟨?_, ?_, fun done => (running done).elim⟩
      · cases t <;> simp_all [RwLock.rdlock, writing, Thread.reads]
      · cases t <;> simp_all [RwLock.rdlock, shares, Thread.reads]
  | file =>
      refine ⟨?_, ?_, fun done => (running done).elim⟩
      · cases t <;> exact writer
      · cases t <;> exact readers
  | unlock other =>
      have gone := own.unlock other
      refine ⟨iff_of_false (fun held => gone (Or.inl held)) ?_, ?_,
        fun done => (running done).elim⟩
      · cases t <;> exact Bool.false_ne_true
      · rw [Nat.eq_zero_of_not_pos fun held => gone (Or.inr held)]
        cases t <;> first | rfl | exact (other rfl).elim
  | rdlockAgain =>
      refine ⟨writer, ?_, fun done => (running done).elim⟩
      simp [RwLock.rdlock, readers, shares]
  | exit =>
      refine ⟨?_, ?_, fun _ => rfl⟩
      · cases t <;> exact writer
      · cases t <;> exact readers
  | create => exact ⟨writer, readers, fun done => (running done).elim⟩
  | created => exact ⟨writer, readers, fun done => (running done).elim⟩
  | join => exact ⟨writer, readers, fun done => (running done).elim⟩
  | joined => exact ⟨writer, readers, fun done => (running done).elim⟩
  | destroy => exact ⟨writer, readers, fun done => (running done).elim⟩

theorem act_other (act : Act t g l g' l') (other : u ≠ t) :
    (g'.rwlock.writer = some u ↔ g.rwlock.writer = some u) ∧
      g'.rwlock.readers u = g.rwlock.readers u ∧ g'.exited u = g.exited u := by
  cases act with
  | wrlock _ _ idle => exact ⟨RwLock.wrlock_writer_of_ne idle other, rfl, rfl⟩
  | rdlock | rdlockAgain => exact ⟨Iff.rfl, RwLock.rdlock_readers_of_ne other, rfl⟩
  | unlock =>
      exact ⟨RwLock.unlock_writer_of_ne other, RwLock.unlock_readers_of_ne other, rfl⟩
  | exit => exact ⟨Iff.rfl, rfl, Function.update_of_ne other ..⟩
  | sleep | file | create | created | join | joined | destroy => exact ⟨Iff.rfl, rfl, rfl⟩

theorem act_exclusive (act : Act t g l g' l') (exclusive : g.rwlock.Exclusive) :
    g'.rwlock.Exclusive := by
  cases act with
  | wrlock _ _ _ readers => exact RwLock.Exclusive.wrlock readers
  | rdlock _ _ idle | rdlockAgain idle => exact RwLock.Exclusive.rdlock idle
  | unlock => exact exclusive.unlock
  | sleep | file | exit | create | created | join | joined | destroy => exact exclusive

end

theorem own_stable : Stable Act Own where
  own := fun _ _ _ _ _ act own => own.step act
  others := by
    intro t u g l g' l' m apart act _ own
    have ⟨writer, readers, exited⟩ := act_other act (Ne.symm apart)
    refine ⟨writer.trans own.writer, readers.trans own.readers, ?_⟩
    rw [exited]
    exact own.exited

/-! What `main` has done. -/

/-- `main` has created all threads, and the first `k` of them have exited. -/
structure Joined (k : Nat) (g : Shared) : Prop where
  created : g.created = spawned.length
  exited : ∀ j t, j < k → spawned[j]? = some t → g.exited t = true

def Progress (g : Shared) : Stage → Prop
  | .create k => g.created = k ∧ k ≤ spawned.length
  | .join k => Joined k g
  | .destroy | .ended => Joined spawned.length g
  | .sleep | .lock | .file | .release | .exit | .exited => True

section
variable {t : Thread} {g g' : Shared} {l l' m : Stage}

theorem Joined.mono {k : Nat} (joined : Joined k g) (created : g'.created = g.created)
    (exited : ∀ t, g.exited t = true → g'.exited t = true) : Joined k g' :=
  ⟨created.trans joined.created, fun j t bound found => exited t (joined.exited j t bound found)⟩

theorem Progress.mono (progress : Progress g m) (created : g'.created = g.created)
    (exited : ∀ t, g.exited t = true → g'.exited t = true) : Progress g' m := by
  cases m with
  | create k => exact ⟨created.trans progress.1, progress.2⟩
  | join k => exact Joined.mono progress created exited
  | destroy | ended => exact Joined.mono progress created exited
  | sleep | lock | file | release | exit | exited => trivial

theorem Progress.main (progress : Progress g l) (act : Act .main g l g' l') : Progress g' l' := by
  cases act with
  | sleep | wrlock | rdlock | file | unlock | exit => trivial
  | create more => exact ⟨rfl, more⟩
  | created all =>
      obtain ⟨count, bound⟩ := progress
      exact ⟨count.trans (Nat.le_antisymm bound all), fun j _ none => by omega⟩
  | @join _ k t found exited =>
      refine ⟨progress.created, fun j u bound there => ?_⟩
      rcases Nat.lt_succ_iff_lt_or_eq.mp bound with before | last
      · exact progress.exited j u before there
      · rw [last, found] at there
        cases there
        exact exited
  | joined all => exact ⟨progress.created, fun j t bound => progress.exited j t (by omega)⟩
  | destroy => exact progress

theorem act_exited (act : Act t g l g' l') (other : t ≠ .main) :
    g'.created = g.created ∧ ∀ u, g.exited u = true → g'.exited u = true := by
  cases act with
  | create | created | join | joined | destroy => exact (other rfl).elim
  | exit =>
      refine ⟨rfl, fun u exited => ?_⟩
      by_cases same : u = t
      · simp [same]
      · simpa [same] using exited
  | sleep | wrlock | rdlock | file | unlock | rdlockAgain => exact ⟨rfl, fun _ exited => exited⟩

end

structure Inv (s : State Thread Shared Stage) : Prop where
  own : ∀ t, Own t s.shared (s.locals t)
  exclusive : s.shared.rwlock.Exclusive
  progress : Progress s.shared (s.locals .main)

theorem Inv.start : Inv start where
  own := by
    intro t
    cases t <;> exact ⟨⟨nofun, nofun⟩, rfl, nofun⟩
  exclusive := fun held => (held rfl).elim
  progress := ⟨rfl, Nat.zero_le _⟩

theorem Inv.step {s t : State Thread Shared Stage} (inv : Inv s) (move : Step Act s t) : Inv t := by
  have own := own_stable.step move inv.own
  cases move with
  | turn thread acted =>
      refine ⟨own, act_exclusive acted inv.exclusive, ?_⟩
      by_cases same : thread = .main
      · subst same
        simp only [Function.update_self]
        exact inv.progress.main acted
      · have ⟨created, exited⟩ := act_exited acted same
        simp only [Function.update_of_ne (Ne.symm same)]
        exact inv.progress.mono created exited

theorem inv_run {s t : State Thread Shared Stage} (run : Run Act s t) (inv : Inv s) : Inv t :=
  run.invariant inv fun _ _ move before => before.step move

def Stage.before : Stage → Bool
  | .sleep | .lock => true
  | .file | .release | .exit | .exited | .create _ | .join _ | .destroy | .ended => false

structure Clean (s : State Thread Shared Stage) : Prop where
  released : ∀ t, s.locals t = .exited → ¬s.shared.rwlock.Holds t
  joinable : ∀ k t, s.locals .main = .join k → spawned[k]? = some t →
    (s.locals t).before = true → ∃ s', Run Act s s' ∧ (s'.locals t).before = false
  idle : s.locals .main = .destroy → ∀ t, ¬s.shared.rwlock.Holds t

/-- The second reader has not exited, and it has not got the lock before the writer that `main`
waits for first. -/
def Harmless (s : State Thread Shared Stage) : Prop :=
  s.locals .read2 ≠ .exited ∧
    (s.locals .main = .join 0 → (s.locals .write1).before = true →
      ¬s.shared.rwlock.Holds .read2)

section
variable {s : State Thread Shared Stage} {t : Thread}

theorem Inv.holds_iff (inv : Inv s) :
    s.shared.rwlock.Holds t ↔ writing t (s.locals t) = true ∨ 0 < shares t (s.locals t) := by
  rw [RwLock.Holds, (inv.own t).writer, (inv.own t).readers]

theorem leave (locals : Thread → Stage) {g : Shared} (t : Thread) (other : t ≠ .read2)
    (inside : locals t = .file ∨ locals t = .release) :
    Run Act ⟨g, locals⟩ ⟨{ g with rwlock := g.rwlock.unlock t }, Function.update locals t .exit⟩ := by
  have file := Step.solo locals t (@Act.file t g)
  have unlock := Step.solo locals t (@Act.unlock t g other)
  rcases inside with here | here
  · rw [← here, solo_self] at file
    exact .head file (.single unlock)
  · rw [← here, solo_self] at unlock
    exact .single unlock

theorem acquire (locals : Thread → Stage) (g : Shared) (t : Thread) (started : g.Started t)
    (idle : g.rwlock.writer = none) (free : t.reads = true ∨ t.writes = true ∧
      ∀ r, g.rwlock.readers r = 0) (before : (locals t).before = true) :
    ∃ s', Run Act ⟨g, locals⟩ s' ∧ (s'.locals t).before = false := by
  have sleep := Step.solo locals t (@Act.sleep t g started)
  have lock : ∃ g', Step Act (solo locals t g .lock) (solo locals t g' .file) := by
    rcases free with reads | ⟨writes, readers⟩
    · exact ⟨_, Step.solo locals t (@Act.rdlock t g reads started idle)⟩
    · exact ⟨_, Step.solo locals t (@Act.wrlock t g writes started idle readers)⟩
  obtain ⟨g', lock⟩ := lock
  have inside : ((solo locals t g' .file).locals t).before = false := by
    simp [solo, Stage.before]
  generalize here : locals t = l at before
  cases l with
  | sleep =>
      rw [← here, solo_self] at sleep
      exact ⟨_, .head sleep (.single lock), inside⟩
  | lock =>
      rw [← here, solo_self] at lock
      exact ⟨_, .single lock, inside⟩
  | file | release | exit | exited | create | join | destroy | ended => cases before

theorem Inv.idle_readers (inv : Inv s) (read1 : shares .read1 (s.locals .read1) = 0)
    (read2 : shares .read2 (s.locals .read2) = 0) (r : Thread) : s.shared.rwlock.readers r = 0 := by
  rw [(inv.own r).readers]
  cases r with
  | read1 => exact read1
  | read2 => exact read2
  | main | write1 | write2 => simp [shares]

theorem Inv.write_comes (inv : Inv s) (started : s.shared.Started t) (writes : t.writes = true)
    (idle : s.shared.rwlock.writer = none) (read2 : shares .read2 (s.locals .read2) = 0)
    (before : (s.locals t).before = true) :
    ∃ s', Run Act s s' ∧ (s'.locals t).before = false := by
  by_cases inside : s.locals .read1 = .file ∨ s.locals .read1 = .release
  · have left := @leave s.locals s.shared .read1 nofun inside
    have after := inv_run left inv
    have other : t ≠ .read1 := by
      rintro rfl
      cases writes
    have free := after.idle_readers (by simp [shares]) (by simpa using read2)
    have unlocked : (s.shared.rwlock.unlock .read1).writer = none := by
      rw [RwLock.unlock_of_reader (by rw [idle]; exact nofun), idle]
    obtain ⟨s', run, done⟩ := acquire (Function.update s.locals .read1 .exit)
      { s.shared with rwlock := s.shared.rwlock.unlock .read1 } t started unlocked
      (Or.inr ⟨writes, free⟩) (by simpa [other] using before)
    exact ⟨s', left.trans run, done⟩
  · have outside : shares .read1 (s.locals .read1) = 0 := by
      generalize s.locals .read1 = here at inside
      cases here with
      | file => exact (inside (Or.inl rfl)).elim
      | release => exact (inside (Or.inr rfl)).elim
      | sleep | lock | exit | exited | create | join | destroy | ended => rfl
    exact acquire s.locals s.shared t started idle
      (Or.inr ⟨writes, inv.idle_readers outside read2⟩) before

theorem Inv.comes_after (inv : Inv s) {w : Thread} (held : s.shared.rwlock.writer = some w)
    (started : s.shared.Started t) (known : t.reads = true ∨ t.writes = true)
    (before : (s.locals t).before = true) :
    ∃ s', Run Act s s' ∧ (s'.locals t).before = false := by
  have readers := inv.exclusive (by rw [held]; exact nofun)
  have wrote := (inv.own w).writer.mp held
  have inside : s.locals w = .file ∨ s.locals w = .release := by
    generalize s.locals w = here at wrote
    cases w <;> cases here <;> simp_all [writing]
  have other : w ≠ .read2 := by
    rintro rfl
    simp [writing] at wrote
  have apart : t ≠ w := by
    rintro rfl
    rcases inside with here | here <;> rw [here] at before <;> cases before
  have left := @leave s.locals s.shared w other inside
  rw [RwLock.unlock_of_writer held] at left
  obtain ⟨s', run, done⟩ := acquire (Function.update s.locals w .exit)
    { s.shared with rwlock := { s.shared.rwlock with writer := none } } t started rfl
    (known.imp id fun writes => ⟨writes, readers⟩) (by simpa [apart] using before)
  exact ⟨s', left.trans run, done⟩

theorem spawned_index {j k : Nat} (there : spawned[j]? = some t) (found : spawned[k]? = some t) :
    j = k := by
  obtain ⟨bound, _⟩ := List.getElem?_eq_some_iff.mp there
  exact (List.getElem?_inj bound (by decide)).mp (there.trans found.symm)

theorem Inv.joinable (inv : Inv s) (harmless : Harmless s) {k : Nat} (main : s.locals .main = .join k)
    (found : spawned[k]? = some t) (before : (s.locals t).before = true) :
    ∃ s', Run Act s s' ∧ (s'.locals t).before = false := by
  have progress := inv.progress
  rw [main] at progress
  have joined : Joined k s.shared := progress
  have started : s.shared.Started t := by
    rw [Shared.Started, joined.created, List.take_length]
    exact List.mem_of_getElem? found
  have known : t.reads = true ∨ t.writes = true := by
    have member := List.mem_of_getElem? found
    cases t with
    | main => simp [spawned] at member
    | read1 | read2 => exact Or.inl rfl
    | write1 | write2 => exact Or.inr rfl
  cases writer : s.shared.rwlock.writer with
  | some w => exact inv.comes_after writer started known before
  | none =>
      rcases known with reads | writes
      · exact acquire s.locals s.shared t started writer (Or.inl reads) before
      · refine inv.write_comes started writes writer ?_ before
        cases t with
        | main | read1 | read2 => cases writes
        | write1 =>
            obtain rfl := spawned_index (show spawned[0]? = some .write1 from rfl) found
            rw [← (inv.own .read2).readers]
            exact Nat.eq_zero_of_not_pos fun held => harmless.2 main before (Or.inr held)
        | write2 =>
            obtain rfl := spawned_index (show spawned[3]? = some .write2 from rfl) found
            exact (harmless.1 ((inv.own _).exited (joined.exited 2 .read2 (by decide) rfl))).elim

theorem shares_step {g g' : Shared} {l l' : Stage} (act : Act .read2 g l g' l')
    (holds : 0 < shares .read2 l) : 0 < shares .read2 l' := by
  cases act with
  | sleep | wrlock | rdlock => cases holds
  | file | rdlockAgain | exit => decide
  | unlock other => exact (other rfl).elim

theorem Inv.stuck {s' : State Thread Shared Stage} (inv : Inv s) (run : Run Act s s')
    (writer : (s.locals .write1).before = true) (reader : 0 < shares .read2 (s.locals .read2)) :
    (s'.locals .write1).before = true ∧ 0 < shares .read2 (s'.locals .read2) := by
  induction run with
  | refl => exact ⟨writer, reader⟩
  | @tail middle last path move ih =>
      obtain ⟨waits, holds⟩ := ih
      have held := ((inv_run path inv).own .read2).readers
      cases move with
      | turn thread acted =>
          constructor
          · by_cases same : thread = .write1
            · subst same
              simp only [Function.update_self]
              generalize middle.locals .write1 = here at waits acted
              cases acted with
              | sleep => rfl
              | wrlock _ _ _ idle =>
                  rw [idle] at held
                  omega
              | rdlock reads => cases reads
              | file | unlock | exit => cases waits
            · simpa [Ne.symm same] using waits
          · by_cases same : thread = .read2
            · subst same
              simp only [Function.update_self]
              exact shares_step acted holds
            · simpa [Ne.symm same] using holds

/-- A state is no longer clean as soon as the second reader has exited, or shuts out the writer that
is waited for first, and not before. -/
theorem Inv.clean_iff (inv : Inv s) : Clean s ↔ Harmless s := by
  constructor
  · intro clean
    refine ⟨fun exited => ?_, fun main before held => ?_⟩
    · refine clean.released .read2 exited (inv.holds_iff.mpr (Or.inr ?_))
      rw [exited]
      decide
    · obtain ⟨s', run, done⟩ := clean.joinable 0 .write1 main rfl before
      rcases inv.holds_iff.mp held with wrote | share
      · simp [writing] at wrote
      · rw [(inv.stuck run before share).1] at done
        cases done
  · intro harmless
    refine ⟨?_, fun k t => inv.joinable harmless, ?_⟩
    · intro t exited held
      have only : t ≠ .read2 := by
        rintro rfl
        exact harmless.1 exited
      rw [inv.holds_iff, exited] at held
      cases t <;> simp_all [writing, shares]
    · intro destroy
      have progress := inv.progress
      rw [destroy] at progress
      have joined : Joined spawned.length s.shared := progress
      exact (harmless.1 ((inv.own _).exited (joined.exited 2 .read2 (by decide) rfl))).elim

end

/-! Runs in which the second reader keeps out of the way. -/

/-- The second reader does not exit in this step, nor does it get the lock before the first
writer. -/
def Careful (s t : State Thread Shared Stage) : Prop :=
  t.locals .read2 ≠ .exited ∧
    (¬s.shared.rwlock.Holds .read2 → t.shared.rwlock.Holds .read2 →
      (s.locals .write1).before = false)

abbrev CarefulRun :=
  Relation.ReflTransGen fun s t : State Thread Shared Stage => Step Act s t ∧ Careful s t

section
variable {s t : State Thread Shared Stage}

theorem before_step (move : Step Act s t) (after : (t.locals .write1).before = true) :
    (s.locals .write1).before = true := by
  cases move with
  | turn thread acted =>
      by_cases same : thread = .write1
      · subst same
        simp only [Function.update_self] at after
        generalize s.locals .write1 = here at acted ⊢
        cases acted with
        | sleep => rfl
        | wrlock | rdlock | file | unlock | exit => cases after
      · simpa [Ne.symm same] using after

theorem CarefulRun.waits (run : CarefulRun start s) : Run Act start s ∧
    s.locals .read2 ≠ .exited ∧
      ((s.locals .write1).before = true → ¬s.shared.rwlock.Holds .read2) := by
  induction run with
  | refl =>
      refine ⟨.refl, nofun, fun _ => ?_⟩
      rintro (held | held) <;> cases held
  | tail _ step ih =>
      obtain ⟨run, _, waits⟩ := ih
      obtain ⟨move, running, taken⟩ := step
      refine ⟨run.tail move, running, fun after held => ?_⟩
      have before := before_step move after
      rw [taken (waits before) held] at before
      cases before

end

/-- In runs of this kind the lock is given back and no thread is shut out. In any run both hold
exactly as long as the second reader has done no harm, and at the end it has the lock. -/
theorem clean_run (s : State Thread Shared Stage) :
    (CarefulRun start s → Clean s) ∧
      (Run Act start s → (Clean s ↔ Harmless s)) ∧
      (Run Act start s → s.locals .main = .destroy → s.shared.rwlock.Holds .read2) := by
  refine ⟨fun run => ?_, fun run => (inv_run run Inv.start).clean_iff, fun run destroy => ?_⟩
  · obtain ⟨plain, running, waits⟩ := run.waits
    exact (inv_run plain Inv.start).clean_iff.mpr ⟨running, fun _ before => waits before⟩
  · have inv := inv_run run Inv.start
    have progress := inv.progress
    rw [destroy] at progress
    have joined : Joined spawned.length s.shared := progress
    have exited := (inv.own .read2).exited (joined.exited 2 .read2 (by decide) rfl)
    rw [inv.holds_iff, exited]
    decide

/-! Runs in which one thread at a time goes on. -/

theorem careful_alone (locals : Thread → Stage) {thread : Thread} {g g' : Shared} {l l' : Stage}
    (other : .read2 ≠ thread) (running : locals .read2 ≠ .exited) (act : Act thread g l g' l') :
    Step Act (solo locals thread g l) (solo locals thread g' l') ∧
      Careful (solo locals thread g l) (solo locals thread g' l') := by
  refine ⟨Step.solo locals thread act, by simpa [solo, other] using running, ?_⟩
  intro free held
  obtain ⟨writer, readers, _⟩ := act_other act other
  refine (free ?_).elim
  rw [RwLock.Holds] at held ⊢
  simp only [solo] at held ⊢
  rwa [← writer, ← readers]

theorem create_alone (k : Nat) (bound : k ≤ spawned.length) :
    CarefulRun start (solo start.locals .main { start.shared with created := k } (.create k)) := by
  induction k with
  | zero =>
      rw [show Stage.create 0 = start.locals .main from rfl, solo_self]
      exact .refl
  | succ k ih => exact (ih (by omega)).tail (careful_alone _ nofun nofun (.create bound))

theorem created_alone : CarefulRun start (solo start.locals .main
    { start.shared with created := spawned.length } (.join 0)) :=
  (create_alone _ (Nat.le_refl _)).tail (careful_alone _ nofun nofun (.created (Nat.le_refl _)))

theorem careful_reader (locals : Thread → Stage) {g g' : Shared} {l l' : Stage}
    (after : (locals .write1).before = false) (running : l' ≠ .exited) (act : Act .read2 g l g' l') :
    Step Act (solo locals .read2 g l) (solo locals .read2 g' l') ∧
      Careful (solo locals .read2 g l) (solo locals .read2 g' l') :=
  ⟨Step.solo locals .read2 act, by simpa [solo] using running, fun _ _ => by simpa [solo] using after⟩

/-- The first writer has given the lock back, and the second reader has locked twice. -/
theorem clean_run_reader : ∃ s, CarefulRun start s ∧ s.locals .read2 = .exit ∧
    s.shared.rwlock.readers .read2 = 2 ∧ Clean s := by
  let created : Shared := { start.shared with created := spawned.length }
  let locals := Function.update start.locals .main (.join 0)
  let written : Shared := { created with rwlock := created.rwlock.wrlock .write1 }
  have lock := @careful_alone locals .write1 created _ _ _ nofun nofun
    (.wrlock rfl (show Thread.write1 ∈ spawned by decide) rfl fun _ => rfl)
  have file := @careful_alone locals .write1 written _ _ _ nofun nofun .file
  have unlock := @careful_alone locals .write1 written _ _ _ nofun nofun (.unlock nofun)
  rw [show Stage.lock = locals .write1 from rfl, solo_self] at lock
  let free : Shared := { written with rwlock := written.rwlock.unlock .write1 }
  let middle := Function.update locals .write1 .exit
  have started : free.Started .read2 := show Thread.read2 ∈ spawned by decide
  have idle : free.rwlock.writer = none := rfl
  have sleep := @careful_reader middle free _ _ .lock rfl nofun (.sleep started)
  have lockOnce := @careful_reader middle free _ _ .file rfl nofun (.rdlock rfl started idle)
  let once : Shared := { free with rwlock := free.rwlock.rdlock .read2 }
  have fileOnce := @careful_reader middle once _ _ .release rfl nofun .file
  have lockAgain := @careful_reader middle once _ _ .exit rfl nofun (.rdlockAgain idle)
  rw [show Stage.sleep = middle .read2 from rfl, solo_self] at sleep
  have writer := ((created_alone.tail lock).tail file).tail unlock
  have run := (((writer.tail sleep).tail lockOnce).tail fileOnce).tail lockAgain
  exact ⟨_, run, rfl, rfl, (clean_run _).1 run⟩

theorem exists_shut_out : ∃ s, Run Act start s ∧ s.locals .main = .join 0 ∧
    s.locals .write1 = .lock ∧ s.locals .read2 = .exited := by
  let created : Shared := { start.shared with created := spawned.length }
  let locked : Shared := { created with rwlock := created.rwlock.rdlock .read2 }
  let again : Shared := { locked with rwlock := locked.rwlock.rdlock .read2 }
  let locals := Function.update start.locals .main (.join 0)
  have started : created.Started .read2 := show Thread.read2 ∈ spawned by decide
  have sleep := Step.solo locals .read2 (@Act.sleep .read2 created started)
  have lock := Step.solo locals .read2 (@Act.rdlock .read2 created rfl started rfl)
  have file := Step.solo locals .read2 (@Act.file .read2 locked)
  have lockAgain := Step.solo locals .read2 (@Act.rdlockAgain locked rfl)
  have exit := Step.solo locals .read2 (@Act.exit .read2 again)
  rw [show Stage.sleep = locals .read2 from rfl, solo_self] at sleep
  have run := created_alone.waits.1.trans (.head sleep (.head lock (.head file (.head lockAgain
    (.single exit)))))
  exact ⟨_, run, rfl, rfl, rfl⟩

theorem not_clean_run : ¬∀ s, Run Act start s → Clean s := by
  intro holds
  obtain ⟨s, run, _, _, exited⟩ := exists_shut_out
  exact ((inv_run run Inv.start).clean_iff.mp (holds s run)).1 exited

end CudaOpenMp.ReadWriteLock
