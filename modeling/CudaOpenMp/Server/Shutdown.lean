import CudaOpenMp.Server.Numbers

/-!
How the server ends: `main` shuts the listening socket down, waits for the workers and closes the log.
-/

namespace CudaOpenMp.Server

open Interleaving

def Stage.working : Stage → Bool
  | .accept | .lock _ _ | .number _ _ | .increment _ _ _ | .unlock _ _ _ | .receive _ _ _
  | .calls _ _ _ _ | .exited => true
  | .create _ | .stdin | .shutdown | .close | .join _ | .fclose | .finished | .idle => false

variable {n : Nat}

/-- What `main` knows at each place. -/
def MainAt (g : Shared n) : Stage → Prop
  | .create k => g.created = k ∧ k ≤ n ∧ g.logOpen = true
  | .stdin | .shutdown => g.created = n ∧ g.logOpen = true
  | .close => g.created = n ∧ g.logOpen = true ∧ g.listening = false
  | .join j => g.created = n ∧ g.logOpen = true ∧ g.listening = false ∧
      ∀ i : Fin n, i.val < j → g.exited i = true
  | .fclose => g.logOpen = true ∧ ∀ i, g.exited i = true
  | .finished => ∀ i, g.exited i = true
  | .accept | .lock _ _ | .number _ _ | .increment _ _ _ | .unlock _ _ _ | .receive _ _ _
  | .calls _ _ _ _ | .exited | .idle => False

structure Ends (p : Party n) (g : Shared n) (l : Stage) : Prop where
  main : p = .main → MainAt g l
  working : ∀ i, p = .worker i → l.working = true
  exited : ∀ i, p = .worker i → (g.exited i = true ↔ l = .exited)

section
variable {files : Bytes → Option Entry} {g g' : Shared n} {p q : Party n} {l l' m : Stage}

/-- What a call leaves as it is. -/
structure Calm (g g' : Shared n) : Prop where
  created : g'.created = g.created
  accepted : g'.accepted = g.accepted
  logOpen : g'.logOpen = g.logOpen
  exited : g'.exited = g.exited
  listening : g.listening = false → g'.listening = false

theorem perform_calm (g : Shared n) (i : Fin n) (d c : Nat) (call : Call) :
    Calm g (g.perform i d c call) := by
  have same : Calm g g := ⟨rfl, rfl, rfl, rfl, id⟩
  have sending (bytes : Bytes) : Calm g (g.send d bytes) := by
    rcases send_cases g d bytes with equal | ⟨c, equal⟩ | equal <;> rw [equal]
    · exact ⟨rfl, rfl, rfl, rfl, id⟩
    · exact ⟨rfl, rfl, rfl, rfl, id⟩
    · exact same
  cases call with
  | fputs line => exact ⟨rfl, rfl, rfl, rfl, id⟩
  | send bytes => exact sending bytes
  | chunk bytes => exact sending bytes
  | close =>
      rw [Shared.perform, Shared.close]
      split <;> exact ⟨rfl, rfl, rfl, rfl, id⟩
  | shutdown =>
      rw [Shared.perform, Shared.shutdown]
      split
      · exact ⟨rfl, rfl, rfl, rfl, id⟩
      · exact ⟨rfl, rfl, rfl, rfl, fun _ => rfl⟩
      · exact same
      · exact same
  | spin => exact same
  | undefined => exact ⟨rfl, rfl, rfl, rfl, id⟩

theorem MainAt.mono (here : MainAt g l) (created : g'.created = g.created)
    (logOpen : g'.logOpen = g.logOpen) (listening : g.listening = false → g'.listening = false)
    (exited : ∀ i, g.exited i = true → g'.exited i = true) : MainAt g' l := by
  cases l with
  | create k => exact ⟨created.trans here.1, here.2.1, logOpen.trans here.2.2⟩
  | stdin => exact ⟨created.trans here.1, logOpen.trans here.2⟩
  | shutdown => exact ⟨created.trans here.1, logOpen.trans here.2⟩
  | close => exact ⟨created.trans here.1, logOpen.trans here.2.1, listening here.2.2⟩
  | join j =>
      exact ⟨created.trans here.1, logOpen.trans here.2.1, listening here.2.2.1,
        fun i before => exited i (here.2.2.2 i before)⟩
  | fclose => exact ⟨logOpen.trans here.1, fun i => exited i (here.2 i)⟩
  | finished => exact fun i => exited i (here i)
  | accept | lock | number | increment | unlock | receive | calls | exited | idle => exact here.elim

/-- A step of a worker or of the network. -/
structure Quiet (g g' : Shared n) : Prop where
  created : g'.created = g.created
  logOpen : g'.logOpen = g.logOpen
  listening : g.listening = false → g'.listening = false
  exited : ∀ i, g.exited i = true → g'.exited i = true

theorem Act.quiet (act : Act files p g l g' l') (other : p ≠ .main) : Quiet g g' := by
  cases act with
  | create | created | exit | shutdown | close | join | joined | fclose => exact (other rfl).elim
  | @refused _ i =>
      refine ⟨rfl, rfl, id, fun j done => ?_⟩
      by_cases same : j = i
      · subst same
        exact Function.update_self ..
      · simp only [Function.update_of_ne same]
        exact done
  | @call _ i d c _ call =>
      have calm := perform_calm g i d c call
      exact ⟨calm.created, calm.logOpen, calm.listening, fun j done => by rw [calm.exited]; exact done⟩
  | reset | accept | lock | number | increment | unlock | dropped | receive | again =>
      exact ⟨rfl, rfl, id, fun _ => id⟩

theorem Ends.main_step (ends : Ends .main g l) (act : Act files .main g l g' l') :
    Ends .main g' l' := by
  have here := ends.main rfl
  refine ⟨fun _ => ?_, nofun, nofun⟩
  cases act with
  | create more => exact ⟨rfl, more, here.2.2⟩
  | created all => exact ⟨here.1.trans (Nat.le_antisymm here.2.1 all), here.2.2⟩
  | exit => exact here
  | shutdown => exact ⟨here.1, here.2, rfl⟩
  | close => exact ⟨here.1, here.2.1, here.2.2, fun i before => (Nat.not_lt_zero _ before).elim⟩
  | join j done =>
      refine ⟨here.1, here.2.1, here.2.2.1, fun i before => ?_⟩
      rcases Nat.lt_succ_iff_lt_or_eq.mp before with earlier | same
      · exact here.2.2.2 i earlier
      · rw [Fin.ext same]
        exact done
  | joined all => exact ⟨here.2.1, fun i => here.2.2.2 i (Nat.lt_of_lt_of_le i.isLt all)⟩
  | fclose => exact here.2

theorem Ends.worker_step {i : Fin n} (ends : Ends (.worker i) g l)
    (act : Act files (.worker i) g l g' l') : Ends (.worker i) g' l' := by
  have exited := ends.exited i rfl
  refine ⟨nofun, fun j _ => ?_, fun j same => ?_⟩
  · cases act <;> rfl
  · obtain rfl : i = j := by simpa using same
    have running (other : l ≠ .exited) : g.exited i ≠ true := fun done => other (exited.mp done)
    cases act with
    | refused => simp
    | @call _ _ d c _ call =>
        rw [(perform_calm g i d c call).exited]
        exact ⟨fun done => (running nofun done).elim, nofun⟩
    | accept | lock | number | increment | unlock | dropped | receive | again =>
        exact ⟨fun done => (running nofun done).elim, nofun⟩

theorem Ends.others (ends : Ends q g m) (other : q ≠ p) (act : Act files p g l g' l') :
    Ends q g' m := by
  refine ⟨fun main => ?_, ends.working, fun i worker => ?_⟩
  · have quiet := act.quiet (fun same => other (main.trans same.symm))
    exact (ends.main main).mono quiet.created quiet.logOpen quiet.listening quiet.exited
  · rw [← ends.exited i worker]
    cases act with
    | @refused _ j =>
        have apart : i ≠ j := by
          rintro rfl
          exact other worker
        simp only [Function.update_of_ne apart]
    | @call _ j d c _ call => rw [(perform_calm g j d c call).exited]
    | create | created | exit | shutdown | close | join | joined | fclose | reset | accept | lock
    | number | increment | unlock | dropped | receive | again => exact Iff.rfl

theorem ends_stable : Stable (Turn files) (Ends (n := n)) where
  own := by
    intro p g l g' l' acted ends
    cases p with
    | main => exact ends.main_step acted.2
    | network => exact ⟨nofun, nofun, nofun⟩
    | worker i => exact ends.worker_step acted.2
  others := by
    intro p q g l g' l' m apart acted _ ends
    exact ends.others apart.symm acted.2

end

/-! Runs. -/

section
variable {files : Bytes → Option Entry} {s t : State (Party n) (Shared n) Stage}

theorem ends_reachable (run : Run (Turn files) (start n) s) (p : Party n) :
    Ends p s.shared (s.locals p) := by
  refine ends_stable.run run (fun p => ⟨?_, ?_, ?_⟩) p
  · rintro rfl
    exact ⟨rfl, Nat.zero_le n, rfl⟩
  · rintro i rfl
    rfl
  · rintro i rfl
    simp [start]

theorem exited_of_closed (run : Run (Turn files) (start n) s) (closed : s.shared.logOpen = false)
    (i : Fin n) : s.locals (.worker i) = .exited := by
  have main := (ends_reachable run .main).main rfl
  have all : ∀ i, s.shared.exited i = true := by
    cases place : s.locals .main with
    | finished =>
        rw [place] at main
        exact main
    | _ =>
        rw [place] at main
        simp [MainAt, closed] at main
  exact ((ends_reachable run (.worker i)).exited i rfl).mp (all i)

theorem step_log_closed (run : Run (Turn files) (start n) s) (closed : s.shared.logOpen = false)
    (move : Step (Turn files) s t) :
    t.shared.log = s.shared.log ∧ t.shared.logOpen = false := by
  have main := (ends_reachable run .main).main rfl
  obtain ⟨p, acted⟩ := move
  cases p with
  | main =>
      generalize s.locals .main = place at main acted
      obtain ⟨_, act⟩ := acted
      cases act with
      | create | created | exit | shutdown | close | join | joined =>
          simp [MainAt, closed] at main
      | fclose => exact ⟨rfl, rfl⟩
  | network =>
      generalize s.locals .network = place at acted
      obtain ⟨_, act⟩ := acted
      cases act with
      | reset => exact ⟨rfl, closed⟩
  | worker i =>
      rw [exited_of_closed run closed i] at acted
      cases acted.2

theorem step_listening (move : Step (Turn files) s t) (deaf : s.shared.listening = false) :
    t.shared.accepted = s.shared.accepted ∧ t.shared.listening = false := by
  obtain ⟨p, acted⟩ := move
  generalize s.locals p = place at acted
  obtain ⟨_, act⟩ := acted
  cases act with
  | accept _ _ hearing =>
      rw [deaf] at hearing
      cases hearing
  | @call _ i d c _ call =>
      have calm := perform_calm s.shared i d c call
      exact ⟨calm.accepted, calm.listening deaf⟩
  | create | created | exit | close | join | joined | fclose | reset | refused | lock | number
  | increment | unlock | dropped | receive | again => exact ⟨rfl, deaf⟩
  | shutdown => exact ⟨rfl, rfl⟩

/-- Behind the `shutdown` of the listening socket no connection is accepted, and nothing is written to
the log once it is closed. -/
theorem shutdown_safe (run : Run (Turn files) (start n) s) (more : Run (Turn files) s t) :
    (s.shared.listening = false → t.shared.accepted = s.shared.accepted) ∧
      (s.shared.logOpen = false → t.shared.log = s.shared.log) := by
  constructor
  · intro deaf
    have both : t.shared.accepted = s.shared.accepted ∧ t.shared.listening = false := by
      induction more with
      | refl => exact ⟨rfl, deaf⟩
      | tail _ move ih =>
          obtain ⟨same, still⟩ := step_listening move ih.2
          exact ⟨same.trans ih.1, still⟩
    exact both.1
  · intro closed
    have both : t.shared.log = s.shared.log ∧ t.shared.logOpen = false := by
      induction more with
      | refl => exact ⟨rfl, closed⟩
      | tail path move ih =>
          obtain ⟨same, still⟩ := step_log_closed (run.trans path) ih.2 move
          exact ⟨same.trans ih.1, still⟩
    exact both.1

theorem shutdown_safe_trace : ∃ s t : State (Party 1) (Shared 1) Stage,
    Run (Turn fun _ => none) (start 1) s ∧ Run (Turn fun _ => none) s t ∧
      s.locals .main = .finished ∧ s.shared.listening = false ∧ s.shared.logOpen = false ∧
      s.shared.log ≠ [] ∧ t.shared.accepted = s.shared.accepted ∧ t.shared.log = s.shared.log := by
  obtain ⟨g, conn, path, frame, same, found, _⟩ := exists_halfway
  have calm : g.crashed = false := by rw [frame]; rfl
  have here : g.fds 5 = some (.conn 0) := by rw [frame]; rfl
  obtain ⟨g', sent, frame', _⟩ := @run_calls (fun _ => none) 1 (created 1).locals g 0 5 0 0 conn
    [.send traces.buff] [.shutdown, .fputs (ascii "\n")] (by decide) calm here found (by rw [same])
    (by rw [same])
  have path := path.trans sent
  rw [frame'] at path
  generalize g'.conns = conns, g'.log = log at path
  rw [frame] at path
  have path := path.tail (.solo _ _ ⟨rfl, .call nofun⟩)
  have path := path.tail (.solo _ _ ⟨rfl, .call nofun⟩)
  have path := path.tail (.solo _ _ ⟨rfl, .again⟩)
  have path := path.tail (.turn .main ⟨rfl, .created (Nat.le_refl 1)⟩)
  have path := path.tail (.turn .main ⟨rfl, .exit⟩)
  have path := path.tail (.turn .main ⟨rfl, .shutdown⟩)
  have path := path.tail (.turn .main ⟨rfl, .close⟩)
  have path := path.tail (.turn (.worker 0) ⟨rfl, .refused Nat.zero_lt_one (.inr rfl)⟩)
  have path := path.tail (.turn .main ⟨rfl, .join 0 rfl⟩)
  have path := path.tail (.turn .main ⟨rfl, .joined (Nat.le_refl 1)⟩)
  have path := path.tail (.turn .main ⟨rfl, .fclose⟩)
  obtain ⟨accepted, logged⟩ := shutdown_safe path (.single (.turn .network ⟨rfl, .reset 0 .broken⟩))
  refine ⟨_, _, path, .single (.turn .network ⟨rfl, .reset 0 .broken⟩), rfl, rfl, rfl, ?_,
    accepted rfl, logged rfl⟩
  exact List.append_ne_nil_of_right_ne_nil _ (List.cons_ne_nil _ _)

end

end CudaOpenMp.Server
