import CudaOpenMp.Matching.PipelineCore

/-!
What holds of the two threads of `test_all_cpu.cpp` in every state of every run, and that `main`
comes to its end.
-/

namespace CudaOpenMp.Pipeline

open Interleaving Monitors

variable {α : Type}

def loadedCases (tests : List α) : List (LoadedCase α) :=
  tests.zipIdx.map fun test => ⟨test.1, 2 * test.2, 2 * test.2 + 1⟩

def handled (lc : LoadedCase α) : List (Event α) := [.processed lc, .freed lc.hT, .freed lc.hS]

def events (tests : List α) (count : Nat) : List (Event α) :=
  ((loadedCases tests).take count).flatMap handled

theorem loadedCases_length (tests : List α) : (loadedCases tests).length = tests.length := by
  simp [loadedCases]

theorem loadedCases_getElem? (tests : List α) (i : Nat) :
    (loadedCases tests)[i]? = tests[i]?.map fun tc => ⟨tc, 2 * i, 2 * i + 1⟩ := by
  rw [loadedCases, List.getElem?_map, List.getElem?_zipIdx]
  cases tests[i]? <;> simp

theorem events_succ {tests : List α} {count : Nat} {lc : LoadedCase α}
    (found : (loadedCases tests)[count]? = some lc) :
    events tests (count + 1) = events tests count ++ handled lc := by
  rw [events, List.take_add_one, found, List.flatMap_append, events]
  simp

theorem drop_eq_cons {β : Type} {list rest : List β} {first : β} {n : Nat}
    (split : list.drop n = first :: rest) :
    n < list.length ∧ list[n]? = some first ∧ list.drop (n + 1) = rest := by
  have bound : n < list.length := by
    by_contra beyond
    rw [List.drop_eq_nil_of_le (Nat.not_lt.mp beyond)] at split
    cases split
  rw [List.drop_eq_getElem_cons bound] at split
  cases split
  exact ⟨bound, List.getElem?_eq_getElem bound, rfl⟩

def Loading.standing : Loading α → Standing Unit
  | .push _ | .unlockPush | .setDone | .unlockDone => .inside
  | .next | .loadT _ | .loadS _ _ | .lockPush _ | .notifyOne | .lockDone | .notifyAll | .finish
  | .returned => .outside

def Consuming.standing : Consuming α → Standing Unit
  | .test | .wait | .check | .take | .leave | .unlock _ => .inside
  | .waiting => .waiting ()
  | .head | .lock | .process _ | .freeT _ | .freeS _ | .count | .join | .finished => .outside

def Local.standing : Local α → Standing Unit
  | .producer place _ => place.standing
  | .main place _ => place.standing

def Loading.isDone : Loading α → Bool
  | .unlockDone | .notifyAll | .finish | .returned => true
  | _ => false

def Loading.isReturned : Loading α → Bool
  | .returned => true
  | _ => false

/-- Something has changed for the consumer, and the notification is still to come. -/
def Loading.announces : Loading α → Bool
  | .unlockPush | .notifyOne | .unlockDone | .notifyAll => true
  | _ => false

/-- The case in hand and the cases to be loaded, when `pushed` cases have been pushed. -/
def Loading.Fits (tests : List α) (allocated pushed : Nat) (todo : List α) : Loading α → Prop
  | .next | .unlockPush | .notifyOne => tests.drop pushed = todo ∧ allocated = 2 * pushed
  | .loadT tc => tests.drop pushed = tc :: todo ∧ allocated = 2 * pushed
  | .loadS tc hT =>
      tests.drop pushed = tc :: todo ∧ hT = 2 * pushed ∧ allocated = 2 * pushed + 1
  | .lockPush lc | .push lc => tests.drop pushed = lc.tc :: todo ∧
      lc.hT = 2 * pushed ∧ lc.hS = 2 * pushed + 1 ∧ allocated = 2 * (pushed + 1)
  | .lockDone | .setDone | .unlockDone | .notifyAll | .finish | .returned =>
      pushed = tests.length ∧ todo = [] ∧ allocated = 2 * pushed

def Consuming.Fits (tests : List α) (taken consumed : Nat) (log : List (Event α)) :
    Consuming α → Prop
  | .head => taken = consumed ∧ log = events tests consumed
  | .lock | .test | .wait | .waiting | .check | .take =>
      consumed < tests.length ∧ taken = consumed ∧ log = events tests consumed
  | .leave => False
  | .unlock lc | .process lc => taken = consumed + 1 ∧
      (loadedCases tests)[consumed]? = some lc ∧ log = events tests consumed
  | .freeT lc => taken = consumed + 1 ∧ (loadedCases tests)[consumed]? = some lc ∧
      log = events tests consumed ++ [.processed lc]
  | .freeS lc => taken = consumed + 1 ∧ (loadedCases tests)[consumed]? = some lc ∧
      log = events tests consumed ++ [.processed lc, .freed lc.hT]
  | .count => taken = consumed + 1 ∧ log = events tests (consumed + 1)
  | .join | .finished =>
      consumed = tests.length ∧ taken = consumed ∧ log = events tests consumed

/-- What `main` knows of the queue and of the flag from its last test. -/
def Consuming.Tested (queue : List (LoadedCase α)) (done : Bool) : Consuming α → Prop
  | .wait => queue = [] ∧ done = false
  | .check => queue ≠ [] ∨ done = true
  | .take => queue ≠ []
  | _ => True

structure Good (tests : List α) (g : Shared α) (place : Loading α) (todo : List α)
    (place' : Consuming α) (consumed pushed taken : Nat) : Prop where
  loads : place.Fits tests g.allocated pushed todo
  consumes : place'.Fits tests taken consumed g.log
  taken_le : taken ≤ pushed
  pushed_le : pushed ≤ tests.length
  queue : g.queue = ((loadedCases tests).take pushed).drop taken
  done : g.done = place.isDone
  returned : g.producerReturned = place.isReturned
  tested : place'.Tested g.queue g.done
  asleep : g.monitor.asleep .main ≠ none →
    (g.queue = [] ∧ g.done = false) ∨ place.announces = true

theorem tested_outside {place : Consuming α} (outside : place.standing ≠ .inside)
    (queue : List (LoadedCase α)) (done : Bool) : place.Tested queue done := by
  cases place with
  | test | wait | check | take | leave | unlock => exact (outside rfl).elim
  | head | lock | waiting | process | freeT | freeS | count | join | finished => trivial

section
variable {opensT opensS : α → Bool} {tests todo todo' : List α} {g g' : Shared α}
  {place place₁ : Loading α} {place' place₁' : Consuming α} {consumed consumed' pushed taken : Nat}

theorem Good.produces (good : Good tests g place todo place' consumed pushed taken)
    (exclusive : place.standing = .inside → place'.standing ≠ .inside)
    (awake : g.monitor.asleep .producer = none)
    (move : Produces opensT opensS g place todo g' place₁ todo') :
    ∃ pushed', Good tests g' place₁ todo' place' consumed pushed' taken := by
  obtain ⟨loads, consumes, taken_le, pushed_le, queue, done, returned, tested, asleep⟩ := good
  cases move with
  | next | failT _ | failS _ | lockPush _ | lockDone _ =>
      exact ⟨pushed, loads, consumes, taken_le, pushed_le, queue, done, returned, tested, asleep⟩
  | last =>
      have all := List.drop_eq_nil_iff.mp loads.1
      exact ⟨pushed, ⟨by omega, rfl, loads.2⟩, consumes, taken_le, pushed_le, queue, done, returned, tested,
        asleep⟩
  | loadT _ =>
      exact ⟨pushed, ⟨loads.1, loads.2, by simp [loads.2]⟩, consumes, taken_le, pushed_le, queue,
        done, returned, tested, asleep⟩
  | loadS _ =>
      obtain ⟨split, hT, allocated⟩ := loads
      exact ⟨pushed, ⟨split, hT, allocated, by simp only; omega⟩, consumes, taken_le, pushed_le,
        queue, done, returned, tested, asleep⟩
  | @push lc _ =>
      obtain ⟨split, hT, hS, allocated⟩ := loads
      obtain ⟨bound, found, rest⟩ := drop_eq_cons split
      refine ⟨pushed + 1, ⟨rest, allocated⟩, consumes, by omega, bound, ?_, done, returned,
        tested_outside (exclusive rfl) _ _, fun _ => Or.inr rfl⟩
      have loaded : (loadedCases tests)[pushed]? = some lc := by
        rw [loadedCases_getElem?, found, Option.map_some, ← hS, ← hT]
      have room : taken ≤ ((loadedCases tests).take pushed).length := by
        rw [List.length_take, loadedCases_length]
        omega
      simp only [queue, List.take_add_one, loaded, Option.toList_some,
        List.drop_append_of_le_length room]
  | unlockPush | unlockDone =>
      exact ⟨pushed, loads, consumes, taken_le, pushed_le, queue, done, returned, tested,
        fun _ => Or.inr rfl⟩
  | @notifyOne _ m signal =>
      have up : m.asleep .main = none := by
        by_contra still
        obtain ⟨⟨⟩, found⟩ := Option.ne_none_iff_exists'.mp still
        refine signal.none_asleep (i := .main) ?_ found
        intro p sleeping
        cases p with
        | producer =>
            rw [awake] at sleeping
            cases sleeping
        | main => rfl
      exact ⟨pushed, loads, consumes, taken_le, pushed_le, queue, done, returned, tested,
        fun still => (still up).elim⟩
  | setDone =>
      exact ⟨pushed, loads, consumes, taken_le, pushed_le, queue, rfl, returned,
        tested_outside (exclusive rfl) _ _, fun _ => Or.inr rfl⟩
  | notifyAll =>
      refine ⟨pushed, loads, consumes, taken_le, pushed_le, queue, done, returned, tested, ?_⟩
      intro still
      obtain ⟨⟨⟩, found⟩ := Option.ne_none_iff_exists'.mp still
      exact ((Monitor.notifyAll_asleep found).1 rfl).elim
  | finish =>
      exact ⟨pushed, loads, consumes, taken_le, pushed_le, queue, done, rfl, tested, asleep⟩

theorem Good.all_pushed (good : Good tests g place todo place' consumed pushed taken)
    (done : g.done = true) : pushed = tests.length := by
  have set := good.done
  rw [done] at set
  have loads := good.loads
  cases place with
  | unlockDone | notifyAll | finish | returned => exact loads.1
  | next | loadT | loadS | lockPush | push | unlockPush | notifyOne | lockDone | setDone =>
      cases set

theorem Good.queue_length (good : Good tests g place todo place' consumed pushed taken) :
    g.queue.length = pushed - taken := by
  have pushed_le := good.pushed_le
  rw [good.queue, List.length_drop, List.length_take, loadedCases_length]
  omega

theorem Good.not_empty (good : Good tests g place todo .check consumed pushed taken) :
    g.queue ≠ [] := by
  rcases good.tested with some | done
  · exact some
  · intro empty
    have length := good.queue_length
    have all := good.all_pushed done
    obtain ⟨more, same, _⟩ := good.consumes
    rw [empty, List.length_nil] at length
    omega

theorem Good.consumes_step (good : Good tests g place todo place' consumed pushed taken)
    (awake : place'.standing ≠ .waiting () → g.monitor.asleep .main = none)
    (move : Consumes tests.length g place' consumed g' place₁' consumed') :
    ∃ taken', Good tests g' place todo place₁' consumed' pushed taken' := by
  have present := good
  obtain ⟨loads, consumes, taken_le, pushed_le, queue, done, returned, tested, asleep⟩ := good
  cases move with
  | head more =>
      exact ⟨taken, loads, ⟨more, consumes⟩, taken_le, pushed_le, queue, done, returned, trivial,
        asleep⟩
  | stop all =>
      obtain ⟨same, log⟩ := consumes
      exact ⟨taken, loads, ⟨by omega, same, log⟩, taken_le, pushed_le, queue, done, returned, trivial,
        asleep⟩
  | lock _ =>
      exact ⟨taken, loads, consumes, taken_le, pushed_le, queue, done, returned, trivial, asleep⟩
  | pass ready =>
      refine ⟨taken, loads, consumes, taken_le, pushed_le, queue, done, returned, ?_, asleep⟩
      simpa [Consuming.Tested] using ready
  | fail idle =>
      refine ⟨taken, loads, consumes, taken_le, pushed_le, queue, done, returned, ?_, asleep⟩
      simpa [Consuming.Tested] using idle
  | wait =>
      exact ⟨taken, loads, consumes, taken_le, pushed_le, queue, done, returned, trivial,
        fun _ => Or.inl tested⟩
  | resume up _ =>
      exact ⟨taken, loads, consumes, taken_le, pushed_le, queue, done, returned, trivial, asleep⟩
  | empty none => exact (present.not_empty none).elim
  | some found =>
      exact ⟨taken, loads, consumes, taken_le, pushed_le, queue, done, returned, found, asleep⟩
  | leave => exact consumes.elim
  | @take _ lc rest found =>
      obtain ⟨more, same, log⟩ := consumes
      have up := awake nofun
      rw [queue] at found
      obtain ⟨bound, first, later⟩ := drop_eq_cons found
      rw [List.length_take] at bound
      rw [List.getElem?_take_of_lt (by omega), same] at first
      exact ⟨taken + 1, loads, ⟨by rw [same], first, log⟩, by omega, pushed_le, later.symm, done,
        returned, trivial, fun still => (still up).elim⟩
  | unlock =>
      exact ⟨taken, loads, consumes, taken_le, pushed_le, queue, done, returned, trivial, asleep⟩
  | process =>
      obtain ⟨same, found, log⟩ := consumes
      exact ⟨taken, loads, ⟨same, found, by rw [log]⟩, taken_le, pushed_le, queue, done, returned,
        trivial, asleep⟩
  | freeT =>
      obtain ⟨same, found, log⟩ := consumes
      exact ⟨taken, loads, ⟨same, found, by simp [log]⟩, taken_le, pushed_le, queue, done, returned,
        trivial, asleep⟩
  | freeS =>
      obtain ⟨same, found, log⟩ := consumes
      refine ⟨taken, loads, ⟨same, ?_⟩, taken_le, pushed_le, queue, done, returned, trivial, asleep⟩
      simp [events_succ found, log, handled]
  | count =>
      obtain ⟨same, log⟩ := consumes
      exact ⟨taken, loads, ⟨same, log⟩, taken_le, pushed_le, queue, done, returned, trivial, asleep⟩
  | join _ =>
      exact ⟨taken, loads, consumes, taken_le, pushed_le, queue, done, returned, trivial, asleep⟩

end

/-! Every state of every run. -/

structure Threads (s : State Party (Shared α) (Local α)) (place : Loading α) (todo : List α)
    (place' : Consuming α) (consumed : Nat) : Prop where
  producer : s.locals .producer = .producer place todo
  main : s.locals .main = .main place' consumed

structure Inv (tests : List α) (s : State Party (Shared α) (Local α)) : Prop where
  consistent : Consistent s.shared.monitor fun p => (s.locals p).standing
  good : ∃ place todo place' consumed pushed taken, Threads s place todo place' consumed ∧
    Good tests s.shared place todo place' consumed pushed taken

section
variable {opensT opensS : α → Bool} {tests : List α} {s t : State Party (Shared α) (Local α)}

theorem act_call {n : Nat} {p : Party} {g g' : Shared α} {l l' : Local α}
    (act : Act opensT opensS n p g l g' l') :
    Call p g.monitor l.standing g'.monitor l'.standing := by
  rcases act with work | spurious
  · cases work with
    | producer _ move =>
        cases move with
        | lockPush free | lockDone free => exact .lock free
        | unlockPush | unlockDone => exact .unlock
        | notifyOne signal => exact .stay signal.owner fun _ _ asleep => signal.asleep asleep
        | notifyAll => exact .stay rfl fun _ _ asleep => (Monitor.notifyAll_asleep asleep).2
        | next | last | loadT | failT | loadS | failS | push | setDone | finish =>
            exact .stay rfl fun _ _ asleep => asleep
    | main _ move =>
        cases move with
        | lock free => exact .lock free
        | resume awake free => exact .relock free awake
        | wait => exact .wait ()
        | leave | unlock => exact .unlock
        | head | stop | pass | fail | empty | some | take | process | freeT | freeS | count
        | join => exact .stay rfl fun _ _ asleep => asleep
  · cases spurious
    exact .stay rfl fun _ _ asleep => (Monitor.wake_asleep asleep).2

theorem Good.wake {g : Shared α} {place : Loading α} {todo : List α} {place' : Consuming α}
    {consumed pushed taken : Nat} (good : Good tests g place todo place' consumed pushed taken)
    (p : Party) : Good tests { g with monitor := g.monitor.wake p } place todo place' consumed
      pushed taken := by
  obtain ⟨loads, consumes, taken_le, pushed_le, queue, done, returned, tested, asleep⟩ := good
  refine ⟨loads, consumes, taken_le, pushed_le, queue, done, returned, tested, ?_⟩
  intro still
  obtain ⟨c, found⟩ := Option.ne_none_iff_exists'.mp still
  apply asleep
  rw [(Monitor.wake_asleep found).2]
  exact nofun

theorem Inv.step (inv : Inv tests s) (move : Step (Act opensT opensS tests.length) s t) :
    Inv tests t := by
  have consistent : Consistent t.shared.monitor fun p => (t.locals p).standing :=
    inv.consistent.step (fun g : Shared α => g.monitor) (fun _ (l : Local α) => l.standing)
      (fun _ _ _ _ _ act => act_call act) move
  obtain ⟨place, todo, place', consumed, pushed, taken, ⟨producer, main⟩, good⟩ := inv.good
  refine ⟨consistent, ?_⟩
  have standsProducer : (s.locals .producer).standing = place.standing := by rw [producer]; rfl
  have standsMain : (s.locals .main).standing = place'.standing := by rw [main]; rfl
  have exclusive (inside : place.standing = .inside) : place'.standing ≠ .inside := by
    intro there
    cases inv.consistent.exclusive (standsProducer.trans inside) (standsMain.trans there)
  have awake : s.shared.monitor.asleep .producer = none := by
    apply inv.consistent.awake
    intro c
    rw [standsProducer]
    cases place <;> exact nofun
  have awake' (elsewhere : place'.standing ≠ .waiting ()) : s.shared.monitor.asleep .main = none := by
    apply inv.consistent.awake
    rintro ⟨⟩
    rwa [standsMain]
  cases move with
  | turn p act =>
      rcases act with work | spurious
      · generalize here : s.locals p = l at work
        cases work with
        | producer _ move =>
            rw [producer] at here
            cases here
            obtain ⟨pushed', good'⟩ := good.produces exclusive awake move
            exact ⟨_, _, place', consumed, pushed', taken, ⟨by simp, by simpa using main⟩, good'⟩
        | main _ move =>
            rw [main] at here
            cases here
            obtain ⟨taken', good'⟩ := good.consumes_step awake' move
            exact ⟨place, todo, _, _, pushed, taken', ⟨by simpa using producer, by simp⟩, good'⟩
      · cases spurious
        rw [Function.update_eq_self]
        exact ⟨place, todo, place', consumed, pushed, taken, ⟨producer, main⟩, good.wake p⟩

theorem start_inv (tests : List α) : Inv tests (start tests) where
  consistent := by
    have same : (fun p => ((start tests).locals p).standing) = fun _ => Standing.outside := by
      funext p
      cases p <;> rfl
    rw [same]
    exact .start
  good := by
    refine ⟨.next, tests, .head, 0, 0, 0, ⟨rfl, rfl⟩, ⟨rfl, rfl⟩, ⟨rfl, ?_⟩, Nat.le_refl _,
      Nat.zero_le _, ?_, rfl, rfl, trivial, fun still => (still rfl).elim⟩
    · simp [start, events]
    · simp [start]

theorem run_inv (run : Run (Act opensT opensS tests.length) (start tests) s) : Inv tests s :=
  run.invariant (start_inv tests) fun _ _ move inv => inv.step move

end

section
variable {tests todo : List α} {g : Shared α} {place : Loading α} {place' : Consuming α}
  {consumed pushed taken : Nat}

theorem events_prefix (tests : List α) {first last : Nat} (before : first ≤ last) :
    events tests first <+: events tests last := by
  obtain ⟨rest, same⟩ := List.take_prefix_take_left (l := loadedCases tests) before
  rw [events, events, ← same, List.flatMap_append]
  exact List.prefix_append _ _

theorem Good.log_prefix (good : Good tests g place todo place' consumed pushed taken) :
    g.log <+: events tests tests.length := by
  have taken_le := good.taken_le
  have pushed_le := good.pushed_le
  have consumes := good.consumes
  have partway {lc : LoadedCase α} {done : List (Event α)}
      (found : (loadedCases tests)[consumed]? = some lc) (next : taken = consumed + 1)
      (some : done <+: handled lc) :
      events tests consumed ++ done <+: events tests tests.length := by
    have whole := events_prefix tests (by omega : consumed + 1 ≤ tests.length)
    rw [events_succ found] at whole
    exact ((List.prefix_append_right_inj _).mpr some).trans whole
  cases place' with
  | head =>
      rw [consumes.2]
      have same := consumes.1
      exact events_prefix tests (by omega)
  | lock | test | wait | waiting | check | take =>
      rw [consumes.2.2]
      have more := consumes.1
      exact events_prefix tests (by omega)
  | leave => exact consumes.elim
  | unlock | process =>
      have more := consumes.1
      rw [consumes.2.2]
      exact events_prefix tests (by omega)
  | freeT lc =>
      rw [consumes.2.2]
      exact partway consumes.2.1 consumes.1 ⟨[.freed lc.hT, .freed lc.hS], rfl⟩
  | freeS lc =>
      rw [consumes.2.2]
      exact partway consumes.2.1 consumes.1 ⟨[.freed lc.hS], rfl⟩
  | count =>
      have same := consumes.1
      rw [consumes.2]
      exact events_prefix tests (by omega)
  | join | finished =>
      rw [consumes.2.2, consumes.1]

theorem Good.all_loaded (good : Good tests g place todo place' consumed pushed taken)
    (all : taken = tests.length) : g.allocated = 2 * tests.length := by
  have taken_le := good.taken_le
  have pushed_le := good.pushed_le
  have last : pushed = tests.length := by omega
  have loads := good.loads
  have none {tc : α} (more : tests.drop pushed = tc :: todo) : False := by
    have bound := (drop_eq_cons more).1
    omega
  cases place with
  | next | unlockPush | notifyOne => rw [loads.2, last]
  | loadT | loadS | lockPush | push => exact (none loads.1).elim
  | lockDone | setDone | unlockDone | notifyAll | finish | returned => rw [loads.2.2, last]

end

section
variable {opensT opensS : α → Bool} {tests todo : List α} {g : Shared α} {place : Loading α}
  {place' : Consuming α} {consumed pushed taken : Nat}

theorem Good.exists_produces (good : Good tests g place todo place' consumed pushed taken)
    (ready : place.standing = .inside ∨ g.monitor.owner = none) (going : place.isReturned = false) :
    ∃ g' place₁ todo', Produces opensT opensS g place todo g' place₁ todo' := by
  have loads := good.loads
  cases place with
  | next =>
      cases todo with
      | nil => exact ⟨_, _, _, .last⟩
      | cons tc todo => exact ⟨_, _, _, .next⟩
  | loadT tc =>
      cases opens : opensT tc with
      | true => exact ⟨_, _, _, .loadT opens⟩
      | false => exact ⟨_, _, _, .failT opens⟩
  | loadS tc hT =>
      cases opens : opensS tc with
      | true => exact ⟨_, _, _, .loadS opens⟩
      | false => exact ⟨_, _, _, .failS opens⟩
  | lockPush => exact ⟨_, _, _, .lockPush (ready.resolve_left nofun)⟩
  | push => exact ⟨_, _, _, .push⟩
  | unlockPush => exact ⟨_, _, _, .unlockPush⟩
  | notifyOne =>
      obtain ⟨m, signal⟩ := g.monitor.exists_signal ()
      exact ⟨_, _, _, .notifyOne signal⟩
  | lockDone => exact ⟨_, _, _, .lockDone (ready.resolve_left nofun)⟩
  | setDone => exact ⟨_, _, _, .setDone⟩
  | unlockDone => exact ⟨_, _, _, .unlockDone⟩
  | notifyAll => exact ⟨_, _, _, .notifyAll⟩
  | finish => exact ⟨_, _, _, .finish⟩
  | returned => cases going

theorem Good.exists_consumes (good : Good tests g place todo place' consumed pushed taken)
    (ready : place'.standing = .inside ∨ g.monitor.owner = none ∧ place.isReturned = true)
    (going : place' ≠ .finished) :
    ∃ g' place₁' consumed', Consumes tests.length g place' consumed g' place₁' consumed' := by
  have tested := good.tested
  have consumes := good.consumes
  cases place' with
  | head =>
      by_cases more : consumed < tests.length
      · exact ⟨_, _, _, .head more⟩
      · exact ⟨_, _, _, .stop more⟩
  | lock => exact ⟨_, _, _, .lock (ready.resolve_left nofun).1⟩
  | test =>
      cases result : !g.queue.isEmpty || g.done with
      | true => exact ⟨_, _, _, .pass result⟩
      | false => exact ⟨_, _, _, .fail result⟩
  | wait => exact ⟨_, _, _, .wait⟩
  | waiting =>
      obtain ⟨free, returned⟩ := ready.resolve_left nofun
      refine ⟨_, _, _, .resume ?_ free⟩
      by_contra asleep
      have done := good.done
      rcases good.asleep asleep with ⟨_, unset⟩ | announces
      · cases place with
        | returned => cases unset.symm.trans done
        | _ => cases returned
      · cases place with
        | returned => cases announces
        | _ => cases returned
  | check => exact ⟨_, _, _, .some good.not_empty⟩
  | take =>
      obtain ⟨lc, rest, found⟩ := List.exists_cons_of_ne_nil tested
      exact ⟨_, _, _, .take found⟩
  | leave => exact consumes.elim
  | unlock => exact ⟨_, _, _, .unlock⟩
  | process => exact ⟨_, _, _, .process⟩
  | freeT => exact ⟨_, _, _, .freeT⟩
  | freeS => exact ⟨_, _, _, .freeS⟩
  | count => exact ⟨_, _, _, .count⟩
  | join =>
      refine ⟨_, _, _, .join ?_⟩
      rw [good.returned]
      exact (ready.resolve_left nofun).2
  | finished => exact (going rfl).elim

end

section
variable {opensT opensS : α → Bool} {tests : List α} {s t : State Party (Shared α) (Local α)}

theorem Inv.exists_step (inv : Inv tests s) (running : s.shared.exited = false)
    (going : ∀ consumed, s.locals .main ≠ .main .finished consumed) :
    ∃ t, Step (Work opensT opensS tests.length) s t := by
  obtain ⟨place, todo, place', consumed, pushed, taken, ⟨producer, main⟩, good⟩ := inv.good
  have unfinished : place' ≠ .finished := by
    rintro rfl
    exact going consumed main
  have standsProducer : (s.locals .producer).standing = place.standing := by rw [producer]; rfl
  have standsMain : (s.locals .main).standing = place'.standing := by rw [main]; rfl
  have produce (ready : place.standing = .inside ∨ s.shared.monitor.owner = none)
      (more : place.isReturned = false) : ∃ t, Step (Work opensT opensS tests.length) s t := by
    obtain ⟨g', place₁, todo', move⟩ := good.exists_produces ready more
    exact ⟨_, .turn .producer (by rw [producer]; exact .producer running move)⟩
  have consume (ready : place'.standing = .inside ∨
      s.shared.monitor.owner = none ∧ place.isReturned = true) :
      ∃ t, Step (Work opensT opensS tests.length) s t := by
    obtain ⟨g', place₁', consumed', move⟩ := good.exists_consumes ready unfinished
    exact ⟨_, .turn .main (by rw [main]; exact .main running move)⟩
  cases owner : s.shared.monitor.owner with
  | some p =>
      have inside := (inv.consistent.owner p).mp owner
      cases p with
      | producer =>
          rw [standsProducer] at inside
          apply produce (Or.inl inside)
          cases place <;> first | rfl | cases inside
      | main =>
          rw [standsMain] at inside
          exact consume (Or.inl inside)
  | none =>
      cases returned : place.isReturned with
      | false => exact produce (Or.inr owner) returned
      | true => exact consume (Or.inr ⟨owner, returned⟩)

end

/-! A measure of what is left to do. A notification costs more than the sleeper gains by it. -/

def Loading.rank (todo : List α) : Loading α → Nat
  | .next => 12 * todo.length + 20
  | .loadT _ => 12 * todo.length + 31
  | .loadS _ _ => 12 * todo.length + 30
  | .lockPush _ => 12 * todo.length + 29
  | .push _ => 12 * todo.length + 28
  | .unlockPush => 12 * todo.length + 27
  | .notifyOne => 12 * todo.length + 26
  | .lockDone => 19
  | .setDone => 18
  | .unlockDone => 17
  | .notifyAll => 16
  | .finish => 5
  | .returned => 4

def Consuming.rank (left : Nat) (asleep : Bool) : Consuming α → Nat
  | .head => 14 * left + 13
  | .lock => 14 * left + 12
  | .waiting => if asleep then 14 * left + 9 else 14 * left + 12
  | .test => 14 * left + 11
  | .wait => 14 * left + 10
  | .check => 14 * left + 8
  | .take | .leave => 14 * left + 7
  | .unlock _ => 14 * left + 6
  | .process _ => 14 * left + 5
  | .freeT _ => 14 * left + 4
  | .freeS _ => 14 * left + 3
  | .count => 14 * left + 2
  | .join => 1
  | .finished => 0

def Local.rank (n : Nat) (g : Shared α) : Local α → Nat
  | .producer place todo => place.rank todo
  | .main place consumed => place.rank (n - consumed) (g.monitor.asleep .main).isSome

def rank (n : Nat) (s : State Party (Shared α) (Local α)) : Nat :=
  (if s.shared.exited then 0 else 1) + (s.locals .producer).rank n s.shared +
    (s.locals .main).rank n s.shared

theorem Consuming.rank_woken (place : Consuming α) (left : Nat) (asleep asleep' : Bool) :
    place.rank left asleep' ≤ place.rank left asleep + 3 := by
  cases place with
  | waiting => cases asleep <;> cases asleep' <;> simp [Consuming.rank]
  | _ => simp [Consuming.rank]

section
variable {opensT opensS : α → Bool} {tests todo todo' : List α} {g g' : Shared α}
  {s t : State Party (Shared α) (Local α)}

theorem Produces.rank_lt {place place' : Loading α}
    (move : Produces opensT opensS g place todo g' place' todo') (running : g.exited = false)
    (main : Consuming α) (left : Nat) :
    (if g'.exited then 0 else 1) + place'.rank todo' +
        main.rank left (g'.monitor.asleep .main).isSome <
      (if g.exited then 0 else 1) + place.rank todo +
        main.rank left (g.monitor.asleep .main).isSome := by
  have woken (asleep asleep' : Bool) := main.rank_woken left asleep asleep'
  cases move with
  | @notifyOne _ m _ =>
      have gain := woken (g.monitor.asleep .main).isSome (m.asleep .main).isSome
      simp only [Loading.rank]
      omega
  | notifyAll =>
      have gain := woken (g.monitor.asleep .main).isSome
        ((g.monitor.notifyAll ()).asleep .main).isSome
      simp only [Loading.rank]
      omega
  | failT | failS =>
      simp only [running, Bool.false_eq_true, if_false, if_true]
      omega
  | next | last | loadT | loadS | lockPush | push | unlockPush | lockDone | setDone | unlockDone
  | finish =>
      simp only [Loading.rank, List.length_cons, List.length_nil, Monitor.lock_asleep,
        Monitor.unlock_asleep]
      omega

theorem Good.rank_lt {place : Loading α} {place' place₁' : Consuming α}
    {consumed consumed' pushed taken : Nat}
    (good : Good tests g place todo place' consumed pushed taken)
    (awake : place'.standing ≠ .waiting () → g.monitor.asleep .main = none)
    (move : Consumes tests.length g place' consumed g' place₁' consumed') :
    g'.exited = g.exited ∧
      place₁'.rank (tests.length - consumed') (g'.monitor.asleep .main).isSome <
        place'.rank (tests.length - consumed) (g.monitor.asleep .main).isSome := by
  have consumes := good.consumes
  have taken_le := good.taken_le
  have pushed_le := good.pushed_le
  cases move with
  | resume up _ =>
      refine ⟨rfl, ?_⟩
      simp only [Consuming.rank, up, Option.isSome_none, Bool.false_eq_true, if_false]
      omega
  | wait =>
      refine ⟨rfl, ?_⟩
      simp only [Consuming.rank, Monitor.wait, Function.update_self, Option.isSome_some, if_true]
      omega
  | count =>
      refine ⟨rfl, ?_⟩
      have same := consumes.1
      simp only [Consuming.rank]
      omega
  | head | stop | lock | pass | fail | empty | some | leave | take | unlock | process | freeT
  | freeS | join =>
      refine ⟨rfl, ?_⟩
      simp only [Consuming.rank]
      omega

theorem Inv.rank_lt (inv : Inv tests s) (move : Step (Work opensT opensS tests.length) s t) :
    rank tests.length t < rank tests.length s := by
  obtain ⟨place, todo, place', consumed, pushed, taken, ⟨producer, main⟩, good⟩ := inv.good
  cases move with
  | turn p work =>
      generalize here : s.locals p = l at work
      cases work with
      | producer running move =>
          rw [producer] at here
          cases here
          have less := move.rank_lt running place' (tests.length - consumed)
          simpa [rank, Local.rank, producer, main] using less
      | main _ move =>
          rw [main] at here
          cases here
          have awake (elsewhere : place'.standing ≠ .waiting ()) :
              s.shared.monitor.asleep .main = none := by
            apply inv.consistent.awake
            rintro ⟨⟩
            rwa [main]
          obtain ⟨running, less⟩ := good.rank_lt awake move
          simp only [rank, Local.rank, producer, main, running, Function.update_self,
            Function.update_of_ne (by decide : Party.producer ≠ .main)]
          omega

/-- A run that never ends has spurious wake-ups without end. -/
theorem Inv.spurious_again (f : Nat → State Party (Shared α) (Local α)) (inv : Inv tests (f 0))
    (endless : ∀ k, Step (Act opensT opensS tests.length) (f k) (f (k + 1))) (start : Nat) :
    ∃ k ≥ start, Step Spurious (f k) (f (k + 1)) := by
  have kept (k : Nat) : Inv tests (f k) := by
    induction k with
    | zero => exact inv
    | succ k ih => exact ih.step (endless k)
  by_contra! never
  have works (k : Nat) (late : k ≥ start) :
      Step (Work opensT opensS tests.length) (f k) (f (k + 1)) := by
    have step := endless k
    generalize later : f (k + 1) = t at step
    cases step with
    | turn p act =>
        rcases act with work | spurious
        · exact .turn p work
        · refine (never k late ?_).elim
          rw [later]
          exact .turn p spurious
  have falls (k : Nat) : rank tests.length (f (start + k)) + k ≤ rank tests.length (f start) := by
    induction k with
    | zero => exact Nat.le_refl _
    | succ k ih =>
        have less := (kept (start + k)).rank_lt (works (start + k) (by omega))
        rw [show start + (k + 1) = start + k + 1 from rfl]
        omega
  have last := falls (rank tests.length (f start) + 1)
  omega

/-- Without further spurious wake-ups `main` comes to its end, or the process exits. -/
theorem Inv.exists_end (inv : Inv tests s) : ∃ t, Run (Act opensT opensS tests.length) s t ∧
    (t.shared.exited = true ∨ ∃ consumed, t.locals .main = .main .finished consumed) := by
  generalize left : rank tests.length s = r
  induction r using Nat.strong_induction_on generalizing s with
  | _ r ih =>
      by_cases ended : s.shared.exited = true ∨
          ∃ consumed, s.locals .main = .main .finished consumed
      · exact ⟨s, .refl, ended⟩
      · obtain ⟨running, going⟩ := not_or.mp ended
        obtain ⟨t, move⟩ := @Inv.exists_step _ opensT opensS _ _ inv
          (Bool.not_eq_true _ ▸ running) (not_exists.mp going)
        have less := inv.rank_lt move
        have act : Step (Act opensT opensS tests.length) s t := by
          cases move with
          | turn p work => exact .turn p (Or.inl work)
        obtain ⟨u, run, done⟩ := ih _ (by omega) (inv.step act) rfl
        exact ⟨u, .head act run, done⟩

end

/-! The program. -/

section
variable {opensT opensS : α → Bool} {tests : List α} {s t : State Party (Shared α) (Local α)}

/-- The process exits early only when a file cannot be opened. -/
theorem exited_of_missing (run : Run (Act opensT opensS tests.length) (start tests) s)
    (exited : s.shared.exited = true) : ∃ tc ∈ tests, opensT tc = false ∨ opensS tc = false := by
  induction run with
  | refl => cases exited
  | @tail s t run move ih =>
      obtain ⟨place, todo, place', consumed, pushed, taken, ⟨producer, main⟩, good⟩ :=
        (run_inv run).good
      have loads := good.loads
      have listed {tc : α} {rest : List α} (split : tests.drop pushed = tc :: rest) : tc ∈ tests :=
        List.mem_of_getElem? (drop_eq_cons split).2.1
      cases move with
      | turn p act =>
          rcases act with work | spurious
          · generalize here : s.locals p = l at work
            cases work with
            | producer running move =>
                rw [producer] at here
                cases here
                cases move with
                | failT missing => exact ⟨_, listed loads.1, Or.inl missing⟩
                | failS missing => exact ⟨_, listed loads.1, Or.inr missing⟩
                | _ => cases running.symm.trans exited
            | main running move =>
                cases move <;> cases running.symm.trans exited
          · cases spurious with
            | wake running _ => cases running.symm.trans exited

structure Correct (opensT opensS : α → Bool) (tests : List α)
    (s : State Party (Shared α) (Local α)) : Prop where
  inOrder : s.shared.log <+: events tests tests.length
  complete : ∀ consumed, s.locals .main = .main .finished consumed →
    s.shared.log = events tests tests.length ∧ s.shared.allocated = 2 * tests.length
  noBreak : ∀ consumed, s.locals .main ≠ .main .leave consumed
  notified : s.shared.monitor.asleep .main ≠ none → s.shared.queue ≠ [] ∨ s.shared.done = true →
    ∃ place todo, s.locals .producer = .producer place todo ∧ place.announces = true
  goesOn : s.shared.exited = true ∨ (∃ consumed, s.locals .main = .main .finished consumed) ∨
    ∃ t, Step (Work opensT opensS tests.length) s t
  ends : ∀ f : Nat → State Party (Shared α) (Local α), f 0 = s →
    (∀ k, Step (Act opensT opensS tests.length) (f k) (f (k + 1))) →
      ∀ start, ∃ k ≥ start, Step Spurious (f k) (f (k + 1))
  opened : (∀ tc ∈ tests, opensT tc = true ∧ opensS tc = true) → s.shared.exited = false

theorem main_processes_all (run : Run (Act opensT opensS tests.length) (start tests) s) :
    Correct opensT opensS tests s := by
  have inv := run_inv run
  obtain ⟨place, todo, place', consumed, pushed, taken, ⟨producer, main⟩, good⟩ := inv.good
  refine ⟨good.log_prefix, ?_, ?_, ?_, ?_, ?_, ?_⟩
  · intro count finished
    cases main.symm.trans finished
    obtain ⟨all, same, log⟩ := good.consumes
    exact ⟨by rw [log, all], good.all_loaded (by omega)⟩
  · intro count leaving
    cases main.symm.trans leaving
    exact good.consumes
  · intro asleep reason
    rcases good.asleep asleep with ⟨empty, unset⟩ | announces
    · rw [empty, unset] at reason
      simp at reason
    · exact ⟨place, todo, producer, announces⟩
  · by_cases exited : s.shared.exited = true
    · exact Or.inl exited
    · by_cases finished : ∃ consumed, s.locals .main = .main .finished consumed
      · exact Or.inr (Or.inl finished)
      · exact Or.inr (Or.inr (inv.exists_step (Bool.not_eq_true _ ▸ exited)
          (not_exists.mp finished)))
  · rintro f rfl endless
    exact inv.spurious_again f endless
  · intro opens
    by_contra exited
    obtain ⟨tc, member, missing⟩ := exited_of_missing run (Bool.not_eq_false _ ▸ exited)
    obtain ⟨first, second⟩ := opens tc member
    simp [first, second] at missing

end

theorem main_processes_all_six : ∃ s : State Party (Shared Nat) (Local Nat),
    Run (Act (fun _ => true) (fun _ => true) 6) (start [1, 2, 3, 4, 5, 6]) s ∧
    s.shared.log = events [1, 2, 3, 4, 5, 6] 6 ∧
    Correct (fun _ => true) (fun _ => true) [1, 2, 3, 4, 5, 6] s := by
  obtain ⟨s, run, ended⟩ :=
    @Inv.exists_end Nat (fun _ => true) (fun _ => true) _ _ (start_inv [1, 2, 3, 4, 5, 6])
  have correct := main_processes_all run
  refine ⟨s, run, ?_, correct⟩
  rcases ended with exited | ⟨consumed, finished⟩
  · have opened := correct.opened fun _ _ => ⟨rfl, rfl⟩
    rw [exited] at opened
    cases opened
  · exact (correct.complete consumed finished).1

end CudaOpenMp.Pipeline
