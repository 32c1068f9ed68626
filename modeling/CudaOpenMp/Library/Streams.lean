import Mathlib.Algebra.GroupWithZero.Nat
import Mathlib.Data.Finset.Basic
import Mathlib.Data.Finset.Card
import Mathlib.Data.List.Basic
import Mathlib.Logic.Relation
import Mathlib.Tactic.Common

/-!
Calls that a host issues to streams of a device. The device runs them cell by cell in any order
that the streams allow, while the host goes on until it waits for a call.
-/

namespace Streams

/-- `host` is work that the host does itself. -/
inductive Stream where
  | host
  | default
  | blocking (n : Nat)
  | nonBlocking (n : Nat)
deriving DecidableEq

/-- A call on the first stream waits for earlier calls on the second. -/
def Stream.waits : Stream → Stream → Bool
  | .default, .blocking _ => true
  | .blocking _, .default => true
  | s, t => decide (s = t)

@[simp] theorem Stream.waits_self (s : Stream) : s.waits s = true := by
  cases s <;> simp [Stream.waits]

structure Call (κ σ : Type) where
  stream : Stream
  cells : Finset κ
  effect : κ → σ → σ

/-- A call in the order of issue, with the cells where it has still to run. -/
structure Entry (κ σ : Type) where
  call : Call κ σ
  left : Finset κ
  done : Bool

/-- What the host does next. `wait` is for the last call. -/
inductive Command (κ σ : Type) where
  | issue (c : Call κ σ)
  | wait
  | read (k : κ)

structure State (κ σ : Type) where
  memory : κ → σ
  history : List (Entry κ σ)
  program : List (Command κ σ)
  seen : List σ

variable {κ σ : Type}

/-- The earlier calls that `c` waits for are done. -/
def Ready (before : List (Entry κ σ)) (c : Call κ σ) : Prop :=
  ∀ e ∈ before, c.stream.waits e.call.stream = true → e.done = true

def start (memory : κ → σ) (program : List (Command κ σ)) : State κ σ := ⟨memory, [], program, []⟩

structure Sorted (history : List (Entry κ σ)) : Prop where
  left : ∀ e ∈ history, e.left ⊆ e.call.cells
  done : ∀ e ∈ history, e.done = true → e.left = ∅
  order : history.Pairwise fun e f => ∀ k ∈ e.left, k ∈ f.call.cells →
    f.call.stream.waits e.call.stream = true ∧ k ∈ f.left
  waited : history.Pairwise fun e f =>
    f.call.stream.waits e.call.stream = true → f.done = true → e.done = true

section
variable {history before after : List (Entry κ σ)} {c : Call κ σ} {left left' : Finset κ}
  {done : Bool} {k : κ}

theorem Sorted.issue (sorted : Sorted history)
    (ordered : ∀ e ∈ history, ∀ k ∈ e.left, k ∈ c.cells → c.stream.waits e.call.stream = true) :
    Sorted (history ++ [⟨c, c.cells, false⟩]) := by
  refine ⟨?_, ?_, ?_, ?_⟩
  · intro e member
    rcases List.mem_append.mp member with old | new
    · exact sorted.left e old
    · rw [List.mem_singleton.mp new]
  · intro e member ended
    rcases List.mem_append.mp member with old | new
    · exact sorted.done e old ended
    · rw [List.mem_singleton.mp new] at ended
      cases ended
  · refine List.pairwise_append.mpr ⟨sorted.order, List.pairwise_singleton .., ?_⟩
    intro e member f last k pending inside
    rw [List.mem_singleton.mp last] at inside ⊢
    exact ⟨ordered e member k pending inside, inside⟩
  · refine List.pairwise_append.mpr ⟨sorted.waited, List.pairwise_singleton .., ?_⟩
    intro e _ f last _ ended
    rw [List.mem_singleton.mp last] at ended
    cases ended

theorem Sorted.first (sorted : Sorted (before ++ ⟨c, left, false⟩ :: after)) (ready : Ready before c)
    (member : k ∈ left) {e : Entry κ σ} (earlier : e ∈ before) : k ∉ e.left := by
  intro pending
  have inside : k ∈ c.cells := sorted.left ⟨c, left, false⟩ (by simp) member
  have across := (List.pairwise_append.mp sorted.order).2.2
  have waits := (across e earlier ⟨c, left, false⟩ (by simp) k pending inside).1
  have empty := sorted.done e (by simp [earlier]) (ready e earlier waits)
  simp [empty] at pending

theorem Sorted.move (sorted : Sorted (before ++ ⟨c, left, false⟩ :: after)) (ready : Ready before c)
    (fewer : left' ⊆ left) (ended : done = true → left' = ∅) :
    Sorted (before ++ ⟨c, left', done⟩ :: after) := by
  obtain ⟨orderBefore, orderRest, orderAcross⟩ := List.pairwise_append.mp sorted.order
  obtain ⟨orderHere, orderAfter⟩ := List.pairwise_cons.mp orderRest
  obtain ⟨waitedBefore, waitedRest, waitedAcross⟩ := List.pairwise_append.mp sorted.waited
  obtain ⟨waitedHere, waitedAfter⟩ := List.pairwise_cons.mp waitedRest
  have others : ∀ e ∈ before ++ ⟨c, left', done⟩ :: after,
      e = ⟨c, left', done⟩ ∨ e ∈ before ++ ⟨c, left, false⟩ :: after := by
    simp only [List.mem_append, List.mem_cons]
    tauto
  refine ⟨?_, ?_, ?_, ?_⟩
  · intro e here
    rcases others e here with rfl | other
    · exact fewer.trans (sorted.left ⟨c, left, false⟩ (by simp))
    · exact sorted.left e other
  · intro e here finished
    rcases others e here with rfl | other
    · exact ended finished
    · exact sorted.done e other finished
  · refine List.pairwise_append.mpr ⟨orderBefore, List.pairwise_cons.mpr ⟨?_, orderAfter⟩, ?_⟩
    · exact fun f later k pending => orderHere f later k (fewer pending)
    · intro e earlier f here k pending touched
      rcases List.mem_cons.mp here with rfl | later
      · obtain ⟨waits, still⟩ := orderAcross e earlier ⟨c, left, false⟩ (by simp) k pending touched
        exact (sorted.first ready still earlier pending).elim
      · exact orderAcross e earlier f (by simp [later]) k pending touched
  · refine List.pairwise_append.mpr ⟨waitedBefore, List.pairwise_cons.mpr ⟨?_, waitedAfter⟩, ?_⟩
    · exact fun f later waits finished => nomatch waitedHere f later waits finished
    · intro e earlier f here waits finished
      rcases List.mem_cons.mp here with rfl | later
      · exact ready e earlier waits
      · exact waitedAcross e earlier f (by simp [later]) waits finished

end

/-- The calls that touch a cell, one after the other. -/
def apply (k : κ) (calls : List (Call κ σ)) (x : σ) : σ := calls.foldl (fun x c => c.effect k x) x

theorem apply_append (k : κ) (first second : List (Call κ σ)) (x : σ) :
    apply k (first ++ second) x = apply k second (apply k first x) := List.foldl_append ..

variable [DecidableEq κ]

inductive Step : State κ σ → State κ σ → Prop
  | issue {m : κ → σ} {history : List (Entry κ σ)} {c : Call κ σ} {program : List (Command κ σ)}
      {seen : List σ} :
      Step ⟨m, history, .issue c :: program, seen⟩ ⟨m, history ++ [⟨c, c.cells, false⟩], program, seen⟩
  | wait {m : κ → σ} {before : List (Entry κ σ)} {e : Entry κ σ} {program : List (Command κ σ)}
      {seen : List σ} : e.done = true →
      Step ⟨m, before ++ [e], .wait :: program, seen⟩ ⟨m, before ++ [e], program, seen⟩
  | read {m : κ → σ} {history : List (Entry κ σ)} {k : κ} {program : List (Command κ σ)}
      {seen : List σ} :
      Step ⟨m, history, .read k :: program, seen⟩ ⟨m, history, program, seen ++ [m k]⟩
  | act {m : κ → σ} {before after : List (Entry κ σ)} {c : Call κ σ} {left : Finset κ} {k : κ}
      {program : List (Command κ σ)} {seen : List σ} : Ready before c → k ∈ left →
      Step ⟨m, before ++ ⟨c, left, false⟩ :: after, program, seen⟩
        ⟨Function.update m k (c.effect k (m k)), before ++ ⟨c, left.erase k, false⟩ :: after, program,
          seen⟩
  | finish {m : κ → σ} {before after : List (Entry κ σ)} {c : Call κ σ}
      {program : List (Command κ σ)} {seen : List σ} : Ready before c →
      Step ⟨m, before ++ ⟨c, ∅, false⟩ :: after, program, seen⟩
        ⟨m, before ++ ⟨c, ∅, true⟩ :: after, program, seen⟩

abbrev Run : State κ σ → State κ σ → Prop := Relation.ReflTransGen Step

def touching (k : κ) (calls : List (Call κ σ)) : List (Call κ σ) :=
  calls.filter fun c => decide (k ∈ c.cells)

theorem touching_append (k : κ) (first second : List (Call κ σ)) :
    touching k (first ++ second) = touching k first ++ touching k second := List.filter_append ..

/-- The calls that have run at a cell. -/
def ran (k : κ) (history : List (Entry κ σ)) : List (Call κ σ) :=
  (history.filter fun e => decide (k ∈ e.call.cells ∧ k ∉ e.left)).map Entry.call

/-- `open` are the calls that may still run. -/
structure Log (κ σ : Type) where
  past : List (Call κ σ)
  opened : List (Call κ σ)

namespace Log

def empty : Log κ σ := ⟨[], []⟩

def after (log : Log κ σ) : Command κ σ → Log κ σ
  | .issue c => ⟨log.past ++ [c], log.opened ++ [c]⟩
  | .wait => ⟨log.past, log.opened.filter fun b =>
      match log.past.getLast? with
      | some c => !c.stream.waits b.stream
      | none => true⟩
  | .read _ => log

/-- A new call waits for those that may still run on one of its cells. -/
def Allows (log : Log κ σ) : Command κ σ → Prop
  | .issue c => ∀ b ∈ log.opened, Disjoint b.cells c.cells ∨ c.stream.waits b.stream = true
  | .wait => log.past ≠ []
  | .read _ => True

def Orderly (log : Log κ σ) : List (Command κ σ) → Prop
  | [] => True
  | command :: program => log.Allows command ∧ (log.after command).Orderly program

/-- A value that a read can return: of the calls that touch the cell, a first part has run. -/
def View (memory : κ → σ) (log : Log κ σ) (k : κ) (x : σ) : Prop :=
  ∃ ended ahead, touching k log.past = ended ++ ahead ∧ (∀ c ∈ ahead, c ∈ log.opened) ∧
    x = apply k ended (memory k)

def views (memory : κ → σ) (log : Log κ σ) : List (Command κ σ) → List (σ → Prop)
  | [] => []
  | .issue c :: program => (log.after (.issue c)).views memory program
  | .wait :: program => (log.after .wait).views memory program
  | .read k :: program => log.View memory k :: log.views memory program

end Log

/-- The memory is what the calls make of it that have run so far. -/
def Exact (initial m : κ → σ) (history : List (Entry κ σ)) : Prop :=
  ∀ k, m k = apply k (ran k history) (initial k)

section
variable {initial m : κ → σ} {history before after : List (Entry κ σ)} {c : Call κ σ}
  {left : Finset κ} {k : κ}

theorem ran_append (first second : List (Entry κ σ)) :
    ran k (first ++ second) = ran k first ++ ran k second := by
  rw [ran, List.filter_append, List.map_append, ran, ran]

theorem ran_cons (e : Entry κ σ) (rest : List (Entry κ σ)) :
    ran k (e :: rest) = (if k ∈ e.call.cells ∧ k ∉ e.left then [e.call] else []) ++ ran k rest := by
  rw [ran, List.filter_cons, ran]
  by_cases ended : k ∈ e.call.cells ∧ k ∉ e.left
  · rw [if_pos ended, if_pos (decide_eq_true ended), List.map_cons, List.singleton_append]
  · rw [if_neg ended, if_neg (by simpa using ended), List.nil_append]

theorem ran_eq_nil (pending : ∀ e ∈ history, k ∈ e.call.cells → k ∈ e.left) : ran k history = [] := by
  rw [ran, List.map_eq_nil_iff, List.filter_eq_nil_iff]
  intro e member ended
  obtain ⟨inside, outside⟩ := of_decide_eq_true ended
  exact outside (pending e member inside)

theorem Exact.act (exact : Exact initial m (before ++ ⟨c, left, false⟩ :: after))
    (sorted : Sorted (before ++ ⟨c, left, false⟩ :: after)) (member : k ∈ left) :
    Exact initial (Function.update m k (c.effect k (m k)))
      (before ++ ⟨c, left.erase k, false⟩ :: after) := by
  have inside : k ∈ c.cells := sorted.left ⟨c, left, false⟩ (by simp) member
  have later := (List.pairwise_cons.mp (List.pairwise_append.mp sorted.order).2.1).1
  intro k'
  have value := exact k'
  rw [ran_append, ran_cons] at value ⊢
  by_cases same : k' = k
  · subst same
    have none : ran k' after = [] := by
      apply ran_eq_nil
      intro f member' touched
      exact (later f member' k' member touched).2
    rw [if_neg (fun both => both.2 member), none] at value
    rw [if_pos ⟨inside, Finset.notMem_erase k' left⟩, none, Function.update_self, value]
    simp [apply]
  · rw [Function.update_of_ne same, value]
    simp only [Finset.mem_erase, ne_eq, same, not_false_eq_true, true_and]

theorem Sorted.split (sorted : Sorted history) (k : κ) :
    ∃ ahead, touching k (history.map Entry.call) = ran k history ++ ahead ∧
      ∀ c ∈ ahead, ∃ e ∈ history, e.call = c ∧ k ∈ e.left := by
  induction history with
  | nil => exact ⟨[], rfl, nofun⟩
  | cons e rest ih =>
      obtain ⟨orderHere, orderRest⟩ := List.pairwise_cons.mp sorted.order
      have tail : Sorted rest := ⟨fun f member => sorted.left f (by simp [member]),
        fun f member => sorted.done f (by simp [member]), orderRest,
        (List.pairwise_cons.mp sorted.waited).2⟩
      obtain ⟨ahead, split, pending⟩ := ih tail
      have inRest : ∀ c ∈ ahead, ∃ f ∈ e :: rest, f.call = c ∧ k ∈ f.left := by
        intro c member
        obtain ⟨f, later, same, left⟩ := pending c member
        exact ⟨f, by simp [later], same, left⟩
      rw [ran_cons]
      by_cases touched : k ∈ e.call.cells
      · by_cases left : k ∈ e.left
        · have none : ran k rest = [] := by
            apply ran_eq_nil
            exact fun f later inside => (orderHere f later k left inside).2
          refine ⟨e.call :: ahead, ?_, ?_⟩
          · rw [none, List.nil_append] at split
            rw [if_neg (fun both => both.2 left), none, ← split]
            simp [touching, touched]
          · intro c member
            rcases List.mem_cons.mp member with rfl | later
            · exact ⟨e, by simp, rfl, left⟩
            · exact inRest c later
        · refine ⟨ahead, ?_, inRest⟩
          rw [if_pos ⟨touched, left⟩, List.append_assoc, ← split]
          simp [touching, touched]
      · refine ⟨ahead, ?_, inRest⟩
        rw [if_neg (fun both => touched both.1), List.nil_append, ← split]
        simp [touching, touched]

end

/-! What the host sees. -/

namespace Log

structure Tracks (log : Log κ σ) (history : List (Entry κ σ)) : Prop where
  past : log.past = history.map Entry.call
  opened : ∀ e ∈ history, e.done = false → e.call ∈ log.opened

section
variable {log : Log κ σ} {initial m : κ → σ} {history before after : List (Entry κ σ)}
  {e e' : Entry κ σ} {c : Call κ σ} {k : κ}

omit [DecidableEq κ] in
theorem Tracks.issue (tracks : log.Tracks history) (left : Finset κ) :
    (log.after (.issue c)).Tracks (history ++ [⟨c, left, false⟩]) := by
  refine ⟨by simp [Log.after, tracks.past], fun e member waiting => ?_⟩
  rw [Log.after]
  rcases List.mem_append.mp member with old | new
  · exact List.mem_append_left _ (tracks.opened e old waiting)
  · rw [List.mem_singleton.mp new]
    exact List.mem_append_right _ (List.mem_singleton.mpr rfl)

omit [DecidableEq κ] in
theorem Tracks.wait (tracks : log.Tracks (before ++ [e])) (sorted : Sorted (before ++ [e]))
    (ended : e.done = true) : (log.after .wait).Tracks (before ++ [e]) := by
  refine ⟨tracks.past, fun f member waiting => ?_⟩
  have last : log.past.getLast? = some e.call := by simp [tracks.past]
  simp only [Log.after, last, List.mem_filter, Bool.not_eq_true']
  refine ⟨tracks.opened f member waiting, ?_⟩
  rcases List.mem_append.mp member with old | new
  · cases waits : e.call.stream.waits f.call.stream with
    | false => rfl
    | true =>
        have finished := (List.pairwise_append.mp sorted.waited).2.2 f old e (by simp) waits ended
        rw [finished] at waiting
        cases waiting
  · rw [List.mem_singleton.mp new, ended] at waiting
    cases waiting

omit [DecidableEq κ] in
theorem Tracks.move (tracks : log.Tracks (before ++ e :: after)) (call : e'.call = e.call)
    (still : e'.done = false → e.done = false) : log.Tracks (before ++ e' :: after) := by
  refine ⟨by simp [tracks.past, call], fun f member waiting => ?_⟩
  rcases List.mem_append.mp member with old | new
  · exact tracks.opened f (by simp [old]) waiting
  · rcases List.mem_cons.mp new with rfl | later
    · rw [call]
      exact tracks.opened e (by simp) (still waiting)
    · exact tracks.opened f (by simp [later]) waiting

theorem Tracks.view (tracks : log.Tracks history) (sorted : Sorted history)
    (exact : Exact initial m history) (k : κ) : log.View initial k (m k) := by
  obtain ⟨ahead, split, pending⟩ := sorted.split k
  refine ⟨ran k history, ahead, tracks.past ▸ split, fun c member => ?_, exact k⟩
  obtain ⟨e, here, rfl, left⟩ := pending c member
  refine tracks.opened e here ?_
  cases ended : e.done with
  | false => rfl
  | true =>
      rw [sorted.done e here ended] at left
      cases left

end

section
variable {log : Log κ σ} {initial : κ → σ} {first second : List (Command κ σ)}

omit [DecidableEq κ] in
theorem orderly_append :
    log.Orderly (first ++ second) ↔ log.Orderly first ∧ (first.foldl Log.after log).Orderly second := by
  induction first generalizing log with
  | nil => simp [Orderly]
  | cons command first ih => simp only [List.cons_append, Orderly, ih, List.foldl_cons, and_assoc]

theorem views_append : log.views initial (first ++ second) =
    log.views initial first ++ (first.foldl Log.after log).views initial second := by
  induction first generalizing log with
  | nil => rfl
  | cons command first ih =>
      cases command with
      | issue c => exact ih
      | wait => exact ih
      | read k => exact congrArg (_ :: ·) ih

omit [DecidableEq κ] in
theorem after_issue (past opened : List (Call κ σ)) (c : Call κ σ) :
    Log.after ⟨past, opened⟩ (.issue c) = ⟨past ++ [c], opened ++ [c]⟩ := rfl

omit [DecidableEq κ] in
theorem after_wait (past opened : List (Call κ σ)) (c : Call κ σ) :
    Log.after ⟨past ++ [c], opened⟩ .wait =
      ⟨past ++ [c], opened.filter fun b => !c.stream.waits b.stream⟩ := by
  simp [after]

omit [DecidableEq κ] in
theorem after_issues (calls : List (Call κ σ)) :
    (calls.map .issue).foldl Log.after log = ⟨log.past ++ calls, log.opened ++ calls⟩ := by
  induction calls generalizing log with
  | nil => simp
  | cons c calls ih => rw [List.map_cons, List.foldl_cons, ih, after]; simp

omit [DecidableEq κ] in
theorem orderly_issues {calls : List (Call κ σ)}
    (behind : ∀ c ∈ calls, ∀ b ∈ log.opened,
      Disjoint b.cells c.cells ∨ c.stream.waits b.stream = true)
    (among : calls.Pairwise fun b c => Disjoint b.cells c.cells ∨ c.stream.waits b.stream = true) :
    log.Orderly (calls.map .issue) := by
  induction calls generalizing log with
  | nil => trivial
  | cons c calls ih =>
      obtain ⟨first, rest⟩ := List.pairwise_cons.mp among
      refine ⟨behind c (by simp), ih (fun d later b open' => ?_) rest⟩
      rcases List.mem_append.mp open' with old | new
      · exact behind d (by simp [later]) b old
      · rw [List.mem_singleton.mp new]
        exact first d later

theorem views_issues (calls : List (Call κ σ)) : log.views initial (calls.map .issue) = [] := by
  induction calls generalizing log with
  | nil => rfl
  | cons c calls ih => exact ih

omit [DecidableEq κ] in
theorem after_reads (cells : List κ) : (cells.map .read).foldl Log.after log = log := by
  induction cells with
  | nil => rfl
  | cons k cells ih => exact ih

omit [DecidableEq κ] in
theorem orderly_reads (cells : List κ) : log.Orderly (cells.map .read) := by
  induction cells with
  | nil => trivial
  | cons k cells ih => exact ⟨trivial, ih⟩

theorem views_reads (cells : List κ) :
    log.views initial (cells.map .read) = cells.map (log.View initial) := by
  induction cells with
  | nil => rfl
  | cons k cells ih => exact congrArg (_ :: ·) ih

theorem View.eq {k : κ} {x : σ} (view : log.View initial k x) (shut : log.opened = []) :
    x = apply k (touching k log.past) (initial k) := by
  obtain ⟨ended, ahead, split, open', value⟩ := view
  rw [shut] at open'
  obtain rfl : ahead = [] := List.eq_nil_iff_forall_not_mem.mpr fun c member => nomatch open' c member
  rw [split, List.append_nil, value]

end

end Log

/-- `before` is the part of the program that the host has behind it. -/
structure Follows (initial : κ → σ) (program before : List (Command κ σ)) (s : State κ σ) : Prop where
  split : program = before ++ s.program
  tracks : (before.foldl Log.after .empty).Tracks s.history
  sorted : Sorted s.history
  exact : Exact initial s.memory s.history
  seen : List.Forall₂ (fun x view => view x) s.seen (Log.empty.views initial before)

section
variable {initial : κ → σ} {program before : List (Command κ σ)} {s t : State κ σ}

theorem Follows.step (orderly : Log.empty.Orderly program) (follows : Follows initial program before s)
    (step : Step s t) : ∃ before', Follows initial program before' t := by
  obtain ⟨split, tracks, sorted, exact, seen⟩ := follows
  cases step with
  | @issue m history c rest _ =>
      rw [split, Log.orderly_append] at orderly
      have allowed := orderly.2.1
      refine ⟨before ++ [.issue c], by simp [split], ?_, ?_, ?_, ?_⟩
      · rw [List.foldl_append]
        exact tracks.issue _
      · refine sorted.issue fun e member k pending inside => ?_
        have open' : e.done = false := by
          cases ended : e.done with
          | false => rfl
          | true =>
              rw [sorted.done e member ended] at pending
              cases pending
        rcases allowed _ (tracks.opened e member open') with apart | waits
        · exact (Finset.disjoint_left.mp apart (sorted.left e member pending) inside).elim
        · exact waits
      · intro k
        rw [ran_append, ran_cons, if_neg (fun both => both.2 both.1), exact k]
        simp [ran]
      · rw [Log.views_append]
        simpa [Log.views] using seen
  | @wait _ done e rest _ ended =>
      refine ⟨before ++ [.wait], by simp [split], ?_, sorted, exact, ?_⟩
      · rw [List.foldl_append]
        exact tracks.wait sorted ended
      · rw [Log.views_append]
        simpa [Log.views] using seen
  | @read m history k rest _ =>
      refine ⟨before ++ [.read k], by simp [split], ?_, sorted, exact, ?_⟩
      · rw [List.foldl_append]
        exact tracks
      · rw [Log.views_append]
        exact List.rel_append seen (.cons (tracks.view sorted exact k) .nil)
  | act ready member =>
      exact ⟨before, split, tracks.move rfl fun _ => rfl,
        sorted.move ready (Finset.erase_subset _ _) nofun, exact.act sorted member, seen⟩
  | finish ready =>
      refine ⟨before, split, tracks.move rfl fun _ => rfl,
        sorted.move ready (Finset.Subset.refl _) fun _ => rfl, fun k => ?_, seen⟩
      rw [exact k, ran_append, ran_append, ran_cons, ran_cons]

theorem follows_run (orderly : Log.empty.Orderly program) (run : Run (start initial program) s) :
    ∃ before, Follows initial program before s := by
  induction run with
  | refl =>
      exact ⟨[], rfl, ⟨rfl, nofun⟩, ⟨nofun, nofun, .nil, .nil⟩, fun _ => rfl, .nil⟩
  | tail _ step ih =>
      obtain ⟨before, follows⟩ := ih
      exact follows.step orderly step

/-- Whatever the device does in between, every read returns a value that its view allows. -/
theorem seen_views (orderly : Log.empty.Orderly program) (run : Run (start initial program) s) :
    ∃ earlier later, Log.empty.views initial program = earlier ++ later ∧
      List.Forall₂ (fun x view => view x) s.seen earlier ∧ (s.program = [] → later = []) := by
  obtain ⟨before, follows⟩ := follows_run orderly run
  have whole := congrArg (Log.empty.views initial) follows.split
  rw [Log.views_append] at whole
  refine ⟨_, _, whole, follows.seen, fun finished => ?_⟩
  rw [finished]
  rfl

omit [DecidableEq κ] in
theorem map_of_views {τ : Type} {f : σ → τ} {seen : List σ} {views : List (σ → Prop)}
    {values : List τ} (allowed : List.Forall₂ (fun x view => view x) seen views)
    (exact : List.Forall₂ (fun view v => ∀ x, view x → f x = v) views values) :
    seen.map f = values := by
  induction allowed generalizing values with
  | nil =>
      cases exact
      rfl
  | cons view _ ih =>
      cases exact with
      | cons fixed exact => rw [List.map_cons, fixed _ view, ih exact]

theorem seen_values {τ : Type} {f : σ → τ} {values : List τ} (orderly : Log.empty.Orderly program)
    (exact : List.Forall₂ (fun view v => ∀ x, view x → f x = v)
      (Log.empty.views initial program) values) (run : Run (start initial program) s) :
    s.seen.map f <+: values ∧ (s.program = [] → s.seen.map f = values) := by
  obtain ⟨earlier, later, split, seen, finished⟩ := seen_views orderly run
  rw [split] at exact
  obtain ⟨first, second, front, back, rfl⟩ : ∃ first second,
      List.Forall₂ (fun view v => ∀ x, view x → f x = v) earlier first ∧
      List.Forall₂ (fun view v => ∀ x, view x → f x = v) later second ∧ values = first ++ second := by
    refine ⟨values.take earlier.length, values.drop earlier.length, ?_, ?_,
      (List.take_append_drop ..).symm⟩
    · simpa using List.forall₂_take earlier.length exact
    · simpa using List.forall₂_drop earlier.length exact
  have same : s.seen.map f = first := map_of_views seen front
  refine ⟨same ▸ List.prefix_append _ _, fun ended => ?_⟩
  cases finished ended
  cases back
  rw [same, List.append_nil]

end

/-! The host can always go on to the end of its program. -/

def Entry.rank (e : Entry κ σ) : Nat := e.left.card + if e.done then 0 else 1

def Command.rank : Command κ σ → Nat
  | .issue c => c.cells.card + 2
  | .wait | .read _ => 1

def State.rank (s : State κ σ) : Nat :=
  (s.history.map Entry.rank).sum + (s.program.map Command.rank).sum

section
variable {initial m : κ → σ} {history : List (Entry κ σ)} {program : List (Command κ σ)}
  {seen : List σ} {s : State κ σ}

omit [DecidableEq κ] in
theorem exists_ready (open' : ∃ e ∈ history, e.done = false) :
    ∃ before c left after, history = before ++ ⟨c, left, false⟩ :: after ∧ Ready before c := by
  induction history with
  | nil =>
      obtain ⟨e, member, _⟩ := open'
      cases member
  | cons e rest ih =>
      cases ended : e.done with
      | false => exact ⟨[], e.call, e.left, rest, by rw [← ended, List.nil_append], nofun⟩
      | true =>
          obtain ⟨f, member, waiting⟩ := open'
          have later : f ∈ rest := by
            rcases List.mem_cons.mp member with rfl | later
            · rw [ended] at waiting
              cases waiting
            · exact later
          obtain ⟨before, c, left, after, split, ready⟩ := ih ⟨f, later, waiting⟩
          refine ⟨e :: before, c, left, after, by rw [split, List.cons_append], fun g here waits => ?_⟩
          rcases List.mem_cons.mp here with rfl | earlier
          · exact ended
          · exact ready g earlier waits

theorem exists_move (open' : ∃ e ∈ history, e.done = false) :
    ∃ t, Step ⟨m, history, program, seen⟩ t ∧ t.rank < State.rank ⟨m, history, program, seen⟩ := by
  obtain ⟨before, c, left, after, rfl, ready⟩ := exists_ready open'
  rcases left.eq_empty_or_nonempty with rfl | ⟨k, member⟩
  · exact ⟨_, .finish ready, by simp [State.rank, Entry.rank]⟩
  · refine ⟨_, .act ready member, ?_⟩
    have fewer := Finset.card_erase_lt_of_mem member
    simp only [State.rank, Entry.rank, List.map_append, List.map_cons, List.sum_append, List.sum_cons]
    omega

theorem exists_finished (orderly : Log.empty.Orderly program)
    (run : Run (start initial program) s) : ∃ t, Run s t ∧ t.program = [] := by
  induction amount : s.rank using Nat.strong_induction_on generalizing s with
  | _ amount ih =>
      have further (t : State κ σ) (step : Step s t) (lower : t.rank < s.rank) :
          ∃ t, Run s t ∧ t.program = [] := by
        obtain ⟨u, more, finished⟩ := ih _ (amount ▸ lower) (run.tail step) rfl
        exact ⟨u, .head step more, finished⟩
      obtain ⟨before, split, tracks, _, _, _⟩ := follows_run orderly run
      obtain ⟨m, history, rest, seen⟩ := s
      cases rest with
      | nil => exact ⟨_, .refl, rfl⟩
      | cons command rest =>
          cases command with
          | issue c =>
              refine further _ .issue ?_
              simp only [State.rank, Entry.rank, Command.rank, List.map_append, List.map_cons,
                List.map_nil, List.sum_append, List.sum_cons, List.sum_nil, Bool.false_eq_true, if_false]
              omega
          | read k => exact further _ .read (by simp [State.rank, Command.rank])
          | wait =>
              rw [split, Log.orderly_append] at orderly
              have issued : history ≠ [] := by
                rintro rfl
                exact orderly.2.1 (by simp [tracks.past])
              obtain ⟨earlier, e, rfl⟩ := (List.eq_nil_or_concat' history).resolve_left issued
              cases ended : e.done with
              | true =>
                  refine further _ (.wait ended) ?_
                  simp [State.rank, Command.rank]
              | false =>
                  have last : e ∈ earlier ++ [e] := List.mem_append_right _ (List.mem_singleton.mpr rfl)
                  obtain ⟨t, step, lower⟩ := exists_move ⟨e, last, ended⟩
                  exact further t step lower

end

/-! Runs in which the device keeps up with the host. -/

section
variable {m : κ → σ} {history : List (Entry κ σ)} {c : Call κ σ} {program : List (Command κ σ)}
  {seen : List σ}

/-- `m` after the call has run on some cells. -/
def Call.on (c : Call κ σ) (cells : Finset κ) (m : κ → σ) (k : κ) : σ :=
  if k ∈ cells then c.effect k (m k) else m k

theorem run_part {part : Finset κ} (inside : part ⊆ c.cells) (ready : Ready history c) :
    Run ⟨m, history, .issue c :: program, seen⟩
      ⟨c.on part m, history ++ [⟨c, c.cells \ part, false⟩], program, seen⟩ := by
  induction part using Finset.induction with
  | empty =>
      have same : c.on ∅ m = m := by
        funext k
        simp [Call.on]
      rw [same, Finset.sdiff_empty]
      exact .single .issue
  | insert k part fresh ih =>
      obtain ⟨member, rest⟩ := Finset.insert_subset_iff.mp inside
      have pending : k ∈ c.cells \ part := Finset.mem_sdiff.mpr ⟨member, fresh⟩
      have next : Function.update (c.on part m) k (c.effect k (c.on part m k)) =
          c.on (insert k part) m := by
        funext k'
        by_cases same : k' = k
        · subst same
          simp [Call.on, fresh]
        · simp [Call.on, same]
      have left : (c.cells \ part).erase k = c.cells \ insert k part := by
        rw [Finset.sdiff_insert]
      rw [← next, ← left]
      exact (ih rest).tail (.act ready pending)

theorem run_whole (ready : Ready history c) :
    Run ⟨m, history, .issue c :: program, seen⟩
      ⟨c.on c.cells m, history ++ [⟨c, ∅, true⟩], program, seen⟩ := by
  have ran := @run_part _ _ _ m history c program seen c.cells (Finset.Subset.refl _) ready
  rw [Finset.sdiff_self] at ran
  exact ran.tail (.finish ready)

theorem run_reads (cells : List κ) :
    Run ⟨m, history, cells.map .read ++ program, seen⟩ ⟨m, history, program, seen ++ cells.map m⟩ := by
  induction cells generalizing seen with
  | nil => simpa using Relation.ReflTransGen.refl
  | cons k cells ih =>
      have rest := @ih (seen ++ [m k])
      rw [List.append_assoc] at rest
      exact .head .read rest

theorem run_steadily {log : Log κ σ} (commands : List (Command κ σ)) (orderly : log.Orderly commands)
    (past : log.past = history.map Entry.call) (ended : ∀ e ∈ history, e.done = true) :
    ∃ m' history' seen', Run ⟨m, history, commands ++ program, seen⟩ ⟨m', history', program, seen'⟩ ∧
      (commands.foldl Log.after log).past = history'.map Entry.call ∧
      ∀ e ∈ history', e.done = true := by
  induction commands generalizing log m history seen with
  | nil => exact ⟨m, history, seen, .refl, past, ended⟩
  | cons command commands ih =>
      obtain ⟨allowed, rest⟩ := orderly
      cases command with
      | issue c =>
          have ready : Ready history c := fun e member _ => ended e member
          obtain ⟨m', history', seen', run, past', ended'⟩ :=
            @ih (c.on c.cells m) (history ++ [⟨c, ∅, true⟩]) seen _ rest
              (by simp [Log.after, past]) (by simpa [or_imp, forall_and] using ended)
          exact ⟨m', history', seen', (run_whole ready).trans run, past', ended'⟩
      | wait =>
          have issued : history ≠ [] := by
            rintro rfl
            exact allowed (by simp [past])
          obtain ⟨before, last, rfl⟩ := (List.eq_nil_or_concat' history).resolve_left issued
          obtain ⟨m', history', seen', run, past', ended'⟩ := @ih m (before ++ [last]) seen _ rest past ended
          exact ⟨m', history', seen', .head (.wait (ended last (by simp))) run, past', ended'⟩
      | read k =>
          obtain ⟨m', history', seen', run, past', ended'⟩ := @ih m history (seen ++ [m k]) _ rest past ended
          exact ⟨m', history', seen', .head .read run, past', ended'⟩

/-- Calls that do not wait for each other, each of which runs on the cells in `target`. -/
def leftOf (target : Finset κ) (c : Call κ σ) : Entry κ σ :=
  ⟨c, c.cells \ target, decide (c.cells ⊆ target)⟩

theorem run_parts {target : Finset κ} (calls : List (Call κ σ))
    (ready : ∀ c ∈ calls, Ready history c)
    (apart : calls.Pairwise fun b c => c.stream.waits b.stream = false) :
    ∃ m', Run ⟨m, history, calls.map .issue ++ program, seen⟩
      ⟨m', history ++ calls.map (leftOf target), program, seen⟩ := by
  induction calls generalizing m history with
  | nil => exact ⟨m, by simpa using Relation.ReflTransGen.refl⟩
  | cons c calls ih =>
      obtain ⟨first, rest⟩ := List.pairwise_cons.mp apart
      have now : ∃ m', Run ⟨m, history, .issue c :: (calls.map .issue ++ program), seen⟩
          ⟨m', history ++ [leftOf target c], calls.map .issue ++ program, seen⟩ := by
        by_cases whole : c.cells ⊆ target
        · have run := @run_whole _ _ _ m history c (calls.map .issue ++ program) seen
            (ready c (by simp))
          refine ⟨c.on c.cells m, ?_⟩
          rw [leftOf, Finset.sdiff_eq_empty_iff_subset.mpr whole, decide_eq_true whole]
          exact run
        · have run := @run_part _ _ _ m history c (calls.map .issue ++ program) seen (c.cells ∩ target)
            Finset.inter_subset_left (ready c (by simp))
          refine ⟨c.on (c.cells ∩ target) m, ?_⟩
          rw [leftOf, decide_eq_false whole, ← Finset.sdiff_inter_self_left c.cells target]
          exact run
      obtain ⟨middle, run⟩ := now
      have ready' : ∀ d ∈ calls, Ready (history ++ [leftOf target c]) d := by
        intro d later e member waits
        rcases List.mem_append.mp member with old | new
        · exact ready d (by simp [later]) e old waits
        · rw [List.mem_singleton.mp new, leftOf, first d later] at waits
          cases waits
      obtain ⟨m', more⟩ := @ih middle (history ++ [leftOf target c]) ready' rest
      exact ⟨m', by simpa using run.trans more⟩

theorem ran_of_done (sorted : Sorted history) (ended : ∀ e ∈ history, e.done = true) (k : κ) :
    ran k history = touching k (history.map Entry.call) := by
  rw [ran, touching, List.filter_map]
  congr 1
  apply List.filter_congr
  intro e member
  simp [sorted.done e member (ended e member)]

theorem ran_parts {target : Finset κ} (calls : List (Call κ σ)) (k : κ) :
    ran k (calls.map (leftOf target)) = if k ∈ target then touching k calls else [] := by
  rw [ran, List.filter_map, List.map_map, touching]
  have same : Entry.call ∘ leftOf target = (id : Call κ σ → Call κ σ) := rfl
  rw [same, List.map_id]
  split
  · next inside =>
    apply List.filter_congr
    intro c _
    exact decide_eq_decide.mpr (by simp [leftOf, inside])
  · next outside =>
    rw [List.filter_eq_nil_iff]
    intro c _ ended
    obtain ⟨inside, unleft⟩ := of_decide_eq_true ended
    exact unleft (Finset.mem_sdiff.mpr ⟨inside, outside⟩)

end

end Streams
