import CudaOpenMp.Pthread.ReaderWriter

/-!
`deadlock.c`: the two threads of the one-byte buffer take the same two mutexes in opposite orders.
-/

namespace CudaOpenMp.Deadlock

open Interleaving
open ReaderWriter (Party incremented)

instance : Fintype Party where
  elems := {.writer, .reader}
  complete := by
    intro p
    cases p <;> decide

/-- The place in the loop of a thread. The outer mutex is the one that it locks first. -/
inductive Stage where
  | lockOuter
  | lockInner
  | test
  | store
  | print
  | raise
  | increment
  | lower
  | unlockInner
  | unlockOuter
deriving DecidableEq

/-- The reader has no `item`. -/
structure Local where
  stage : Stage
  item : Int8

/-- `stored` and `printed` are the bytes that the writer has stored and the reader has printed.
The program does not read them. -/
structure Shared where
  buffer : UInt8
  bufferHasItem : Int
  mutex1 : Bool
  mutex2 : Bool
  stored : List UInt8
  printed : List UInt8

inductive Act : Action Party Shared Local
  | lock1 {g : Shared} {item : Int8} : g.mutex1 = false →
      Act .writer g ⟨.lockOuter, item⟩ { g with mutex1 := true } ⟨.lockInner, item⟩
  | lock2 {g : Shared} {item : Int8} : g.mutex2 = false →
      Act .writer g ⟨.lockInner, item⟩ { g with mutex2 := true } ⟨.test, item⟩
  | testWriter {g : Shared} {item : Int8} :
      Act .writer g ⟨.test, item⟩ g
        ⟨if g.bufferHasItem = 0 then .store else .unlockInner, item⟩
  | store {g : Shared} {item : Int8} :
      Act .writer g ⟨.store, item⟩
        { g with buffer := item.toUInt8, stored := g.stored ++ [item.toUInt8] } ⟨.print, item⟩
  | printWriter {g : Shared} {item : Int8} : Act .writer g ⟨.print, item⟩ g ⟨.raise, item⟩
  | raise {g : Shared} {item : Int8} :
      Act .writer g ⟨.raise, item⟩ { g with bufferHasItem := 1 } ⟨.increment, item⟩
  | increment {g : Shared} {item : Int8} :
      Act .writer g ⟨.increment, item⟩ g ⟨.unlockInner, incremented item⟩
  | unlock2 {g : Shared} {item : Int8} :
      Act .writer g ⟨.unlockInner, item⟩ { g with mutex2 := false } ⟨.unlockOuter, item⟩
  | unlock1 {g : Shared} {item : Int8} :
      Act .writer g ⟨.unlockOuter, item⟩ { g with mutex1 := false } ⟨.lockOuter, item⟩
  | lockReader2 {g : Shared} {item : Int8} : g.mutex2 = false →
      Act .reader g ⟨.lockOuter, item⟩ { g with mutex2 := true } ⟨.lockInner, item⟩
  | lockReader1 {g : Shared} {item : Int8} : g.mutex1 = false →
      Act .reader g ⟨.lockInner, item⟩ { g with mutex1 := true } ⟨.test, item⟩
  | testReader {g : Shared} {item : Int8} :
      Act .reader g ⟨.test, item⟩ g
        ⟨if g.bufferHasItem = 1 then .print else .unlockInner, item⟩
  | printReader {g : Shared} {item : Int8} :
      Act .reader g ⟨.print, item⟩
        { g with printed := g.printed ++ [g.buffer] } ⟨.lower, item⟩
  | lower {g : Shared} {item : Int8} :
      Act .reader g ⟨.lower, item⟩ { g with bufferHasItem := 0 } ⟨.unlockInner, item⟩
  | unlockReader1 {g : Shared} {item : Int8} :
      Act .reader g ⟨.unlockInner, item⟩ { g with mutex1 := false } ⟨.unlockOuter, item⟩
  | unlockReader2 {g : Shared} {item : Int8} :
      Act .reader g ⟨.unlockOuter, item⟩ { g with mutex2 := false } ⟨.lockOuter, item⟩

def start : State Party Shared Local where
  shared := ⟨0, 0, false, false, [], []⟩
  locals := fun _ => ⟨.lockOuter, 0⟩

/-- Each thread has its outer mutex and waits for the one that the other has. -/
def Crossed (s : State Party Shared Local) : Prop :=
  ∀ p, (s.locals p).stage = .lockInner

def Stage.forget : Stage → ReaderWriter.Stage
  | .lockOuter | .lockInner => .lock
  | .test => .test
  | .store => .store
  | .print => .print
  | .raise => .raise
  | .increment => .increment
  | .lower => .lower
  | .unlockInner | .unlockOuter => .unlock

def Local.forget (l : Local) : ReaderWriter.Local := ⟨l.stage.forget, l.item⟩

def Shared.forget (g : Shared) : ReaderWriter.Shared :=
  ⟨g.buffer, g.bufferHasItem, false, false, g.stored, g.printed⟩

section
variable {g g' : Shared} {l l' m m' : Local} {p : Party}

theorem act_forget (act : Act p g l g' l') : g'.forget = g.forget ∧ l'.forget = l.forget ∨
    ∃ h, ReaderWriter.Act p g.forget l.forget h l'.forget ∧
      g'.forget = { h with mutex1 := false, mutex2 := false } := by
  cases act with
  | lock1 | unlock2 | lockReader2 | unlockReader1 => exact .inl ⟨rfl, rfl⟩
  | lock2 => exact .inr ⟨_, .lockWriter rfl, rfl⟩
  | store => exact .inr ⟨_, .store, rfl⟩
  | printWriter => exact .inr ⟨_, .printWriter, rfl⟩
  | raise => exact .inr ⟨_, .raise, rfl⟩
  | increment => exact .inr ⟨_, .increment, rfl⟩
  | unlock1 => exact .inr ⟨_, .unlockWriter, rfl⟩
  | lockReader1 => exact .inr ⟨_, .lockReader rfl, rfl⟩
  | printReader => exact .inr ⟨_, .printReader, rfl⟩
  | lower => exact .inr ⟨_, .lower, rfl⟩
  | unlockReader2 => exact .inr ⟨_, .unlockReader, rfl⟩
  | testWriter =>
      refine .inr ⟨g.forget, ?_, rfl⟩
      simp only [Local.forget, apply_ite Stage.forget]
      exact .testWriter
  | testReader =>
      refine .inr ⟨g.forget, ?_, rfl⟩
      simp only [Local.forget, apply_ite Stage.forget]
      exact .testReader

theorem inv_mutexes {g : ReaderWriter.Shared} {l m : ReaderWriter.Local}
    (inv : ReaderWriter.Inv g l m) (mutex1 mutex2 : Bool) :
    ReaderWriter.Inv { g with mutex1 := mutex1, mutex2 := mutex2 } l m :=
  ⟨inv.writing, inv.reading, inv.full, inv.empty, inv.count, inv.bytes⟩

theorem forget_writer (inv : ReaderWriter.Inv g.forget l.forget m.forget)
    (act : Act .writer g l g' l') : ReaderWriter.Inv g'.forget l'.forget m.forget := by
  rcases act_forget act with ⟨shared, thread⟩ | ⟨h, act, shared⟩
  · rwa [shared, thread]
  · rw [shared]
    exact inv_mutexes (inv.writer act) false false

theorem forget_reader (inv : ReaderWriter.Inv g.forget l.forget m.forget)
    (act : Act .reader g m g' m') : ReaderWriter.Inv g'.forget l.forget m'.forget := by
  rcases act_forget act with ⟨shared, thread⟩ | ⟨h, act, shared⟩
  · rwa [shared, thread]
  · rw [shared]
    exact inv_mutexes (inv.reader act) false false

end

theorem inv_run {s : State Party Shared Local} (run : Run Act start s) :
    ReaderWriter.Inv s.shared.forget (s.locals .writer).forget (s.locals .reader).forget := by
  induction run with
  | refl => exact ReaderWriter.Inv.start
  | tail _ move inv =>
      cases move with
      | turn party acted =>
          cases party with
          | writer => simpa using forget_writer inv acted
          | reader => simpa using forget_reader inv acted

/-! Who has the mutexes. -/

def Stage.outer : Stage → Bool
  | .lockOuter => false
  | .lockInner | .test | .store | .print | .raise | .increment | .lower | .unlockInner
  | .unlockOuter => true

def Stage.inner : Stage → Bool
  | .lockOuter | .lockInner | .unlockOuter => false
  | .test | .store | .print | .raise | .increment | .lower | .unlockInner => true

/-- The mutex that a thread locks first. -/
def Shared.outer (g : Shared) : Party → Bool
  | .writer => g.mutex1
  | .reader => g.mutex2

def other : Party → Party
  | .writer => .reader
  | .reader => .writer

inductive Locking (p : Party) (g : Shared) (l : Local) (g' : Shared) (l' : Local) : Prop
  | same : l'.stage.outer = l.stage.outer → l'.stage.inner = l.stage.inner →
      (∀ q, g'.outer q = g.outer q) → Locking p g l g' l'
  | lockOuter : l.stage = .lockOuter → l'.stage = .lockInner → g.outer p = false →
      g'.outer p = true → g'.outer (other p) = g.outer (other p) → Locking p g l g' l'
  | lockInner : l.stage = .lockInner → l'.stage = .test → g.outer (other p) = false →
      g'.outer (other p) = true → g'.outer p = g.outer p → Locking p g l g' l'
  | unlockInner : l.stage = .unlockInner → l'.stage = .unlockOuter → g'.outer (other p) = false →
      g'.outer p = g.outer p → Locking p g l g' l'
  | unlockOuter : l.stage = .unlockOuter → l'.stage = .lockOuter → g'.outer p = false →
      g'.outer (other p) = g.outer (other p) → Locking p g l g' l'

section
variable {g g' : Shared} {l l' m : Local} {p : Party} {s t : State Party Shared Local}

theorem act_locking (act : Act p g l g' l') : Locking p g l g' l' := by
  cases act with
  | lock1 free | lockReader2 free => exact .lockOuter rfl rfl free rfl rfl
  | lock2 free | lockReader1 free => exact .lockInner rfl rfl free rfl rfl
  | unlock2 | unlockReader1 => exact .unlockInner rfl rfl rfl rfl
  | unlock1 | unlockReader2 => exact .unlockOuter rfl rfl rfl rfl
  | testWriter | testReader =>
      refine .same ?_ ?_ fun _ => rfl
      · split <;> rfl
      · split <;> rfl
  | store | printWriter | raise | increment | printReader | lower =>
      exact .same rfl rfl fun q => by cases q <;> rfl

/-- `l` is the thread whose outer mutex this is, and `m` the other one. -/
structure Held (held : Bool) (l m : Local) : Prop where
  owned : held = (l.stage.outer || m.stage.inner)
  apart : (l.stage.outer && m.stage.inner) = false

theorem Held.outer (mine : Held (g.outer p) l m) (theirs : Held (g.outer (other p)) m l)
    (act : Act p g l g' l') : Held (g'.outer p) l' m ∧ Held (g'.outer (other p)) m l' := by
  obtain ⟨owned, apart⟩ := mine
  obtain ⟨owned', apart'⟩ := theirs
  cases act_locking act with
  | same outer inner shared =>
      rw [shared p, shared (other p)]
      exact ⟨⟨outer ▸ owned, outer ▸ apart⟩, ⟨inner ▸ owned', inner ▸ apart'⟩⟩
  | lockOuter here there free taken kept =>
      rw [here] at owned' apart'
      rw [free] at owned
      simp only [Bool.false_eq, Bool.or_eq_false_iff] at owned
      refine ⟨⟨?_, ?_⟩, ⟨?_, ?_⟩⟩
      all_goals simp_all [Stage.outer, Stage.inner]
  | lockInner here there free taken kept =>
      refine ⟨⟨?_, ?_⟩, ⟨?_, ?_⟩⟩
      all_goals simp_all [Stage.outer, Stage.inner]
  | unlockInner here there free kept =>
      refine ⟨⟨?_, ?_⟩, ⟨?_, ?_⟩⟩
      all_goals simp_all [Stage.outer, Stage.inner]
  | unlockOuter here there free kept =>
      refine ⟨⟨?_, ?_⟩, ⟨?_, ?_⟩⟩
      all_goals simp_all [Stage.outer, Stage.inner]

def Stage.proper : Party → Stage → Prop
  | .writer, stage => stage ≠ .lower
  | .reader, stage => stage ≠ .store ∧ stage ≠ .raise ∧ stage ≠ .increment

theorem act_proper (act : Act p g l g' l') : l'.stage.proper p := by
  cases act with
  | testWriter | testReader => split <;> simp [Stage.proper]
  | _ => simp [Stage.proper]

structure Inv (s : State Party Shared Local) : Prop where
  proper : ∀ p, (s.locals p).stage.proper p
  held : ∀ p, Held (s.shared.outer p) (s.locals p) (s.locals (other p))

theorem Inv.start : Inv start :=
  ⟨fun p => by cases p <;> simp [Deadlock.start, Stage.proper],
    fun p => by cases p <;> exact ⟨rfl, rfl⟩⟩

theorem other_ne (p : Party) : other p ≠ p := by
  cases p <;> exact nofun

theorem other_other (p : Party) : other (other p) = p := by
  cases p <;> rfl

theorem eq_other {p q : Party} (apart : q ≠ p) : q = other p := by
  cases p <;> cases q <;> first | rfl | exact (apart rfl).elim

theorem Inv.step (inv : Inv s) (move : Step Act s t) : Inv t := by
  cases move with
  | turn p acted =>
      rename_i g' l'
      have theirs := inv.held (other p)
      rw [other_other] at theirs
      obtain ⟨mine, theirs⟩ := (inv.held p).outer theirs acted
      refine ⟨fun q => ?_, fun q => ?_⟩
      · by_cases same : q = p
        · subst same
          simpa only [Function.update_self] using act_proper acted
        · simpa only [Function.update_of_ne same] using inv.proper q
      · by_cases same : q = p
        · subst same
          simpa only [Function.update_self, Function.update_of_ne (other_ne q)] using mine
        · obtain rfl := eq_other same
          simpa only [Function.update_of_ne same, other_other, Function.update_self] using theirs

theorem inv_reachable (run : Run Act start s) : Inv s :=
  run.invariant Inv.start fun _ _ move inv => inv.step move

def Stage.rank : Stage → Nat
  | .lockInner => 0
  | .lockOuter => 1
  | .unlockOuter => 2
  | .unlockInner => 3
  | .increment | .lower => 4
  | .raise => 5
  | .print => 6
  | .store => 7
  | .test => 8

theorem act_rank (act : Act p g l g' l') (apart : l.stage ≠ .lockInner) :
    l'.stage.rank < l.stage.rank := by
  cases act with
  | lock2 | lockReader1 => exact (apart rfl).elim
  | testWriter | testReader => split <;> simp [Stage.rank]
  | lock1 | store | printWriter | raise | increment | unlock2 | unlock1 | lockReader2 | printReader
  | lower | unlockReader1 | unlockReader2 => simp [Stage.rank]

theorem act_waits (act : Act p g l g' l') (waits : l.stage = .lockInner) :
    g.outer (other p) = false := by
  cases act with
  | lock2 free | lockReader1 free => exact free
  | _ => cases waits

theorem exists_act (proper : l.stage.proper p) (apart : l.stage ≠ .lockInner)
    (enters : l.stage = .lockOuter → g.outer p = false) : ∃ g' l', Act p g l g' l' := by
  obtain ⟨stage, item⟩ := l
  cases p with
  | writer =>
      cases stage with
      | lockOuter => exact ⟨_, _, .lock1 (enters rfl)⟩
      | lockInner => exact (apart rfl).elim
      | test => exact ⟨_, _, .testWriter⟩
      | store => exact ⟨_, _, .store⟩
      | print => exact ⟨_, _, .printWriter⟩
      | raise => exact ⟨_, _, .raise⟩
      | increment => exact ⟨_, _, .increment⟩
      | lower => exact (proper rfl).elim
      | unlockInner => exact ⟨_, _, .unlock2⟩
      | unlockOuter => exact ⟨_, _, .unlock1⟩
  | reader =>
      cases stage with
      | lockOuter => exact ⟨_, _, .lockReader2 (enters rfl)⟩
      | lockInner => exact (apart rfl).elim
      | test => exact ⟨_, _, .testReader⟩
      | store => exact (proper.1 rfl).elim
      | print => exact ⟨_, _, .printReader⟩
      | raise => exact (proper.2.1 rfl).elim
      | increment => exact (proper.2.2 rfl).elim
      | lower => exact ⟨_, _, .lower⟩
      | unlockInner => exact ⟨_, _, .unlockReader1⟩
      | unlockOuter => exact ⟨_, _, .unlockReader2⟩

theorem Inv.go (inv : Inv s) : Crossed s ∨ ∃ t, Step Act s t ∧ Inv t ∧
    ∑ p, (t.locals p).stage.rank < ∑ p, (s.locals p).stage.rank := by
  have further (p : Party) (apart : (s.locals p).stage ≠ .lockInner)
      (enters : (s.locals p).stage = .lockOuter → s.shared.outer p = false) :
      ∃ t, Step Act s t ∧ Inv t ∧
        ∑ p, (t.locals p).stage.rank < ∑ p, (s.locals p).stage.rank := by
    obtain ⟨g', l', act⟩ := exists_act (inv.proper p) apart enters
    have lower := act_rank act apart
    exact ⟨_, .turn p act, inv.step (.turn p act),
      @sum_rank_lt _ Shared _ _ _ (fun _ _ l => l.stage.rank) s p g' l' lower fun _ _ => rfl⟩
  by_cases crossed : Crossed s
  · exact .inl crossed
  · obtain ⟨p, apart⟩ := not_forall.mp crossed
    right
    by_cases blocked : (s.locals p).stage = .lockOuter ∧ s.shared.outer p = true
    · have owned := (inv.held p).owned
      rw [blocked.1, blocked.2] at owned
      have inside : (s.locals (other p)).stage.inner = true := owned.symm
      refine further (other p) ?_ ?_
      · intro waits
        rw [waits] at inside
        cases inside
      · intro waits
        rw [waits] at inside
        cases inside
    · refine further p apart fun waits => ?_
      cases held : s.shared.outer p with
      | false => rfl
      | true => exact (blocked ⟨waits, held⟩).elim

theorem Inv.stuck (inv : Inv s) (crossed : Crossed s) : ¬Step Act s t := by
  rintro ⟨p, acted⟩
  have free := act_waits acted (crossed p)
  have owned := (inv.held (other p)).owned
  rw [crossed (other p), free] at owned
  cases owned

theorem Inv.exists_crossed (inv : Inv s) : ∃ t, Run Act s t ∧ Crossed t := by
  obtain ⟨t, run, crossed, _⟩ := exists_finished (fun _ _ (l : Local) => l.stage.rank)
    (fun _ inv => inv.go) inv
  exact ⟨t, run, crossed⟩

end

/-! Any number of bytes can get through before. -/

theorem write_alone (locals : Party → Local) {g : Shared} (item : Int8) (free : g.mutex1 = false)
    (free' : g.mutex2 = false) (down : g.bufferHasItem = 0) :
    Run Act (solo locals .writer g ⟨.lockOuter, item⟩)
      (solo locals .writer ⟨item.toUInt8, 1, false, false, g.stored ++ [item.toUInt8], g.printed⟩
        ⟨.lockOuter, incremented item⟩) := by
  let locked : Shared := { g with mutex1 := true }
  let inside : Shared := { locked with mutex2 := true }
  let stored : Shared :=
    { inside with buffer := item.toUInt8, stored := g.stored ++ [item.toUInt8] }
  let raised : Shared := { stored with bufferHasItem := 1 }
  have outer := Step.solo locals .writer (@Act.lock1 g item free)
  have inner := Step.solo locals .writer (@Act.lock2 locked item free')
  have test := Step.solo locals .writer (@Act.testWriter inside item)
  have store := Step.solo locals .writer (@Act.store inside item)
  have print := Step.solo locals .writer (@Act.printWriter stored item)
  have raise := Step.solo locals .writer (@Act.raise stored item)
  have increment := Step.solo locals .writer (@Act.increment raised item)
  have inner' := Step.solo locals .writer (@Act.unlock2 raised (incremented item))
  have outer' := Step.solo locals .writer
    (@Act.unlock1 { raised with mutex2 := false } (incremented item))
  rw [if_pos (show inside.bufferHasItem = 0 from down)] at test
  exact .head outer (.head inner (.head test (.head store (.head print (.head raise (.head increment
    (.head inner' (.single outer'))))))))

theorem read_alone (locals : Party → Local) {g : Shared} (item : Int8) (free : g.mutex1 = false)
    (free' : g.mutex2 = false) (up : g.bufferHasItem = 1) :
    Run Act (solo locals .reader g ⟨.lockOuter, item⟩)
      (solo locals .reader ⟨g.buffer, 0, false, false, g.stored, g.printed ++ [g.buffer]⟩
        ⟨.lockOuter, item⟩) := by
  let locked : Shared := { g with mutex2 := true }
  let inside : Shared := { locked with mutex1 := true }
  let printed : Shared := { inside with printed := g.printed ++ [g.buffer] }
  let lowered : Shared := { printed with bufferHasItem := 0 }
  have outer := Step.solo locals .reader (@Act.lockReader2 g item free')
  have inner := Step.solo locals .reader (@Act.lockReader1 locked item free)
  have test := Step.solo locals .reader (@Act.testReader inside item)
  have print := Step.solo locals .reader (@Act.printReader inside item)
  have lower := Step.solo locals .reader (@Act.lower printed item)
  have inner' := Step.solo locals .reader (@Act.unlockReader1 lowered item)
  have outer' := Step.solo locals .reader (@Act.unlockReader2 { lowered with mutex1 := false } item)
  rw [if_pos (show inside.bufferHasItem = 1 from up)] at test
  exact .head outer (.head inner (.head test (.head print (.head lower (.head inner'
    (.single outer'))))))

theorem exists_rounds (n : Nat) : ∃ s, Run Act start s ∧ s.shared.printed.length = n ∧
    s.shared.bufferHasItem = 0 ∧ s.shared.mutex1 = false ∧ s.shared.mutex2 = false ∧
    ∃ writer reader, s.locals .writer = ⟨.lockOuter, writer⟩ ∧ s.locals .reader = ⟨.lockOuter, reader⟩ := by
  induction n with
  | zero => exact ⟨start, .refl, rfl, rfl, rfl, rfl, 0, 0, rfl, rfl⟩
  | succ n ih =>
      obtain ⟨⟨g, locals⟩, run, length, down, free, free', writer, reader, atWriter, atReader⟩ := ih
      have wrote := write_alone locals writer free free' down
      rw [← atWriter, solo_self] at wrote
      have read := @read_alone (Function.update locals .writer ⟨.lockOuter, incremented writer⟩)
        ⟨writer.toUInt8, 1, false, false, g.stored ++ [writer.toUInt8], g.printed⟩ reader rfl rfl rfl
      have there : Function.update locals .writer ⟨.lockOuter, incremented writer⟩ .reader =
          ⟨.lockOuter, reader⟩ := atReader
      rw [← there, solo_self] at read
      refine ⟨_, run.trans (wrote.trans read), ?_, rfl, rfl, rfl, incremented writer, reader, ?_⟩
      · have longer : (g.printed ++ [writer.toUInt8]).length = n + 1 := by
          rw [List.length_append, List.length_singleton]
          exact congrArg (· + 1) length
        exact longer
      · refine ⟨rfl, ?_⟩
        simp only [solo, Function.update_self]
        exact there

/-- The bytes are printed in order until the threads wait for each other's mutex. That is the only
state without a next action, it can come about after any number of bytes, and from any state. -/
theorem deadlocks : (∀ s, Run Act start s →
      s.shared.printed = (List.range s.shared.printed.length).map UInt8.ofNat ∧
      ((∀ t, ¬Step Act s t) ↔ Crossed s) ∧ ∃ t, Run Act s t ∧ Crossed t) ∧
    ∀ n, ∃ s, Run Act start s ∧ Crossed s ∧ s.shared.printed.length = n := by
  constructor
  · intro s run
    have inv := inv_reachable run
    refine ⟨?_, ⟨fun stuck => ?_, fun crossed t => inv.stuck crossed⟩, inv.exists_crossed⟩
    · have buffer := inv_run run
      have bytes : s.shared.stored = (List.range s.shared.stored.length).map UInt8.ofNat := buffer.bytes
      have before : s.shared.printed <+: s.shared.stored := by
        by_cases full : ReaderWriter.Full s.shared.forget (s.locals .writer).forget
            (s.locals .reader).forget
        · have one : s.shared.stored = s.shared.printed ++ [s.shared.buffer] := buffer.full full
          exact one ▸ List.prefix_append _ _
        · have all : s.shared.stored = s.shared.printed := buffer.empty full
          exact all ▸ List.prefix_rfl
      have fits := before.length_le
      rw [List.prefix_iff_eq_take, bytes, ← List.map_take, List.take_range, Nat.min_eq_left] at before
      · exact before
      · exact fits
    · rcases inv.go with crossed | ⟨t, move, _⟩
      · exact crossed
      · exact (stuck t move).elim
  · intro n
    obtain ⟨⟨g, locals⟩, run, length, _, free, free', writer, reader, atWriter, atReader⟩ :=
      exists_rounds n
    have outer : Step Act ⟨g, locals⟩ ⟨{ g with mutex1 := true },
        Function.update locals .writer ⟨.lockInner, writer⟩⟩ := by
      refine .turn Party.writer ?_
      rw [atWriter]
      exact .lock1 free
    have outer' : Step Act ⟨{ g with mutex1 := true },
        Function.update locals .writer ⟨.lockInner, writer⟩⟩ ⟨{ g with mutex1 := true, mutex2 := true },
        Function.update (Function.update locals .writer ⟨.lockInner, writer⟩) .reader
          ⟨.lockInner, reader⟩⟩ := by
      refine .turn Party.reader ?_
      have there : Function.update locals .writer ⟨.lockInner, writer⟩ .reader =
          ⟨.lockOuter, reader⟩ := atReader
      simp only [there]
      exact .lockReader2 free'
    refine ⟨_, (run.tail outer).tail outer', ?_, length⟩
    intro p
    cases p <;> rfl

end CudaOpenMp.Deadlock
