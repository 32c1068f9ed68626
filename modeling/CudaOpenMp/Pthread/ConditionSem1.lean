import CudaOpenMp.Library.Interleaving
import CudaOpenMp.Library.RingBuffer

/-!
The ring of `condition_sem1.c`, which two counting semaphores protect without a mutex.
-/

namespace CudaOpenMp.ConditionSem1

open Interleaving

inductive Party where
  | producer
  | consumer
deriving DecidableEq

/-- The place in the loop of a thread, named after what is done next. -/
inductive Stage where
  | semWait
  | store
  | wrap
  | printProduce
  | printConsume
  | clear
  | semPost
  | advance
deriving DecidableEq

/-- `pos` is `p` in the producer and `c` in the consumer, which has no `item`. -/
structure Local where
  stage : Stage
  pos : Nat
  item : Int

/-- `stored` and `printed` are the slots and values that the producer has stored and the consumer
has printed. The program does not read them. -/
structure Shared where
  queue : Nat → Int
  blankNumber : Nat
  productNumber : Nat
  stored : List (Nat × Int)
  printed : List (Nat × Int)

inductive Act (num : Nat) : Action Party Shared Local
  | waitBlank {g : Shared} {p : Nat} {item : Int} : 0 < g.blankNumber →
      Act num .producer g ⟨.semWait, p, item⟩
        { g with blankNumber := g.blankNumber - 1 } ⟨.store, p, item⟩
  | store {g : Shared} {p : Nat} {item : Int} :
      Act num .producer g ⟨.store, p, item⟩
        { g with queue := Function.update g.queue p item, stored := g.stored ++ [(p, item)] }
        ⟨.wrap, p, item + 1⟩
  | wrap {g : Shared} {p : Nat} {item : Int} :
      Act num .producer g ⟨.wrap, p, item⟩ g
        ⟨.printProduce, p, if item = 1000 then 0 else item⟩
  | printProduce {g : Shared} {p : Nat} {item : Int} :
      Act num .producer g ⟨.printProduce, p, item⟩ g ⟨.semPost, p, item⟩
  | postProduct {g : Shared} {p : Nat} {item : Int} :
      Act num .producer g ⟨.semPost, p, item⟩
        { g with productNumber := g.productNumber + 1 } ⟨.advance, p, item⟩
  | advanceProducer {g : Shared} {p : Nat} {item : Int} :
      Act num .producer g ⟨.advance, p, item⟩ g ⟨.semWait, (p + 1) % num, item⟩
  | waitProduct {g : Shared} {c : Nat} {item : Int} : 0 < g.productNumber →
      Act num .consumer g ⟨.semWait, c, item⟩
        { g with productNumber := g.productNumber - 1 } ⟨.printConsume, c, item⟩
  | printConsume {g : Shared} {c : Nat} {item : Int} :
      Act num .consumer g ⟨.printConsume, c, item⟩
        { g with printed := g.printed ++ [(c, g.queue c)] } ⟨.clear, c, item⟩
  | clear {g : Shared} {c : Nat} {item : Int} :
      Act num .consumer g ⟨.clear, c, item⟩
        { g with queue := Function.update g.queue c 0 } ⟨.semPost, c, item⟩
  | postBlank {g : Shared} {c : Nat} {item : Int} :
      Act num .consumer g ⟨.semPost, c, item⟩
        { g with blankNumber := g.blankNumber + 1 } ⟨.advance, c, item⟩
  | advanceConsumer {g : Shared} {c : Nat} {item : Int} :
      Act num .consumer g ⟨.advance, c, item⟩ g ⟨.semWait, (c + 1) % num, item⟩

def start (num : Nat) : State Party Shared Local where
  shared := ⟨fun _ => 0, num, 0, [], []⟩
  locals := fun _ => ⟨.semWait, 0, 0⟩

def Stage.before : Stage → Nat
  | .store | .printConsume => 1
  | .semWait | .wrap | .printProduce | .clear | .semPost | .advance => 0

def Stage.after : Stage → Nat
  | .wrap | .printProduce | .clear | .semPost => 1
  | .semWait | .store | .printConsume | .advance => 0

def Stage.inProgress (stage : Stage) : Nat := stage.before + stage.after

def Stage.behind : Stage → Nat
  | .wrap | .printProduce | .clear | .semPost | .advance => 1
  | .semWait | .store | .printConsume => 0

/-- The slot that the next step of a thread writes. -/
def writes (party : Party) (l : Local) : Option Nat :=
  match party, l.stage with
  | .producer, .store | .consumer, .clear => some l.pos
  | _, _ => none

/-- The slot that the next step of a thread reads. -/
def reads (party : Party) (l : Local) : Option Nat :=
  match party, l.stage with
  | .producer, .printProduce | .consumer, .printConsume => some l.pos
  | _, _ => none

def Shared.Unconsumed (g : Shared) (slot : Nat) : Prop :=
  RingBuffer.Unconsumed g.stored g.printed slot

structure Inv (num : Nat) (g : Shared) (l m : Local) : Prop where
  tickets : g.blankNumber + g.productNumber + (l.stage.inProgress + m.stage.inProgress) = num
  items : g.stored.length = g.printed.length + g.productNumber + (l.stage.after + m.stage.before)
  write : ∃ turn, l.pos = turn % num ∧ g.stored.length = turn + l.stage.behind
  read : ∃ turn, m.pos = turn % num ∧ g.printed.length = turn + m.stage.behind
  ring : RingBuffer num g.queue g.stored g.printed

section
variable {num : Nat} {g g' : Shared} {l l' m m' : Local}

theorem Inv.start : Inv num (start num).shared ⟨.semWait, 0, 0⟩ ⟨.semWait, 0, 0⟩ where
  tickets := by simp [ConditionSem1.start, Stage.inProgress, Stage.before, Stage.after]
  items := by simp [ConditionSem1.start, Stage.before, Stage.after]
  write := ⟨0, by simp, rfl⟩
  read := ⟨0, by simp, rfl⟩
  ring := RingBuffer.empty

theorem next_turn {pos turn : Nat} (here : pos = turn % num) :
    (pos + 1) % num = (turn + 1) % num := by
  rw [here, Nat.mod_add_mod]

theorem Inv.room (inv : Inv num g l m) (stage : l.stage = .store) :
    g.stored.length < g.printed.length + num := by
  have tickets := inv.tickets
  have items := inv.items
  rw [stage] at tickets items
  simp only [Stage.inProgress, Stage.before, Stage.after] at tickets items
  omega

theorem Inv.writes_at (inv : Inv num g l m) (stage : l.stage = .store) :
    l.pos = g.stored.length % num := by
  obtain ⟨turn, here, length⟩ := inv.write
  rw [stage] at length
  rw [here, length]
  rfl

theorem Inv.item (inv : Inv num g l m) (stage : m.stage = .printConsume) :
    g.printed.length < g.stored.length := by
  have items := inv.items
  rw [stage] at items
  simp only [Stage.before] at items
  omega

theorem Inv.reads_at (inv : Inv num g l m) (stage : m.stage = .printConsume) :
    m.pos = g.printed.length % num := by
  obtain ⟨turn, here, length⟩ := inv.read
  rw [stage] at length
  rw [here, length]
  rfl

theorem Inv.cleared (inv : Inv num g l m) (stage : m.stage = .clear) : ¬g.Unconsumed m.pos := by
  have tickets := inv.tickets
  have items := inv.items
  obtain ⟨turn, here, length⟩ := inv.read
  rw [stage] at tickets items length
  simp only [Stage.inProgress, Stage.before, Stage.after, Stage.behind] at tickets items length
  rw [here]
  exact inv.ring.vacated (by omega) (by omega)

theorem Inv.producer (inv : Inv num g l m) (act : Act num .producer g l g' l') :
    Inv num g' l' m := by
  have ⟨tickets, items, ⟨turn, here, length⟩, read, ring⟩ := inv
  cases act with
  | waitBlank positive =>
      have before : g.blankNumber + g.productNumber + (0 + m.stage.inProgress) = num := tickets
      refine ⟨?_, items, ⟨turn, here, length⟩, read, ring⟩
      change g.blankNumber - 1 + g.productNumber + (1 + m.stage.inProgress) = num
      omega
  | store =>
      have place := inv.writes_at rfl
      have room := inv.room rfl
      have before : g.stored.length = g.printed.length + g.productNumber + (0 + m.stage.before) :=
        items
      simp only at place
      subst place
      refine ⟨tickets, ?_, ⟨g.stored.length, rfl, by simp [Stage.behind]⟩, read, ring.store room _⟩
      change (g.stored ++ [_]).length = g.printed.length + g.productNumber + (1 + m.stage.before)
      rw [List.length_append, List.length_singleton]
      omega
  | wrap => exact ⟨tickets, items, ⟨turn, here, length⟩, read, ring⟩
  | printProduce => exact ⟨tickets, items, ⟨turn, here, length⟩, read, ring⟩
  | postProduct =>
      have busy : g.blankNumber + g.productNumber + (1 + m.stage.inProgress) = num := tickets
      have before : g.stored.length = g.printed.length + g.productNumber + (1 + m.stage.before) :=
        items
      refine ⟨?_, ?_, ⟨turn, here, length⟩, read, ring⟩
      · change g.blankNumber + (g.productNumber + 1) + (0 + m.stage.inProgress) = num
        omega
      · change g.stored.length = g.printed.length + (g.productNumber + 1) + (0 + m.stage.before)
        omega
  | advanceProducer => exact ⟨tickets, items, ⟨turn + 1, next_turn here, length⟩, read, ring⟩

theorem Inv.consumer (inv : Inv num g l m) (act : Act num .consumer g m g' m') :
    Inv num g' l m' := by
  have ⟨tickets, items, write, ⟨turn, here, length⟩, ring⟩ := inv
  cases act with
  | waitProduct positive =>
      have before : g.blankNumber + g.productNumber + (l.stage.inProgress + 0) = num := tickets
      have left : g.stored.length = g.printed.length + g.productNumber + (l.stage.after + 0) :=
        items
      refine ⟨?_, ?_, write, ⟨turn, here, length⟩, ring⟩
      · change g.blankNumber + (g.productNumber - 1) + (l.stage.inProgress + 1) = num
        omega
      · change g.stored.length = g.printed.length + (g.productNumber - 1) + (l.stage.after + 1)
        omega
  | printConsume =>
      have place := inv.reads_at rfl
      have item := inv.item rfl
      have before : g.stored.length = g.printed.length + g.productNumber + (l.stage.after + 1) :=
        items
      simp only at place
      subst place
      refine ⟨tickets, ?_, write, ⟨g.printed.length, rfl, by simp [Stage.behind]⟩, ring.take item⟩
      change g.stored.length = (g.printed ++ [_]).length + g.productNumber + (l.stage.after + 0)
      rw [List.length_append, List.length_singleton]
      omega
  | clear => exact ⟨tickets, items, write, ⟨turn, here, length⟩, ring.overwrite 0 (inv.cleared rfl)⟩
  | postBlank =>
      have busy : g.blankNumber + g.productNumber + (l.stage.inProgress + 1) = num := tickets
      refine ⟨?_, items, write, ⟨turn, here, length⟩, ring⟩
      change g.blankNumber + 1 + g.productNumber + (l.stage.inProgress + 0) = num
      omega
  | advanceConsumer => exact ⟨tickets, items, write, ⟨turn + 1, next_turn here, length⟩, ring⟩

end

theorem inv_run {num : Nat} {s : State Party Shared Local} (run : Run (Act num) (start num) s) :
    Inv num s.shared (s.locals .producer) (s.locals .consumer) := by
  induction run with
  | refl => exact Inv.start
  | tail _ move inv =>
      cases move with
      | turn party acted =>
          cases party with
          | producer => simpa using inv.producer acted
          | consumer => simpa using inv.consumer acted

/-! No slot is written or read too early. -/

section
variable {num : Nat} {g : Shared} {l m : Local} {slot : Nat}

theorem Inv.producer_writes (inv : Inv num g l m) (writing : writes .producer l = some slot) :
    ¬g.Unconsumed slot := by
  cases stage : l.stage with
  | store =>
      simp only [writes, stage, Option.some.injEq] at writing
      rw [← writing, inv.writes_at stage]
      exact inv.ring.vacant (inv.room stage)
  | _ => simp [writes, stage] at writing

theorem Inv.consumer_writes (inv : Inv num g l m) (writing : writes .consumer m = some slot) :
    ¬g.Unconsumed slot := by
  cases stage : m.stage with
  | clear =>
      simp only [writes, stage, Option.some.injEq] at writing
      rw [← writing]
      exact inv.cleared stage
  | _ => simp [writes, stage] at writing

theorem Inv.producer_reads (inv : Inv num g l m) (reading : reads .producer l = some slot) :
    g.Unconsumed slot := by
  have items := inv.items
  obtain ⟨turn, here, length⟩ := inv.write
  cases stage : l.stage with
  | printProduce =>
      simp only [reads, stage, Option.some.injEq] at reading
      rw [stage] at items length
      simp only [Stage.after, Stage.behind] at items length
      rw [← reading, here]
      exact inv.ring.unconsumed (by omega) (by omega)
  | _ => simp [reads, stage] at reading

theorem Inv.consumer_reads (inv : Inv num g l m) (reading : reads .consumer m = some slot) :
    g.Unconsumed slot := by
  cases stage : m.stage with
  | printConsume =>
      simp only [reads, stage, Option.some.injEq] at reading
      rw [← reading, inv.reads_at stage]
      exact inv.ring.unconsumed (Nat.le_refl _) (inv.item stage)
  | _ => simp [reads, stage] at reading

theorem writes_pos {party : Party} (writing : writes party l = some slot) : slot = l.pos := by
  cases party <;> cases stage : l.stage <;> simp_all [writes]

theorem reads_pos {party : Party} (reading : reads party l = some slot) : slot = l.pos := by
  cases party <;> cases stage : l.stage <;> simp_all [reads]

end

theorem pos_lt {num : Nat} (positive : 0 < num) {s : State Party Shared Local}
    (run : Run (Act num) (start num) s) (party : Party) : (s.locals party).pos < num := by
  obtain ⟨_, _, ⟨write, writeHere, _⟩, ⟨read, readHere, _⟩, _⟩ := inv_run run
  cases party with
  | producer =>
      rw [writeHere]
      exact Nat.mod_lt _ positive
  | consumer =>
      rw [readHere]
      exact Nat.mod_lt _ positive

/-- The consumer prints what the producer stored, slot by slot and in the same order, and the
two semaphores account for every slot. -/
theorem printed_in_order {num : Nat} (positive : 0 < num) {s : State Party Shared Local}
    (run : Run (Act num) (start num) s) :
    s.shared.printed <+: s.shared.stored ∧
      s.shared.printed.map Prod.snd <+: s.shared.stored.map Prod.snd ∧
      (∀ party slot, writes party (s.locals party) = some slot →
        slot < num ∧ ¬s.shared.Unconsumed slot) ∧
      (∀ party slot, reads party (s.locals party) = some slot →
        slot < num ∧ s.shared.Unconsumed slot) ∧
      s.shared.blankNumber + s.shared.productNumber +
        ((s.locals .producer).stage.inProgress + (s.locals .consumer).stage.inProgress) = num := by
  have inv := inv_run run
  refine ⟨inv.ring.order, inv.ring.order.map Prod.snd, ?_, ?_, inv.tickets⟩
  · intro party slot writing
    refine ⟨writes_pos writing ▸ pos_lt positive run party, ?_⟩
    cases party with
    | producer => exact inv.producer_writes writing
    | consumer => exact inv.consumer_writes writing
  · intro party slot reading
    refine ⟨reads_pos reading ▸ pos_lt positive run party, ?_⟩
    cases party with
    | producer => exact inv.producer_reads reading
    | consumer => exact inv.consumer_reads reading

/-! Rounds of one thread while the other one stands still. -/

theorem produce_alone {num : Nat} (locals : Party → Local) {g : Shared} (p : Nat) (item : Int)
    (blank : 0 < g.blankNumber) :
    Run (Act num) (solo locals .producer g ⟨.semWait, p, item⟩)
      (solo locals .producer ⟨Function.update g.queue p item, g.blankNumber - 1,
        g.productNumber + 1, g.stored ++ [(p, item)], g.printed⟩
        ⟨.semWait, (p + 1) % num, if item + 1 = 1000 then 0 else item + 1⟩) := by
  let waited : Shared := { g with blankNumber := g.blankNumber - 1 }
  let filled : Shared :=
    { waited with queue := Function.update g.queue p item, stored := g.stored ++ [(p, item)] }
  let posted : Shared := { filled with productNumber := g.productNumber + 1 }
  have wait := Step.solo locals .producer (@Act.waitBlank num g p item blank)
  have store := Step.solo locals .producer (@Act.store num waited p item)
  have wrap := Step.solo locals .producer (@Act.wrap num filled p (item + 1))
  generalize (if item + 1 = 1000 then 0 else item + 1) = next at wrap ⊢
  have print := Step.solo locals .producer (@Act.printProduce num filled p next)
  have post := Step.solo locals .producer (@Act.postProduct num filled p next)
  have advance := Step.solo locals .producer (@Act.advanceProducer num posted p next)
  exact .head wait (.head store (.head wrap (.head print (.head post (.single advance)))))

theorem consume_alone {num : Nat} (locals : Party → Local) {g : Shared} (c : Nat) (item : Int)
    (product : 0 < g.productNumber) :
    Run (Act num) (solo locals .consumer g ⟨.semWait, c, item⟩)
      (solo locals .consumer ⟨Function.update g.queue c 0, g.blankNumber + 1,
        g.productNumber - 1, g.stored, g.printed ++ [(c, g.queue c)]⟩
        ⟨.semWait, (c + 1) % num, item⟩) := by
  let waited : Shared := { g with productNumber := g.productNumber - 1 }
  let printed : Shared := { waited with printed := g.printed ++ [(c, g.queue c)] }
  let cleared : Shared := { printed with queue := Function.update g.queue c 0 }
  let posted : Shared := { cleared with blankNumber := g.blankNumber + 1 }
  have wait := Step.solo locals .consumer (@Act.waitProduct num g c item product)
  have print := Step.solo locals .consumer (@Act.printConsume num waited c item)
  have clear := Step.solo locals .consumer (@Act.clear num printed c item)
  have post := Step.solo locals .consumer (@Act.postBlank num cleared c item)
  have advance := Step.solo locals .consumer (@Act.advanceConsumer num posted c item)
  exact .head wait (.head print (.head clear (.head post (.single advance))))

theorem printed_in_order_once : ∃ s, Run (Act 1) (start 1) s ∧ s.shared.printed = [(0, 0)] ∧
    s.shared.printed <+: s.shared.stored := by
  let first := start 1
  let middle : State Party Shared Local :=
    ⟨⟨Function.update first.shared.queue 0 0, 0, 1, [(0, 0)], []⟩,
      Function.update first.locals .producer ⟨.semWait, 0, 1⟩⟩
  have produced : Run (Act 1) first middle := by
    have run := @produce_alone 1 first.locals first.shared 0 0 (by decide)
    rwa [show Local.mk .semWait 0 0 = first.locals .producer from rfl, solo_self] at run
  have consumed := @consume_alone 1 middle.locals middle.shared 0 0 (by decide)
  rw [show Local.mk .semWait 0 0 = middle.locals .consumer from rfl, solo_self] at consumed
  have run := produced.trans consumed
  exact ⟨_, run, rfl, (printed_in_order (by decide) run).1⟩

end CudaOpenMp.ConditionSem1
