import CudaOpenMp.Library.RingBuffer
import CudaOpenMp.Pthread.ConditionCore
import Mathlib.Data.List.Infix

/-!
No item of the circular buffer is lost, overwritten or read twice, and its two threads never
both sleep.
-/

namespace CudaOpenMp.Condition

open Interleaving Monitors

def Stage.standing (p : Party) : Stage → Standing Cond
  | .idle | .lock => .outside
  | .waiting => .waiting (operation p).waitsFor
  | .test | .wait | .access | .advance | .wrap | .signal | .unlock => .inside

theorem act_call {p : Party} {g g' : Shared} {l l' : Local} (act : Act p g l g' l') :
    Call p g.monitor (l.stage.standing p) g'.monitor (l'.stage.standing p) := by
  cases act with
  | lock free => exact .lock free
  | resume awake free => exact .relock free awake
  | wait => exact .wait _
  | unlock => exact .unlock
  | spurious => exact .stay rfl fun _ _ asleep => (Monitor.wake_asleep asleep).2
  | signal signal => exact .stay signal.owner fun _ _ asleep => signal.asleep asleep
  | call | stop | go | access | advance | wrap => exact .stay rfl fun _ _ asleep => asleep

def position : Party → Products → Nat
  | .producer, products => products.posWriteTo
  | .consumer, products => products.posReadFrom

/-- A call has been made, and the buffer not yet been touched. -/
def Stage.entered : Stage → Bool
  | .lock | .test | .wait | .waiting | .access => true
  | .idle | .advance | .wrap | .signal | .unlock => false

/-- The buffer has been touched, and the call has not yet returned. -/
def Stage.leaving : Stage → Bool
  | .advance | .wrap | .signal | .unlock => true
  | .idle | .lock | .test | .wait | .waiting | .access => false

structure Own (p : Party) (g : Shared) (l : Local) : Prop where
  position : wrapped (position p g.products) = (g.history p).moved % bufferSize
  bound : Condition.position p g.products < bufferSize + if l.stage = .wrap then 1 else 0
  accessed : (g.history p).accessed.length =
    (g.history p).moved + if l.stage = .advance then 1 else 0
  passed : p = .producer →
    (g.history p).passed = (g.history p).accessed ++ if l.stage.entered then [l.item] else []
  returned : (g.history p).accessed =
    (g.history p).returned ++ if l.stage.leaving then [l.item] else []

theorem wrapped_of_lt {pos : Nat} (bound : pos < bufferSize) : wrapped pos = pos :=
  if_neg (Nat.not_le_of_lt bound)

theorem wrapped_lt (pos : Nat) : wrapped pos < bufferSize := by
  rw [wrapped]
  split
  · decide
  · omega

theorem wrapped_succ {pos n : Nat} (same : pos = n % bufferSize) :
    wrapped (pos + 1) = (n + 1) % bufferSize := by
  rw [wrapped, same]
  split
  · next last =>
    simp only [bufferSize] at last ⊢
    omega
  · next below =>
    simp only [bufferSize] at below ⊢
    omega

theorem Own.exact {p : Party} {g : Shared} {l : Local} (own : Own p g l) (outside : l.stage ≠ .wrap) :
    Condition.position p g.products < bufferSize ∧
      Condition.position p g.products = (g.history p).moved % bufferSize := by
  have bound := own.bound
  rw [if_neg outside, Nat.add_zero] at bound
  exact ⟨bound, (wrapped_of_lt bound).symm.trans own.position⟩

section
variable {p q : Party} {g g' : Shared} {l l' m : Local}

@[simp] theorem record_history (f : History → History) :
    (g.record p f).history p = f (g.history p) := Function.update_self ..

theorem record_other (f : History → History) (other : q ≠ p) :
    (g.record p f).history q = g.history q := Function.update_of_ne other ..

@[simp] theorem record_products (f : History → History) :
    (g.record p f).products = g.products := rfl

@[simp] theorem record_monitor (f : History → History) :
    (g.record p f).monitor = g.monitor := rfl

@[simp] theorem access_position (products : Products) (item : Int) :
    position q ((operation p).access products item).1 = position q products := by
  cases p <;> cases q <;> rfl

theorem advance_position (products : Products) :
    position p ((operation p).advance products) = position p products + 1 := by
  cases p <;> rfl

theorem wrap_position (products : Products) :
    position p ((operation p).wrap products) = wrapped (position p products) := by
  cases p <;> rfl

theorem wrap_other (products : Products) (other : q ≠ p) :
    position q ((operation p).wrap products) = position q products := by
  cases p <;> cases q <;> first | rfl | exact (other rfl).elim

theorem advance_other (products : Products) (other : q ≠ p) :
    position q ((operation p).advance products) = position q products := by
  cases p <;> cases q <;> first | rfl | exact (other rfl).elim

theorem produce_item (item : Int) (products : Products) :
    ((operation .producer).access products item).2 = item := rfl

theorem Own.step (own : Own p g l) (act : Act p g l g' l') : Own p g' l' := by
  have exactly := own.exact
  obtain ⟨place, bound, length, passed, returned⟩ := own
  cases act with
  | call =>
      refine ⟨?_, ?_, ?_, ?_, ?_⟩
      · simpa using place
      · simpa using bound
      · simpa using length
      · intro producer
        simpa [Stage.entered] using passed producer
      · simpa [Stage.leaving] using returned
  | lock | stop | go | spurious | wait | resume | signal =>
      exact ⟨place, bound, length, passed, returned⟩
  | access =>
      refine ⟨?_, ?_, ?_, ?_, ?_⟩
      · simpa using place
      · simpa using bound
      · simpa using length
      · rintro rfl
        simpa [Stage.entered, produce_item] using passed rfl
      · simpa [Stage.leaving] using returned
  | advance =>
      obtain ⟨below, same⟩ := exactly (by simp)
      refine ⟨?_, ?_, ?_, ?_, ?_⟩
      · simp only [record_products, advance_position, record_history]
        exact wrapped_succ same
      · simp only [record_products, advance_position, if_true]
        omega
      · simpa using length
      · intro producer
        simpa [Stage.entered] using passed producer
      · simpa [Stage.leaving] using returned
  | wrap =>
      have inside := wrapped_lt (Condition.position p g.products)
      refine ⟨?_, ?_, ?_, ?_, ?_⟩
      · rw [wrap_position, wrapped_of_lt inside]
        exact place
      · simpa [wrap_position] using inside
      · simpa using length
      · intro producer
        simpa [Stage.entered] using passed producer
      · simpa [Stage.leaving] using returned
  | unlock =>
      refine ⟨?_, ?_, ?_, ?_, ?_⟩
      · simpa using place
      · simpa using bound
      · simpa using length
      · intro producer
        simpa [Stage.entered] using passed producer
      · simpa [Stage.leaving] using returned

theorem act_history (act : Act p g l g' l') (other : q ≠ p) : g'.history q = g.history q := by
  cases act with
  | call | access | advance | unlock => exact record_other _ other
  | lock | stop | go | spurious | wait | resume | wrap | signal => rfl

theorem act_position (act : Act p g l g' l') (other : q ≠ p) :
    position q g'.products = position q g.products := by
  cases act with
  | access => exact access_position ..
  | advance => exact advance_other _ other
  | wrap => exact wrap_other _ other
  | call | lock | stop | go | spurious | wait | resume | signal | unlock => rfl

end

theorem own_stable : Stable Act Own where
  own := fun _ _ _ _ _ act own => own.step act
  others := by
    intro p q g l g' l' m apart act _ own
    have same := act_history act (Ne.symm apart)
    refine ⟨?_, ?_, ?_, ?_, ?_⟩
    · rw [act_position act (Ne.symm apart), same]
      exact own.position
    · rw [act_position act (Ne.symm apart)]
      exact own.bound
    · rw [same]
      exact own.accessed
    · rw [same]
      exact own.passed
    · rw [same]
      exact own.returned

structure Tested (p : Party) (g : Shared) (l : Local) : Prop where
  go : l.stage = .access ∨ l.stage = .advance → (operation p).stops g.products = false
  stop : l.stage = .wait → (operation p).stops g.products = true

section
variable {p q : Party} {g g' : Shared} {l l' m : Local}

theorem stops_congr {products products' : Products}
    (same : ∀ q, position q products' = position q products) :
    (operation p).stops products' = (operation p).stops products := by
  have write : products'.posWriteTo = products.posWriteTo := same .producer
  have read : products'.posReadFrom = products.posReadFrom := same .consumer
  cases p <;> simp only [operation, produce, consume, bufferIsFull, bufferIsEmpty, write, read]

theorem Tested.step (tested : Tested p g l) (act : Act p g l g' l') : Tested p g' l' := by
  obtain ⟨go, _⟩ := tested
  cases act with
  | stop stops => exact ⟨by simp, fun _ => stops⟩
  | go free => exact ⟨fun _ => free, by simp⟩
  | access =>
      refine ⟨?_, by simp⟩
      intro _
      rw [record_products, stops_congr fun q => access_position ..]
      exact go (Or.inl rfl)
  | call | lock | wait | spurious | resume | advance | wrap | signal | unlock =>
      exact ⟨by simp, by simp⟩

theorem act_positions (act : Act p g l g' l') (outside : l.stage.standing p ≠ .inside) :
    g'.products = g.products := by
  cases act with
  | access | advance | wrap => exact (outside rfl).elim
  | call | lock | stop | go | wait | spurious | resume | signal | unlock => rfl

theorem Tested.others (tested : Tested q g m) (act : Act p g l g' l')
    (exclusive : m.stage.standing q = .inside → l.stage.standing p ≠ .inside) :
    Tested q g' m := by
  obtain ⟨go, stop⟩ := tested
  constructor
  · intro stage
    have inside : m.stage.standing q = .inside := by
      rcases stage with here | here <;> rw [here] <;> rfl
    rw [act_positions act (exclusive inside)]
    exact go stage
  · intro stage
    have inside : m.stage.standing q = .inside := by
      rw [stage]
      rfl
    rw [act_positions act (exclusive inside)]
    exact stop stage

end

/-! The items between the two positions. -/

structure Ring (g : Shared) : Prop where
  lower : (g.history .consumer).moved ≤ (g.history .producer).moved
  upper : (g.history .producer).moved < (g.history .consumer).moved + bufferSize
  slots : ∀ k item, (g.history .consumer).moved ≤ k →
    (g.history .producer).accessed[k]? = some item →
      g.products.buffer (k % bufferSize) = item
  taken : (g.history .consumer).accessed <+: (g.history .producer).accessed

theorem bufferIsFull_iff {products : Products} {read write : Nat}
    (reads : products.posReadFrom = read % bufferSize)
    (writes : products.posWriteTo = write % bufferSize) (lower : read ≤ write)
    (upper : write < read + bufferSize) :
    bufferIsFull products = true ↔ write + 1 = read + bufferSize := by
  simp only [bufferIsFull, reads, writes, beq_iff_eq, bufferSize] at upper ⊢
  omega

theorem bufferIsEmpty_iff {products : Products} {read write : Nat}
    (reads : products.posReadFrom = read % bufferSize)
    (writes : products.posWriteTo = write % bufferSize) (lower : read ≤ write)
    (upper : write < read + bufferSize) : bufferIsEmpty products = true ↔ write = read := by
  simp only [bufferIsEmpty, reads, writes, beq_iff_eq, bufferSize] at upper ⊢
  omega

section
variable {g g' : Shared} {l l' : Local}

theorem Ring.room (ring : Ring g) (read : position .consumer g.products =
    (g.history .consumer).moved % bufferSize) (write : position .producer g.products =
    (g.history .producer).moved % bufferSize) (go : (operation .producer).stops g.products = false) :
    (g.history .producer).moved + 1 < (g.history .consumer).moved + bufferSize := by
  have full := bufferIsFull_iff read write ring.lower ring.upper
  have notFull : bufferIsFull g.products = false := go
  rw [notFull] at full
  have upper := ring.upper
  have different : (g.history .producer).moved + 1 ≠ (g.history .consumer).moved + bufferSize :=
    fun same => Bool.false_ne_true (full.mpr same)
  omega

theorem Ring.item (ring : Ring g) (read : position .consumer g.products =
    (g.history .consumer).moved % bufferSize) (write : position .producer g.products =
    (g.history .producer).moved % bufferSize) (go : (operation .consumer).stops g.products = false) :
    (g.history .consumer).moved < (g.history .producer).moved := by
  have empty := bufferIsEmpty_iff read write ring.lower ring.upper
  have notEmpty : bufferIsEmpty g.products = false := go
  rw [notEmpty] at empty
  have lower := ring.lower
  have different : (g.history .producer).moved ≠ (g.history .consumer).moved :=
    fun same => Bool.false_ne_true (empty.mpr same)
  omega

theorem Ring.write (ring : Ring g) (own : Own .producer g l) (stage : l.stage = .access)
    (room : (g.history .producer).moved + 1 < (g.history .consumer).moved + bufferSize) :
    Ring ({ g with products := (produce.access g.products l.item).1 }.record .producer fun h =>
      { h with accessed := h.accessed ++ [l.item] }) where
  lower := by
    rw [record_history, record_other _ (by decide)]
    exact ring.lower
  upper := by
    rw [record_history, record_other _ (by decide)]
    exact ring.upper
  slots := by
    intro k item low found
    have length := own.accessed
    have place : g.products.posWriteTo = (g.history .producer).moved % bufferSize :=
      (own.exact (by simp [stage])).2
    simp only [stage, reduceCtorEq, if_false, Nat.add_zero] at length
    rw [record_other _ (by decide)] at low
    rw [record_history] at found
    simp only [record_products, produce, place] at low found ⊢
    rcases Nat.lt_or_ge k (g.history .producer).accessed.length with before | behind
    · rw [List.getElem?_append_left before] at found
      have apart : k % bufferSize ≠ (g.history .producer).moved % bufferSize := by
        simp only [bufferSize] at room ⊢
        omega
      rw [Function.update_of_ne apart]
      exact ring.slots k item low found
    · obtain ⟨bound, value⟩ := List.getElem?_eq_some_iff.mp found
      rw [List.length_append, List.length_singleton] at bound
      have last : k = (g.history .producer).moved := by omega
      rw [List.getElem_append_right behind, List.getElem_singleton] at value
      rw [last, Function.update_self, value]
  taken := by
    rw [record_history, record_other _ (by decide)]
    exact ring.taken.trans (List.prefix_append _ _)

theorem Ring.read (ring : Ring g) (own : Own .consumer g l) (stage : l.stage = .access)
    (item : (g.history .consumer).moved < (g.history .producer).accessed.length) :
    Ring ({ g with products := (consume.access g.products l.item).1 }.record .consumer fun h =>
      { h with accessed := h.accessed ++ [(consume.access g.products l.item).2] }) where
  lower := by
    rw [record_history, record_other _ (by decide)]
    exact ring.lower
  upper := by
    rw [record_history, record_other _ (by decide)]
    exact ring.upper
  slots := by
    intro k value low found
    rw [record_history] at low
    rw [record_other _ (by decide)] at found
    exact ring.slots k value low found
  taken := by
    rw [record_history, record_other _ (by decide)]
    have length := own.accessed
    have place : g.products.posReadFrom = (g.history .consumer).moved % bufferSize :=
      (own.exact (by simp [stage])).2
    simp only [stage, reduceCtorEq, if_false, Nat.add_zero] at length
    apply RingBuffer.concat_prefix ring.taken
    have found := List.getElem?_eq_getElem item
    rw [length]
    simp only [consume, place]
    rw [ring.slots _ _ (Nat.le_refl _) found]
    exact found

theorem Ring.congr (ring : Ring g) (buffer : g'.products.buffer = g.products.buffer)
    (accessed : ∀ p, (g'.history p).accessed = (g.history p).accessed)
    (lower : (g'.history .consumer).moved ≤ (g'.history .producer).moved)
    (upper : (g'.history .producer).moved < (g'.history .consumer).moved + bufferSize)
    (later : (g.history .consumer).moved ≤ (g'.history .consumer).moved) : Ring g' where
  lower := lower
  upper := upper
  slots := by
    intro k item low found
    rw [accessed] at found
    rw [buffer]
    exact ring.slots k item (later.trans low) found
  taken := by
    rw [accessed, accessed]
    exact ring.taken

theorem Ring.same (ring : Ring g) (products : g'.products = g.products)
    (moved : ∀ p, (g'.history p).moved = (g.history p).moved)
    (accessed : ∀ p, (g'.history p).accessed = (g.history p).accessed) : Ring g' := by
  apply ring.congr (by rw [products]) accessed
  · rw [moved, moved]
    exact ring.lower
  · rw [moved, moved]
    exact ring.upper
  · rw [moved]

theorem record_same {α : Type} (field : History → α) {p q : Party} {f : History → History}
    (same : ∀ h, field (f h) = field h) :
    field ((g.record p f).history q) = field (g.history q) := by
  by_cases own : q = p
  · subst own
    rw [record_history, same]
  · rw [record_other _ own]

end

theorem Ring.step {p : Party} {g g' : Shared} {locals : Party → Local} {l l' : Local}
    (ring : Ring g) (own : ∀ q, Own q g (locals q)) (tested : Tested p g l)
    (here : locals p = l) (alone : l.stage.standing p = .inside → ∀ q, q ≠ p →
      (locals q).stage ≠ .wrap) (act : Act p g l g' l') : Ring g' := by
  have mine : Own p g l := here ▸ own p
  have exactly (inside : l.stage.standing p = .inside) (outside : l.stage ≠ .wrap) (q : Party) :
      position q g.products = (g.history q).moved % bufferSize := by
    refine ((own q).exact ?_).2
    by_cases same : q = p
    · subst same
      rwa [here]
    · exact alone inside q same
  cases act with
  | lock | stop | go | wait | spurious | resume | signal =>
      exact ring.same rfl (fun _ => rfl) fun _ => rfl
  | call | unlock =>
      exact ring.same rfl (fun _ => record_same History.moved fun _ => rfl)
        fun _ => record_same History.accessed fun _ => rfl
  | access =>
      have go := tested.go (Or.inl rfl)
      cases p with
      | producer =>
          exact ring.write mine rfl
            (ring.room (exactly rfl nofun .consumer) (exactly rfl nofun .producer) go)
      | consumer =>
          have some := ring.item (exactly rfl nofun .consumer) (exactly rfl nofun .producer) go
          have written := (own .producer).accessed
          exact ring.read mine rfl (by omega)
  | advance =>
      have go := tested.go (Or.inr rfl)
      cases p with
      | producer =>
          have room := ring.room (exactly rfl nofun .consumer) (exactly rfl nofun .producer) go
          have lower := ring.lower
          refine ring.congr rfl ?_ ?_ ?_ ?_
          · exact fun _ => record_same History.accessed fun _ => rfl
          · rw [record_history, record_other _ (by decide)]
            exact Nat.le_succ_of_le lower
          · rw [record_history, record_other _ (by decide)]
            exact room
          · rw [record_other _ (by decide)]
      | consumer =>
          have item := ring.item (exactly rfl nofun .consumer) (exactly rfl nofun .producer) go
          have upper := ring.upper
          refine ring.congr rfl ?_ ?_ ?_ ?_
          · exact fun _ => record_same History.accessed fun _ => rfl
          · rw [record_history, record_other _ (by decide)]
            exact item
          · rw [record_history, record_other _ (by decide)]
            simp only
            omega
          · rw [record_history]
            exact Nat.le_succ _
  | wrap =>
      have buffer : ((operation p).wrap g.products).buffer = g.products.buffer := by
        cases p <;> rfl
      exact ring.congr buffer (fun _ => rfl) ring.lower ring.upper (Nat.le_refl _)

/-- The position has been moved, and the other party not yet signalled. -/
def Stage.telling : Stage → Bool
  | .wrap | .signal => true
  | .idle | .lock | .test | .wait | .waiting | .access | .advance | .unlock => false

def other : Party → Party
  | .producer => .consumer
  | .consumer => .producer

theorem eq_other {p q : Party} (apart : q ≠ p) : q = other p := by
  cases p <;> cases q <;> first | rfl | exact (apart rfl).elim

theorem other_signals (p : Party) : (operation (other p)).signals = (operation p).waitsFor := by
  cases p <;> rfl

theorem act_asleep {p q : Party} {g g' : Shared} {l l' : Local} {c : Cond} (act : Act q g l g' l')
    (apart : q ≠ p) (asleep : g'.monitor.asleep p = some c) : g.monitor.asleep p = some c := by
  cases act with
  | call | lock | stop | go | resume | access | advance | wrap | unlock => exact asleep
  | wait =>
      rcases Monitor.wait_asleep asleep with ⟨rfl, _⟩ | ⟨_, before⟩
      · exact (apart rfl).elim
      · exact before
  | spurious => exact (Monitor.wake_asleep asleep).2
  | signal signal => exact signal.asleep asleep

/-- Whoever sleeps still has a reason, or is about to be signalled. -/
def Heard (g : Shared) (locals : Party → Local) : Prop :=
  ∀ p c, g.monitor.asleep p = some c →
    (operation p).stops g.products = true ∨ (locals (other p)).stage.telling = true

structure Inv (s : State Party Shared Local) : Prop where
  consistent : Consistent s.shared.monitor fun p => (s.locals p).stage.standing p
  own : ∀ p, Own p s.shared (s.locals p)
  tested : ∀ p, Tested p s.shared (s.locals p)
  ring : Ring s.shared
  heard : Heard s.shared s.locals

theorem own_asleep {p : Party} {g g' : Shared} {l l' : Local} {c : Cond} (act : Act p g l g' l')
    (tested : Tested p g l) (awake : l.stage.standing p ≠ .waiting c → g.monitor.asleep p ≠ some c)
    (asleep : g'.monitor.asleep p = some c) : (operation p).stops g'.products = true := by
  cases act with
  | wait => exact tested.stop rfl
  | spurious => exact ((Monitor.wake_asleep asleep).1 rfl).elim
  | resume up _ =>
      rw [Monitor.lock_asleep, up] at asleep
      cases asleep
  | signal signal => exact (awake nofun (signal.asleep asleep)).elim
  | call | lock | stop | go | access | advance | wrap | unlock => exact (awake nofun asleep).elim

theorem other_asleep {p : Party} {g g' : Shared} {l l' : Local} {c : Cond}
    (act : Act (other p) g l g' l')
    (consistent : ∀ q d, g.monitor.asleep q = some d → d = (operation q).waitsFor)
    (inside : l.stage = .signal → g.monitor.asleep (other p) = none)
    (heard : (operation p).stops g.products = true ∨ l.stage.telling = true)
    (asleep : g'.monitor.asleep p = some c) :
    (operation p).stops g'.products = true ∨ l'.stage.telling = true := by
  cases act with
  | advance | wrap => exact Or.inr rfl
  | signal signal =>
      refine (signal.none_asleep (i := p) ?_ ?_).elim
      · intro q found
        by_contra apart
        obtain rfl := eq_other apart
        rw [inside rfl] at found
        cases found
      · rw [asleep, other_signals, consistent p c (signal.asleep asleep)]
  | access =>
      refine Or.inl ?_
      rw [record_products, stops_congr fun q => access_position ..]
      exact heard.resolve_right nofun
  | call | lock | stop | go | wait | spurious | resume | unlock =>
      exact Or.inl (heard.resolve_right nofun)

theorem Inv.step {s t : State Party Shared Local} (inv : Inv s) (move : Step Act s t) : Inv t := by
  have consistent : Consistent t.shared.monitor fun p => (t.locals p).stage.standing p :=
    inv.consistent.step (fun g : Shared => g.monitor) (fun p (l : Local) => l.stage.standing p)
      (fun _ _ _ _ _ act => act_call act) move
  have own := own_stable.step move inv.own
  cases move with
  | turn p act =>
      rename_i g' l'
      refine ⟨consistent, own, ?_, ?_, ?_⟩
      · intro q
        by_cases same : q = p
        · subst same
          simp only [Function.update_self]
          exact (inv.tested q).step act
        · simp only [Function.update_of_ne same]
          apply (inv.tested q).others act
          intro there here
          exact same (inv.consistent.exclusive there here)
      · refine inv.ring.step inv.own (inv.tested p) rfl (fun inside q other wrap => ?_) act
        have there : (s.locals q).stage.standing q = .inside := by
          rw [wrap]
          rfl
        exact other (inv.consistent.exclusive there inside)
      · intro q c asleep
        by_cases same : q = p
        · subst same
          refine Or.inl (own_asleep act (inv.tested q) ?_ asleep)
          intro elsewhere found
          exact elsewhere (inv.consistent.asleep q c found)
        · obtain rfl := eq_other (Ne.symm same)
          simp only [Function.update_self]
          have waiting (r : Party) (d : Cond) (found : s.shared.monitor.asleep r = some d) :
              d = (operation r).waitsFor := by
            have stands := inv.consistent.asleep r d found
            cases stage : (s.locals r).stage <;> rw [stage] at stands <;> cases stands
            rfl
          apply other_asleep act waiting _ (inv.heard q c (act_asleep act (Ne.symm same) asleep))
            asleep
          intro stage
          apply inv.consistent.awake
          intro d
          rw [stage]
          exact nofun

theorem start_inv (items garbage : List Int) : Inv (start items garbage) where
  consistent := by
    have same : (fun p => ((start items garbage).locals p).stage.standing p) =
        fun _ => Standing.outside := by
      funext p
      cases p <;> rfl
    rw [same]
    exact .start
  own := by
    intro p
    cases p <;> exact ⟨rfl, by simp [start, position, bufferSize], rfl, fun _ => rfl, rfl⟩
  tested := by
    intro p
    cases p <;> exact ⟨by simp [start], by simp [start]⟩
  ring := ⟨Nat.le_refl _, by simp [start, bufferSize], nofun, List.nil_prefix⟩
  heard := by
    intro p c asleep
    cases asleep

/-! The calls. -/

theorem calls_stable (arguments : Party → List Int) :
    Stable Act fun p g l => (g.history p).passed ++ l.calls = arguments p where
  own := by
    intro p g l g' l' act listed
    cases act with
    | call => simpa using listed
    | access | advance | unlock => simpa using listed
    | lock | stop | go | wait | spurious | resume | wrap | signal => exact listed
  others := by
    intro p q g l g' l' m apart act _ listed
    rw [act_history act (Ne.symm apart)]
    exact listed

section
variable {s : State Party Shared Local}

theorem Inv.returned_prefix (inv : Inv s) :
    (s.shared.history .consumer).returned <+: (s.shared.history .producer).passed := by
  have taken : (s.shared.history .consumer).returned <+: (s.shared.history .consumer).accessed := by
    rw [(inv.own .consumer).returned]
    exact List.prefix_append _ _
  have written : (s.shared.history .producer).accessed <+: (s.shared.history .producer).passed := by
    rw [(inv.own .producer).passed rfl]
    exact List.prefix_append _ _
  exact taken.trans (inv.ring.taken.trans written)

theorem Inv.pending_le (inv : Inv s) : (s.shared.history .producer).accessed.length ≤
    (s.shared.history .consumer).accessed.length + (bufferSize - 1) := by
  have written := (inv.own .producer).accessed
  have taken := (inv.own .consumer).accessed
  have upper := inv.ring.upper
  by_cases stage : (s.locals .producer).stage = .advance
  · have reads : (s.locals .consumer).stage ≠ .wrap := by
      intro wrap
      have first : (s.locals .producer).stage.standing .producer = .inside := by rw [stage]; rfl
      have second : (s.locals .consumer).stage.standing .consumer = .inside := by rw [wrap]; rfl
      cases inv.consistent.exclusive first second
    have room := inv.ring.room ((inv.own .consumer).exact reads).2
      ((inv.own .producer).exact (by simp [stage])).2 ((inv.tested .producer).go (Or.inr stage))
    rw [if_pos stage] at written
    omega
  · rw [if_neg stage] at written
    omega

/-- Only the holder of the mutex can see its own position at the end of the buffer. -/
theorem Inv.position_lt_or (inv : Inv s) (p : Party) : position p s.shared.products < bufferSize ∨
    (s.locals p).stage = .wrap ∧ s.shared.monitor.owner = some p ∧
      position p s.shared.products = bufferSize := by
  by_cases stage : (s.locals p).stage = .wrap
  · have bound := (inv.own p).bound
    rw [if_pos stage] at bound
    rcases Nat.lt_or_eq_of_le (Nat.le_of_lt_succ bound) with below | last
    · exact Or.inl below
    · refine Or.inr ⟨stage, (inv.consistent.owner p).mpr ?_, last⟩
      rw [stage]
      rfl
  · exact Or.inl ((inv.own p).exact stage).1

/-- Both parties would need a reason to sleep, but the ring is not full and empty at once. -/
theorem Inv.not_both_asleep (inv : Inv s) : ¬((s.shared.monitor.asleep .producer).isSome ∧
    (s.shared.monitor.asleep .consumer).isSome) := by
  rintro ⟨first, second⟩
  obtain ⟨c, producer⟩ := Option.isSome_iff_exists.mp first
  obtain ⟨d, consumer⟩ := Option.isSome_iff_exists.mp second
  have waits {p : Party} {e : Cond} (asleep : s.shared.monitor.asleep p = some e) :
      (s.locals p).stage = .waiting := by
    have stands := inv.consistent.asleep p e asleep
    cases stage : (s.locals p).stage <;> rw [stage] at stands <;> cases stands
  have full := (inv.heard .producer c producer).resolve_right (by
    rw [show other .producer = .consumer from rfl, waits consumer]
    decide)
  have empty := (inv.heard .consumer d consumer).resolve_right (by
    rw [show other .consumer = .producer from rfl, waits producer]
    decide)
  have read := ((inv.own .consumer).exact (by simp [waits consumer])).2
  have write := ((inv.own .producer).exact (by simp [waits producer])).2
  have upper := inv.ring.upper
  have top := (bufferIsFull_iff read write inv.ring.lower upper).mp full
  have bottom := (bufferIsEmpty_iff read write inv.ring.lower upper).mp empty
  rw [bottom] at top
  exact absurd (Nat.add_left_cancel top) (by decide)

end

theorem buffer_safe {items garbage : List Int} {s : State Party Shared Local}
    (run : Run Act (start items garbage) s) :
    ((s.shared.history .consumer).returned <+: (s.shared.history .producer).passed ∧
      (s.shared.history .producer).passed <+: items) ∧
    (s.shared.history .producer).accessed.length ≤
      (s.shared.history .consumer).accessed.length + (bufferSize - 1) ∧
    (∀ p, position p s.shared.products < bufferSize ∨
      (s.locals p).stage = .wrap ∧ s.shared.monitor.owner = some p ∧
        position p s.shared.products = bufferSize) ∧
    ¬((s.shared.monitor.asleep .producer).isSome ∧ (s.shared.monitor.asleep .consumer).isSome) := by
  have inv : Inv s := run.invariant (start_inv items garbage) fun _ _ move inv => inv.step move
  have listed := (calls_stable fun | .producer => items | .consumer => garbage).run run
    (by intro p; cases p <;> rfl) .producer
  refine ⟨⟨inv.returned_prefix, ?_⟩, inv.pending_le, inv.position_lt_or, inv.not_both_asleep⟩
  exact ⟨_, listed⟩

/-! Calls without disturbance. -/

theorem advance_alone {p : Party} {g : Shared} (locals : Party → Local) (old item : Int)
    (calls : List Int) (free : g.monitor = Monitor.free)
    (go : (operation p).stops g.products = false) :
    ∃ g', g'.monitor = Monitor.free.lock p ∧
      g'.products = (operation p).advance ((operation p).access g.products item).1 ∧
      (g'.history p).returned = (g.history p).returned ∧
      (∀ q ≠ p, g'.history q = g.history q) ∧
      Run Act (solo locals p g ⟨.idle, old, item :: calls⟩)
        (solo locals p g' ⟨.wrap, ((operation p).access g.products item).2, calls⟩) := by
  have called := Step.solo locals p (@Act.call p g old item calls)
  generalize passed : g.record p _ = g₁ at called
  obtain ⟨free₁, products₁, returned₁, others₁⟩ : g₁.monitor = Monitor.free ∧
      g₁.products = g.products ∧ (g₁.history p).returned = (g.history p).returned ∧
      ∀ q ≠ p, g₁.history q = g.history q := by
    rw [← passed]
    exact ⟨free, rfl, by simp, fun q other => record_other _ other⟩
  have locked := Step.solo locals p (@Act.lock p g₁ item calls (by rw [free₁]; rfl))
  have tested := Step.solo locals p (@Act.go p { g₁ with monitor := g₁.monitor.lock p } item calls
    (by rwa [products₁]))
  have accessed := Step.solo locals p
    (@Act.access p { g₁ with monitor := g₁.monitor.lock p } item calls)
  generalize stored : Shared.record _ p _ = g₂ at accessed
  obtain ⟨monitor₂, products₂, returned₂, others₂⟩ : g₂.monitor = Monitor.free.lock p ∧
      g₂.products = ((operation p).access g.products item).1 ∧
      (g₂.history p).returned = (g.history p).returned ∧
      ∀ q ≠ p, g₂.history q = g.history q := by
    rw [← stored, record_history]
    exact ⟨by rw [record_monitor, free₁], by rw [record_products, products₁], returned₁,
      fun q other => (record_other _ other).trans (others₁ q other)⟩
  have value : ((operation p).access g₁.products item).2 =
      ((operation p).access g.products item).2 := by rw [products₁]
  dsimp only at accessed
  rw [← value]
  generalize ((operation p).access g₁.products item).2 = found at accessed ⊢
  have moved := Step.solo locals p (@Act.advance p g₂ found calls)
  refine ⟨_, ?_, ?_, ?_, ?_,
    .head called (.head locked (.head tested (.head accessed (.single moved))))⟩
  · rw [record_monitor, monitor₂]
  · rw [record_products, products₂]
  · rw [record_history, returned₂]
  · exact fun q other => (record_other _ other).trans (others₂ q other)

/-- A call that finds no reason to wait, and nobody to wake. -/
theorem call_alone {p : Party} {g : Shared} (locals : Party → Local) (old item : Int)
    (calls : List Int) (free : g.monitor = Monitor.free)
    (go : (operation p).stops g.products = false) :
    ∃ g', g'.monitor = Monitor.free ∧
      g'.products =
        (operation p).wrap ((operation p).advance ((operation p).access g.products item).1) ∧
      (g'.history p).returned =
        (g.history p).returned ++ [((operation p).access g.products item).2] ∧
      (∀ q ≠ p, g'.history q = g.history q) ∧
      Run Act (solo locals p g ⟨.idle, old, item :: calls⟩)
        (solo locals p g' ⟨.idle, ((operation p).access g.products item).2, calls⟩) := by
  obtain ⟨g₁, monitor, products, returned, others, moved⟩ :=
    advance_alone locals old item calls free go
  generalize ((operation p).access g.products item).2 = found at moved ⊢
  have nobody (q : Party) : g₁.monitor.asleep q ≠ some (operation p).signals := by
    rw [monitor]
    exact nofun
  have wraps := Step.solo locals p (@Act.wrap p g₁ found calls)
  have signalled := Step.solo locals p
    (@Act.signal p { g₁ with products := (operation p).wrap g₁.products } found calls _ (.lost nobody))
  have unlocked := Step.solo locals p
    (@Act.unlock p { g₁ with products := (operation p).wrap g₁.products } found calls)
  refine ⟨_, ?_, ?_, ?_, ?_, moved.trans (.head wraps (.head signalled (.single unlocked)))⟩
  · rw [record_monitor, monitor]
    rfl
  · rw [record_products, products]
  · rw [record_history, returned]
  · exact fun q other => (record_other _ other).trans (others q other)

theorem buffer_safe_seven : ∃ s : State Party Shared Local,
    (s.shared.history .consumer).returned = [7] ∧
    ((s.shared.history .consumer).returned <+: (s.shared.history .producer).passed ∧
      (s.shared.history .producer).passed <+: [7, -1]) ∧
    (s.shared.history .producer).accessed.length ≤
      (s.shared.history .consumer).accessed.length + (bufferSize - 1) ∧
    (∀ p, position p s.shared.products < bufferSize ∨
      (s.locals p).stage = .wrap ∧ s.shared.monitor.owner = some p ∧
        position p s.shared.products = bufferSize) ∧
    ¬((s.shared.monitor.asleep .producer).isSome ∧ (s.shared.monitor.asleep .consumer).isSome) := by
  let first := start [7, -1] [0]
  obtain ⟨g, free, products, -, others, produced⟩ :=
    @call_alone .producer first.shared first.locals 0 7 [-1] rfl rfl
  rw [show Local.mk .idle 0 [7, -1] = first.locals .producer from rfl, solo_self] at produced
  obtain ⟨g', -, -, returned, -, consumed⟩ := @call_alone .consumer g
    (Function.update first.locals .producer ⟨.idle, 7, [-1]⟩) 0 0 [] free (by rw [products]; rfl)
  rw [show Local.mk .idle 0 [0] = Function.update first.locals .producer ⟨.idle, 7, [-1]⟩ .consumer
    from rfl, solo_self] at consumed
  have run := produced.trans consumed
  refine ⟨_, ?_, buffer_safe run⟩
  rw [products, others _ (by decide)] at returned
  exact returned

structure Level (rounds : Nat) (items garbage : List Int) (s : State Party Shared Local) : Prop where
  free : s.shared.monitor = Monitor.free
  write : s.shared.products.posWriteTo = rounds
  read : s.shared.products.posReadFrom = rounds
  producer : ∃ old, s.locals .producer = ⟨.idle, old, items.drop rounds⟩
  consumer : ∃ old, s.locals .consumer = ⟨.idle, old, garbage.drop rounds⟩

section
variable {rounds : Nat} {items garbage : List Int} {s : State Party Shared Local}

theorem Level.not_full (level : Level rounds items garbage s) :
    (operation .producer).stops s.shared.products = false := by
  change bufferIsFull s.shared.products = false
  rw [bufferIsFull, level.write, level.read]
  simp only [bufferSize, beq_eq_false_iff_ne]
  omega

theorem Level.round (level : Level rounds items garbage s) (few : rounds + 1 < bufferSize)
    (stored : rounds < items.length) (fetched : rounds < garbage.length) :
    ∃ t, Run Act s t ∧ Level (rounds + 1) items garbage t := by
  have notFull := level.not_full
  obtain ⟨g, locals⟩ := s
  obtain ⟨free, write, read, ⟨old, producer⟩, ⟨old', consumer⟩⟩ := level
  dsimp only at free write read producer consumer notFull
  rw [List.drop_eq_getElem_cons stored] at producer
  rw [List.drop_eq_getElem_cons fetched] at consumer
  obtain ⟨g₁, free₁, products₁, -, -, produced⟩ :=
    call_alone locals old items[rounds] (items.drop (rounds + 1)) free notFull
  rw [← producer, solo_self] at produced
  have write₁ : g₁.products.posWriteTo = rounds + 1 := by
    rw [products₁]
    change wrapped (g.products.posWriteTo + 1) = rounds + 1
    rw [write, wrapped_of_lt few]
  have read₁ : g₁.products.posReadFrom = rounds := by
    rw [products₁]
    exact read
  have notEmpty : (operation .consumer).stops g₁.products = false := by
    change (g₁.products.posWriteTo == g₁.products.posReadFrom) = false
    rw [write₁, read₁, beq_eq_false_iff_ne]
    omega
  let middle := Function.update locals .producer
    ⟨.idle, ((operation .producer).access g.products items[rounds]).2, items.drop (rounds + 1)⟩
  have waits : middle .consumer = ⟨.idle, old', garbage[rounds] :: garbage.drop (rounds + 1)⟩ :=
    consumer
  obtain ⟨g₂, free₂, products₂, -, -, consumed⟩ :=
    call_alone middle old' garbage[rounds] (garbage.drop (rounds + 1)) free₁ notEmpty
  rw [← waits, solo_self] at consumed
  refine ⟨_, produced.trans consumed, free₂, ?_, ?_, ⟨_, rfl⟩, ⟨_, rfl⟩⟩
  · change g₂.products.posWriteTo = rounds + 1
    rw [products₂]
    exact write₁
  · change g₂.products.posReadFrom = rounds + 1
    rw [products₂]
    change wrapped (g₁.products.posReadFrom + 1) = rounds + 1
    rw [read₁, wrapped_of_lt few]

end

theorem rounds_alone {items garbage : List Int} (rounds : Nat) (few : rounds < bufferSize)
    (stored : rounds ≤ items.length) (fetched : rounds ≤ garbage.length) :
    ∃ s, Run Act (start items garbage) s ∧ Level rounds items garbage s := by
  induction rounds with
  | zero => exact ⟨_, .refl, rfl, rfl, rfl, ⟨0, rfl⟩, ⟨0, rfl⟩⟩
  | succ rounds ih =>
      obtain ⟨s, run, level⟩ := ih (by omega) (by omega) (by omega)
      obtain ⟨t, more, next⟩ := level.round few stored fetched
      exact ⟨t, run.trans more, next⟩

/-- The items of `ProducerThread`. -/
def produced : List Int := (List.range 16).map Int.ofNat ++ [-1]

/-- The producer has stored its eighth item, and not yet tested for the end of the buffer. -/
theorem position_not_lt : ¬∀ s, Run Act (start produced (List.replicate 17 0)) s →
    s.shared.products.posReadFrom < bufferSize ∧ s.shared.products.posWriteTo < bufferSize := by
  intro holds
  obtain ⟨⟨g, locals⟩, run, level⟩ := @rounds_alone produced (List.replicate 17 0) 7 (by decide)
    (by decide) (by decide)
  have notFull := level.not_full
  obtain ⟨free, write, -, ⟨old, producer⟩, -⟩ := level
  obtain ⟨g', -, products, -, -, moved⟩ :=
    advance_alone locals old 7 (produced.drop 8) free notFull
  have calls : locals .producer = ⟨.idle, old, 7 :: produced.drop 8⟩ := producer
  rw [← calls, solo_self] at moved
  have last : g'.products.posWriteTo = bufferSize := by
    rw [products]
    change g.products.posWriteTo + 1 = bufferSize
    rw [show g.products.posWriteTo = 7 from write]
    rfl
  have below := (holds _ (run.trans moved)).2
  exact absurd last (Nat.ne_of_lt below)

end CudaOpenMp.Condition
