import CudaOpenMp.Pthread.ConditionSemCore

/-!
The calls of `condition_sem.c` do not move one item each: a call that waits for room goes on as
long as there is any.
-/

namespace CudaOpenMp.ConditionSem

open Interleaving

def Call.of (item : Int) : Call := ⟨[item], item⟩

/-- The calls of each thread have moved one item each, which is the next one, and the calls that
have not returned have moved nothing else. -/
def Exact (items : List Int) (g : Shared) : Prop :=
  ∀ p, (g.history p).finished <+: items.map Call.of ∧
    (g.history p).current <+: (items.drop (g.history p).finished.length).take 1

section
variable {p q : Party} {g g' : Shared} {l l' m m' : Local}

@[simp] theorem place_position (pos : Nat) : (g.place p pos).position p = pos :=
  Function.update_self ..

@[simp] theorem count_number (number : Nat) : (g.count p number).number p = number :=
  Function.update_self ..

@[simp] theorem record_history (h : History) : (g.record p h).history p = h :=
  Function.update_self ..

theorem place_other (pos : Nat) (other : q ≠ p) : (g.place p pos).position q = g.position q :=
  Function.update_of_ne other ..

theorem count_other (number : Nat) (other : q ≠ p) :
    (g.count p number).number q = g.number q := Function.update_of_ne other ..

theorem record_other (h : History) (other : q ≠ p) :
    (g.record p h).history q = g.history q := Function.update_of_ne other ..

end

/-- The first call of `Produce`, up to its second test. `Producing items current l position posted`
has what the call has put into the buffer, the position, and how often it has called `sem_post`. -/
inductive Producing (items : List Int) : List Int → Local → Nat → Nat → Prop
  | idle {loaded : Nat} {item : Int} : Producing items [] ⟨.idle, loaded, item, items⟩ 0 0
  | test {loaded : Nat} {item : Int} {calls : List Int} : items = item :: calls →
      Producing items [] ⟨.test, loaded, item, calls⟩ 0 0
  | compare {item : Int} {calls : List Int} : items = item :: calls →
      Producing items [] ⟨.compare, 0, item, calls⟩ 0 0
  | semWait {loaded : Nat} {item : Int} {calls : List Int} : items = item :: calls →
      Producing items [] ⟨.semWait, loaded, item, calls⟩ 0 0
  | loadPos {loaded : Nat} {item : Int} {calls : List Int} : items = item :: calls →
      Producing items [] ⟨.loadPos, loaded, item, calls⟩ 0 0
  | access {item : Int} {calls : List Int} : items = item :: calls →
      Producing items [] ⟨.access, 0, item, calls⟩ 0 0
  | loadMove {loaded : Nat} {item : Int} {calls : List Int} : items = item :: calls →
      Producing items [item] ⟨.loadMove, loaded, item, calls⟩ 0 0
  | move {item : Int} {calls : List Int} : items = item :: calls →
      Producing items [item] ⟨.move, 0, item, calls⟩ 0 0
  | semPost {loaded : Nat} {item : Int} {calls : List Int} : items = item :: calls →
      Producing items [item] ⟨.semPost, loaded, item, calls⟩ 1 0
  | loadWrap {loaded : Nat} {item : Int} {calls : List Int} : items = item :: calls →
      Producing items [item] ⟨.loadWrap, loaded, item, calls⟩ 1 1
  | again {loaded : Nat} {item : Int} {calls : List Int} : items = item :: calls →
      Producing items [item] ⟨.test, loaded, item, calls⟩ 1 1
  | compareAgain {item : Int} {calls : List Int} : items = item :: calls →
      Producing items [item] ⟨.compare, 1, item, calls⟩ 1 1

/-- The consumer has waited for an item and not yet moved its position. -/
def Stage.holding : Stage → Nat
  | .loadPos | .access | .loadMove | .move => 1
  | .idle | .test | .compare | .semWait | .semPost | .loadWrap | .wrap | .leave | .ended => 0

/-- The consumer has moved its position at most once for each `sem_post` of the producer. -/
structure Behind (posted : Nat) (g : Shared) (m : Local) : Prop where
  bound : g.position .consumer + m.stage.holding + g.number .consumer ≤ posted
  loaded : m.stage = .move → m.loaded = g.position .consumer

/-- The first call of `Produce` has not been let in for the second time: `l` is the producer and
`m` the consumer. -/
structure Early (items : List Int) (g : Shared) (l m : Local) : Prop where
  producing : ∃ posted, Producing items (g.history .producer).current l
    (g.position .producer) posted ∧ Behind posted g m
  finished : (g.history .producer).finished = []
  item : ∀ item ∈ (g.history .producer).current, g.buffer 0 = item

def Stage.pending : Stage → Nat
  | .semWait | .loadPos | .access => 1
  | .idle | .test | .compare | .loadMove | .move | .semPost | .loadWrap | .wrap | .leave
  | .ended => 0

/-- The first call of `Produce` has put its item into the buffer twice, or is about to. -/
def Late (g : Shared) (l : Local) : Prop :=
  (g.history .producer).finished = [] ∧
      2 ≤ (g.history .producer).current.length + l.stage.pending ∨
    ∃ call ∈ (g.history .producer).finished.head?, 2 ≤ call.moved.length

section
variable {items : List Int} {g g' : Shared} {l l' m m' : Local}

theorem Late.producer (late : Late g l) (act : Act .producer g l g' l') : Late g' l' := by
  rcases late with ⟨finished, often⟩ | first
  · cases act with
    | call | test | stop | semWait | loadPos | loadMove | move | semPost | wrap =>
        exact Or.inl ⟨finished, often⟩
    | go => exact Or.inl ⟨finished, Nat.le_add_right_of_le often⟩
    | access =>
        left
        rw [record_history]
        refine ⟨finished, ?_⟩
        rw [List.length_append]
        exact often
    | loadWrap =>
        left
        refine ⟨finished, ?_⟩
        split <;> exact often
    | leave =>
        right
        rw [record_history, finished]
        exact ⟨_, rfl, often⟩
  · right
    cases act with
    | call | test | stop | go | semWait | loadPos | loadMove | move | semPost | loadWrap | wrap =>
        exact first
    | access =>
        rw [record_history]
        exact first
    | leave =>
        obtain ⟨call, found, twice⟩ := first
        rw [record_history]
        refine ⟨call, ?_, twice⟩
        rw [List.head?_append]
        simp [Option.mem_def.mp found]

theorem act_other {p q : Party} (act : Act p g l g' l') (other : q ≠ p) :
    g'.history q = g.history q ∧ g'.position q = g.position q := by
  cases act with
  | call | test | stop | go | semWait | loadPos | loadMove | semPost | loadWrap => exact ⟨rfl, rfl⟩
  | access => cases p <;> exact ⟨record_other _ other, rfl⟩
  | leave => exact ⟨record_other _ other, rfl⟩
  | move | wrap => exact ⟨rfl, place_other _ other⟩

theorem act_buffer (act : Act .consumer g m g' m') : g'.buffer = g.buffer := by
  cases act <;> rfl

theorem Behind.consumer {posted : Nat} (behind : Behind posted g m)
    (act : Act .consumer g m g' m') : Behind posted g' m' := by
  have ⟨bound, loaded⟩ := behind
  cases act with
  | call | test | stop | go | loadPos => exact ⟨bound, nofun⟩
  | access => exact ⟨bound, nofun⟩
  | loadMove => exact ⟨bound, fun _ => rfl⟩
  | semWait some =>
      have before : g.position .consumer + 0 + g.number .consumer ≤ posted := bound
      refine ⟨?_, nofun⟩
      change g.position .consumer + 1 + (g.count .consumer (g.number .consumer - 1)).number .consumer
        ≤ posted
      rw [count_number]
      omega
  | move =>
      have before : g.position .consumer + 1 + g.number .consumer ≤ posted := bound
      have same := loaded rfl
      simp only at same
      refine ⟨?_, nofun⟩
      rw [place_position, same]
      exact before
  | semPost =>
      refine ⟨?_, nofun⟩
      change g.position .consumer + 0 + (g.count .producer _).number .consumer ≤ posted
      rw [count_other _ (by decide)]
      exact bound
  | loadWrap =>
      split
      · exact ⟨bound, nofun⟩
      · exact ⟨bound, nofun⟩
  | wrap =>
      have before : g.position .consumer + 0 + g.number .consumer ≤ posted := bound
      refine ⟨?_, nofun⟩
      rw [place_position]
      change 0 + 0 + g.number .consumer ≤ posted
      omega
  | leave =>
      have before : g.position .consumer + 0 + g.number .consumer ≤ posted := bound
      refine ⟨?_, ?_⟩
      · change g.position .consumer + (afterCall .consumer _).holding + g.number .consumer ≤ posted
        rw [afterCall]
        split <;> exact before
      · rw [afterCall]
        split <;> exact nofun

theorem Early.consumer (early : Early items g l m) (act : Act .consumer g m g' m') :
    Early items g' l m' := by
  obtain ⟨⟨posted, producing, behind⟩, finished, item⟩ := early
  have ⟨history, position⟩ := act_other act (q := .producer) (by decide)
  have buffer := act_buffer act
  refine ⟨⟨posted, ?_, behind.consumer act⟩, ?_, ?_⟩
  · rw [history, position]
    exact producing
  · rw [history]
    exact finished
  · rw [history, buffer]
    exact item

theorem Behind.mono {posted posted' : Nat} (behind : Behind posted g m)
    (position : g'.position .consumer = g.position .consumer)
    (number : g'.number .consumer + posted = g.number .consumer + posted') :
    Behind posted' g' m := by
  have bound := behind.bound
  refine ⟨?_, ?_⟩
  · rw [position]
    omega
  · rw [position]
    exact behind.loaded

theorem Behind.not_full {pos : Nat} (behind : Behind pos g m) (small : pos ≤ 1) :
    Party.producer.stops pos (g.position .consumer) = false := by
  have bound := behind.bound
  simp only [Party.stops, bufferIsFull, bufferSize, beq_eq_false_iff_ne]
  omega

section
variable {loaded : Nat} {value : Int} {calls : List Int}

theorem Early.semWait (early : Early items g ⟨.semWait, loaded, value, calls⟩ m) :
    Early items (g.count .producer (g.number .producer - 1)) ⟨.loadPos, loaded, value, calls⟩ m := by
  obtain ⟨⟨posted, producing, behind⟩, finished, item⟩ := early
  refine ⟨⟨posted, ?_, behind.mono rfl ?_⟩, finished, item⟩
  · change Producing items (g.history .producer).current _ (g.position .producer) posted
    generalize (g.history .producer).current = current at producing ⊢
    generalize g.position .producer = position at producing ⊢
    cases producing with
    | semWait split => exact .loadPos split
  · rw [count_other _ (by decide)]

theorem Early.access (early : Early items g ⟨.access, loaded, value, calls⟩ m) :
    Early items ((g.accessed .producer loaded value).1.record .producer
      ⟨(g.history .producer).finished, (g.history .producer).current ++ [value]⟩)
      ⟨.loadMove, loaded, value, calls⟩ m := by
  obtain ⟨⟨posted, producing, behind⟩, finished, item⟩ := early
  generalize now : (g.history .producer).current = current at producing
  generalize here : g.position .producer = position at producing
  cases producing with
  | access split =>
      refine ⟨⟨0, ?_, behind.mono rfl rfl⟩, ?_, ?_⟩
      · rw [record_history]
        change Producing items ([] ++ [value]) _ (g.position .producer) 0
        rw [here]
        exact .loadMove split
      · rw [record_history]
        exact finished
      · rw [record_history]
        intro stored member
        obtain rfl := List.mem_singleton.mp member
        change Function.update g.buffer 0 stored 0 = stored
        rw [Function.update_self]

theorem Early.move (early : Early items g ⟨.move, loaded, value, calls⟩ m) :
    Early items (g.place .producer (loaded + 1)) ⟨.semPost, loaded, value, calls⟩ m := by
  obtain ⟨⟨posted, producing, behind⟩, finished, item⟩ := early
  refine ⟨⟨posted, ?_, behind.mono (place_other _ (by decide)) rfl⟩, finished, item⟩
  rw [place_position]
  change Producing items (g.history .producer).current _ (loaded + 1) posted
  generalize (g.history .producer).current = current at producing ⊢
  generalize g.position .producer = position at producing
  cases producing with
  | move split => exact .semPost split

theorem Early.semPost (early : Early items g ⟨.semPost, loaded, value, calls⟩ m) :
    Early items (g.count .consumer (g.number .consumer + 1)) ⟨.loadWrap, loaded, value, calls⟩ m := by
  obtain ⟨⟨posted, producing, behind⟩, finished, item⟩ := early
  refine ⟨⟨posted + 1, ?_, behind.mono rfl ?_⟩, finished, item⟩
  · change Producing items (g.history .producer).current _ (g.position .producer) (posted + 1)
    generalize (g.history .producer).current = current at producing ⊢
    generalize g.position .producer = position at producing ⊢
    cases producing with
    | semPost split => exact .loadWrap split
  · rw [count_number]
    omega

end

theorem Early.producer (early : Early items g l m) (act : Act .producer g l g' l') :
    Early items g' l' m ∨ Late g' l' := by
  have ⟨⟨posted, producing, behind⟩, finished, item⟩ := early
  generalize now : (g.history .producer).current = current at producing
  generalize here : g.position .producer = position at producing
  cases producing with
  | idle =>
      cases act
      refine Or.inl ⟨⟨0, ?_, behind⟩, finished, item⟩
      rw [now, here]
      exact .test rfl
  | test split =>
      cases act
      refine Or.inl ⟨⟨0, ?_, behind⟩, finished, item⟩
      rw [now, here]
      exact .compare split
  | compare split =>
      cases act with
      | stop full =>
          rw [behind.not_full (Nat.zero_le _)] at full
          cases full
      | go =>
          refine Or.inl ⟨⟨0, ?_, behind⟩, finished, item⟩
          rw [now, here]
          exact .semWait split
  | semWait =>
      cases act
      exact Or.inl early.semWait
  | loadPos split =>
      cases act
      refine Or.inl ⟨⟨0, ?_, behind⟩, finished, item⟩
      rw [now, here]
      exact .access split
  | access =>
      cases act
      exact Or.inl early.access
  | loadMove split =>
      cases act
      refine Or.inl ⟨⟨0, ?_, behind⟩, finished, item⟩
      rw [now, here]
      exact .move split
  | move =>
      cases act
      exact Or.inl early.move
  | semPost =>
      cases act
      exact Or.inl early.semPost
  | loadWrap split =>
      cases act
      refine Or.inl ⟨⟨1, ?_, behind⟩, finished, item⟩
      rw [now, here]
      exact .again split
  | again split =>
      cases act
      refine Or.inl ⟨⟨1, ?_, behind⟩, finished, item⟩
      rw [now, here]
      exact .compareAgain split
  | compareAgain split =>
      cases act with
      | stop full =>
          rw [behind.not_full (Nat.le_refl _)] at full
          cases full
      | go =>
          refine Or.inr (Or.inl ⟨finished, ?_⟩)
          rw [now]
          exact Nat.le_refl _

end

theorem Early.start (items garbage : List Int) : Early items (start items garbage).shared
    ((start items garbage).locals .producer) ((start items garbage).locals .consumer) :=
  ⟨⟨0, .idle, ⟨Nat.le_refl _, nofun⟩⟩, rfl, nofun⟩

section
variable {items garbage : List Int} {s t : State Party Shared Local}

/-- In every run, either the first call of `Produce` has been let in once at most, or it puts its
item into the buffer more than once. -/
theorem early_or_late (run : Run Act (start items garbage) s) :
    Early items s.shared (s.locals .producer) (s.locals .consumer) ∨
      Late s.shared (s.locals .producer) := by
  induction run with
  | refl => exact Or.inl (.start items garbage)
  | tail _ move before =>
      cases move with
      | turn party acted =>
          cases party with
          | producer =>
              rcases before with early | late
              · rcases early.producer acted with still | late
                · exact Or.inl (by simpa using still)
                · exact Or.inr (by simpa using late)
              · exact Or.inr (by simpa using late.producer acted)
          | consumer =>
              rcases before with early | late
              · exact Or.inl (by simpa using early.consumer acted)
              · right
                have ⟨history, _⟩ := act_other acted (q := .producer) (by decide)
                simpa [Late, history] using late

/-- No call of `Produce` returns without having broken the rule. -/
theorem not_exact_of_finished (run : Run Act (start items garbage) s)
    (finished : (s.shared.history .producer).finished ≠ []) : ¬Exact items s.shared := by
  intro exact
  rcases early_or_late run with early | ⟨none, _⟩ | ⟨call, first, twice⟩
  · exact finished early.finished
  · exact finished none
  · have member := List.mem_of_mem_head? first
    obtain ⟨item, _, rfl⟩ := List.mem_map.mp ((exact .producer).1.subset member)
    change 2 ≤ 1 at twice
    omega

end

theorem consume_alone (items garbage : List Int) (item : Int) :
    ∃ s, Run Act (start items (item :: garbage)) s ∧
      (s.shared.history .consumer).finished = [⟨[], item⟩] := by
  let first := start items (item :: garbage)
  have call := Step.solo first.locals .consumer
    (@Act.call .consumer first.shared 0 0 item garbage)
  have test := Step.solo first.locals .consumer
    (@Act.test .consumer first.shared 0 item garbage)
  have stop := Step.solo first.locals .consumer
    (@Act.stop .consumer first.shared 0 item garbage rfl)
  have leave := Step.solo first.locals .consumer
    (@Act.leave .consumer first.shared 0 item garbage)
  rw [show Local.mk .idle 0 0 (item :: garbage) = first.locals .consumer from rfl, solo_self] at call
  exact ⟨_, .head call (.head test (.head stop (.single leave))), rfl⟩

structure Alone (item : Int) (laps : Nat) (g : Shared) : Prop where
  position : g.position .producer = laps
  consumer : g.position .consumer = 0
  number : g.number .producer = bufferSize - laps
  history : g.history .producer = ⟨[], List.replicate laps item⟩

theorem Alone.lap {item : Int} {laps : Nat} {g : Shared} (alone : Alone item laps g)
    (more : laps + 1 < bufferSize) (locals : Party → Local) (loaded : Nat) (calls : List Int) :
    ∃ g' loaded', Run Act (solo locals .producer g ⟨.test, loaded, item, calls⟩)
      (solo locals .producer g' ⟨.test, loaded', item, calls⟩) ∧ Alone item (laps + 1) g' := by
  obtain ⟨position, consumer, number, history⟩ := alone
  have room : Party.producer.stops (g.position .producer) (g.position .consumer) = false := by
    rw [position, consumer]
    change ((laps + 1) % bufferSize == 0) = false
    rw [Nat.mod_eq_of_lt more]
    rfl
  have blank : 0 < g.number .producer := by omega
  let waited := g.count .producer (g.number .producer - 1)
  let stored := (waited.accessed .producer (g.position .producer) item).1.record .producer
    ⟨(g.history .producer).finished, (g.history .producer).current ++ [item]⟩
  let moved := stored.place .producer (g.position .producer + 1)
  let posted := moved.count .consumer (moved.number .consumer + 1)
  have after : posted.position .producer = laps + 1 := by
    change (stored.place .producer (g.position .producer + 1)).position .producer = laps + 1
    rw [place_position, position]
  have inside : ¬posted.position .producer ≥ bufferSize := by omega
  have test := Step.solo locals .producer (@Act.test .producer g loaded item calls)
  have go := Step.solo locals .producer (@Act.go .producer g _ item calls room)
  have wait := Step.solo locals .producer
    (@Act.semWait .producer g (g.position .producer) item calls blank)
  have load := Step.solo locals .producer
    (@Act.loadPos .producer waited (g.position .producer) item calls)
  have access := Step.solo locals .producer
    (@Act.access .producer waited (g.position .producer) item calls)
  have loadMove := Step.solo locals .producer
    (@Act.loadMove .producer stored (g.position .producer) item calls)
  have move := Step.solo locals .producer
    (@Act.move .producer stored (g.position .producer) item calls)
  have post := Step.solo locals .producer
    (@Act.semPost .producer moved (g.position .producer) item calls)
  have loadWrap := Step.solo locals .producer
    (@Act.loadWrap .producer posted (g.position .producer) item calls)
  rw [if_neg inside] at loadWrap
  refine ⟨posted, _, .head test (.head go (.head wait (.head load (.head access (.head loadMove
    (.head move (.head post (.single loadWrap)))))))), after, consumer, ?_, ?_⟩
  · change waited.number .producer = bufferSize - (laps + 1)
    rw [count_number]
    omega
  · change stored.history .producer = _
    rw [record_history, history, List.replicate_succ']

theorem laps_alone (items garbage : List Int) (item : Int) (laps : Nat) (few : laps < bufferSize) :
    ∃ g loaded, Run Act (start (item :: items) garbage)
      (solo (start (item :: items) garbage).locals .producer g ⟨.test, loaded, item, items⟩) ∧
      Alone item laps g := by
  let first := start (item :: items) garbage
  induction laps with
  | zero =>
      have call := Step.solo first.locals .producer (@Act.call .producer first.shared 0 0 item items)
      rw [show Local.mk .idle 0 0 (item :: items) = first.locals .producer from rfl, solo_self]
        at call
      exact ⟨first.shared, 0, .single call, rfl, rfl, rfl, rfl⟩
  | succ laps ih =>
      obtain ⟨g, loaded, run, alone⟩ := ih (by omega)
      obtain ⟨g', loaded', lap, after⟩ := alone.lap few first.locals loaded items
      exact ⟨g', loaded', run.trans lap, after⟩

theorem produce_alone (items garbage : List Int) (item : Int) :
    ∃ s, Run Act (start (item :: items) garbage) s ∧
      (s.shared.history .producer).finished = [⟨List.replicate 7 item, item⟩] := by
  let first := start (item :: items) garbage
  obtain ⟨g, loaded, run, position, consumer, _, history⟩ :=
    laps_alone items garbage item 7 (by decide)
  have full : Party.producer.stops (g.position .producer) (g.position .consumer) = true := by
    rw [position, consumer]
    decide
  have test := Step.solo first.locals .producer (@Act.test .producer g loaded item items)
  have stop := Step.solo first.locals .producer (@Act.stop .producer g _ item items full)
  have leave := Step.solo first.locals .producer
    (@Act.leave .producer g (g.position .producer) item items)
  refine ⟨_, run.trans (.head test (.head stop (.single leave))), ?_⟩
  change ((g.record .producer _).history .producer).finished = _
  rw [record_history, history]
  rfl

theorem not_exact_consumed {items : List Int} {g : Shared} {item : Int}
    (finished : (g.history .consumer).finished = [⟨[], item⟩]) : ¬Exact items g := by
  intro exact
  have member : Call.mk [] item ∈ (g.history .consumer).finished := by
    rw [finished]
    exact List.mem_singleton_self _
  obtain ⟨_, _, same⟩ := List.mem_map.mp ((exact .consumer).1.subset member)
  cases same

theorem run_nothing {s : State Party Shared Local} (run : Run Act (start [] []) s) :
    s = start [] [] := by
  induction run with
  | refl => rfl
  | tail _ move ih =>
      subst ih
      cases move with
      | turn party acted => cases party <;> cases acted

/-- The calls move one item each in all runs only when there are none. Every run in which a call of
`Produce` returns is one in which they do not. -/
theorem exact_iff (items garbage : List Int) :
    ((∀ s, Run Act (start items garbage) s → Exact items s.shared) ↔ items = [] ∧ garbage = []) ∧
      ∀ s, Run Act (start items garbage) s → (s.shared.history .producer).finished ≠ [] →
        ¬Exact items s.shared := by
  refine ⟨⟨?_, ?_⟩, fun _ run => not_exact_of_finished run⟩
  · intro exact
    constructor
    · cases items with
      | nil => rfl
      | cons item items =>
          obtain ⟨s, run, finished⟩ := produce_alone items garbage item
          exact absurd (exact s run) (not_exact_of_finished run (by rw [finished]; exact nofun))
    · cases garbage with
      | nil => rfl
      | cons item garbage =>
          obtain ⟨s, run, finished⟩ := consume_alone items garbage item
          exact absurd (exact s run) (not_exact_consumed finished)
  · rintro ⟨rfl, rfl⟩ s run
    rw [run_nothing run]
    exact fun _ => ⟨List.nil_prefix, List.nil_prefix⟩

theorem exact_iff_seven : ∃ s, Run Act (start [7] []) s ∧
    (s.shared.history .producer).finished = [⟨[7, 7, 7, 7, 7, 7, 7], 7⟩] ∧
    ¬Exact [7] s.shared := by
  obtain ⟨s, run, finished⟩ := produce_alone [] [] 7
  exact ⟨s, run, finished, (exact_iff [7] []).2 s run (by rw [finished]; exact nofun)⟩

def produced : List Int := (List.range 16).map Int.ofNat ++ [endFlag]

theorem not_exact_produced : ¬∀ garbage s, Run Act (start produced garbage) s →
    Exact produced s.shared := by
  intro holds
  obtain ⟨s, run, finished⟩ := consume_alone produced [] 0
  exact not_exact_consumed finished (holds [0] s run)

end CudaOpenMp.ConditionSem
