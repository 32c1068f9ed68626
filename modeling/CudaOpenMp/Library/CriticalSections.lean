import CudaOpenMp.Library.Monitor

/-!
Threads that go round for ever: each takes the mutex, makes a test, does one thing or another,
perhaps waits for a condition of its own, and gives the mutex back. They print what they would
print if every round were one atomic turn.
-/

namespace Sections

open Interleaving Monitors

inductive Statement (Data Line Cond : Type) where
  | assign (f : Data → Data)
  | printf (line : Data → Line)
  | signal (guard : Data → Bool) (c : Cond)

/-- After a wait that is made `again` the thread goes back to its test, as in a `while`. -/
inductive Ending (Cond : Type) where
  | unlock
  | wait (again : Bool) (c : Cond)

structure Section (Data Line Cond : Type) where
  test : Data → Bool
  body : List (Statement Data Line Cond)
  otherwise : List (Statement Data Line Cond)
  ending : Ending Cond

inductive Stage (Data Line Cond : Type) where
  | outside
  | testing
  | working (rest : List (Statement Data Line Cond)) (ending : Ending Cond)
  | waiting (again : Bool) (c : Cond)

structure Shared (ι Data Line Cond : Type) where
  monitor : Monitor ι Cond
  data : Data
  printed : List Line

variable {ι Data Line Cond : Type}

def Section.branch (s : Section Data Line Cond) (d : Data) :
    List (Statement Data Line Cond) × Ending Cond :=
  if s.test d then (s.body, .unlock) else (s.otherwise, s.ending)

def Ending.cond : Ending Cond → Option Cond
  | .unlock => none
  | .wait _ c => some c

/-- No two threads wait for one condition. -/
def Alone (sections : ι → Section Data Line Cond) : Prop :=
  ∀ i j c, (sections i).ending.cond = some c → (sections j).ending.cond = some c → i = j

section
variable [DecidableEq ι]

/-- Sleepers wake up by themselves only when wake-ups may be spurious. -/
inductive Act (sections : ι → Section Data Line Cond) (spurious : Bool) :
    Action ι (Shared ι Data Line Cond) (Stage Data Line Cond)
  | lock {i : ι} {g : Shared ι Data Line Cond} : g.monitor.owner = none →
      Act sections spurious i g .outside { g with monitor := g.monitor.lock i } .testing
  | test {i : ι} {g : Shared ι Data Line Cond} {rest : List (Statement Data Line Cond)}
      {ending : Ending Cond} : (sections i).branch g.data = (rest, ending) →
      Act sections spurious i g .testing g (.working rest ending)
  | assign {i : ι} {g : Shared ι Data Line Cond} {f : Data → Data}
      {rest : List (Statement Data Line Cond)} {ending : Ending Cond} :
      Act sections spurious i g (.working (.assign f :: rest) ending)
        { g with data := f g.data } (.working rest ending)
  | printf {i : ι} {g : Shared ι Data Line Cond} {line : Data → Line}
      {rest : List (Statement Data Line Cond)} {ending : Ending Cond} :
      Act sections spurious i g (.working (.printf line :: rest) ending)
        { g with printed := g.printed ++ [line g.data] } (.working rest ending)
  | signal {i : ι} {g : Shared ι Data Line Cond} {guard : Data → Bool} {c : Cond}
      {m : Monitor ι Cond} {rest : List (Statement Data Line Cond)} {ending : Ending Cond} :
      guard g.data = true → g.monitor.Signal c m →
      Act sections spurious i g (.working (.signal guard c :: rest) ending)
        { g with monitor := m } (.working rest ending)
  | skip {i : ι} {g : Shared ι Data Line Cond} {guard : Data → Bool} {c : Cond}
      {rest : List (Statement Data Line Cond)} {ending : Ending Cond} : guard g.data = false →
      Act sections spurious i g (.working (.signal guard c :: rest) ending) g
        (.working rest ending)
  | unlock {i : ι} {g : Shared ι Data Line Cond} :
      Act sections spurious i g (.working [] .unlock) { g with monitor := g.monitor.unlock } .outside
  | wait {i : ι} {g : Shared ι Data Line Cond} {again : Bool} {c : Cond} :
      Act sections spurious i g (.working [] (.wait again c))
        { g with monitor := g.monitor.wait i c } (.waiting again c)
  | wake {i : ι} {g : Shared ι Data Line Cond} {again : Bool} {c : Cond} : spurious = true →
      Act sections spurious i g (.waiting again c)
        { g with monitor := g.monitor.wake i } (.waiting again c)
  | retest {i : ι} {g : Shared ι Data Line Cond} {c : Cond} : g.monitor.owner = none →
      g.monitor.asleep i = none →
      Act sections spurious i g (.waiting true c) { g with monitor := g.monitor.lock i } .testing
  | resume {i : ι} {g : Shared ι Data Line Cond} {c : Cond} : g.monitor.owner = none →
      g.monitor.asleep i = none →
      Act sections spurious i g (.waiting false c) { g with monitor := g.monitor.lock i }
        (.working [] .unlock)

end

abbrev Threads (ι Data Line Cond : Type) :=
  State ι (Shared ι Data Line Cond) (Stage Data Line Cond)

def start (d : Data) : Threads ι Data Line Cond :=
  ⟨⟨Monitor.free, d, []⟩, fun _ => .outside⟩

def after : List (Statement Data Line Cond) → Data → Data
  | [], d => d
  | .assign f :: rest, d => after rest (f d)
  | .printf _ :: rest, d | .signal _ _ :: rest, d => after rest d

def lines : List (Statement Data Line Cond) → Data → List Line
  | [], _ => []
  | .assign f :: rest, d => lines rest (f d)
  | .printf line :: rest, d => line d :: lines rest d
  | .signal _ _ :: rest, d => lines rest d

def signals : List (Statement Data Line Cond) → Data → List Cond
  | [], _ => []
  | .assign f :: rest, d => signals rest (f d)
  | .printf _ :: rest, d => signals rest d
  | .signal guard c :: rest, d => if guard d then c :: signals rest d else signals rest d

/-- The data, and who sleeps. -/
structure Atomic (ι Data : Type) where
  data : Data
  parked : ι → Bool

def Section.called [DecidableEq Cond] (s : Section Data Line Cond) (cs : List Cond) : Bool :=
  s.ending.cond.any (cs.contains ·)

section
variable [DecidableEq ι] [DecidableEq Cond]

def turn (sections : ι → Section Data Line Cond) (a : Atomic ι Data) (i : ι) : Atomic ι Data :=
  let work := (sections i).branch a.data
  ⟨after work.1 a.data, fun j => if j = i then work.2.cond.isSome
    else a.parked j && !(sections j).called (signals work.1 a.data)⟩

def play (sections : ι → Section Data Line Cond) (a : Atomic ι Data) (turns : List ι) :
    Atomic ι Data :=
  turns.foldl (turn sections) a

def transcript (sections : ι → Section Data Line Cond) : Atomic ι Data → List ι → List Line
  | _, [] => []
  | a, i :: turns =>
      lines ((sections i).branch a.data).1 a.data ++ transcript sections (turn sections a i) turns

/-- Without spurious wake-ups a thread that sleeps has no turn. -/
def Possible (sections : ι → Section Data Line Cond) (spurious : Bool) :
    Atomic ι Data → List ι → Prop
  | _, [] => True
  | a, i :: turns => (spurious = true ∨ a.parked i = false) ∧
      Possible sections spurious (turn sections a i) turns

end

def Stage.standing : Stage Data Line Cond → Standing Cond
  | .outside => .outside
  | .testing | .working _ _ => .inside
  | .waiting _ c => .waiting c

def Stage.OfSection (round : Section Data Line Cond) : Stage Data Line Cond → Prop
  | .outside | .testing => True
  | .working _ ending => ∀ c, ending.cond = some c → round.ending.cond = some c
  | .waiting _ c => round.ending.cond = some c

structure Sound [DecidableEq ι] (sections : ι → Section Data Line Cond)
    (s : Threads ι Data Line Cond) : Prop where
  consistent : Consistent s.shared.monitor fun i => (s.locals i).standing
  ofSection : ∀ i, (s.locals i).OfSection (sections i)

/-! The thread that has the mutex, and what it is going to do before it gives it back. -/

def Stage.rest : Stage Data Line Cond → List (Statement Data Line Cond)
  | .working rest _ => rest
  | .outside | .testing | .waiting _ _ => []

def Stage.parks : Stage Data Line Cond → Bool
  | .working _ ending => ending.cond.isSome
  | .outside | .testing | .waiting _ _ => false

/-- Nobody has the mutex. -/
structure Rests (spurious : Bool) (g : Shared ι Data Line Cond) (a : Atomic ι Data)
    (w : List Line) : Prop where
  free : g.monitor.owner = none
  data : g.data = a.data
  printed : g.printed = w
  parked : spurious = false → ∀ j, a.parked j = (g.monitor.asleep j).isSome

/-- A thread has the mutex, and this is what there will be when it has given it back. -/
structure Ahead [DecidableEq Cond] (sections : ι → Section Data Line Cond) (spurious : Bool) (i : ι)
    (g : Shared ι Data Line Cond) (l : Stage Data Line Cond) (a : Atomic ι Data)
    (w : List Line) : Prop where
  held : g.monitor.owner = some i
  data : after l.rest g.data = a.data
  printed : g.printed ++ lines l.rest g.data = w
  own : spurious = false → a.parked i = l.parks
  parked : spurious = false → ∀ j, j ≠ i → a.parked j =
    ((g.monitor.asleep j).isSome && !(sections j).called (signals l.rest g.data))

def Predicts [DecidableEq Cond] (sections : ι → Section Data Line Cond) (spurious : Bool)
    (s : Threads ι Data Line Cond) (a : Atomic ι Data) (w : List Line) : Prop :=
  Rests spurious s.shared a w ∨ ∃ i, Ahead sections spurious i s.shared (s.locals i) a w

section
variable {sections : ι → Section Data Line Cond} {spurious : Bool}

theorem Section.called_nil [DecidableEq Cond] (round : Section Data Line Cond) :
    round.called [] = false := by
  cases found : round.ending.cond <;> simp [Section.called, found]

theorem Section.called_cons [DecidableEq Cond] (round : Section Data Line Cond) (c : Cond)
    (cs : List Cond) :
    round.called (c :: cs) = (decide (round.ending.cond = some c) || round.called cs) := by
  cases found : round.ending.cond <;> simp [Section.called, found]

theorem alone_never (never : ∀ i, (sections i).ending = .unlock) : Alone sections := by
  intro i j c first
  rw [never] at first
  cases first

theorem branch_ofSection {i : ι} {d : Data} {rest : List (Statement Data Line Cond)}
    {ending : Ending Cond} (branch : (sections i).branch d = (rest, ending)) (c : Cond)
    (waits : ending.cond = some c) : (sections i).ending.cond = some c := by
  simp only [Section.branch] at branch
  split at branch
  · obtain ⟨_, rfl⟩ := Prod.mk.inj branch
    cases waits
  · obtain ⟨_, rfl⟩ := Prod.mk.inj branch
    exact waits

variable [DecidableEq ι]

theorem Act.call {i : ι} {g g' : Shared ι Data Line Cond} {l l' : Stage Data Line Cond}
    (act : Act sections spurious i g l g' l') :
    Call i g.monitor l.standing g'.monitor l'.standing := by
  cases act with
  | lock free => exact .lock free
  | test _ | assign | printf | skip _ => exact .stay rfl fun _ _ asleep => asleep
  | signal _ signal => exact .stay signal.owner fun _ _ asleep => signal.asleep asleep
  | unlock => exact .unlock
  | wait => exact .wait _
  | wake _ => exact .stay rfl fun _ _ asleep => (Monitor.wake_asleep asleep).2
  | retest free awake | resume free awake => exact .relock free awake

theorem Act.ofSection {i : ι} {g g' : Shared ι Data Line Cond} {l l' : Stage Data Line Cond}
    (act : Act sections spurious i g l g' l') (held : l.OfSection (sections i)) :
    l'.OfSection (sections i) := by
  cases act with
  | lock _ | unlock | retest _ _ => trivial
  | test branch => exact branch_ofSection branch
  | assign | printf | signal _ _ | skip _ => exact held
  | wait => exact held _ rfl
  | wake _ => exact held
  | resume _ _ => exact nofun

theorem ofSection_stable : Stable (Act sections spurious) fun i _ l => l.OfSection (sections i) :=
  ⟨fun _ _ _ _ _ => Act.ofSection, fun _ _ _ _ _ _ _ _ _ _ held => held⟩

theorem Sound.start (d : Data) : Sound sections (start d) :=
  ⟨Consistent.start, fun _ => trivial⟩

theorem Sound.step {s t : Threads ι Data Line Cond} (sound : Sound sections s)
    (move : Step (Act sections spurious) s t) : Sound sections t where
  consistent := Consistent.step Shared.monitor (fun _ l => l.standing) (fun _ _ _ _ _ => Act.call)
    move sound.consistent
  ofSection := ofSection_stable.step move sound.ofSection

theorem Sound.run {s t : Threads ι Data Line Cond} (sound : Sound sections s)
    (run : Run (Act sections spurious) s t) : Sound sections t :=
  run.invariant sound fun _ _ move before => before.step move

theorem Sound.waits {s : Threads ι Data Line Cond} (sound : Sound sections s) {j : ι} {c : Cond}
    (asleep : s.shared.monitor.asleep j = some c) : (sections j).ending.cond = some c := by
  have standing := sound.consistent.asleep j c asleep
  have known := sound.ofSection j
  revert standing known
  cases s.locals j with
  | outside | testing | working _ _ => exact nofun
  | waiting _ d =>
      intro standing known
      obtain rfl := Standing.waiting.inj standing
      exact known

theorem Sound.awake {s : Threads ι Data Line Cond} (sound : Sound sections s) {i : ι}
    (elsewhere : ∀ c, (s.locals i).standing ≠ .waiting c) : s.shared.monitor.asleep i = none :=
  sound.consistent.awake elsewhere

theorem signal_asleep {m m' : Monitor ι Cond} {c : Cond} [DecidableEq Cond]
    (alone : Alone sections)
    (known : ∀ j d, m.asleep j = some d → (sections j).ending.cond = some d)
    (signal : m.Signal c m') (j : ι) :
    (m'.asleep j).isSome =
      ((m.asleep j).isSome && !decide ((sections j).ending.cond = some c)) := by
  cases signal with
  | heard i asleep =>
      by_cases same : j = i
      · subst same
        simp [Monitor.wake, known j c asleep]
      · have other : (sections j).ending.cond ≠ some c :=
          fun waits => same (alone j i c waits (known i c asleep))
        simp [Monitor.wake, same, other]
  | lost nobody =>
      cases asleep : m.asleep j with
      | none => rfl
      | some d =>
          have other : (sections j).ending.cond ≠ some c := by
            rw [known j d asleep]
            rintro ⟨⟩
            exact nobody j asleep
          simp [other]

end

section
variable [DecidableEq Cond] {sections : ι → Section Data Line Cond}
  {spurious : Bool} {g g' : Shared ι Data Line Cond} {a : Atomic ι Data} {w : List Line} {i j : ι}
  {l l' : Stage Data Line Cond}

theorem Rests.enter (rests : Rests spurious g a w) (awake : g.monitor.asleep i = none)
    (idle : l.rest = []) (stays : l.parks = false) :
    Ahead sections spurious i { g with monitor := g.monitor.lock i } l a w where
  held := rfl
  data := by rw [idle]; exact rests.data
  printed := by rw [idle]; simpa only [lines, List.append_nil] using rests.printed
  own := by
    intro genuine
    rw [rests.parked genuine i, awake, stays]
    rfl
  parked := by
    intro genuine j _
    rw [rests.parked genuine j, idle]
    simp [signals, Section.called_nil]

variable [DecidableEq ι]

theorem Ahead.turn (ahead : Ahead sections spurious i g .testing a w)
    {rest : List (Statement Data Line Cond)} {ending : Ending Cond}
    (branch : (sections i).branch g.data = (rest, ending)) :
    (spurious = true ∨ a.parked i = false) ∧
      Ahead sections spurious i g (.working rest ending) (turn sections a i)
        (w ++ lines ((sections i).branch a.data).1 a.data) := by
  have same : g.data = a.data := ahead.data
  rw [same] at branch
  constructor
  · cases genuine : spurious with
    | true => exact Or.inl rfl
    | false => exact Or.inr (ahead.own genuine)
  · rw [branch]
    refine ⟨ahead.held, ?_, ?_, ?_, ?_⟩
    · simp only [Stage.rest, Sections.turn, branch, same]
    · rw [← ahead.printed, same]
      simp only [Stage.rest, lines, List.append_nil]
    · intro _
      simp only [Sections.turn, branch, Stage.parks, if_true]
    · intro genuine j other
      have parked := ahead.parked genuine j other
      simp only [Stage.rest, signals, Section.called_nil, Bool.not_false, Bool.and_true] at parked
      simp only [Sections.turn, branch, if_neg other, parked, Stage.rest, same]

theorem Ahead.leave (ahead : Ahead sections spurious i g (.working [] .unlock) a w)
    (awake : g.monitor.asleep i = none) :
    Rests spurious { g with monitor := g.monitor.unlock } a w where
  free := rfl
  data := ahead.data
  printed := by simpa only [Stage.rest, lines, List.append_nil] using ahead.printed
  parked := by
    intro genuine j
    by_cases same : j = i
    · subst same
      rw [ahead.own genuine, Monitor.unlock_asleep, awake]
      rfl
    · rw [ahead.parked genuine j same]
      simp [Stage.rest, signals, Section.called_nil]

theorem Ahead.wait {again : Bool} {c : Cond}
    (ahead : Ahead sections spurious i g (.working [] (.wait again c)) a w) :
    Rests spurious { g with monitor := g.monitor.wait i c } a w where
  free := rfl
  data := ahead.data
  printed := by simpa only [Stage.rest, lines, List.append_nil] using ahead.printed
  parked := by
    intro genuine j
    by_cases same : j = i
    · subst same
      rw [ahead.own genuine]
      simp [Monitor.wait, Stage.parks, Ending.cond]
    · rw [ahead.parked genuine j same]
      simp [Monitor.wait, same, Stage.rest, signals, Section.called_nil]

/-- The turn is taken at the test; what the thread does after it is already accounted for. -/
theorem Ahead.act
    (alone : Alone sections)
    (ahead : Ahead sections spurious i g l a w) (awake : g.monitor.asleep i = none)
    (known : ∀ j d, g.monitor.asleep j = some d → (sections j).ending.cond = some d)
    (inside : l.standing = .inside) (act : Act sections spurious i g l g' l') :
    (∃ rest ending, (spurious = true ∨ a.parked i = false) ∧ l = .testing ∧
        l' = .working rest ending ∧ Ahead sections spurious i g' l' (Sections.turn sections a i)
          (w ++ lines ((sections i).branch a.data).1 a.data)) ∨
      Ahead sections spurious i g' l' a w ∨ Rests spurious g' a w := by
  cases act with
  | lock _ | wake _ | retest _ _ | resume _ _ => cases inside
  | test branch =>
      obtain ⟨allowed, taken⟩ := ahead.turn branch
      exact Or.inl ⟨_, _, allowed, rfl, rfl, taken⟩
  | assign => exact Or.inr (Or.inl ⟨ahead.held, ahead.data, ahead.printed, ahead.own, ahead.parked⟩)
  | printf =>
      refine Or.inr (Or.inl ⟨ahead.held, ahead.data, ?_, ahead.own, ahead.parked⟩)
      rw [← ahead.printed]
      simp [Stage.rest, lines]
  | signal guard signal =>
      refine Or.inr (Or.inl ⟨signal.owner.trans ahead.held, ahead.data, ahead.printed, ahead.own, ?_⟩)
      intro genuine j other
      rw [ahead.parked genuine j other, signal_asleep alone known signal j]
      simp only [Stage.rest, signals, guard, if_true, Section.called_cons, Bool.not_or,
        Bool.and_assoc]
  | skip guard =>
      refine Or.inr (Or.inl ⟨ahead.held, ahead.data, ahead.printed, ahead.own, ?_⟩)
      intro genuine j other
      rw [ahead.parked genuine j other]
      simp [Stage.rest, signals, guard]
  | unlock => exact Or.inr (Or.inr (ahead.leave awake))
  | wait => exact Or.inr (Or.inr ahead.wait)

/-- With the mutex in somebody's hands the others can at most wake up. -/
theorem Ahead.other (ahead : Ahead sections spurious i g l a w) (outside : l'.standing ≠ .inside)
    {after : Stage Data Line Cond} (act : Act sections spurious j g l' g' after) :
    Ahead sections spurious i g' l a w := by
  have taken : g.monitor.owner ≠ none := by
    rw [ahead.held]
    exact nofun
  cases act with
  | lock free | retest free _ | resume free _ => exact (taken free).elim
  | test _ | assign | printf | signal _ _ | skip _ | unlock | wait => exact (outside rfl).elim
  | wake allowed =>
      refine ⟨ahead.held, ahead.data, ahead.printed, ?_, ?_⟩
      · rw [allowed]
        exact nofun
      · rw [allowed]
        exact nofun

theorem Rests.act (rests : Rests spurious g a w) (outside : l.standing ≠ .inside)
    (awake : l.standing = .outside → g.monitor.asleep i = none)
    (act : Act sections spurious i g l g' l') :
    Rests spurious g' a w ∨ Ahead sections spurious i g' l' a w := by
  cases act with
  | lock _ => exact Or.inr (rests.enter (awake rfl) rfl rfl)
  | retest _ up | resume _ up => exact Or.inr (rests.enter up rfl rfl)
  | test _ | assign | printf | signal _ _ | skip _ | unlock | wait => exact (outside rfl).elim
  | wake allowed =>
      refine Or.inl ⟨rests.free, rests.data, rests.printed, ?_⟩
      rw [allowed]
      exact nofun

/-- One action belongs to the turn that has been taken, or takes one more. -/
theorem Predicts.step
    (alone : Alone sections)
    {s t : Threads ι Data Line Cond} (sound : Sound sections s)
    (predicts : Predicts sections spurious s a w) (move : Step (Act sections spurious) s t) :
    ∃ turns, Possible sections spurious a turns ∧
      Predicts sections spurious t (play sections a turns) (w ++ transcript sections a turns) := by
  have stay {t : Threads ι Data Line Cond} (same : Predicts sections spurious t a w) :
      ∃ turns, Possible sections spurious a turns ∧
        Predicts sections spurious t (play sections a turns) (w ++ transcript sections a turns) :=
    ⟨[], trivial, by simpa only [play, transcript, List.foldl_nil, List.append_nil] using same⟩
  cases move with
  | turn i acted =>
      rename_i shared thread
      rcases predicts with rests | ⟨holder, ahead⟩
      · have outside := sound.consistent.not_inside rests.free i
        have awake (standing : (s.locals i).standing = .outside) :
            s.shared.monitor.asleep i = none := by
          apply sound.awake
          intro c
          rw [standing]
          exact nofun
        rcases rests.act outside awake acted with later | later
        · exact stay (Or.inl later)
        · exact stay (Or.inr ⟨i, by simpa only [Function.update_self] using later⟩)
      · have inside : (s.locals holder).standing = .inside :=
          (sound.consistent.owner holder).mp ahead.held
        by_cases same : i = holder
        · subst same
          have awake : s.shared.monitor.asleep i = none := by
            apply sound.awake
            intro c
            rw [inside]
            exact nofun
          rcases ahead.act alone awake (fun j d => sound.waits) inside acted with
            ⟨_, _, allowed, _, _, taken⟩ | later | later
          · refine ⟨[i], ⟨allowed, trivial⟩, Or.inr ⟨i, ?_⟩⟩
            simpa only [Function.update_self, play, transcript, List.foldl_cons, List.foldl_nil,
              List.append_nil] using taken
          · exact stay (Or.inr ⟨i, by simpa only [Function.update_self] using later⟩)
          · exact stay (Or.inl later)
        · have outside : (s.locals i).standing ≠ .inside :=
            fun there => same (sound.consistent.exclusive there inside)
          refine stay (Or.inr ⟨holder, ?_⟩)
          simp only [Function.update_of_ne (Ne.symm same)]
          exact ahead.other outside acted

@[simp] theorem turn_data (i : ι) : (turn sections a i).data =
    after ((sections i).branch a.data).1 a.data := rfl

@[simp] theorem turn_self (i : ι) : (turn sections a i).parked i =
    ((sections i).branch a.data).2.cond.isSome := if_pos rfl

theorem turn_awake (other : j ≠ i) (awake : a.parked j = false) :
    (turn sections a i).parked j = false := by
  simp [turn, other, awake]

theorem turn_called (other : j ≠ i)
    (called : (sections j).called (signals ((sections i).branch a.data).1 a.data) = true) :
    (turn sections a i).parked j = false := by
  simp [turn, other, called]

theorem turn_never (never : ∀ j, (sections j).ending = .unlock) (up : ∀ j, a.parked j = false)
    (j : ι) : (turn sections a i).parked j = false := by
  by_cases own : j = i
  · subst own
    rw [turn_self, Section.branch]
    split
    · rfl
    · rw [never]
      rfl
  · exact turn_awake own (up j)

theorem possible_append (turns more : List ι) : Possible sections spurious a (turns ++ more) ↔
    Possible sections spurious a turns ∧
      Possible sections spurious (play sections a turns) more := by
  induction turns generalizing a with
  | nil => simp [Possible, play]
  | cons i turns ih =>
      simp only [List.cons_append, Possible, play, List.foldl_cons]
      rw [ih, and_assoc]
      rfl

theorem transcript_append (turns more : List ι) : transcript sections a (turns ++ more) =
    transcript sections a turns ++ transcript sections (play sections a turns) more := by
  induction turns generalizing a with
  | nil => rfl
  | cons i turns ih =>
      simp only [List.cons_append, transcript, play, List.foldl_cons, List.append_assoc]
      rw [ih]
      rfl

theorem play_append (turns more : List ι) :
    play sections a (turns ++ more) = play sections (play sections a turns) more :=
  List.foldl_append

theorem Predicts.run
    (alone : Alone sections)
    {s t : Threads ι Data Line Cond} (sound : Sound sections s)
    (predicts : Predicts sections spurious s a w) (run : Run (Act sections spurious) s t) :
    ∃ turns, Possible sections spurious a turns ∧
      Predicts sections spurious t (play sections a turns) (w ++ transcript sections a turns) := by
  induction run with
  | refl => exact ⟨[], trivial, by simpa only [play, transcript, List.foldl_nil, List.append_nil] using predicts⟩
  | tail path move ih =>
      obtain ⟨turns, possible, before⟩ := ih
      obtain ⟨more, further, later⟩ := before.step alone (sound.run path) move
      refine ⟨turns ++ more, (possible_append turns more).mpr ⟨possible, further⟩, ?_⟩
      rw [play_append, transcript_append, ← List.append_assoc]
      exact later

/-! Every turn can be played. -/

theorem Ahead.exists_rests
    (alone : Alone sections)
    (locals : ι → Stage Data Line Cond) {ending : Ending Cond}
    (rest : List (Statement Data Line Cond))
    (ahead : Ahead sections spurious i g (.working rest ending) a w)
    (sound : Sound sections (solo locals i g (.working rest ending))) :
    ∃ t, Run (Act sections spurious) (solo locals i g (.working rest ending)) t ∧
      Rests spurious t.shared a w := by
  induction rest generalizing g with
  | nil =>
      cases ending with
      | unlock =>
          have awake : g.monitor.asleep i = none := sound.awake (i := i) (by
            intro c
            simp [solo, Stage.standing])
          exact ⟨_, .single (Step.solo locals i .unlock), ahead.leave awake⟩
      | wait again c => exact ⟨_, .single (Step.solo locals i .wait), ahead.wait⟩
  | cons statement rest ih =>
      have awake : g.monitor.asleep i = none := sound.awake (i := i) (by
        intro c
        simp [solo, Stage.standing])
      have onward {g' : Shared ι Data Line Cond} (act : Act sections spurious i g
          (.working (statement :: rest) ending) g' (.working rest ending)) :
          ∃ t, Run (Act sections spurious)
            (solo locals i g (.working (statement :: rest) ending)) t ∧
              Rests spurious t.shared a w := by
        have move := Step.solo locals i act
        rcases ahead.act alone awake (fun j d => sound.waits) rfl act with
          ⟨_, _, _, testing, _⟩ | later | later
        · cases testing
        · obtain ⟨t, run, rests⟩ := ih later (sound.step move)
          exact ⟨t, .head move run, rests⟩
        · exact ⟨_, .single move, later⟩
      cases statement with
      | assign f => exact onward .assign
      | printf line => exact onward .printf
      | signal guard c =>
          cases guarded : guard g.data with
          | false => exact onward (.skip guarded)
          | true =>
              obtain ⟨m, signal⟩ := Monitor.exists_signal g.monitor c
              exact onward (.signal guarded signal)

theorem Ahead.exists_turn
    (alone : Alone sections)
    {locals : ι → Stage Data Line Cond} (ahead : Ahead sections spurious i g .testing a w)
    (sound : Sound sections (solo locals i g .testing)) :
    ∃ t, Run (Act sections spurious) (solo locals i g .testing) t ∧
      Rests spurious t.shared (Sections.turn sections a i)
        (w ++ lines ((sections i).branch a.data).1 a.data) := by
  cases branch : (sections i).branch g.data with
  | mk rest ending =>
      have move : Step (Act sections spurious) (solo locals i g .testing) _ :=
        Step.solo locals i (.test branch)
      obtain ⟨t, run, rests⟩ :=
        (ahead.turn branch).2.exists_rests alone locals rest (sound.step move)
      exact ⟨t, .head move run, rests⟩

theorem Rests.exists_outside
    (alone : Alone sections)
    {locals : ι → Stage Data Line Cond} (rests : Rests spurious g a w)
    (sound : Sound sections (solo locals i g .outside)) :
    ∃ t, Run (Act sections spurious) (solo locals i g .outside) t ∧
      Rests spurious t.shared (turn sections a i)
        (w ++ lines ((sections i).branch a.data).1 a.data) := by
  have awake : g.monitor.asleep i = none := sound.awake (i := i) (by
    intro c
    simp [solo, Stage.standing])
  have move : Step (Act sections spurious) (solo locals i g .outside) _ :=
    Step.solo locals i (.lock rests.free)
  have ahead : Ahead sections spurious i { g with monitor := g.monitor.lock i } .testing a w :=
    rests.enter awake rfl rfl
  obtain ⟨t, run, later⟩ := ahead.exists_turn alone (sound.step move)
  exact ⟨t, .head move run, later⟩

theorem Rests.exists_waiting
    (alone : Alone sections)
    {locals : ι → Stage Data Line Cond} {again : Bool} {c : Cond} (rests : Rests spurious g a w)
    (awake : g.monitor.asleep i = none)
    (sound : Sound sections (solo locals i g (.waiting again c))) :
    ∃ t, Run (Act sections spurious) (solo locals i g (.waiting again c)) t ∧
      Rests spurious t.shared (turn sections a i)
        (w ++ lines ((sections i).branch a.data).1 a.data) := by
  have ahead {l : Stage Data Line Cond} (idle : l.rest = []) (stays : l.parks = false) :
      Ahead sections spurious i { g with monitor := g.monitor.lock i } l a w :=
    rests.enter awake idle stays
  cases again with
  | true =>
      have move : Step (Act sections spurious) (solo locals i g (.waiting true c)) _ :=
        Step.solo locals i (.retest rests.free awake)
      obtain ⟨t, run, later⟩ := (ahead rfl rfl).exists_turn alone (sound.step move)
      exact ⟨t, .head move run, later⟩
  | false =>
      have move : Step (Act sections spurious) (solo locals i g (.waiting false c)) _ :=
        Step.solo locals i (.resume rests.free awake)
      have release : Step (Act sections spurious) (solo locals i
          { g with monitor := g.monitor.lock i } (.working [] .unlock)) _ :=
        Step.solo locals i .unlock
      obtain ⟨t, run, later⟩ := ((ahead rfl rfl).leave awake).exists_outside alone
        ((sound.step move).step release)
      exact ⟨t, .head move (.head release run), later⟩

theorem Rests.exists_turn
    (alone : Alone sections)
    {s : Threads ι Data Line Cond} (sound : Sound sections s) (rests : Rests spurious s.shared a w)
    (allowed : spurious = true ∨ a.parked i = false) :
    ∃ t, Run (Act sections spurious) s t ∧ Rests spurious t.shared (turn sections a i)
      (w ++ lines ((sections i).branch a.data).1 a.data) := by
  have here : s = solo s.locals i s.shared (s.locals i) := (solo_self ..).symm
  have outside := sound.consistent.not_inside rests.free i
  rw [here] at sound ⊢
  revert sound outside
  generalize s.locals i = stage
  intro sound outside
  cases stage with
  | outside => exact rests.exists_outside alone sound
  | testing | working _ _ => exact (outside rfl).elim
  | waiting again c =>
      by_cases awake : s.shared.monitor.asleep i = none
      · exact rests.exists_waiting alone awake sound
      · have genuine : spurious = true := by
          rcases allowed with genuine | up
          · exact genuine
          · by_contra honest
            rw [rests.parked (Bool.eq_false_iff.mpr honest) i] at up
            exact awake (by simpa using up)
        have move : Step (Act sections spurious) (solo s.locals i s.shared (.waiting again c)) _ :=
          Step.solo s.locals i (.wake genuine)
        have woken : Rests spurious { s.shared with monitor := s.shared.monitor.wake i } a w :=
          ⟨rests.free, rests.data, rests.printed, by rw [genuine]; exact nofun⟩
        obtain ⟨t, run, later⟩ :=
          woken.exists_waiting alone (Function.update_self ..) (sound.step move)
        exact ⟨t, .head move run, later⟩

theorem Rests.exists_play
    (alone : Alone sections)
    {s : Threads ι Data Line Cond} (sound : Sound sections s) (rests : Rests spurious s.shared a w)
    {turns : List ι} (possible : Possible sections spurious a turns) :
    ∃ t, Run (Act sections spurious) s t ∧
      Rests spurious t.shared (play sections a turns) (w ++ transcript sections a turns) := by
  induction turns generalizing s a w with
  | nil => exact ⟨s, .refl, by simpa only [play, transcript, List.foldl_nil, List.append_nil] using rests⟩
  | cons i turns ih =>
      obtain ⟨middle, run, before⟩ := rests.exists_turn alone sound possible.1
      obtain ⟨t, more, later⟩ := ih (sound.run run) before possible.2
      refine ⟨t, run.trans more, ?_⟩
      rw [List.append_assoc] at later
      exact later

/-- The thread that has the mutex can give it back. -/
theorem Predicts.exists_rests
    (alone : Alone sections)
    {s : Threads ι Data Line Cond} (sound : Sound sections s)
    (predicts : Predicts sections spurious s a w) :
    ∃ t, Run (Act sections spurious) s t ∧ t.shared.monitor.owner = none := by
  rcases predicts with rests | ⟨i, ahead⟩
  · exact ⟨s, .refl, rests.free⟩
  · have here : s = solo s.locals i s.shared (s.locals i) := (solo_self ..).symm
    have inside := (sound.consistent.owner i).mp ahead.held
    rw [here] at sound ⊢
    revert sound ahead inside
    generalize s.locals i = stage
    intro sound ahead inside
    cases stage with
    | outside | waiting _ _ => cases inside
    | testing =>
        obtain ⟨t, run, rests⟩ := ahead.exists_turn alone sound
        exact ⟨t, run, rests.free⟩
    | working rest ending =>
        obtain ⟨t, run, rests⟩ := ahead.exists_rests alone s.locals rest sound
        exact ⟨t, run, rests.free⟩

end

section
variable {M : Type} {next : M → Line → Option M}

def Accepts (next : M → Line → Option M) (m : M) (w : List Line) : Prop :=
  (w.foldlM next m).isSome

instance (m : M) (w : List Line) : Decidable (Accepts next m w) :=
  inferInstanceAs (Decidable (_ = true))

theorem accepts_append {m m' : M} {v : List Line} (reads : v.foldlM next m = some m')
    (w : List Line) : Accepts next m (v ++ w) ↔ Accepts next m' w := by
  rw [Accepts, Accepts, List.foldlM_append, reads]
  rfl

theorem Accepts.of_prefix {m : M} {v w : List Line} (accepts : Accepts next m w) (part : v <+: w) :
    Accepts next m v := by
  obtain ⟨rest, rfl⟩ := part
  rw [Accepts, List.foldlM_append] at accepts
  rw [Accepts]
  cases reads : v.foldlM next m with
  | none =>
      rw [reads] at accepts
      cases accepts
  | some m' => rfl

/-- From every point on the mutex can become free, and whenever it is free, the text so far can be
continued in exactly the ways that give a text of this kind. -/
def Prints [DecidableEq ι] (sections : ι → Section Data Line Cond) (spurious : Bool) (d : Data)
    (text : List Line → Prop) : Prop :=
  ∀ s, Run (Act sections spurious) (start d) s →
    (∃ t, Run (Act sections spurious) s t ∧ t.shared.monitor.owner = none) ∧
      (s.shared.monitor.owner = none → ∀ w, (∃ t, Run (Act sections spurious) s t ∧
        t.shared.printed = s.shared.printed ++ w) ↔ text (s.shared.printed ++ w))

/-- Each turn prints nothing, or one line that the machine reads; each line that the machine can
read can be printed. -/
structure Recognizes [DecidableEq ι] [DecidableEq Cond] (sections : ι → Section Data Line Cond)
    (spurious : Bool) (next : M → Line → Option M) (R : Atomic ι Data → M → Prop) : Prop where
  turn : ∀ a m i, R a m → spurious = true ∨ a.parked i = false →
    (lines ((sections i).branch a.data).1 a.data = [] ∧ R (turn sections a i) m) ∨
      ∃ line m', lines ((sections i).branch a.data).1 a.data = [line] ∧ next m line = some m' ∧
        R (Sections.turn sections a i) m'
  line : ∀ a m line m', R a m → next m line = some m' →
    ∃ turns, Possible sections spurious a turns ∧ transcript sections a turns = [line]

variable [DecidableEq ι] [DecidableEq Cond] {sections : ι → Section Data Line Cond}
  {spurious : Bool} {R : Atomic ι Data → M → Prop} {a : Atomic ι Data} {m : M}

theorem Recognizes.play (recognizes : Recognizes sections spurious next R) (related : R a m)
    {turns : List ι} (possible : Possible sections spurious a turns) :
    ∃ m', (transcript sections a turns).foldlM next m = some m' ∧ R (play sections a turns) m' := by
  induction turns generalizing a m with
  | nil => exact ⟨m, rfl, related⟩
  | cons i turns ih =>
      rcases recognizes.turn a m i related possible.1 with
        ⟨silent, kept⟩ | ⟨line, middle, printed, reads, kept⟩
      · obtain ⟨m', read, final⟩ := ih kept possible.2
        refine ⟨m', ?_, final⟩
        rw [transcript, silent]
        exact read
      · obtain ⟨m', read, final⟩ := ih kept possible.2
        refine ⟨m', ?_, final⟩
        rw [transcript, printed, List.singleton_append, List.foldlM_cons, reads]
        exact read

theorem Recognizes.exists_turns (recognizes : Recognizes sections spurious next R)
    (related : R a m) {w : List Line} (accepts : Accepts next m w) :
    ∃ turns, Possible sections spurious a turns ∧ transcript sections a turns = w := by
  induction w generalizing a m with
  | nil => exact ⟨[], trivial, rfl⟩
  | cons line w ih =>
      rw [Accepts, List.foldlM_cons] at accepts
      cases reads : next m line with
      | none =>
          rw [reads] at accepts
          cases accepts
      | some middle =>
          rw [reads] at accepts
          obtain ⟨turns, possible, printed⟩ := recognizes.line a m line middle related reads
          obtain ⟨m', read, kept⟩ := recognizes.play related possible
          rw [printed, List.foldlM_cons, reads] at read
          obtain rfl : middle = m' := Option.some.inj read
          obtain ⟨more, further, rest⟩ := ih kept accepts
          exact ⟨turns ++ more, (possible_append turns more).mpr ⟨possible, further⟩, by
            rw [transcript_append, printed, rest, List.singleton_append]⟩

theorem Recognizes.continues (recognizes : Recognizes sections spurious next R)
    (alone : Alone sections)
    {d : Data} (related : R ⟨d, fun _ => false⟩ m) {s : Threads ι Data Line Cond}
    (run : Run (Act sections spurious) (start d) s) (free : s.shared.monitor.owner = none)
    (w : List Line) :
    (∃ t, Run (Act sections spurious) s t ∧ t.shared.printed = s.shared.printed ++ w) ↔
      Accepts next m (s.shared.printed ++ w) := by
  have begins : Predicts sections spurious (start d) ⟨d, fun _ => false⟩ [] :=
    Or.inl ⟨rfl, rfl, rfl, fun _ _ => rfl⟩
  have sound : Sound sections s := (Sound.start d).run run
  obtain ⟨turns, possible, predicts⟩ := begins.run alone (.start d) run
  have rests : Rests spurious s.shared (Sections.play sections ⟨d, fun _ => false⟩ turns)
      (transcript sections ⟨d, fun _ => false⟩ turns) := by
    rcases predicts with rests | ⟨i, ahead⟩
    · exact rests
    · rw [ahead.held] at free
      cases free
  obtain ⟨m', read, kept⟩ := recognizes.play related possible
  rw [rests.printed, accepts_append read]
  constructor
  · rintro ⟨t, more, printed⟩
    obtain ⟨further, possibly, later⟩ := Predicts.run alone sound (Or.inl rests) more
    obtain ⟨last, readOn, _⟩ := recognizes.play kept possibly
    have part : w <+: transcript sections (Sections.play sections ⟨d, fun _ => false⟩ turns) further := by
      rw [← List.prefix_append_right_inj (transcript sections ⟨d, fun _ => false⟩ turns), ← printed]
      rcases later with later | ⟨i, ahead⟩
      · rw [later.printed]
      · rw [← ahead.printed]
        exact List.prefix_append ..
    exact Accepts.of_prefix (by rw [Accepts, readOn]; rfl) part
  · intro accepts
    obtain ⟨further, possibly, printed⟩ := recognizes.exists_turns kept accepts
    obtain ⟨t, more, later⟩ := rests.exists_play alone sound possibly
    refine ⟨t, more, ?_⟩
    rw [later.printed, printed]

theorem Recognizes.prints (recognizes : Recognizes sections spurious next R)
    (alone : Alone sections) {d : Data} (related : R ⟨d, fun _ => false⟩ m) {text : List Line → Prop}
    (reads : ∀ w, Accepts next m w ↔ text w) : Prints sections spurious d text := by
  intro s run
  constructor
  · have begins : Predicts sections spurious (start d) ⟨d, fun _ => false⟩ [] :=
      Or.inl ⟨rfl, rfl, rfl, fun _ _ => rfl⟩
    obtain ⟨_, _, predicts⟩ := begins.run alone (.start d) run
    exact predicts.exists_rests alone ((Sound.start d).run run)
  · intro free w
    rw [recognizes.continues alone related run free, reads]

end

/-! A machine that does not read two refusals in a row, unless wake-ups may be spurious. -/

section
variable {M : Type} {next : M → Line → Option M} {refusal : Line → Bool} {spurious : Bool}

def patient (spurious : Bool) (refusal : Line → Bool) (next : M → Line → Option M) :
    M × Bool → Line → Option (M × Bool)
  | (m, refused), line =>
      if spurious = false ∧ refused = true ∧ refusal line = true then none
      else (next m line).map fun m' => (m', refusal line)

theorem patient_eq_some {m m' : M} {refused refused' : Bool} {line : Line} :
    patient spurious refusal next (m, refused) line = some (m', refused') ↔
      ¬(spurious = false ∧ refused = true ∧ refusal line = true) ∧ next m line = some m' ∧
        refusal line = refused' := by
  rw [patient]
  split
  · simp_all
  · simp_all

theorem patient_of_go {m m' : M} {refused : Bool} {line : Line} (goes : refusal line = false)
    (reads : next m line = some m') :
    patient spurious refusal next (m, refused) line = some (m', false) := by
  simp [patient, goes, reads]

theorem accepts_patient_cons (m : M) (refused : Bool) (w : List Line) :
    Accepts (patient spurious refusal next) (m, refused) w ↔ Accepts next m w ∧
      (spurious = false → (refused = true → ∀ line ∈ w.head?, refusal line = false) ∧
        w.IsChain fun x y => refusal x = true → refusal y = false) := by
  induction w generalizing m refused with
  | nil => simp [Accepts]
  | cons line w ih =>
      have head : (∀ x ∈ (line :: w).head?, refusal x = false) ↔ refusal line = false := by simp
      have chain : (line :: w).IsChain (fun x y => refusal x = true → refusal y = false) ↔
          (refusal line = true → ∀ y ∈ w.head?, refusal y = false) ∧
            w.IsChain fun x y => refusal x = true → refusal y = false := by
        cases w with
        | nil => simp
        | cons second w => simp
      rw [head, chain]
      by_cases barred : spurious = false ∧ refused = true ∧ refusal line = true
      · have stuck : ¬Accepts (patient spurious refusal next) (m, refused) (line :: w) := by
          simp [Accepts, patient, barred]
        refine iff_of_false stuck ?_
        rintro ⟨_, quiet⟩
        rw [(quiet barred.1).1 barred.2.1] at barred
        cases barred.2.2
      · cases reads : next m line with
        | none => simp [Accepts, patient, barred, reads]
        | some m' =>
            have onward : Accepts (patient spurious refusal next) (m, refused) (line :: w) ↔
                Accepts (patient spurious refusal next) (m', refusal line) w := by
              simp [Accepts, patient, barred, reads]
            have plain : Accepts next m (line :: w) ↔ Accepts next m' w := by
              simp [Accepts, reads]
            rw [onward, plain, ih]
            refine and_congr_right fun _ => ?_
            constructor
            · intro quiet genuine
              refine ⟨fun before => ?_, quiet genuine⟩
              cases refuses : refusal line with
              | false => rfl
              | true => exact (barred ⟨genuine, before, refuses⟩).elim
            · intro quiet genuine
              exact (quiet genuine).2

theorem accepts_patient (m : M) (w : List Line) :
    Accepts (patient spurious refusal next) (m, false) w ↔ Accepts next m w ∧
      (spurious = false → w.IsChain fun x y => refusal x = true → refusal y = false) := by
  rw [accepts_patient_cons]
  simp

end

end Sections
