import CudaOpenMp.Library.Interleaving

/-!
A mutex with condition variables. A thread that waits gives the mutex back and sleeps until it
is signalled or wakes up by itself, and then takes the mutex again.
-/

namespace Monitors

open Interleaving

structure Monitor (ι Cond : Type) where
  owner : Option ι
  asleep : ι → Option Cond

inductive Standing (Cond : Type) where
  | outside
  | inside
  | waiting (c : Cond)
deriving DecidableEq

variable {ι Cond : Type}

namespace Monitor

def free : Monitor ι Cond := ⟨none, fun _ => none⟩

def lock (m : Monitor ι Cond) (i : ι) : Monitor ι Cond := { m with owner := some i }

def unlock (m : Monitor ι Cond) : Monitor ι Cond := { m with owner := none }

def notifyAll [DecidableEq Cond] (m : Monitor ι Cond) (c : Cond) : Monitor ι Cond :=
  { m with asleep := fun i => if m.asleep i = some c then none else m.asleep i }

section
variable {m : Monitor ι Cond}

@[simp] theorem lock_owner (i : ι) : (m.lock i).owner = some i := rfl

@[simp] theorem lock_asleep (i : ι) : (m.lock i).asleep = m.asleep := rfl

@[simp] theorem unlock_owner : m.unlock.owner = none := rfl

@[simp] theorem unlock_asleep : m.unlock.asleep = m.asleep := rfl

theorem notifyAll_asleep [DecidableEq Cond] {i : ι} {c d : Cond}
    (asleep : (m.notifyAll c).asleep i = some d) : d ≠ c ∧ m.asleep i = some d := by
  simp only [notifyAll] at asleep
  split at asleep
  · cases asleep
  · next other =>
    refine ⟨?_, asleep⟩
    rintro rfl
    exact other asleep

end

variable [DecidableEq ι]

def wait (m : Monitor ι Cond) (i : ι) (c : Cond) : Monitor ι Cond :=
  ⟨none, Function.update m.asleep i (some c)⟩

def wake (m : Monitor ι Cond) (i : ι) : Monitor ι Cond :=
  { m with asleep := Function.update m.asleep i none }

/-- A signal wakes one of the sleepers, if there is one. -/
inductive Signal (c : Cond) (m : Monitor ι Cond) : Monitor ι Cond → Prop
  | heard (i : ι) : m.asleep i = some c → Signal c m (m.wake i)
  | lost : (∀ i, m.asleep i ≠ some c) → Signal c m m

section
variable {m : Monitor ι Cond}

@[simp] theorem wait_owner (i : ι) (c : Cond) : (m.wait i c).owner = none := rfl

@[simp] theorem wake_owner (i : ι) : (m.wake i).owner = m.owner := rfl

theorem wait_asleep {i j : ι} {c d : Cond} (asleep : (m.wait i c).asleep j = some d) :
    j = i ∧ d = c ∨ j ≠ i ∧ m.asleep j = some d := by
  by_cases same : j = i
  · subst same
    simp only [wait, Function.update_self, Option.some.injEq] at asleep
    exact Or.inl ⟨rfl, asleep.symm⟩
  · simp only [wait, Function.update_of_ne same] at asleep
    exact Or.inr ⟨same, asleep⟩

theorem wake_asleep {i j : ι} {c : Cond} (asleep : (m.wake i).asleep j = some c) :
    j ≠ i ∧ m.asleep j = some c := by
  by_cases same : j = i
  · simp [wake, same] at asleep
  · exact ⟨same, by simpa [wake, same] using asleep⟩

theorem exists_signal (m : Monitor ι Cond) (c : Cond) : ∃ m', Signal c m m' := by
  by_cases sleeper : ∃ i, m.asleep i = some c
  · obtain ⟨i, asleep⟩ := sleeper
    exact ⟨m.wake i, .heard i asleep⟩
  · exact ⟨m, .lost fun i asleep => sleeper ⟨i, asleep⟩⟩

theorem Signal.owner {c : Cond} {m' : Monitor ι Cond} (signal : Signal c m m') :
    m'.owner = m.owner := by
  cases signal <;> rfl

theorem Signal.asleep {c d : Cond} {m' : Monitor ι Cond} (signal : Signal c m m') {i : ι}
    (asleep : m'.asleep i = some d) : m.asleep i = some d := by
  cases signal with
  | heard j _ => exact (wake_asleep asleep).2
  | lost _ => exact asleep

/-- With one thread that ever waits for a condition, none sleeps on it after a signal. -/
theorem Signal.none_asleep {c : Cond} {m' : Monitor ι Cond} (signal : Signal c m m') {i : ι}
    (only : ∀ j, m.asleep j = some c → j = i) : m'.asleep i ≠ some c := by
  cases signal with
  | heard j found =>
      obtain rfl := only j found
      simp [wake]
  | lost nobody => exact nobody i

end

end Monitor

/-! Who has the mutex, and who sleeps. -/

/-- What one thread can do to the monitor, given where it stands. -/
inductive Call [DecidableEq ι] (i : ι) :
    Monitor ι Cond → Standing Cond → Monitor ι Cond → Standing Cond → Prop
  | stay {m m' : Monitor ι Cond} {standing : Standing Cond} : m'.owner = m.owner →
      (∀ j c, m'.asleep j = some c → m.asleep j = some c) → Call i m standing m' standing
  | lock {m : Monitor ι Cond} : m.owner = none → Call i m .outside (m.lock i) .inside
  | relock {m : Monitor ι Cond} {c : Cond} : m.owner = none → m.asleep i = none →
      Call i m (.waiting c) (m.lock i) .inside
  | unlock {m : Monitor ι Cond} : Call i m .inside m.unlock .outside
  | wait {m : Monitor ι Cond} (c : Cond) : Call i m .inside (m.wait i c) (.waiting c)

structure Consistent (m : Monitor ι Cond) (standing : ι → Standing Cond) : Prop where
  owner : ∀ i, m.owner = some i ↔ standing i = .inside
  asleep : ∀ i c, m.asleep i = some c → standing i = .waiting c

namespace Consistent

variable {m : Monitor ι Cond} {standing : ι → Standing Cond}

theorem start : Consistent (Monitor.free : Monitor ι Cond) fun _ => .outside :=
  ⟨fun _ => ⟨nofun, nofun⟩, fun _ _ => nofun⟩

theorem exclusive (consistent : Consistent m standing) {i j : ι} (inside : standing i = .inside)
    (inside' : standing j = .inside) : i = j := by
  have first := (consistent.owner i).mpr inside
  rw [(consistent.owner j).mpr inside'] at first
  exact (Option.some.inj first).symm

theorem awake (consistent : Consistent m standing) {i : ι}
    (elsewhere : ∀ c, standing i ≠ .waiting c) : m.asleep i = none := by
  cases found : m.asleep i with
  | none => rfl
  | some c => exact (elsewhere c (consistent.asleep i c found)).elim

theorem not_inside (consistent : Consistent m standing) (free : m.owner = none) (i : ι) :
    standing i ≠ .inside := by
  rw [Ne, ← consistent.owner, free]
  exact nofun

variable [DecidableEq ι]

theorem lock (consistent : Consistent m standing) (free : m.owner = none) {i : ι}
    (awake : m.asleep i = none) :
    Consistent (m.lock i) (Function.update standing i .inside) where
  owner := by
    intro j
    by_cases same : j = i
    · simp [same]
    · have other := consistent.not_inside free j
      simp [same, other, Ne.symm same]
  asleep := by
    intro j c asleep
    have other : j ≠ i := by
      rintro rfl
      rw [Monitor.lock_asleep, awake] at asleep
      cases asleep
    rw [Function.update_of_ne other]
    exact consistent.asleep j c asleep

theorem leave_owner (consistent : Consistent m standing) {i : ι} (inside : standing i = .inside)
    {elsewhere : Standing Cond} (left : elsewhere ≠ .inside) (j : ι) :
    none = some j ↔ Function.update standing i elsewhere j = .inside := by
  by_cases same : j = i
  · simp [same, left]
  · have other : standing j ≠ .inside := fun there => same (consistent.exclusive there inside)
    simp [same, other]

theorem unlock (consistent : Consistent m standing) {i : ι} (inside : standing i = .inside) :
    Consistent m.unlock (Function.update standing i .outside) where
  owner := consistent.leave_owner inside nofun
  asleep := by
    intro j c asleep
    have there := consistent.asleep j c asleep
    have other : j ≠ i := by
      rintro rfl
      rw [inside] at there
      cases there
    rw [Function.update_of_ne other, there]

theorem wait (consistent : Consistent m standing) {i : ι} (inside : standing i = .inside)
    (c : Cond) : Consistent (m.wait i c) (Function.update standing i (.waiting c)) where
  owner := consistent.leave_owner inside nofun
  asleep := by
    intro j d asleep
    rcases Monitor.wait_asleep asleep with ⟨rfl, rfl⟩ | ⟨other, before⟩
    · rw [Function.update_self]
    · rw [Function.update_of_ne other]
      exact consistent.asleep j d before

theorem call (consistent : Consistent m standing) {i : ι} {m' : Monitor ι Cond}
    {after : Standing Cond} (call : Call i m (standing i) m' after) :
    Consistent m' (Function.update standing i after) := by
  generalize here : standing i = before at call
  cases call with
  | stay owner asleep =>
      rw [← here, Function.update_eq_self]
      refine ⟨?_, fun j c found => consistent.asleep j c (asleep j c found)⟩
      intro j
      rw [owner, consistent.owner]
  | lock free =>
      refine consistent.lock free (consistent.awake ?_)
      rw [here]
      exact nofun
  | relock free awake => exact consistent.lock free awake
  | unlock => exact consistent.unlock here
  | wait c => exact consistent.wait here c

end Consistent

/-- Programs that use the monitor in these ways keep it consistent. -/
theorem Consistent.step {Shared Local : Type} [DecidableEq ι] {act : Action ι Shared Local}
    (monitor : Shared → Monitor ι Cond) (standing : ι → Local → Standing Cond)
    (calls : ∀ i g l g' l', act i g l g' l' →
      Call i (monitor g) (standing i l) (monitor g') (standing i l'))
    {s t : State ι Shared Local} (move : Step act s t)
    (consistent : Consistent (monitor s.shared) fun i => standing i (s.locals i)) :
    Consistent (monitor t.shared) fun i => standing i (t.locals i) := by
  cases move with
  | turn i acted =>
      rename_i g' l'
      have called := consistent.call (calls i _ _ _ _ acted)
      have same : (fun j => standing j (Function.update s.locals i l' j)) =
          Function.update (fun j => standing j (s.locals j)) i (standing i l') := by
        funext j
        by_cases own : j = i
        · subst own
          simp only [Function.update_self]
        · simp only [Function.update_of_ne own]
      simpa only [same] using called

end Monitors
