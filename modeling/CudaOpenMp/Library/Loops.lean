import Mathlib.Data.List.Basic
import Mathlib.Tactic.Common

/-! Loops over a list whose body may fail, with an invariant that counts the rounds, and `while` loops. -/

namespace Loops

variable {α β : Type}

/-- A body that succeeds under the invariant and keeps it makes the whole loop succeed. -/
theorem exists_foldlM {f : β → α → Option β} (inv : Nat → β → Prop) {list : List α} {count : Nat}
    {start : β} (first : inv count start)
    (step : ∀ k s x, x ∈ list → k < count + list.length → inv k s →
      ∃ t, f s x = some t ∧ inv (k + 1) t) :
    ∃ last, list.foldlM f start = some last ∧ inv (count + list.length) last := by
  induction list generalizing count start with
  | nil => exact ⟨start, rfl, first⟩
  | cons x rest ih =>
      obtain ⟨next, ran, kept⟩ := step count start x List.mem_cons_self (by simp) first
      obtain ⟨last, walked, final⟩ := ih kept fun k s y later bound =>
        step k s y (List.mem_cons_of_mem x later) (by simp only [List.length_cons]; omega)
      refine ⟨last, ?_, ?_⟩
      · rw [List.foldlM_cons, ran, Option.bind_eq_bind, Option.bind_some, walked]
      · rw [List.length_cons, Nat.add_comm rest.length, ← Nat.add_assoc]
        exact final

theorem exists_mapM (valid : β → Prop) (f : α → Option β) {list : List α}
    (defined : ∀ a ∈ list, ∃ b, f a = some b ∧ valid b) :
    ∃ out, list.mapM f = some out ∧ (∀ b ∈ out, valid b) ∧ out.length = list.length := by
  induction list with
  | nil => exact ⟨[], rfl, by simp, rfl⟩
  | cons a rest ih =>
      obtain ⟨b, found, good⟩ := defined a List.mem_cons_self
      obtain ⟨out, mapped, all, size⟩ := ih fun x member => defined x (List.mem_cons_of_mem a member)
      refine ⟨b :: out, by simp [List.mapM_cons, found, mapped], ?_, by simp [size]⟩
      intro x member
      rcases List.mem_cons.mp member with rfl | later
      · exact good
      · exact all x later

theorem mapM_some {f : α → Option β} {value : α → β} {list : List α}
    (each : ∀ a ∈ list, f a = some (value a)) : list.mapM f = some (list.map value) := by
  induction list with
  | nil => rfl
  | cons a rest ih =>
      rw [List.mapM_cons, each a List.mem_cons_self, Option.bind_eq_bind, Option.bind_some,
        ih fun b later => each b (List.mem_cons_of_mem a later)]
      rfl

theorem foldlM_some {f : β → α → Option β} {value : β → α → β} {list : List α} (start : β)
    (each : ∀ s, ∀ a ∈ list, f s a = some (value s a)) :
    list.foldlM f start = some (list.foldl value start) := by
  induction list generalizing start with
  | nil => rfl
  | cons a rest ih =>
      rw [List.foldlM_cons, each start a List.mem_cons_self, Option.bind_eq_bind, Option.bind_some,
        ih _ fun s b later => each s b (List.mem_cons_of_mem a later), List.foldl_cons]

theorem mapM_none {f : α → Option β} {list : List α} {a : α} (member : a ∈ list)
    (fails : f a = none) : list.mapM f = none := by
  induction list with
  | nil => cases member
  | cons first rest ih =>
      rw [List.mapM_cons]
      rcases List.mem_cons.mp member with rfl | later
      · rw [fails]
        rfl
      · rw [ih later]
        cases f first <;> rfl

theorem foldlM_none {f : β → α → Option β} {list : List α} {a : α} (member : a ∈ list)
    (fails : ∀ s, f s a = none) (start : β) : list.foldlM f start = none := by
  induction list generalizing start with
  | nil => cases member
  | cons first rest ih =>
      rw [List.foldlM_cons]
      rcases List.mem_cons.mp member with rfl | later
      · rw [fails]
        rfl
      · cases f start first with
        | none => rfl
        | some next => exact ih later next

/-- A loop that appends one value in each round yields the values in order. -/
theorem foldlM_append {f : List β → α → Option (List β)} {value : α → β} {list : List α}
    {start : List β} {limit : Nat} (room : start.length + list.length ≤ limit)
    (step : ∀ s x, x ∈ list → s.length < limit → f s x = some (s ++ [value x])) :
    list.foldlM f start = some (start ++ list.map value) := by
  induction list generalizing start with
  | nil => simp
  | cons x rest ih =>
      rw [List.length_cons] at room
      rw [List.foldlM_cons, step start x List.mem_cons_self (by omega), Option.bind_eq_bind,
        Option.bind_some, ih (by simp; omega) fun s y later => step s y (List.mem_cons_of_mem x later)]
      simp

/-! A `while` loop, for a given number of rounds. -/

def whileLoop (test : β → Bool) (body : β → β) : Nat → β → Option β
  | 0, s => if test s then none else some s
  | rounds + 1, s => if test s then whileLoop test body rounds (body s) else some s

variable {test : β → Bool} {body : β → β}

/-- A rank that every round lowers bounds the number of rounds. -/
theorem exists_whileLoop (inv : β → Prop) (rank : β → Nat)
    (step : ∀ s, inv s → test s = true → inv (body s) ∧ rank (body s) < rank s) {start : β}
    (first : inv start) :
    ∃ rounds last, whileLoop test body rounds start = some last ∧ inv last ∧ test last = false := by
  induction size : rank start using Nat.strongRecOn generalizing start with
  | ind size ih =>
      cases again : test start with
      | false => exact ⟨0, start, by rw [whileLoop, again]; rfl, first, again⟩
      | true =>
          obtain ⟨kept, lower⟩ := step start first again
          obtain ⟨rounds, last, ran, held, ended⟩ := ih _ (size ▸ lower) kept rfl
          exact ⟨rounds + 1, last, by rw [whileLoop, again, if_pos rfl, ran], held, ended⟩

theorem whileLoop_step {rounds : Nat} {start last : β} (again : test start = true)
    (ran : whileLoop test body rounds start = some last) :
    ∃ fewer, whileLoop test body fewer (body start) = some last := by
  cases rounds with
  | zero => simp [whileLoop, again] at ran
  | succ rounds => exact ⟨rounds, by rwa [whileLoop, again, if_pos rfl] at ran⟩

theorem whileLoop_done {rounds : Nat} {start last : β} (ended : test start = false)
    (ran : whileLoop test body rounds start = some last) : last = start := by
  cases rounds <;> simpa [whileLoop, ended, eq_comm] using ran

theorem whileLoop_keeps (inv : β → Prop) (keeps : ∀ s, inv s → inv (body s)) {rounds : Nat}
    {start last : β} (first : inv start) (ran : whileLoop test body rounds start = some last) :
    inv last := by
  induction rounds generalizing start with
  | zero =>
      rw [whileLoop] at ran
      split at ran
      · simp at ran
      · rwa [← Option.some.inj ran]
  | succ rounds ih =>
      rw [whileLoop] at ran
      split at ran
      · exact ih (keeps start first) ran
      · rwa [← Option.some.inj ran]

end Loops
