import Mathlib.Data.Multiset.AddSub
import Mathlib.Tactic.Common

/-!
Priority queues: what a sequence of pushes and pops gives back when every pop takes the least
element of a bag, and when an implementation does the same.
-/

namespace PriorityQueue

variable {α σ : Type}

inductive Call (α : Type) where
  | push (x : α)
  | pop

def pushed : List (Call α) → Multiset α
  | [] => 0
  | .push x :: calls => x ::ₘ pushed calls
  | .pop :: calls => pushed calls

/-- Calls, the answers of the pops among them, and the bags before and after. -/
inductive Serves (before : α → α → Prop) :
    Multiset α → List (Call α) → List α → Multiset α → Prop
  | done {bag : Multiset α} : Serves before bag [] [] bag
  | push {bag rest : Multiset α} {x : α} {calls : List (Call α)} {answers : List α} :
      Serves before (x ::ₘ bag) calls answers rest →
      Serves before bag (.push x :: calls) answers rest
  | pop {bag rest : Multiset α} {top : α} {calls : List (Call α)} {answers : List α} :
      (∀ y ∈ bag, before top y) → Serves before bag calls answers rest →
      Serves before (top ::ₘ bag) (.pop :: calls) (top :: answers) rest

/-- What remains is what was pushed and not popped. -/
theorem Serves.balance {before : α → α → Prop} {bag rest : Multiset α} {calls : List (Call α)}
    {answers : List α} (serves : Serves before bag calls answers rest) :
    bag + pushed calls = answers + rest := by
  induction serves with
  | done => simp [pushed]
  | push _ ih => rw [pushed, Multiset.add_cons, ← Multiset.cons_add, ih]
  | pop _ _ ih => rw [pushed, Multiset.cons_add, ih, ← Multiset.cons_coe, Multiset.cons_add]

/-- No pop meets an empty bag, and every element is accepted by the bag that it is pushed to. -/
def Admissible (before : α → α → Prop) (accepts : Multiset α → α → Prop) :
    Multiset α → List (Call α) → Prop
  | _, [] => True
  | bag, .push x :: calls => accepts bag x ∧ Admissible before accepts (x ::ₘ bag) calls
  | bag, .pop :: calls => bag ≠ 0 ∧ ∀ top rest, bag = top ::ₘ rest → (∀ y ∈ rest, before top y) →
      Admissible before accepts rest calls

/-- Calls one after the other, on an implementation whose operations may fail. -/
def run (push : σ → α → Option σ) (pop : σ → Option (α × σ)) :
    List (Call α) → σ → Option (List α × σ)
  | [], s => some ([], s)
  | .push x :: calls, s => do run push pop calls (← push s x)
  | .pop :: calls, s => do
      let (top, s) ← pop s
      let (answers, s) ← run push pop calls s
      return (top :: answers, s)

/-- The operations keep to the bag that a state stands for. -/
structure Refines (before : α → α → Prop) (accepts : Multiset α → α → Prop)
    (push : σ → α → Option σ) (pop : σ → Option (α × σ)) (holds : σ → Multiset α → Prop) :
    Prop where
  push : ∀ s bag x, holds s bag → accepts bag x → ∃ t, push s x = some t ∧ holds t (x ::ₘ bag)
  pop : ∀ s bag, holds s bag → bag ≠ 0 → ∃ top rest t, pop s = some (top, t) ∧
    bag = top ::ₘ rest ∧ (∀ y ∈ rest, before top y) ∧ holds t rest

theorem Refines.run {before : α → α → Prop} {accepts : Multiset α → α → Prop}
    {push : σ → α → Option σ} {pop : σ → Option (α × σ)} {holds : σ → Multiset α → Prop}
    (refines : Refines before accepts push pop holds) {calls : List (Call α)} {s : σ}
    {bag : Multiset α} (start : holds s bag) (admissible : Admissible before accepts bag calls) :
    ∃ answers t rest, PriorityQueue.run push pop calls s = some (answers, t) ∧ holds t rest ∧
      Serves before bag calls answers rest := by
  induction calls generalizing s bag with
  | nil => exact ⟨[], s, bag, rfl, start, .done⟩
  | cons call calls ih =>
      cases call with
      | push x =>
          obtain ⟨accepted, later⟩ := admissible
          obtain ⟨t, pushes, next⟩ := refines.push s bag x start accepted
          obtain ⟨answers, last, rest, ran, held, serves⟩ := ih next later
          refine ⟨answers, last, rest, ?_, held, .push serves⟩
          rw [PriorityQueue.run, pushes, Option.bind_eq_bind, Option.bind_some, ran]
      | pop =>
          obtain ⟨inhabited, later⟩ := admissible
          obtain ⟨top, others, t, pops, rfl, least, next⟩ := refines.pop s bag start inhabited
          obtain ⟨answers, last, rest, ran, held, serves⟩ := ih next (later top others rfl least)
          refine ⟨top :: answers, last, rest, ?_, held, .pop least serves⟩
          simp only [PriorityQueue.run, pops, Option.bind_eq_bind, Option.bind_some, ran,
            Option.pure_def]

end PriorityQueue
