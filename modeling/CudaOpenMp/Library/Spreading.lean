import Mathlib.Data.Set.Basic
import Mathlib.Logic.Relation

/-!
Growth of a set of marked vertices along the edges of a graph. Only the vertices of a given
set, the free ones, can become marked.
-/

namespace Spreading

variable {V : Type} {adj : V → V → Prop} {free marked : Set V}

def grow (adj : V → V → Prop) (free marked : Set V) : Set V :=
  {v | v ∈ marked ∨ v ∈ free ∧ ∃ u ∈ marked, adj u v}

/-- The vertices at most `k` free steps from a marked one. -/
def ball (adj : V → V → Prop) (free marked : Set V) : Nat → Set V
  | 0 => marked
  | k + 1 => grow adj free (ball adj free marked k)

/-- The ends of the paths that start in a marked vertex and go on through free ones. -/
def linked (adj : V → V → Prop) (free marked : Set V) : Set V :=
  {v | ∃ u ∈ marked, Relation.ReflTransGen (fun a b => adj a b ∧ b ∈ free) u v}

theorem subset_grow : marked ⊆ grow adj free marked := fun _ member => Or.inl member

theorem grow_mono {other : Set V} (sub : marked ⊆ other) :
    grow adj free marked ⊆ grow adj free other := by
  rintro v (old | ⟨allowed, u, member, edge⟩)
  · exact Or.inl (sub old)
  · exact Or.inr ⟨allowed, u, sub member, edge⟩

theorem ball_mono {other : Set V} (sub : marked ⊆ other) (k : Nat) :
    ball adj free marked k ⊆ ball adj free other k := by
  induction k with
  | zero => exact sub
  | succ k ih => exact grow_mono ih

theorem ball_add (j k : Nat) :
    ball adj free (ball adj free marked j) k = ball adj free marked (j + k) := by
  induction k with
  | zero => rfl
  | succ k ih =>
      rw [← Nat.add_assoc]
      simp only [ball, ih]

theorem marked_subset_linked : marked ⊆ linked adj free marked :=
  fun v member => ⟨v, member, .refl⟩

theorem linked_step {u v : V} (reached : u ∈ linked adj free marked) (edge : adj u v)
    (allowed : v ∈ free) : v ∈ linked adj free marked := by
  obtain ⟨start, member, path⟩ := reached
  exact ⟨start, member, path.tail ⟨edge, allowed⟩⟩

theorem grow_linked_subset : grow adj free (linked adj free marked) ⊆ linked adj free marked := by
  rintro v (old | ⟨allowed, u, reached, edge⟩)
  · exact old
  · exact linked_step reached edge allowed

theorem mem_linked_iff {v : V} : v ∈ linked adj free marked ↔
    v ∈ marked ∨ v ∈ free ∧ ∃ u ∈ linked adj free marked, adj u v := by
  constructor
  · rintro ⟨u, member, path⟩
    rcases path.cases_tail with same | ⟨last, before, edge, allowed⟩
    · subst same
      exact Or.inl member
    · exact Or.inr ⟨allowed, last, ⟨u, member, before⟩, edge⟩
  · exact fun step => grow_linked_subset (step.imp (fun member => marked_subset_linked member) id)

theorem linked_subset_of_closed {set : Set V} (start : marked ⊆ set)
    (closed : grow adj free set ⊆ set) : linked adj free marked ⊆ set := by
  rintro v ⟨u, member, path⟩
  induction path with
  | refl => exact start member
  | tail _ step ih => exact closed (Or.inr ⟨step.2, _, ih, step.1⟩)

theorem linked_subset_linked {set : Set V} (sub : set ⊆ linked adj free marked) :
    linked adj free set ⊆ linked adj free marked :=
  linked_subset_of_closed sub grow_linked_subset

theorem marked_subset_ball (k : Nat) : marked ⊆ ball adj free marked k := by
  induction k with
  | zero => exact subset_rfl
  | succ k ih => exact ih.trans subset_grow

theorem linked_subset_ball {k : Nat}
    (stops : ball adj free marked (k + 1) ⊆ ball adj free marked k) :
    linked adj free marked ⊆ ball adj free marked k :=
  linked_subset_of_closed (marked_subset_ball k) stops

theorem grow_eq_of_free {other : Set V} (less : other ⊆ free) (rest : free ⊆ other ∪ marked) :
    grow adj other marked = grow adj free marked := by
  apply Set.Subset.antisymm
  · rintro v (old | ⟨allowed, edge⟩)
    · exact Or.inl old
    · exact Or.inr ⟨less allowed, edge⟩
  · rintro v (old | ⟨allowed, edge⟩)
    · exact Or.inl old
    · rcases rest allowed with inner | old
      · exact Or.inr ⟨inner, edge⟩
      · exact Or.inl old

theorem ball_eq_of_free {other : Set V} (less : other ⊆ free) (rest : free ⊆ other ∪ marked)
    (k : Nat) : ball adj other marked k = ball adj free marked k := by
  induction k with
  | zero => rfl
  | succ k ih =>
      rw [ball, ball, ih]
      exact grow_eq_of_free less (rest.trans (Set.union_subset_union_right _ (marked_subset_ball k)))

theorem linked_mono_free {other : Set V} (less : other ⊆ free) :
    linked adj other marked ⊆ linked adj free marked := by
  rintro v ⟨u, member, path⟩
  refine ⟨u, member, ?_⟩
  induction path with
  | refl => exact .refl
  | tail _ step ih => exact ih.tail ⟨step.1, less step.2⟩

/-! One round of growth in an unknown order. -/

structure Pass (adj : V → V → Prop) (free before after : Set V) : Prop where
  grows : grow adj free before ⊆ after
  stays : after ⊆ linked adj free before

theorem Pass.widen {other before after : Set V} (pass : Pass adj other before after)
    (less : other ⊆ free) (rest : free ⊆ other ∪ before) : Pass adj free before after where
  grows := by
    rw [← grow_eq_of_free less rest]
    exact pass.grows
  stays := pass.stays.trans (linked_mono_free less)

/-- What is marked after `k` rounds. -/
structure Between (adj : V → V → Prop) (free marked : Set V) (k : Nat) (set : Set V) : Prop where
  lower : ball adj free marked k ⊆ set
  upper : set ⊆ linked adj free marked

theorem Between.zero : Between adj free marked 0 marked := ⟨subset_rfl, marked_subset_linked⟩

theorem Between.pass {k : Nat} {before after : Set V}
    (between : Between adj free marked k before) (pass : Pass adj free before after) :
    Between adj free marked (k + 1) after where
  lower := (grow_mono between.lower).trans pass.grows
  upper := pass.stays.trans (linked_subset_linked between.upper)

theorem Between.eq_linked {k : Nat} {set : Set V} (between : Between adj free marked k set)
    (short : linked adj free marked ⊆ ball adj free marked k) : set = linked adj free marked :=
  Set.Subset.antisymm between.upper (short.trans between.lower)

end Spreading
