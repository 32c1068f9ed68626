import Mathlib.Data.List.DropRight
import Mathlib.Data.List.Sort
import Mathlib.Order.Basic

/-!
Positions in stable order of their keys. There is only one such order, so sorting by merging and
sorting by shifting in place agree.
-/

namespace StableSort

variable {β : Type} [LinearOrder β] {key : Nat → β}

/-- A smaller key goes first, and of equal keys the earlier position. -/
def Before (key : Nat → β) (a b : Nat) : Prop := key a < key b ∨ key a = key b ∧ a < b

theorem Before.asymm {a b : Nat} (first : Before key a b) : ¬Before key b a := by
  rintro (less | ⟨same, later⟩)
  · rcases first with below | ⟨equal, _⟩
    · exact lt_asymm below less
    · exact less.ne equal.symm
  · rcases first with below | ⟨_, earlier⟩
    · exact below.ne same.symm
    · omega

theorem Before.key_le {a b : Nat} (before : Before key a b) : key a ≤ key b := by
  rcases before with less | ⟨same, _⟩
  · exact less.le
  · exact same.le

theorem eq_of_before {first second : List Nat} (perm : first.Perm second)
    (firstSorted : first.Pairwise (Before key)) (secondSorted : second.Pairwise (Before key)) :
    first = second :=
  perm.eq_of_pairwise (fun _ _ _ _ ab ba => (ab.asymm ba).elim) firstSorted secondSorted

theorem mergeSort_before (key : Nat → β) (n : Nat) :
    ((List.range n).mergeSort fun a b => key a ≤ key b).Pairwise (Before key) := by
  have transitive (a b c : Nat) : decide (key a ≤ key b) → decide (key b ≤ key c) →
      decide (key a ≤ key c) := by
    simpa using fun ab bc => le_trans ab bc
  have total (a b : Nat) : decide (key a ≤ key b) || decide (key b ≤ key a) := by
    simpa using le_total (key a) (key b)
  -- Merging keeps the positions with one key in order.
  have kept (k : β) : ((List.range n).mergeSort fun a b => key a ≤ key b).filter (key · = k) =
      (List.range n).filter (key · = k) := by
    have equal : ((List.range n).filter (key · = k)).Pairwise fun a b => decide (key a ≤ key b) := by
      apply List.Pairwise.imp_of_mem _ (List.pairwise_of_forall fun _ _ => trivial)
      intro a b aListed bListed _
      have aKey := (List.mem_filter.mp aListed).2
      have bKey := (List.mem_filter.mp bListed).2
      rw [decide_eq_true_eq] at aKey bKey ⊢
      rw [aKey, bKey]
    have sub := (List.sublist_mergeSort transitive total equal List.filter_sublist).filter (key · = k)
    simp only [List.filter_filter, Bool.and_self] at sub
    exact (sub.eq_of_length ((List.mergeSort_perm _ _).filter _).length_eq.symm).symm
  have keys := List.pairwise_mergeSort transitive total (List.range n)
  rw [List.pairwise_iff_forall_sublist] at keys ⊢
  intro a b pair
  have le : key a ≤ key b := by simpa using keys pair
  rcases le.lt_or_eq with less | same
  · exact Or.inl less
  · refine Or.inr ⟨same, ?_⟩
    have together := pair.filter (key · = key b)
    rw [kept] at together
    simp only [same, decide_true, List.filter_cons_of_pos, List.filter_nil] at together
    have rising : [a, b].Pairwise (· < ·) :=
      List.Pairwise.sublist (together.trans List.filter_sublist) List.pairwise_lt_range
    simpa using rising

/-! Sorting in place. -/

/-- The elements with larger keys move up by one cell. -/
def insertBehind (key : Nat → β) (front : List Nat) (x : Nat) : List Nat :=
  front.rdropWhile (key x < key ·) ++ x :: front.rtakeWhile (key x < key ·)

theorem insertBehind_perm (key : Nat → β) (front : List Nat) (x : Nat) :
    (insertBehind key front x).Perm (x :: front) := by
  refine List.perm_middle.trans ?_
  rw [List.rdropWhile_append_rtakeWhile]

theorem insertBehind_concat_of_lt (front : List Nat) {a x : Nat} (larger : key x < key a) :
    insertBehind key (front ++ [a]) x = insertBehind key front x ++ [a] := by
  simp [insertBehind, List.rdropWhile_concat_pos, List.rtakeWhile_concat_pos, larger]

theorem insertBehind_concat_of_not_lt (front : List Nat) {a x : Nat} (stay : ¬key x < key a) :
    insertBehind key (front ++ [a]) x = front ++ [a] ++ [x] := by
  simp [insertBehind, List.rdropWhile_concat_neg, List.rtakeWhile_concat_neg, stay]

theorem insertBehind_before {front : List Nat} {x : Nat} (sorted : front.Pairwise (Before key))
    (fresh : ∀ a ∈ front, a < x) : (insertBehind key front x).Pairwise (Before key) := by
  have parts := List.rdropWhile_append_rtakeWhile (p := fun a => decide (key x < key a)) (l := front)
  have sortedParts := sorted
  rw [← parts] at sortedParts
  obtain ⟨lowSorted, highSorted, across⟩ := List.pairwise_append.mp sortedParts
  have high : ∀ b ∈ front.rtakeWhile (key x < key ·), Before key x b := fun b member =>
    Or.inl (by simpa using List.mem_rtakeWhile_imp member)
  have low : ∀ a ∈ front.rdropWhile (key x < key ·), Before key a x := by
    intro a member
    have nonempty : front.rdropWhile (key x < key ·) ≠ [] := List.ne_nil_of_mem member
    have last := List.rdropWhile_last_not _ _ nonempty
    rw [decide_eq_true_eq, not_lt] at last
    have below : key a ≤ key ((front.rdropWhile (key x < key ·)).getLast nonempty) := by
      rw [← List.dropLast_append_getLast nonempty] at member lowSorted
      rcases List.mem_append.mp member with earlier | final
      · exact ((List.pairwise_append.mp lowSorted).2.2 a earlier _ (List.mem_singleton_self _)).key_le
      · rw [List.mem_singleton.mp final]
    rcases (below.trans last).lt_or_eq with less | same
    · exact Or.inl less
    · exact Or.inr ⟨same, fresh a ((List.rdropWhile_prefix _ _).subset member)⟩
  refine List.pairwise_append.mpr ⟨lowSorted, List.pairwise_cons.mpr ⟨high, highSorted⟩, ?_⟩
  intro a aLow b listed
  rcases List.mem_cons.mp listed with rfl | bHigh
  · exact low a aLow
  · exact across a aLow b bHigh

/-- The first positions in order, one inserted after the other. -/
def insertionSort (key : Nat → β) : Nat → List Nat
  | 0 => []
  | n + 1 => insertBehind key (insertionSort key n) n

theorem insertionSort_perm (key : Nat → β) (n : Nat) :
    (insertionSort key n).Perm (List.range n) := by
  induction n with
  | zero => exact List.Perm.refl _
  | succ n ih =>
      rw [List.range_succ]
      exact (insertBehind_perm key _ n).trans
        ((ih.cons n).trans (List.perm_append_singleton _ _).symm)

theorem insertionSort_eq (key : Nat → β) (n : Nat) :
    insertionSort key n = (List.range n).mergeSort fun a b => key a ≤ key b := by
  refine eq_of_before ((insertionSort_perm key n).trans (List.mergeSort_perm _ _).symm) ?_
    (mergeSort_before key n)
  induction n with
  | zero => exact List.Pairwise.nil
  | succ n ih =>
      apply insertBehind_before ih
      intro a member
      exact List.mem_range.mp ((insertionSort_perm key n).subset member)

end StableSort
