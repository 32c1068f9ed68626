import Mathlib.Data.Finset.Prod
import Mathlib.Data.List.Perm.Basic
import Mathlib.Logic.Equiv.Basic
import Mathlib.Order.Lattice
import Mathlib.Tactic.Common

/-!
Sorting by exchanges of neighbours. An array is a function of the index, of which the first cells
count. An exchange keeps the contents and leaves fewer inversions; a sweep is a list of places at
which neighbours are compared and exchanged, one after the other.
-/

namespace Exchange

variable {α : Type} {n : Nat} {x : Nat → α}

def cells (n : Nat) (x : Nat → α) : List α := (List.range n).map x

theorem cells_swap_perm (x : Nat → α) {i j : Nat} (iBound : i < n) (jBound : j < n) :
    (cells n (x ∘ Equiv.swap i j)).Perm (cells n x) := by
  have inside (k : Nat) : Equiv.swap i j k < n ↔ k < n := by
    rw [Equiv.swap_apply_def]
    split_ifs <;> omega
  have indices : ((List.range n).map (Equiv.swap i j)).Perm (List.range n) := by
    rw [List.perm_ext_iff_of_nodup (List.nodup_range.map (Equiv.injective _)) List.nodup_range]
    intro k
    rw [List.mem_map, List.mem_range]
    constructor
    · rintro ⟨source, member, rfl⟩
      exact (inside source).mpr (List.mem_range.mp member)
    · intro bound
      exact ⟨Equiv.swap i j k, List.mem_range.mpr ((inside k).mpr bound), Equiv.swap_apply_self i j k⟩
  rw [cells, ← List.map_map]
  exact indices.map x

variable [LinearOrder α]

structure Sorts (n : Nat) (x y : Nat → α) : Prop where
  sorted : (cells n y).Pairwise (· ≤ ·)
  perm : (cells n y).Perm (cells n x)

def Ascending (n : Nat) (x : Nat → α) : Prop := ∀ i, i + 1 < n → x i ≤ x (i + 1)

theorem Ascending.le (ascending : Ascending n x) {i j : Nat} (order : i ≤ j) (bound : j < n) :
    x i ≤ x j := by
  induction j, order using Nat.le_induction with
  | base => exact le_refl _
  | succ j _ ih => exact (ih (by omega)).trans (ascending j bound)

theorem ascending_iff : Ascending n x ↔ (cells n x).Pairwise (· ≤ ·) := by
  rw [cells, List.pairwise_map]
  constructor
  · intro ascending
    refine List.pairwise_lt_range.imp_of_mem ?_
    intro i j _ inside below
    exact ascending.le (Nat.le_of_lt below) (List.mem_range.mp inside)
  · intro sorted i bound
    have ordered := List.pairwise_iff_getElem.mp sorted i (i + 1) (by simp; omega) (by simpa) (by omega)
    simpa using ordered

def compareExchange (x : Nat → α) (i : Nat) : Nat → α :=
  if x (i + 1) < x i then x ∘ Equiv.swap i (i + 1) else x

theorem compareExchange_left (x : Nat → α) (i : Nat) :
    compareExchange x i i = min (x i) (x (i + 1)) := by
  rw [compareExchange]
  split
  · rename_i below
    simp [min_eq_right (le_of_lt below)]
  · rename_i above
    rw [min_eq_left (not_lt.mp above)]

theorem compareExchange_right (x : Nat → α) (i : Nat) :
    compareExchange x i (i + 1) = max (x i) (x (i + 1)) := by
  rw [compareExchange]
  split
  · rename_i below
    simp [max_eq_left (le_of_lt below)]
  · rename_i above
    rw [max_eq_right (not_lt.mp above)]

theorem compareExchange_other (x : Nat → α) {i j : Nat} (left : j ≠ i) (right : j ≠ i + 1) :
    compareExchange x i j = x j := by
  rw [compareExchange]
  split
  · simp [Equiv.swap_apply_of_ne_of_ne left right]
  · rfl

theorem compareExchange_perm (x : Nat → α) {i : Nat} (bound : i + 1 < n) :
    (cells n (compareExchange x i)).Perm (cells n x) := by
  rw [compareExchange]
  split
  · exact cells_swap_perm x (by omega) bound
  · exact List.Perm.refl _

def inverted (n : Nat) (x : Nat → α) : Finset (Nat × Nat) :=
  (Finset.range n ×ˢ Finset.range n).filter fun p => p.1 < p.2 ∧ x p.2 < x p.1

def inversions (n : Nat) (x : Nat → α) : Nat := (inverted n x).card

theorem mem_inverted {p : Nat × Nat} :
    p ∈ inverted n x ↔ p.1 < p.2 ∧ p.2 < n ∧ x p.2 < x p.1 := by
  simp only [inverted, Finset.mem_filter, Finset.mem_product, Finset.mem_range]
  constructor
  · rintro ⟨⟨_, bound⟩, order, below⟩
    exact ⟨order, bound, below⟩
  · rintro ⟨order, bound, below⟩
    exact ⟨⟨by omega, bound⟩, order, below⟩

/-- The exchange moves every other inversion along and removes the one it acts on. -/
theorem inversions_swap_lt {i : Nat} (bound : i + 1 < n) (below : x (i + 1) < x i) :
    inversions n (x ∘ Equiv.swap i (i + 1)) < inversions n x := by
  let moved : Nat × Nat → Nat × Nat := Prod.map (Equiv.swap i (i + 1)) (Equiv.swap i (i + 1))
  have injective : Function.Injective moved :=
    Prod.map_injective.mpr ⟨Equiv.injective _, Equiv.injective _⟩
  rw [inversions, inversions, ← Finset.card_image_of_injective _ injective]
  apply Finset.card_lt_card
  rw [Finset.ssubset_iff_of_subset]
  · refine ⟨(i, i + 1), mem_inverted.mpr ⟨by simp, bound, below⟩, ?_⟩
    intro member
    obtain ⟨⟨j, k⟩, found, same⟩ := Finset.mem_image.mp member
    obtain ⟨order, _, _⟩ := mem_inverted.mp found
    simp only [moved, Prod.map_apply, Prod.mk.injEq] at same order
    have first : j = i + 1 := by simpa using congrArg (Equiv.swap i (i + 1)) same.1
    have second : k = i := by simpa using congrArg (Equiv.swap i (i + 1)) same.2
    omega
  · intro pair member
    obtain ⟨⟨j, k⟩, found, rfl⟩ := Finset.mem_image.mp member
    obtain ⟨order, inside, inverse⟩ := mem_inverted.mp found
    simp only [Function.comp_apply] at order inside inverse
    refine mem_inverted.mpr ⟨?_, ?_, inverse⟩
    · -- Only the pair itself changes its order, and it was no inversion after the exchange.
      by_cases exchanged : j = i ∧ k = i + 1
      · obtain ⟨rfl, rfl⟩ := exchanged
        rw [Equiv.swap_apply_left, Equiv.swap_apply_right] at inverse
        exact absurd inverse (not_lt.mpr (le_of_lt below))
      · simp only [moved, Prod.map_apply, Equiv.swap_apply_def]
        split_ifs <;> omega
    · simp only [moved, Prod.map_apply, Equiv.swap_apply_def]
      split_ifs <;> omega

/-! Sweeps. -/

def sweep (x : Nat → α) (places : List Nat) : Nat → α := places.foldl compareExchange x

def exchanges (x : Nat → α) : List Nat → Nat
  | [] => 0
  | i :: rest => (if x (i + 1) < x i then 1 else 0) + exchanges (compareExchange x i) rest

theorem sweep_perm (x : Nat → α) {places : List Nat} (inside : ∀ i ∈ places, i + 1 < n) :
    (cells n (sweep x places)).Perm (cells n x) := by
  induction places generalizing x with
  | nil => exact List.Perm.refl _
  | cons i rest ih =>
      exact (ih _ fun j later => inside j (List.mem_cons_of_mem i later)).trans
        (compareExchange_perm x (inside i List.mem_cons_self))

theorem sweep_inversions (x : Nat → α) {places : List Nat} (inside : ∀ i ∈ places, i + 1 < n) :
    inversions n (sweep x places) + exchanges x places ≤ inversions n x := by
  induction places generalizing x with
  | nil => simp [sweep, exchanges]
  | cons i rest ih =>
      have tail := ih (compareExchange x i) fun j later => inside j (List.mem_cons_of_mem i later)
      have bound := inside i List.mem_cons_self
      simp only [sweep, List.foldl_cons, exchanges] at tail ⊢
      by_cases below : x (i + 1) < x i
      · have fewer := inversions_swap_lt bound below
        rw [compareExchange, if_pos below] at tail ⊢
        rw [if_pos below]
        omega
      · rw [compareExchange, if_neg below] at tail ⊢
        rw [if_neg below]
        omega

theorem exchanges_eq_zero_iff (x : Nat → α) (places : List Nat) :
    exchanges x places = 0 ↔ ∀ i ∈ places, x i ≤ x (i + 1) := by
  induction places with
  | nil => simp [exchanges]
  | cons i rest ih =>
      rw [exchanges, List.forall_mem_cons]
      by_cases below : x (i + 1) < x i
      · simp [below]
      · rw [if_neg below, compareExchange, if_neg below, Nat.zero_add, ih]
        simp [not_lt.mp below]

theorem sweep_of_no_exchange {places : List Nat} (none : exchanges x places = 0) :
    sweep x places = x := by
  induction places with
  | nil => rfl
  | cons i rest ih =>
      have ordered := (exchanges_eq_zero_iff x (i :: rest)).mp none
      rw [sweep, List.foldl_cons, compareExchange, if_neg (not_lt.mpr (ordered i List.mem_cons_self))]
      exact ih ((exchanges_eq_zero_iff x rest).mpr fun j later =>
        ordered j (List.mem_cons_of_mem i later))

def Apart (places : List Nat) : Prop := places.Pairwise fun i j => i + 1 < j ∨ j + 1 < i

theorem sweep_other (x : Nat → α) {places : List Nat} {j : Nat}
    (free : ∀ i ∈ places, j ≠ i ∧ j ≠ i + 1) : sweep x places j = x j := by
  induction places generalizing x with
  | nil => rfl
  | cons i rest ih =>
      obtain ⟨left, right⟩ := free i List.mem_cons_self
      rw [sweep, List.foldl_cons]
      exact (ih (compareExchange x i) fun k later => free k (List.mem_cons_of_mem i later)).trans
        (compareExchange_other x left right)

theorem sweep_apart (x : Nat → α) {places : List Nat} (apart : Apart places) {i : Nat}
    (member : i ∈ places) :
    sweep x places i = min (x i) (x (i + 1)) ∧ sweep x places (i + 1) = max (x i) (x (i + 1)) := by
  induction places generalizing x with
  | nil => simp at member
  | cons k rest ih =>
      obtain ⟨gaps, later⟩ := List.pairwise_cons.mp apart
      rw [sweep, List.foldl_cons]
      change sweep (compareExchange x k) rest i = _ ∧ sweep (compareExchange x k) rest (i + 1) = _
      rcases List.mem_cons.mp member with rfl | inRest
      · constructor
        · rw [sweep_other _ fun j belongs => by have gap := gaps j belongs; omega]
          exact compareExchange_left x i
        · rw [sweep_other _ fun j belongs => by have gap := gaps j belongs; omega]
          exact compareExchange_right x i
      · have gap := gaps i inRest
        rw [(ih _ later inRest).1, (ih _ later inRest).2,
          compareExchange_other x (by omega) (by omega), compareExchange_other x (by omega) (by omega)]
        exact ⟨rfl, rfl⟩

def descents (x : Nat → α) (places : List Nat) : Nat := places.countP fun i => x (i + 1) < x i

theorem exchanges_apart (x : Nat → α) {places : List Nat} (apart : Apart places) :
    exchanges x places = descents x places := by
  induction places generalizing x with
  | nil => rfl
  | cons i rest ih =>
      obtain ⟨gaps, later⟩ := List.pairwise_cons.mp apart
      have same : descents (compareExchange x i) rest = descents x rest := by
        apply List.countP_congr
        intro j member
        have gap := gaps j member
        rw [compareExchange_other x (by omega) (by omega),
          compareExchange_other x (by omega) (by omega)]
      rw [exchanges, ih _ later, same, descents, descents, List.countP_cons, Nat.add_comm]
      simp

/-! A sweep from the first place on carries a greatest cell along. -/

theorem sweep_range_le (x : Nat → α) (m : Nat) :
    ∀ j ≤ m, sweep x (List.range m) j ≤ sweep x (List.range m) m := by
  induction m with
  | zero =>
      intro j bound
      rw [Nat.le_zero.mp bound]
  | succ m ih =>
      intro j bound
      have grown : sweep x (List.range (m + 1)) = compareExchange (sweep x (List.range m)) m := by
        rw [sweep, List.range_succ, List.foldl_append]
        rfl
      rw [grown, compareExchange_right]
      rcases Nat.lt_or_ge j m with earlier | late
      · rw [compareExchange_other _ (by omega) (by omega)]
        exact (ih j (by omega)).trans (le_max_left _ _)
      · rcases Nat.eq_or_lt_of_le bound with rfl | below
        · rw [compareExchange_right]
        · rw [show j = m by omega, compareExchange_left]
          exact (min_le_left _ _).trans (le_max_left _ _)

end Exchange
