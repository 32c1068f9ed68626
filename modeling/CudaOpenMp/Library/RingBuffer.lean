import Mathlib.Data.List.Infix
import Mathlib.Logic.Function.Basic

/-!
A ring of slots that is filled and emptied in order. What was stored and what was taken are
lists of slots with values.
-/

structure RingBuffer {α : Type} (capacity : Nat) (slots : Nat → α) (stored taken : List (Nat × α)) :
    Prop where
  order : taken <+: stored
  room : stored.length ≤ taken.length + capacity
  place : ∀ k slot item, stored[k]? = some (slot, item) → slot = k % capacity
  held : ∀ k slot item, taken.length ≤ k → stored[k]? = some (slot, item) → slots slot = item

namespace RingBuffer

theorem concat_prefix {β : Type} {front whole : List β} {next : β} (starts : front <+: whole)
    (found : whole[front.length]? = some next) : front ++ [next] <+: whole := by
  obtain ⟨rest, rfl⟩ := starts
  cases rest with
  | nil => simp at found
  | cons first rest =>
      rw [List.getElem?_append_right (Nat.le_refl _), Nat.sub_self] at found
      cases found
      exact ⟨rest, by simp⟩

theorem getElem?_concat {β : Type} {list : List β} {last found : β} {k : Nat}
    (there : (list ++ [last])[k]? = some found) :
    list[k]? = some found ∨ k = list.length ∧ found = last := by
  rcases Nat.lt_or_ge k list.length with before | behind
  · rw [List.getElem?_append_left before] at there
    exact Or.inl there
  · obtain ⟨bound, value⟩ := List.getElem?_eq_some_iff.mp there
    rw [List.length_append, List.length_singleton] at bound
    rw [List.getElem_append_right behind, List.getElem_singleton] at value
    exact Or.inr ⟨by omega, value.symm⟩

variable {α : Type} {capacity : Nat} {slots : Nat → α} {stored taken : List (Nat × α)}

theorem slot_ne {capacity j k : Nat} (before : j < k) (near : k < j + capacity) :
    k % capacity ≠ j % capacity := by
  intro same
  have divides := Nat.sub_mod_eq_zero_of_mod_eq same
  rw [Nat.mod_eq_of_lt (by omega)] at divides
  omega

/-- The slot holds an item that was stored and not yet taken. -/
def Unconsumed (stored taken : List (Nat × α)) (slot : Nat) : Prop :=
  ∃ k item, taken.length ≤ k ∧ stored[k]? = some (slot, item)

theorem empty : RingBuffer capacity slots [] [] :=
  ⟨List.prefix_refl _, Nat.zero_le _, by simp, by simp⟩

theorem vacant (ring : RingBuffer capacity slots stored taken)
    (room : stored.length < taken.length + capacity) :
    ¬Unconsumed stored taken (stored.length % capacity) := by
  rintro ⟨k, item, low, found⟩
  obtain ⟨bound, _⟩ := List.getElem?_eq_some_iff.mp found
  exact slot_ne bound (by omega) (ring.place k _ item found)

theorem vacated (ring : RingBuffer capacity slots stored taken) {turn : Nat} (gone : turn < taken.length)
    (room : stored.length ≤ turn + capacity) :
    ¬Unconsumed stored taken (turn % capacity) := by
  rintro ⟨k, item, low, found⟩
  obtain ⟨bound, _⟩ := List.getElem?_eq_some_iff.mp found
  have later : turn < k := by omega
  exact slot_ne later (by omega) (ring.place k _ item found).symm

theorem exists_item (ring : RingBuffer capacity slots stored taken) {turn : Nat}
    (low : taken.length ≤ turn) (bound : turn < stored.length) :
    stored[turn]? = some (turn % capacity, slots (turn % capacity)) := by
  have found : stored[turn]? = some stored[turn] := List.getElem?_eq_getElem bound
  have place := ring.place turn _ _ found
  have held := ring.held turn _ _ low found
  have same : stored[turn] = (turn % capacity, slots (turn % capacity)) := by
    rw [← place]
    exact Prod.ext rfl held.symm
  rw [found, same]

theorem unconsumed (ring : RingBuffer capacity slots stored taken) {turn : Nat}
    (low : taken.length ≤ turn) (bound : turn < stored.length) :
    Unconsumed stored taken (turn % capacity) :=
  ⟨turn, _, low, ring.exists_item low bound⟩

theorem overwrite (ring : RingBuffer capacity slots stored taken) {slot : Nat} (value : α)
    (free : ¬Unconsumed stored taken slot) :
    RingBuffer capacity (Function.update slots slot value) stored taken where
  order := ring.order
  room := ring.room
  place := ring.place
  held := by
    intro k place item low found
    have apart : place ≠ slot := by
      rintro rfl
      exact free ⟨k, item, low, found⟩
    rw [Function.update_of_ne apart]
    exact ring.held k place item low found

theorem store (ring : RingBuffer capacity slots stored taken)
    (room : stored.length < taken.length + capacity) (item : α) :
    RingBuffer capacity (Function.update slots (stored.length % capacity) item)
      (stored ++ [(stored.length % capacity, item)]) taken where
  order := ring.order.trans (List.prefix_append _ _)
  room := by
    rw [List.length_append, List.length_singleton]
    omega
  place := by
    intro k slot value found
    rcases getElem?_concat found with before | ⟨last, same⟩
    · exact ring.place k slot value before
    · cases same
      rw [last]
  held := by
    intro k slot value low found
    rcases getElem?_concat found with before | ⟨last, same⟩
    · exact (ring.overwrite item (ring.vacant room)).held k slot value low before
    · cases same
      exact Function.update_self ..

theorem take (ring : RingBuffer capacity slots stored taken) (item : taken.length < stored.length) :
    RingBuffer capacity slots stored
      (taken ++ [(taken.length % capacity, slots (taken.length % capacity))]) where
  order := concat_prefix ring.order (ring.exists_item (Nat.le_refl _) item)
  room := by
    have room := ring.room
    rw [List.length_append, List.length_singleton]
    omega
  place := ring.place
  held := by
    intro k slot value low found
    rw [List.length_append, List.length_singleton] at low
    exact ring.held k slot value (by omega) found

end RingBuffer
