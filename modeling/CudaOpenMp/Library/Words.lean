import Mathlib.Data.List.Induction
import Mathlib.Tactic.Common

/-!
The words of a text that is read from the left: those that a separator has ended, and the one that
is still being read.
-/

namespace Words

variable {α : Type} (sep : α → Bool)

def closed (text : List α) : List (List α) :=
  (text.splitOnP sep).dropLast.filter fun piece => !piece.isEmpty

def current (text : List α) : List α := (text.splitOnP sep).getLast?.getD []

def words (text : List α) : List (List α) :=
  (text.splitOnP sep).filter fun piece => !piece.isEmpty

variable {sep}

theorem splitOnP_concat_sep {c : α} (ends : sep c = true) (text : List α) :
    (text ++ [c]).splitOnP sep = text.splitOnP sep ++ [[]] := by
  rw [List.splitOnP_append_cons text [] ends, List.splitOnP_nil]

theorem splitOnP_concat {c : α} (inside : sep c = false) (text : List α) :
    (text ++ [c]).splitOnP sep =
      (text.splitOnP sep).dropLast ++ [current sep text ++ [c]] := by
  induction text with
  | nil => simp [List.splitOnP_cons_eq_if_modifyHead, inside, current]
  | cons first rest ih =>
      rw [List.cons_append, List.splitOnP_cons_eq_if_modifyHead, ih]
      have pieces := List.splitOnP_ne_nil sep rest
      simp only [current] at ih ⊢
      rw [List.splitOnP_cons_eq_if_modifyHead]
      cases split : rest.splitOnP sep with
      | nil => exact (pieces split).elim
      | cons piece more => cases ends : sep first <;> cases more <;> simp

theorem splitOnP_eq (text : List α) :
    text.splitOnP sep = (text.splitOnP sep).dropLast ++ [current sep text] := by
  have pieces := List.splitOnP_ne_nil sep text
  rw [current, List.getLast?_eq_some_getLast pieces]
  exact (List.dropLast_concat_getLast pieces).symm

theorem words_eq (text : List α) :
    words sep text =
      closed sep text ++ if current sep text = [] then [] else [current sep text] := by
  rw [words, splitOnP_eq, List.filter_append, closed]
  congr 1
  cases current sep text <;> simp

@[simp]
theorem closed_nil : closed sep [] = [] := rfl

@[simp]
theorem current_nil : current sep [] = [] := rfl

theorem closed_concat_sep {c : α} (ends : sep c = true) (text : List α) :
    closed sep (text ++ [c]) =
      closed sep text ++ if current sep text = [] then [] else [current sep text] := by
  rw [closed, splitOnP_concat_sep ends, List.dropLast_concat, ← words_eq, words]

theorem current_concat_sep {c : α} (ends : sep c = true) (text : List α) :
    current sep (text ++ [c]) = [] := by
  rw [current, splitOnP_concat_sep ends, List.getLast?_concat]
  rfl

theorem closed_concat {c : α} (inside : sep c = false) (text : List α) :
    closed sep (text ++ [c]) = closed sep text := by
  rw [closed, splitOnP_concat inside, List.dropLast_concat, closed]

theorem current_concat {c : α} (inside : sep c = false) (text : List α) :
    current sep (text ++ [c]) = current sep text ++ [c] := by
  rw [current, splitOnP_concat inside, List.getLast?_concat]
  rfl

theorem length_le (text : List α) :
    (closed sep text).length + (current sep text).length ≤ text.length := by
  induction text using List.reverseRecOn with
  | nil => simp
  | append_singleton text c ih =>
      rw [List.length_append, List.length_singleton]
      cases ends : sep c with
      | false =>
          rw [closed_concat ends, current_concat ends, List.length_append, List.length_singleton]
          omega
      | true =>
          rw [closed_concat_sep ends, current_concat_sep ends, List.length_append, List.length_nil]
          split
          · rw [List.length_nil]
            omega
          · next some =>
              have filled := List.length_pos_iff.mpr some
              rw [List.length_singleton]
              omega

theorem current_suffix (text : List α) : current sep text <:+ text := by
  induction text using List.reverseRecOn with
  | nil => exact List.nil_suffix
  | append_singleton text c ih =>
      cases ends : sep c with
      | false =>
          rw [current_concat ends]
          obtain ⟨before, split⟩ := ih
          exact ⟨before, by rw [← List.append_assoc, split]⟩
      | true =>
          rw [current_concat_sep ends]
          exact List.nil_suffix

theorem closed_word {word : List α} {c : α} {rest : List α} (inside : ∀ x ∈ word, sep x = false)
    (filled : word ≠ []) (ends : sep c = true) :
    closed sep (word ++ c :: rest) = word :: closed sep rest := by
  have more := List.splitOnP_ne_nil sep rest
  rw [closed, List.splitOnP_append_cons_of_forall_mem inside c ends, List.dropLast_cons_of_ne_nil more,
    List.filter_cons_of_pos (by simpa using filled), closed]

end Words
