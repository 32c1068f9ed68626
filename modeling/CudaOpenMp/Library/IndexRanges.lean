import Mathlib.Data.List.Basic
import Mathlib.Data.List.Range
import Mathlib.Data.List.TakeWhile
import Mathlib.Order.Monotone.Basic
import Mathlib.Tactic.Common

/-! Half-open index ranges, and the cuts of one range into consecutive pieces. -/

namespace IndexRanges

def indices (first last : Nat) : List Nat := List.range' first (last - first)

@[simp] theorem mem_indices {first last index : Nat} :
    index ∈ indices first last ↔ first ≤ index ∧ index < last := by
  simp only [indices, List.mem_range'_1]
  omega

theorem indices_zero (last : Nat) : indices 0 last = List.range last := by
  simp [indices, List.range_eq_range']

theorem indices_empty {first last : Nat} (none : last ≤ first) : indices first last = [] := by
  simp [indices, Nat.sub_eq_zero_of_le none]

theorem indices_append {first middle last : Nat} (lower : first ≤ middle) (upper : middle ≤ last) :
    indices first middle ++ indices middle last = indices first last := by
  have start : middle = first + (middle - first) := by omega
  have size : last - first = (middle - first) + (last - middle) := by omega
  rw [indices, indices, indices, size, ← List.range'_append_1, ← start]

theorem indices_succ {first last : Nat} (bound : first ≤ last) :
    indices first (last + 1) = indices first last ++ [last] := by
  rw [← indices_append bound (Nat.le_succ last)]
  simp [indices]

/-- Consecutive pieces of a rising sequence of cuts join up to one range. -/
theorem flatMap_cuts (cut : Nat → Nat) (rising : ∀ t, cut t ≤ cut (t + 1)) (pieces : Nat) :
    (List.range pieces).flatMap (fun t => indices (cut t) (cut (t + 1))) =
      indices (cut 0) (cut pieces) := by
  induction pieces with
  | zero => simp [indices]
  | succ pieces ih =>
      have low : cut 0 ≤ cut pieces := monotone_nat_of_le_succ rising (Nat.zero_le pieces)
      rw [List.range_succ, List.flatMap_append, ih]
      simpa using indices_append low (rising pieces)

/-- The cuts of a range into pieces of one size, of which the last takes what is left. -/
def floorCut (count pieces t : Nat) : Nat := if t < pieces then t * (count / pieces) else count

theorem floorCut_rising (count pieces t : Nat) :
    floorCut count pieces t ≤ floorCut count pieces (t + 1) := by
  have whole := Nat.mul_div_le count pieces
  rw [floorCut, floorCut]
  by_cases inside : t < pieces
  · have scaled := Nat.mul_le_mul_right (count / pieces) (Nat.le_of_lt inside)
    rw [if_pos inside]
    split
    · exact Nat.mul_le_mul_right _ (Nat.le_succ t)
    · omega
  · rw [if_neg inside, if_neg (by omega)]

theorem flatMap_floorCut (count : Nat) {pieces : Nat} (positive : 0 < pieces) :
    (List.range pieces).flatMap
      (fun t => indices (floorCut count pieces t) (floorCut count pieces (t + 1))) =
        List.range count := by
  rw [flatMap_cuts (floorCut count pieces) (floorCut_rising count pieces), floorCut, floorCut,
    if_pos positive, if_neg (Nat.lt_irrefl pieces), Nat.zero_mul, indices_zero]

theorem le_mul_ceil_div (count pieces : Nat) (positive : 0 < pieces) :
    count ≤ pieces * ((count + pieces - 1) / pieces) := by
  have split := Nat.div_add_mod (count + pieces - 1) pieces
  have small := Nat.mod_lt (count + pieces - 1) positive
  omega

theorem takeWhile_append_stop {α : Type} (p : α → Bool) (front : List α) {last : α}
    (stop : p last = false) : (front ++ [last]).takeWhile p = front.takeWhile p := by
  induction front with
  | nil => simp [stop]
  | cons first rest ih => simp only [List.cons_append, List.takeWhile_cons, ih]

theorem takeWhile_congr {α : Type} {p q : α → Bool} {l : List α} (same : ∀ x ∈ l, p x = q x) :
    l.takeWhile p = l.takeWhile q := by
  induction l with
  | nil => rfl
  | cons first rest ih =>
      simp only [List.takeWhile_cons, same first (by simp), ih fun x member => same x (by simp [member])]

/-- Chunks of one size, the last one cut short, up to the first that starts past the end. -/
theorem flatMap_chunks_min (count chunk pieces : Nat) :
    ((List.range pieces).takeWhile fun t => t * chunk < count).flatMap
      (fun t => indices (t * chunk) (min (t * chunk + chunk) count)) =
        indices 0 (min (pieces * chunk) count) := by
  induction pieces with
  | zero => simp [indices]
  | succ pieces ih =>
      have next : (pieces + 1) * chunk = pieces * chunk + chunk := Nat.succ_mul pieces chunk
      rw [List.range_succ, next]
      by_cases inside : pieces * chunk < count
      · have whole {n : Nat} (low : n ≤ pieces + 1) :
            ((List.range n).takeWhile fun t => t * chunk < count) = List.range n := by
          apply List.takeWhile_eq_self_iff.mpr
          intro t member
          have below : t ≤ pieces := by
            have := List.mem_range.mp member
            omega
          have scaled := Nat.mul_le_mul_right chunk below
          exact decide_eq_true (by omega)
        rw [whole (Nat.le_succ pieces)] at ih
        rw [← List.range_succ, whole (Nat.le_refl _), List.range_succ, List.flatMap_append, ih,
          Nat.min_eq_left (Nat.le_of_lt inside), List.flatMap_singleton]
        exact indices_append (Nat.zero_le _) (by omega)
      · have stop : decide (pieces * chunk < count) = false := decide_eq_false inside
        rw [takeWhile_append_stop (fun t => decide (t * chunk < count)) _ stop, ih]
        congr 1
        omega

theorem flatMap_chunks {count chunk pieces : Nat} (covers : count ≤ pieces * chunk) :
    ((List.range pieces).takeWhile fun t => t * chunk < count).flatMap
      (fun t => indices (t * chunk) (min (t * chunk + chunk) count)) = List.range count := by
  rw [flatMap_chunks_min, Nat.min_eq_right covers, indices_zero]

end IndexRanges
