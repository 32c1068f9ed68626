import Mathlib.Algebra.Group.Nat.Defs
import Mathlib.Data.List.Basic
import Mathlib.Tactic.Common

/-! Numerals of a fixed width in an arbitrary base, lowest digit first. -/

namespace Radix

def lowDigits (base : Nat) : Nat → Nat → List Nat
  | 0, _ => []
  | width + 1, value => value % base :: lowDigits base width (value / base)

def lowValue (base : Nat) : List Nat → Nat
  | [] => 0
  | digit :: rest => digit + base * lowValue base rest

/-- The odometer: one is added to the lowest digit and the carry runs upwards. -/
def bump (base : Nat) : List Nat → List Nat
  | [] => []
  | digit :: rest => if digit + 1 < base then (digit + 1) :: rest else 0 :: bump base rest

@[simp] theorem lowDigits_length (base width value : Nat) :
    (lowDigits base width value).length = width := by
  induction width generalizing value with
  | zero => rfl
  | succ width ih => simp [lowDigits, ih]

theorem lowDigits_lt {base : Nat} (positive : 0 < base) (width value : Nat) :
    ∀ digit ∈ lowDigits base width value, digit < base := by
  induction width generalizing value with
  | zero => simp [lowDigits]
  | succ width ih =>
      intro digit member
      rcases List.mem_cons.mp member with first | later
      · rw [first]
        exact Nat.mod_lt value positive
      · exact ih (value / base) digit later

theorem lowValue_lowDigits {base : Nat} (width value : Nat) (bound : value < base ^ width) :
    lowValue base (lowDigits base width value) = value := by
  induction width generalizing value with
  | zero =>
      simp only [Nat.pow_zero, Nat.lt_one_iff] at bound
      simp [lowDigits, lowValue, bound]
  | succ width ih =>
      simp only [lowDigits, lowValue]
      rw [ih (value / base) (Nat.div_lt_of_lt_mul (by rwa [Nat.mul_comm, ← Nat.pow_succ]))]
      exact Nat.mod_add_div value base

theorem lowDigits_lowValue {base : Nat} (digits : List Nat) (small : ∀ d ∈ digits, d < base) :
    lowDigits base digits.length (lowValue base digits) = digits := by
  induction digits with
  | nil => rfl
  | cons digit rest ih =>
      have bound : digit < base := small digit (by simp)
      simp only [List.length_cons, lowDigits, lowValue]
      rw [Nat.add_mul_mod_self_left, Nat.mod_eq_of_lt bound,
        Nat.add_mul_div_left digit _ (by omega), Nat.div_eq_of_lt bound, Nat.zero_add,
        ih fun d member => small d (by simp [member])]

theorem lowValue_lt {base : Nat} (digits : List Nat) (small : ∀ d ∈ digits, d < base) :
    lowValue base digits < base ^ digits.length := by
  induction digits with
  | nil => simp [lowValue]
  | cons digit rest ih =>
      have bound : digit < base := small digit (by simp)
      have tail := ih fun d member => small d (by simp [member])
      have step : base * (lowValue base rest + 1) ≤ base * base ^ rest.length :=
        Nat.mul_le_mul_left base tail
      simp only [lowValue, List.length_cons, Nat.pow_succ, Nat.mul_comm _ base]
      rw [Nat.mul_add, Nat.mul_one] at step
      omega

theorem lowDigits_inj {base width first second : Nat} (firstBound : first < base ^ width)
    (secondBound : second < base ^ width)
    (same : lowDigits base width first = lowDigits base width second) : first = second := by
  rw [← lowValue_lowDigits width first firstBound, same, lowValue_lowDigits width second secondBound]

theorem bump_lowDigits {base : Nat} (positive : 0 < base) (width value : Nat) :
    bump base (lowDigits base width value) = lowDigits base width (value + 1) := by
  induction width generalizing value with
  | zero => rfl
  | succ width ih =>
      simp only [lowDigits, bump]
      have split := Nat.mod_add_div value base
      have small := Nat.mod_lt value positive
      by_cases room : value % base + 1 < base
      · have next : value + 1 = (value % base + 1) + base * (value / base) := by omega
        rw [if_pos room, next, Nat.add_mul_mod_self_left, Nat.mod_eq_of_lt room,
          Nat.add_mul_div_left _ _ positive, Nat.div_eq_of_lt room, Nat.zero_add]
      · have next : value + 1 = base * (value / base + 1) := by
          rw [Nat.mul_add]
          omega
        rw [if_neg room, ih, next, Nat.mul_mod_right, Nat.mul_div_cancel_left _ positive]

end Radix
