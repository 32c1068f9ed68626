import Mathlib.Algebra.Order.Ring.Nat
import Mathlib.Tactic.Common
import Mathlib.Tactic.Ring

/-!
Numerals in an arbitrary base, highest digit first, and their long division, and byte strings as
numerals in base 256.
-/

namespace Numeral

def value (base : Nat) (digits : List Nat) : Nat := digits.foldl (fun v d => v * base + d) 0

@[simp] theorem value_nil (base : Nat) : value base [] = 0 := rfl

theorem foldl_value (base : Nat) (digits : List Nat) (start : Nat) :
    digits.foldl (fun v d => v * base + d) start =
      start * base ^ digits.length + value base digits := by
  induction digits generalizing start with
  | nil => simp
  | cons d rest ih =>
      rw [value, List.foldl_cons, List.foldl_cons, ih, ih (0 * base + d), List.length_cons]
      ring

theorem value_cons (base d : Nat) (rest : List Nat) :
    value base (d :: rest) = d * base ^ rest.length + value base rest := by
  rw [value, List.foldl_cons, foldl_value, Nat.zero_mul, Nat.zero_add]

theorem value_append (base : Nat) (first second : List Nat) :
    value base (first ++ second) =
      value base first * base ^ second.length + value base second := by
  rw [value, List.foldl_append, foldl_value]
  rfl

theorem value_lt {base : Nat} {digits : List Nat} (small : ∀ d ∈ digits, d < base) :
    value base digits < base ^ digits.length := by
  induction digits with
  | nil => simp
  | cons d rest ih =>
      have tail := ih fun x member => small x (by simp [member])
      have block : (d + 1) * base ^ rest.length ≤ base * base ^ rest.length :=
        Nat.mul_le_mul_right _ (small d (by simp))
      rw [value_cons, List.length_cons, Nat.pow_succ, Nat.mul_comm _ base]
      rw [Nat.add_mul, Nat.one_mul] at block
      omega

theorem value_eq_zero_iff {base : Nat} (positive : 0 < base) (digits : List Nat) :
    value base digits = 0 ↔ ∀ d ∈ digits, d = 0 := by
  induction digits with
  | nil => simp
  | cons d rest ih =>
      have power : 0 < base ^ rest.length := Nat.pow_pos positive
      rw [value_cons, Nat.add_eq_zero_iff, Nat.mul_eq_zero, ih]
      simp only [Nat.ne_of_gt power, or_false, List.mem_cons, forall_eq_or_imp]

def divide (base divisor : Nat) : Nat → List Nat → List Nat × Nat
  | rem, [] => ([], rem)
  | rem, d :: rest =>
      let cur := rem * base + d
      let (quotient, last) := divide base divisor (cur % divisor) rest
      (cur / divisor :: quotient, last)

@[simp] theorem divide_length (base divisor rem : Nat) (digits : List Nat) :
    (divide base divisor rem digits).1.length = digits.length := by
  induction digits generalizing rem with
  | nil => rfl
  | cons d rest ih => simp [divide, ih]

theorem divide_rem_lt {divisor : Nat} (positive : 0 < divisor) (base : Nat) {rem : Nat}
    (digits : List Nat) (small : rem < divisor) :
    (divide base divisor rem digits).2 < divisor := by
  induction digits generalizing rem with
  | nil => exact small
  | cons d rest ih => exact ih (Nat.mod_lt _ positive)

theorem divide_spec (base divisor rem : Nat) (digits : List Nat) :
    rem * base ^ digits.length + value base digits =
      value base (divide base divisor rem digits).1 * divisor +
        (divide base divisor rem digits).2 := by
  induction digits generalizing rem with
  | nil => simp [divide]
  | cons d rest ih =>
      have split := Nat.div_add_mod (rem * base + d) divisor
      have divided := ih ((rem * base + d) % divisor)
      simp only [divide, value_cons, divide_length, List.length_cons]
      calc rem * base ^ (rest.length + 1) + (d * base ^ rest.length + value base rest)
          = (rem * base + d) * base ^ rest.length + value base rest := by ring
        _ = (divisor * ((rem * base + d) / divisor) + (rem * base + d) % divisor) *
              base ^ rest.length + value base rest := by rw [split]
        _ = (rem * base + d) / divisor * base ^ rest.length * divisor +
              ((rem * base + d) % divisor * base ^ rest.length + value base rest) := by ring
        _ = _ := by rw [divided]; ring

theorem divide_start {divisor : Nat} (positive : 0 < divisor) (base : Nat) (digits : List Nat) :
    value base (divide base divisor 0 digits).1 = value base digits / divisor ∧
      (divide base divisor 0 digits).2 = value base digits % divisor := by
  have whole := divide_spec base divisor 0 digits
  have small := divide_rem_lt positive base digits positive
  rw [Nat.zero_mul, Nat.zero_add] at whole
  rw [whole]
  constructor
  · rw [Nat.mul_comm, Nat.mul_add_div positive, Nat.div_eq_of_lt small, Nat.add_zero]
  · rw [Nat.mul_add_mod_of_lt small]

end Numeral

namespace BigEndian

def value (bytes : List UInt8) : Nat := bytes.foldl (fun v b => v * 256 + b.toNat) 0

theorem value_eq (bytes : List UInt8) : value bytes = Numeral.value 256 (bytes.map UInt8.toNat) := by
  rw [value, Numeral.value, List.foldl_map]

theorem value_cons (b : UInt8) (rest : List UInt8) :
    value (b :: rest) = b.toNat * 256 ^ rest.length + value rest := by
  rw [value_eq, value_eq, List.map_cons, Numeral.value_cons, List.length_map]

theorem value_append (first second : List UInt8) :
    value (first ++ second) = value first * 256 ^ second.length + value second := by
  rw [value_eq, value_eq, value_eq, List.map_append, Numeral.value_append, List.length_map]

theorem value_lt (bytes : List UInt8) : value bytes < 256 ^ bytes.length := by
  rw [value_eq, ← List.length_map UInt8.toNat]
  apply Numeral.value_lt
  intro d member
  obtain ⟨b, _, rfl⟩ := List.mem_map.mp member
  exact b.toNat_lt

theorem value_eq_zero_iff (bytes : List UInt8) : value bytes = 0 ↔ ∀ b ∈ bytes, b = 0 := by
  rw [value_eq, Numeral.value_eq_zero_iff (by decide)]
  simp [← UInt8.toNat_inj]

end BigEndian
