import CudaOpenMp.Library.Numeral
import Mathlib.Data.Nat.Digits.Lemmas
import Mathlib.Tactic.Ring

/-!
Digits of a number, lowest first: by repeated division of a numeral in another base, and by
multiplying a numeral that grows.
-/

namespace Digits

def written (base v : Nat) : List Nat := if v = 0 then [0] else Nat.digits base v

/-- Remainders of dividing a numeral again and again, as many as there is room for. -/
def remainders (base divisor : Nat) : Nat → List Nat → Option (List Nat)
  | room, digits =>
      if digits.all (· == 0) then some []
      else
        match room with
        | 0 => none
        | room + 1 =>
            let (quotient, rem) := Numeral.divide base divisor 0 digits
            (remainders base divisor room quotient).map (rem :: ·)

theorem all_zero_iff {base : Nat} (positive : 0 < base) (digits : List Nat) :
    digits.all (· == 0) = true ↔ Numeral.value base digits = 0 := by
  rw [Numeral.value_eq_zero_iff positive]
  simp

theorem remainders_eq {base divisor room : Nat} (positive : 0 < base) (large : 1 < divisor)
    (digits : List Nat) (bound : Numeral.value base digits < divisor ^ room) :
    remainders base divisor room digits =
      some (Nat.digits divisor (Numeral.value base digits)) := by
  induction room generalizing digits with
  | zero =>
      have zero : Numeral.value base digits = 0 := by simpa using bound
      rw [remainders, if_pos ((all_zero_iff positive digits).mpr zero), zero, Nat.digits_zero]
  | succ room ih =>
      rw [remainders]
      by_cases zero : Numeral.value base digits = 0
      · rw [if_pos ((all_zero_iff positive digits).mpr zero), zero, Nat.digits_zero]
      · have more : ¬digits.all (· == 0) = true := fun all =>
          zero ((all_zero_iff positive digits).mp all)
        obtain ⟨quotient, rem⟩ := Numeral.divide_start (show 0 < divisor by omega) base digits
        have smaller : Numeral.value base (Numeral.divide base divisor 0 digits).1 <
            divisor ^ room := by
          rw [quotient]
          exact Nat.div_lt_of_lt_mul (by rwa [Nat.mul_comm, ← Nat.pow_succ])
        rw [if_neg more]
        simp only [ih _ smaller, quotient, rem, Option.map_some,
          Nat.digits_def' large (Nat.pos_of_ne_zero zero)]

/-! Multiplication with a carry. -/

def scale (base factor : Nat) : List Nat → Nat → List Nat × Nat
  | [], carry => ([], carry)
  | d :: rest, carry =>
      let cur := d * factor + carry
      let (digits, last) := scale base factor rest (cur / base)
      (cur % base :: digits, last)

section
variable {base factor : Nat}

@[simp] theorem scale_length (digits : List Nat) (carry : Nat) :
    (scale base factor digits carry).1.length = digits.length := by
  induction digits generalizing carry with
  | nil => rfl
  | cons d rest ih => simp [scale, ih]

theorem scale_small (positive : 0 < base) (digits : List Nat) (carry : Nat) :
    ∀ d ∈ (scale base factor digits carry).1, d < base := by
  induction digits generalizing carry with
  | nil => simp [scale]
  | cons d rest ih =>
      simp only [scale, List.mem_cons, forall_eq_or_imp]
      exact ⟨Nat.mod_lt _ positive, ih _⟩

theorem scale_value (digits : List Nat) (carry : Nat) :
    Nat.ofDigits base (scale base factor digits carry).1 +
        base ^ digits.length * (scale base factor digits carry).2 =
      Nat.ofDigits base digits * factor + carry := by
  induction digits generalizing carry with
  | nil => simp [scale]
  | cons d rest ih =>
      have split := Nat.div_add_mod (d * factor + carry) base
      have tail := ih ((d * factor + carry) / base)
      simp only [scale, Nat.ofDigits_cons, List.length_cons, Nat.pow_succ]
      calc _ = (d * factor + carry) % base + base * (Nat.ofDigits base
              (scale base factor rest ((d * factor + carry) / base)).1 +
            base ^ rest.length * (scale base factor rest ((d * factor + carry) / base)).2) := by
            ring
        _ = (base * ((d * factor + carry) / base) + (d * factor + carry) % base) +
              base * (Nat.ofDigits base rest * factor) := by rw [tail]; ring
        _ = _ := by rw [split]; ring

/-- All digits of a number and none above them. -/
structure Canonical (base : Nat) (digits : List Nat) : Prop where
  small : ∀ d ∈ digits, d < base
  lead : digits.length = 1 ∨ digits ≠ [] ∧ base ^ (digits.length - 1) ≤ Nat.ofDigits base digits

theorem Canonical.eq_written (large : 1 < base) {digits : List Nat}
    (canonical : Canonical base digits) : digits = written base (Nat.ofDigits base digits) := by
  have below := Nat.ofDigits_lt_base_pow_length large canonical.small
  rw [written]
  by_cases zero : Nat.ofDigits base digits = 0
  · rw [if_pos zero]
    rcases canonical.lead with single | ⟨_, above⟩
    · obtain ⟨d, rfl⟩ := List.length_eq_one_iff.mp single
      rw [Nat.ofDigits_singleton] at zero
      rw [zero]
    · have power : 0 < base ^ (digits.length - 1) := Nat.pow_pos (by omega)
      omega
  · rw [if_neg zero]
    have shorter := (Nat.digits_length_le_iff large _).mpr below
    have longer : digits.length - 1 < (Nat.digits base (Nat.ofDigits base digits)).length := by
      rw [Nat.lt_digits_length_iff large]
      rcases canonical.lead with single | ⟨_, above⟩
      · rw [single]
        exact Nat.pos_of_ne_zero zero
      · exact above
    refine Nat.ofDigits_inj_of_len_eq large ?_ canonical.small
      (fun d member => Nat.digits_lt_base large member) (Nat.ofDigits_digits _ _).symm
    omega

theorem Canonical.scale (large : 1 < base) (positive : 0 < factor) {digits : List Nat}
    (canonical : Canonical base digits) (carry : Nat) :
    Canonical base ((scale base factor digits carry).1 ++
      Nat.digits base (scale base factor digits carry).2) := by
  have value := @scale_value base factor digits carry
  have length := @scale_length base factor digits carry
  have small := @scale_small base factor (by omega) digits carry
  generalize (Digits.scale base factor digits carry).1 = out at value length small ⊢
  generalize (Digits.scale base factor digits carry).2 = last at value ⊢
  refine ⟨?_, ?_⟩
  · intro d member
    rcases List.mem_append.mp member with inside | beyond
    · exact small d inside
    · exact Nat.digits_lt_base large beyond
  · have grown : Nat.ofDigits base digits ≤ Nat.ofDigits base digits * factor :=
      Nat.le_mul_of_pos_right _ positive
    by_cases none : last = 0
    · rw [none, Nat.mul_zero, Nat.add_zero] at value
      rw [none, Nat.digits_zero, List.append_nil, length, value]
      refine canonical.lead.imp id fun ⟨inhabited, above⟩ => ⟨?_, by omega⟩
      rintro rfl
      exact inhabited (List.length_eq_zero_iff.mp length.symm)
    · have more : 0 < (Nat.digits base last).length :=
        List.length_pos_of_ne_nil (Nat.digits_ne_nil_iff_ne_zero.mpr none)
      have power : base ^ ((Nat.digits base last).length - 1) ≤ last :=
        (Nat.lt_digits_length_iff large _).mp (by omega)
      refine Or.inr ⟨?_, ?_⟩
      · intro empty
        rw [(List.append_eq_nil_iff.mp empty).2] at more
        exact Nat.lt_irrefl _ more
      · rw [List.length_append, Nat.add_sub_assoc more, Nat.pow_add, Nat.ofDigits_append,
          Nat.ofDigits_digits]
        exact Nat.le_trans (Nat.mul_le_mul_left _ power) (Nat.le_add_left _ _)

theorem written_canonical (large : 1 < base) (v : Nat) : Canonical base (written base v) := by
  rw [written]
  split
  · exact ⟨by simpa using Nat.lt_trans Nat.zero_lt_one large, Or.inl rfl⟩
  · next nonzero =>
    refine ⟨fun d member => Nat.digits_lt_base large member, Or.inr ⟨?_, ?_⟩⟩
    · exact Nat.digits_ne_nil_iff_ne_zero.mpr nonzero
    · rw [Nat.ofDigits_digits, ← Nat.lt_digits_length_iff large]
      have more : 0 < (Nat.digits base v).length :=
        List.length_pos_of_ne_nil (Nat.digits_ne_nil_iff_ne_zero.mpr nonzero)
      exact Nat.sub_lt more Nat.zero_lt_one

theorem written_value (base v : Nat) : Nat.ofDigits base (written base v) = v := by
  rw [written]
  split
  · next zero => rw [zero, Nat.ofDigits_singleton]
  · exact Nat.ofDigits_digits base v

theorem scale_written (large : 1 < base) (positive : 0 < factor) (v carry : Nat) :
    (scale base factor (written base v) carry).1 ++
        Nat.digits base (scale base factor (written base v) carry).2 =
      written base (v * factor + carry) := by
  have canonical := (written_canonical large v).scale large positive carry
  have value := @scale_value base factor (written base v) carry
  rw [written_value, ← @scale_length base factor (written base v) carry] at value
  have whole := canonical.eq_written large
  rw [Nat.ofDigits_append, Nat.ofDigits_digits, value] at whole
  exact whole

end

end Digits
