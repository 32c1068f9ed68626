import CudaOpenMp.Library.Loops
import CudaOpenMp.Library.Tiling
import Mathlib.Algebra.BigOperators.Ring.Finset
import Mathlib.Algebra.CharZero.Defs
import Mathlib.Algebra.Field.Basic
import Mathlib.Tactic.Ring

/-!
Loops over the cells of a rectangle, and the sums of products around means that such loops
compute either term by term or from the sums of the products themselves.
-/

namespace Moments

open Tiling

def loops {σ : Type} (rows cols : Nat) (body : σ → Nat → Nat → σ) (start : σ) : σ :=
  (List.range rows).foldl (fun acc i => (List.range cols).foldl (fun acc j => body acc i j) acc)
    start

/-- The same with a body that may have no value. -/
def loopsM {σ : Type} (rows cols : Nat) (body : σ → Nat → Nat → Option σ) (start : σ) : Option σ :=
  (List.range rows).foldlM (fun acc i => (List.range cols).foldlM (fun acc j => body acc i j) acc)
    start

theorem loopsM_some {σ : Type} {rows cols : Nat} {body : σ → Nat → Nat → Option σ}
    {value : σ → Nat → Nat → σ} (start : σ)
    (each : ∀ i < rows, ∀ j < cols, ∀ acc, body acc i j = some (value acc i j)) :
    loopsM rows cols body start = some (loops rows cols value start) := by
  apply Loops.foldlM_some
  intro acc i row
  apply Loops.foldlM_some
  intro acc j column
  exact each i (List.mem_range.mp row) j (List.mem_range.mp column) acc

theorem loopsM_none {σ : Type} {rows cols i j : Nat} {body : σ → Nat → Nat → Option σ}
    (row : i < rows) (column : j < cols) (fails : ∀ acc, body acc i j = none) (start : σ) :
    loopsM rows cols body start = none :=
  Loops.foldlM_none (List.mem_range.mpr row)
    (Loops.foldlM_none (List.mem_range.mpr column) fails) start

def cells (rows cols : Nat) : Finset (Nat × Nat) := Finset.range rows ×ˢ Finset.range cols

@[simp] theorem card_cells (rows cols : Nat) : (cells rows cols).card = rows * cols := by
  simp [cells]

section
variable {σ τ : Type} {rows cols : Nat}

theorem loops_rel (related : σ → τ → Prop) {body : σ → Nat → Nat → σ} {body' : τ → Nat → Nat → τ}
    {start : σ} {start' : τ} (first : related start start')
    (turn : ∀ i < rows, ∀ j < cols, ∀ acc acc', related acc acc' →
      related (body acc i j) (body' acc' i j)) :
    related (loops rows cols body start) (loops rows cols body' start') := by
  apply List.foldl_rel first
  intro i row acc acc' held
  apply List.foldl_rel held
  intro j column acc acc' held
  exact turn i (List.mem_range.mp row) j (List.mem_range.mp column) acc acc' held

variable {M : Type} [AddCommMonoid M]

theorem loops_add (f : Nat → Nat → M) (start : M) :
    loops rows cols (fun acc i j => acc + f i j) start =
      start + ∑ k ∈ cells rows cols, f k.1 k.2 := by
  simp only [loops, foldl_add, cells, Finset.sum_product]

theorem loops_field (field : σ → M) {f : Nat → Nat → M} {body : σ → Nat → Nat → σ}
    (adds : ∀ acc i j, field (body acc i j) = field acc + f i j) (start : σ) :
    field (loops rows cols body start) = field start + ∑ k ∈ cells rows cols, f k.1 k.2 := by
  rw [← loops_add f]
  apply loops_rel (fun acc sum => field acc = sum) rfl
  rintro i _ j _ acc _ rfl
  exact adds acc i j

theorem sum_cells (f : Nat → M) :
    ∑ k ∈ Finset.range (rows * cols), f k = ∑ k ∈ cells rows cols, f (k.1 * cols + k.2) := by
  rw [sum_tiles, cells, Finset.sum_product]

end

/-! Sums around means. -/

section
variable {ι R : Type} [CommRing R] (s : Finset ι)

theorem sum_sub_mul_sub {x y : ι → R} {a b : R} (first : s.card * a = ∑ k ∈ s, x k)
    (second : s.card * b = ∑ k ∈ s, y k) :
    ∑ k ∈ s, (x k - a) * (y k - b) = ∑ k ∈ s, x k * y k - s.card * a * b := by
  have terms (k : ι) : (x k - a) * (y k - b) = x k * y k - x k * b - a * y k + a * b := by ring
  simp only [terms, Finset.sum_add_distrib, Finset.sum_sub_distrib, ← Finset.sum_mul,
    ← Finset.mul_sum, ← first, ← second, Finset.sum_const, nsmul_eq_mul]
  ring

theorem sum_sub_sq (x y : ι → R) :
    ∑ k ∈ s, (x k - y k) * (x k - y k) =
      ∑ k ∈ s, x k * x k + ∑ k ∈ s, y k * y k - 2 * ∑ k ∈ s, x k * y k := by
  have terms (k : ι) : (x k - y k) * (x k - y k) = x k * x k + y k * y k - 2 * (x k * y k) := by ring
  simp only [terms, Finset.sum_sub_distrib, Finset.sum_add_distrib, ← Finset.mul_sum]

end

section
variable {ι K : Type} [Field K] (s : Finset ι) (x y : ι → K)

def mean : K := (∑ k ∈ s, x k) / s.card

/-- Without the division by the number of terms. -/
def covariance : K := ∑ k ∈ s, (x k - mean s x) * (y k - mean s y)

variable [CharZero K]

theorem card_mul_mean : s.card * mean s x = ∑ k ∈ s, x k := by
  rcases s.eq_empty_or_nonempty with rfl | some
  · simp
  · exact mul_div_cancel₀ _ (Nat.cast_ne_zero.mpr some.card_pos.ne')

theorem covariance_eq :
    covariance s x y = ∑ k ∈ s, x k * y k - s.card * mean s x * mean s y :=
  sum_sub_mul_sub s (card_mul_mean s x) (card_mul_mean s y)

end

end Moments
