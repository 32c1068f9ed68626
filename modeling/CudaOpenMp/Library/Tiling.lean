import Mathlib.Algebra.BigOperators.Intervals

/-!
Loops that add up, sums over a range that is cut into tiles of one size, and loops that go on by
the number of threads.
-/

namespace Tiling

variable {M : Type} [AddCommMonoid M]

theorem foldl_add (f : Nat → M) (count : Nat) (start : M) :
    (List.range count).foldl (fun sum k => sum + f k) start =
      start + ∑ k ∈ Finset.range count, f k := by
  induction count with
  | zero => simp
  | succ count ih =>
      rw [List.range_succ, List.foldl_append, ih, Finset.sum_range_succ, ← add_assoc]
      rfl

theorem sum_tiles (size : Nat) (f : Nat → M) (tiles : Nat) :
    ∑ k ∈ Finset.range (tiles * size), f k =
      ∑ tile ∈ Finset.range tiles, ∑ k ∈ Finset.range size, f (tile * size + k) := by
  induction tiles with
  | zero => simp
  | succ tiles ih =>
      rw [Finset.sum_range_succ, ← ih, Nat.succ_mul]
      exact Finset.sum_range_add f _ _

/-- The indices `first`, `first + stride`, … below `total`. -/
def strided (first total stride : Nat) : List Nat :=
  List.range' first ((total - first + stride - 1) / stride) stride

theorem mem_strided {first total stride index : Nat} (positive : 0 < stride) :
    index ∈ strided first total stride ↔ ∃ k, index = first + stride * k ∧ index < total := by
  have count (k : Nat) : k < (total - first + stride - 1) / stride ↔ first + stride * k < total := by
    rw [← Nat.succ_le_iff, Nat.le_div_iff_mul_le positive, Nat.succ_mul, Nat.mul_comm k]
    omega
  rw [strided, List.mem_range']
  constructor
  · rintro ⟨k, below, rfl⟩
    exact ⟨k, rfl, (count k).mp below⟩
  · rintro ⟨k, rfl, below⟩
    exact ⟨k, (count k).mpr below, rfl⟩

theorem exists_strided {width height total i : Nat} (positive : 0 < width * height)
    (below : i < total) : ∃ thread : Fin width × Fin height,
      i ∈ strided (thread.2.val * width + thread.1.val) total (width * height) := by
  have small := Nat.mod_lt i positive
  refine ⟨(⟨i % (width * height) % width, Nat.mod_lt _ (Nat.pos_of_mul_pos_right positive)⟩,
    ⟨i % (width * height) / width, Nat.div_lt_of_lt_mul small⟩), ?_⟩
  rw [mem_strided positive]
  refine ⟨i / (width * height), ?_, below⟩
  rw [Nat.div_add_mod', Nat.mod_add_div]

end Tiling
