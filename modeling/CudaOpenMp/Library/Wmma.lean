import CudaOpenMp.Library.Stores
import CudaOpenMp.Library.Tiling
import Mathlib.Algebra.BigOperators.Fin
import Mathlib.Data.Matrix.Basic
import Mathlib.Data.Matrix.Mul

/-!
Matrix fragments that a warp loads from memory, multiplies and stores, with the leading
dimension and the layout of each access.
-/

namespace Wmma

open Stores Tiling

variable {R : Type} {m n k : Nat}

inductive Layout where
  | rowMajor
  | colMajor

abbrev Fragment (m n : Nat) (R : Type) := Matrix (Fin m) (Fin n) R

def loadMatrixSync (layout : Layout) (memory : Nat → R) (pointer ldm : Nat) : Fragment m n R :=
  Matrix.of fun i j =>
    match layout with
    | .rowMajor => memory (pointer + i * ldm + j)
    | .colMajor => memory (pointer + j * ldm + i)

def storeMatrixSync (pointer ldm : Nat) (fragment : Fragment m n R) :
    List (Assign fun _ : Nat => R) :=
  (List.finRange m).flatMap fun i : Fin m => (List.finRange n).map fun j : Fin n =>
    assign (pointer + i * ldm + j) fun _ => fragment i j

theorem mem_storeMatrixSync {pointer ldm : Nat} {fragment : Fragment m n R}
    {a : Assign fun _ : Nat => R} : a ∈ storeMatrixSync pointer ldm fragment ↔
      ∃ (i : Fin m) (j : Fin n), a = assign (pointer + i * ldm + j) fun _ => fragment i j := by
  simp only [storeMatrixSync, List.mem_flatMap, List.mem_map, List.mem_finRange, true_and,
    eq_comm (a := a)]

variable [NonUnitalNonAssocSemiring R]

def mmaSync (a : Fragment m k R) (b : Fragment k n R) (c : Fragment m n R) : Fragment m n R :=
  a * b + c

/-- A loop that multiplies one pair of fragments in each turn and adds up the products. -/
def mmaLoop (turns : Nat) (a : Nat → Fragment m k R) (b : Nat → Fragment k n R) :
    Fragment m n R :=
  (List.range turns).foldl (fun c turn => mmaSync (a turn) (b turn) c) 0

theorem mmaLoop_apply (turns : Nat) (a : Nat → Fragment m k R) (b : Nat → Fragment k n R)
    (i : Fin m) (j : Fin n) : mmaLoop turns a b i j =
      ∑ turn ∈ Finset.range turns, ∑ l, a turn i l * b turn l j := by
  have sum : mmaLoop turns a b = ∑ turn ∈ Finset.range turns, a turn * b turn := by
    have added := foldl_add (fun turn => a turn * b turn) turns 0
    rw [zero_add] at added
    rw [mmaLoop, ← added]
    congr
    funext c turn
    rw [mmaSync, add_comm]
  rw [sum, Matrix.sum_apply]
  rfl

/-- Fragments that cut rows of one matrix and columns of another give the whole sum. -/
theorem mmaLoop_tiles {turns : Nat} {a : Nat → Fragment m k R} {b : Nat → Fragment k n R}
    {i : Fin m} {j : Fin n} (row column : Nat → R)
    (rows : ∀ turn < turns, ∀ l, a turn i l = row (turn * k + l))
    (columns : ∀ turn < turns, ∀ l, b turn l j = column (turn * k + l)) :
    mmaLoop turns a b i j = ∑ l ∈ Finset.range (turns * k), row l * column l := by
  rw [mmaLoop_apply, sum_tiles]
  apply Finset.sum_congr rfl
  intro turn member
  have below := Finset.mem_range.mp member
  rw [Finset.sum_range]
  exact Finset.sum_congr rfl fun l _ => by rw [rows turn below, columns turn below]

end Wmma
