import Mathlib.Algebra.Group.Nat.Defs
import Mathlib.Tactic.Common

/-! Signed 32-bit integers and unsigned words of C. -/

namespace CudaOpenMp

/-- The value of a signed 32-bit expression; an overflow has none. -/
def int32 (value : Int) : Option Int :=
  if -2147483648 ≤ value ∧ value ≤ 2147483647 then some value else none

/-- The conversion of a size to a signed 32-bit integer. -/
def narrow (size : Nat) : Int :=
  if size % 4294967296 < 2147483648 then (size % 4294967296 : Nat)
  else (size % 4294967296 : Nat) - 4294967296

/-- The value of an unsigned expression; none when it does not fit its word. -/
def word (width value : Nat) : Option Nat := if value < 2 ^ width then some value else none

theorem word_of_lt {width value : Nat} (fits : value < 2 ^ width) : word width value = some value :=
  if_pos fits

theorem toNat_succ {v : UInt64} (room : v.toNat + 1 < 2 ^ 64) : (v + 1).toNat = v.toNat + 1 := by
  rw [UInt64.toNat_add]
  exact Nat.mod_eq_of_lt room

theorem int32_of_range {value : Int} (low : 0 ≤ value) (high : value ≤ 2147483647) :
    int32 value = some value := by
  have range : -2147483648 ≤ value ∧ value ≤ 2147483647 := by omega
  simp only [int32, if_pos range]

theorem int32_natCast {value : Nat} (small : value < 2 ^ 31) :
    int32 (value : Int) = some (value : Int) :=
  int32_of_range (by omega) (by omega)

/-- An index into a row-major array, computed with ints; none before the array. -/
def intIndex (row width column : Int) : Option Nat := do
  let start ← int32 (row * width)
  let index ← int32 (start + column)
  if 0 ≤ index then some index.toNat else none

theorem intIndex_eq {row width column : Nat} (small : row * width + column < 2 ^ 31) :
    intIndex row width column = some (row * width + column) := by
  have start : int32 ((row : Int) * width) = some ((row * width : Nat) : Int) := by
    rw [← Int.natCast_mul]
    exact int32_natCast (by omega)
  have index : int32 (((row * width : Nat) : Int) + column) =
      some ((row * width + column : Nat) : Int) := by
    rw [← Int.natCast_add]
    exact int32_natCast small
  simp only [intIndex, start, index, Option.bind_eq_bind, Option.bind_some]
  rw [if_pos (Int.natCast_nonneg _), Int.toNat_natCast]

theorem intIndex_none {row width column : Nat} (large : 2 ^ 31 ≤ row * width + column) :
    intIndex row width column = none := by
  have product : (row : Int) * width = ((row * width : Nat) : Int) := (Int.natCast_mul _ _).symm
  rw [intIndex, product]
  by_cases fits : row * width < 2 ^ 31
  · have beyond : int32 (((row * width : Nat) : Int) + column) = none := if_neg (by omega)
    simp only [int32_natCast fits, beyond, Option.bind_eq_bind, Option.bind_some, Option.bind_none]
  · have beyond : int32 ((row * width : Nat) : Int) = none := if_neg (by omega)
    simp only [beyond, Option.bind_eq_bind, Option.bind_none]

theorem narrow_of_lt {size : Nat} (bound : size < 2147483648) : narrow size = size := by
  have low : size % 4294967296 = size := Nat.mod_eq_of_lt (by omega)
  simp only [narrow, low, bound, if_true]

end CudaOpenMp
