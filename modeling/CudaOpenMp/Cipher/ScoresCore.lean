import CudaOpenMp.Cipher.EforceCore
import CudaOpenMp.Cipher.GpuCore
import CudaOpenMp.Cipher.TreeforceCore

/-!
The score computations of the four programs once more, over natural numbers, with every sum, product
and shift checked against the word that it is computed in. A result of `none` is an overflow.
-/

namespace CudaOpenMp.Tlforce

def checkedPow (base exp result : Nat) : Option Nat :=
  if exp = 0 then some result
  else do
    let result ← if exp &&& 1 = 1 then (word 64 (result * base)).map (· % 997) else some result
    let square ← word 64 (base * base)
    checkedPow (square % 997) (exp >>> 1) result
termination_by exp
decreasing_by omega

def checkedSeedMod (seed : Uint256) : Option Nat := do
  let p64 ← checkedPow (2 % 997) 64 1
  let p128 := (← word 64 (p64 * p64)) % 997
  let p192 := (← word 64 (p128 * p64)) % 997
  let top := (← word 64 (seed.hi2.toNat % 997 * p192)) % 997
  let next := (← word 64 (seed.hi1.toNat % 997 * p128)) % 997
  let third := (← word 64 (seed.lo1.toNat % 997 * p64)) % 997
  let sum ← word 64 (top + next)
  let sum ← word 64 (sum + third)
  let sum ← word 64 (sum + seed.lo0.toNat % 997)
  return sum % 997

def checkedScores (seed : Uint256) : Option (List Nat) := do
  let seedMod ← checkedSeedMod seed
  (List.range 36).mapM fun i => do
    let product ← word 64 ((i + 1) * seedMod)
    let sum ← word 64 (product % 997 + 17)
    return sum % 997

end CudaOpenMp.Tlforce

namespace CudaOpenMp.Eforce

/-- `compute_scores` of `eforce.cpp` makes the same steps on its words. -/
def checkedScores (seed : U256) : Option (List Nat) := Tlforce.checkedScores seed

end CudaOpenMp.Eforce

namespace CudaOpenMp.Old

def checkedStep (rem : Nat) (data : UInt32) : Option Nat := do
  let shifted ← word 64 (rem <<< 32)
  let sum ← word 64 (shifted + data.toNat)
  return sum % 997

def checkedMod997 (seed : Treeforce.Seed256) : Option Nat := do
  let rem ← seed.data.toList.foldlM checkedStep 0
  word 32 rem

def checkedScores (seed : Treeforce.Seed256) : Option (List Nat) := do
  let seedMod ← checkedMod997 seed
  (List.range 36).mapM fun i => do
    let product ← word 32 ((i + 1) * seedMod)
    let sum ← word 32 (product + 17)
    return sum % 997

end CudaOpenMp.Old

namespace CudaOpenMp.Gpu

/-- The result is converted to an `int`. -/
def checkedScore (seed : Seed128) (charIdx : Nat) : Option Nat := do
  let modHi := seed.hi.toNat % 997
  let modLo := ((← word 64 (modHi <<< 32)) ||| (seed.lo.toNat >>> 32)) % 997
  let modLo := ((← word 64 (modLo <<< 32)) ||| (seed.lo.toNat &&& 0xFFFFFFFF)) % 997
  let product ← word 64 ((charIdx + 1) * modLo)
  let sum ← word 64 (product + 17)
  word 31 (sum % 997)

end CudaOpenMp.Gpu
