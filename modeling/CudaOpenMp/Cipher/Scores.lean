import CudaOpenMp.Cipher.GpuTree
import CudaOpenMp.Cipher.ScoresCore
import CudaOpenMp.Cipher.TlforceSeed
import CudaOpenMp.Cipher.Treeforce
import CudaOpenMp.Library.Loops
import Mathlib.Data.Nat.ModEq

/-!
The scores of the four programs, `((i+1)*n + 17) % 997` of a seed `n`. No step on the way leaves its
word, so that the machine words hold the exact values.
-/

namespace CudaOpenMp

def scores (n : Nat) : List Nat := (List.range 36).map fun i => ((i + 1) * n + 17) % 997

theorem score_mod (i n : Nat) : ((i + 1) * (n % 997) + 17) % 997 = ((i + 1) * n + 17) % 997 :=
  Scheme.leafScore_mod n i

theorem score_product {i n : Nat} (bound : i < 36) : (i + 1) * (n % 997) ≤ 36 * 996 :=
  Nat.mul_le_mul bound (Nat.le_of_lt_succ (Nat.mod_lt n (by decide)))

theorem word_shift {rem : Nat} (small : rem < 997) : word 64 (rem <<< 32) = some (rem * 2 ^ 32) := by
  rw [Nat.shiftLeft_eq]
  exact word_of_lt (by omega)

namespace Tlforce

theorem checkedPow_eq {base exp result : Nat} (baseBound : base < 997) (resultBound : result < 997) :
    checkedPow base exp result = some (result * base ^ exp % 997) := by
  induction exp using Nat.strongRecOn generalizing base result with
  | ind exp ih =>
      have square : base * base < 997 * 997 := Nat.mul_lt_mul'' baseBound baseBound
      have product : result * base < 997 * 997 := Nat.mul_lt_mul'' resultBound baseBound
      have halved : exp >>> 1 = exp / 2 := Nat.shiftRight_eq_div_pow exp 1
      rw [checkedPow]
      by_cases zero : exp = 0
      · rw [if_pos zero, zero, Nat.pow_zero, Nat.mul_one, Nat.mod_eq_of_lt resultBound]
      · have smaller {result : Nat} (small : result < 997) :=
          ih (exp / 2) (by omega) (Nat.mod_lt (base * base) (show 0 < 997 by decide)) small
        have twice : (base * base % 997) ^ (exp / 2) ≡ base ^ (2 * (exp / 2)) [MOD 997] := by
          rw [Nat.pow_mul, Nat.pow_two]
          exact (Nat.mod_modEq _ _).pow _
        rw [if_neg zero, Nat.and_one_is_mod, halved, word_of_lt (by omega), word_of_lt (by omega)]
        by_cases odd : exp % 2 = 1
        · have multiplied : result * base % 997 < 997 := Nat.mod_lt _ (by decide)
          simp only [if_pos odd, Option.map_some, Option.bind_eq_bind, Option.bind_some,
            smaller multiplied]
          have parts : result * base ^ exp = result * base * base ^ (2 * (exp / 2)) := by
            rw [Nat.mul_assoc, ← Nat.pow_succ']
            congr 2
            omega
          rw [parts]
          exact congrArg some ((Nat.mod_modEq _ _).mul twice)
        · simp only [if_neg odd, Option.bind_eq_bind, Option.bind_some, smaller resultBound]
          have parts : 2 * (exp / 2) = exp := by omega
          rw [parts] at twice
          exact congrArg some ((Nat.ModEq.refl _).mul twice)

theorem checkedSeedMod_eq (seed : Uint256) : checkedSeedMod seed = some (seed.value % 997) := by
  have power : checkedPow (2 % 997) 64 1 = some 961 := by
    rw [checkedPow_eq (by decide) (by decide)]
    rfl
  have gathered : (seed.hi2.toNat % 997 * 203 % 997 + seed.hi1.toNat % 997 * 299 % 997 +
      seed.lo1.toNat % 997 * 961 % 997 + seed.lo0.toNat % 997) % 997 = seed.value % 997 := by
    rw [Uint256.value]
    omega
  rw [checkedSeedMod, power]
  simp (disch := omega) only [Option.bind_eq_bind, Option.bind_some, word_of_lt, gathered,
    Option.pure_def, Nat.reduceMul, Nat.reduceMod]

theorem checkedScores_eq (seed : Uint256) : checkedScores seed = some (scores seed.value) := by
  rw [checkedScores, checkedSeedMod_eq, Option.bind_eq_bind, Option.bind_some]
  apply Loops.mapM_some
  intro i member
  have product := @score_product i seed.value (List.mem_range.mp member)
  simp (disch := omega) only [Option.bind_eq_bind, Option.bind_some, word_of_lt, Option.pure_def]
  rw [Nat.mod_add_mod, score_mod]

theorem computeScores_eq (seed : Uint256) :
    (computeScores seed).map UInt64.toNat = scores seed.value := by
  refine List.ext_getElem (by simp [computeScores, scores]) ?_
  intro i inside _
  have bound : i < 36 := by simpa [computeScores] using inside
  have score := computeScores_toNat seed bound
  rw [List.getD_eq_getElem?_getD, List.getElem?_eq_getElem (by simpa using inside)] at score
  simpa [scores, Scheme.leafScore] using score

end Tlforce

namespace Old

theorem checkedStep_eq {rem : Nat} (small : rem < 997) (data : UInt32) :
    checkedStep rem data = some ((rem * 2 ^ 32 + data.toNat) % 997) := by
  have bound := data.toNat_lt
  rw [checkedStep, word_shift small, Option.bind_eq_bind, Option.bind_some, word_of_lt (by omega),
    Option.bind_some, Option.pure_def]

theorem checkedMod997_eq (seed : Treeforce.Seed256) : checkedMod997 seed = some (seed.value % 997) := by
  have folded (words : List UInt32) (v : Nat) : words.foldlM checkedStep (v % 997) =
      some (words.foldl (fun v word => v * 2 ^ 32 + word.toNat) v % 997) := by
    induction words generalizing v with
    | nil => rfl
    | cons data rest ih =>
        have horner : (v % 997 * 2 ^ 32 + data.toNat) % 997 = (v * 2 ^ 32 + data.toNat) % 997 := by
          omega
        rw [List.foldlM_cons, checkedStep_eq (Nat.mod_lt _ (by decide)), Option.bind_eq_bind,
          Option.bind_some, horner, ih, List.foldl_cons]
  have residue : seed.value % 997 < 2 ^ 32 := Nat.lt_trans (Nat.mod_lt _ (by decide)) (by decide)
  have walked := folded seed.data.toList 0
  rw [Nat.zero_mod, ← Treeforce.Seed256.value] at walked
  rw [checkedMod997, walked, Option.bind_eq_bind, Option.bind_some, word_of_lt residue]

theorem checkedScores_eq (seed : Treeforce.Seed256) : checkedScores seed = some (scores seed.value) := by
  rw [checkedScores, checkedMod997_eq, Option.bind_eq_bind, Option.bind_some]
  apply Loops.mapM_some
  intro i member
  have product := @score_product i seed.value (List.mem_range.mp member)
  simp (disch := omega) only [Option.bind_eq_bind, Option.bind_some, word_of_lt, Option.pure_def]
  rw [score_mod]

theorem itemScores_eq (seed : Treeforce.Seed256) :
    (Treeforce.items seed.getMod997).map (fun item => item.1.toNat) = scores seed.value := by
  have weights := congrArg (List.map HuffmanTree.Item.weight) (Treeforce.items_leaves seed)
  rw [List.map_map, List.map_map] at weights
  exact weights

end Old

namespace Gpu

theorem checkedScore_eq (seed : Seed128) {i : Nat} (bound : i < 36) :
    checkedScore seed i = some (((i + 1) * seed.value + 17) % 997) := by
  have small := seed.lo.toNat_lt
  have joined (rem low : Nat) (lowBound : low < 2 ^ 32) : rem * 2 ^ 32 ||| low = rem * 2 ^ 32 + low := by
    rw [← Nat.shiftLeft_eq, Nat.shiftLeft_add_eq_or_of_lt lowBound]
  have high : seed.lo.toNat >>> 32 = seed.lo.toNat / 2 ^ 32 := Nat.shiftRight_eq_div_pow _ 32
  have low : seed.lo.toNat &&& 0xFFFFFFFF = seed.lo.toNat % 2 ^ 32 :=
    Nat.and_two_pow_sub_one_eq_mod _ 32
  have residue : ((seed.hi.toNat % 997 * 2 ^ 32 + seed.lo.toNat / 2 ^ 32) % 997 * 2 ^ 32 +
      seed.lo.toNat % 2 ^ 32) % 997 = seed.value % 997 := by
    rw [Seed128.value]
    omega
  have product := @score_product i seed.value bound
  have score : ((i + 1) * (seed.value % 997) + 17) % 997 < 2 ^ 31 :=
    Nat.lt_trans (Nat.mod_lt _ (by decide)) (by decide)
  rw [checkedScore, high, low, word_shift (Nat.mod_lt _ (by decide)), Option.bind_eq_bind,
    Option.bind_some, joined _ _ (by omega)]
  dsimp only
  rw [word_shift (Nat.mod_lt _ (by decide)), Option.bind_some, joined _ _ (by omega), residue,
    word_of_lt (by omega), Option.bind_some, word_of_lt (by omega), Option.bind_some,
    word_of_lt score, score_mod]

end Gpu

theorem scores_exact (wide : Tlforce.Uint256) (words : Treeforce.Seed256) (half : Gpu.Seed128) :
    (Tlforce.checkedScores wide = some (scores wide.value) ∧
      (Tlforce.computeScores wide).map UInt64.toNat = scores wide.value) ∧
    (Eforce.checkedScores wide = some (scores wide.value) ∧
      (Eforce.computeScores wide).map UInt64.toNat = scores wide.value) ∧
    (Old.checkedScores words = some (scores words.value) ∧
      (Treeforce.items words.getMod997).map (fun item => item.1.toNat) = scores words.value) ∧
    ((List.range 36).mapM (Gpu.checkedScore half) = some (scores half.value) ∧
      (List.range 36).map (fun i => Gpu.dComputeScore i half) = (scores half.value).map Int.ofNat) := by
  refine ⟨⟨Tlforce.checkedScores_eq wide, Tlforce.computeScores_eq wide⟩,
    ⟨Tlforce.checkedScores_eq wide, Tlforce.computeScores_eq wide⟩,
    ⟨Old.checkedScores_eq words, Old.itemScores_eq words⟩, ?_, ?_⟩
  · exact Loops.mapM_some fun i member => Gpu.checkedScore_eq half (List.mem_range.mp member)
  · rw [scores, List.map_map]
    apply List.map_congr_left
    intro i member
    exact Gpu.dComputeScore_eq half (List.mem_range.mp member)

end CudaOpenMp
