import CudaOpenMp.Search.OldCore
import CudaOpenMp.Search.Tforce

/-!
How `tforce.cpp` and `old.cpp` cut the keys into pieces, for every number of threads the machine may
report. Only `tlforce.cpp` has a number to fall back on when it reports none.
-/

namespace CudaOpenMp.KeySpace

/-- The division is defined, and the pieces hold every number below the total exactly once. -/
def Splits (total : UInt64) (chunks : Option (List Chunk)) : Prop :=
  ∃ handed, chunks = some handed ∧ (handed.flatMap Chunk.numbers).Perm (List.range total.toNat)

/-! `tforce.cpp`, with a signed number of threads. -/

theorem toInt_toInt32 (n : UInt32) :
    n.toInt32.toInt = if n.toNat < 2 ^ 31 then (n.toNat : Int) else n.toNat - 2 ^ 32 := by
  have bound := n.toNat_lt
  rw [Int32.toInt, UInt32.toBitVec_toInt32, BitVec.toInt_eq_toNat_cond, UInt32.toNat_toBitVec]
  split <;> split <;> omega

theorem tforce_splits_iff (n : UInt32) :
    Splits TforceSearch.total (TforceSearch.split n) ↔ 0 < n.toNat ∧ n.toNat < 2 ^ 31 := by
  have signed := toInt_toInt32 n
  have zero : n.toInt32 = 0 ↔ n.toInt32.toInt = 0 := Int32.toInt_inj.symm
  have negative : n.toInt32 < 0 ↔ n.toInt32.toInt < 0 := Int32.lt_iff_toInt_lt
  constructor
  · rintro ⟨handed, divided, perm⟩
    simp only [TforceSearch.split, Option.ite_none_left_eq_some, Option.some.injEq] at divided
    obtain ⟨nonzero, pieces⟩ := divided
    rw [zero] at nonzero
    by_cases below : n.toInt32 < 0
    · rw [if_pos below] at pieces
      subst pieces
      have size := perm.length_eq
      rw [List.flatMap_nil, List.length_nil, List.length_range, TforceSearch.total_toNat] at size
      omega
    · rw [negative] at below
      have bound := n.toNat_lt
      split at signed <;> omega
  · rintro ⟨some, small⟩
    rw [if_pos small] at signed
    have positive : 1 ≤ n.toInt32 := Int32.le_iff_toInt_le.mpr (by rw [signed]; exact Int.ofNat_le.mpr some)
    refine ⟨TforceSearch.jobs n.toInt32, ?_, ?_⟩
    · rw [TforceSearch.split, if_neg (mt zero.mp (by omega)), if_neg (mt negative.mp (by omega))]
    · rw [TforceSearch.jobs_numbers positive, TforceSearch.total_toNat]

/-! `old.cpp`, with an unsigned number of threads. -/

theorem share_toNat (total : UInt64) (n : UInt32) {t : Nat} {index : UInt64} (place : index.toNat = t)
    (bound : t ≤ n.toNat) :
    (index * (total / n.toUInt64)).toNat = t * (total.toNat / n.toNat) := by
  have room := total.toNat_lt
  have below : t * (total.toNat / n.toNat) ≤ total.toNat :=
    (Nat.mul_le_mul_right _ bound).trans (Nat.mul_div_le _ _)
  rw [UInt64.toNat_mul, place, UInt64.toNat_div, UInt32.toNat_toUInt64]
  exact Nat.mod_eq_of_lt (by omega)

theorem old_splits_iff (total : UInt64) (n : UInt32) :
    Splits total (Old.jobs total n) ↔ 0 < n.toNat := by
  have zero : n = 0 ↔ n.toNat = 0 := UInt32.toNat_inj.symm
  constructor
  · rintro ⟨handed, divided, _⟩
    simp only [Old.jobs, Option.ite_none_left_eq_some] at divided
    have nonzero := mt zero.mpr divided.1
    omega
  · intro positive
    refine ⟨_, if_neg (mt zero.mp (by omega)), ?_⟩
    rw [← IndexRanges.flatMap_floorCut total.toNat positive, List.flatMap_map]
    refine List.Perm.of_eq (List.flatMap_congr fun t listed => ?_)
    have inside := List.mem_range.mp listed
    have bound := n.toNat_lt
    have small : (UInt32.ofNat t).toNat = t := UInt32.toNat_ofNat_of_lt' (show t < 2 ^ 32 by omega)
    have wide : (UInt64.ofNat t).toNat = t := UInt64.toNat_ofNat_of_lt' (show t < 2 ^ 64 by omega)
    have one : (1 : UInt32).toNat = 1 := rfl
    have last : UInt32.ofNat t = n - 1 ↔ t = n.toNat - 1 := by
      have some : 1 ≤ n := by rwa [UInt32.le_iff_toNat_le, one]
      rw [← UInt32.toNat_inj, small, UInt32.toNat_sub_of_le _ _ some, one]
    rw [Chunk.numbers, IndexRanges.floorCut, if_pos inside, IndexRanges.floorCut]
    simp only [last, share_toNat total n wide (Nat.le_of_lt inside)]
    by_cases final : t = n.toNat - 1
    · rw [if_pos final, if_neg (by omega)]
    · have next : (UInt32.ofNat t + 1).toUInt64.toNat = t + 1 := by
        rw [UInt32.toNat_toUInt64, UInt32.toNat_add, small, one]
        exact Nat.mod_eq_of_lt (by omega)
      rw [if_neg final, if_pos (by omega), share_toNat total n next (by omega)]

/-- Both programs divide by zero when no number is reported, and `tforce.cpp` starts no worker when
it does not fit in a signed integer. -/
theorem splits_iff (n : UInt32) :
    (Splits TforceSearch.total (TforceSearch.split n) ∧
      ∀ keyLength, Splits (Old.total keyLength) (Old.jobs (Old.total keyLength) n)) ↔
      0 < n.toNat ∧ n.toNat < 2 ^ 31 := by
  constructor
  · rintro ⟨signed, _⟩
    exact (tforce_splits_iff n).mp signed
  · intro range
    exact ⟨(tforce_splits_iff n).mpr range, fun _ => (old_splits_iff _ n).mpr range.1⟩

theorem no_threads_reported :
    TforceSearch.split 0 = none ∧ Old.jobs (Old.total 4) 0 = none ∧
      ¬(Splits TforceSearch.total (TforceSearch.split 0) ∧
        ∀ keyLength, Splits (Old.total keyLength) (Old.jobs (Old.total keyLength) 0)) := by
  refine ⟨rfl, rfl, ?_⟩
  rintro ⟨⟨handed, divided, _⟩, _⟩
  cases divided

end CudaOpenMp.KeySpace
