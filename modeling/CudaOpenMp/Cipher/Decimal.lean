import CudaOpenMp.Cipher.EforceCore
import CudaOpenMp.Cipher.Gpu
import CudaOpenMp.Cipher.TlforceSeed
import CudaOpenMp.Cipher.TreeforceCore
import CudaOpenMp.Library.Digits

/-!
The decimal strings that the four versions of the cipher hash. Their loops have nothing in common
but the number that they spell.
-/

namespace CudaOpenMp

open Scheme

namespace Scheme

structure IsNumeral (v : Nat) (text : List UInt8) : Prop where
  digits : ∀ c ∈ text, 48 ≤ c.toNat ∧ c.toNat < 58
  value : Numeral.value 10 (text.map fun c => c.toNat - 48) = v
  lead : text.head? = some 48 → v = 0 ∧ text = [48]
  inhabited : text ≠ []

theorem digit_toNat {d : Nat} (small : d < 10) : (48 + d.toUInt8).toNat = 48 + d := by
  have all : ∀ d < 10, (48 + d.toUInt8).toNat = 48 + d := by decide
  exact all d small

theorem decimal_isNumeral (v : Nat) : IsNumeral v (decimal v) := by
  induction v using Nat.strongRecOn with
  | ind v ih =>
      rcases Nat.lt_or_ge v 10 with small | large
      · rw [Tlforce.decimal_digit small]
        have digit := digit_toNat small
        refine ⟨?_, ?_, ?_, by simp⟩
        · intro c member
          obtain rfl := List.mem_singleton.mp member
          omega
        · simp only [List.map_singleton, digit]
          simp [Numeral.value]
        · intro lead
          simp only [List.head?_cons, Option.some.injEq] at lead
          rw [lead] at digit
          have zero : v = 0 := by
            change 48 = 48 + v at digit
            omega
          exact ⟨zero, by rw [lead]⟩
      · have rest := ih (v / 10) (by omega)
        have digit := digit_toNat (Nat.mod_lt v (show 0 < 10 by decide))
        rw [Tlforce.decimal_step large]
        refine ⟨?_, ?_, ?_, by simp⟩
        · intro c member
          rcases List.mem_append.mp member with inside | last
          · exact rest.digits c inside
          · obtain rfl := List.mem_singleton.mp last
            omega
        · rw [List.map_append, Numeral.value_append, rest.value]
          simp only [List.map_singleton, digit]
          simp [Numeral.value]
          omega
        · intro lead
          rw [List.head?_append_of_ne_nil _ rest.inhabited] at lead
          have zero := (rest.lead lead).1
          omega

theorem decimal_eq_written (v : Nat) :
    decimal v = (Digits.written 10 v).reverse.map fun d => 48 + d.toUInt8 := by
  induction v using Nat.strongRecOn with
  | ind v ih =>
      rcases Nat.lt_or_ge v 10 with small | large
      · rw [Tlforce.decimal_digit small, Digits.written]
        split
        · next zero => simp [zero]
        · next nonzero => simp [Nat.digits_of_lt 10 v nonzero small]
      · have quotient : v / 10 ≠ 0 := by omega
        have nonzero : v ≠ 0 := by omega
        rw [Tlforce.decimal_step large, ih (v / 10) (by omega), Digits.written, if_neg quotient,
          Digits.written, if_neg nonzero, Nat.digits_def' (by decide) (Nat.pos_of_ne_zero nonzero),
          List.reverse_cons, List.map_append, List.map_singleton]

theorem decimal_length {v room : Nat} (positive : 0 < room) (bound : v < 10 ^ room) :
    (decimal v).length ≤ room := by
  rw [decimal_eq_written, List.length_map, List.length_reverse, Digits.written]
  split
  · exact positive
  · exact (Nat.digits_length_le_iff (by decide) v).mpr bound

end Scheme

namespace Treeforce.Seed256

theorem doubleDigits_eq (dec : List UInt32) {carry : UInt64} (small : ∀ d ∈ dec, d.toNat < 10)
    (bit : carry.toNat < 2) :
    (doubleDigits dec carry).1.map UInt32.toNat =
        (Digits.scale 10 2 (dec.map UInt32.toNat) carry.toNat).1 ∧
      (doubleDigits dec carry).2.toNat =
        (Digits.scale 10 2 (dec.map UInt32.toNat) carry.toNat).2 := by
  induction dec generalizing carry with
  | nil => exact ⟨rfl, rfl⟩
  | cons d rest ih =>
      have digit := small d (by simp)
      have current : (d.toUInt64 * 2 + carry).toNat = d.toNat * 2 + carry.toNat := by
        rw [UInt64.toNat_add, UInt64.toNat_mul, UInt32.toNat_toUInt64]
        change (d.toNat * 2 % 2 ^ 64 + carry.toNat) % 2 ^ 64 = _
        omega
      have quotient : ((d.toUInt64 * 2 + carry) / 10).toNat = (d.toNat * 2 + carry.toNat) / 10 := by
        rw [UInt64.toNat_div, current]
        rfl
      have remainder : ((d.toUInt64 * 2 + carry) % 10).toUInt32.toNat =
          (d.toNat * 2 + carry.toNat) % 10 := by
        rw [UInt64.toNat_toUInt32, UInt64.toNat_mod, current]
        change (d.toNat * 2 + carry.toNat) % 10 % 2 ^ 32 = _
        omega
      have tail := @ih ((d.toUInt64 * 2 + carry) / 10) (fun x member => small x (by simp [member]))
        (by rw [quotient]; omega)
      rw [quotient] at tail
      simp only [doubleDigits, List.map_cons, remainder, Digits.scale, tail.1, tail.2, and_self]

theorem carryDigits_eq (carry : Nat) :
    (carryDigits carry).map UInt32.toNat = Nat.digits 10 carry := by
  induction carry using Nat.strongRecOn with
  | ind carry ih =>
      rw [carryDigits]
      split
      · next zero => simp [zero]
      · next nonzero =>
        have digit : (carry % 10).toUInt32.toNat = carry % 10 := by
          change carry % 10 % 2 ^ 32 = _
          omega
        rw [List.map_cons, ih (carry / 10) (by omega), digit,
          Nat.digits_def' (by decide) (Nat.pos_of_ne_zero nonzero)]

theorem addBit_eq {dec : List UInt32} {v : Nat} {bit : UInt64}
    (spelled : dec.map UInt32.toNat = Digits.written 10 v) (small : bit.toNat < 2) :
    (addBit dec bit).map UInt32.toNat = Digits.written 10 (v * 2 + bit.toNat) := by
  have digits : ∀ d ∈ dec, d.toNat < 10 := by
    intro d member
    apply (Digits.written_canonical (show 1 < 10 by decide) v).small
    rw [← spelled]
    exact List.mem_map_of_mem member
  obtain ⟨doubled, last⟩ := doubleDigits_eq dec digits small
  rw [addBit, List.map_append, doubled, carryDigits_eq, last, spelled,
    Digits.scale_written (by decide) (by decide)]

theorem addBits_eq (bits : List UInt64) {dec : List UInt32} {v : Nat}
    (spelled : dec.map UInt32.toNat = Digits.written 10 v)
    (small : ∀ bit ∈ bits, bit.toNat < 2) :
    (bits.foldl addBit dec).map UInt32.toNat =
      Digits.written 10 (bits.foldl (fun v bit => v * 2 + bit.toNat) v) := by
  induction bits generalizing dec v with
  | nil => exact spelled
  | cons bit rest ih =>
      exact ih (addBit_eq spelled (small bit (by simp))) fun x member => small x (by simp [member])

theorem bit_toNat (word : UInt32) {bit : Nat} (bound : bit < 32) :
    ((word >>> bit.toUInt32) &&& 1).toUInt64.toNat = word.toNat / 2 ^ bit % 2 := by
  have shift : bit.toUInt32.toNat = bit := by
    change bit % 2 ^ 32 = bit
    omega
  rw [UInt32.toNat_toUInt64, UInt32.toNat_and, UInt32.toNat_shiftRight, shift,
    Nat.mod_eq_of_lt bound, Nat.shiftRight_eq_div_pow]
  exact Nat.and_two_pow_sub_one_eq_mod _ 1

theorem wordBits_small (word : UInt32) : ∀ bit ∈ wordBits word, bit.toNat < 2 := by
  intro bit member
  obtain ⟨place, there, rfl⟩ := List.mem_map.mp member
  rw [List.mem_reverse, List.mem_range] at there
  rw [bit_toNat word there]
  exact Nat.mod_lt _ (by decide)

theorem wordBits_value (word : UInt32) (v : Nat) :
    (wordBits word).foldl (fun v bit => v * 2 + bit.toNat) v = v * 2 ^ 32 + word.toNat := by
  have partway (count : Nat) (bound : count ≤ 32) (v : Nat) :
      ((List.range count).reverse.map fun bit =>
        ((word >>> bit.toUInt32) &&& 1).toUInt64).foldl (fun v bit => v * 2 + bit.toNat) v =
        v * 2 ^ count + word.toNat % 2 ^ count := by
    induction count generalizing v with
    | zero => simp [Nat.mod_one]
    | succ count ih =>
        rw [List.range_succ, List.reverse_append, List.reverse_singleton, List.singleton_append,
          List.map_cons, List.foldl_cons, ih (by omega), bit_toNat word (by omega),
          Nat.mod_pow_succ]
        ring
  rw [wordBits, partway 32 (Nat.le_refl _), Nat.mod_eq_of_lt word.toNat_lt]

theorem toString_digit {d : UInt32} (small : d.toNat < 10) :
    (toString d).toList.map (fun c => c.toNat.toUInt8) = [48 + d.toNat.toUInt8] := by
  have all : ∀ k < 10, (toString (UInt32.ofNat k)).toList.map (fun c => c.toNat.toUInt8) =
      [48 + k.toUInt8] := by decide
  have same := all d.toNat small
  rwa [UInt32.ofNat_toNat] at same

theorem toDecimalString_eq (seed : Seed256) : seed.toDecimalString = decimal seed.value := by
  have spelled := @addBits_eq (seed.data.toList.flatMap wordBits) [0] 0 rfl (by
    intro bit member
    obtain ⟨word, _, there⟩ := List.mem_flatMap.mp member
    exact wordBits_small word bit there)
  have value : (seed.data.toList.flatMap wordBits).foldl (fun v bit => v * 2 + bit.toNat) 0 =
      seed.value := by
    simp only [List.foldl_flatMap, wordBits_value]
    rfl
  rw [value] at spelled
  rw [toDecimalString]
  generalize (seed.data.toList.flatMap wordBits).foldl addBit [0] = dec at spelled
  have small : ∀ d ∈ dec.reverse, d.toNat < 10 := by
    intro d member
    apply (Digits.written_canonical (show 1 < 10 by decide) seed.value).small
    rw [← spelled]
    exact List.mem_map_of_mem (List.mem_reverse.mp member)
  rw [decimal_eq_written, ← spelled, ← List.map_reverse]
  generalize dec.reverse = digits at small ⊢
  induction digits with
  | nil => rfl
  | cons d rest ih =>
      have tail := ih fun x member => small x (by simp [member])
      rw [List.flatMap_cons, List.map_append, toString_digit (small d (by simp)), tail]
      rfl

end Treeforce.Seed256

/-! Repeated division. -/

namespace Eforce

theorem digitLoop_eq (room : Nat) (buf : List UInt8) :
    digitLoop room buf = (Tlforce.digitLoop room buf).map (List.map fun d => 48 + d) := by
  induction room generalizing buf with
  | zero =>
      rw [digitLoop, Tlforce.digitLoop]
      split <;> rfl
  | succ room ih =>
      rw [digitLoop, Tlforce.digitLoop]
      split
      · rfl
      · simp only [ih, Option.map_map]
        rfl

theorem isZero_iff (n : U256) : isZero n = true ↔ n.value = 0 := by
  simp only [isZero, Bool.and_eq_true, beq_iff_eq, Tlforce.Uint256.value, ← UInt64.toNat_inj]
  simp only [UInt64.toNat_ofNat]
  omega

theorem u256ToDec_eq (n : U256) : u256ToDec n = Tlforce.decStr n := by
  have value := Tlforce.bignum_value n
  rw [u256ToDec, Tlforce.decStr]
  by_cases zero : n.value = 0
  · rw [if_pos ((isZero_iff n).mpr zero),
      if_pos ((Tlforce.isZero_iff _).mpr (value.trans zero))]
    rfl
  · rw [if_neg fun none => zero ((isZero_iff n).mp none),
      if_neg fun none => zero (value.symm.trans ((Tlforce.isZero_iff _).mp none)),
      digitLoop_eq, Option.map_map]
    refine congrArg (fun f => Option.map f _) ?_
    funext digits
    exact List.map_reverse.symm

theorem updateSeed_eq (sha : Sha256) (seed : U256) (ch : Char) : updateSeed sha seed ch =
    (u256ToDec { seed with lo0 := seed.lo0 ^^^ Tlforce.unsignedChar ch }).map
      fun dec => Tlforce.Uint256.fromDigest (sha dec).toList := by
  rw [u256ToDec_eq, updateSeed, Tlforce.updateSeed]
  cases Tlforce.decStr { seed with lo0 := seed.lo0 ^^^ Tlforce.unsignedChar ch } <;> rfl

end Eforce

namespace Gpu

def decStr (seed : Seed128) : Option (List UInt8) :=
  let v := [(seed.hi >>> 32).toUInt32, (seed.hi &&& 0xFFFFFFFF).toUInt32,
    (seed.lo >>> 32).toUInt32, (seed.lo &&& 0xFFFFFFFF).toUInt32]
  let tmp := if v.all (· == 0) then some [48] else digitLoop 39 v
  tmp.map List.reverse

theorem dUpdateSeed_eq (sha : Sha256) (seed : Seed128) (ch : Char) : dUpdateSeed sha seed ch =
    (decStr { seed with lo := seed.lo ^^^ ch.toNat.toUInt8.toUInt64 }).map
      fun dec => Seed128.fromHash (sha dec).toList := by
  simp only [dUpdateSeed, decStr]
  split
  · rfl
  · generalize digitLoop 39 _ = tmp
    cases tmp <;> rfl

theorem all_zero_iff (v : List UInt32) :
    v.all (· == 0) = (v.map UInt32.toNat).all (· == 0) := by
  rw [List.all_map]
  congr 1
  funext word
  simp [← UInt32.toNat_inj]

theorem digitLoop_eq (room : Nat) (v : List UInt32) : digitLoop room v =
    (Digits.remainders (2 ^ 32) 10 room (v.map UInt32.toNat)).map
      (List.map fun d => 48 + d.toUInt8) := by
  induction room generalizing v with
  | zero =>
      rw [digitLoop, Digits.remainders, all_zero_iff]
      split <;> rfl
  | succ room ih =>
      rw [digitLoop, Digits.remainders, all_zero_iff]
      split
      · rfl
      · obtain ⟨quotient, last⟩ := divideByTen_eq v (show (0 : UInt64).toNat < 10 by decide)
        have start : (0 : UInt64).toNat = 0 := rfl
        rw [start] at quotient last
        simp only [ih, quotient, ← last, Option.map_map]
        rfl

theorem high_toNat (v : UInt64) : (v >>> 32).toUInt32.toNat = v.toNat / 2 ^ 32 := by
  have bound := v.toNat_lt
  rw [UInt64.toNat_toUInt32, UInt64.toNat_shiftRight, Nat.shiftRight_eq_div_pow]
  change v.toNat / 2 ^ 32 % 2 ^ 32 = _
  omega

theorem low_toNat (v : UInt64) : (v &&& 0xFFFFFFFF).toUInt32.toNat = v.toNat % 2 ^ 32 := by
  rw [UInt64.toNat_toUInt32, UInt64.toNat_and]
  change (v.toNat &&& 2 ^ 32 - 1) % 2 ^ 32 = _
  rw [Nat.and_two_pow_sub_one_eq_mod, Nat.mod_mod]

theorem words_value (seed : Seed128) : Numeral.value (2 ^ 32)
    ([(seed.hi >>> 32).toUInt32, (seed.hi &&& 0xFFFFFFFF).toUInt32,
      (seed.lo >>> 32).toUInt32, (seed.lo &&& 0xFFFFFFFF).toUInt32].map UInt32.toNat) =
    seed.value := by
  simp only [List.map_cons, List.map_nil, high_toNat, low_toNat, Numeral.value, List.foldl_cons,
    List.foldl_nil, Seed128.value]
  omega

theorem decStr_eq (seed : Seed128) : decStr seed = some (decimal seed.value) := by
  have value := words_value seed
  rw [decStr, decimal_eq_written, Digits.written]
  generalize [(seed.hi >>> 32).toUInt32, (seed.hi &&& 0xFFFFFFFF).toUInt32,
    (seed.lo >>> 32).toUInt32, (seed.lo &&& 0xFFFFFFFF).toUInt32] = v at value ⊢
  have zero_iff : v.all (· == 0) = true ↔ seed.value = 0 := by
    rw [all_zero_iff, Digits.all_zero_iff (show 0 < 2 ^ 32 by decide), value]
  simp only [zero_iff]
  split
  · rfl
  · have bound : Numeral.value (2 ^ 32) (v.map UInt32.toNat) < 10 ^ 39 := by
      rw [value]
      exact Nat.lt_trans (value_lt seed) (by decide)
    rw [digitLoop_eq, Digits.remainders_eq (by decide) (by decide) _ bound, value, Option.map_some,
      Option.map_some, List.map_reverse]

end Gpu

/-! The four versions. -/

theorem Treeforce.Seed256.value_lt (seed : Seed256) : seed.value < 2 ^ 256 := by
  have bound := @Numeral.value_lt (2 ^ 32) (seed.data.toList.map UInt32.toNat) (by
    intro d member
    obtain ⟨word, _, rfl⟩ := List.mem_map.mp member
    exact word.toNat_lt)
  rw [List.length_map, Vector.length_toList, Numeral.value, List.foldl_map] at bound
  exact bound

/-- Every loop ends within its buffer and spells the number that it is given, with no zero in
front, and every update of a seed hashes that string. -/
theorem decimal_strings (sha : Sha256) (old : Treeforce.Seed256) (seed : Tlforce.Uint256)
    (small : Gpu.Seed128) (ch : Char) :
    (old.toDecimalString = decimal old.value ∧
      Tlforce.decStr seed = some (decimal seed.value) ∧
      Eforce.u256ToDec seed = some (decimal seed.value) ∧
      Gpu.decStr small = some (decimal small.value)) ∧
    (Tlforce.updateSeed sha seed ch = some (Tlforce.Uint256.fromDigest (sha (decimal
        ({ seed with lo0 := seed.lo0 ^^^ Tlforce.unsignedChar ch } : Tlforce.Uint256).value)).toList) ∧
      Gpu.dUpdateSeed sha small ch = some (Gpu.Seed128.fromHash (sha (decimal
        ({ small with lo := small.lo ^^^ ch.toNat.toUInt8.toUInt64 } : Gpu.Seed128).value)).toList)) ∧
    (∀ v, IsNumeral v (decimal v)) ∧
    ((decimal old.value).length ≤ 78 ∧ (decimal seed.value).length ≤ 78 ∧
      (decimal small.value).length ≤ 39) := by
  have wide (v : Nat) (bound : v < 2 ^ 256) : (decimal v).length ≤ 78 :=
    decimal_length (by decide) (Nat.lt_trans bound (by decide))
  refine ⟨⟨old.toDecimalString_eq, Tlforce.decStr_eq seed, ?_, Gpu.decStr_eq small⟩, ⟨?_, ?_⟩,
    decimal_isNumeral, wide _ old.value_lt, wide _ (Tlforce.value_lt seed),
    decimal_length (by decide) (Nat.lt_trans (Gpu.value_lt small) (by decide))⟩
  · rw [Eforce.u256ToDec_eq, Tlforce.decStr_eq]
  · rw [Tlforce.updateSeed, Tlforce.decStr_eq]
    rfl
  · rw [Gpu.dUpdateSeed_eq, Gpu.decStr_eq, Option.map_some]

end CudaOpenMp
