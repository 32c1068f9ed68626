import CudaOpenMp.Cipher.Charset
import CudaOpenMp.Library.IndexRanges
import CudaOpenMp.Library.Radix
import Mathlib.Data.List.Nodup

/-!
The keys of one length in counting order, and the pieces into which the searches cut
them. The loops that spell a number in base 36 fill a key from its last place.
-/

namespace CudaOpenMp.KeySpace

/-- The key with a given number, its digits spelled highest first. -/
def key (length number : Nat) : List Char := ((Radix.lowDigits 36 length number).reverse).map chr

def keys (length : Nat) : List (List Char) := (List.range (36 ^ length)).map (key length)

@[simp] theorem key_length (length number : Nat) : (key length number).length = length := by
  simp [key]

theorem key_over (length number : Nat) : OverCharset (key length number) := by
  apply overCharset_map_chr
  intro digit member
  exact Radix.lowDigits_lt (by decide) length number digit (List.mem_reverse.mp member)

theorem key_inj {length first second : Nat} (firstBound : first < 36 ^ length)
    (secondBound : second < 36 ^ length) (same : key length first = key length second) :
    first = second := by
  have small (number : Nat) : ∀ d ∈ (Radix.lowDigits 36 length number).reverse, d < 36 :=
    fun d member => Radix.lowDigits_lt (by decide) length number d (List.mem_reverse.mp member)
  have digits := List.reverse_inj.mp (map_chr_inj (small first) (small second) same)
  exact Radix.lowDigits_inj firstBound secondBound digits

theorem exists_number {text : List Char} (inCharset : OverCharset text) :
    ∃ number < 36 ^ text.length, key text.length number = text := by
  obtain ⟨digits, small, rfl⟩ := inCharset.exists_indices
  have reversed : ∀ d ∈ digits.reverse, d < 36 := fun d member => small d (List.mem_reverse.mp member)
  refine ⟨Radix.lowValue 36 digits.reverse, ?_, ?_⟩
  · simpa using Radix.lowValue_lt digits.reverse reversed
  · have spelled := Radix.lowDigits_lowValue digits.reverse reversed
    rw [List.length_reverse] at spelled
    rw [key, List.length_map, spelled, List.reverse_reverse]

theorem mem_keys {length : Nat} {text : List Char} :
    text ∈ keys length ↔ OverCharset text ∧ text.length = length := by
  simp only [keys, List.mem_map, List.mem_range]
  constructor
  · rintro ⟨number, _, rfl⟩
    exact ⟨key_over length number, key_length length number⟩
  · rintro ⟨inCharset, rfl⟩
    exact exists_number inCharset

theorem keys_nodup (length : Nat) : (keys length).Nodup := by
  apply List.Nodup.map_on _ List.nodup_range
  intro first firstMember second secondMember
  exact key_inj (List.mem_range.mp firstMember) (List.mem_range.mp secondMember)

/-! The loops of the searches. -/

/-- The loop `for i = length - 1 .. 0` that takes the digits of `idx`. -/
def fillDigits : Nat → UInt64 → List Nat
  | 0, _ => []
  | length + 1, idx => fillDigits length (idx / 36) ++ [(idx % 36).toNat]

theorem fillDigits_eq (length : Nat) (idx : UInt64) :
    fillDigits length idx = (Radix.lowDigits 36 length idx.toNat).reverse := by
  induction length generalizing idx with
  | zero => rfl
  | succ length ih =>
      rw [fillDigits, ih, UInt64.toNat_div, UInt64.toNat_mod, Radix.lowDigits, List.reverse_cons]
      rfl

theorem fillDigits_chr (length : Nat) (idx : UInt64) :
    (fillDigits length idx).map chr = key length idx.toNat := by
  rw [fillDigits_eq, key]

/-- The half-open piece of the numbers that one thread is given. -/
structure Chunk where
  first : UInt64
  last : UInt64
  deriving DecidableEq, Repr

def Chunk.numbers (chunk : Chunk) : List Nat :=
  IndexRanges.indices chunk.first.toNat chunk.last.toNat

/-- The loop over the threads with chunks of `ceil(count / numThreads)` numbers; it breaks at
the first chunk that would start past the end. -/
def ceilChunks (count numThreads : UInt64) : List Chunk :=
  let size := (count + numThreads - 1) / numThreads
  ((List.range numThreads.toNat).map fun t =>
    (⟨UInt64.ofNat t * size, min (UInt64.ofNat t * size + size) count⟩ : Chunk)).takeWhile
      fun chunk => chunk.first < count

theorem toNat_min (a b : UInt64) : (min a b).toNat = min a.toNat b.toNat := by
  have pick : min a b = if a ≤ b then a else b := rfl
  rw [pick]
  split
  · next below => exact (Nat.min_eq_left (UInt64.le_iff_toNat_le.mp below)).symm
  · next above =>
    rw [UInt64.le_iff_toNat_le] at above
    omega

def ceilSize (count numThreads : UInt64) : Nat :=
  (count.toNat + numThreads.toNat - 1) / numThreads.toNat

section
variable {count numThreads : UInt64} (positive : 1 ≤ numThreads.toNat)
  (few : numThreads.toNat < 2 ^ 32) (small : count.toNat < 2 ^ 31)
include positive few small

theorem ceilSize_eq :
    ((count + numThreads - 1) / numThreads).toNat = ceilSize count numThreads ∧
      ceilSize count numThreads < 2 ^ 31 := by
  have sum : (count + numThreads).toNat = count.toNat + numThreads.toNat := by
    rw [UInt64.toNat_add]
    omega
  have pred : (count + numThreads - 1).toNat = count.toNat + numThreads.toNat - 1 := by
    rw [UInt64.toNat_sub_of_le _ _ (UInt64.le_iff_toNat_le.mpr _), sum]
    · rfl
    · rw [sum]
      change 1 ≤ _
      omega
  constructor
  · rw [UInt64.toNat_div, pred, ceilSize]
  · have step : count.toNat + numThreads.toNat - 1 < 2 ^ 31 * numThreads.toNat := by
      have scaled := Nat.mul_le_mul_left (2 ^ 31 - 1) positive
      omega
    exact Nat.div_lt_of_lt_mul (by rwa [Nat.mul_comm] at step)

theorem ceilChunk_eq {t : Nat} (bound : t < numThreads.toNat) :
    let size := (count + numThreads - 1) / numThreads
    (UInt64.ofNat t * size).toNat = t * ceilSize count numThreads ∧
      (min (UInt64.ofNat t * size + size) count).toNat =
        min (t * ceilSize count numThreads + ceilSize count numThreads) count.toNat := by
  intro size
  obtain ⟨sizeEq, sizeSmall⟩ := ceilSize_eq positive few small
  have index : (UInt64.ofNat t).toNat = t := UInt64.toNat_ofNat_of_lt' (show t < 2 ^ 64 by omega)
  have room : t * ceilSize count numThreads ≤ (2 ^ 32 - 1) * (2 ^ 31 - 1) :=
    Nat.mul_le_mul (by omega) (by omega)
  have first : (UInt64.ofNat t * size).toNat = t * ceilSize count numThreads := by
    rw [UInt64.toNat_mul, index, sizeEq]
    omega
  refine ⟨first, ?_⟩
  rw [toNat_min, UInt64.toNat_add, first, sizeEq]
  omega

theorem ceilChunks_numbers :
    (ceilChunks count numThreads).flatMap Chunk.numbers = List.range count.toNat := by
  have covers := IndexRanges.le_mul_ceil_div count.toNat numThreads.toNat positive
  rw [← IndexRanges.flatMap_chunks covers, ceilChunks, List.takeWhile_map, List.flatMap_map]
  have guards : ∀ t ∈ List.range numThreads.toNat,
      ((fun chunk : Chunk => decide (chunk.first < count)) ∘ fun t =>
        (⟨UInt64.ofNat t * ((count + numThreads - 1) / numThreads),
          min (UInt64.ofNat t * ((count + numThreads - 1) / numThreads) +
            (count + numThreads - 1) / numThreads) count⟩ : Chunk)) t =
      decide (t * ceilSize count numThreads < count.toNat) := by
    intro t member
    have facts := ceilChunk_eq positive few small (List.mem_range.mp member)
    simp only [Function.comp_apply, UInt64.lt_iff_toNat_lt, facts.1]
  rw [IndexRanges.takeWhile_congr guards]
  apply List.flatMap_congr
  intro t member
  have bound := List.mem_range.mp (List.takeWhile_subset _ member)
  have facts := ceilChunk_eq positive few small bound
  simp only [Chunk.numbers, facts.1, facts.2]
  rfl

theorem ceilChunks_bounds {chunk : Chunk} (member : chunk ∈ ceilChunks count numThreads) :
    chunk.first.toNat ≤ chunk.last.toNat ∧ chunk.last.toNat ≤ count.toNat := by
  have inside := List.mem_takeWhile_imp member
  obtain ⟨t, belongs, rfl⟩ := List.mem_map.mp (List.takeWhile_subset _ member)
  have facts := ceilChunk_eq positive few small (List.mem_range.mp belongs)
  simp only [decide_eq_true_eq, UInt64.lt_iff_toNat_lt] at inside
  simp only [facts.1, facts.2] at inside ⊢
  omega

end

end CudaOpenMp.KeySpace
