import CudaOpenMp.Library.Raster
import Mathlib.Data.UInt

/-!
The interior pixels, ranges of rows for each thread, and the two sums over a pixel and its
neighbours that all Sobel loops form.
-/

namespace CudaOpenMp.Raster

open Rasters IndexRanges

def interiorPixels (w h : Nat) : List Pixel :=
  (indices 1 (h - 1)).flatMap fun y => (indices 1 (w - 1)).map fun x => (x, y)

theorem mem_interiorPixels {w h : Nat} {p : Pixel} : p ∈ interiorPixels w h ↔ Interior w h p := by
  obtain ⟨x, y⟩ := p
  simp only [interiorPixels, List.mem_flatMap, mem_indices]
  constructor
  · rintro ⟨row, ⟨above, below⟩, member⟩
    obtain ⟨column, bounds, same⟩ := List.mem_map.mp member
    obtain ⟨left, right⟩ := mem_indices.mp bounds
    cases same
    exact ⟨left, right, above, below⟩
  · rintro ⟨left, right, above, below⟩
    exact ⟨y, ⟨above, below⟩, List.mem_map_of_mem (mem_indices.mpr ⟨left, right⟩)⟩

abbrev Window := Int → Int → UInt8

def gradX (window : Window) : Int :=
  let value (dx dy : Int) : Int := (window dx dy).toNat
  (-1 * value (-1) (-1)) + (1 * value 1 (-1)) +
    (-2 * value (-1) 0) + (2 * value 1 0) +
    (-1 * value (-1) 1) + (1 * value 1 1)

def gradY (window : Window) : Int :=
  let value (dx dy : Int) : Int := (window dx dy).toNat
  (-1 * value (-1) (-1)) + (-2 * value 0 (-1)) + (-1 * value 1 (-1)) +
    (1 * value (-1) 1) + (2 * value 0 1) + (1 * value 1 1)

def windowAt (input : Nat → UInt8) (w : Nat) (p : Pixel) : Window :=
  fun dx dy => input (cell w (shift p dx dy))

/-! The rows `[y_start, y_end)` of each of `n` threads. -/

def yStart (n h t : Nat) : Nat := t * (h / n)

def yEnd (n h t : Nat) : Nat := if t = n - 1 then h else yStart n h t + h / n

def HasRow (n h t y : Nat) : Prop := yStart n h t ≤ y ∧ y < yEnd n h t

theorem yEnd_le {n h t : Nat} (thread : t < n) : yEnd n h t ≤ h := by
  rw [yEnd]
  split
  · exact Nat.le_refl h
  · have whole := Nat.mul_le_mul_right (h / n) (by omega : t + 1 ≤ n)
    rw [Nat.succ_mul] at whole
    exact whole.trans (Nat.mul_div_le h n)

theorem yEnd_le_yStart {n h first second : Nat} (before : first < second) (thread : second < n) :
    yEnd n h first ≤ yStart n h second := by
  rw [yEnd, if_neg (by omega), yStart, yStart, ← Nat.succ_mul]
  exact Nat.mul_le_mul_right _ before

theorem exists_hasRow {n h y : Nat} (positive : 0 < n) (row : y < h) : ∃ t < n, HasRow n h t y := by
  by_cases last : yStart n h (n - 1) ≤ y
  · exact ⟨n - 1, by omega, last, by rwa [yEnd, if_pos rfl]⟩
  · have early := Nat.not_le.mp last
    have some : 0 < h / n := by
      apply Nat.pos_of_ne_zero
      intro none
      simp [yStart, none] at early
    have thread : y / (h / n) < n - 1 := Nat.div_lt_of_lt_mul (by rwa [Nat.mul_comm])
    refine ⟨y / (h / n), by omega, Nat.div_mul_le_self y _, ?_⟩
    rw [yEnd, if_neg (by omega), yStart, ← Nat.succ_mul, Nat.mul_comm]
    exact Nat.lt_mul_div_succ y some

theorem existsUnique_hasRow {n h y : Nat} (positive : 0 < n) (row : y < h) :
    ∃! t : Fin n, HasRow n h t y := by
  obtain ⟨t, thread, lower, upper⟩ := exists_hasRow positive row
  refine ⟨⟨t, thread⟩, ⟨lower, upper⟩, ?_⟩
  rintro ⟨other, bound⟩ ⟨start, stop⟩
  apply Fin.ext
  rcases Nat.lt_trichotomy other t with before | same | after
  · exact absurd (lower.trans_lt stop) (yEnd_le_yStart before thread).not_gt
  · exact same
  · exact absurd (start.trans_lt upper) (yEnd_le_yStart after bound).not_gt

end CudaOpenMp.Raster
