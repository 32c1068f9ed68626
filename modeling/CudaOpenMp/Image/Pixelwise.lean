import CudaOpenMp.Image.Raster
import CudaOpenMp.Library.Stores
import Mathlib.Algebra.Order.Floor.Defs
import Mathlib.Data.Fintype.Prod
import Mathlib.Data.Nat.Sqrt
import Mathlib.Data.Rat.Floor

/-!
Threads that together handle every pixel of an image, and nothing else, and the image that
threads draw which store one byte for each of some pixels.
-/

namespace CudaOpenMp.Raster

open Rasters IndexRanges Stores

variable {α ι : Type} {w h : Nat}

structure Pixelwise (w h : Nat) (body : Pixel → List α) (program : ι → List α) : Prop where
  only : ∀ i, ∀ a ∈ program i, ∃ p, Inside w h p ∧ a ∈ body p
  all : ∀ p, Inside w h p → ∃ i, ∀ a ∈ body p, a ∈ program i

def framed (w h : Nat) (inner frame : Pixel → List α) (p : Pixel) : List α :=
  if Interior w h p then inner p else frame p

theorem interior_or_frame {p : Pixel} (inside : Inside w h p) :
    ¬Interior w h p ↔ (p.2 = 0 ∨ p.2 = h - 1) ∨ p.1 = 0 ∨ p.1 = w - 1 := by
  obtain ⟨column, row⟩ := inside
  simp only [Interior]
  omega

theorem pixelwise_grid {block : Nat × Nat} (positive : 0 < block.1 ∧ 0 < block.2)
    (inner frame : Pixel → List α) :
    Pixelwise w h (framed w h inner frame) fun place : Place (gridSize w h block) block =>
      if Interior w h place.pixel then inner place.pixel
      else if Inside w h place.pixel then frame place.pixel
      else [] where
  only := by
    intro place a member
    split at member
    · next interior => exact ⟨_, interior.inside, by rwa [framed, if_pos interior]⟩
    · next border =>
      split at member
      · next inside => exact ⟨_, inside, by rwa [framed, if_neg border]⟩
      · cases member
  all := by
    intro p inside
    obtain ⟨place, same⟩ := exists_place positive inside
    refine ⟨place, ?_⟩
    rw [same, framed]
    intro a member
    by_cases interior : Interior w h p
    · rwa [if_pos interior] at member ⊢
    · rw [if_neg interior] at member ⊢
      rwa [if_pos inside]

/-- Threads with ranges of rows, which treat the frame apart. -/
def rowLoop (w h : Nat) (inner frame : Pixel → List α) (first last : Nat) : List α :=
  (indices first last).flatMap fun y =>
    if y = 0 ∨ y = h - 1 then (List.range w).flatMap fun x => frame (x, y)
    else (List.range w).flatMap fun x =>
      if x = 0 ∨ x = w - 1 then frame (x, y) else inner (x, y)

theorem mem_rowLoop {inner frame : Pixel → List α} {first last : Nat} (bound : last ≤ h) {a : α} :
    a ∈ rowLoop w h inner frame first last ↔
      ∃ p : Pixel, p.1 < w ∧ (first ≤ p.2 ∧ p.2 < last) ∧ a ∈ framed w h inner frame p := by
  have body {p : Pixel} (inside : Inside w h p) : framed w h inner frame p =
      if p.2 = 0 ∨ p.2 = h - 1 then frame p
      else if p.1 = 0 ∨ p.1 = w - 1 then frame p else inner p := by
    rw [framed]
    by_cases interior : Interior w h p
    · have apart := (interior_or_frame inside).not.mp (not_not_intro interior)
      rw [if_pos interior, if_neg fun row => apart (Or.inl row),
        if_neg fun column => apart (Or.inr column)]
    · rw [if_neg interior]
      rcases (interior_or_frame inside).mp interior with row | column
      · rw [if_pos row]
      · rw [if_pos column, ite_self]
  simp only [rowLoop, List.mem_flatMap, mem_indices]
  constructor
  · rintro ⟨y, range, member⟩
    split at member
    · next row =>
      obtain ⟨x, column, member⟩ := List.mem_flatMap.mp member
      refine ⟨(x, y), List.mem_range.mp column, range, ?_⟩
      rwa [body ⟨List.mem_range.mp column, range.2.trans_le bound⟩, if_pos row]
    · next row =>
      obtain ⟨x, column, member⟩ := List.mem_flatMap.mp member
      refine ⟨(x, y), List.mem_range.mp column, range, ?_⟩
      rwa [body ⟨List.mem_range.mp column, range.2.trans_le bound⟩, if_neg row]
  · rintro ⟨⟨x, y⟩, column, range, member⟩
    rw [body ⟨column, range.2.trans_le bound⟩] at member
    refine ⟨y, range, ?_⟩
    split
    · next row =>
      rw [if_pos row] at member
      exact List.mem_flatMap.mpr ⟨x, List.mem_range.mpr column, member⟩
    · next row =>
      rw [if_neg row] at member
      exact List.mem_flatMap.mpr ⟨x, List.mem_range.mpr column, member⟩

theorem pixelwise_rows {n : Nat} (positive : 0 < n) (inner frame : Pixel → List α) :
    Pixelwise w h (framed w h inner frame) fun t : Fin n =>
      rowLoop w h inner frame (yStart n h t) (yEnd n h t) where
  only := by
    intro t a member
    obtain ⟨p, column, range, body⟩ := (mem_rowLoop (yEnd_le t.isLt)).mp member
    exact ⟨p, ⟨column, range.2.trans_le (yEnd_le t.isLt)⟩, body⟩
  all := by
    intro p inside
    obtain ⟨t, thread, row⟩ := exists_hasRow positive inside.2
    refine ⟨⟨t, thread⟩, ?_⟩
    intro a member
    exact (mem_rowLoop (yEnd_le thread)).mpr ⟨p, inside.1, row, member⟩

/-! Drawing. -/

abbrev Image := Memory fun _ : Nat => UInt8

abbrev Statement := Assign fun _ : Nat => UInt8

def toByte (mag : Rat) : UInt8 := UInt8.ofNat ⌊if 255 < mag then 255 else mag⌋.toNat

def paint (w : Nat) (value : Pixel → Option UInt8) (p : Pixel) : List Statement :=
  match value p with
  | some v => [assign (cell w p) fun _ => v]
  | none => []

def painted (w h : Nat) (value : Pixel → Option UInt8) (start : Image) : Image := fun index =>
  if index < w * h then (value (pixelOf w index)).getD (start index) else start index

theorem mem_paint {value : Pixel → Option UInt8} {p : Pixel} {a : Statement} :
    a ∈ paint w value p ↔ ∃ v, value p = some v ∧ a = assign (cell w p) fun _ => v := by
  rw [paint]
  split
  · next v found => simp [found]
  · next found => simp [found]

theorem painted_cell {value : Pixel → Option UInt8} {start : Image} {p : Pixel}
    (inside : Inside w h p) :
    painted w h value start (cell w p) = (value p).getD (start (cell w p)) := by
  rw [painted, if_pos (cell_lt inside), pixelOf_cell inside]

theorem paint_settles {value : Pixel → Option UInt8} {program : ι → List Statement} {start : Image}
    (pixelwise : Pixelwise w h (paint w value) program) :
    Settles program start (painted w h value start) where
  value := by
    intro i a member m _
    obtain ⟨p, inside, body⟩ := pixelwise.only i a member
    obtain ⟨v, found, rfl⟩ := mem_paint.mp body
    simp only [assign, painted_cell inside, found, Option.getD_some, true_or]
  rest := by
    intro index free
    by_cases below : index < w * h
    · obtain ⟨p, inside, rfl⟩ := exists_pixel below
      obtain ⟨i, all⟩ := pixelwise.all p inside
      rw [painted_cell inside]
      cases found : value p with
      | none => rfl
      | some v => exact (free ⟨i, _, all _ (mem_paint.mpr ⟨v, found, rfl⟩), rfl⟩).elim
    · rw [painted, if_neg below]

theorem painted_exec {value : Pixel → Option UInt8} {program : List Statement} {start : Image}
    (pixelwise : Pixelwise w h (paint w value) fun _ : Unit => program) :
    exec program start = painted w h value start :=
  (paint_settles pixelwise).exec

/-- The exact root of a sum of squares that is a square. -/
def root (dx dy : Int) : Rat := Nat.sqrt (dx * dx + dy * dy).toNat

end CudaOpenMp.Raster
