import CudaOpenMp.Image.Pixelwise

/-!
The three Sobel loops of `sobol compare.cu`. They treat the frame in three ways, and still
fill every image alike. The magnitude of a gradient is a parameter.
-/

namespace CudaOpenMp.SobolCompare

open Rasters Raster Stores IndexRanges

def numThreads : Nat := 8

section
variable (magnitude : Int → Int → Rat) (input : Nat → UInt8) (w h : Nat)

def shadeAt (p : Pixel) : UInt8 :=
  toByte (magnitude (gradX (windowAt input w p)) (gradY (windowAt input w p)))

def storeShade (p : Pixel) : List Statement :=
  [assign (cell w p) fun _ => shadeAt magnitude input w p]

def clear (p : Pixel) : List Statement := [assign (cell w p) fun _ => (0 : UInt8)]

def sobelKernelGpu (place : Place (gridSize w h (16, 16)) (16, 16)) : List Statement :=
  let p := place.pixel
  if Interior w h p then storeShade magnitude input w p
  else if Inside w h p then clear w p
  else []

/-- Clearing `size` bytes from a position on. -/
def memset (first size : Nat) : List Statement :=
  (List.range size).map fun index => assign (first + index) fun _ => (0 : UInt8)

def cpuSobel : List Statement :=
  memset 0 (w * h) ++ (interiorPixels w h).flatMap (storeShade magnitude input w)

def pthreadSobel (first last : Nat) : List Statement :=
  (indices first last).flatMap fun y =>
    if y = 0 ∨ y = h - 1 then memset (y * w) w
    else [assign (y * w) fun _ => (0 : UInt8), assign (y * w + w - 1) fun _ => (0 : UInt8)] ++
      (indices 1 (w - 1)).flatMap fun x => storeShade magnitude input w (x, y)

def threads (t : Fin numThreads) : List Statement :=
  pthreadSobel magnitude input w h (yStart numThreads h t) (yEnd numThreads h t)

end

variable {magnitude : Int → Int → Rat} {input : Nat → UInt8} {w h : Nat}

def shade (magnitude : Int → Int → Rat) (input : Nat → UInt8) (w h : Nat) (p : Pixel) :
    Option UInt8 :=
  some (if Interior w h p then shadeAt magnitude input w p else 0)

theorem framed_eq_paint : framed w h (storeShade magnitude input w) (clear w) =
    paint w (shade magnitude input w h) := by
  funext p
  rw [framed, paint, shade]
  by_cases interior : Interior w h p
  · simp only [if_pos interior, storeShade]
  · simp only [if_neg interior, clear]

theorem mem_framed {p : Pixel} {a : Statement} :
    a ∈ framed w h (storeShade magnitude input w) (clear w) p ↔
      a = assign (cell w p) fun _ =>
        if Interior w h p then shadeAt magnitude input w p else 0 := by
  rw [framed_eq_paint, mem_paint]
  simp only [shade, Option.some.injEq, exists_eq_left']

/-! The single thread. -/

theorem memset_pixelwise : Pixelwise w h (paint w fun _ => some 0) fun _ : Unit => memset 0 (w * h) where
  only := by
    intro _ a member
    obtain ⟨index, range, rfl⟩ := List.mem_map.mp member
    obtain ⟨p, inside, rfl⟩ := exists_pixel (List.mem_range.mp range)
    exact ⟨p, inside, mem_paint.mpr ⟨0, rfl, by rw [Nat.zero_add]⟩⟩
  all := by
    intro p inside
    refine ⟨(), ?_⟩
    rintro a member
    obtain ⟨v, found, rfl⟩ := mem_paint.mp member
    cases found
    refine List.mem_map.mpr ⟨cell w p, List.mem_range.mpr (cell_lt inside), ?_⟩
    rw [Nat.zero_add]

theorem inner_pixelwise : Pixelwise w h
    (paint w fun p => if Interior w h p then some (shadeAt magnitude input w p) else none)
    fun _ : Unit => (interiorPixels w h).flatMap (storeShade magnitude input w) where
  only := by
    intro _ a member
    obtain ⟨p, inner, body⟩ := List.mem_flatMap.mp member
    have interior := mem_interiorPixels.mp inner
    exact ⟨p, interior.inside, mem_paint.mpr ⟨_, if_pos interior, List.mem_singleton.mp body⟩⟩
  all := by
    intro p inside
    refine ⟨(), ?_⟩
    rintro a member
    obtain ⟨v, found, rfl⟩ := mem_paint.mp member
    split at found
    · next interior =>
      cases found
      exact List.mem_flatMap.mpr ⟨p, mem_interiorPixels.mpr interior, List.mem_singleton_self _⟩
    · cases found

theorem cpuSobel_exec (start : Image) : exec (cpuSobel magnitude input w h) start =
    painted w h (shade magnitude input w h) start := by
  rw [cpuSobel, exec_append, painted_exec memset_pixelwise, painted_exec inner_pixelwise]
  funext index
  simp only [painted, shade]
  by_cases below : index < w * h
  · by_cases interior : Interior w h (pixelOf w index) <;> simp [below, interior]
  · simp only [if_neg below]

/-! The pthreads. -/

theorem mem_memset_row {y : Nat} {a : Statement} :
    a ∈ memset (y * w) w ↔ ∃ x < w, a = assign (cell w (x, y)) fun _ => 0 := by
  simp only [memset, List.mem_map, List.mem_range, cell]
  constructor
  · rintro ⟨x, column, rfl⟩
    exact ⟨x, column, rfl⟩
  · rintro ⟨x, column, rfl⟩
    exact ⟨x, column, rfl⟩

theorem mem_pthreadSobel (wide : 1 ≤ w) {first last : Nat} (bound : last ≤ h) {a : Statement} :
    a ∈ pthreadSobel magnitude input w h first last ↔
      ∃ p : Pixel, p.1 < w ∧ (first ≤ p.2 ∧ p.2 < last) ∧
        a ∈ framed w h (storeShade magnitude input w) (clear w) p := by
  simp only [pthreadSobel, List.mem_flatMap, mem_indices, mem_framed]
  constructor
  · rintro ⟨y, range, member⟩
    have row : y < h := range.2.trans_le bound
    have frame {x : Nat} (column : x < w) (border : (y = 0 ∨ y = h - 1) ∨ x = 0 ∨ x = w - 1) :
        ¬Interior w h (x, y) := (interior_or_frame ⟨column, row⟩).mpr border
    split at member
    · next edge =>
      obtain ⟨x, column, rfl⟩ := mem_memset_row.mp member
      refine ⟨(x, y), column, range, ?_⟩
      simp only [if_neg (frame column (Or.inl edge))]
    · next middle =>
      rcases List.mem_append.mp member with ends | inner
      · rcases List.mem_pair.mp ends with rfl | rfl
        · refine ⟨(0, y), wide, range, ?_⟩
          simp only [if_neg (frame wide (Or.inr (Or.inl rfl)))]
          rfl
        · refine ⟨(w - 1, y), Nat.sub_lt wide Nat.one_pos, range, ?_⟩
          simp only [if_neg (frame (Nat.sub_lt wide Nat.one_pos) (Or.inr (Or.inr rfl))), cell,
            Nat.add_sub_assoc wide]
      · obtain ⟨x, column, single⟩ := List.mem_flatMap.mp inner
        obtain ⟨left, right⟩ := mem_indices.mp column
        have interior : Interior w h (x, y) := by
          simp only [Interior]
          omega
        refine ⟨(x, y), by simp only; omega, range, ?_⟩
        simp only [if_pos interior]
        exact List.mem_singleton.mp single
  · rintro ⟨⟨x, y⟩, column, range, rfl⟩
    have inside : Inside w h (x, y) := ⟨column, range.2.trans_le bound⟩
    refine ⟨y, range, ?_⟩
    split
    · next edge =>
      have frame := (interior_or_frame inside).mpr (Or.inl edge)
      simp only [if_neg frame]
      exact mem_memset_row.mpr ⟨x, column, rfl⟩
    · next middle =>
      by_cases interior : Interior w h (x, y)
      · simp only [if_pos interior]
        refine List.mem_append_right _ (List.mem_flatMap.mpr ⟨x, ?_, List.mem_singleton_self _⟩)
        exact mem_indices.mpr ⟨interior.1, interior.2.1⟩
      · simp only [if_neg interior]
        apply List.mem_append_left
        rcases ((interior_or_frame inside).mp interior).resolve_left middle with left | right
        · simp only at left
          subst left
          exact List.mem_pair.mpr (Or.inl rfl)
        · simp only at right
          subst right
          refine List.mem_pair.mpr (Or.inr ?_)
          rw [cell, Nat.add_sub_assoc wide]

theorem threads_pixelwise (wide : 1 ≤ w) :
    Pixelwise w h (framed w h (storeShade magnitude input w) (clear w))
      (threads magnitude input w h) where
  only := by
    intro t a member
    obtain ⟨p, column, range, body⟩ := (mem_pthreadSobel wide (yEnd_le t.isLt)).mp member
    exact ⟨p, ⟨column, range.2.trans_le (yEnd_le t.isLt)⟩, body⟩
  all := by
    intro p inside
    obtain ⟨t, thread, row⟩ := exists_hasRow (by decide : 0 < numThreads) inside.2
    refine ⟨⟨t, thread⟩, ?_⟩
    intro a member
    exact (mem_pthreadSobel wide (yEnd_le thread)).mpr ⟨p, inside.1, row, member⟩

theorem writes_row_iff (wide : 1 ≤ w) (t : Fin numThreads) (y : Nat) :
    (∃ a ∈ threads magnitude input w h t, a.loc / w = y) ↔ HasRow numThreads h t y := by
  constructor
  · rintro ⟨a, member, rfl⟩
    obtain ⟨p, column, range, body⟩ := (mem_pthreadSobel wide (yEnd_le t.isLt)).mp member
    rw [mem_framed.mp body]
    simp only [assign, cell_div column]
    exact range
  · intro row
    refine ⟨_, (mem_pthreadSobel wide (yEnd_le t.isLt)).mpr ⟨(0, y), wide, row, mem_framed.mpr rfl⟩, ?_⟩
    exact @cell_div w (0, y) wide

/-- The three images are equal, and each row of the last one has one thread. -/
theorem outputs_agree (wide : 1 ≤ w) {g₀ g₁ p₀ p₁ : Image}
    (gpu : Launch (sobelKernelGpu magnitude input w h) g₀ g₁)
    (pthread : Dispatch (threads magnitude input w h) p₀ p₁) (c₀ : Image) :
    (∀ index < w * h, g₁ index = exec (cpuSobel magnitude input w h) c₀ index ∧
      p₁ index = exec (cpuSobel magnitude input w h) c₀ index) ∧
    ∀ y < h, ∃! t : Fin numThreads, ∃ a ∈ threads magnitude input w h t, a.loc / w = y := by
  have blocks := @pixelwise_grid Statement w h (16, 16) ⟨by decide, by decide⟩
    (storeShade magnitude input w) (clear w)
  have slices := @threads_pixelwise magnitude input w h wide
  rw [framed_eq_paint] at blocks slices
  have grid := (paint_settles blocks).launch gpu
  have rows := (paint_settles slices).launch pthread.launch
  constructor
  · intro index below
    rw [grid, rows, cpuSobel_exec]
    simp only [painted, if_pos below, shade, Option.getD_some, and_self]
  · intro y row
    simp only [writes_row_iff wide]
    exact existsUnique_hasRow (by decide) row

def column (index : Nat) : UInt8 := if index % 3 = 2 then 25 else 0

theorem outputs_agree_column : ∃ g₁ p₁ : Image,
    Launch (sobelKernelGpu root column 3 3) (fun _ => 9) g₁ ∧
    Dispatch (threads root column 3 3) (fun _ => 7) p₁ ∧
    (∀ index < 3 * 3, g₁ index = exec (cpuSobel root column 3 3) (fun _ => 5) index ∧
      p₁ index = exec (cpuSobel root column 3 3) (fun _ => 5) index) ∧
    ∀ y < 3, ∃! t : Fin numThreads, ∃ a ∈ threads root column 3 3 t, a.loc / 3 = y := by
  obtain ⟨g₁, gpu⟩ := exists_launch (sobelKernelGpu root column 3 3) fun _ => 9
  obtain ⟨p₁, pthread⟩ := exists_dispatch (threads root column 3 3) fun _ => 7
  exact ⟨g₁, p₁, gpu, pthread, outputs_agree (by decide) gpu pthread fun _ => 5⟩

end CudaOpenMp.SobolCompare
