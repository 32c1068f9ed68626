import CudaOpenMp.Image.SobelBenchmark
import Mathlib.Tactic.IntervalCases

/-!
`sobel_vec4` against `sobel_baseline`. The words of the padded buffer hold the bytes of the image,
but the first four columns and the last group of columns are never drawn.
-/

namespace CudaOpenMp.SobelBenchmark

open Rasters Raster Stores IndexRanges

variable {magnitude : Int → Int → Rat} {input : Nat → UInt8} {w h : Nat} {block : Nat × Nat}

theorem and_not_three {n : Nat} (small : n < 2 ^ 32) :
    (BitVec.ofNat 32 n &&& ~~~3#32).toNat = n / 4 * 4 := by
  have apart : (BitVec.ofNat 32 n &&& ~~~3#32) &&& (BitVec.ofNat 32 n &&& 3#32) = 0#32 := by
    ext i
    simp only [BitVec.getElem_and, BitVec.getElem_not, BitVec.getElem_zero]
    cases (3#32)[i] <;> simp
  have whole : (BitVec.ofNat 32 n &&& ~~~3#32) ||| (BitVec.ofNat 32 n &&& 3#32) =
      BitVec.ofNat 32 n := by
    ext i
    simp only [BitVec.getElem_or, BitVec.getElem_and, BitVec.getElem_not]
    cases (3#32)[i] <;> simp
  have sum := congrArg BitVec.toNat whole
  rw [← BitVec.add_eq_or_of_and_eq_zero _ _ apart, BitVec.toNat_add_of_and_eq_zero apart,
    BitVec.toNat_and _ 3#32, BitVec.toNat_ofNat, Nat.mod_eq_of_lt small] at sum
  have rest : n &&& (3#32).toNat = n % 4 := Nat.and_two_pow_sub_one_eq_mod n 2
  omega

theorem paddedW_eq (small : w + 3 < 2 ^ 31) : paddedW w = (w + 3) / 4 * 4 := by
  rw [paddedW, ← BitVec.ofNat_add, and_not_three (by omega)]

def padding (input : Nat → UInt8) (w : Nat) (p : Pixel) : Option UInt8 :=
  if p.1 < w then some (input (cell w p)) else none

theorem mem_padCopies {a : Statement} : a ∈ padCopies input w h ↔
    ∃ p, Inside w h p ∧ a = assign (cell (paddedW w) p) fun _ => input (cell w p) := by
  simp only [padCopies, List.mem_flatMap, List.mem_map, List.mem_range]
  constructor
  · rintro ⟨y, row, x, column, rfl⟩
    exact ⟨(x, y), ⟨column, row⟩, rfl⟩
  · rintro ⟨p, ⟨column, row⟩, rfl⟩
    exact ⟨p.2, row, p.1, column, rfl⟩

theorem padCopies_pixelwise (wider : w ≤ paddedW w) :
    Pixelwise (paddedW w) h (paint (paddedW w) (padding input w))
      fun _ : Unit => padCopies input w h where
  only := by
    intro _ a member
    obtain ⟨p, ⟨column, row⟩, rfl⟩ := mem_padCopies.mp member
    exact ⟨p, ⟨column.trans_le wider, row⟩, mem_paint.mpr ⟨_, if_pos column, rfl⟩⟩
  all := by
    intro p inside
    refine ⟨(), ?_⟩
    intro a member
    obtain ⟨v, found, rfl⟩ := mem_paint.mp member
    rw [padding] at found
    split at found
    · next column =>
      cases found
      exact mem_padCopies.mpr ⟨p, ⟨column, inside.2⟩, rfl⟩
    · cases found

theorem hPad_cell (wider : w ≤ paddedW w) {p : Pixel} (inside : Inside w h p) :
    hPad input w h (cell (paddedW w) p) = input (cell w p) := by
  rw [hPad, painted_exec (padCopies_pixelwise wider),
    painted_cell ⟨inside.1.trans_le wider, inside.2⟩, padding, if_pos inside.1, Option.getD_some]

theorem strip_getD (bytes : Image) {pitch4 col4 row j : Nat} (later : 1 ≤ col4) (six : j < 6) :
    (strip bytes pitch4 col4 row).getD j 0 =
      bytes (cell (pitch4 * 4) (col4 * 4 + j - 1, row)) := by
  have first : row * (pitch4 * 4) = 4 * (row * pitch4) := by ring
  simp only [strip, loadWord, cell]
  interval_cases j <;> simp only [List.getD_cons_zero, List.getD_cons_succ] <;>
    exact congrArg bytes (by omega)

def Grouped (w : Nat) (p : Pixel) : Prop := 4 ≤ p.1 ∧ p.1 / 4 * 4 + 4 < w

instance (w : Nat) (p : Pixel) : Decidable (Grouped w p) := inferInstanceAs (Decidable (_ ∧ _))

def grouped (w h : Nat) (value : Pixel → UInt8) (p : Pixel) : Option UInt8 :=
  if Interior w h p ∧ Grouped w p then some (value p) else none

theorem strip_window (small : w + 3 < 2 ^ 31) {p : Pixel} (interior : Interior w h p)
    (group : Grouped w p) {dx dy : Int} (columns : -1 ≤ dx ∧ dx ≤ 1) (rows : -1 ≤ dy ∧ dy ≤ 1) :
    (strip (hPad input w h) (paddedW w / 4) (p.1 / 4) (p.2 + dy).toNat).getD
      ((p.1 % 4 : Nat) + 1 + dx).toNat 0 = windowAt input w p dx dy := by
  have padded := paddedW_eq small
  have pitch : paddedW w / 4 * 4 = paddedW w := by omega
  have inside := shift_inside interior columns rows
  obtain ⟨later, _⟩ := group
  have same : (p.1 / 4 * 4 + ((p.1 % 4 : Nat) + 1 + dx).toNat - 1, (p.2 + dy).toNat) =
      shift p dx dy := Prod.ext (by simp only [shift]; omega) rfl
  rw [strip_getD _ (by omega) (by omega), pitch, same]
  exact hPad_cell (by omega) inside

theorem strip_shade (small : w + 3 < 2 ^ 31) {p : Pixel} (interior : Interior w h p)
    (group : Grouped w p) {col4 i : Nat} (column : p.1 / 4 = col4) (lane : p.1 % 4 = i) :
    (shade magnitude fun dx dy => (strip (hPad input w h) (paddedW w / 4) col4
      (p.2 + dy).toNat).getD (i + 1 + dx).toNat 0) = shade magnitude (windowAt input w p) := by
  subst column lane
  apply shade_congr
  intro d member
  obtain ⟨columns, rows⟩ := offsets_small member
  exact strip_window small interior group columns rows

theorem mem_vec4Threads (small : w + 3 < 2 ^ 31)
    {place : Place (gridSize (paddedW w / 4) h block) block} {a : Statement} :
    a ∈ vec4Threads magnitude input w h block place ↔
      ∃ p : Pixel, (p.1 / 4, p.2) = place.pixel ∧
        a ∈ paint w (grouped w h fun p => shade magnitude (windowAt input w p)) p := by
  simp only [vec4Threads, sobelVec4]
  constructor
  · intro member
    split at member
    · cases member
    · next within =>
      obtain ⟨i, four, rfl⟩ := List.mem_map.mp member
      have lane := List.mem_range.mp four
      have interior : Interior w h (place.pixel.1 * 4 + i, place.pixel.2) := by
        simp only [Interior]
        omega
      have group : Grouped w (place.pixel.1 * 4 + i, place.pixel.2) := by
        simp only [Grouped]
        omega
      have column : (place.pixel.1 * 4 + i) / 4 = place.pixel.1 := by omega
      have remainder : (place.pixel.1 * 4 + i) % 4 = i := by omega
      refine ⟨_, Prod.ext column rfl, mem_paint.mpr ⟨_, if_pos ⟨interior, group⟩, ?_⟩⟩
      exact congrArg (fun v => assign _ fun _ => v)
        (strip_shade small interior group column remainder)
  · rintro ⟨p, same, member⟩
    obtain ⟨v, found, rfl⟩ := mem_paint.mp member
    rw [grouped] at found
    split at found
    · next both =>
      obtain ⟨interior, group⟩ := both
      cases found
      obtain ⟨column, row⟩ := Prod.ext_iff.mp same
      simp only at column row
      have whole : place.pixel.1 * 4 + p.1 % 4 = p.1 := by omega
      rw [if_neg (by simp only [Interior, Grouped] at interior group; omega)]
      refine List.mem_map.mpr ⟨p.1 % 4, List.mem_range.mpr (Nat.mod_lt _ (by decide)), ?_⟩
      rw [whole, ← row]
      exact congrArg (fun v => assign _ fun _ => v) (strip_shade small interior group column rfl)
    · cases found

theorem vec4Threads_pixelwise (small : w + 3 < 2 ^ 31) (positive : 0 < block.1 ∧ 0 < block.2) :
    Pixelwise w h (paint w (grouped w h fun p => shade magnitude (windowAt input w p)))
      (vec4Threads magnitude input w h block) where
  only := by
    intro place a member
    obtain ⟨p, _, body⟩ := (mem_vec4Threads small).mp member
    obtain ⟨v, found, rfl⟩ := mem_paint.mp body
    have both : Interior w h p ∧ Grouped w p := by
      by_contra neither
      rw [grouped, if_neg neither] at found
      cases found
    exact ⟨p, both.1.inside, body⟩
  all := by
    intro p inside
    have column : p.1 / 4 < paddedW w / 4 := by
      have left := inside.1
      have padded := paddedW_eq small
      omega
    obtain ⟨place, same⟩ := exists_place positive (⟨column, inside.2⟩ : Inside _ h (p.1 / 4, p.2))
    exact ⟨place, fun a member => (mem_vec4Threads small).mpr ⟨p, same.symm, member⟩⟩

/-- Whatever the output buffers held, `sobel_vec4` leaves the value of `sobel_baseline`. -/
def Agrees (magnitude : Int → Int → Rat) (input : Nat → UInt8) (w h : Nat) (block : Nat × Nat)
    (p : Pixel) : Prop :=
  ∀ v₀ v₁ b₀ b₁ : Image, Launch (vec4Threads magnitude input w h block) v₀ v₁ →
    Launch (sobelBaseline magnitude input w h : Place (gridSize w h block) block → _) b₀ b₁ →
      v₁ (cell w p) = b₁ (cell w p)

theorem agrees_iff_grouped (small : w + 3 < 2 ^ 31) (positive : 0 < block.1 ∧ 0 < block.2)
    {p : Pixel} (interior : Interior w h p) :
    Agrees magnitude input w h block p ↔ Grouped w p := by
  have inside := interior.inside
  have words {v₀ v₁ : Image} (launch : Launch (vec4Threads magnitude input w h block) v₀ v₁) :
      v₁ (cell w p) = if Grouped w p then shade magnitude (windowAt input w p)
        else v₀ (cell w p) := by
    rw [(paint_settles (vec4Threads_pixelwise small positive)).launch launch, painted_cell inside,
      grouped]
    by_cases group : Grouped w p <;> simp [interior, group]
  constructor
  · intro agrees
    by_contra outside
    have ⟨b₁, baseline⟩ := exists_launch
      (sobelBaseline magnitude input w h : Place (gridSize w h block) block → _) fun _ => 0
    have ⟨v₁, vec4⟩ := exists_launch (vec4Threads magnitude input w h block)
      fun index => b₁ index + 1
    have same := agrees _ _ _ _ vec4 baseline
    rw [words vec4, if_neg outside] at same
    exact absurd (UInt8.add_eq_left.mp same) (by decide)
  · intro group v₀ v₁ b₀ b₁ vec4 baseline
    rw [sobelBaseline_eq] at baseline
    rw [words vec4, if_pos group, inner_launch positive baseline interior]

theorem not_grouped_one (y : Nat) : ¬Grouped w (1, y) := by
  simp [Grouped]

/-- The widths are those for which `width + 3` fits the `int` it is computed in. -/
theorem vec4_agrees_iff (small : w + 3 < 2 ^ 31) (positive : 0 < block.1 ∧ 0 < block.2) :
    (∀ p, Interior w h p →
      (Agrees magnitude input w h block p ↔ 4 ≤ p.1 ∧ p.1 / 4 * 4 + 4 < w)) ∧
    ((∀ p, Interior w h p → Agrees magnitude input w h block p) ↔ w ≤ 2 ∨ h ≤ 2) := by
  refine ⟨fun p => agrees_iff_grouped small positive, ?_⟩
  constructor
  · intro agrees
    by_contra large
    have interior : Interior w h (1, 1) := by
      simp only [Interior]
      omega
    exact not_grouped_one 1 ((agrees_iff_grouped small positive interior).mp (agrees _ interior))
  · rintro narrow p ⟨left, right, above, below⟩
    omega

theorem vec4_agrees_iff_ten : (∀ p, Interior 10 3 p →
      (Agrees root stripes 10 3 (32, 8) p ↔ 4 ≤ p.1 ∧ p.1 / 4 * 4 + 4 < 10)) ∧
    ((∀ p, Interior 10 3 p → Agrees root stripes 10 3 (32, 8) p) ↔ 10 ≤ 2 ∨ 3 ≤ 2) :=
  vec4_agrees_iff (by decide) ⟨by decide, by decide⟩

theorem stripes_differs : ¬(∀ p, Interior 3 3 p → Agrees root stripes 3 3 (32, 8) p) ∧
    ∃ v₁ b₁ : Image, Launch (vec4Threads root stripes 3 3 (32, 8)) (fun _ => 0) v₁ ∧
      Launch (sobelBaseline root stripes 3 3 : Place (gridSize 3 3 (32, 8)) (32, 8) → _)
        (fun _ => 0) b₁ ∧
      b₁ (cell 3 (1, 1)) = 100 ∧ v₁ (cell 3 (1, 1)) = 0 := by
  have positive : 0 < (32, 8).1 ∧ 0 < (32, 8).2 := by decide
  have centre : Interior 3 3 (1, 1) := by decide
  constructor
  · intro agrees
    exact not_grouped_one 1 ((agrees_iff_grouped (by decide) positive centre).mp (agrees _ centre))
  · obtain ⟨v₁, vec4⟩ := exists_launch (vec4Threads root stripes 3 3 (32, 8)) fun _ => 0
    obtain ⟨b₁, baseline⟩ := exists_launch
      (sobelBaseline root stripes 3 3 : Place (gridSize 3 3 (32, 8)) (32, 8) → _) fun _ => 0
    refine ⟨v₁, b₁, vec4, baseline, ?_, ?_⟩
    · rw [sobelBaseline_eq] at baseline
      rw [inner_launch positive baseline centre]
      decide +kernel
    · rw [(paint_settles (vec4Threads_pixelwise (by decide) positive)).launch vec4]
      decide +kernel

end CudaOpenMp.SobelBenchmark
