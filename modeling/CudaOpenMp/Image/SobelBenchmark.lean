import CudaOpenMp.Image.SobelBenchmarkCore

/-!
The kernels of `sobel_benchmark.cu` against the first of them: the texture, the read-only cache
and the tiles in shared memory change nothing at the interior pixels.
-/

namespace CudaOpenMp.SobelBenchmark

open Rasters Raster Stores IndexRanges Tiling

variable {magnitude : Int → Int → Rat} {input : Nat → UInt8} {w h : Nat} {block : Nat × Nat}

theorem shade_congr {first second : Window}
    (same : ∀ d ∈ offsets, first d.1 d.2 = second d.1 d.2) :
    shade magnitude first = shade magnitude second := by
  simp only [offsets, List.forall_mem_cons, List.not_mem_nil, false_implies, implies_true,
    and_true] at same
  obtain ⟨a, b, c, d, e, f, g, i⟩ := same
  simp only [shade, gradX, gradY, a, b, c, d, e, f, g, i]

theorem offsets_small {d : Int × Int} (member : d ∈ offsets) :
    (-1 ≤ d.1 ∧ d.1 ≤ 1) ∧ -1 ≤ d.2 ∧ d.2 ≤ 1 := by
  revert d
  decide

def inner (w h : Nat) (value : Pixel → UInt8) (p : Pixel) : Option UInt8 :=
  if Interior w h p then some (value p) else none

theorem guard_iff (x y : Nat) :
    (x < 1 ∨ x ≥ w - 1 ∨ y < 1 ∨ y ≥ h - 1) ↔ ¬Interior w h (x, y) := by
  simp only [Interior]
  omega

theorem paint_inner (value : Pixel → UInt8) (p : Pixel) : paint w (inner w h value) p =
    if Interior w h p then [assign (cell w p) fun _ => value p] else [] := by
  by_cases interior : Interior w h p <;> simp [paint, inner, interior]

theorem inner_pixelwise (positive : 0 < block.1 ∧ 0 < block.2) (value : Pixel → UInt8) :
    Pixelwise w h (paint w (inner w h value)) fun place : Place (gridSize w h block) block =>
      paint w (inner w h value) place.pixel where
  only := by
    intro place a member
    have interior : Interior w h place.pixel := by
      by_contra border
      rw [paint_inner, if_neg border] at member
      cases member
    exact ⟨_, interior.inside, member⟩
  all := by
    intro p inside
    obtain ⟨place, same⟩ := exists_place positive inside
    exact ⟨place, fun a member => by rwa [same]⟩

theorem inner_launch (positive : 0 < block.1 ∧ 0 < block.2) {value : Pixel → UInt8}
    {before after : Image}
    (launch : Launch (fun place : Place (gridSize w h block) block =>
      paint w (inner w h value) place.pixel) before after)
    {p : Pixel} (interior : Interior w h p) : after (cell w p) = value p := by
  rw [(paint_settles (inner_pixelwise positive value)).launch launch,
    painted_cell interior.inside, inner, if_pos interior, Option.getD_some]

/-! One pixel for each thread. -/

theorem sobelBaseline_eq {grid : Nat × Nat} :
    (sobelBaseline magnitude input w h : Place grid block → List Statement) = fun place =>
      paint w (inner w h fun p => shade magnitude (windowAt input w p)) place.pixel := by
  funext place
  rw [sobelBaseline, paint_inner]
  simp only [guard_iff, ite_not]

theorem sobelLdg_eq {grid : Nat × Nat} :
    (sobelLdg magnitude input w h : Place grid block → List Statement) =
      sobelBaseline magnitude input w h := rfl

theorem clamp_of_lt {size : Nat} {coord : Int} (lower : 0 ≤ coord) (upper : coord < size) :
    clamp size coord = coord := by
  rw [clamp]
  omega

theorem sobelTex_pixelwise (positive : 0 < block.1 ∧ 0 < block.2) (tex : Int → Int → UInt8) :
    Pixelwise w h (paint w fun p => some (shade magnitude fun dx dy => tex (p.1 + dx) (p.2 + dy)))
      (sobelTex magnitude w h tex : Place (gridSize w h block) block → List Statement) where
  only := by
    intro place a member
    simp only [sobelTex] at member
    split at member
    · cases member
    · next within =>
      obtain ⟨column, row⟩ := not_or.mp within
      exact ⟨_, ⟨Nat.not_le.mp column, Nat.not_le.mp row⟩, member⟩
  all := by
    intro p inside
    obtain ⟨place, rfl⟩ := exists_place positive inside
    refine ⟨place, ?_⟩
    intro a member
    have within : ¬(place.pixel.1 ≥ w ∨ place.pixel.2 ≥ h) := by
      obtain ⟨column, row⟩ := inside
      omega
    simp only [sobelTex, if_neg within]
    exact member

def clampedPixel (w h : Nat) (x y : Int) : Pixel := ((clamp w x).toNat, (clamp h y).toNat)

theorem clampedPixel_window {p : Pixel} (interior : Interior w h p) {dx dy : Int}
    (columns : -1 ≤ dx ∧ dx ≤ 1) (rows : -1 ≤ dy ∧ dy ≤ 1) :
    input (cell w (clampedPixel w h (p.1 + dx) (p.2 + dy))) = windowAt input w p dx dy := by
  obtain ⟨left, right, above, below⟩ := interior
  rw [clampedPixel, clamp_of_lt (by omega) (by omega), clamp_of_lt (by omega) (by omega)]
  rfl

theorem tex_window {tex : Int → Int → UInt8}
    (clamped : ∀ x y, tex x y = input (cell w (clampedPixel w h x y)))
    {p : Pixel} (interior : Interior w h p) :
    (shade magnitude fun dx dy => tex (p.1 + dx) (p.2 + dy)) =
      shade magnitude (windowAt input w p) := by
  apply shade_congr
  intro d member
  obtain ⟨columns, rows⟩ := offsets_small member
  rw [clamped]
  exact clampedPixel_window interior columns rows

/-! Tiles. -/

theorem block_small {size b : Nat} (below : b < (size + tile - 1) / tile) : b * tile < size := by
  have whole := Nat.div_mul_le_self (size + tile - 1) tile
  have next := Nat.mul_le_mul_right tile (Nat.succ_le_of_lt below)
  rw [Nat.succ_mul] at next
  have positive : 0 < tile := by decide
  omega

theorem base_eq {b : Nat} (small : b * tile < 2 ^ 31) : base b = b * tile - 1 := by
  rw [base, ← BitVec.ofNat_mul, BitVec.toInt_sub, BitVec.toInt_ofNat', BitVec.toInt_one (by decide),
    Int.bmod_eq_of_le (n := ((b * tile : Nat) : Int)) (by omega) (by omega),
    Int.bmod_eq_of_le (by omega) (by omega), Int.natCast_mul]

theorem outCoord_eq {b t : Nat} (small : b * tile + t < 2 ^ 31) : outCoord b t = b * tile + t := by
  rw [outCoord, ← BitVec.ofNat_mul, ← BitVec.ofNat_add, BitVec.toInt_ofNat',
    Int.bmod_eq_of_le (by omega) (by omega), Int.natCast_add, Int.natCast_mul]

theorem clamp_range {size : Nat} (positive : 1 ≤ size) (coord : Int) :
    0 ≤ clamp size coord ∧ clamp size coord < size := by
  rw [clamp]
  omega

theorem clampedPixel_inside (wide : 1 ≤ w) (high : 1 ≤ h) (x y : Int) :
    Inside w h (clampedPixel w h x y) := by
  have column := clamp_range wide x
  have row := clamp_range high y
  constructor <;> simp only [clampedPixel] <;> omega

section
variable (wide : 1 ≤ w) (high : 1 ≤ h) {block : Nat × Nat}
  (columns : block.1 * tile < 2 ^ 31) (rows : block.2 * tile < 2 ^ 31)
include wide high columns rows

theorem sourceIndex_eq (i : Nat) : sourceIndex w h block i =
    cell w (clampedPixel w h (block.1 * tile - 1 + (i % SW : Nat))
      (block.2 * tile - 1 + (i / SW : Nat))) := by
  simp only [sourceIndex, base_eq columns, base_eq rows, cell, clampedPixel]
  rw [Int.natCast_add, Int.natCast_mul, Int.toNat_of_nonneg (clamp_range wide _).1,
    Int.toNat_of_nonneg (clamp_range high _).1]

theorem fetch_sourceIndex (i : Nat) : fetch input (w * h) (sourceIndex w h block i) =
    some (input (cell w (clampedPixel w h (block.1 * tile - 1 + (i % SW : Nat))
      (block.2 * tile - 1 + (i / SW : Nat))))) := by
  have below := cell_lt (clampedPixel_inside wide high (block.1 * tile - 1 + (i % SW : Nat))
    (block.2 * tile - 1 + (i / SW : Nat)))
  rw [sourceIndex_eq wide high columns rows, fetch, if_pos ⟨by omega, by omega⟩, Int.toNat_natCast]

end

def filled (input : Nat → UInt8) (w h : Nat) (block : Nat × Nat) : Shared := fun place =>
  if place.1 < SW ∧ place.2 < SW then
    some (input (cell w (clampedPixel w h (block.1 * tile - 1 + place.2)
      (block.2 * tile - 1 + place.1))))
  else none

theorem mem_loadTile {thread : Lane} {a : Assign fun _ : Nat × Nat => Option UInt8} :
    a ∈ loadTile input w h block thread ↔
      ∃ i ∈ strided (thread.2.val * tile + thread.1.val) (SW * SW) (tile * tile),
        a = assign (i / SW, i % SW) fun _ => fetch input (w * h) (sourceIndex w h block i) := by
  simp only [loadTile, List.mem_map, eq_comm (a := a)]

theorem strided_lt {first index : Nat} (member : index ∈ strided first (SW * SW) (tile * tile)) :
    index / SW < SW ∧ index % SW < SW := by
  obtain ⟨_, _, below⟩ := (mem_strided (by decide)).mp member
  exact ⟨Nat.div_lt_of_lt_mul below, Nat.mod_lt _ (by decide)⟩

theorem loadTile_settles (wide : 1 ≤ w) (high : 1 ≤ h) (columns : block.1 * tile < 2 ^ 31)
    (rows : block.2 * tile < 2 ^ 31) :
    Settles (loadTile input w h block) (fun _ => none) (filled input w h block) where
  value := by
    intro thread a member m _
    obtain ⟨i, mine, rfl⟩ := mem_loadTile.mp member
    refine Or.inl ?_
    simp only [assign, filled, if_pos (strided_lt mine), fetch_sourceIndex wide high columns rows]
  rest := by
    rintro ⟨row, column⟩ free
    rw [filled]
    split
    · next within =>
      obtain ⟨low, left⟩ := within
      have inside : Inside SW SW (column, row) := ⟨left, low⟩
      obtain ⟨thread, mine⟩ := @exists_strided tile tile _ _ (by decide) (cell_lt inside)
      refine (free ⟨thread, _, mem_loadTile.mpr ⟨_, mine, rfl⟩, ?_⟩).elim
      exact Prod.ext (cell_div inside.1) (cell_mod inside.1)
    · rfl

theorem sharedAt_filled {thread : Lane} {dx dy : Int} (columns : -1 ≤ dx ∧ dx ≤ 1)
    (rows : -1 ≤ dy ∧ dy ≤ 1) :
    sharedAt (filled input w h block) (thread.2.val + 1 + dy) (thread.1.val + 1 + dx) =
      some (input (cell w (clampedPixel w h (block.1 * tile + thread.1.val + dx)
        (block.2 * tile + thread.2.val + dy)))) := by
  have column := thread.1.isLt
  have row := thread.2.isLt
  have size : SW = tile + 2 := rfl
  rw [sharedAt, if_pos (by omega), filled, if_pos (by constructor <;> omega)]
  simp only
  congr 4 <;> omega

section
variable (width : w + (tile - 1) < 2 ^ 31) (height : h + (tile - 1) < 2 ^ 31)
  (place : SmemPlace w h)
include width height

theorem block_mul_small : place.block.1 * tile < 2 ^ 31 ∧ place.block.2 * tile < 2 ^ 31 := by
  have column : place.block.1 * tile < w := block_small place.1.1.isLt
  have row : place.block.2 * tile < h := block_small place.1.2.isLt
  constructor <;> omega

theorem outCoord_pixel : outCoord place.block.1 place.2.1 = place.pixel.1 ∧
    outCoord place.block.2 place.2.2 = place.pixel.2 := by
  have column : place.block.1 * tile < w := block_small place.1.1.isLt
  have row : place.block.2 * tile < h := block_small place.1.2.isLt
  have lane := place.2.1.isLt
  have line := place.2.2.isLt
  rw [outCoord_eq (by omega), outCoord_eq (by omega), ← Int.natCast_mul, ← Int.natCast_mul,
    ← Int.natCast_add, ← Int.natCast_add]
  exact ⟨rfl, rfl⟩

theorem drawTile_filled :
    drawTile magnitude w h (filled input w h place.block) place.block place.2 =
      some (paint w (inner w h fun p => shade magnitude (windowAt input w p)) place.pixel) := by
  obtain ⟨column, row⟩ := outCoord_pixel width height place
  have border : ((place.pixel.1 : Int) < 1 ∨ (place.pixel.1 : Int) ≥ (w : Int) - 1 ∨
      (place.pixel.2 : Int) < 1 ∨ (place.pixel.2 : Int) ≥ (h : Int) - 1) ↔
        ¬Interior w h place.pixel := by
    simp only [Interior]
    omega
  rw [drawTile, paint_inner]
  simp only [column, row, border]
  by_cases interior : Interior w h place.pixel
  · have neighbour {d : Int × Int} (member : d ∈ offsets) :
        sharedAt (filled input w h place.block) (place.2.2.val + 1 + d.2)
          (place.2.1.val + 1 + d.1) = some (windowAt input w place.pixel d.1 d.2) := by
      obtain ⟨columns, rows⟩ := offsets_small member
      rw [sharedAt_filled columns rows, ← clampedPixel_window interior columns rows]
      rfl
    have found : (offsets.all fun d => (sharedAt (filled input w h place.block)
        (place.2.2.val + 1 + d.2) (place.2.1.val + 1 + d.1)).isSome) = true := by
      rw [List.all_eq_true]
      intro d member
      rw [neighbour member]
      rfl
    have same : (shade magnitude fun dx dy => (sharedAt (filled input w h place.block)
        (place.2.2.val + 1 + dy) (place.2.1.val + 1 + dx)).getD 0) =
          shade magnitude (windowAt input w place.pixel) := by
      apply shade_congr
      intro d member
      rw [neighbour member, Option.getD_some]
    rw [if_neg (not_not_intro interior), if_pos interior, if_pos found, same]
    congr
  · rw [if_pos interior, if_neg interior]

theorem loadTile_launch (wide : 1 ≤ w) (high : 1 ≤ h) {smem : Shared}
    (load : Launch (loadTile input w h place.block) (fun _ => none) smem) :
    smem = filled input w h place.block := by
  obtain ⟨columns, rows⟩ := block_mul_small width height place
  exact (loadTile_settles wide high columns rows).launch load

theorem exists_smemLaunch (wide : 1 ≤ w) (high : 1 ≤ h) (before : Image) :
    ∃ after, SmemLaunch magnitude input w h before after := by
  have tiles (numbers : Nat × Nat) :
      ∃ smem, Launch (loadTile input w h numbers) (fun _ => none) smem := exists_launch _ _
  choose tile load using tiles
  obtain ⟨after, launch⟩ := exists_launch (fun place : SmemPlace w h =>
    paint w (inner w h fun p => shade magnitude (windowAt input w p)) place.pixel) before
  refine ⟨after, tile, _, fun place => load place.block, ?_, launch⟩
  intro place
  rw [loadTile_launch width height place wide high (load place.block)]
  exact drawTile_filled width height place

theorem SmemLaunch.launch (wide : 1 ≤ w) (high : 1 ≤ h) {before after : Image}
    (smem : SmemLaunch magnitude input w h before after) :
    Launch (fun place : SmemPlace w h =>
      paint w (inner w h fun p => shade magnitude (windowAt input w p)) place.pixel)
        before after := by
  obtain ⟨tiles, program, load, draw, launch⟩ := smem
  have same : program = fun place : SmemPlace w h =>
      paint w (inner w h fun p => shade magnitude (windowAt input w p)) place.pixel := by
    funext place
    have drawn := draw place
    rw [loadTile_launch width height place wide high (load place),
      drawTile_filled width height place] at drawn
    exact (Option.some.inj drawn).symm
  rwa [same] at launch

end

/-- What a thread of `sobel_smem` may rely on, whatever the order of the loads in its block. -/
structure TileSafe (magnitude : Int → Int → Rat) (input : Nat → UInt8) (w h : Nat)
    (place : SmemPlace w h) : Prop where
  loads : ∀ i ∈ strided (place.2.2.val * tile + place.2.1.val) (SW * SW) (tile * tile),
    (i / SW < SW ∧ i % SW < SW) ∧
      0 ≤ sourceIndex w h place.block i ∧ sourceIndex w h place.block i < (w * h : Nat)
  cells : ∀ smem, Launch (loadTile input w h place.block) (fun _ => none) smem →
    ∀ row < SW, ∀ column < SW, smem (row, column) =
      some (input (cell w (clampedPixel w h (place.block.1 * tile - 1 + column)
        (place.block.2 * tile - 1 + row))))
  draws : ∀ smem, Launch (loadTile input w h place.block) (fun _ => none) smem →
    ∃ program, drawTile magnitude w h smem place.block place.2 = some program ∧
      ∀ a ∈ program, a.loc < w * h

theorem tileSafe (wide : 1 ≤ w) (high : 1 ≤ h) (width : w + (tile - 1) < 2 ^ 31)
    (height : h + (tile - 1) < 2 ^ 31) (place : SmemPlace w h) :
    TileSafe magnitude input w h place where
  loads := by
    intro i mine
    refine ⟨strided_lt mine, ?_⟩
    obtain ⟨columns, rows⟩ := block_mul_small width height place
    rw [sourceIndex_eq wide high columns rows]
    exact ⟨Int.natCast_nonneg _, Int.ofNat_lt.mpr (cell_lt (clampedPixel_inside wide high _ _))⟩
  cells := by
    intro smem load row low column left
    rw [loadTile_launch width height place wide high load, filled, if_pos ⟨low, left⟩]
  draws := by
    intro smem load
    rw [loadTile_launch width height place wide high load, drawTile_filled width height place]
    refine ⟨_, rfl, ?_⟩
    intro a member
    rw [paint_inner] at member
    split at member
    · next interior =>
      rw [List.mem_singleton.mp member]
      exact cell_lt interior.inside
    · cases member

/-- The widths are those for which `(width + 15) / 16` fits the `int` it is computed in. -/
theorem kernels_agree (wide : 1 ≤ w) (high : 1 ≤ h) (width : w + (tile - 1) < 2 ^ 31)
    (height : h + (tile - 1) < 2 ^ 31) (positive : 0 < block.1 ∧ 0 < block.2)
    {tex : Int → Int → UInt8}
    (clamped : ∀ x y, tex x y = input (cell w (clampedPixel w h x y)))
    {b₀ b₁ l₀ l₁ t₀ t₁ s₀ s₁ : Image}
    (baseline : Launch (sobelBaseline magnitude input w h : Place (gridSize w h block) block → _)
      b₀ b₁)
    (readOnly : Launch (sobelLdg magnitude input w h : Place (gridSize w h block) block → _) l₀ l₁)
    (texture : Launch (sobelTex magnitude w h tex : Place (gridSize w h block) block → _) t₀ t₁)
    (smem : SmemLaunch magnitude input w h s₀ s₁) :
    (∀ p, Interior w h p → l₁ (cell w p) = b₁ (cell w p) ∧ t₁ (cell w p) = b₁ (cell w p) ∧
      s₁ (cell w p) = b₁ (cell w p)) ∧
    ∀ place : SmemPlace w h, TileSafe magnitude input w h place := by
  refine ⟨?_, tileSafe wide high width height⟩
  intro p interior
  rw [sobelLdg_eq] at readOnly
  rw [sobelBaseline_eq] at baseline readOnly
  have tiles := smem.launch width height wide high
  rw [inner_launch positive baseline interior, inner_launch positive readOnly interior,
    inner_launch ⟨by decide, by decide⟩ tiles interior,
    (paint_settles (sobelTex_pixelwise positive tex)).launch texture,
    painted_cell interior.inside, Option.getD_some, tex_window clamped interior]
  exact ⟨rfl, rfl, rfl⟩

def stripes (index : Nat) : UInt8 := if index % 3 = 2 then 25 else 0

theorem kernels_agree_stripes : ∃ b₁ l₁ t₁ s₁ : Image,
    Launch (sobelBaseline root stripes 3 3 : Place (gridSize 3 3 (32, 8)) (32, 8) → _)
      (fun _ => 0) b₁ ∧
    Launch (sobelLdg root stripes 3 3 : Place (gridSize 3 3 (32, 8)) (32, 8) → _)
      (fun _ => 1) l₁ ∧
    Launch (sobelTex root 3 3 (fun x y => stripes (cell 3 (clampedPixel 3 3 x y))) :
      Place (gridSize 3 3 (32, 8)) (32, 8) → _) (fun _ => 2) t₁ ∧
    SmemLaunch root stripes 3 3 (fun _ => 3) s₁ ∧
    (∀ p, Interior 3 3 p → l₁ (cell 3 p) = b₁ (cell 3 p) ∧ t₁ (cell 3 p) = b₁ (cell 3 p) ∧
      s₁ (cell 3 p) = b₁ (cell 3 p)) ∧
    ∀ place : SmemPlace 3 3, TileSafe root stripes 3 3 place := by
  obtain ⟨b₁, baseline⟩ := exists_launch
    (sobelBaseline root stripes 3 3 : Place (gridSize 3 3 (32, 8)) (32, 8) → _) fun _ => 0
  obtain ⟨l₁, readOnly⟩ := exists_launch
    (sobelLdg root stripes 3 3 : Place (gridSize 3 3 (32, 8)) (32, 8) → _) fun _ => 1
  obtain ⟨t₁, texture⟩ := exists_launch
    (sobelTex root 3 3 (fun x y => stripes (cell 3 (clampedPixel 3 3 x y))) :
      Place (gridSize 3 3 (32, 8)) (32, 8) → _) fun _ => 2
  obtain ⟨s₁, smem⟩ : ∃ s₁, SmemLaunch root stripes 3 3 (fun _ => 3) s₁ :=
    exists_smemLaunch (by decide) (by decide) (by decide) (by decide) _
  exact ⟨b₁, l₁, t₁, s₁, baseline, readOnly, texture, smem,
    kernels_agree (by decide) (by decide) (by decide) (by decide) ⟨by decide, by decide⟩
      (fun _ _ => rfl) baseline readOnly texture smem⟩

end CudaOpenMp.SobelBenchmark
