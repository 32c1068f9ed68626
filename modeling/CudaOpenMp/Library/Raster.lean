import CudaOpenMp.Library.IndexRanges

/-!
Pixels of an image that is stored row by row, their neighbours, and grids of thread blocks with
one thread for each pixel.
-/

namespace Rasters

open IndexRanges

/-- Column and row. -/
abbrev Pixel := Nat × Nat

def cell (w : Nat) (p : Pixel) : Nat := p.2 * w + p.1

def Inside (w h : Nat) (p : Pixel) : Prop := p.1 < w ∧ p.2 < h

def Interior (w h : Nat) (p : Pixel) : Prop := 0 < p.1 ∧ p.1 < w - 1 ∧ 0 < p.2 ∧ p.2 < h - 1

instance (w h : Nat) (p : Pixel) : Decidable (Inside w h p) :=
  inferInstanceAs (Decidable (_ ∧ _))

instance (w h : Nat) (p : Pixel) : Decidable (Interior w h p) :=
  inferInstanceAs (Decidable (_ ∧ _ ∧ _ ∧ _))

theorem Interior.inside {w h : Nat} {p : Pixel} (interior : Interior w h p) : Inside w h p := by
  obtain ⟨_, right, _, below⟩ := interior
  constructor <;> omega

theorem cell_lt {w h : Nat} {p : Pixel} (inside : Inside w h p) : cell w p < w * h := by
  obtain ⟨column, row⟩ := inside
  calc p.2 * w + p.1 < p.2 * w + w := Nat.add_lt_add_left column _
    _ = w * (p.2 + 1) := by rw [Nat.mul_succ, Nat.mul_comm]
    _ ≤ w * h := Nat.mul_le_mul_left w row

theorem cell_mod {w : Nat} {p : Pixel} (column : p.1 < w) : cell w p % w = p.1 := by
  rw [cell, Nat.mul_add_mod_self_right, Nat.mod_eq_of_lt column]

theorem cell_div {w : Nat} {p : Pixel} (column : p.1 < w) : cell w p / w = p.2 := by
  rw [cell, Nat.add_comm, Nat.add_mul_div_right _ _ (by omega), Nat.div_eq_of_lt column,
    Nat.zero_add]

theorem cell_inj {w h : Nat} {p q : Pixel} (first : Inside w h p) (second : Inside w h q)
    (same : cell w p = cell w q) : p = q := by
  apply Prod.ext
  · rw [← cell_mod first.1, same, cell_mod second.1]
  · rw [← cell_div first.1, same, cell_div second.1]

theorem exists_pixel {w h index : Nat} (below : index < w * h) :
    ∃ p, Inside w h p ∧ cell w p = index := by
  have wide : 0 < w := Nat.pos_of_ne_zero (by rintro rfl; simp at below)
  refine ⟨(index % w, index / w), ⟨Nat.mod_lt _ wide, ?_⟩, Nat.div_add_mod' index w⟩
  exact Nat.div_lt_of_lt_mul below

def pixelOf (w index : Nat) : Pixel := (index % w, index / w)

theorem pixelOf_cell {w h : Nat} {p : Pixel} (inside : Inside w h p) :
    pixelOf w (cell w p) = p :=
  Prod.ext (cell_mod inside.1) (cell_div inside.1)

theorem pixelOf_inside {w h index : Nat} (below : index < w * h) :
    Inside w h (pixelOf w index) ∧ cell w (pixelOf w index) = index := by
  obtain ⟨p, inside, rfl⟩ := exists_pixel below
  rw [pixelOf_cell inside]
  exact ⟨inside, rfl⟩

def shift (p : Pixel) (dx dy : Int) : Pixel := ((p.1 + dx).toNat, (p.2 + dy).toNat)

/-- The pixels that the loops over `i` and `j` look at, in their order. -/
def around (p : Pixel) : List Pixel :=
  [-1, 0, 1].flatMap fun i : Int => [-1, 0, 1].map fun j : Int => shift p j i

def Adjacent (p q : Pixel) : Prop :=
  p ≠ q ∧ p.1 ≤ q.1 + 1 ∧ q.1 ≤ p.1 + 1 ∧ p.2 ≤ q.2 + 1 ∧ q.2 ≤ p.2 + 1

theorem shift_inside {w h : Nat} {p : Pixel} {dx dy : Int} (interior : Interior w h p)
    (columns : -1 ≤ dx ∧ dx ≤ 1) (rows : -1 ≤ dy ∧ dy ≤ 1) : Inside w h (shift p dx dy) := by
  obtain ⟨left, right, above, below⟩ := interior
  constructor <;> simp only [shift] <;> omega

theorem mem_around_iff {p q : Pixel} :
    q ∈ around p ↔ ∃ dx dy : Int, (-1 ≤ dx ∧ dx ≤ 1) ∧ (-1 ≤ dy ∧ dy ≤ 1) ∧ q = shift p dx dy := by
  simp only [around, List.mem_flatMap, List.mem_map, List.mem_cons, List.not_mem_nil, or_false]
  constructor
  · rintro ⟨dy, row, dx, column, rfl⟩
    exact ⟨dx, dy, by omega, by omega, rfl⟩
  · rintro ⟨dx, dy, columns, rows, rfl⟩
    exact ⟨dy, by omega, dx, by omega, rfl⟩

theorem around_inside {w h : Nat} {p q : Pixel} (interior : Interior w h p) (near : q ∈ around p) :
    Inside w h q := by
  obtain ⟨dx, dy, columns, rows, rfl⟩ := mem_around_iff.mp near
  exact shift_inside interior columns rows

theorem mem_around {w h : Nat} {p q : Pixel} (interior : Interior w h p) :
    q ∈ around p ↔ q = p ∨ Adjacent q p := by
  obtain ⟨left, _, above, _⟩ := interior
  rw [mem_around_iff]
  constructor
  · rintro ⟨dx, dy, columns, rows, rfl⟩
    by_cases same : shift p dx dy = p
    · exact Or.inl same
    · refine Or.inr ⟨same, ?_⟩
      simp only [shift]
      omega
  · rintro (rfl | ⟨_, near⟩)
    · exact ⟨0, 0, by omega, by omega, by simp [shift]⟩
    · refine ⟨q.1 - p.1, q.2 - p.2, by omega, by omega, ?_⟩
      apply Prod.ext <;> simp only [shift] <;> omega

/-- A thread of a grid: block and thread index, with the numbers of blocks and of threads in a block. -/
abbrev Place (grid block : Nat × Nat) := (Fin grid.1 × Fin grid.2) × (Fin block.1 × Fin block.2)

def Place.pixel {grid block : Nat × Nat} (place : Place grid block) : Pixel :=
  (place.1.1 * block.1 + place.2.1, place.1.2 * block.2 + place.2.2)

def gridSize (w h : Nat) (block : Nat × Nat) : Nat × Nat :=
  ((w + block.1 - 1) / block.1, (h + block.2 - 1) / block.2)

theorem block_lt {count size index : Nat} (positive : 0 < size) (below : index < count) :
    index / size < (count + size - 1) / size := by
  have room := le_mul_ceil_div count size positive
  exact Nat.div_lt_of_lt_mul (by omega)

theorem exists_place {w h : Nat} {block : Nat × Nat} (positive : 0 < block.1 ∧ 0 < block.2)
    {p : Pixel} (inside : Inside w h p) : ∃ place : Place (gridSize w h block) block,
      place.pixel = p := by
  refine ⟨((⟨p.1 / block.1, block_lt positive.1 inside.1⟩,
    ⟨p.2 / block.2, block_lt positive.2 inside.2⟩),
    (⟨p.1 % block.1, Nat.mod_lt _ positive.1⟩, ⟨p.2 % block.2, Nat.mod_lt _ positive.2⟩)), ?_⟩
  exact Prod.ext (Nat.div_add_mod' _ _) (Nat.div_add_mod' _ _)

theorem pixel_inj {grid block : Nat × Nat} {first second : Place grid block}
    (same : first.pixel = second.pixel) : first = second := by
  have split {size a b c d : Nat} (low : b < size) (other : d < size)
      (equal : a * size + b = c * size + d) : a = c ∧ b = d := by
    have quotients := congrArg (· / size) equal
    have remainders := congrArg (· % size) equal
    simp only [Nat.mul_add_mod_self_right, Nat.mod_eq_of_lt low, Nat.mod_eq_of_lt other]
      at remainders
    simp only [Nat.add_comm _ b, Nat.add_comm _ d, Nat.add_mul_div_right _ _ (by omega : 0 < size),
      Nat.div_eq_of_lt low, Nat.div_eq_of_lt other, Nat.zero_add] at quotients
    exact ⟨quotients, remainders⟩
  obtain ⟨column, lane⟩ := split first.2.1.isLt second.2.1.isLt (congrArg Prod.fst same)
  obtain ⟨row, line⟩ := split first.2.2.isLt second.2.2.isLt (congrArg Prod.snd same)
  exact Prod.ext (Prod.ext (Fin.ext column) (Fin.ext row)) (Prod.ext (Fin.ext lane) (Fin.ext line))

end Rasters
