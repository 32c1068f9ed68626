import CudaOpenMp.Library.Raster
import CudaOpenMp.Library.Wmma

/-!
Tiles of 16 rows and 16 columns in row-major matrices, and kernels whose warps store whole
tiles of a product.
-/

namespace CudaOpenMp.Gemm

open Rasters Stores Tiling Wmma

variable {R : Type}

abbrev Store (R : Type) := Assign fun _ : Nat => R

theorem div_mod_row {N r c : Nat} (column : c < N) : (r * N + c) / N = r ∧ (r * N + c) % N = c :=
  ⟨cell_div (p := (c, r)) column, cell_mod (p := (c, r)) column⟩

theorem mul_sixteen_add {size tile : Nat} (whole : 16 ∣ size) (starts : tile * 16 < size)
    (i : Fin 16) : tile * 16 + i < size := by
  obtain ⟨tiles, rfl⟩ := whole
  have bound := i.isLt
  omega

theorem mem_store_tile {N tr tc : Nat} {fragment : Fragment 16 16 R} {a : Store R} :
    a ∈ storeMatrixSync (tr * 16 * N + tc * 16) N fragment ↔
      ∃ i j : Fin 16, a = assign (cell N (tc * 16 + j, tr * 16 + i)) fun _ => fragment i j := by
  rw [mem_storeMatrixSync]
  have place (i j : Fin 16) : tr * 16 * N + tc * 16 + i * N + j =
      cell N (tc * 16 + j, tr * 16 + i) := by
    rw [cell, Nat.add_mul]
    omega
  simp only [place]

theorem load_rows {A : Nat → R} {K tr turn : Nat} (i l : Fin 16) :
    loadMatrixSync (m := 16) (n := 16) .rowMajor A (tr * 16 * K + turn * 16) K i l =
      A ((tr * 16 + i) * K + (turn * 16 + l)) := by
  simp only [loadMatrixSync, Matrix.of_apply]
  congr 1
  rw [Nat.add_mul]
  omega

theorem load_columns {B : Nat → R} {K tc turn : Nat} (l j : Fin 16) :
    loadMatrixSync (m := 16) (n := 16) .colMajor B (tc * 16 * K + turn * 16) K l j =
      B ((tc * 16 + j) * K + (turn * 16 + l)) := by
  simp only [loadMatrixSync, Matrix.of_apply]
  congr 1
  rw [Nat.add_mul]
  omega

/-- The cells of a tile in a matrix with rows of length `N`. -/
def Tile (N tr tc l : Nat) : Prop := ∃ i j : Fin 16, l = (tr * 16 + i) * N + (tc * 16 + j)

def Writes (todo : List (Store R)) (l : Nat) : Prop := ∃ a ∈ todo, a.loc = l

theorem writes_tile {N tr tc : Nat} {fragment : Fragment 16 16 R} {l : Nat} :
    Writes (storeMatrixSync (tr * 16 * N + tc * 16) N fragment) l ↔ Tile N tr tc l := by
  simp only [Writes, mem_store_tile]
  constructor
  · rintro ⟨_, ⟨i, j, rfl⟩, rfl⟩
    exact ⟨i, j, rfl⟩
  · rintro ⟨i, j, rfl⟩
    exact ⟨_, ⟨i, j, rfl⟩, rfl⟩

theorem Tile.coordinates {N tr tc l : Nat} (whole : 16 ∣ N) (starts : tc * 16 < N)
    (tile : Tile N tr tc l) : tr = l / N / 16 ∧ tc = l % N / 16 := by
  obtain ⟨i, j, rfl⟩ := tile
  obtain ⟨quotient, remainder⟩ :=
    div_mod_row (r := tr * 16 + i) (mul_sixteen_add whole starts j)
  rw [quotient, remainder]
  omega

theorem tile_of_cell {N r c : Nat} : Tile N (r / 16) (c / 16) (r * N + c) := by
  refine ⟨⟨r % 16, Nat.mod_lt _ (by decide)⟩, ⟨c % 16, Nat.mod_lt _ (by decide)⟩, ?_⟩
  rw [Nat.div_add_mod', Nat.div_add_mod']

variable [NonUnitalNonAssocSemiring R]

def product (A B : Nat → R) (N K r c : Nat) : R :=
  ∑ k ∈ Finset.range K, A (r * K + k) * B (k * N + c)

end CudaOpenMp.Gemm
