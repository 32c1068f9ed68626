import CudaOpenMp.Gemm.Tiles

/-!
The product of `gemm_tensor_core.cu`. A block has threads in one direction only, so that its
row of tiles is the row of the block divided by the number of lanes, and the tiles of the second
matrix are loaded by columns from where their rows start.
-/

namespace CudaOpenMp.TensorCore

open Rasters Stores Tiling Wmma Gemm

variable {R : Type}

def blockDim : Nat × Nat := (128, 1)

def warpM (blockIdx threadIdx : Nat × Nat) : Nat := (blockIdx.2 * blockDim.2 + threadIdx.2) / 32

def warpN (blockIdx threadIdx : Nat × Nat) : Nat := (blockIdx.1 * blockDim.1 + threadIdx.1) / 32

def gridDim (N : Nat) : Nat × Nat := ((N + 16 - 1) / 16, (N + 16 - 1) / 16)

/-- Block and number of the warp in its block. -/
abbrev Warp (N : Nat) := (Fin (gridDim N).1 × Fin (gridDim N).2) × Fin 4

/-- The place of a lane, which is the same in both directions for all lanes of a warp. -/
def Warp.tile {N : Nat} (warp : Warp N) (lane : Nat) : Nat × Nat :=
  (warpM (warp.1.1, warp.1.2) (warp.2 * 32 + lane, 0),
    warpN (warp.1.1, warp.1.2) (warp.2 * 32 + lane, 0))

theorem Warp.tile_lane {N : Nat} (warp : Warp N) {lane : Nat} (bound : lane < 32) :
    warp.tile lane = (warp.1.2.val / 32, warp.1.1.val * 4 + warp.2.val) := by
  apply Prod.ext
  · simp [Warp.tile, warpM, blockDim]
  · simp only [Warp.tile, warpN, blockDim]
    omega

section
variable [NonUnitalNonAssocSemiring R] (A B : Nat → R) (N : Nat)

def cFrag (warpM warpN : Nat) : Fragment 16 16 R :=
  mmaLoop ((N + 15) / 16)
    (fun turn => loadMatrixSync (n := 16) .rowMajor A (warpM * 16 * N + turn * 16) N)
    (fun turn => loadMatrixSync .colMajor B (turn * 16 * N + warpN * 16) N)

def gemmTensorCore (tile : Nat × Nat) : List (Store R) :=
  let (warpM, warpN) := tile
  if warpM * 16 < N ∧ warpN * 16 < N then
    storeMatrixSync (warpM * 16 * N + warpN * 16) N (cFrag A B N warpM warpN)
  else []

/-- The operations on fragments are those of a warp, which runs them as its first lane does. -/
def gemmTensorCoreRun (warp : Warp N) : List (Store R) := gemmTensorCore A B N (warp.tile 0)

end

section
variable [NonUnitalNonAssocSemiring R] {A B : Nat → R} {N : Nat}

theorem writes_gemm {warp : Warp N} {l : Nat} : Writes (gemmTensorCoreRun A B N warp) l ↔
    (warp.1.2.val / 32 * 16 < N ∧ (warp.1.1.val * 4 + warp.2.val) * 16 < N) ∧
      Tile N (warp.1.2.val / 32) (warp.1.1.val * 4 + warp.2.val) l := by
  simp only [gemmTensorCoreRun, gemmTensorCore, warp.tile_lane (by decide : 0 < 32)]
  split
  · next work => rw [writes_tile, and_iff_right work]
  · next idle => simp [Writes, idle]

/-- Blocks below the first row of tiles repeat that row, and so no warp gets to the last row. -/
theorem last_row_unwritten (whole : 16 ∣ N) (large : 32 ≤ N) :
    ¬Assigned (gemmTensorCoreRun A B N) ((N - 1) * N) := by
  rintro ⟨warp, writes⟩
  obtain ⟨⟨_, starts⟩, tile⟩ := writes_gemm.mp writes
  have low := warp.1.2.isLt
  obtain ⟨row, -⟩ := tile.coordinates whole starts
  rw [Nat.mul_div_cancel _ (by omega : 0 < N)] at row
  simp only [gridDim] at low
  omega

theorem cFrag_transposed (i j : Fin 16) : cFrag A B 16 0 0 i j =
    ∑ k ∈ Finset.range 16, A (i * 16 + k) * B (j * 16 + k) := by
  rw [cFrag, mmaLoop_tiles (fun k => A (i * 16 + k)) (fun k => B (j * 16 + k))]
  · intro turn below l
    have first : turn = 0 := by omega
    simp [loadMatrixSync, first]
  · intro turn below l
    have first : turn = 0 := by omega
    simp [loadMatrixSync, first]

theorem single_tile {c₀ c₁ : Nat → R} (launch : Launch (gemmTensorCoreRun A B 16) c₀ c₁) :
    ∀ i < 16, ∀ j < 16, Assigned (gemmTensorCoreRun A B 16) (i * 16 + j) ∧
      c₁ (i * 16 + j) = ∑ k ∈ Finset.range 16, A (i * 16 + k) * B (j * 16 + k) := by
  intro i row j column
  obtain ⟨values, -⟩ := launch.values
    (fun l => ∑ k ∈ Finset.range 16, A (l / 16 * 16 + k) * B (l % 16 * 16 + k)) (by
      intro warp a member m
      simp only [gemmTensorCoreRun, gemmTensorCore, warp.tile_lane (by decide : 0 < 32)] at member
      split at member
      · next work =>
        have top : warp.1.2.val / 32 = 0 := by omega
        have left : warp.1.1.val * 4 + warp.2.val = 0 := by omega
        rw [top, left] at member
        obtain ⟨i, j, rfl⟩ := mem_store_tile.mp member
        obtain ⟨quotient, remainder⟩ := div_mod_row (r := i) j.isLt
        simp only [assign, cell, Nat.zero_mul, Nat.zero_add]
        rw [quotient, remainder, cFrag_transposed]
      · cases member)
  have assigned : Assigned (gemmTensorCoreRun A B 16) (i * 16 + j) :=
    ⟨((⟨0, by decide⟩, ⟨0, by decide⟩), ⟨0, by decide⟩), writes_gemm.mpr
      ⟨by decide, ⟨⟨i, row⟩, ⟨j, column⟩, by simp⟩⟩⟩
  obtain ⟨quotient, remainder⟩ := div_mod_row (r := i) column
  rw [values _ assigned, quotient, remainder]
  exact ⟨assigned, rfl⟩

end

section
variable [NonUnitalNonAssocRing R]

/-- The kernel is right for one tile when the first matrix does not tell the second one from its
transpose, and otherwise never. -/
theorem gemm_tensor_core_iff {A B c₀ c₁ : Nat → R} {N : Nat} (positive : 0 < N) (whole : 16 ∣ N)
    (launch : Launch (gemmTensorCoreRun A B N) c₀ c₁) :
    ((∀ i < N, ∀ j < N, Assigned (gemmTensorCoreRun A B N) (i * N + j)) ∧
      ∀ i < N, ∀ j < N, c₁ (i * N + j) = ∑ k ∈ Finset.range N, A (i * N + k) * B (k * N + j)) ↔
    N = 16 ∧ ∀ i < 16, ∀ j < 16,
      ∑ k ∈ Finset.range 16, A (i * 16 + k) * (B (k * 16 + j) - B (j * 16 + k)) = 0 := by
  have difference (i j : Nat) :
      ∑ k ∈ Finset.range 16, A (i * 16 + k) * (B (k * 16 + j) - B (j * 16 + k)) = 0 ↔
        ∑ k ∈ Finset.range 16, A (i * 16 + k) * B (j * 16 + k) =
          ∑ k ∈ Finset.range 16, A (i * 16 + k) * B (k * 16 + j) := by
    simp only [mul_sub, Finset.sum_sub_distrib, sub_eq_zero]
    exact eq_comm
  constructor
  · rintro ⟨written, values⟩
    have one : N = 16 := by
      by_contra other
      have large : 32 ≤ N := by omega
      exact last_row_unwritten whole large (written (N - 1) (by omega) 0 positive)
    subst one
    refine ⟨rfl, ?_⟩
    intro i row j column
    rw [difference, ← values i row j column, (single_tile launch i row j column).2]
  · rintro ⟨rfl, same⟩
    refine ⟨fun i row j column => (single_tile launch i row j column).1, ?_⟩
    intro i row j column
    rw [(single_tile launch i row j column).2, ← difference]
    exact same i row j column

end

theorem gemm_tensor_core_iff_ones : ∃ c₁ : Nat → Int,
    Launch (gemmTensorCoreRun (fun _ => 1) (fun _ => 1) 16) (fun _ => 0) c₁ ∧
    (((∀ i < 16, ∀ j < 16,
        Assigned (gemmTensorCoreRun (fun _ : Nat => (1 : Int)) (fun _ => 1) 16) (i * 16 + j)) ∧
      ∀ i < 16, ∀ j < 16, c₁ (i * 16 + j) = ∑ _k ∈ Finset.range 16, 1 * 1) ↔
    16 = 16 ∧ ∀ i < 16, ∀ j < 16, ∑ _k ∈ Finset.range 16, (1 : Int) * (1 - 1) = 0) := by
  obtain ⟨c₁, launch⟩ :=
    exists_launch (gemmTensorCoreRun (fun _ => (1 : Int)) (fun _ => 1) 16) fun _ => 0
  exact ⟨c₁, launch, gemm_tensor_core_iff (by decide) (by decide) launch⟩

/-- With the ones of the program and two rows of tiles, the second row stays as it was. -/
theorem second_row_missing : ∃ c₁ : Nat → Int,
    Launch (gemmTensorCoreRun (fun _ => 1) (fun _ => 1) 32) (fun _ => 0) c₁ ∧
    ¬((∀ i < 32, ∀ j < 32,
        Assigned (gemmTensorCoreRun (fun _ : Nat => (1 : Int)) (fun _ => 1) 32) (i * 32 + j)) ∧
      ∀ i < 32, ∀ j < 32, c₁ (i * 32 + j) = ∑ _k ∈ Finset.range 32, 1 * 1) := by
  obtain ⟨c₁, launch⟩ :=
    exists_launch (gemmTensorCoreRun (fun _ => (1 : Int)) (fun _ => 1) 32) fun _ => 0
  refine ⟨c₁, launch, ?_⟩
  rintro ⟨written, -⟩
  exact last_row_unwritten (by decide) (by decide) (written 31 (by decide) 0 (by decide))

end CudaOpenMp.TensorCore
