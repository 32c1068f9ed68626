import CudaOpenMp.Gemm.Tiles
import CudaOpenMp.Library.CInt
import CudaOpenMp.Library.Loops

/-!
The first two products of `gemm_4ways_fp16_simpler.cu`: one thread for each element, and one
warp for each tile. Their indices are ints.
-/

namespace CudaOpenMp.FourWays

open Rasters Stores Tiling Wmma Gemm

variable {R H : Type}

section
variable (Brow : Nat → R) (K N : Nat)

def copyLoops : Option (List (Store R)) := do
  let rows ← (List.range K).mapM fun (k : Nat) => (List.range N).mapM fun (n : Nat) => do
    let dst ← intIndex n K k
    let src ← intIndex k N n
    return (assign dst fun _ => Brow src : Store R)
  return rows.flatten

def rowToColMajorB (Bcol : Nat → R) : Option (Nat → R) :=
  (copyLoops Brow K N).map fun copies => exec copies Bcol

end

theorem index_lt {M K r k : Nat} (small : M * K < 2 ^ 31) (row : r < M) (column : k < K) :
    r * K + k < 2 ^ 31 := by
  have below := cell_lt (p := (k, r)) ⟨column, row⟩
  rw [cell, Nat.mul_comm K] at below
  exact below.trans small

theorem copyLoops_eq (Brow : Nat → R) {K N : Nat} (small : K * N < 2 ^ 31) :
    copyLoops Brow K N = some ((List.range K).flatMap fun k => (List.range N).map fun n =>
      assign (n * K + k) fun _ => Brow (k * N + n)) := by
  have copied (k : Nat) (row : k ∈ List.range K) (n : Nat) (column : n ∈ List.range N) :
      (do let dst ← intIndex n K k
          let src ← intIndex k N n
          return (assign dst fun _ => Brow src : Store R)) =
        some (assign (n * K + k) fun _ => Brow (k * N + n)) := by
    have below := List.mem_range.mp row
    have left := List.mem_range.mp column
    simp only [intIndex_eq (index_lt small below left),
      intIndex_eq (index_lt (by rwa [Nat.mul_comm]) left below), Option.bind_eq_bind,
      Option.bind_some, Option.pure_def]
  rw [copyLoops, Loops.mapM_some fun k row => Loops.mapM_some (copied k row), List.flatMap_def]
  rfl

theorem exists_rowToColMajorB (Brow Bcol : Nat → R) {K N : Nat} (small : K * N < 2 ^ 31) :
    ∃ copy, rowToColMajorB Brow K N Bcol = some copy ∧
      ∀ n < N, ∀ k < K, copy (n * K + k) = Brow (k * N + n) := by
  let copies : List (Store R) := (List.range K).flatMap fun k => (List.range N).map fun n =>
    assign (n * K + k) fun _ => Brow (k * N + n)
  have launch := exec_launch copies Bcol
  obtain ⟨values, -⟩ := launch.values (fun l => Brow (l % K * N + l / K)) (by
    intro _ a member m
    obtain ⟨k, below, member⟩ := List.mem_flatMap.mp member
    obtain ⟨n, _, rfl⟩ := List.mem_map.mp member
    obtain ⟨quotient, remainder⟩ := div_mod_row (r := n) (List.mem_range.mp below)
    simp only [assign, quotient, remainder])
  refine ⟨_, by rw [rowToColMajorB, copyLoops_eq Brow small, Option.map_some], ?_⟩
  intro n column k row
  have assigned : Assigned (fun _ : Unit => copies) (n * K + k) := by
    refine ⟨(), assign (n * K + k) fun _ => Brow (k * N + n), ?_, rfl⟩
    exact List.mem_flatMap.mpr ⟨k, List.mem_range.mpr row,
      List.mem_map_of_mem (List.mem_range.mpr column)⟩
  obtain ⟨quotient, remainder⟩ := div_mod_row (r := n) row
  rw [values _ assigned, quotient, remainder]

variable [NonUnitalNonAssocSemiring R]

section
variable (float2half : R → H) (A B : Nat → R) (M N K : Nat)

def acc (r c : Nat) : Option R :=
  (List.range K).foldlM (fun acc (k : Nat) => do
    return acc + A (← intIndex r K k) * B (← intIndex k N c)) 0

def naiveGemmFp16 (place : Place (gridSize N M (16, 16)) (16, 16)) : Option (List (Store H)) :=
  let (c, r) := place.pixel
  if r ≥ M ∨ c ≥ N then some []
  else do
    let acc ← acc A B N K r c
    let index ← intIndex r N c
    return [assign index fun _ => float2half acc]

/-- The thread of an element stores the rounded product, and the others store nothing. -/
def naiveStores (place : Place (gridSize N M (16, 16)) (16, 16)) : List (Store H) :=
  let (c, r) := place.pixel
  if r ≥ M ∨ c ≥ N then [] else [assign (r * N + c) fun _ => float2half (product A B N K r c)]

end

section
variable {float2half : R → H} {A B : Nat → R} {M N K : Nat}

theorem acc_eq (left : M * K < 2 ^ 31) (right : K * N < 2 ^ 31) {r c : Nat} (row : r < M)
    (column : c < N) : acc A B N K r c = some (product A B N K r c) := by
  have step (sum : R) (k : Nat) (member : k ∈ List.range K) :
      (do return sum + A (← intIndex r K k) * B (← intIndex k N c)) =
        some (sum + A (r * K + k) * B (k * N + c)) := by
    have inner := List.mem_range.mp member
    simp only [intIndex_eq (index_lt left row inner), intIndex_eq (index_lt right inner column),
      Option.bind_eq_bind, Option.bind_some, Option.pure_def]
  rw [acc, Loops.foldlM_some 0 step, foldl_add, zero_add, product]

theorem naive_eq (left : M * K < 2 ^ 31) (right : K * N < 2 ^ 31) (small : M * N < 2 ^ 31)
    (place : Place (gridSize N M (16, 16)) (16, 16)) :
    naiveGemmFp16 float2half A B M N K place = some (naiveStores float2half A B M N K place) := by
  simp only [naiveGemmFp16, naiveStores]
  split
  · rfl
  · next inside =>
    rw [acc_eq left right (by omega) (by omega), Option.bind_eq_bind, Option.bind_some,
      intIndex_eq (index_lt small (by omega) (by omega))]
    rfl

theorem naive_stores {n₀ n₁ : Nat → H} (launch : Launch (naiveStores float2half A B M N K) n₀ n₁)
    {r c : Nat} (row : r < M) (column : c < N) :
    n₁ (r * N + c) = float2half (product A B N K r c) := by
  obtain ⟨values, -⟩ := launch.values (fun l => float2half (product A B N K (l / N) (l % N))) (by
    intro place a member m
    simp only [naiveStores] at member
    split at member
    · cases member
    · next bounds =>
      cases List.mem_singleton.mp member
      obtain ⟨quotient, remainder⟩ :=
        @div_mod_row N place.pixel.2 place.pixel.1 (by omega)
      simp only [assign, quotient, remainder])
  obtain ⟨place, same⟩ : ∃ place : Place (gridSize N M (16, 16)) (16, 16),
      place.pixel = (c, r) := exists_place ⟨by decide, by decide⟩ ⟨column, row⟩
  have assigned : Assigned (naiveStores float2half A B M N K) (r * N + c) := by
    refine ⟨place, assign (r * N + c) fun _ => float2half (product A B N K r c), ?_, rfl⟩
    simp only [naiveStores, same]
    rw [if_neg (by omega)]
    exact List.mem_singleton_self _
  obtain ⟨quotient, remainder⟩ := div_mod_row (r := r) column
  rw [values _ assigned, quotient, remainder]

end

def warpSize : Nat := 32

def gw (block thread : Nat) : Nat := (block * 128 + thread) / warpSize

theorem gw_lane {block warp lane : Nat} (bound : lane < 32) :
    gw block (warp * 32 + lane) = block * 4 + warp := by
  rw [gw, warpSize]
  omega

def tileStart (tile ld : Nat) : Option Nat := do
  let row ← int32 (tile * 16)
  let start ← int32 (row * ld)
  return start.toNat

section
variable (A Bcol : Nat → R) (M N K : Nat)

def accF (tr tc : Nat) : Option (Fragment 16 16 R) := do
  let aTile ← tileStart tr K
  let bTile ← tileStart tc K
  return mmaLoop ((K + 15) / 16)
    (fun turn => loadMatrixSync (n := 16) .rowMajor A (aTile + turn * 16) K)
    (fun turn => loadMatrixSync .colMajor Bcol (bTile + turn * 16) K)

def warpGemm (gw : Nat) : Option (List (Store R)) :=
  let tilesN := N / 16
  let tr := gw / tilesN
  let tc := gw % tilesN
  if tr * 16 ≥ M ∨ tc * 16 ≥ N then some []
  else do
    let accF ← accF A Bcol K tr tc
    let cTile ← tileStart tr N
    return storeMatrixSync (cTile + tc * 16) N accF

def wmmaGemmKernel (block thread : Nat) : Option (List (Store R)) :=
  warpGemm A Bcol M N K (gw block thread)

def tiles : Nat := M / 16 * (N / 16)

abbrev Warp (M N : Nat) := Fin ((tiles M N + 4 - 1) / 4) × Fin 4

/-- The operations on fragments are those of a warp, which runs them as its first lane does. -/
def runWmma (warp : Warp M N) : Option (List (Store R)) :=
  wmmaGemmKernel A Bcol M N K warp.1 (warp.2 * 32)

def tileProduct (tr tc : Nat) : Fragment 16 16 R :=
  mmaLoop ((K + 15) / 16)
    (fun turn => loadMatrixSync (n := 16) .rowMajor A (tr * 16 * K + turn * 16) K)
    (fun turn => loadMatrixSync .colMajor Bcol (tc * 16 * K + turn * 16) K)

def warpStores (gw : Nat) : List (Store R) :=
  let tilesN := N / 16
  let tr := gw / tilesN
  let tc := gw % tilesN
  if tr * 16 ≥ M ∨ tc * 16 ≥ N then []
  else storeMatrixSync (tr * 16 * N + tc * 16) N (tileProduct A Bcol K tr tc)

end

def Warp.number {M N : Nat} (warp : Warp M N) : Nat := warp.1 * 4 + warp.2

theorem tileStart_eq {tile size ld : Nat} (small : size * ld < 2 ^ 31) (positive : 0 < ld)
    (starts : tile * 16 < size) : tileStart tile ld = some (tile * 16 * ld) := by
  have rows : tile * 16 * ld ≤ size * ld := Nat.mul_le_mul_right ld (Nat.le_of_lt starts)
  have row : tile * 16 ≤ tile * 16 * ld := Nat.le_mul_of_pos_right _ positive
  have first : int32 ((tile : Int) * 16) = some ((tile * 16 : Nat) : Int) :=
    @int32_natCast (tile * 16) (by omega)
  have start : int32 (((tile * 16 : Nat) : Int) * ld) = some ((tile * 16 * ld : Nat) : Int) := by
    rw [← Int.natCast_mul]
    exact int32_natCast (by omega)
  rw [tileStart, first, Option.bind_eq_bind, Option.bind_some, start]
  rfl

theorem number_eq (A Bcol : Nat → R) (M N K : Nat) (warp : Warp M N) :
    runWmma A Bcol M N K warp = warpGemm A Bcol M N K warp.number := by
  have number : gw warp.1 (warp.2 * 32) = warp.number := @gw_lane warp.1 warp.2 0 (by decide)
  rw [runWmma, wmmaGemmKernel, number]

section
variable {A Brow Bcol : Nat → R} {M N K : Nat}

theorem runWmma_eq (left : M * K < 2 ^ 31) (right : K * N < 2 ^ 31) (small : M * N < 2 ^ 31)
    (depth : 0 < K) (warp : Warp M N) :
    runWmma A Bcol M N K warp = some (warpStores A Bcol M N K warp.number) := by
  rw [number_eq]
  simp only [warpGemm, warpStores]
  split
  · rfl
  · next inside =>
    have row : warp.number / (N / 16) * 16 < M := by omega
    have column : warp.number % (N / 16) * 16 < N := by omega
    rw [accF, tileStart_eq left depth row, tileStart_eq (by rwa [Nat.mul_comm]) depth column,
      tileStart_eq small (by omega) row]
    rfl

theorem tileProduct_apply (whole : 16 ∣ K) {tr tc : Nat} {i j : Fin 16}
    (copy : ∀ k < K, Bcol ((tc * 16 + j) * K + k) = Brow (k * N + (tc * 16 + j))) :
    tileProduct A Bcol K tr tc i j = product A Brow N K (tr * 16 + i) (tc * 16 + j) := by
  have turns : (K + 15) / 16 * 16 = K := by omega
  rw [tileProduct, mmaLoop_tiles (fun k => A ((tr * 16 + i) * K + k))
    (fun k => Brow (k * N + (tc * 16 + j))), turns, product]
  · intro turn _ l
    exact load_rows i l
  · intro turn below l
    rw [load_columns]
    apply copy
    omega

theorem warp_surplus (columns : 0 < N ∧ 16 ∣ N) (rows : 16 ∣ M) {gw : Nat} :
    gw / (N / 16) * 16 ≥ M ∨ gw % (N / 16) * 16 ≥ N ↔ tiles M N ≤ gw := by
  obtain ⟨positive, t, rfl⟩ := columns
  obtain ⟨s, rfl⟩ := rows
  have some : 0 < t := by omega
  have last := Nat.mod_lt gw some
  simp only [tiles, Nat.mul_div_cancel_left _ (by decide : 0 < 16)]
  rw [← Nat.le_div_iff_mul_le some]
  omega

theorem writes_warpStores (columns : 0 < N ∧ 16 ∣ N) (rows : 16 ∣ M) {gw l : Nat} :
    Writes (warpStores A Bcol M N K gw) l ↔
      gw < tiles M N ∧ Tile N (gw / (N / 16)) (gw % (N / 16)) l := by
  have surplus := @warp_surplus M N columns rows gw
  simp only [warpStores]
  by_cases work : gw < tiles M N
  · rw [if_neg (by rw [surplus]; omega), writes_tile]
    exact (and_iff_right work).symm
  · rw [if_pos (surplus.mpr (by omega))]
    simp [Writes, work]

theorem exists_number {n : Nat} (below : n < tiles M N) : ∃ warp : Warp M N, warp.number = n :=
  ⟨(⟨n / 4, block_lt (by decide) below⟩, ⟨n % 4, Nat.mod_lt _ (by decide)⟩),
    Nat.div_add_mod' n 4⟩

theorem number_inj {first second : Warp M N} (same : first.number = second.number) :
    first = second := by
  have low := first.2.isLt
  have other := second.2.isLt
  simp only [Warp.number] at same
  apply Prod.ext <;> apply Fin.ext <;> omega

theorem tile_warp (columns : 0 < N ∧ 16 ∣ N) (rows : 16 ∣ M) {tr tc : Nat} (row : tr < M / 16)
    (column : tc < N / 16) : ∃ warp : Warp M N,
      (∀ l, Tile N tr tc l → Writes (warpStores A Bcol M N K warp.number) l) ∧
        ∀ (other : Warp M N) (l : Nat), Tile N tr tc l →
          Writes (warpStores A Bcol M N K other.number) l → other = warp := by
  have below : tr * (N / 16) + tc < tiles M N := by
    rw [tiles, Nat.mul_comm (M / 16)]
    exact cell_lt (p := (tc, tr)) ⟨column, row⟩
  obtain ⟨quotient, remainder⟩ := div_mod_row (r := tr) column
  obtain ⟨warp, number⟩ := exists_number below
  refine ⟨warp, ?_, ?_⟩
  · intro l tile
    rw [writes_warpStores columns rows, number, quotient, remainder]
    exact ⟨below, tile⟩
  · intro other l tile writes
    rw [writes_warpStores columns rows] at writes
    obtain ⟨_, same⟩ := writes
    obtain ⟨sameRow, sameColumn⟩ := same.coordinates columns.2 (by
      have last := Nat.mod_lt other.number (by omega : 0 < N / 16)
      omega)
    obtain ⟨ownRow, ownColumn⟩ := tile.coordinates columns.2 (by omega)
    apply number_inj
    rw [number, ← Nat.div_add_mod' other.number (N / 16), sameRow, sameColumn, ownRow, ownColumn]

theorem writes_element (columns : 0 < N ∧ 16 ∣ N) (rows : 16 ∣ M) {r c : Nat} (row : r < M)
    (column : c < N) :
    Assigned (fun warp : Warp M N => warpStores A Bcol M N K warp.number) (r * N + c) := by
  obtain ⟨warp, all, -⟩ := @tile_warp R _ A Bcol M N K columns rows (r / 16) (c / 16)
    (by omega) (by omega)
  exact ⟨warp, all _ tile_of_cell⟩

theorem warpStores_value (columns : 0 < N ∧ 16 ∣ N) (whole : 16 ∣ K)
    (copy : ∀ n < N, ∀ k < K, Bcol (n * K + k) = Brow (k * N + n)) {gw : Nat}
    {a : Store R} (member : a ∈ warpStores A Bcol M N K gw) (m : Memory fun _ : Nat => R) :
    a.value m = some (product A Brow N K (a.loc / N) (a.loc % N)) := by
  simp only [warpStores] at member
  split at member
  · cases member
  · next work =>
    obtain ⟨i, j, rfl⟩ := mem_store_tile.mp member
    have starts : gw % (N / 16) * 16 < N := by omega
    have inside := mul_sixteen_add columns.2 starts j
    obtain ⟨quotient, remainder⟩ := div_mod_row (r := gw / (N / 16) * 16 + i) inside
    simp only [assign, cell]
    rw [quotient, remainder, tileProduct_apply whole (copy _ inside)]

end

theorem run_wmma_like_naive (float2half : R → H) (A Brow bcol : Nat → R) {M N K : Nat}
    (rows : 0 < M ∧ 16 ∣ M) (columns : 0 < N ∧ 16 ∣ N) (depth : 0 < K ∧ 16 ∣ K)
    (left : M * K < 2 ^ 31) (right : K * N < 2 ^ 31) (small : M * N < 2 ^ 31) :
    ∃ Bcol stores naive, rowToColMajorB Brow K N bcol = some Bcol ∧
      (∀ warp : Warp M N, runWmma A Bcol M N K warp = some (stores warp)) ∧
      (∀ place, naiveGemmFp16 float2half A Brow M N K place = some (naive place)) ∧
      (∀ c₀ c₁ n₀ n₁, Launch stores c₀ c₁ → Launch naive n₀ n₁ → ∀ r < M, ∀ c < N,
        Assigned stores (r * N + c) ∧ acc A Brow N K r c = some (c₁ (r * N + c)) ∧
          n₁ (r * N + c) = float2half (c₁ (r * N + c))) ∧
      (∀ tr < M / 16, ∀ tc < N / 16, ∃ warp,
        (∀ l, Tile N tr tc l → Writes (stores warp) l) ∧
        ∀ other l, Tile N tr tc l → Writes (stores other) l → other = warp) ∧
      ∀ warp : Warp M N, tiles M N ≤ warp.number → stores warp = [] := by
  obtain ⟨Bcol, copied, copy⟩ := exists_rowToColMajorB Brow bcol right
  refine ⟨Bcol, fun warp => warpStores A Bcol M N K warp.number, _, copied,
    runWmma_eq left right small depth.1, naive_eq left right small, ?_, ?_, ?_⟩
  · intro c₀ c₁ n₀ n₁ wmma naive r row c column
    obtain ⟨values, -⟩ := wmma.values (fun l => product A Brow N K (l / N) (l % N))
      fun _ _ member m => warpStores_value columns depth.2 copy member m
    obtain ⟨quotient, remainder⟩ := div_mod_row (r := r) column
    have assigned : Assigned (fun warp : Warp M N => warpStores A Bcol M N K warp.number)
        (r * N + c) := writes_element columns rows.2 row column
    have same : c₁ (r * N + c) = product A Brow N K r c := by
      rw [values _ assigned, quotient, remainder]
    exact ⟨assigned, by rw [acc_eq left right row column, same],
      by rw [naive_stores naive row column, same]⟩
  · intro tr row tc column
    exact tile_warp columns rows.2 row column
  · intro warp surplus
    exact if_pos ((warp_surplus columns rows.2).mpr surplus)

/-- Numbers between -6 and 6, whose products have sums that need no rounding. -/
def filled (i : Nat) : Int := (i % 13 : Nat) - 6

theorem run_wmma_like_naive_filled : ∃ Bcol stores, ∃ c₁ n₁ : Nat → Int,
    rowToColMajorB filled 48 32 (fun _ => 0) = some Bcol ∧
    (∀ warp : Warp 16 32, runWmma filled Bcol 16 32 48 warp = some (stores warp)) ∧
    ∀ r < 16, ∀ c < 32, Assigned stores (r * 32 + c) ∧
      acc filled filled 32 48 r c = some (c₁ (r * 32 + c)) ∧
        n₁ (r * 32 + c) = id (c₁ (r * 32 + c)) := by
  obtain ⟨Bcol, stores, naive, copied, warps, _, same, _⟩ := run_wmma_like_naive id filled filled
    (fun _ => 0) (M := 16) (N := 32) (K := 48) ⟨by decide, by decide⟩ ⟨by decide, by decide⟩
    ⟨by decide, by decide⟩ (by decide) (by decide) (by decide)
  obtain ⟨c₁, wmma⟩ := exists_launch stores fun _ => 0
  obtain ⟨n₁, plain⟩ := exists_launch naive fun _ => 0
  exact ⟨Bcol, stores, c₁, n₁, copied, warps, same _ c₁ _ n₁ wmma plain⟩

/-- The last tile of rows starts at an offset that is no int. -/
theorem last_tile_overflows : (0 < 46352 ∧ 16 ∣ 46352) ∧ (0 < 16 ∧ 16 ∣ 16) ∧
    ∀ A Bcol : Nat → Int, ∃ warp : Warp 46352 16, runWmma A Bcol 46352 16 46352 warp = none := by
  refine ⟨by decide, by decide, fun A Bcol => ?_⟩
  obtain ⟨warp, number⟩ := @exists_number 46352 16 2896 (by decide)
  have start : tileStart 2896 46352 = none := by decide
  refine ⟨warp, ?_⟩
  rw [number_eq, number]
  simp only [warpGemm, accF]
  rw [if_neg (by decide), show 2896 / (16 / 16) = 2896 from rfl, start]
  rfl

end CudaOpenMp.FourWays
