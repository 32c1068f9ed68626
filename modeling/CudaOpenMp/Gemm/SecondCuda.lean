import CudaOpenMp.Gemm.Tiles
import CudaOpenMp.Library.CInt
import CudaOpenMp.Library.Loops

/-!
The product of `second_cuda.cu`: rows padded to whole tiles, tiles in shared memory and a
compensated sum. Arrays hold a number at the byte address of each of their elements.
-/

namespace CudaOpenMp.SecondCuda

open Rasters Stores Tiling Gemm

variable {R : Type}

def blockSize : Nat := 16

def sizeofDouble : Nat := 8

def element (array : Nat → R) (index : Nat) : R := array (sizeofDouble * index)

def turns (n : Nat) : Nat := (n + blockSize - 1) / blockSize

def newn (n : Nat) : Nat := turns n * blockSize

inductive Cell where
  | matA (row column : Nat)
  | matB (row column : Nat)
deriving DecidableEq

abbrev Shared (R : Type) := Memory fun _ : Cell => R

abbrev Lane := Fin blockSize × Fin blockSize

def bidc (block : Nat × Nat) : Nat := block.1 * blockSize

def bidr (block : Nat × Nat) : Nat := block.2 * blockSize

def aIndex (lda : Nat) (block : Nat × Nat) (thread : Lane) (j : Nat) : Nat :=
  (thread.2 + bidr block) * lda + thread.1 + j

def bIndex (ldb : Nat) (block : Nat × Nat) (thread : Lane) (j : Nat) : Nat :=
  (thread.2 + j) * ldb + thread.1 + bidc block

def cIndex (ldc : Nat) (block : Nat × Nat) (thread : Lane) : Nat :=
  (thread.2 + bidr block) * ldc + thread.1 + bidc block

def loadTiles (a b : Nat → R) (lda ldb : Nat) (block : Nat × Nat) (j : Nat) (thread : Lane) :
    List (Assign fun _ : Cell => R) :=
  [assign (.matA thread.2 thread.1) fun _ => element a (aIndex lda block thread j),
    assign (.matB thread.2 thread.1) fun _ => element b (bIndex ldb block thread j)]

structure Registers (R : Type) where
  results : R
  comp : R

section
variable [NonUnitalNonAssocRing R]

def compensate (registers : Registers R) (term : R) : Registers R :=
  let comp := registers.comp - term
  let t := registers.results - comp
  ⟨t, (t - registers.results) + comp⟩

def multiply (tiles : Shared R) (thread : Lane) (registers : Registers R) : Registers R :=
  (List.range blockSize).foldl (fun registers i =>
    compensate registers (tiles (.matA thread.2 i) * tiles (.matB i thread.1))) registers

def accumulate (tiles : Nat → Shared R) (thread : Lane) (n : Nat) : Registers R :=
  (List.range (turns n)).foldl (fun registers turn => multiply (tiles (turn + 1)) thread registers)
    ⟨0, 0⟩

abbrev ThreadPlace (n : Nat) := Place (gridSize n n (blockSize, blockSize)) (blockSize, blockSize)

def blockOf {n : Nat} (place : ThreadPlace n) : Nat × Nat := (place.1.1, place.1.2)

def storeResults (tiles : Nat × Nat → Nat → Shared R) (ldc n : Nat) (place : ThreadPlace n) :
    List (Store R) :=
  [assign (sizeofDouble * cIndex ldc (blockOf place) place.2) fun _ =>
    (accumulate (tiles (blockOf place)) place.2 n).results]

/-- In each turn the threads of a block fill its tiles, and read them between two barriers. The
memory of a block starts with any contents. -/
def MatMultCUDA (a b : Nat → R) (lda ldb ldc n : Nat) (before after : Nat → R) : Prop :=
  ∃ tiles : Nat × Nat → Nat → Shared R,
    (∀ place : ThreadPlace n, ∀ turn < turns n,
      Launch (loadTiles a b lda ldb (blockOf place) (turn * blockSize))
        (tiles (blockOf place) turn) (tiles (blockOf place) (turn + 1))) ∧
    Launch (storeResults tiles ldc n) before after

def cudaMemset (count : Nat) : List (Store R) :=
  (List.range (count / sizeofDouble)).map fun e => assign (sizeofDouble * e) fun _ => 0

end

def cudaMemcpy2D (dpitch : Nat) (src : Nat → R) (spitch width height : Nat) : List (Store R) :=
  (List.range height).flatMap fun row => (List.range (width / sizeofDouble)).map fun e =>
    assign (row * dpitch + sizeofDouble * e) fun _ => src (row * spitch + sizeofDouble * e)

section
variable [NonUnitalNonAssocRing R]

/-- The copy of a matrix on the device, in an allocation with any contents. -/
def toDevice (pitch : Nat) (matrix : Nat → R) (ld n : Nat) : List (Store R) :=
  cudaMemset (pitch * newn n) ++
    cudaMemcpy2D pitch matrix (sizeofDouble * ld) (sizeofDouble * n) n

/-- What `cudaMallocPitch` returns for rows of `newn` numbers. -/
def IsPitch (n pitch : Nat) : Prop := sizeofDouble * newn n ≤ pitch ∧ sizeofDouble ∣ pitch

def MatmultCUDA (a : Nat → R) (lda : Nat) (b : Nat → R) (ldb ldc n pitchA pitchB pitchC : Nat)
    (before after : Nat → R) : Prop :=
  ∃ ac bc cc cc' : Nat → R,
    MatMultCUDA (exec (toDevice pitchA a lda n) ac) (exec (toDevice pitchB b ldb n) bc)
      (pitchA / sizeofDouble) (pitchB / sizeofDouble) (pitchC / sizeofDouble) n cc cc' ∧
    after = exec (cudaMemcpy2D (sizeofDouble * ldc) cc' pitchC (sizeofDouble * n) n) before

section
variable (a : Nat → R) (lda : Nat) (b : Nat → R) (ldb ldc n : Nat)

/-- The loop over `k`; the indices are ints, unlike those of the kernel. -/
def matmultSum (i j : Nat) : Option R :=
  (List.range n).foldlM (fun t (k : Nat) => do
    return t + element a (← intIndex i lda k) * element b (← intIndex k ldb j)) 0

def matmultElement (i j : Nat) : Option (Store R) := do
  let t ← matmultSum a lda b ldb n i j
  let index ← intIndex i ldc j
  return assign (sizeofDouble * index) fun _ => t

def matmult : Option (List (Store R)) := do
  let rows ← (List.range n).mapM fun i =>
    (List.range n).mapM fun j => matmultElement a lda b ldb ldc n i j
  return rows.flatten

end

end

section
variable {dpitch spitch width height : Nat} {src before : Nat → R}

theorem memcpy2D_assigned {l : Nat} :
    Assigned (fun _ : Unit => cudaMemcpy2D dpitch src spitch width height) l ↔
      ∃ row < height, ∃ e < width / sizeofDouble, l = row * dpitch + sizeofDouble * e := by
  constructor
  · rintro ⟨_, a, member, rfl⟩
    obtain ⟨row, below, member⟩ := List.mem_flatMap.mp member
    obtain ⟨e, column, rfl⟩ := List.mem_map.mp member
    exact ⟨row, List.mem_range.mp below, e, List.mem_range.mp column, rfl⟩
  · rintro ⟨row, below, e, column, rfl⟩
    refine ⟨(), assign (row * dpitch + sizeofDouble * e) fun _ => src (row * spitch + sizeofDouble * e),
      ?_, rfl⟩
    exact List.mem_flatMap.mpr ⟨row, List.mem_range.mpr below,
      List.mem_map_of_mem (List.mem_range.mpr column)⟩

theorem memcpy2D_values (fits : width ≤ dpitch) :
    (∀ row < height, ∀ e < width / sizeofDouble,
      exec (cudaMemcpy2D dpitch src spitch width height) before (row * dpitch + sizeofDouble * e) =
        src (row * spitch + sizeofDouble * e)) ∧
    ∀ l, (∀ row < height, ∀ e < width / sizeofDouble, l ≠ row * dpitch + sizeofDouble * e) →
      exec (cudaMemcpy2D dpitch src spitch width height) before l = before l := by
  have inRow {row e : Nat} (column : e < width / sizeofDouble) :
      (row * dpitch + sizeofDouble * e) / dpitch = row ∧
        (row * dpitch + sizeofDouble * e) % dpitch = sizeofDouble * e := by
    apply div_mod_row
    have whole := Nat.mul_div_le width sizeofDouble
    have next := Nat.mul_le_mul_left sizeofDouble (Nat.succ_le_of_lt column)
    have positive : 0 < sizeofDouble := by decide
    rw [Nat.mul_succ] at next
    omega
  have launch := exec_launch (cudaMemcpy2D dpitch src spitch width height) before
  obtain ⟨values, rest⟩ := launch.values (fun l => src (l / dpitch * spitch + l % dpitch)) (by
    intro _ a member m
    obtain ⟨row, _, member⟩ := List.mem_flatMap.mp member
    obtain ⟨e, column, rfl⟩ := List.mem_map.mp member
    obtain ⟨quotient, remainder⟩ := @inRow row e (List.mem_range.mp column)
    simp only [assign, quotient, remainder])
  constructor
  · intro row below e column
    obtain ⟨quotient, remainder⟩ := @inRow row e column
    rw [values _ (memcpy2D_assigned.mpr ⟨row, below, e, column, rfl⟩), quotient, remainder]
  · intro l other
    apply rest
    rw [memcpy2D_assigned]
    rintro ⟨row, below, e, column, same⟩
    exact other row below e column same

end

/-! Tiles. -/

theorem aIndex_eq (lda : Nat) (block : Nat × Nat) (thread : Lane) (j : Nat) :
    aIndex lda block thread j = (bidr block + thread.2) * lda + (j + thread.1) := by
  rw [aIndex, Nat.add_comm (bidr block)]
  omega

theorem bIndex_eq (ldb : Nat) (block : Nat × Nat) (thread : Lane) (j : Nat) :
    bIndex ldb block thread j = (j + thread.2) * ldb + (bidc block + thread.1) := by
  rw [bIndex, Nat.add_comm j]
  omega

theorem tile_lt {n tile lane : Nat} (low : tile < turns n) (inner : lane < blockSize) :
    tile * blockSize + lane < newn n := by
  have next := Nat.mul_le_mul_right blockSize (Nat.succ_le_of_lt low)
  rw [Nat.succ_mul] at next
  rw [newn]
  omega

theorem tiles_loaded {a b : Nat → R} {lda ldb : Nat} {block : Nat × Nat} {j : Nat}
    {before after : Shared R} (launch : Launch (loadTiles a b lda ldb block j) before after)
    (row column : Fin blockSize) :
    after (.matA row column) = element a (aIndex lda block (column, row) j) ∧
      after (.matB row column) = element b (bIndex ldb block (column, row) j) := by
  obtain ⟨values, -⟩ := launch.values
    (fun cell => match cell with
      | .matA r c => element a ((r + bidr block) * lda + c + j)
      | .matB r c => element b ((r + j) * ldb + c + bidc block)) (by
    intro thread s member m
    rcases List.mem_cons.mp member with rfl | later
    · rfl
    · rw [List.mem_singleton.mp later]
      rfl)
  constructor
  · exact values (.matA row column) ⟨(column, row), _, List.mem_cons_self, rfl⟩
  · exact values (.matB row column)
      ⟨(column, row), _, List.mem_cons_of_mem _ List.mem_cons_self, rfl⟩

section
variable [NonUnitalNonAssocRing R]

theorem memset_cell {count e : Nat} (below : e < count / sizeofDouble) (before : Nat → R) :
    exec (cudaMemset count) before (sizeofDouble * e) = 0 := by
  have launch := exec_launch (cudaMemset (R := R) count) before
  obtain ⟨values, -⟩ := launch.values (fun _ => 0) (by
    intro _ a member m
    obtain ⟨_, _, rfl⟩ := List.mem_map.mp member
    rfl)
  exact values _ ⟨(), _, List.mem_map_of_mem (List.mem_range.mpr below), rfl⟩

theorem element_row {pitch : Nat} (aligned : sizeofDouble ∣ pitch) (row column : Nat) :
    sizeofDouble * (row * (pitch / sizeofDouble) + column) = row * pitch + sizeofDouble * column := by
  rw [Nat.mul_add, Nat.mul_left_comm, Nat.mul_div_cancel' aligned]

theorem le_newn (n : Nat) : n ≤ newn n := by
  rw [newn, turns, Nat.mul_comm]
  exact IndexRanges.le_mul_ceil_div n blockSize (by decide)

theorem toDevice_element {n pitch ld row column : Nat} (isPitch : IsPitch n pitch)
    {matrix start : Nat → R} (below : row < newn n) (left : column < newn n) :
    element (exec (toDevice pitch matrix ld n) start) (row * (pitch / sizeofDouble) + column) =
      if row < n ∧ column < n then element matrix (row * ld + column) else 0 := by
  obtain ⟨wide, aligned⟩ := isPitch
  have padded := le_newn n
  have positive : 0 < sizeofDouble := by decide
  have cells : sizeofDouble * n / sizeofDouble = n := Nat.mul_div_cancel_left _ positive
  obtain ⟨copied, rest⟩ := @memcpy2D_values R pitch (sizeofDouble * ld) (sizeofDouble * n) n matrix
    (exec (cudaMemset (pitch * newn n)) start)
    ((Nat.mul_le_mul_left _ padded).trans wide)
  rw [cells] at copied rest
  rw [element, element_row aligned, toDevice, exec_append]
  split
  · next inside =>
    rw [copied row inside.1 column inside.2, element]
    congr 1
    rw [Nat.mul_add, Nat.mul_left_comm]
  · next outside =>
    rw [rest, ← element_row aligned]
    · apply memset_cell
      have line : column < pitch / sizeofDouble :=
        left.trans_le ((Nat.le_div_iff_mul_le positive).mpr (by rwa [Nat.mul_comm]))
      rw [Nat.mul_comm pitch, Nat.mul_div_assoc _ aligned, Nat.mul_comm (newn n)]
      exact cell_lt (p := (column, row)) ⟨line, below⟩
    · intro other inside e start same
      have first := @div_mod_row pitch row (sizeofDouble * column)
        ((Nat.mul_lt_mul_left positive).mpr left |>.trans_le wide)
      have second := @div_mod_row pitch other (sizeofDouble * e)
        ((Nat.mul_lt_mul_left positive).mpr (start.trans_le padded) |>.trans_le wide)
      rw [same, second.1, second.2] at first
      have column : e = column := Nat.eq_of_mul_eq_mul_left positive first.2
      omega

/-! The sums. -/

theorem compensate_exact (sum term : R) : compensate ⟨sum, 0⟩ term = ⟨sum + term, 0⟩ := by
  simp only [compensate, Registers.mk.injEq, zero_sub, sub_neg_eq_add]
  refine ⟨trivial, ?_⟩
  rw [add_sub_cancel_left, add_neg_cancel]

theorem compensate_fold (f : Nat → R) (count : Nat) (sum : R) :
    (List.range count).foldl (fun registers i => compensate registers (f i)) ⟨sum, 0⟩ =
      ⟨sum + ∑ i ∈ Finset.range count, f i, 0⟩ := by
  induction count with
  | zero => simp
  | succ count ih =>
      rw [List.range_succ, List.foldl_append, ih, Finset.sum_range_succ, ← add_assoc]
      exact compensate_exact _ _

theorem accumulate_exact (tiles : Nat → Shared R) (thread : Lane) (n : Nat) :
    accumulate tiles thread n = ⟨∑ turn ∈ Finset.range (turns n), ∑ i ∈ Finset.range blockSize,
      tiles (turn + 1) (.matA thread.2 i) * tiles (turn + 1) (.matB i thread.1), 0⟩ := by
  rw [accumulate]
  induction turns n with
  | zero => simp
  | succ count ih =>
      rw [List.range_succ, List.foldl_append, ih, Finset.sum_range_succ]
      exact compensate_fold _ _ _

section
variable {a b ac bc : Nat → R} {lda ldb n pitchA pitchB : Nat} {before after : Shared R}

theorem tiles_padded (pitches : IsPitch n pitchA ∧ IsPitch n pitchB) {block : Nat × Nat}
    {turn : Nat} (below : turn < turns n)
    (loaded : Launch (loadTiles (exec (toDevice pitchA a lda n) ac) (exec (toDevice pitchB b ldb n) bc)
      (pitchA / sizeofDouble) (pitchB / sizeofDouble) block (turn * blockSize)) before after)
    {row column i : Fin blockSize} (inside : bidr block + row < n ∧ bidc block + column < n) :
    after (.matA row i) * after (.matB i column) =
      if turn * blockSize + i < n then
        element a ((bidr block + row) * lda + (turn * blockSize + i)) *
          element b ((turn * blockSize + i) * ldb + (bidc block + column))
      else 0 := by
  have padded := le_newn n
  have start := tile_lt below i.isLt
  have below : bidr block + row.val < newn n := inside.1.trans_le padded
  have left : bidc block + column.val < newn n := inside.2.trans_le padded
  rw [(tiles_loaded loaded row i).1, (tiles_loaded loaded i column).2, aIndex_eq, bIndex_eq,
    toDevice_element pitches.1 below start, toDevice_element pitches.2 start left]
  by_cases short : turn * blockSize + i < n
  · rw [if_pos ⟨inside.1, short⟩, if_pos ⟨short, inside.2⟩, if_pos short]
  · rw [if_neg (fun both => short both.2), zero_mul, if_neg short]

theorem accumulate_product (pitches : IsPitch n pitchA ∧ IsPitch n pitchB) {block : Nat × Nat}
    {tiles : Nat → Shared R}
    (loaded : ∀ turn < turns n,
      Launch (loadTiles (exec (toDevice pitchA a lda n) ac) (exec (toDevice pitchB b ldb n) bc)
        (pitchA / sizeofDouble) (pitchB / sizeofDouble) block (turn * blockSize))
        (tiles turn) (tiles (turn + 1)))
    {thread : Lane} (inside : bidr block + thread.2 < n ∧ bidc block + thread.1 < n) :
    (accumulate tiles thread n).results = ∑ k ∈ Finset.range n,
      element a ((bidr block + thread.2) * lda + k) *
        element b (k * ldb + (bidc block + thread.1)) := by
  rw [accumulate_exact]
  let term (k : Nat) : R := element a ((bidr block + thread.2) * lda + k) *
    element b (k * ldb + (bidc block + thread.1))
  calc ∑ turn ∈ Finset.range (turns n), ∑ i ∈ Finset.range blockSize,
        tiles (turn + 1) (.matA thread.2 i) * tiles (turn + 1) (.matB i thread.1)
      = ∑ turn ∈ Finset.range (turns n), ∑ i ∈ Finset.range blockSize,
          if turn * blockSize + i < n then term (turn * blockSize + i) else 0 := by
        apply Finset.sum_congr rfl
        intro turn member
        have below := Finset.mem_range.mp member
        apply Finset.sum_congr rfl
        intro i lane
        exact tiles_padded pitches below (loaded turn below) (i := ⟨i, Finset.mem_range.mp lane⟩)
          inside
    _ = ∑ k ∈ Finset.range (newn n), if k < n then term k else 0 :=
        (sum_tiles blockSize (fun k => if k < n then term k else 0) (turns n)).symm
    _ = ∑ k ∈ Finset.range n, term k := by
        rw [← Finset.sum_filter]
        congr 1
        ext k
        have padded := le_newn n
        simp only [Finset.mem_filter, Finset.mem_range]
        omega

end

/-! The whole call. -/

section
variable {n : Nat}

theorem cIndex_pixel (ldc : Nat) (place : ThreadPlace n) :
    cIndex ldc (blockOf place) place.2 = cell ldc place.pixel := by
  simp only [cIndex, cell, Place.pixel, blockOf, bidr, bidc, Nat.add_comm place.2.2.val]
  omega

theorem pixel_lt_newn (place : ThreadPlace n) : Inside (newn n) (newn n) place.pixel :=
  ⟨tile_lt place.1.1.isLt place.2.1.isLt, tile_lt place.1.2.isLt place.2.2.isLt⟩

theorem newn_le_pitch {pitch : Nat} (isPitch : IsPitch n pitch) : newn n ≤ pitch / sizeofDouble := by
  rw [Nat.le_div_iff_mul_le (by decide), Nat.mul_comm]
  exact isPitch.1

theorem kernel_result {a b ac bc before after : Nat → R} {lda ldb pitchA pitchB pitchC : Nat}
    (pitches : IsPitch n pitchA ∧ IsPitch n pitchB) (isPitch : IsPitch n pitchC)
    (launch : MatMultCUDA (exec (toDevice pitchA a lda n) ac) (exec (toDevice pitchB b ldb n) bc)
      (pitchA / sizeofDouble) (pitchB / sizeofDouble) (pitchC / sizeofDouble) n before after)
    {row column : Nat} (inside : row < n ∧ column < n) :
    after (row * pitchC + sizeofDouble * column) =
      ∑ k ∈ Finset.range n, element a (row * lda + k) * element b (k * ldb + column) := by
  obtain ⟨tiles, loaded, stored⟩ := launch
  obtain ⟨place, same⟩ : ∃ place : ThreadPlace n, place.pixel = (column, row) :=
    exists_place ⟨by decide, by decide⟩ ⟨inside.2, inside.1⟩
  have apart (first second : ThreadPlace n)
      (equal : sizeofDouble * cIndex (pitchC / sizeofDouble) (blockOf first) first.2 =
        sizeofDouble * cIndex (pitchC / sizeofDouble) (blockOf second) second.2) :
      first = second := by
    have cells := Nat.eq_of_mul_eq_mul_left (by decide) equal
    rw [cIndex_pixel, cIndex_pixel] at cells
    have wide := newn_le_pitch isPitch
    obtain ⟨left, low⟩ := pixel_lt_newn first
    obtain ⟨left', low'⟩ := pixel_lt_newn second
    exact pixel_inj (cell_inj ⟨left.trans_le wide, low⟩ ⟨left'.trans_le wide, low'⟩ cells)
  have own := stored.own apart place
  rw [cIndex_pixel, same, cell, element_row isPitch.2] at own
  have rowOf : bidr (blockOf place) + place.2.2 = row := congrArg Prod.snd same
  have columnOf : bidc (blockOf place) + place.2.1 = column := congrArg Prod.fst same
  rw [own, accumulate_product pitches (fun turn below => loaded place turn below)
    (by rw [rowOf, columnOf]; exact inside), rowOf, columnOf]

/-- What `matmult` stores when none of its indices overflows. -/
def products (a : Nat → R) (lda : Nat) (b : Nat → R) (ldb ldc n : Nat) : List (Store R) :=
  (List.range n).flatMap fun i => (List.range n).map fun j =>
    assign (sizeofDouble * (i * ldc + j)) fun _ =>
      ∑ k ∈ Finset.range n, element a (i * lda + k) * element b (k * ldb + j)

theorem index_lt {ld i j : Nat} (small : (n - 1) * ld + n ≤ 2 ^ 31) (row : i < n) (column : j < n) :
    i * ld + j < 2 ^ 31 := by
  have rows := Nat.mul_le_mul_right ld (by omega : i ≤ n - 1)
  omega

section
variable {a b : Nat → R} {lda ldb ldc : Nat} (smallA : (n - 1) * lda + n ≤ 2 ^ 31)
  (smallB : (n - 1) * ldb + n ≤ 2 ^ 31)
include smallA smallB

theorem matmultSum_eq {i j : Nat} (row : i < n) (column : j < n) :
    matmultSum a lda b ldb n i j =
      some (∑ k ∈ Finset.range n, element a (i * lda + k) * element b (k * ldb + j)) := by
  have step (t : R) (k : Nat) (member : k ∈ List.range n) :
      (do return t + element a (← intIndex i lda k) * element b (← intIndex k ldb j)) =
        some (t + element a (i * lda + k) * element b (k * ldb + j)) := by
    have inner := List.mem_range.mp member
    simp only [intIndex_eq (index_lt smallA row inner), intIndex_eq (index_lt smallB inner column),
      Option.bind_eq_bind, Option.bind_some, Option.pure_def]
  rw [matmultSum, Loops.foldlM_some 0 step, foldl_add, zero_add]

theorem matmult_eq (smallC : (n - 1) * ldc + n ≤ 2 ^ 31) :
    matmult a lda b ldb ldc n = some (products a lda b ldb ldc n) := by
  have stored (i : Nat) (row : i ∈ List.range n) (j : Nat) (column : j ∈ List.range n) :
      matmultElement a lda b ldb ldc n i j = some (assign (sizeofDouble * (i * ldc + j)) fun _ =>
        ∑ k ∈ Finset.range n, element a (i * lda + k) * element b (k * ldb + j)) := by
    have below := List.mem_range.mp row
    have left := List.mem_range.mp column
    rw [matmultElement, matmultSum_eq smallA smallB below left, Option.bind_eq_bind,
      Option.bind_some, intIndex_eq (index_lt smallC below left)]
    rfl
  rw [matmult, Loops.mapM_some fun i row => Loops.mapM_some (stored i row), products,
    List.flatMap_def]
  rfl

end

theorem products_element {a b before : Nat → R} {lda ldb ldc i j : Nat} (wide : n ≤ ldc)
    (row : i < n) (column : j < n) :
    element (exec (products a lda b ldb ldc n) before) (i * ldc + j) =
      ∑ k ∈ Finset.range n, element a (i * lda + k) * element b (k * ldb + j) := by
  have launch := exec_launch (products a lda b ldb ldc n) before
  obtain ⟨values, -⟩ := launch.values
    (fun l => ∑ k ∈ Finset.range n, element a (l / sizeofDouble / ldc * lda + k) *
      element b (k * ldb + l / sizeofDouble % ldc)) (by
    intro _ s member m
    obtain ⟨i, _, member⟩ := List.mem_flatMap.mp member
    obtain ⟨j, left, rfl⟩ := List.mem_map.mp member
    obtain ⟨quotient, remainder⟩ :=
      @div_mod_row ldc i j ((List.mem_range.mp left).trans_le wide)
    simp only [assign, Nat.mul_div_cancel_left _ (by decide : 0 < sizeofDouble), quotient, remainder])
  have assigned : Assigned (fun _ : Unit => products a lda b ldb ldc n)
      (sizeofDouble * (i * ldc + j)) :=
    ⟨(), _, List.mem_flatMap.mpr ⟨i, List.mem_range.mpr row,
      List.mem_map_of_mem (List.mem_range.mpr column)⟩, rfl⟩
  obtain ⟨quotient, remainder⟩ := @div_mod_row ldc i j (column.trans_le wide)
  rw [element, values _ assigned]
  simp only [Nat.mul_div_cancel_left _ (by decide : 0 < sizeofDouble), quotient, remainder]

def Padded (n pitch byte : Nat) : Prop :=
  ∃ row < newn n, ∃ column < newn n, byte = row * pitch + sizeofDouble * column

/-- What the kernel loads and stores, and what is copied in and out. -/
structure AccessesInside (n pitchA pitchB pitchC : Nat) : Prop where
  a : ∀ place : ThreadPlace n, ∀ turn < turns n, Padded n pitchA
    (sizeofDouble * aIndex (pitchA / sizeofDouble) (blockOf place) place.2 (turn * blockSize))
  b : ∀ place : ThreadPlace n, ∀ turn < turns n, Padded n pitchB
    (sizeofDouble * bIndex (pitchB / sizeofDouble) (blockOf place) place.2 (turn * blockSize))
  c : ∀ place : ThreadPlace n, Padded n pitchC
    (sizeofDouble * cIndex (pitchC / sizeofDouble) (blockOf place) place.2)
  copied : ∀ pitch, ∀ row < n, ∀ e < sizeofDouble * n / sizeofDouble,
    Padded n pitch (row * pitch + sizeofDouble * e)

theorem accesses_inside {pitchA pitchB pitchC : Nat} (alignedA : sizeofDouble ∣ pitchA)
    (alignedB : sizeofDouble ∣ pitchB) (alignedC : sizeofDouble ∣ pitchC) :
    AccessesInside n pitchA pitchB pitchC where
  a := by
    intro place turn below
    rw [aIndex_eq, element_row alignedA]
    exact ⟨_, (pixel_lt_newn place).2, _, tile_lt below place.2.1.isLt, rfl⟩
  b := by
    intro place turn below
    rw [bIndex_eq, element_row alignedB]
    exact ⟨_, tile_lt below place.2.2.isLt, _, (pixel_lt_newn place).1, rfl⟩
  c := by
    intro place
    rw [cIndex_pixel, cell, element_row alignedC]
    exact ⟨_, (pixel_lt_newn place).2, _, (pixel_lt_newn place).1, rfl⟩
  copied := by
    intro pitch row below e column
    rw [Nat.mul_div_cancel_left _ (by decide)] at column
    have padded := le_newn n
    exact ⟨row, by omega, e, by omega, rfl⟩

end

/-- The product of the device is the one of the host, and nothing else in `c` changes. -/
theorem matmultCUDA_like_matmult {n lda ldb ldc pitchA pitchB pitchC : Nat} (wide : n ≤ ldc)
    (smallA : (n - 1) * lda + n ≤ 2 ^ 31) (smallB : (n - 1) * ldb + n ≤ 2 ^ 31)
    (smallC : (n - 1) * ldc + n ≤ 2 ^ 31)
    (pitches : IsPitch n pitchA ∧ IsPitch n pitchB ∧ IsPitch n pitchC)
    {a b before after : Nat → R}
    (run : MatmultCUDA a lda b ldb ldc n pitchA pitchB pitchC before after) :
    (∃ stores, matmult a lda b ldb ldc n = some stores ∧ ∀ i < n, ∀ j < n,
      element after (i * ldc + j) = element (exec stores before) (i * ldc + j)) ∧
    (∀ l, (∀ i < n, ∀ j < n, l ≠ sizeofDouble * (i * ldc + j)) → after l = before l) ∧
    AccessesInside n pitchA pitchB pitchC := by
  obtain ⟨ac, bc, cc, cc', kernel, rfl⟩ := run
  obtain ⟨pitchedA, pitchedB, pitchedC⟩ := pitches
  have byte (i j : Nat) :
      sizeofDouble * (i * ldc + j) = i * (sizeofDouble * ldc) + sizeofDouble * j := by
    rw [Nat.mul_add, Nat.mul_left_comm]
  have cells : sizeofDouble * n / sizeofDouble = n := Nat.mul_div_cancel_left _ (by decide)
  obtain ⟨copied, rest⟩ := @memcpy2D_values R (sizeofDouble * ldc) pitchC (sizeofDouble * n) n cc'
    before (Nat.mul_le_mul_left _ wide)
  rw [cells] at copied rest
  refine ⟨⟨_, matmult_eq smallA smallB smallC, ?_⟩, ?_,
    accesses_inside pitchedA.2 pitchedB.2 pitchedC.2⟩
  · intro i row j column
    rw [products_element wide row column, element, byte, copied i row j column]
    exact kernel_result ⟨pitchedA, pitchedB⟩ pitchedC kernel ⟨row, column⟩
  · intro l other
    apply rest
    intro i row j column
    rw [← byte]
    exact other i row j column

theorem exists_matmultCUDA (a b : Nat → R) (lda ldb ldc n pitchA pitchB pitchC : Nat)
    (before : Nat → R) :
    ∃ after, MatmultCUDA a lda b ldb ldc n pitchA pitchB pitchC before after := by
  let ac := exec (toDevice pitchA a lda n) fun _ => 0
  let bc := exec (toDevice pitchB b ldb n) fun _ => 0
  choose next launched using fun (block : Nat × Nat) (turn : Nat) (tiles : Shared R) =>
    exists_launch (loadTiles ac bc (pitchA / sizeofDouble) (pitchB / sizeofDouble) block
      (turn * blockSize)) tiles
  let tiles (block : Nat × Nat) : Nat → Shared R := Nat.rec (fun _ => 0) (next block)
  obtain ⟨cc, stored⟩ :=
    exists_launch (storeResults tiles (pitchC / sizeofDouble) n) (fun _ => 0)
  refine ⟨_, fun _ => 0, fun _ => 0, fun _ => 0, cc, ⟨tiles, ?_, stored⟩, rfl⟩
  intro place turn _
  exact launched (blockOf place) turn (tiles (blockOf place) turn)

end

def counting (byte : Nat) : Int := byte

theorem matmultCUDA_like_matmult_rows : ∃ after : Nat → Int,
    (∃ stores, matmult counting 18 counting 19 20 17 = some stores ∧ ∀ i < 17, ∀ j < 17,
      element after (i * 20 + j) = element (exec stores fun _ => 7) (i * 20 + j)) ∧
    ∀ l, (∀ i < 17, ∀ j < 17, l ≠ sizeofDouble * (i * 20 + j)) → after l = 7 := by
  obtain ⟨after, run⟩ :=
    exists_matmultCUDA counting counting 18 19 20 17 512 512 256 fun _ => 7
  have pitches : IsPitch 17 512 ∧ IsPitch 17 512 ∧ IsPitch 17 256 := by
    refine ⟨⟨?_, ?_⟩, ⟨?_, ?_⟩, ?_, ?_⟩ <;> decide
  obtain ⟨same, rest, -⟩ :=
    matmultCUDA_like_matmult (by decide) (by decide) (by decide) (by decide) pitches run
  exact ⟨after, same, rest⟩

/-- With rows of `2 ^ 31 - 1` numbers the second number of the second row has no int index. -/
theorem matmult_overflows :
    2 ≤ 2147483647 ∧ ∀ a b : Nat → Int, matmult a 2147483647 b 2 2 2 = none := by
  refine ⟨by decide, fun a b => ?_⟩
  have beyond : intIndex (1 : Nat) (2147483647 : Nat) (1 : Nat) = none := intIndex_none (by decide)
  have sum : matmultSum a 2147483647 b 2 2 1 0 = none := by
    refine Loops.foldlM_none (a := 1) (by decide) (fun t => ?_) 0
    simp only [beyond, Option.bind_eq_bind, Option.bind_none]
  have stored : matmultElement a 2147483647 b 2 2 2 1 0 = none := by
    rw [matmultElement, sum]
    rfl
  have row := @Loops.mapM_none _ _ (matmultElement a 2147483647 b 2 2 2 1) (List.range 2) 0
    (by decide) stored
  rw [matmult, @Loops.mapM_none _ _ _ (List.range 2) 1 (by decide) row]
  rfl

end CudaOpenMp.SecondCuda
