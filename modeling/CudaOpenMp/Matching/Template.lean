import CudaOpenMp.Matching.TemplateCore
import Mathlib.Algebra.Order.BigOperators.Group.Finset

/-!
In exact arithmetic the two kernels and the loops of both hosts write the same correlation and
the same sum of squares at every position.
-/

namespace CudaOpenMp.TemplateMatching

open Rasters Stores Tiling Moments

def square (x y : UInt8) : Nat := ((x.toNat : Int) - y.toNat).natAbs ^ 2

theorem toFloat_square (x y : UInt8) :
    (toFloat x - toFloat y) * (toFloat x - toFloat y) = (square x y : Nat) := by
  have whole : ((square x y : Nat) : Int) = ((x.toNat : Int) - y.toNat) ^ 2 := by
    rw [square, Nat.cast_pow, Int.natCast_natAbs, sq_abs]
  rw [← Int.cast_natCast (square x y), whole, toFloat, toFloat]
  push_cast
  ring

theorem square_le (x y : UInt8) : square x y ≤ 255 ^ 2 := by
  apply Nat.pow_le_pow_left
  have first := x.toNat_lt
  have second := y.toNat_lt
  omega

theorem toUnsigned_natCast {k : Nat} (small : k < 2 ^ 32) :
    toUnsigned k = some (UInt32.ofNat k) := by
  have range : (-1 : Rat) < k ∧ (k : Rat) < 2 ^ 32 :=
    ⟨neg_one_lt_zero.trans_le k.cast_nonneg, by exact_mod_cast small⟩
  rw [toUnsigned, if_pos range, Int.floor_natCast, Int.toNat_natCast]

section
variable (sqrtf : Rat → Rat) (rows cols : Nat) (x y : Nat → Nat → UInt8)

def values (x : Nat → Nat → UInt8) (k : Nat × Nat) : Rat := toFloat (x k.1 k.2)

/-- The correlation of two rectangles, and the sum of the squares of their differences. -/
def scores : Scores where
  pcc :=
    let deviation (f g : Nat → Nat → UInt8) : Rat :=
      covariance (cells rows cols) (values f) (values g)
    correlation sqrtf (deviation x y) (deviation x x) (deviation y y)
  ssd := some (UInt32.ofNat (∑ k ∈ cells rows cols, square (x k.1 k.2) (y k.1 k.2)))

variable {rows cols x y}

theorem mean_cells {sum : Rat} (same : sum = ∑ k ∈ cells rows cols, values x k) :
    sum / (rows * cols : Nat) = mean (cells rows cols) (values x) := by
  rw [same, mean, card_cells]

theorem covariance_cells {sum first second : Rat}
    (same : sum = ∑ k ∈ cells rows cols, values x k * values y k)
    (left : first = mean (cells rows cols) (values x))
    (right : second = mean (cells rows cols) (values y)) :
    sum - (rows * cols : Nat) * first * second =
      covariance (cells rows cols) (values x) (values y) := by
  rw [same, left, right, covariance_eq, card_cells]

theorem sum_square_lt (small : rows * cols ≤ maxSSize) :
    ∑ k ∈ cells rows cols, square (x k.1 k.2) (y k.1 k.2) < 2 ^ 32 := by
  calc ∑ k ∈ cells rows cols, square (x k.1 k.2) (y k.1 k.2)
      ≤ (cells rows cols).card • 255 ^ 2 := Finset.sum_le_card_nsmul _ _ _ fun k _ => square_le _ _
    _ ≤ maxSSize * 255 ^ 2 := by
        rw [card_cells]
        exact Nat.mul_le_mul_right _ small
    _ < 2 ^ 32 := by decide

theorem toUnsigned_expanded {sumX2 sumY2 sumXY : Rat} (small : rows * cols ≤ maxSSize)
    (first : sumX2 = ∑ k ∈ cells rows cols, values x k * values x k)
    (second : sumY2 = ∑ k ∈ cells rows cols, values y k * values y k)
    (mixed : sumXY = ∑ k ∈ cells rows cols, values x k * values y k) :
    toUnsigned (sumX2 + sumY2 - 2 * sumXY) = (scores sqrtf rows cols x y).ssd := by
  have whole : sumX2 + sumY2 - 2 * sumXY =
      (∑ k ∈ cells rows cols, square (x k.1 k.2) (y k.1 k.2) : Nat) := by
    rw [first, second, mixed, ← sum_sub_sq, Nat.cast_sum]
    exact Finset.sum_congr rfl fun k _ => toFloat_square _ _
  rw [whole, toUnsigned_natCast (sum_square_lt small)]
  rfl

theorem part_loops {σ : Type} (part : σ → Rat) (add : σ → Rat → Rat → σ) (term : Rat → Rat → Rat)
    (adds : ∀ acc x y, part (add acc x y) = part acc + term x y) (start : σ)
    (zero : part start = 0) :
    part (loops rows cols (fun acc i j => add acc (toFloat (x i j)) (toFloat (y i j))) start) =
      ∑ k ∈ cells rows cols, term (values x k) (values y k) := by
  rw [loops_field part fun acc i j => adds acc (toFloat (x i j)) (toFloat (y i j)), zero, zero_add]
  rfl

theorem loopsM_reads {x' y' : Nat → Nat → Option UInt8}
    (first : ∀ i < rows, ∀ j < cols, x' i j = some (x i j))
    (second : ∀ i < rows, ∀ j < cols, y' i j = some (y i j)) {σ : Type} (add : σ → Rat → Rat → σ)
    (start : σ) :
    loopsM rows cols (fun acc i j => do
      return add acc (toFloat (← x' i j)) (toFloat (← y' i j))) start =
        some (loops rows cols (fun acc i j => add acc (toFloat (x i j)) (toFloat (y i j))) start) := by
  apply loopsM_some
  intro i row j column acc
  simp only [first i row j column, second i row j column, Option.bind_eq_bind, Option.bind_some,
    Option.pure_def]

theorem sums_scores (small : rows * cols ≤ maxSSize) :
    (loops rows cols (fun (sums : Sums) i j => sums.add (toFloat (x i j)) (toFloat (y i j)))
      ⟨0, 0, 0, 0, 0⟩).scores sqrtf (rows * cols) = scores sqrtf rows cols x y := by
  have sum (part : Sums → Rat) := @part_loops rows cols x y Sums part Sums.add
  have sumX := sum Sums.sumX (fun x _ => x) (fun _ _ _ => rfl) ⟨0, 0, 0, 0, 0⟩ rfl
  have sumY := sum Sums.sumY (fun _ y => y) (fun _ _ _ => rfl) ⟨0, 0, 0, 0, 0⟩ rfl
  have sumX2 := sum Sums.sumX2 (fun x _ => x * x) (fun _ _ _ => rfl) ⟨0, 0, 0, 0, 0⟩ rfl
  have sumY2 := sum Sums.sumY2 (fun _ y => y * y) (fun _ _ _ => rfl) ⟨0, 0, 0, 0, 0⟩ rfl
  have sumXY := sum Sums.sumXY (fun x y => x * y) (fun _ _ _ => rfl) ⟨0, 0, 0, 0, 0⟩ rfl
  have meanX := mean_cells sumX
  have meanY := mean_cells sumY
  rw [Sums.scores, covariance_cells sumXY meanX meanY, covariance_cells sumX2 meanX meanX,
    covariance_cells sumY2 meanY meanY, toUnsigned_expanded sqrtf small sumX2 sumY2 sumXY]
  rfl

theorem deviations_ssd (meanX meanY : Rat) :
    (loops rows cols (fun (dev : Deviations) i j =>
      dev.add meanX meanY (toFloat (x i j)) (toFloat (y i j))) ⟨0, 0, 0, some 0⟩).ssd =
        (scores sqrtf rows cols x y).ssd := by
  have counted := @loops_rel Deviations Nat rows cols
    (fun dev sum => dev.ssd = some (UInt32.ofNat sum))
    (fun dev i j => dev.add meanX meanY (toFloat (x i j)) (toFloat (y i j)))
    (fun sum i j => sum + square (x i j) (y i j)) ⟨0, 0, 0, some 0⟩ 0 rfl (by
      intro i _ j _ dev sum here
      have small : square (x i j) (y i j) < 2 ^ 32 := (square_le _ _).trans_lt (by decide)
      simp only [Deviations.add, here, toFloat_square, toUnsigned_natCast small, UInt32.ofNat_add]
      rfl)
  rw [counted, loops_add, Nat.zero_add]
  rfl

section
variable {x' y' : Nat → Nat → Option UInt8} (first : ∀ i < rows, ∀ j < cols, x' i j = some (x i j))
  (second : ∀ i < rows, ∀ j < cols, y' i j = some (y i j))
include first second

theorem onePass_eq (small : rows * cols ≤ maxSSize) :
    onePass sqrtf rows cols x' y' = some (scores sqrtf rows cols x y) := by
  rw [onePass, loopsM_reads first second Sums.add, Option.bind_eq_bind, Option.bind_some,
    sums_scores sqrtf small, Option.pure_def]

theorem twoPasses_eq : twoPasses sqrtf rows cols x' y' = some (scores sqrtf rows cols x y) := by
  have total (part : Totals → Rat) := @part_loops rows cols x y Totals part Totals.add
  have meanX := mean_cells (total Totals.sumX (fun x _ => x) (fun _ _ _ => rfl) ⟨0, 0⟩ rfl)
  have meanY := mean_cells (total Totals.sumY (fun _ y => y) (fun _ _ _ => rfl) ⟨0, 0⟩ rfl)
  have deviation (a b : Rat) (part : Deviations → Rat) :=
    @part_loops rows cols x y Deviations part (Deviations.add a b)
  have num (a b : Rat) := deviation a b Deviations.num (fun x y => (x - a) * (y - b))
    (fun _ _ _ => rfl) ⟨0, 0, 0, some 0⟩ rfl
  have denX (a b : Rat) := deviation a b Deviations.denX (fun x _ => (x - a) * (x - a))
    (fun _ _ _ => rfl) ⟨0, 0, 0, some 0⟩ rfl
  have denY (a b : Rat) := deviation a b Deviations.denY (fun _ y => (y - b) * (y - b))
    (fun _ _ _ => rfl) ⟨0, 0, 0, some 0⟩ rfl
  have passes (a b : Rat) := loopsM_reads first second (Deviations.add a b) ⟨0, 0, 0, some 0⟩
  simp only [twoPasses, loopsM_reads first second Totals.add, passes]
  simp only [Option.bind_eq_bind, Option.bind_some, meanX, meanY, num, denX, denY,
    deviations_ssd sqrtf]
  rfl

end

end

section
variable {ι : Type} {w h : Nat} {share : ι → List Pixel} {result : Pixel → Scores}

def writeAll (w : Nat) (result : Pixel → Scores) (pixels : List Pixel) : List Statement :=
  pixels.flatMap fun p => write (cell w p) (result p)

theorem mem_writeAll {pixels : List Pixel} {a : Statement} : a ∈ writeAll w result pixels ↔
    ∃ p ∈ pixels, a = assign (.pcc (cell w p)) (fun _ => (result p).pcc) ∨
      a = assign (.ssd (cell w p)) fun _ => (result p).ssd := by
  simp only [writeAll, write, List.mem_flatMap, List.mem_cons, List.not_mem_nil, or_false]

theorem writes_writeAll {pixels : List Pixel} (within : ∀ q ∈ pixels, Inside w h q) {p : Pixel}
    (inside : Inside w h p) {written : Cell}
    (either : written ∈ [Cell.pcc (cell w p), Cell.ssd (cell w p)]) :
    writes (some (writeAll w result pixels)) written = pixels.count p := by
  induction pixels with
  | nil => rfl
  | cons q rest ih =>
      obtain ⟨first, later⟩ := List.forall_mem_cons.mp within
      have same : cell w q = cell w p ↔ q = p :=
        ⟨cell_inj first inside, fun equal => by rw [equal]⟩
      have here : writes (some (write (cell w q) (result q))) written = if q = p then 1 else 0 := by
        simp only [List.mem_cons, List.not_mem_nil, or_false] at either
        rcases either with rfl | rfl <;>
          simp [writes, write, assign, List.count_cons, same]
      have split : writes (some (writeAll w result (q :: rest))) written =
          writes (some (write (cell w q) (result q))) written +
            writes (some (writeAll w result rest)) written := by
        simp only [writes, Option.getD_some, writeAll, List.flatMap_cons, List.map_append,
          List.count_append]
      rw [split, here, ih later, List.count_cons, Nat.add_comm]
      simp only [beq_iff_eq]

theorem HandedOut.writesOnce (handedOut : HandedOut share w h) :
    WritesOnce (fun i => some (writeAll w result (share i))) (h * w) where
  defined := fun _ => rfl
  inside := by
    intro i a member
    obtain ⟨p, mine, written⟩ := mem_writeAll.mp member
    refine ⟨cell w p, ?_, ?_⟩
    · rw [Nat.mul_comm]
      exact cell_lt (handedOut.inside i p mine)
    · rcases written with rfl | rfl
      · exact Or.inl rfl
      · exact Or.inr rfl
  once := by
    intro k below written either
    obtain ⟨p, inside, rfl⟩ := exists_pixel (w := w) (h := h) (by rwa [Nat.mul_comm])
    obtain ⟨i, once, others⟩ := handedOut.once p inside
    refine ⟨i, ?_, ?_⟩
    · rw [writes_writeAll (handedOut.inside i) inside either, once]
    · intro j other
      rw [writes_writeAll (handedOut.inside j) inside either, List.count_eq_zero]
      exact others j other

def scored (w : Nat) (result : Pixel → Scores) : Output
  | .pcc k => (result (k % w, k / w)).pcc
  | .ssd k => (result (k % w, k / w)).ssd

variable [DecidableEq ι]

theorem HandedOut.launch (handedOut : HandedOut share w h) {before after : Output}
    (launch : Launch (fun i => writeAll w result (share i)) before after) {p : Pixel}
    (inside : Inside w h p) : after (.pcc (cell w p)) = (result p).pcc ∧
      after (.ssd (cell w p)) = (result p).ssd := by
  obtain ⟨values, -⟩ := launch.values (scored w result) (by
    intro i a member m
    obtain ⟨q, mine, written⟩ := mem_writeAll.mp member
    have column := (handedOut.inside i q mine).1
    rcases written with rfl | rfl <;>
      simp only [assign, scored, cell_mod column, cell_div column])
  obtain ⟨i, once, -⟩ := handedOut.once p inside
  have mine : p ∈ share i := List.count_pos_iff.mp (by rw [once]; decide)
  rw [values (.pcc (cell w p)) ⟨i, _, mem_writeAll.mpr ⟨p, mine, Or.inl rfl⟩, rfl⟩,
    values (.ssd (cell w p)) ⟨i, _, mem_writeAll.mpr ⟨p, mine, Or.inr rfl⟩, rfl⟩]
  simp only [scored, cell_mod inside.1, cell_div inside.1]
  exact ⟨rfl, rfl⟩

end

section
variable {tc : TestCase} {block : BlockSize}

theorem sharedMemSize_eq : sharedMemSize tc block = tileW tc block * tileH tc block :=
  Nat.mul_comm _ _

/-- All ints of a case with a template and a target stay in range, also those of the threads and
of the tiles that run past the target. -/
structure TestCase.Fits (tc : TestCase) : Prop where
  cells : tc.tRows * tc.tCols < 2 ^ 31
  sides : tc.tRows + 1022 < 2 ^ 31 ∧ tc.tCols + 1022 < 2 ^ 31

theorem block_start_lt {count size : Nat} (positive : 0 < size)
    (b : Fin ((count + size - 1) / size)) : b * size < count := by
  have whole := Nat.div_mul_le_self (count + size - 1) size
  have next := Nat.mul_le_mul_right size (Nat.succ_le_of_lt b.isLt)
  rw [Nat.succ_mul] at next
  omega

theorem BlockSize.side_le (block : BlockSize) : block.x ≤ 1024 ∧ block.y ≤ 1024 := by
  obtain ⟨x, y, ⟨wide, high⟩, few⟩ := block
  exact ⟨(Nat.le_mul_of_pos_right x high).trans few, (Nat.le_mul_of_pos_left y wide).trans few⟩

def templatePixel (tc : TestCase) (S : Nat → UInt8) (i j : Nat) : UInt8 := S (i * tc.sCols + j)

def targetPixel (tc : TestCase) (p : Pixel) (i j : Nat) : UInt8 :=
  tc.T ((p.2 + i) * tc.tCols + (p.1 + j))

theorem template_index_lt {rows cols i j : Nat} (row : i < rows) (column : j < cols) :
    i * cols + j < rows * cols := by
  rw [Nat.mul_comm rows]
  exact cell_lt (p := (j, i)) ⟨column, row⟩

theorem template_index_small (valid : tc.Valid) {i j : Nat} (row : i < tc.sRows)
    (column : j < tc.sCols) : i * tc.sCols + j < 2 ^ 31 :=
  (template_index_lt row column).trans_le (valid.small.trans (by decide))

theorem templateAt_eq (valid : tc.Valid) (S : Nat → UInt8) {i j : Nat} (row : i < tc.sRows)
    (column : j < tc.sCols) : templateAt tc S i j = some (templatePixel tc S i j) := by
  rw [templateAt, intIndex_eq (template_index_small valid row column)]
  rfl

theorem target_inside (valid : tc.Valid) {p : Pixel} (inside : Inside tc.outC tc.outR p) {i j : Nat}
    (row : i < tc.sRows) (column : j < tc.sCols) :
    Inside tc.tCols tc.tRows (p.1 + j, p.2 + i) := by
  have right : p.1 < tc.tCols - tc.sCols + 1 := inside.1
  have down : p.2 < tc.tRows - tc.sRows + 1 := inside.2
  obtain ⟨rows, cols, -⟩ := valid
  constructor <;> simp only <;> omega

section
variable (valid : tc.Valid) (fits : tc.Fits)
include valid fits

theorem targetAt_eq {p : Pixel} (inside : Inside tc.outC tc.outR p) {i j : Nat}
    (row : i < tc.sRows) (column : j < tc.sCols) :
    targetAt tc p.1 p.2 i j = some (targetPixel tc p i j) := by
  have target := target_inside valid inside row column
  have below := cell_lt target
  obtain ⟨right, down⟩ := target
  obtain ⟨cells, rows, cols⟩ := fits
  simp only at right down
  have line := @int32_natCast (p.2 + i) (by omega)
  have lane := @int32_natCast (p.1 + j) (by omega)
  have index := @intIndex_eq (p.2 + i) tc.tCols (p.1 + j) (by
    rw [cell, Nat.mul_comm tc.tCols] at below
    exact below.trans cells)
  simp only [Int.natCast_add] at line lane index
  simp only [targetAt, line, lane, index, Option.bind_eq_bind, Option.bind_some, Option.pure_def,
    targetPixel]

theorem outIdx_eq {p : Pixel} (inside : Inside tc.outC tc.outR p) :
    intIndex p.2 (tc.tCols - tc.sCols + 1 : Nat) p.1 = some (cell tc.outC p) := by
  apply intIndex_eq
  have below := cell_lt inside
  obtain ⟨⟨first, rows⟩, ⟨second, cols⟩, -⟩ := valid
  have columns : tc.outC ≤ tc.tCols := by
    rw [TestCase.outC]
    omega
  have lines : tc.outR ≤ tc.tRows := by
    rw [TestCase.outR]
    omega
  have whole := Nat.mul_le_mul columns lines
  rw [Nat.mul_comm tc.tCols] at whole
  exact (below.trans_le whole).trans fits.cells

theorem outSize_eq : tc.outSize = some (tc.outR * tc.outC) := by
  obtain ⟨⟨first, rows⟩, ⟨second, cols⟩, -⟩ := valid
  have columns : tc.outC ≤ tc.tCols := by
    rw [TestCase.outC]
    omega
  have lines : tc.outR ≤ tc.tRows := by
    rw [TestCase.outR]
    omega
  have product := @int32_natCast (tc.outR * tc.outC)
    ((Nat.mul_le_mul lines columns).trans_lt fits.cells)
  rw [Int.natCast_mul] at product
  rw [TestCase.outSize, product]
  rfl

theorem thread_eq (place : Thread tc block) :
    threadC place = place.pixel.1 ∧ threadR place = place.pixel.2 := by
  have left := block_start_lt block.positive.1 place.1.1
  have top := block_start_lt block.positive.2 place.1.2
  have lane : place.2.1.val < block.x := place.2.1.isLt
  have line : place.2.2.val < block.y := place.2.2.isLt
  obtain ⟨wide, high⟩ := block.side_le
  obtain ⟨⟨first, rows⟩, ⟨second, cols⟩, -⟩ := valid
  obtain ⟨cells, tall, broad⟩ := fits
  have column : place.pixel.1 = place.1.1 * block.x + place.2.1 := rfl
  have row : place.pixel.2 = place.1.2 * block.y + place.2.2 := rfl
  simp only [TestCase.outC, TestCase.outR] at left top
  constructor
  · exact narrow_of_lt (by omega)
  · exact narrow_of_lt (by omega)

def tilePixel (tc : TestCase) (block : BlockSize) (numbers : Nat × Nat) (k : Nat) : UInt8 :=
  if numbers.2 * block.y + k / tileW tc block < tc.tRows ∧
      numbers.1 * block.x + k % tileW tc block < tc.tCols then
    tc.T ((numbers.2 * block.y + k / tileW tc block) * tc.tCols +
      (numbers.1 * block.x + k % tileW tc block))
  else 0

theorem loadCell_eq (place : Thread tc block) {k : Nat}
    (below : k < tileW tc block * tileH tc block) :
    loadCell tc block (blockOf place) k =
      some (assign k fun _ => tilePixel tc block (blockOf place) k) := by
  have left := block_start_lt block.positive.1 place.1.1
  have top := block_start_lt block.positive.2 place.1.2
  obtain ⟨wide, high⟩ := block.side_le
  obtain ⟨⟨first, rows⟩, ⟨second, cols⟩, -⟩ := valid
  obtain ⟨cells, tall, broad⟩ := fits
  have across : tileW tc block = block.x + tc.sCols - 1 := rfl
  have down : tileH tc block = block.y + tc.sRows - 1 := rfl
  have some := block.positive.1
  have positive : 0 < tileW tc block := by omega
  have line := Nat.div_lt_of_lt_mul below
  have lane := Nat.mod_lt k positive
  simp only [TestCase.outC, TestCase.outR] at left top
  have startR := @narrow_of_lt ((blockOf place).2 * block.y) (by simp only [blockOf]; omega)
  have startC := @narrow_of_lt ((blockOf place).1 * block.x) (by simp only [blockOf]; omega)
  have globalR := @int32_natCast ((blockOf place).2 * block.y + k / tileW tc block)
    (by simp only [blockOf]; omega)
  have globalC := @int32_natCast ((blockOf place).1 * block.x + k % tileW tc block)
    (by simp only [blockOf]; omega)
  simp only [loadCell, startR, startC, globalR, globalC, Option.bind_eq_bind, Option.bind_some,
    ← Int.natCast_add, Int.ofNat_lt, Nat.div_add_mod', Option.pure_def, tilePixel]
  split
  · next inside =>
    have index := cell_lt (p := ((blockOf place).1 * block.x + k % tileW tc block,
      (blockOf place).2 * block.y + k / tileW tc block)) ⟨inside.2, inside.1⟩
    rw [cell, Nat.mul_comm tc.tCols] at index
    rw [intIndex_eq (index.trans cells)]
    rfl
  · rfl

theorem loadTile_eq (place : Thread tc block) (thread : Lane block) :
    loadTile tc block (blockOf place) thread =
      some ((strided (thread.2.val * block.x + thread.1.val) (tileW tc block * tileH tc block)
        (block.x * block.y)).map fun k =>
          assign k fun _ => tilePixel tc block (blockOf place) k) := by
  apply Loops.mapM_some
  intro k member
  obtain ⟨_, _, below⟩ := (mem_strided (Nat.mul_pos block.positive.1 block.positive.2)).mp member
  exact loadCell_eq valid fits place below

theorem loadTile_runs {place : Thread tc block} {before sT : Shared}
    (runs : Runs (loadTile tc block (blockOf place)) before sT) {k : Nat}
    (below : k < tileW tc block * tileH tc block) :
    sT k = tilePixel tc block (blockOf place) k := by
  have launch := runs.launch (loadTile_eq valid fits place)
  obtain ⟨values, -⟩ := launch.values (tilePixel tc block (blockOf place)) (by
    intro thread a member m
    obtain ⟨_, _, rfl⟩ := List.mem_map.mp member
    rfl)
  obtain ⟨thread, mine⟩ := @exists_strided block.x block.y _ k
    (Nat.mul_pos block.positive.1 block.positive.2) below
  exact values k ⟨thread, _, List.mem_map_of_mem mine, rfl⟩

end

/-- What the threads of a block may rely on, whatever the order of their loads. -/
structure TileSafe (tc : TestCase) (block : BlockSize) (place : Thread tc block) : Prop where
  stores : ∃ todo, loadTile tc block (blockOf place) place.2 = some todo ∧
    ∀ a ∈ todo, a.loc < sharedMemSize tc block
  reads : ∀ before sT, Runs (loadTile tc block (blockOf place)) before sT →
    Inside tc.outC tc.outR place.pixel → ∀ i < tc.sRows, ∀ j < tc.sCols,
      tileIndex tc block place.2 i j < sharedMemSize tc block ∧
      Inside tc.tCols tc.tRows (place.pixel.1 + j, place.pixel.2 + i) ∧
      sT (tileIndex tc block place.2 i j) = targetPixel tc place.pixel i j

theorem tileSafe (valid : tc.Valid) (fits : tc.Fits) (place : Thread tc block) :
    TileSafe tc block place where
  stores := by
    refine ⟨_, loadTile_eq valid fits place place.2, ?_⟩
    intro a member
    obtain ⟨k, mine, rfl⟩ := List.mem_map.mp member
    obtain ⟨_, _, below⟩ := (mem_strided (Nat.mul_pos block.positive.1 block.positive.2)).mp mine
    rwa [sharedMemSize_eq]
  reads := by
    intro before sT runs inside i row j column
    have target := target_inside valid inside row column
    have lane : place.2.1.val < block.x := place.2.1.isLt
    have line : place.2.2.val < block.y := place.2.2.isLt
    have within : Inside (tileW tc block) (tileH tc block)
        (place.2.1.val + j, place.2.2.val + i) := by
      constructor <;> simp only [tileW, tileH] <;> omega
    have index : tileIndex tc block place.2 i j =
        cell (tileW tc block) (place.2.1.val + j, place.2.2.val + i) := rfl
    have below := cell_lt within
    have columns : (blockOf place).1 * block.x + (place.2.1.val + j) = place.pixel.1 + j :=
      (Nat.add_assoc _ _ _).symm
    have lines : (blockOf place).2 * block.y + (place.2.2.val + i) = place.pixel.2 + i :=
      (Nat.add_assoc _ _ _).symm
    refine ⟨by rwa [sharedMemSize_eq, index], target, ?_⟩
    rw [index, loadTile_runs valid fits runs below, tilePixel, cell_div within.1, cell_mod within.1,
      columns, lines, if_pos ⟨target.2, target.1⟩]
    rfl

end

section
variable {sqrtf : Rat → Rat} {tc : TestCase} {block : BlockSize}

def scoresAt (sqrtf : Rat → Rat) (tc : TestCase) (p : Pixel) : Scores :=
  scores sqrtf tc.sRows tc.sCols (templatePixel tc tc.S) (targetPixel tc p)

/-- The pixel of a thread of the grid, if it has one. -/
def gridShare (tc : TestCase) (block : BlockSize) (place : Thread tc block) : List Pixel :=
  if Inside tc.outC tc.outR place.pixel then [place.pixel] else []

theorem gridShare_handedOut : HandedOut (gridShare tc block) tc.outC tc.outR where
  inside := by
    intro place p mine
    rw [gridShare] at mine
    split at mine
    · next inside =>
      rw [List.mem_singleton.mp mine]
      exact inside
    · cases mine
  once := by
    intro p inside
    obtain ⟨place, rfl⟩ := @exists_place tc.outC tc.outR block.dims block.positive p inside
    refine ⟨place, ?_, ?_⟩
    · rw [gridShare, if_pos inside, List.count_singleton_self]
    · intro other different mine
      rw [gridShare] at mine
      split at mine
      · exact different (pixel_inj (List.mem_singleton.mp mine).symm)
      · cases mine

theorem thread_writes (valid : tc.Valid) (fits : tc.Fits) (place : Thread tc block)
    {score : Option Scores} {result : Pixel → Scores}
    (same : Inside tc.outC tc.outR place.pixel → score = some (result place.pixel)) :
    (if threadR place < (tc.tRows - tc.sRows + 1 : Nat) ∧
        threadC place < (tc.tCols - tc.sCols + 1 : Nat) then do
      let scores ← score
      let outIdx ← intIndex (threadR place) (tc.tCols - tc.sCols + 1 : Nat) (threadC place)
      return write outIdx scores
    else some []) = some (writeAll tc.outC result (gridShare tc block place)) := by
  obtain ⟨column, row⟩ := thread_eq valid fits place
  rw [column, row]
  by_cases inside : Inside tc.outC tc.outR place.pixel
  · have bounds : (place.pixel.2 : Int) < (tc.tRows - tc.sRows + 1 : Nat) ∧
        (place.pixel.1 : Int) < (tc.tCols - tc.sCols + 1 : Nat) :=
      ⟨Int.ofNat_lt.mpr inside.2, Int.ofNat_lt.mpr inside.1⟩
    rw [if_pos bounds, same inside, outIdx_eq valid fits inside, gridShare, if_pos inside]
    rfl
  · have bounds : ¬((place.pixel.2 : Int) < (tc.tRows - tc.sRows + 1 : Nat) ∧
        (place.pixel.1 : Int) < (tc.tCols - tc.sCols + 1 : Nat)) := fun both =>
      inside ⟨Int.ofNat_lt.mp both.2, Int.ofNat_lt.mp both.1⟩
    rw [if_neg bounds, gridShare, if_neg inside]
    rfl

theorem matchKernel_eq (valid : tc.Valid) (fits : tc.Fits) :
    matchKernel sqrtf tc block = fun place =>
      some (writeAll tc.outC (scoresAt sqrtf tc) (gridShare tc block place)) := by
  funext place
  apply thread_writes valid fits place
  intro inside
  obtain ⟨column, row⟩ := thread_eq valid fits place
  rw [column, row]
  exact twoPasses_eq sqrtf (fun i row j column => templateAt_eq valid tc.S row column)
    fun i row j column => targetAt_eq valid fits inside row column

theorem sSize_eq (valid : tc.Valid) : tc.sSize = some (tc.sRows * tc.sCols) := by
  have product := @int32_natCast (tc.sRows * tc.sCols) (valid.small.trans_lt (by decide))
  rw [Int.natCast_mul] at product
  rw [TestCase.sSize, product]
  rfl

theorem MatchKernelOptimized.eq (valid : tc.Valid) (fits : tc.Fits)
    {program : Thread tc block → Option (List Statement)}
    (optimized : MatchKernelOptimized tc block sqrtf program) :
    program = fun place =>
      some (writeAll tc.outC (scoresAt sqrtf tc) (gridShare tc block place)) := by
  obtain ⟨count, old, cS, before, sT, size, copied, loaded, rfl⟩ := optimized
  rw [sSize_eq valid] at size
  cases size
  rw [memcpyToSymbol, if_pos valid.small] at copied
  cases copied
  funext place
  apply thread_writes valid fits place
  intro inside
  refine onePass_eq sqrtf ?_ ?_ valid.small
  · intro i row j column
    rw [templateAt_eq valid _ row column, templatePixel, if_pos (template_index_lt row column)]
    rfl
  · intro i row j column
    rw [((tileSafe valid fits place).reads _ _ (loaded place) inside i row j column).2.2]

theorem host_writes (valid : tc.Valid) (fits : tc.Fits) {numThreads : Nat}
    {share : Fin numThreads → List Pixel} (handedOut : HandedOut share tc.outC tc.outR)
    (thread : Fin numThreads) {todo : Pixel → Option (List Statement)} {result : Pixel → Scores}
    (same : ∀ p, Inside tc.outC tc.outR p → todo p = (do
      let idx ← intIndex p.2 (tc.tCols - tc.sCols + 1 : Nat) p.1
      return write idx (result p))) :
    (do
      let written ← (share thread).mapM todo
      return written.flatten) = some (writeAll tc.outC result (share thread)) := by
  have each (p : Pixel) (mine : p ∈ share thread) :
      todo p = some (write (cell tc.outC p) (result p)) := by
    have inside := handedOut.inside thread p mine
    rw [same p inside, outIdx_eq valid fits inside]
    rfl
  rw [Loops.mapM_some each, writeAll, List.flatMap_def]
  rfl

theorem matchCPU_eq (valid : tc.Valid) (fits : tc.Fits) {numThreads : Nat}
    {share : Fin numThreads → List Pixel} (handedOut : HandedOut share tc.outC tc.outR) :
    matchCPU sqrtf tc share = fun thread =>
      some (writeAll tc.outC (scoresAt sqrtf tc) (share thread)) := by
  funext thread
  apply host_writes valid fits handedOut thread
  rintro ⟨c, r⟩ inside
  dsimp only
  rw [onePass_eq sqrtf (fun i row j column => templateAt_eq valid tc.S row column)
    (fun i row j column => targetAt_eq valid fits inside row column) valid.small]
  rfl

theorem templateSums_eq (rows : Nat) : templateSums tc.S (rows * tc.sCols) =
    (∑ k ∈ cells rows tc.sCols, values (templatePixel tc tc.S) k,
      ∑ k ∈ cells rows tc.sCols, values (templatePixel tc tc.S) k * values (templatePixel tc tc.S) k) := by
  have sums (n : Nat) : templateSums tc.S n = (∑ i ∈ Finset.range n, toFloat (tc.S i),
      ∑ i ∈ Finset.range n, toFloat (tc.S i) * toFloat (tc.S i)) := by
    induction n with
    | zero => rfl
    | succ n ih =>
        rw [templateSums] at ih ⊢
        rw [List.range_succ, List.foldl_append, ih, Finset.sum_range_succ, Finset.sum_range_succ]
        rfl
  rw [sums, sum_cells fun i => toFloat (tc.S i), sum_cells fun i => toFloat (tc.S i) * toFloat (tc.S i)]
  rfl

theorem TestAllCpu.matchCPU_eq (valid : tc.Valid) (fits : tc.Fits) {numThreads : Nat}
    {share : Fin numThreads → List Pixel} (handedOut : HandedOut share tc.outC tc.outR) :
    TestAllCpu.matchCPU sqrtf tc share = fun thread =>
      some (writeAll tc.outC (scoresAt sqrtf tc) (share thread)) := by
  have sum (p : Pixel) (part : TargetSums → Rat) := @part_loops tc.sRows tc.sCols
    (templatePixel tc tc.S) (targetPixel tc p) TargetSums part TargetSums.add
  funext thread
  simp only [TestAllCpu.matchCPU, templateSums_eq]
  apply host_writes valid fits handedOut thread
  rintro ⟨c, r⟩ inside
  have ran : loopsM tc.sRows tc.sCols (fun (sums : TargetSums) i j => do
      return sums.add (toFloat (tc.S (← intIndex i tc.sCols j)))
        (toFloat (← targetAt tc c r i j))) ⟨0, 0, 0⟩ =
      some (loops tc.sRows tc.sCols (fun sums i j => sums.add
        (toFloat (templatePixel tc tc.S i j)) (toFloat (targetPixel tc (c, r) i j))) ⟨0, 0, 0⟩) := by
    apply loopsM_some
    intro i row j column acc
    have index := intIndex_eq (template_index_small valid row column)
    have target := targetAt_eq valid fits inside row column
    simp only at target
    simp only [index, target, Option.bind_eq_bind, Option.bind_some, Option.pure_def, templatePixel]
  have sumY := sum (c, r) TargetSums.sumY (fun _ y => y) (fun _ _ _ => rfl) ⟨0, 0, 0⟩ rfl
  have sumY2 := sum (c, r) TargetSums.sumY2 (fun _ y => y * y) (fun _ _ _ => rfl) ⟨0, 0, 0⟩ rfl
  have sumXY := sum (c, r) TargetSums.sumXY (fun x y => x * y) (fun _ _ _ => rfl) ⟨0, 0, 0⟩ rfl
  have meanX := @mean_cells tc.sRows tc.sCols (templatePixel tc tc.S) _ rfl
  have meanY := mean_cells sumY
  dsimp only
  rw [ran, Option.bind_eq_bind, Option.bind_some, covariance_cells sumXY meanX meanY,
    covariance_cells rfl meanX meanX, covariance_cells sumY2 meanY meanY,
    @toUnsigned_expanded sqrtf _ _ (templatePixel tc tc.S) _ _ _ _ valid.small rfl sumY2 sumXY]
  rfl

/-- The same scores at a position, where the sum of squares has a value. -/
structure Agree (first second : Output) (k : Nat) : Prop where
  pcc : first (.pcc k) = second (.pcc k)
  ssd : ∃ ssd : UInt32, first (.ssd k) = some ssd ∧ second (.ssd k) = some ssd

theorem agree_of_scores {ι κ : Type} [DecidableEq ι] [DecidableEq κ] {share : ι → List Pixel}
    {share' : κ → List Pixel} (first : HandedOut share tc.outC tc.outR)
    (second : HandedOut share' tc.outC tc.outR) {before after before' after' : Output}
    (runs : Runs (fun i => some (writeAll tc.outC (scoresAt sqrtf tc) (share i))) before after)
    (runs' : Runs (fun i => some (writeAll tc.outC (scoresAt sqrtf tc) (share' i))) before' after')
    {k : Nat} (below : k < tc.outR * tc.outC) : Agree after after' k := by
  obtain ⟨p, inside, rfl⟩ := exists_pixel (w := tc.outC) (h := tc.outR) (by rwa [Nat.mul_comm])
  obtain ⟨pcc, ssd⟩ := first.launch (runs.launch fun _ => rfl) inside
  obtain ⟨pcc', ssd'⟩ := second.launch (runs'.launch fun _ => rfl) inside
  exact ⟨pcc.trans pcc'.symm, _, ssd, ssd'⟩

theorem exists_runs {ι : Type} [DecidableEq ι] [Fintype ι] {program : ι → Option (List Statement)}
    {size : Nat} (writes : WritesOnce program size) (before : Output) :
    ∃ after, Runs program before after := by
  obtain ⟨after, launch⟩ := exists_launch (fun i => (program i).get (writes.defined i)) before
  exact ⟨after, _, fun i => (Option.some_get _).symm, launch⟩

theorem exists_optimized (valid : tc.Valid) (fits : tc.Fits) :
    ∃ program, MatchKernelOptimized tc block sqrtf program := by
  have tiles (numbers : Nat × Nat) : ∃ sT : Shared, ∀ place : Thread tc block,
      blockOf place = numbers → Runs (loadTile tc block numbers) (fun _ => 0) sT := by
    by_cases some : ∃ place : Thread tc block, blockOf place = numbers
    · obtain ⟨place, rfl⟩ := some
      obtain ⟨sT, launch⟩ := exists_launch (fun thread : Lane block =>
        (strided (thread.2.val * block.x + thread.1.val) (tileW tc block * tileH tc block)
          (block.x * block.y)).map fun k =>
            assign k fun _ => tilePixel tc block (blockOf place) k) fun _ => 0
      exact ⟨sT, fun _ _ => ⟨_, loadTile_eq valid fits place, launch⟩⟩
    · exact ⟨fun _ => 0, fun place same => absurd ⟨place, same⟩ some⟩
  choose sT loaded using tiles
  exact ⟨_, _, fun _ => 0, _, fun _ _ => 0, sT, sSize_eq valid, if_pos valid.small,
    fun place => loaded _ place rfl, rfl⟩

/-- The bytes need not be digits. -/
theorem versions_agree (valid : tc.Valid) (fits : tc.Fits) {deviceThreads hostThreads : Nat}
    {share : Fin deviceThreads → List Pixel} {share' : Fin hostThreads → List Pixel}
    (shared : HandedOut share tc.outC tc.outR) (shared' : HandedOut share' tc.outC tc.outR) :
    ∃ size, tc.outSize = some size ∧
      WritesOnce (matchKernel sqrtf tc block) size ∧ WritesOnce (matchCPU sqrtf tc share) size ∧
      WritesOnce (TestAllCpu.matchCPU sqrtf tc share') size ∧
      (∀ place : Thread tc block, TileSafe tc block place) ∧
      (∃ optimized, MatchKernelOptimized tc block sqrtf optimized) ∧
      ∀ optimized, MatchKernelOptimized tc block sqrtf optimized → WritesOnce optimized size ∧
        ∀ g₀ g₁ o₀ o₁ c₀ c₁ h₀ h₁ : Output, Runs (matchKernel sqrtf tc block) g₀ g₁ →
          Runs optimized o₀ o₁ → Runs (matchCPU sqrtf tc share) c₀ c₁ →
          Runs (TestAllCpu.matchCPU sqrtf tc share') h₀ h₁ →
          ∀ k < size, Agree o₁ g₁ k ∧ Agree c₁ g₁ k ∧ Agree h₁ g₁ k := by
  have grid := @gridShare_handedOut tc block
  rw [matchKernel_eq valid fits, matchCPU_eq valid fits shared,
    TestAllCpu.matchCPU_eq valid fits shared']
  refine ⟨_, outSize_eq valid fits, grid.writesOnce, shared.writesOnce, shared'.writesOnce,
    tileSafe valid fits, exists_optimized valid fits, ?_⟩
  intro optimized tiled
  rw [tiled.eq valid fits]
  refine ⟨grid.writesOnce, ?_⟩
  intro g₀ g₁ o₀ o₁ c₀ c₁ h₀ h₁ global shortened cpu cpuOnly k below
  exact ⟨agree_of_scores grid grid shortened global below,
    agree_of_scores shared grid cpu global below, agree_of_scores shared' grid cpuOnly global below⟩

end

/-! Runs. -/

/-- Threads that take one iteration after the other in turn. -/
def dealt (numThreads w h : Nat) (thread : Fin numThreads) : List Pixel :=
  ((List.range (w * h)).filter fun k => k % numThreads = thread).map fun k => (k % w, k / w)

theorem mem_dealt {numThreads w h : Nat} {thread : Fin numThreads} {p : Pixel} :
    p ∈ dealt numThreads w h thread ↔
      Inside w h p ∧ cell w p % numThreads = thread := by
  simp only [dealt, List.mem_map, List.mem_filter, List.mem_range, decide_eq_true_eq]
  constructor
  · rintro ⟨k, ⟨below, mine⟩, rfl⟩
    obtain ⟨p, inside, rfl⟩ := exists_pixel below
    rw [cell_mod inside.1, cell_div inside.1]
    exact ⟨inside, mine⟩
  · rintro ⟨inside, mine⟩
    refine ⟨cell w p, ⟨cell_lt inside, mine⟩, ?_⟩
    rw [cell_mod inside.1, cell_div inside.1]

theorem dealt_handedOut {numThreads w h : Nat} (positive : 0 < numThreads) :
    HandedOut (dealt numThreads w h) w h where
  inside := fun _ _ mine => (mem_dealt.mp mine).1
  once := by
    intro p inside
    refine ⟨⟨cell w p % numThreads, Nat.mod_lt _ positive⟩, ?_, ?_⟩
    · refine List.count_eq_one_of_mem ?_ (mem_dealt.mpr ⟨inside, rfl⟩)
      apply List.Nodup.map
      · intro first second same
        obtain ⟨remainders, quotients⟩ := Prod.mk.inj same
        rw [← Nat.div_add_mod' first w, quotients, remainders, Nat.div_add_mod']
      · exact List.nodup_range.filter _
    · intro other different mine
      exact different (Fin.ext (mem_dealt.mp mine).2.symm)

def corner : TestCase where
  T := fun k => [5, 0, 3, 1, 9, 2, 7, 4, 8].getD k 0
  tRows := 3
  tCols := 3
  S := fun k => [9, 2, 4, 8].getD k 0
  sRows := 2
  sCols := 2

/-- Exact on the squares of fractions. -/
def root (value : Rat) : Rat := (value.num.toNat.sqrt : Rat) / value.den.sqrt

theorem versions_agree_corner : corner.outSize = some 4 ∧ ∃ g₁ o₁ c₁ h₁ : Output,
    ∀ k < 4, Agree o₁ g₁ k ∧ Agree c₁ g₁ k ∧ Agree h₁ g₁ k := by
  have valid : corner.Valid := ⟨by decide, by decide, by decide⟩
  have fits : corner.Fits := ⟨by decide, by decide⟩
  have block : BlockSize := ⟨2, 1, by decide, by decide⟩
  obtain ⟨size, same, kernel, host, only, -, ⟨program, tiled⟩, agree⟩ := @versions_agree root corner
    block valid fits 3 2 (dealt 3 2 2) (dealt 2 2 2) (dealt_handedOut (by decide))
    (dealt_handedOut (by decide))
  have four : corner.outSize = some 4 := by decide
  rw [four] at same
  cases same
  refine ⟨four, ?_⟩
  obtain ⟨writes, agree⟩ := agree program tiled
  obtain ⟨g₁, global⟩ := exists_runs kernel fun
    | .pcc _ => (0 : Rat)
    | .ssd _ => some (0 : UInt32)
  obtain ⟨o₁, shortened⟩ := exists_runs writes g₁
  obtain ⟨c₁, cpu⟩ := exists_runs host g₁
  obtain ⟨h₁, cpuOnly⟩ := exists_runs only g₁
  exact ⟨g₁, o₁, c₁, h₁, agree _ _ _ _ _ _ _ _ global shortened cpu cpuOnly⟩

/-- A target of `46341` rows and columns, and a template with one value. -/
def large : TestCase where
  T := fun _ => 0
  tRows := 46341
  tCols := 46341
  S := fun _ => 0
  sRows := 1
  sCols := 1

/-- A target with one row, which is as long as an int allows. -/
def wide : TestCase where
  T := fun _ => 0
  tRows := 1
  tCols := 2147483647
  S := fun _ => 0
  sRows := 1
  sCols := 2

def rowBlock : BlockSize := ⟨1024, 1, by decide, by decide⟩

theorem wide_tile : ∃ place : Thread wide rowBlock,
    loadTile wide rowBlock (blockOf place) place.2 = none := by
  refine ⟨((⟨2097151, by decide⟩, ⟨0, by decide⟩), (⟨0, by decide⟩, ⟨0, by decide⟩)), ?_⟩
  have last : 1024 ∈ strided 0 (tileW wide rowBlock * tileH wide rowBlock) 1024 :=
    (mem_strided (by decide)).mpr ⟨1, by decide, by decide⟩
  have fails : loadCell wide rowBlock (2097151, 0) 1024 = none := by decide
  exact Loops.mapM_none last fails

theorem large_overflows :
    (large.Valid ∧ large.outSize = none ∧
      ∀ (numThreads : Nat) (share : Fin numThreads → List Pixel),
        HandedOut share large.outC large.outR →
          ∃ thread, matchCPU root large share thread = none) ∧
    wide.Valid ∧ ∃ place : Thread wide rowBlock,
      loadTile wide rowBlock (blockOf place) place.2 = none := by
  refine ⟨⟨⟨by decide, by decide, by decide⟩, by decide, ?_⟩,
    ⟨by decide, by decide, by decide⟩, wide_tile⟩
  intro numThreads share handedOut
  obtain ⟨thread, once, -⟩ := handedOut.once (46340, 46340) ⟨by decide, by decide⟩
  have mine : (46340, 46340) ∈ share thread := List.count_pos_iff.mp (by rw [once]; decide)
  have target : targetAt large (46340 : Nat) (46340 : Nat) 0 0 = none := by
    decide
  have scores : onePass root 1 1 (templateAt large large.S)
      (targetAt large (46340 : Nat) (46340 : Nat)) = none := by
    rw [onePass, loopsM_none (i := 0) (j := 0) (by decide) (by decide) ?_]
    · rfl
    · intro acc
      rw [target]
      rfl
  refine ⟨thread, ?_⟩
  rw [matchCPU, Loops.mapM_none mine]
  · rfl
  · change (onePass root 1 1 (templateAt large large.S)
      (targetAt large (46340 : Nat) (46340 : Nat))).bind _ = none
    rw [scores, Option.bind_none]

end CudaOpenMp.TemplateMatching
