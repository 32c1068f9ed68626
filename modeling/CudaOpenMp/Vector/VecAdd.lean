import CudaOpenMp.Library.CInt
import CudaOpenMp.Library.Stores
import Mathlib.Data.Fintype.Prod

/-!
The kernels of `vec_add.cu` that step through the vectors with a fixed stride or with the size
of the launch. Signed sums that overflow have no value, unsigned ones wrap.
-/

namespace CudaOpenMp.VecAdd

open Stores

def elementCount : Nat := 1024 * 1024

/-- Block and thread index, with `gridDim.x` and `blockDim.x`. -/
abbrev Thread (grid block : Nat) := Fin grid × Fin block

/-- The indices that a thread stores to, with the fuel for its loop. -/
abbrev Kernel := (grid block : Nat) → Nat → Thread grid block → Option (List Int)

section
variable {grid block : Nat} (thread : Thread grid block)

def blockStart : UInt32 := UInt32.ofNat block * UInt32.ofNat thread.1

def threadIdx : UInt32 := UInt32.ofNat thread.2

def strideLoop (stride : Nat) : Nat → Int → Option (List Int)
  | 0, _ => none
  | fuel + 1, i =>
      if i < elementCount then do
        let j := narrow (blockStart thread + threadIdx thread).toNat
        let stored ← if UInt32.ofInt i + threadIdx thread + blockStart thread <
            UInt32.ofNat elementCount then (int32 (i + j)).map fun index => [index] else some []
        let next ← int32 (i + stride)
        let rest ← strideLoop stride fuel next
        return stored ++ rest
      else some []

def gridStrideLoop (stride : UInt32) : Nat → UInt32 → Option (List Int)
  | 0, _ => none
  | fuel + 1, i =>
      if i < UInt32.ofNat elementCount then
        (gridStrideLoop stride fuel (i + stride)).map fun rest => (i.toNat : Int) :: rest
      else some []

end

def strideKernel (stride : Nat) : Kernel := fun _ _ fuel thread => strideLoop thread stride fuel 0

def vecAddGpuKernel_2_19 : Kernel := strideKernel (1024 * 512)

def vecAddGpuKernel_2_19_a : Kernel := strideKernel (1024 * 512)

def vecAddGpuKernel_2_19_b : Kernel := strideKernel (1024 * 512)

def vecAddGpuKernel_2_18 : Kernel := strideKernel (1024 * 256)

def vecAddGpuKernel_2_18_a : Kernel := strideKernel (1024 * 256)

def vecAddGpuKernel_2_18_b : Kernel := strideKernel (1024 * 256)

def vecAddGpuKernel_2_10 : Kernel := strideKernel 1024

def vecAddGpuKernel_2_10_a : Kernel := strideKernel 1024

def vecAddGpuKernel_2_10_b : Kernel := strideKernel 1024

def vecAddGpuKernel_2_10_c : Kernel := strideKernel 1024

def vecAddGpuKernel_256_1 : Kernel := strideKernel 256

def vecAddGpuKernel_256_2 : Kernel := strideKernel 512

def vecAddGpuKernel_2_256 : Kernel := strideKernel 512

def vecAddGpuKernelBetter : Kernel := fun grid block fuel thread =>
  gridStrideLoop (UInt32.ofNat block * UInt32.ofNat grid) fuel (blockStart thread + threadIdx thread)

def vecAddGpuKernelBetter_a : Kernel := vecAddGpuKernelBetter

def vecAddGpuKernelBetter_b : Kernel := vecAddGpuKernelBetter

def vecAddGpuKernelBetter_c : Kernel := vecAddGpuKernelBetter

def vecAddGpuKernelBetter_d : Kernel := vecAddGpuKernelBetter

def vecAddGpuKernelBetter_e : Kernel := vecAddGpuKernelBetter

/-- The kernels with a fixed stride, after their strides. -/
def strideKernels : List (Nat × Kernel) :=
  [(256, vecAddGpuKernel_256_1), (512, vecAddGpuKernel_256_2), (512, vecAddGpuKernel_2_256),
    (1024, vecAddGpuKernel_2_10), (1024, vecAddGpuKernel_2_10_a), (1024, vecAddGpuKernel_2_10_b),
    (1024, vecAddGpuKernel_2_10_c), (2 ^ 18, vecAddGpuKernel_2_18),
    (2 ^ 18, vecAddGpuKernel_2_18_a), (2 ^ 18, vecAddGpuKernel_2_18_b),
    (2 ^ 19, vecAddGpuKernel_2_19), (2 ^ 19, vecAddGpuKernel_2_19_a),
    (2 ^ 19, vecAddGpuKernel_2_19_b)]

def gridStrideKernels : List Kernel :=
  [vecAddGpuKernelBetter, vecAddGpuKernelBetter_a, vecAddGpuKernelBetter_b,
    vecAddGpuKernelBetter_c, vecAddGpuKernelBetter_d, vecAddGpuKernelBetter_e]

section
variable {α : Type} [Add α] (vecA vecB : Int → α)

abbrev Vec (α : Type) := Memory fun _ : Int => α

def addAt (index : Int) : Assign fun _ : Int => α := assign index fun _ => vecB index + vecA index

def vecAddCpu : List (Assign fun _ : Int => α) :=
  (List.range elementCount).map fun i : Nat => addAt vecA vecB i

/-- Every thread ends, keeps to the array, and in any order of the stores the result is that of
the loop on the host. -/
structure AddsLikeCpu {grid block : Nat} (kernel : Nat → Thread grid block → Option (List Int)) :
    Prop where
  safe : ∃ indices : Thread grid block → List Int,
    (∀ thread, ∀ fuel > elementCount, kernel fuel thread = some (indices thread)) ∧
    (∀ thread, ∀ index ∈ indices thread, 0 ≤ index ∧ index < elementCount) ∧
    ∀ before after cpu : Vec α,
      Launch (fun thread => (indices thread).map (addAt vecA vecB)) before after →
      ∀ index : Int, 0 ≤ index → index < elementCount →
        after index = exec (vecAddCpu vecA vecB) cpu index

end

structure Covers {ι : Type} (indices : ι → List Int) : Prop where
  inside : ∀ i, ∀ index ∈ indices i, 0 ≤ index ∧ index < elementCount
  all : ∀ index : Int, 0 ≤ index → index < elementCount → ∃ i, index ∈ indices i

section
variable {α : Type} [Add α] {vecA vecB : Int → α} {ι : Type}

def added (vecA vecB start : Vec α) : Vec α := fun index =>
  if 0 ≤ index ∧ index < elementCount then vecB index + vecA index else start index

theorem Covers.settles {indices : ι → List Int} (covers : Covers indices) (start : Vec α) :
    Settles (fun i => (indices i).map (addAt vecA vecB)) start (added vecA vecB start) where
  value := by
    intro i a member m _
    obtain ⟨index, mine, rfl⟩ := List.mem_map.mp member
    refine Or.inl (congrArg some ?_)
    exact (if_pos (covers.inside i index mine)).symm
  rest := by
    intro index free
    rw [added, if_neg]
    rintro ⟨lower, upper⟩
    obtain ⟨i, mine⟩ := covers.all index lower upper
    exact free ⟨i, _, List.mem_map_of_mem mine, rfl⟩

theorem vecAddCpu_exec (start : Vec α) :
    exec (vecAddCpu vecA vecB) start = added vecA vecB start := by
  have covers : Covers fun _ : Unit => (List.range elementCount).map fun i : Nat => (i : Int) := by
    refine ⟨?_, ?_⟩
    · intro _ index member
      obtain ⟨i, below, rfl⟩ := List.mem_map.mp member
      have := List.mem_range.mp below
      omega
    · intro index lower upper
      obtain ⟨i, rfl⟩ := Int.eq_ofNat_of_zero_le lower
      exact ⟨(), List.mem_map_of_mem (List.mem_range.mpr (by omega))⟩
  have same : vecAddCpu vecA vecB =
      ((List.range elementCount).map fun i : Nat => (i : Int)).map (addAt vecA vecB) := by
    simp only [vecAddCpu, List.map_map, Function.comp_def]
  rw [same]
  exact (covers.settles start).exec

theorem Covers.addsLikeCpu {grid block : Nat} {indices : Thread grid block → List Int}
    {kernel : Nat → Thread grid block → Option (List Int)} (covers : Covers indices)
    (ends : ∀ thread, ∀ fuel > elementCount, kernel fuel thread = some (indices thread)) :
    AddsLikeCpu vecA vecB kernel := by
  refine ⟨indices, ends, covers.inside, ?_⟩
  intro before after cpu launch index lower upper
  rw [(covers.settles before).launch launch, vecAddCpu_exec]
  simp only [added, if_pos (And.intro lower upper)]

end

section
variable {grid block : Nat}

def position (thread : Thread grid block) : Nat := block * thread.1 + thread.2

theorem position_lt (thread : Thread grid block) : position thread < grid * block := by
  have lane := thread.2.isLt
  have whole := Nat.mul_le_mul_left block (Nat.succ_le_of_lt thread.1.isLt)
  rw [Nat.mul_succ, Nat.mul_comm block grid] at whole
  rw [position]
  omega

theorem exists_position {index : Nat} (below : index < grid * block) :
    ∃ thread : Thread grid block, position thread = index := by
  have positive : 0 < block := Nat.pos_of_ne_zero (by rintro rfl; simp at below)
  refine ⟨(⟨index / block, Nat.div_lt_of_lt_mul (by rwa [Nat.mul_comm])⟩,
    ⟨index % block, Nat.mod_lt _ positive⟩), ?_⟩
  exact Nat.div_add_mod index block

theorem blockStart_add (thread : Thread grid block) :
    blockStart thread + threadIdx thread = UInt32.ofNat (position thread) := by
  rw [blockStart, threadIdx, position, UInt32.ofNat_add, UInt32.ofNat_mul]

theorem lt_elementCount {index : Nat} (small : index < 2 ^ 32) :
    UInt32.ofNat index < UInt32.ofNat elementCount ↔ index < elementCount := by
  rw [UInt32.lt_iff_toNat_lt, UInt32.toNat_ofNat_of_lt' small, UInt32.toNat_ofNat_of_lt' (by decide)]

end

/-! What the loops go through. -/

def Reached (stride start : Nat) (index : Int) : Prop :=
  ∃ n, start + n * stride < elementCount ∧ index = (start + n * stride : Nat)

theorem reached_iff {stride start : Nat} {index : Int} : Reached stride start index ↔
    (start < elementCount ∧ index = start) ∨ Reached stride (start + stride) index := by
  have next (n : Nat) : start + (n + 1) * stride = start + stride + n * stride := by
    rw [Nat.succ_mul]
    omega
  constructor
  · rintro ⟨n, below, same⟩
    cases n with
    | zero =>
        rw [Nat.zero_mul, Nat.add_zero] at below same
        exact Or.inl ⟨below, same⟩
    | succ n =>
        rw [next] at below same
        exact Or.inr ⟨n, below, same⟩
  · rintro (⟨below, same⟩ | ⟨n, below, same⟩)
    · exact ⟨0, by rwa [Nat.zero_mul], by rw [same, Nat.zero_mul, Nat.add_zero]⟩
    · exact ⟨n + 1, by rwa [next], by rw [same, next]⟩

theorem not_reached {stride start : Nat} (past : elementCount ≤ start) (index : Int) :
    ¬Reached stride start index := by
  rintro ⟨n, below, _⟩
  omega

theorem reached_of_mod {stride index : Nat} (below : index < elementCount) :
    Reached stride (index % stride) index := by
  have whole := Nat.mod_add_div' index stride
  exact ⟨index / stride, by rwa [whole], by rw [whole]⟩

section
variable {grid block : Nat} {thread : Thread grid block}

theorem ofInt_natCast (i : Nat) : UInt32.ofInt i = UInt32.ofNat i := by
  have same : ((i : Int) % 2 ^ 32).toNat = i % 2 ^ 32 := by omega
  rw [UInt32.ofInt, same, UInt32.ofNat_mod_size]

theorem guard_iff {i : Nat} (small : i + position thread < 2 ^ 32) :
    UInt32.ofInt i + threadIdx thread + blockStart thread < UInt32.ofNat elementCount ↔
      i + position thread < elementCount := by
  have sum : UInt32.ofInt i + threadIdx thread + blockStart thread =
      UInt32.ofNat (i + position thread) := by
    rw [UInt32.ofNat_add, ← blockStart_add, add_assoc, add_comm (threadIdx thread), ofInt_natCast]
  rw [sum, lt_elementCount small]

theorem index_eq {i : Nat} (below : i < elementCount)
    (small : position thread < 2 ^ 31 - elementCount) :
    int32 ((i : Int) + narrow (blockStart thread + threadIdx thread).toNat) =
      some ((i + position thread : Nat) : Int) := by
  have size : elementCount = 2 ^ 20 := rfl
  have range : position thread < 2 ^ 32 := by omega
  rw [blockStart_add, UInt32.toNat_ofNat_of_lt' range, narrow_of_lt (by omega), ← Int.natCast_add]
  exact int32_of_range (by omega) (by omega)

def stored (thread : Thread grid block) (i : Nat) : List Int :=
  if i + position thread < elementCount then [((i + position thread : Nat) : Int)] else []

theorem mem_stored {i : Nat} {index : Int} : index ∈ stored thread i ↔
    i + position thread < elementCount ∧ index = (i + position thread : Nat) := by
  rw [stored]
  split
  · next below => simp only [List.mem_singleton, below, true_and]
  · next past => simp only [List.not_mem_nil, past, false_and]

theorem strideLoop_step {stride i fuel : Nat} {rest : List Int} (short : stride ≤ elementCount)
    (below : i < elementCount) (small : position thread < 2 ^ 31 - elementCount)
    (later : strideLoop thread stride fuel (i + stride : Nat) = some rest) :
    strideLoop thread stride (fuel + 1) i =
      some (stored thread i ++ rest) := by
  have size : elementCount = 2 ^ 20 := rfl
  have next : int32 ((i : Int) + stride) = some ((i + stride : Nat) : Int) := by
    rw [← Int.natCast_add]
    exact int32_of_range (by omega) (by omega)
  rw [strideLoop, if_pos (Int.ofNat_lt.mpr below)]
  simp only [index_eq below small, next, later, guard_iff (by omega : i + position thread < 2 ^ 32),
    Option.bind_eq_bind, Option.bind_some, Option.map_some, stored]
  split <;> rfl

theorem strideLoop_ends {stride : Nat} (positive : 0 < stride) (short : stride ≤ elementCount)
    (small : position thread < 2 ^ 31 - elementCount) (i : Nat) :
    ∃ indices, (∀ fuel, elementCount ≤ i + fuel →
        strideLoop thread stride (fuel + 1) i = some indices) ∧
      ∀ index, index ∈ indices ↔ Reached stride (i + position thread) index := by
  induction remaining : elementCount - i using Nat.strong_induction_on generalizing i with
  | _ remaining ih =>
      by_cases more : i < elementCount
      · obtain ⟨rest, ends, members⟩ := ih (elementCount - (i + stride)) (by omega) (i + stride) rfl
        have shifted : i + stride + position thread = i + position thread + stride := by omega
        refine ⟨stored thread i ++ rest, ?_, ?_⟩
        · intro fuel enough
          cases fuel with
          | zero => omega
          | succ fuel => exact strideLoop_step short more small (ends fuel (by omega))
        · intro index
          rw [reached_iff, List.mem_append, members, shifted, mem_stored]
      · refine ⟨[], ?_, ?_⟩
        · intro fuel _
          rw [strideLoop, if_neg (by omega)]
        · intro index
          simp [not_reached (by omega : elementCount ≤ i + position thread)]

theorem gridStrideLoop_ends {stride : Nat} (positive : 0 < stride)
    (bounded : stride ≤ 2 ^ 32 - elementCount) (i : Nat) (small : i < 2 ^ 32) :
    ∃ indices, (∀ fuel, elementCount ≤ i + fuel →
        gridStrideLoop (UInt32.ofNat stride) (fuel + 1) (UInt32.ofNat i) = some indices) ∧
      ∀ index, index ∈ indices ↔ Reached stride i index := by
  have size : elementCount = 2 ^ 20 := rfl
  induction remaining : elementCount - i using Nat.strong_induction_on generalizing i with
  | _ remaining ih =>
      by_cases more : i < elementCount
      · obtain ⟨rest, ends, members⟩ :=
          ih (elementCount - (i + stride)) (by omega) (i + stride) (by omega) rfl
        refine ⟨(i : Int) :: rest, ?_, ?_⟩
        · intro fuel enough
          cases fuel with
          | zero => omega
          | succ fuel =>
              rw [gridStrideLoop, if_pos ((lt_elementCount small).mpr more), ← UInt32.ofNat_add,
                ends fuel (by omega), UInt32.toNat_ofNat_of_lt' small, Option.map_some]
        · intro index
          rw [reached_iff, List.mem_cons, members]
          simp only [more, true_and]
      · refine ⟨[], ?_, ?_⟩
        · intro fuel _
          rw [gridStrideLoop, if_neg (mt (lt_elementCount small).mp more)]
        · intro index
          simp [not_reached (by omega : elementCount ≤ i)]

end

/-! The kernels. -/

section
variable {α : Type} [Add α] {vecA vecB : Int → α} {grid block : Nat}

theorem covers_of_reached {ι : Type} {stride : Nat} {start : ι → Nat} {indices : ι → List Int}
    (members : ∀ i index, index ∈ indices i ↔ Reached stride (start i) index)
    (starts : ∀ index : Nat, ∃ i, start i = index % stride) : Covers indices := by
  refine ⟨?_, ?_⟩
  · intro i index mine
    obtain ⟨n, below, rfl⟩ := (members i index).mp mine
    omega
  · intro index lower upper
    obtain ⟨n, rfl⟩ := Int.eq_ofNat_of_zero_le lower
    obtain ⟨i, same⟩ := starts n
    exact ⟨i, (members i n).mpr (by rw [same]; exact reached_of_mod (by omega))⟩

theorem strideKernel_adds {stride : Nat} (positive : 0 < stride) (short : stride ≤ elementCount)
    (enough : stride ≤ grid * block) (few : grid * block < 2 ^ 31 - 2 ^ 20) :
    AddsLikeCpu vecA vecB (strideKernel stride grid block) := by
  have small (thread : Thread grid block) : position thread < 2 ^ 31 - elementCount :=
    (position_lt thread).trans few
  choose indices ends members using fun thread => strideLoop_ends positive short (small thread) 0
  have covers : Covers indices := by
    simp only [Nat.zero_add] at members
    refine covers_of_reached members ?_
    intro index
    exact exists_position ((Nat.mod_lt index positive).trans_le enough)
  apply covers.addsLikeCpu
  intro thread fuel more
  obtain ⟨less, rfl⟩ := Nat.exists_eq_succ_of_ne_zero (by omega : fuel ≠ 0)
  exact ends thread less (by omega)

theorem vecAddGpuKernelBetter_adds (some : 1 ≤ grid * block)
    (few : grid * block ≤ 2 ^ 32 - 2 ^ 20) :
    AddsLikeCpu vecA vecB (vecAddGpuKernelBetter grid block) := by
  have small (thread : Thread grid block) : position thread < 2 ^ 32 :=
    (position_lt thread).trans_le (by omega)
  choose indices ends members using
    fun thread => gridStrideLoop_ends some few (position thread) (small thread)
  have covers : Covers indices := by
    refine covers_of_reached members ?_
    intro index
    exact exists_position (Nat.mod_lt index some)
  apply covers.addsLikeCpu
  intro thread fuel more
  obtain ⟨less, rfl⟩ := Nat.exists_eq_succ_of_ne_zero (by omega : fuel ≠ 0)
  rw [vecAddGpuKernelBetter, ← UInt32.ofNat_mul, Nat.mul_comm block, blockStart_add]
  exact ends thread less (by omega)

theorem strideKernels_spec : ∀ entry ∈ strideKernels, entry.2 = strideKernel entry.1 ∧
    0 < entry.1 ∧ entry.1 ≤ elementCount := by
  simp only [strideKernels, List.forall_mem_cons, List.not_mem_nil, false_implies, implies_true,
    and_true]
  refine ⟨?_, ?_, ?_, ?_, ?_, ?_, ?_, ?_, ?_, ?_, ?_, ?_, ?_⟩ <;> exact ⟨rfl, by decide, by decide⟩

theorem gridStrideKernels_spec : ∀ kernel ∈ gridStrideKernels, kernel = vecAddGpuKernelBetter := by
  simp only [gridStrideKernels, List.forall_mem_cons, List.not_mem_nil, false_implies,
    implies_true, and_true]
  exact ⟨trivial, rfl, rfl, rfl, rfl, rfl⟩

theorem kernels_add_like_cpu (vecA vecB : Int → α) :
    (∀ entry ∈ strideKernels, ∀ grid block, entry.1 ≤ grid * block →
      grid * block < 2 ^ 31 - 2 ^ 20 → AddsLikeCpu vecA vecB (entry.2 grid block)) ∧
    ∀ kernel ∈ gridStrideKernels, ∀ grid block, 1 ≤ grid * block →
      grid * block ≤ 2 ^ 32 - 2 ^ 20 → AddsLikeCpu vecA vecB (kernel grid block) := by
  refine ⟨?_, ?_⟩
  · intro entry member grid block enough few
    obtain ⟨same, positive, short⟩ := strideKernels_spec entry member
    rw [same]
    exact strideKernel_adds positive short enough few
  · intro kernel member grid block some few
    rw [gridStrideKernels_spec kernel member]
    exact vecAddGpuKernelBetter_adds some few

theorem kernels_add_like_cpu_tests :
    AddsLikeCpu (fun _ => (3 : Int)) (fun index => index) (vecAddGpuKernel_256_1 2 256) ∧
      AddsLikeCpu (fun _ => (3 : Int)) (fun index => index)
        (vecAddGpuKernelBetter_e 1048576 1) :=
  ⟨(kernels_add_like_cpu _ _).1 (256, vecAddGpuKernel_256_1) List.mem_cons_self 2 256 (by decide)
    (by decide), (kernels_add_like_cpu _ _).2 vecAddGpuKernelBetter_e (by simp [gridStrideKernels])
    1048576 1 (by decide) (by decide)⟩

end

end CudaOpenMp.VecAdd
