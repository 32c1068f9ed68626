import CudaOpenMp.Library.Stores
import CudaOpenMp.Library.Tiling

/-!
The sums of a block in `inner_product.cu` and `inner_product1.cu`: one thread that adds up all
values, and threads that halve the shared memory between barriers, with the steps written out
or in a loop.
-/

namespace CudaOpenMp.BlockSums

open Stores Tiling

def threadsPerBlock : Nat := 1024

abbrev Vec (M : Type) := Memory fun _ : Nat => M

section
variable {M : Type} [AddCommMonoid M]

def copy (blockDim blockIdx : Nat) (vecC : Nat → M) (tid : Fin blockDim) :
    List (Assign fun _ : Nat => M) :=
  let id := blockIdx * blockDim + tid
  [assign tid.val fun _ => vecC id]

def addUpper {blockDim : Nat} (i : Nat) (tid : Fin blockDim) : List (Assign fun _ : Nat => M) :=
  if tid < i then [assign tid.val fun vec => vec tid + vec (tid + i)] else []

/-- `vecSum_gpu_kernel` on a block: what is in its shared memory and in `vecC` afterwards. -/
def VecSumGpuKernel (blockIdx : Nat) (vecC : Nat → M) (shared vec : Vec M) (vecC' : Nat → M) :
    Prop :=
  Phases
    [copy threadsPerBlock blockIdx vecC, addUpper 512, addUpper 256, addUpper 128, addUpper 64,
      addUpper 32, addUpper 16, addUpper 8, addUpper 4, addUpper 2, addUpper 1] shared vec ∧
  vecC' = Function.update vecC blockIdx (vec 0)

def halvings (i : Nat) : List Nat :=
  if i > 0 then i :: halvings (i / 2) else []

def VecSumGpuKernel3 (blockDim blockIdx : Nat) (vecC : Nat → M) (shared vec : Vec M)
    (vecC' : Nat → M) : Prop :=
  Phases (copy blockDim blockIdx vecC :: (halvings (blockDim / 2)).map addUpper) shared vec ∧
  vecC' = Function.update vecC blockIdx (vec 0)

def localSum (values : Nat → M) (start : Nat) : M :=
  (List.range threadsPerBlock).foldl (fun sum i => sum + values (start + i)) 0

/-- `vecSum_gpu_kernel_1` in thread 0 of a block. -/
def vecSumGpuKernel1 (blockIdx : Nat) (vecC partialSum : Nat → M) : Nat → M :=
  let id := blockIdx * threadsPerBlock + 0
  Function.update partialSum blockIdx (localSum vecC id)

/-- `vecSum_gpu_kernel_2` on a block, where only thread 0 goes on after the barrier. -/
def VecSumGpuKernel2 (blockIdx : Nat) (vecC : Nat → M) (shared vec : Vec M)
    (partialSum partialSum' : Nat → M) : Prop :=
  Phases [copy threadsPerBlock blockIdx vecC] shared vec ∧
  partialSum' = Function.update partialSum blockIdx (localSum vec 0)

end

section
variable {M : Type}

theorem copy_launch {blockDim blockIdx : Nat} {vecC : Nat → M} {shared vec : Vec M}
    (launch : Launch (copy blockDim blockIdx vecC) shared vec) {tid : Nat} (inside : tid < blockDim) :
    vec tid = vecC (blockIdx * blockDim + tid) :=
  launch.own (fun _ _ same => Fin.ext same) ⟨tid, inside⟩

variable [AddCommMonoid M]

theorem addUpper_owned {blockDim : Nat} (i : Nat) :
    Owned (addUpper i : Fin blockDim → List (Assign fun _ : Nat => M))
      fun tid cell => tid.val = cell ∧ cell < i where
  apart := by
    rintro tid tid' cell ⟨rfl, _⟩ ⟨same, _⟩
    exact Fin.ext same.symm
  writes := by
    intro tid a member
    rw [addUpper] at member
    split at member
    · next active =>
      rw [List.mem_singleton.mp member]
      exact ⟨rfl, active⟩
    · cases member
  reads := by
    intro tid a member vec vec' agree
    rw [addUpper] at member
    split at member
    · next active =>
      rw [List.mem_singleton.mp member]
      have lower := agree tid (Or.inl ⟨rfl, active⟩)
      have upper := agree (tid + i) (Or.inr fun _ owner => by omega)
      simp only [assign, lower, upper]
    · cases member

/-- The memory with the upper half added to the lower half. -/
def added (i : Nat) (vec : Vec M) : Vec M := fun tid =>
  if tid < i then vec tid + vec (tid + i) else vec tid

theorem addUpper_launch {blockDim i : Nat} (fits : i ≤ blockDim) {before after : Vec M}
    (launch : Launch (addUpper i : Fin blockDim → _) before after) : after = added i before := by
  obtain ⟨owned, free⟩ := (addUpper_owned i).launch launch
  funext tid
  rw [added]
  split
  · next active =>
    rw [owned ⟨tid, by omega⟩ tid ⟨rfl, active⟩, addUpper, if_pos active]
    exact Function.update_self ..
  · next idle => exact free tid fun _ owner => idle owner.2

theorem sum_added (i : Nat) (vec : Vec M) :
    ∑ tid ∈ Finset.range i, added i vec tid = ∑ tid ∈ Finset.range (2 * i), vec tid := by
  rw [Nat.two_mul, Finset.sum_range_add, ← Finset.sum_add_distrib]
  apply Finset.sum_congr rfl
  intro tid member
  rw [added, if_pos (Finset.mem_range.mp member), Nat.add_comm]

def powers : Nat → List Nat
  | 0 => []
  | k + 1 => 2 ^ k :: powers k

theorem halvings_power (k : Nat) : halvings (2 ^ k / 2) = powers k := by
  induction k with
  | zero =>
      rw [halvings]
      rfl
  | succ k ih =>
      have half : 2 ^ (k + 1) / 2 = 2 ^ k := by rw [Nat.pow_succ, Nat.mul_div_cancel _ (by omega)]
      rw [half, halvings, if_pos (Nat.two_pow_pos k), ih, powers]

theorem powers_phases {blockDim k : Nat} (fits : 2 ^ k ≤ blockDim) {before after : Vec M}
    (phases : Phases ((powers k).map (@addUpper M _ blockDim)) before after) :
    after 0 = ∑ tid ∈ Finset.range (2 ^ k), before tid := by
  induction k generalizing before with
  | zero =>
      rw [show after = before from phases]
      simp
  | succ k ih =>
      obtain ⟨vec, launch, rest⟩ := phases
      have half : 2 ^ (k + 1) = 2 * 2 ^ k := by omega
      rw [ih (by omega) rest, addUpper_launch (by omega) launch, sum_added, half]

theorem copy_powers {k blockIdx : Nat} {vecC : Nat → M} {shared vec : Vec M}
    (phases : Phases (copy (2 ^ k) blockIdx vecC :: (powers k).map addUpper) shared vec) :
    vec 0 = ∑ tid ∈ Finset.range (2 ^ k), vecC (blockIdx * 2 ^ k + tid) := by
  obtain ⟨loaded, launch, steps⟩ := phases
  rw [powers_phases (Nat.le_refl _) steps]
  apply Finset.sum_congr rfl
  intro tid member
  exact copy_launch launch (Finset.mem_range.mp member)

/-! The sums of the blocks. -/

def blockSum (blockDim blockIdx : Nat) (vecC : Nat → M) : M :=
  ∑ tid ∈ Finset.range blockDim, vecC (blockIdx * blockDim + tid)

theorem localSum_eq (values : Nat → M) (start : Nat) :
    localSum values start = ∑ i ∈ Finset.range threadsPerBlock, values (start + i) := by
  rw [localSum, foldl_add, zero_add]

theorem vecSumGpuKernel1_eq (blockIdx : Nat) (vecC partialSum : Nat → M) :
    vecSumGpuKernel1 blockIdx vecC partialSum =
      Function.update partialSum blockIdx (blockSum threadsPerBlock blockIdx vecC) := by
  rw [vecSumGpuKernel1, Nat.add_zero, localSum_eq, blockSum]

theorem VecSumGpuKernel2.sum {blockIdx : Nat} {vecC partialSum partialSum' : Nat → M}
    {shared vec : Vec M} (kernel : VecSumGpuKernel2 blockIdx vecC shared vec partialSum partialSum') :
    partialSum' = Function.update partialSum blockIdx (blockSum threadsPerBlock blockIdx vecC) := by
  obtain ⟨⟨_, launch, rfl⟩, rfl⟩ := kernel
  have values : localSum vec 0 = blockSum threadsPerBlock blockIdx vecC := by
    rw [localSum_eq, blockSum]
    apply Finset.sum_congr rfl
    intro tid member
    rw [Nat.zero_add, copy_launch launch (Finset.mem_range.mp member)]
  rw [values]

theorem VecSumGpuKernel.sum {blockIdx : Nat} {vecC vecC' : Nat → M} {shared vec : Vec M}
    (kernel : VecSumGpuKernel blockIdx vecC shared vec vecC') :
    vec 0 = blockSum threadsPerBlock blockIdx vecC :=
  copy_powers (k := 10) kernel.1

theorem VecSumGpuKernel3.sum {k blockIdx : Nat} {vecC vecC' : Nat → M} {shared vec : Vec M}
    (kernel : VecSumGpuKernel3 (2 ^ k) blockIdx vecC shared vec vecC') :
    vec 0 = blockSum (2 ^ k) blockIdx vecC := by
  have phases := kernel.1
  rw [halvings_power] at phases
  exact copy_powers phases

/-- In every order between the barriers, both reductions leave in `vec[0]` the sum that the
serial loop computes. -/
theorem reductions_sum (blockIdx : Nat) (vecC : Nat → M) :
    (∀ shared vec vecC', VecSumGpuKernel blockIdx vecC shared vec vecC' →
      vec 0 = blockSum threadsPerBlock blockIdx vecC ∧ vecC' blockIdx = vec 0) ∧
    (∀ k, 2 ^ k ≤ threadsPerBlock → ∀ shared vec vecC',
      VecSumGpuKernel3 (2 ^ k) blockIdx vecC shared vec vecC' →
        vec 0 = blockSum (2 ^ k) blockIdx vecC ∧ vecC' blockIdx = vec 0) ∧
    (∀ shared vec partialSum partialSum',
      VecSumGpuKernel2 blockIdx vecC shared vec partialSum partialSum' →
        partialSum' blockIdx = blockSum threadsPerBlock blockIdx vecC) := by
  refine ⟨?_, ?_, ?_⟩
  · intro shared vec vecC' kernel
    refine ⟨kernel.sum, ?_⟩
    rw [kernel.2, Function.update_self]
  · intro k _ shared vec vecC' kernel
    refine ⟨kernel.sum, ?_⟩
    rw [kernel.2, Function.update_self]
  · intro shared vec partialSum partialSum' kernel
    rw [kernel.sum, Function.update_self]

theorem exists_kernels (blockDim blockIdx : Nat) (vecC partialSum : Nat → M) (shared : Vec M) :
    (∃ vec vecC', VecSumGpuKernel blockIdx vecC shared vec vecC') ∧
    (∃ vec vecC', VecSumGpuKernel3 blockDim blockIdx vecC shared vec vecC') ∧
    (∃ vec partialSum', VecSumGpuKernel2 blockIdx vecC shared vec partialSum partialSum') := by
  refine ⟨?_, ?_, ?_⟩
  · exact Exists.imp (fun vec phases => ⟨_, phases, rfl⟩) (exists_phases _ shared)
  · exact Exists.imp (fun vec phases => ⟨_, phases, rfl⟩) (exists_phases _ shared)
  · exact Exists.imp (fun vec phases => ⟨_, phases, rfl⟩) (exists_phases _ shared)

end

theorem reductions_sum_ones : ∃ vec vec' vecC' vecC'' : Nat → Nat,
    VecSumGpuKernel 3 (fun _ => 1) (fun _ => 0) vec vecC' ∧
    VecSumGpuKernel3 (2 ^ 6) 3 (fun _ => 1) (fun _ => 0) vec' vecC'' ∧
    vec 0 = 1024 ∧ vec' 0 = 64 := by
  obtain ⟨⟨vec, vecC', unrolled⟩, ⟨vec', vecC'', loop⟩, -⟩ :=
    exists_kernels (2 ^ 6) 3 (fun _ => 1) (fun _ => 0) fun _ => 0
  obtain ⟨first, second, -⟩ := reductions_sum 3 fun _ => 1
  have sum := (first _ _ _ unrolled).1
  have sum' := (second 6 (by decide) _ _ _ loop).1
  refine ⟨vec, vec', vecC', vecC'', unrolled, loop, ?_, ?_⟩
  · simpa [blockSum, threadsPerBlock] using sum
  · simpa [blockSum] using sum'

end CudaOpenMp.BlockSums
