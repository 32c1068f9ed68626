import CudaOpenMp.Library.Barrier

/-!
Model of `reduceNeighbored` in `ParallelReduction.cu`. In each block, pairs of cells of global
memory are added up at distances that double from one barrier to the next. The kernel uses `idx`
without a declaration; it is `blockIdx.x*blockDim.x+threadIdx.x` here.
-/

namespace CudaOpenMp.ReduceNeighbored

open Interleaving

/-- The places of a thread in `reduceNeighbored`. -/
inductive Stage (M : Type) where
  | start
  | loop (stride : Nat)
  | add (stride : Nat) (sum : M)
  | sync (stride : Nat)
  | wait (stride : Nat)
  | write
  | done

def gridDim (n blockDim : Nat) : Nat := (n + blockDim - 1) / blockDim

/-- A block, and a thread of it. -/
abbrev Thread (n blockDim : Nat) := Fin (gridDim n blockDim) × Fin blockDim

/-- Global memory with one barrier for each block, and the cells that the blocks have read or
written in `g_idata`. -/
structure Device (n blockDim : Nat) (M : Type) where
  idata : Nat → M
  odata : Nat → M
  barrier : Barrier (Thread n blockDim)
  touched : List (Fin (gridDim n blockDim) × Nat)

section
variable {n blockDim : Nat} {M : Type} [AddCommMonoid M]

/-- A cell of `g_idata`. The length `n` is an `int`, so that no index reaches `2 ^ 32`. -/
def cell (t : Thread n blockDim) (offset : Nat) : Nat := t.1 * blockDim + offset

inductive Act (t : Thread n blockDim) :
    Device n blockDim M → Stage M → Device n blockDim M → Stage M → Prop
  | leave {g : Device n blockDim M} : n ≤ cell t t.2 →
      Act t g .start { g with barrier := g.barrier.leave t } .done
  | enter {g : Device n blockDim M} : cell t t.2 < n → Act t g .start g (.loop 1)
  | load {g : Device n blockDim M} {stride : Nat} : stride < blockDim → t.2 % (2 * stride) = 0 →
      Act t g (.loop stride)
        { g with touched := (t.1, cell t t.2) :: (t.1, cell t (t.2 + stride)) :: g.touched }
        (.add stride (g.idata (cell t t.2) + g.idata (cell t (t.2 + stride))))
  | pass {g : Device n blockDim M} {stride : Nat} : stride < blockDim → t.2 % (2 * stride) ≠ 0 →
      Act t g (.loop stride) g (.sync stride)
  | add {g : Device n blockDim M} {stride : Nat} {sum : M} : Act t g (.add stride sum)
      { g with idata := Function.update g.idata (cell t t.2) sum } (.sync stride)
  | sync {g : Device n blockDim M} {stride : Nat} :
      Act t g (.sync stride) { g with barrier := g.barrier.arrive t } (.wait stride)
  | wait {g : Device n blockDim M} {stride : Nat} : g.barrier.Open Prod.fst t →
      Act t g (.wait stride) g (.loop (stride * 2))
  | exit {g : Device n blockDim M} {stride : Nat} : blockDim ≤ stride →
      Act t g (.loop stride) g (if t.2.val = 0 then .write else .done)
  | write {g : Device n blockDim M} : Act t g .write
      { g with
        odata := Function.update g.odata t.1 (g.idata (cell t 0))
        touched := (t.1, cell t 0) :: g.touched } .done

def launch (idata odata : Nat → M) : State (Thread n blockDim) (Device n blockDim M) (Stage M) :=
  ⟨⟨idata, odata, Barrier.fresh, []⟩, fun _ => .start⟩

def gpuSum (n blockDim : Nat) (odata : Nat → M) : M :=
  (List.range (gridDim n blockDim)).foldl (fun sum i => sum + odata i) 0

end

/-- No block has touched a cell outside its own part of the first `n` cells. -/
def Safe {n blockDim : Nat} {M : Type} (g : Device n blockDim M) : Prop :=
  ∀ access ∈ g.touched, access.1 * blockDim ≤ access.2 ∧
    access.2 < (access.1 + 1) * blockDim ∧ access.2 < n

def Finished {n blockDim : Nat} {M : Type}
    (s : State (Thread n blockDim) (Device n blockDim M) (Stage M)) : Prop :=
  ∀ t, s.locals t = .done

end CudaOpenMp.ReduceNeighbored
