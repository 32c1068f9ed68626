import CudaOpenMp.Vector.BlockSums
import Mathlib.Algebra.BigOperators.Fin
import Mathlib.Algebra.Ring.Rat
import Mathlib.Data.Fintype.Prod
import Mathlib.Data.List.TakeWhile
import Mathlib.Tactic.NormNum

/-!
The dot product of `inner_product1.cu`. Each block of the second kernel copies a row of `vecC`,
adds it up in shared memory and stores the sum into `vecC` again, where the first block may not
have copied its row yet.
-/

namespace CudaOpenMp.InnerProduct

open Stores Interleaving Tiling

def blocksPerGrid : Nat := 1024

def threadsPerBlock : Nat := 1024

def elementCount : Nat := 1024 * 1024

abbrev Block := Fin blocksPerGrid

def block0 : Block := ⟨0, by decide⟩

section
variable {R : Type} [CommRing R]

abbrev Vec (R : Type) := Memory fun _ : Nat => R

def vecMulGpuKernel (vecA vecB : Nat → R) (place : Block × Fin threadsPerBlock) :
    List (Assign fun _ : Nat => R) :=
  let i := place.1 * threadsPerBlock + place.2
  if i < elementCount then [assign i fun _ => vecB i * vecA i] else []

/-- What the threads of a block do between two barriers. -/
def halve (half : Nat) (tid : Fin threadsPerBlock) : List (Assign fun _ : Nat => R) :=
  if tid < half then [assign tid.val fun vec => vec tid + vec (tid + half)] else []

def halves : List Nat := [512, 256, 128, 64, 32, 16, 8, 4, 2, 1]

def Reduces : List Nat → Vec R → Vec R → Prop
  | [], before, after => after = before
  | half :: rest, before, after =>
      ∃ vec, Launch (halve half) before vec ∧ Reduces rest vec after

/-- The places of a block between its accesses to `vecC`, with its shared memory. -/
inductive Stage (R : Type) where
  | load
  | reduce (vec : Vec R)
  | store (vec : Vec R)
  | done

inductive Event where
  | load (b : Block)
  | store (b : Block)
  deriving DecidableEq

/-- `vecC`, and the order in which the blocks have accessed it. -/
structure Device (R : Type) where
  vecC : Vec R
  order : List Event

inductive Act (b : Block) : Device R → Stage R → Device R → Stage R → Prop
  | load (g : Device R) : Act b g .load ⟨g.vecC, g.order ++ [.load b]⟩
      (.reduce fun tid => g.vecC (b * threadsPerBlock + tid))
  | reduce (g : Device R) {vec sums : Vec R} : Reduces halves vec sums →
      Act b g (.reduce vec) g (.store sums)
  | store (g : Device R) (vec : Vec R) : Act b g (.store vec)
      ⟨Function.update g.vecC b (vec 0), g.order ++ [.store b]⟩ .done

def sumGpu (vecC : Vec R) : R :=
  (List.range blocksPerGrid).foldl (fun sum i => sum + vecC i) 0

def vecDotCpu (vecA vecB : Nat → R) : R :=
  (List.range elementCount).foldl (fun sum i => sum + vecB i * vecA i) 0

/-- `main` up to `S_gpu`, with the order of the accesses in the second kernel. -/
def Main (vecA vecB : Nat → R) (order : List Event) (result : R) : Prop :=
  ∃ start products : Vec R, Launch (vecMulGpuKernel vecA vecB) start products ∧
    ∃ s : State Block (Device R) (Stage R),
      Run Act ⟨⟨products, []⟩, fun _ => .load⟩ s ∧ (∀ b, s.locals b = .done) ∧
      s.shared.order = order ∧ result = sumGpu s.shared.vecC

end

/-- The blocks that store before the first block copies its row. -/
def early (order : List Event) : Finset Block :=
  Finset.univ.filter fun b => .store b ∈ order.takeWhile (· ≠ .load block0)

section
variable {R : Type} [CommRing R]

theorem Reduces.phases {list : List Nat} {before after : Vec R} (reduces : Reduces list before after) :
    Phases (list.map (@BlockSums.addUpper R _ threadsPerBlock)) before after := by
  induction list generalizing before with
  | nil => exact reduces
  | cons half rest ih =>
      obtain ⟨vec, launch, later⟩ := reduces
      exact ⟨vec, launch, ih later⟩

theorem exists_reduces (list : List Nat) (before : Vec R) : ∃ after, Reduces list before after := by
  induction list generalizing before with
  | nil => exact ⟨before, rfl⟩
  | cons half rest ih =>
      obtain ⟨vec, launch⟩ := exists_launch (halve half) before
      obtain ⟨after, later⟩ := ih vec
      exact ⟨after, vec, launch, later⟩

theorem halves_reduces {before after : Vec R} (reduces : Reduces halves before after) :
    after 0 = ∑ tid ∈ Finset.range threadsPerBlock, before tid :=
  BlockSums.powers_phases (k := 10) (Nat.le_refl _) reduces.phases

end

theorem early_append {order : List Event} (loaded : .load block0 ∈ order) (event : Event) :
    early (order ++ [event]) = early order := by
  have shorter : (order ++ [event]).takeWhile (· ≠ .load block0) =
      order.takeWhile (· ≠ .load block0) := by
    have stops : ((order.takeWhile (· ≠ .load block0)).length ≠ order.length) := by
      intro whole
      have same := (List.takeWhile_prefix _).eq_of_length whole
      simpa using List.takeWhile_eq_self_iff.mp same _ loaded
    rw [List.takeWhile_append, if_neg stops]
  rw [early, early, shorter]

theorem mem_early_load {order : List Event} (waiting : .load block0 ∉ order) {b : Block} :
    b ∈ early (order ++ [.load block0]) ↔ .store b ∈ order := by
  have all : ∀ event ∈ order, decide (event ≠ .load block0) = true := by
    intro event member
    apply decide_eq_true
    rintro rfl
    exact waiting member
  rw [early, List.takeWhile_append_of_pos all]
  simp

section
variable {R : Type} [CommRing R] (P : Vec R)

def rowSum (b : Nat) : R := ∑ tid ∈ Finset.range threadsPerBlock, P (b * threadsPerBlock + tid)

/-- What a block copies, when the blocks in `stored` have stored their sums before block 0
copies its row. -/
def copied (stored : Finset Block) (b : Block) (tid : Nat) : R :=
  if b = block0 ∧ ∃ c ∈ stored, c.val = tid then rowSum P tid else P (b * threadsPerBlock + tid)

def total (stored : Finset Block) (b : Block) : R :=
  ∑ tid ∈ Finset.range threadsPerBlock, copied P stored b tid

def Stage.Holds (order : List Event) (b : Block) : Stage R → Prop
  | .load => .load b ∉ order ∧ .store b ∉ order
  | .reduce vec => .load b ∈ order ∧ .store b ∉ order ∧
      ∀ tid < threadsPerBlock, vec tid = copied P (early order) b tid
  | .store vec => .load b ∈ order ∧ .store b ∉ order ∧ vec 0 = total P (early order) b
  | .done => .load b ∈ order ∧ .store b ∈ order

structure Tracks (s : State Block (Device R) (Stage R)) : Prop where
  far : ∀ i, blocksPerGrid ≤ i → s.shared.vecC i = P i
  cells : ∀ b : Block, s.shared.vecC b =
    if .store b ∈ s.shared.order then total P (early s.shared.order) b else P b
  stages : ∀ b, (s.locals b).Holds P s.shared.order b

variable {P}

theorem copied_other {b : Block} (other : b ≠ block0) (stored : Finset Block) :
    copied P stored b = fun tid => P (b * threadsPerBlock + tid) := by
  funext tid
  rw [copied, if_neg fun holds => other holds.1]

theorem total_other {b : Block} (other : b ≠ block0) (stored : Finset Block) :
    total P stored b = rowSum P b := by
  rw [total, copied_other other, rowSum]

theorem copied_append {b : Block} {order : List Event} (loaded : .load b ∈ order) (event : Event) :
    copied P (early (order ++ [event])) b = copied P (early order) b := by
  by_cases first : b = block0
  · subst first
    rw [early_append loaded]
  · rw [copied_other first, copied_other first]

theorem total_append {b : Block} {order : List Event} (loaded : .load b ∈ order) (event : Event) :
    total P (early (order ++ [event])) b = total P (early order) b := by
  rw [total, copied_append loaded, total]

theorem Stage.Holds.append {order : List Event} {b c : Block} (other : b ≠ c) {event : Event}
    (acts : event = .load c ∨ event = .store c) {stage : Stage R} (held : stage.Holds P order b) :
    stage.Holds P (order ++ [event]) b := by
  have load : .load b ∈ order ++ [event] ↔ .load b ∈ order := by
    rcases acts with rfl | rfl <;> simp [other]
  have store : .store b ∈ order ++ [event] ↔ .store b ∈ order := by
    rcases acts with rfl | rfl <;> simp [other]
  cases stage with
  | load => exact ⟨mt load.mp held.1, mt store.mp held.2⟩
  | reduce vec =>
      obtain ⟨loaded, unstored, row⟩ := held
      refine ⟨load.mpr loaded, mt store.mp unstored, ?_⟩
      rwa [copied_append loaded]
  | store vec =>
      obtain ⟨loaded, unstored, sum⟩ := held
      exact ⟨load.mpr loaded, mt store.mp unstored, by rwa [total_append loaded]⟩
  | done => exact ⟨load.mpr held.1, store.mpr held.2⟩

theorem Tracks.loaded {s : State Block (Device R) (Stage R)} (tracks : Tracks P s) {b : Block}
    (stored : .store b ∈ s.shared.order) : .load b ∈ s.shared.order := by
  have held := tracks.stages b
  cases stage : s.locals b with
  | load =>
      rw [stage] at held
      exact (held.2 stored).elim
  | reduce vec =>
      rw [stage] at held
      exact held.1
  | store vec =>
      rw [stage] at held
      exact held.1
  | done =>
      rw [stage] at held
      exact held.1

theorem Tracks.row {s : State Block (Device R) (Stage R)} (tracks : Tracks P s) {b : Block}
    (waiting : s.locals b = .load) {tid : Nat} (inside : tid < threadsPerBlock) :
    s.shared.vecC (b * threadsPerBlock + tid) =
      copied P (early (s.shared.order ++ [.load b])) b tid := by
  have held := tracks.stages b
  rw [waiting] at held
  by_cases first : b = block0
  · subst first
    have cell := tracks.cells ⟨tid, inside⟩
    have zero : block0.val * threadsPerBlock + tid = tid := by simp [block0]
    rw [copied, zero, cell]
    by_cases stored : .store (⟨tid, inside⟩ : Block) ∈ s.shared.order
    · have other : (⟨tid, inside⟩ : Block) ≠ block0 := by
        intro same
        rw [same] at stored
        exact held.2 stored
      rw [if_pos stored, total_other other, if_pos]
      exact ⟨rfl, _, (mem_early_load held.1).mpr stored, rfl⟩
    · rw [if_neg stored, if_neg]
      rintro ⟨-, c, member, same⟩
      have stores := (mem_early_load held.1).mp member
      rw [show c = ⟨tid, inside⟩ from Fin.ext same] at stores
      exact stored stores
  · have later : blocksPerGrid ≤ b * threadsPerBlock + tid := by
      have positive : 1 ≤ b.val := Nat.pos_of_ne_zero fun zero => first (Fin.ext zero)
      have := Nat.mul_le_mul_right threadsPerBlock positive
      exact (by simpa [blocksPerGrid, threadsPerBlock] using this : 1024 ≤ _).trans (Nat.le_add_right _ _)
    rw [tracks.far _ later, copied_other first]

theorem Tracks.step {s t : State Block (Device R) (Stage R)} (tracks : Tracks P s)
    (move : Step Act s t) : Tracks P t := by
  cases move with
  | turn b acted =>
      have held := tracks.stages b
      generalize stage : s.locals b = before at acted held
      cases acted with
      | load =>
          refine ⟨tracks.far, ?_, ?_⟩
          · intro c
            simp only [List.mem_append, List.mem_singleton, reduceCtorEq, or_false]
            rw [tracks.cells c]
            split
            · next stored => rw [total_append (tracks.loaded stored)]
            · rfl
          · intro c
            by_cases same : c = b
            · subst same
              simp only [Function.update_self]
              refine ⟨by simp, by simpa using held.2, ?_⟩
              intro tid inside
              exact tracks.row stage inside
            · simp only [Function.update_of_ne same]
              exact (tracks.stages c).append same (Or.inl rfl)
      | reduce reduces =>
          refine ⟨tracks.far, tracks.cells, ?_⟩
          intro c
          by_cases same : c = b
          · subst same
            simp only [Function.update_self]
            refine ⟨held.1, held.2.1, ?_⟩
            rw [halves_reduces reduces, total]
            exact Finset.sum_congr rfl fun tid member => held.2.2 tid (Finset.mem_range.mp member)
          · simp only [Function.update_of_ne same]
            exact tracks.stages c
      | store vec =>
          obtain ⟨loaded, unstored, sum⟩ := held
          refine ⟨?_, ?_, ?_⟩
          · intro i later
            have other : i ≠ b.val := by
              have := b.isLt
              omega
            simp only [Function.update_of_ne other]
            exact tracks.far i later
          · intro c
            by_cases same : c = b
            · subst same
              simp [sum, total_append loaded]
            · have other : (c : Nat) ≠ b := fun equal => same (Fin.ext equal)
              simp only [Function.update_of_ne other, List.mem_append, List.mem_singleton,
                Event.store.injEq, same, or_false]
              rw [tracks.cells c]
              split
              · next stored => rw [total_append (tracks.loaded stored)]
              · rfl
          · intro c
            by_cases same : c = b
            · subst same
              simp only [Function.update_self]
              exact ⟨by simp [loaded], by simp⟩
            · simp only [Function.update_of_ne same]
              exact (tracks.stages c).append same (Or.inr rfl)

end

/-! The result. -/

section
variable {R : Type} [CommRing R] {vecA vecB : Nat → R}

def product (vecA vecB : Nat → R) : Vec R := fun i => vecB i * vecA i

theorem vecMul_launch {start after : Vec R} (launch : Launch (vecMulGpuKernel vecA vecB) start after)
    {i : Nat} (below : i < elementCount) : after i = product vecA vecB i := by
  obtain ⟨values, -⟩ := launch.values (product vecA vecB) (by
    intro place a member m
    rw [vecMulGpuKernel] at member
    split at member
    · rw [List.mem_singleton.mp member]
      rfl
    · cases member)
  obtain ⟨place, rfl⟩ : ∃ place : Block × Fin threadsPerBlock,
      place.1 * threadsPerBlock + place.2 = i :=
    ⟨(⟨i / threadsPerBlock, Nat.div_lt_of_lt_mul below⟩,
      ⟨i % threadsPerBlock, Nat.mod_lt _ (by decide)⟩), Nat.div_add_mod' _ _⟩
  exact values _ ⟨place, _, by rw [vecMulGpuKernel, if_pos below]; exact List.mem_singleton_self _, rfl⟩

theorem rowSum_eq {P : Vec R} (products : ∀ i < elementCount, P i = product vecA vecB i)
    (b : Block) : rowSum P b = rowSum (product vecA vecB) b := by
  apply Finset.sum_congr rfl
  intro tid member
  apply products
  have inside := Finset.mem_range.mp member
  have last := b.isLt
  simp only [elementCount, blocksPerGrid, threadsPerBlock] at *
  omega

theorem vecDotCpu_eq : vecDotCpu vecA vecB = ∑ b : Block, rowSum (product vecA vecB) b := by
  have tiles := sum_tiles threadsPerBlock (product vecA vecB) blocksPerGrid
  rw [vecDotCpu, foldl_add, zero_add, ← Finset.sum_range fun b => rowSum (product vecA vecB) b]
  exact tiles

theorem total_block0 (P : Vec R) (stored : Finset Block) :
    total P stored block0 = rowSum P block0 + ∑ b ∈ stored, (rowSum P b - P b) := by
  have each (b : Block) : copied P stored block0 b =
      P (block0 * threadsPerBlock + b) + if b ∈ stored then rowSum P b - P b else 0 := by
    have zero : block0.val * threadsPerBlock + b.val = b.val := by simp [block0]
    have found : (∃ c ∈ stored, c.val = b.val) ↔ b ∈ stored :=
      ⟨fun ⟨c, member, same⟩ => Fin.ext same ▸ member, fun member => ⟨b, member, rfl⟩⟩
    rw [copied, zero]
    simp only [found, true_and]
    split <;> simp
  have cells : ∑ b : Block, copied P stored block0 b = ∑ b : Block,
      P (block0 * threadsPerBlock + b) + ∑ b ∈ stored, (rowSum P b - P b) := by
    rw [Finset.sum_congr rfl fun b _ => each b, Finset.sum_add_distrib, Finset.sum_ite_mem,
      Finset.univ_inter]
  rw [← Finset.sum_range fun tid => copied P stored block0 tid,
    ← Finset.sum_range fun tid => P (block0 * threadsPerBlock + tid)] at cells
  exact cells

theorem Tracks.sum {P : Vec R} {s : State Block (Device R) (Stage R)} (tracks : Tracks P s)
    (finished : ∀ b, s.locals b = .done) : sumGpu s.shared.vecC =
      ∑ b : Block, rowSum P b + ∑ b ∈ early s.shared.order, (rowSum P b - P b) := by
  have cell (b : Block) : s.shared.vecC b = total P (early s.shared.order) b := by
    have held := tracks.stages b
    rw [finished b] at held
    rw [tracks.cells b, if_pos held.2]
  have others : ∑ b ∈ Finset.univ.erase block0, total P (early s.shared.order) b =
      ∑ b ∈ Finset.univ.erase block0, rowSum P b :=
    Finset.sum_congr rfl fun b member => total_other (Finset.ne_of_mem_erase member) _
  rw [sumGpu, foldl_add, zero_add, Finset.sum_range, Finset.sum_congr rfl fun b _ => cell b,
    ← Finset.add_sum_erase _ _ (Finset.mem_univ block0), others, total_block0, add_right_comm,
    Finset.add_sum_erase _ (fun b : Block => rowSum P b) (Finset.mem_univ block0)]

theorem Main.result {order : List Event} {result : R} (main : Main vecA vecB order result) :
    result = vecDotCpu vecA vecB + ∑ b ∈ early order,
      (rowSum (product vecA vecB) b - product vecA vecB b) := by
  obtain ⟨start, P, launch, s, run, finished, rfl, added⟩ := main
  have products : ∀ i < elementCount, P i = product vecA vecB i := fun i => vecMul_launch launch
  have tracks : Tracks P s := by
    refine run.invariant ⟨fun _ _ => rfl, fun _ => rfl, fun b => ?_⟩ fun _ _ move held => held.step move
    exact ⟨List.not_mem_nil, List.not_mem_nil⟩
  have inside (b : Block) : b.val < elementCount := b.isLt.trans (by decide)
  have rows : ∑ b : Block, rowSum P b = vecDotCpu vecA vecB := by
    rw [vecDotCpu_eq]
    exact Finset.sum_congr rfl fun b _ => rowSum_eq products b
  have changes : ∑ b ∈ early s.shared.order, (rowSum P b - P b) = ∑ b ∈ early s.shared.order,
      (rowSum (product vecA vecB) b - product vecA vecB b) :=
    Finset.sum_congr rfl fun b _ => by rw [rowSum_eq products, products b (inside b)]
  rw [added, tracks.sum finished, rows, changes]

/-- The sums of the early blocks have to make up for the products that they overwrite. -/
theorem sumGpu_eq_iff {order : List Event} {result : R} (main : Main vecA vecB order result) :
    result = vecDotCpu vecA vecB ↔ ∑ b ∈ early order, rowSum (product vecA vecB) b =
      ∑ b ∈ early order, product vecA vecB b := by
  rw [main.result, add_eq_left, Finset.sum_sub_distrib, sub_eq_zero]

end

/-! Runs in which a block goes first. -/

section
variable {R : Type} [CommRing R]

theorem exists_block (b : Block) (g : Device R) {locals : Block → Stage R}
    (waiting : locals b = .load) : ∃ g' : Device R, g'.order = g.order ++ [.load b, .store b] ∧
      Run Act ⟨g, locals⟩ ⟨g', Function.update locals b .done⟩ := by
  obtain ⟨sums, reduces⟩ := exists_reduces halves fun tid => g.vecC (b * threadsPerBlock + tid)
  have load := Step.solo locals b (Act.load (b := b) g)
  have reduce := Step.solo locals b (Act.reduce ⟨g.vecC, g.order ++ [.load b]⟩ reduces)
  have store := Step.solo locals b (Act.store (b := b) ⟨g.vecC, g.order ++ [.load b]⟩ sums)
  rw [← waiting, solo_self] at load
  exact ⟨_, by simp, ((Relation.ReflTransGen.single load).tail reduce).tail store⟩

theorem exists_rest (g : Device R) (b : Block) :
    ∃ later, ∃ s : State Block (Device R) (Stage R), s.shared.order = g.order ++ later ∧
      Run Act ⟨g, Function.update (fun _ => .load) b .done⟩ s ∧ ∀ c, s.locals c = .done := by
  obtain ⟨after, ⟨later, grown⟩, run⟩ := @Run.each Block (Device R) (Stage R) _ Act
    (Function.update (fun _ => .load) b .done) (fun _ => .done)
    (fun _ g' => ∃ later, g'.order = g.order ++ later) (Finset.univ.erase b)
    (by
      rintro c member _ g' _ ⟨later, grown⟩ locals here
      rw [Function.update_of_ne (Finset.ne_of_mem_erase member)] at here
      obtain ⟨next, order, run⟩ := exists_block c g' here
      exact ⟨next, ⟨later ++ [.load c, .store c], by rw [order, grown, List.append_assoc]⟩, run⟩)
    g ⟨[], by simp⟩
  refine ⟨later, _, grown, run, ?_⟩
  intro c
  by_cases same : c = b <;> simp [same]

theorem exists_main_first (vecA vecB : Nat → R) (b : Block) :
    ∃ later result, Main vecA vecB ([.load b, .store b] ++ later) result := by
  obtain ⟨products, launch⟩ := exists_launch (vecMulGpuKernel vecA vecB) fun _ => 0
  obtain ⟨g, order, first⟩ :=
    @exists_block R _ b ⟨products, []⟩ (fun _ => .load) rfl
  obtain ⟨later, s, grown, rest, finished⟩ := exists_rest g b
  exact ⟨later, _, _, products, launch, s, first.trans rest, finished, by rw [grown, order]; rfl, rfl⟩

end

theorem sumGpu_eq_iff_ones : ∃ order, ∃ result : Rat, Main (fun _ => 1) (fun _ => 1) order result ∧
    (result = vecDotCpu (fun _ => 1) (fun _ => 1) ↔
      ∑ b ∈ early order, rowSum (product (fun _ => 1) fun _ => (1 : Rat)) b =
        ∑ b ∈ early order, product (fun _ => 1) (fun _ => (1 : Rat)) b) := by
  obtain ⟨later, result, main⟩ := exists_main_first (fun _ => (1 : Rat)) (fun _ => 1) block0
  exact ⟨_, result, main, sumGpu_eq_iff main⟩

/-- With the vectors of `main`, all ones, the sum is too large when the second block is through
before the first one begins. -/
theorem second_block_first : ∃ later, ∃ result : Rat,
    Main (fun _ => 1) (fun _ => 1) ([.load ⟨1, by decide⟩, .store ⟨1, by decide⟩] ++ later) result ∧
      result ≠ vecDotCpu (fun _ => 1) (fun _ => 1) := by
  obtain ⟨later, result, main⟩ := exists_main_first (fun _ => (1 : Rat)) (fun _ => 1) ⟨1, by decide⟩
  refine ⟨later, result, main, ?_⟩
  have row (b : Block) : rowSum (product (fun _ => 1) fun _ => (1 : Rat)) b -
      product (fun _ => 1) (fun _ => (1 : Rat)) b = 1023 := by
    have sum : rowSum (product (fun _ => 1) fun _ => (1 : Rat)) b = 1024 := by
      simp [rowSum, product, threadsPerBlock]
    rw [sum, product, mul_one]
    norm_num
  have second : (⟨1, by decide⟩ : Block) ∈
      early ([.load ⟨1, by decide⟩, .store ⟨1, by decide⟩] ++ later) := by
    simp [early, block0]
  rw [main.result, Finset.sum_congr rfl fun b _ => row b, Finset.sum_const, add_ne_left]
  simp only [nsmul_eq_mul, ne_eq, mul_eq_zero, Nat.cast_eq_zero, Finset.card_eq_zero]
  rintro (none | zero)
  · rw [none] at second
    cases second
  · norm_num at zero

end CudaOpenMp.InnerProduct
