import CudaOpenMp.Cipher.TlforcePool
import CudaOpenMp.Library.HuffmanOptimal
import Mathlib.Algebra.Order.BigOperators.Group.List

/-! For every array of scores the pool holds one full tree, and its codes are optimal. -/

namespace CudaOpenMp.Tlforce

open HuffmanTree

/-- The tree below a node and the places of all its nodes. -/
inductive Spans (nodes : List HNode) : Nat → HuffmanTree.Tree Nat → List Nat → Prop
  | leaf {idx c : Nat} {node : HNode} (found : nodes[idx]? = some node) (label : node.ch = c) :
      Spans nodes idx (.leaf c) [idx]
  | branch {idx left right : Nat} {node : HNode} {l r : HuffmanTree.Tree Nat} {ps qs : List Nat}
      (found : nodes[idx]? = some node) (inner : node.ch = -1) (onLeft : node.left = left)
      (onRight : node.right = right) (leftSpans : Spans nodes left l ps)
      (rightSpans : Spans nodes right r qs) : Spans nodes idx (.node l r) (idx :: (ps ++ qs))

theorem leaves_inhabited (t : HuffmanTree.Tree Nat) : ∃ x, x ∈ t.leaves := by
  have size := t.height_lt
  exact List.exists_mem_of_length_pos (by omega)

/-- With distinct labels no node is used twice. -/
theorem exists_spans {nodes : List HNode} (sound : Sound nodes) {idx : Nat}
    (bound : idx < nodes.length) (unique : (tree nodes idx).leaves.Nodup) :
    ∃ places, Spans nodes idx (tree nodes idx) places ∧ places.length = (tree nodes idx).size ∧
      places.Nodup ∧ ∀ p ∈ places, p ≤ idx ∧ (tree nodes p).leaves ⊆ (tree nodes idx).leaves := by
  induction idx using Nat.strongRecOn with
  | ind idx ih =>
      have here : nodes[idx]? = some (nodeAt nodes idx) := by simp [nodeAt, bound]
      obtain ⟨_, shape⟩ := sound idx bound
      rcases shape with labelled | ⟨inner, left, right, onLeft, onRight, leftBound, rightBound⟩
      · have leaf := congrArg Item.tree (item_leaf labelled)
        rw [item_tree] at leaf
        rw [leaf]
        refine ⟨[idx], .leaf here (Int.toNat_of_nonneg labelled).symm, rfl, List.nodup_singleton idx, ?_⟩
        intro p member
        rw [List.mem_singleton.mp member, leaf]
        exact ⟨Nat.le_refl idx, List.Subset.refl _⟩
      · have branch := tree_branch inner onLeft onRight leftBound rightBound
        rw [branch, HuffmanTree.Tree.leaves, List.nodup_append] at unique
        obtain ⟨leftUnique, rightUnique, apart⟩ := unique
        obtain ⟨ps, leftSpans, leftSize, psUnique, psBelow⟩ :=
          ih left leftBound (by omega) leftUnique
        obtain ⟨qs, rightSpans, rightSize, qsUnique, qsBelow⟩ :=
          ih right rightBound (by omega) rightUnique
        refine ⟨idx :: (ps ++ qs), ?_, ?_, ?_, ?_⟩
        · rw [branch]
          exact .branch here inner onLeft onRight leftSpans rightSpans
        · rw [branch, HuffmanTree.Tree.size, List.length_cons, List.length_append, leftSize, rightSize]
        · rw [List.nodup_cons, List.mem_append]
          refine ⟨?_, List.nodup_append.mpr ⟨psUnique, qsUnique, ?_⟩⟩
          · rintro (inLeft | inRight)
            · have below := (psBelow idx inLeft).1
              omega
            · have below := (qsBelow idx inRight).1
              omega
          · -- A shared node would bring the same label to both sides.
            rintro p inLeft q inRight rfl
            obtain ⟨x, member⟩ := leaves_inhabited (tree nodes p)
            exact apart x ((psBelow p inLeft).2 member) x ((qsBelow p inRight).2 member) rfl
        · intro p member
          rw [branch, HuffmanTree.Tree.leaves]
          rcases List.mem_cons.mp member with rfl | later
          · rw [branch, HuffmanTree.Tree.leaves]
            exact ⟨Nat.le_refl p, List.Subset.refl _⟩
          · rcases List.mem_append.mp later with inLeft | inRight
            · obtain ⟨below, labels⟩ := psBelow p inLeft
              exact ⟨by omega, fun x known => List.mem_append_left _ (labels known)⟩
            · obtain ⟨below, labels⟩ := qsBelow p inRight
              exact ⟨by omega, fun x known => List.mem_append_right _ (labels known)⟩

namespace HuffPool

theorem pop_nodes {pool after : HuffPool} {top : Nat} (popped : pool.pop = some (top, after)) :
    after.nodes = pool.nodes := by
  rw [pop] at popped
  split at popped
  · rw [Option.some.injEq, Prod.mk.injEq] at popped
    rw [← popped.2]
  · cases popped

theorem mergeOnce_nodes_length {pool merged : HuffPool} (step : pool.mergeOnce = some merged) :
    merged.nodes.length = pool.nodes.length + 1 := by
  rw [mergeOnce] at step
  split at step
  · cases step
  · rename_i a afterA popA
    split at step
    · cases step
    · rename_i b afterB popB
      rw [Option.some.injEq] at step
      simp [← step, add, pop_nodes popB, pop_nodes popA]

theorem mergeLoop_count (pool : HuffPool) :
    pool.mergeLoop.nodes.length + pool.mergeLoop.heap.length =
      pool.nodes.length + pool.heap.length := by
  induction size : pool.heap.length using Nat.strongRecOn generalizing pool with
  | ind size ih =>
      rw [mergeLoop]
      split
      · split
        · rename_i merged step
          have shrinks := mergeOnce_heap_length step
          have grows := mergeOnce_nodes_length step
          have rest := ih merged.heap.length (by omega) merged rfl
          omega
        · rw [size]
      · rw [size]

theorem build_count (scores : List UInt64) :
    (build scores).nodes.length + (build scores).heap.length = 72 := by
  obtain ⟨pool, built, _, size, content⟩ := leaves_spec scores 36
  have heapSize := content.length_eq
  simp only [HuffPool.content, List.length_map, List.length_range] at heapSize
  rw [build, mergeLoop_count, built, size, heapSize]

end HuffPool

/-! The codes. -/

theorem genCodeFor_tree {pool : HuffPool} (sound : Sound pool.nodes) {root : Nat}
    (bound : root < pool.nodes.length)
    (labels : (tree pool.nodes root).leaves.Perm (List.range 36)) {c : Nat} (small : c < 36) :
    ∃ bits, (tree pool.nodes root).code c = some bits ∧
      genCodeFor pool root c = bits.map fun b => chr b.toNat := by
  have size := labels.length_eq
  rw [List.length_range] at size
  have height := (tree pool.nodes root).height_lt
  obtain ⟨bits, found⟩ := HuffmanTree.Tree.exists_code (labels.symm.subset (List.mem_range.mpr small))
  have inhabited := HuffmanTree.Tree.code_ne_nil (by omega) found
  refine ⟨bits, found, ?_⟩
  rw [genCodeFor, dfs_spec sound c 128 [] bound (by omega), found, Option.map_some, Option.getD_some]
  cases bits with
  | nil => exact absurd rfl inhabited
  | cons b rest => simp

theorem bits_prefix {first second : List Bool}
    (less : (first.map fun b => chr b.toNat) <+: second.map fun b => chr b.toNat) :
    first <+: second := by
  have injective : Function.Injective fun b : Bool => chr b.toNat := by decide
  obtain ⟨rest, same⟩ := less
  obtain ⟨front, back, split, frontEq, _⟩ := List.map_eq_append_iff.mp same.symm
  rw [split, List.map_injective_iff.mpr injective frontEq]
  exact List.prefix_append _ _

theorem scores_light {scores : Vector UInt64 36} (small : ∀ s ∈ scores, s ≤ 996) :
    ((List.range 36).map (HuffPool.scoreOf scores.toList)).sum < 2 ^ 64 := by
  have bounded := List.sum_le_card_nsmul ((List.range 36).map (HuffPool.scoreOf scores.toList)) 996 (by
    intro x member
    obtain ⟨c, listed, rfl⟩ := List.mem_map.mp member
    have inside : c < scores.toList.length := by simpa using listed
    have score := small scores.toList[c] (Vector.mem_toList_iff.mp (List.getElem_mem inside))
    rw [HuffPool.scoreOf, List.getD_eq_getElem?_getD, List.getElem?_eq_getElem inside,
      Option.getD_some]
    exact UInt64.le_iff_toNat_le.mp score)
  rw [List.length_map, List.length_range, smul_eq_mul] at bounded
  omega

/-- One full tree over the 36 indices that uses all 71 nodes, and codes of least weighted length. -/
structure Optimal (pool : HuffPool) (score : Nat → Nat) (root : Nat) : Prop where
  heap : pool.heap = [root]
  nodes : pool.nodes.length = 71
  full : ∃ t places, Spans pool.nodes root t places ∧ places.Perm (List.range 71) ∧
    t.leaves.Perm (List.range 36)
  binary : ∀ c < 36, ∀ bit ∈ genCodeFor pool root (c : Nat), bit = '0' ∨ bit = '1'
  prefixFree : PrefixFree (fun c : Nat => genCodeFor pool root c) (List.range 36)
  least : ∀ words : Nat → List Bool, PrefixFree words (List.range 36) →
    ((List.range 36).map fun c => score c * (genCodeFor pool root c).length).sum ≤
      ((List.range 36).map fun c => score c * (words c).length).sum

theorem build_optimal (scores : Vector UInt64 36) (small : ∀ s ∈ scores, s ≤ 996) :
    ∃ root, Optimal (HuffPool.build scores.toList) (HuffPool.scoreOf scores.toList) root := by
  obtain ⟨root, only, bound, sound, combined⟩ := HuffPool.build_combine (scores_light small)
  have count := HuffPool.build_count scores.toList
  rw [only, List.length_singleton] at count
  have agenda := arranged_agenda (HuffPool.scoreOf scores.toList) 36
  have labels : (tree (HuffPool.build scores.toList).nodes root).leaves.Perm (List.range 36) := by
    refine (combine_leaves combined).trans ((agenda.perm.symm.flatMap_right _).trans ?_)
    rw [List.flatMap_map]
    simp [numbered, HuffmanTree.Tree.leaves]
  have coded {c : Nat} (known : c < 36) := genCodeFor_tree sound bound labels known
  refine ⟨root, only, by omega, ?_, ?_, ?_, ?_⟩
  · obtain ⟨places, spans, size, distinct, below⟩ :=
      exists_spans sound bound (labels.symm.nodup List.nodup_range)
    have nodes := HuffmanTree.Tree.size_eq (tree (HuffPool.build scores.toList).nodes root)
    rw [labels.length_eq, List.length_range] at nodes
    have inside : places ⊆ List.range 71 := by
      intro p member
      have under := (below p member).1
      exact List.mem_range.mpr (by omega)
    exact ⟨_, places, spans,
      (distinct.subperm inside).perm_of_length_le (by rw [List.length_range]; omega), labels⟩
  · intro c known bit member
    obtain ⟨bits, _, code⟩ := coded known
    rw [code] at member
    obtain ⟨b, _, rfl⟩ := List.mem_map.mp member
    cases b with
    | false => exact Or.inl rfl
    | true => exact Or.inr rfl
  · intro x xKnown y yKnown less
    obtain ⟨xBits, xFound, xCode⟩ := coded (List.mem_range.mp xKnown)
    obtain ⟨yBits, yFound, yCode⟩ := coded (List.mem_range.mp yKnown)
    have starts : genCodeFor (HuffPool.build scores.toList) root x <+:
        genCodeFor (HuffPool.build scores.toList) root y := less
    rw [xCode, yCode] at starts
    obtain ⟨rest, same⟩ := bits_prefix starts
    exact (HuffmanTree.Tree.code_append_inj xFound yFound
      (show xBits ++ rest = yBits ++ [] by rw [same, List.append_nil])).1
  · intro words free
    have best := combine_optimal combined agenda List.nodup_range (by decide) free
    rw [item_tree] at best
    refine (Nat.le_of_eq ?_).trans best
    congr 1
    apply List.map_congr_left
    intro c member
    obtain ⟨bits, found, code⟩ := coded (List.mem_range.mp member)
    rw [code, List.length_map, HuffmanTree.Tree.codeLength, found, Option.getD_some]

/-- Scores that all differ. -/
def ladder : Vector UInt64 36 := Vector.ofFn fun c => UInt64.ofNat (20 * c)

theorem build_optimal_ladder :
    ∃ root, Optimal (HuffPool.build ladder.toList) (HuffPool.scoreOf ladder.toList) root := by
  have steps : ∀ c : Fin 36, UInt64.ofNat (20 * c) ≤ 996 := by decide
  apply build_optimal
  intro s member
  obtain ⟨c, rfl⟩ := Vector.mem_ofFn.mp member
  exact steps c

end CudaOpenMp.Tlforce
