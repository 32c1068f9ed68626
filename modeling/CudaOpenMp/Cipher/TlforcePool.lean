import CudaOpenMp.Cipher.TlforceSeed
import CudaOpenMp.Library.HuffmanHeap

/-! The pool builds the code tree of the seed, and the search reads its codes. -/

namespace CudaOpenMp.Tlforce

open HuffmanTree

def cell (node : HNode) : Cell Nat :=
  if node.ch ≠ -1 then .leaf node.ch.toNat else .branch node.left.toNat node.right.toNat

def tree (nodes : List HNode) (idx : Nat) : HuffmanTree.Tree Nat := treeAt (fun k => cell (nodeAt nodes k)) idx

def item (nodes : List HNode) (idx : Nat) : Item Nat :=
  ⟨(nodeAt nodes idx).score.toNat, (nodeAt nodes idx).counter, tree nodes idx⟩

@[simp] theorem item_tree (nodes : List HNode) (idx : Nat) :
    (item nodes idx).tree = tree nodes idx := rfl

@[simp] theorem item_weight (nodes : List HNode) (idx : Nat) :
    (item nodes idx).weight = (nodeAt nodes idx).score.toNat := rfl

/-- A node that may take the given place: a labelled leaf or a branch to earlier places. -/
def Fits (place : Nat) (node : HNode) : Prop :=
  node.counter = place ∧ (0 ≤ node.ch ∨
    node.ch = -1 ∧ ∃ left right : Nat, node.left = left ∧ node.right = right ∧
      left < place ∧ right < place)

def Sound (nodes : List HNode) : Prop := ∀ idx < nodes.length, Fits idx (nodeAt nodes idx)

theorem nodeAt_append_left {nodes : List HNode} {idx : Nat} (node : HNode)
    (bound : idx < nodes.length) : nodeAt (nodes ++ [node]) idx = nodeAt nodes idx :=
  List.getD_append _ _ _ _ bound

theorem nodeAt_append_last (nodes : List HNode) (node : HNode) :
    nodeAt (nodes ++ [node]) nodes.length = node := by
  simp [nodeAt]

theorem item_append_left {nodes : List HNode} {idx : Nat} (node : HNode)
    (bound : idx < nodes.length) : item (nodes ++ [node]) idx = item nodes idx := by
  have same : tree (nodes ++ [node]) idx = tree nodes idx := treeAt_append cell _ node bound
  simp only [item, nodeAt_append_left node bound, same]

theorem Sound.append {nodes : List HNode} {node : HNode} (sound : Sound nodes)
    (fits : Fits nodes.length node) : Sound (nodes ++ [node]) :=
  forall_getD_append Fits sound fits

theorem item_leaf {nodes : List HNode} {idx : Nat} (labelled : 0 ≤ (nodeAt nodes idx).ch) :
    item nodes idx = ⟨(nodeAt nodes idx).score.toNat, (nodeAt nodes idx).counter,
      .leaf (nodeAt nodes idx).ch.toNat⟩ := by
  have found : cell (nodeAt nodes idx) = .leaf (nodeAt nodes idx).ch.toNat := by
    rw [cell, if_pos (by omega)]
  rw [item, tree, treeAt_leaf found]

theorem tree_branch {nodes : List HNode} {idx left right : Nat}
    (inner : (nodeAt nodes idx).ch = -1) (onLeft : (nodeAt nodes idx).left = left)
    (onRight : (nodeAt nodes idx).right = right) (leftBound : left < idx)
    (rightBound : right < idx) :
    tree nodes idx = .node (tree nodes left) (tree nodes right) := by
  have found : cell (nodeAt nodes idx) = .branch left right := by
    rw [cell, if_neg (by omega), onLeft, onRight]
    rfl
  rw [tree, treeAt_branch found leftBound rightBound]
  rfl

theorem less_iff (nodes : List HNode) (i p : Nat) :
    less nodes i p = true ↔ (item nodes i).Before (item nodes p) := by
  simp only [less, nodeLess, item, Item.Before, Bool.or_eq_true, Bool.and_eq_true,
    decide_eq_true_eq, beq_iff_eq, UInt64.lt_iff_toNat_lt, UInt64.toNat_inj]

theorem less_order (nodes : List HNode) : ListHeap.WeakOrder (less nodes) := by
  constructor
  · intro x y below
    by_contra notFalse
    exact ((less_iff nodes x y).mp below).asymm ((less_iff nodes y x).mp (by simpa using notFalse))
  · intro x y z first second
    have notFirst := mt (less_iff nodes x y).mpr (by simp [first])
    have notSecond := mt (less_iff nodes y z).mpr (by simp [second])
    by_contra notFalse
    have third := (less_iff nodes x z).mp (by simpa using notFalse)
    simp only [Item.Before] at notFirst notSecond third
    omega

namespace HuffPool

def content (pool : HuffPool) : List (Item Nat) := pool.heap.map (item pool.nodes)

structure Ready (pool : HuffPool) : Prop where
  sound : Sound pool.nodes
  inside : ∀ idx ∈ pool.heap, idx < pool.nodes.length
  ordered : ListHeap.Ordered (less pool.nodes) pool.heap

theorem Ready.queue {pool : HuffPool} (ready : pool.Ready) :
    Queue (less pool.nodes) (item pool.nodes) pool.heap where
  order := less_order pool.nodes
  ordered := ready.ordered
  agree x _ y _ := less_iff pool.nodes x y

theorem Ready.add {pool : HuffPool} {node : HNode} (ready : pool.Ready)
    (fits : Fits pool.nodes.length node) :
    (pool.add node).Ready ∧ (pool.add node).content.Perm
      (item (pool.nodes ++ [node]) pool.nodes.length :: pool.content) := by
  have moved := ListHeap.push_perm (less (pool.nodes ++ [node])) pool.heap pool.nodes.length
  have same : pool.heap.map (item (pool.nodes ++ [node])) = pool.content := by
    apply List.map_congr_left
    intro idx member
    exact item_append_left node (ready.inside idx member)
  constructor
  · refine ⟨ready.sound.append fits, ?_, ?_⟩
    · intro idx member
      rw [HuffPool.add, List.length_append, List.length_singleton]
      rcases List.mem_cons.mp (moved.subset member) with rfl | old
      · exact Nat.lt_succ_self _
      · exact Nat.lt_succ_of_lt (ready.inside idx old)
    · apply ListHeap.push_ordered (less_order _)
      apply ready.ordered.congr
      intro x xMember y yMember
      simp only [less, HuffPool.add, nodeAt_append_left node (ready.inside x xMember),
        nodeAt_append_left node (ready.inside y yMember)]
  · rw [← same, ← List.map_cons]
    exact moved.map _

theorem mergeOnce_spec {pool : HuffPool} (ready : pool.Ready) (several : 1 < pool.heap.length)
    (light : (pool.content.map fun x => x.weight).sum < 2 ^ 64) :
    ∃ merged, pool.mergeOnce = some merged ∧ merged.Ready ∧
      merged.nodes.length = pool.nodes.length + 1 ∧
      MergeStep pool.nodes.length pool.content merged.content := by
  obtain ⟨a, afterA, popA⟩ := ListHeap.exists_pop (less pool.nodes) (show 0 < pool.heap.length by omega)
  have sizeA := ListHeap.pop_length popA
  obtain ⟨b, afterB, popB⟩ := ListHeap.exists_pop (less pool.nodes) (show 0 < afterA.length by omega)
  obtain ⟨queueA, _, aMember⟩ := ready.queue.pop popA
  obtain ⟨queueB, _, bMember⟩ := queueA.pop popB
  have partsA := ListHeap.pop_perm popA
  have partsB := ListHeap.pop_perm popB
  have parts : (a :: b :: afterB).Perm pool.heap := (partsB.cons a).trans partsA
  have aBound := ready.inside a aMember
  have bBound := ready.inside b (partsA.subset (by simp [bMember]))
  -- The two scores are part of the total, so their sum does not wrap.
  have total : (nodeAt pool.nodes a).score.toNat + (nodeAt pool.nodes b).score.toNat < 2 ^ 64 := by
    rw [content, ← ((parts.map (item pool.nodes)).map fun x => x.weight).sum_eq] at light
    simp only [List.map_cons, List.sum_cons, item_weight] at light
    omega
  have score : ((nodeAt pool.nodes a).score + (nodeAt pool.nodes b).score).toNat =
      (nodeAt pool.nodes a).score.toNat + (nodeAt pool.nodes b).score.toNat := by
    rw [UInt64.toNat_add, Nat.mod_eq_of_lt total]
  let node : HNode := ⟨(nodeAt pool.nodes a).score + (nodeAt pool.nodes b).score,
    pool.nodes.length, -1, a, b⟩
  have fits : Fits pool.nodes.length node := ⟨rfl, Or.inr ⟨rfl, a, b, rfl, rfl, aBound, bBound⟩⟩
  let rest : HuffPool := ⟨pool.nodes, afterB⟩
  have restReady : rest.Ready := by
    refine ⟨ready.sound, ?_, queueB.ordered⟩
    intro idx member
    exact ready.inside idx (parts.subset (by simp [show idx ∈ afterB from member]))
  obtain ⟨nextReady, nextContent⟩ := restReady.add fits
  have joined : item (pool.nodes ++ [node]) pool.nodes.length =
      (item pool.nodes a).join pool.nodes.length (item pool.nodes b) := by
    have last := nodeAt_append_last pool.nodes node
    have shape := @tree_branch (pool.nodes ++ [node]) pool.nodes.length a b
      (by rw [last]) (by rw [last]) (by rw [last]) aBound bBound
    have aTree := congrArg Item.tree (item_append_left node aBound)
    have bTree := congrArg Item.tree (item_append_left node bBound)
    simp only [item_tree] at aTree bTree
    simp only [item, last, shape, aTree, bTree, Item.join, node, score]
  refine ⟨rest.add node, ?_, nextReady, by simp [rest, HuffPool.add], ?_⟩
  · simp only [mergeOnce, pop, popA, popB]
    rfl
  · rw [joined] at nextContent
    exact ready.queue.merge popA popB nextContent

/-! The whole loop and the search. -/

theorem mergeLoop_spec {pool : HuffPool} {items : List (Item Nat)} (ready : pool.Ready)
    (agenda : Agenda pool.nodes.length pool.content items) (inhabited : 0 < pool.heap.length)
    (light : (pool.content.map fun x => x.weight).sum < 2 ^ 64) :
    ∃ root, pool.mergeLoop.heap = [root] ∧ root < pool.mergeLoop.nodes.length ∧
      Sound pool.mergeLoop.nodes ∧
      combine pool.nodes.length items = some (item pool.mergeLoop.nodes root) := by
  induction size : pool.heap.length using Nat.strongRecOn generalizing pool items with
  | ind size ih =>
      rw [mergeLoop]
      by_cases several : 1 < pool.heap.length
      · rw [if_pos several]
        obtain ⟨merged, found, mergedReady, grown, step⟩ := mergeOnce_spec ready several light
        have shrinks := mergeOnce_heap_length found
        obtain ⟨remaining, mergedAgenda, _, same⟩ := agenda.step step
        rw [← grown] at mergedAgenda same
        split
        · rename_i other foundToo
          rw [found, Option.some.injEq] at foundToo
          subst other
          rw [same]
          exact ih merged.heap.length (by omega) mergedReady mergedAgenda (by omega)
            (by rwa [step.sum_eq]) rfl
        · rename_i stuck
          simp [found] at stuck
      · rw [if_neg several]
        obtain ⟨root, only⟩ := List.length_eq_one_iff.mp (show pool.heap.length = 1 by omega)
        have content : pool.content = [item pool.nodes root] := by rw [HuffPool.content, only]; rfl
        rw [content] at agenda
        exact ⟨root, only, ready.inside root (by simp [only]), ready.sound, agenda.finish⟩

def scoreOf (scores : List UInt64) (c : Nat) : Nat := (scores.getD c 0).toNat

theorem Ready.addLeaf {pool : HuffPool} (ready : pool.Ready) (scores : List UInt64) :
    (HuffPool.addLeaf scores pool pool.nodes.length).Ready ∧
      (HuffPool.addLeaf scores pool pool.nodes.length).content.Perm
        (numbered (scoreOf scores) pool.nodes.length :: pool.content) := by
  generalize nodeEq : HNode.mk (scores.getD pool.nodes.length 0) pool.nodes.length
    pool.nodes.length (-1) (-1) = node
  have label : node.ch = pool.nodes.length := by rw [← nodeEq]
  have counter : node.counter = pool.nodes.length := by rw [← nodeEq]
  have score : node.score.toNat = scoreOf scores pool.nodes.length := by rw [← nodeEq, scoreOf]
  obtain ⟨nextReady, nextContent⟩ := ready.add ⟨counter, Or.inl (by omega)⟩
  have last := nodeAt_append_last pool.nodes node
  have leaf : item (pool.nodes ++ [node]) pool.nodes.length =
      numbered (scoreOf scores) pool.nodes.length := by
    rw [item_leaf (by rw [last, label]; omega), last, score, counter, label]
    rfl
  rw [leaf] at nextContent
  rw [HuffPool.addLeaf, nodeEq]
  exact ⟨nextReady, nextContent⟩

theorem leaves_spec (scores : List UInt64) (count : Nat) :
    ∃ pool, (List.range count).foldl (addLeaf scores) ⟨[], []⟩ = pool ∧
      pool.Ready ∧ pool.nodes.length = count ∧
      pool.content.Perm ((List.range count).map (numbered (scoreOf scores))) := by
  induction count with
  | zero =>
      refine ⟨⟨[], []⟩, rfl, ⟨?_, ?_, ?_⟩, rfl, by simp [HuffPool.content]⟩
      · intro idx below
        simp at below
      · simp
      · intro i _
        rfl
  | succ count ih =>
      obtain ⟨pool, built, ready, size, content⟩ := ih
      obtain ⟨nextReady, nextContent⟩ := ready.addLeaf scores
      rw [size] at nextReady nextContent
      refine ⟨HuffPool.addLeaf scores pool count, ?_, nextReady, ?_, ?_⟩
      · rw [List.range_succ, List.foldl_append, built, List.foldl_cons, List.foldl_nil]
      · simp [HuffPool.addLeaf, HuffPool.add, size]
      · rw [List.range_succ, List.map_append]
        exact nextContent.trans ((content.cons _).trans (List.perm_append_singleton _ _).symm)

theorem build_combine {scores : List UInt64}
    (light : ((List.range 36).map (scoreOf scores)).sum < 2 ^ 64) :
    ∃ root, (build scores).heap = [root] ∧ root < (build scores).nodes.length ∧
      Sound (build scores).nodes ∧
      combine 36 (arranged (scoreOf scores) 36) = some (item (build scores).nodes root) := by
  obtain ⟨pool, built, ready, size, content⟩ := leaves_spec scores 36
  have leaves := arranged_agenda (scoreOf scores) 36
  have agenda : Agenda pool.nodes.length pool.content (arranged (scoreOf scores) 36) :=
    ⟨content.trans leaves.perm, leaves.sorted, by rw [size]; exact leaves.fresh⟩
  have inhabited : 0 < pool.heap.length := by
    have count := content.length_eq
    simp only [HuffPool.content, List.length_map, List.length_range] at count
    omega
  have weight : (pool.content.map fun x => x.weight).sum < 2 ^ 64 := by
    rw [(content.map fun x => x.weight).sum_eq, List.map_map]
    exact light
  obtain ⟨root, only, rootBound, sound, combined⟩ := mergeLoop_spec ready agenda inhabited weight
  rw [size] at combined
  rw [build, built]
  exact ⟨root, only, rootBound, sound, combined⟩

theorem build_spec (seed : Uint256) :
    ∃ root, (build (computeScores seed)).heap = [root] ∧
      root < (build (computeScores seed)).nodes.length ∧
      Sound (build (computeScores seed)).nodes ∧
      tree (build (computeScores seed)).nodes root = Scheme.codeTree seed.value := by
  have agree : ∀ c < 36, scoreOf (computeScores seed) c = Scheme.leafScore seed.value c :=
    fun c bound => computeScores_toNat seed bound
  have light : ((List.range 36).map (scoreOf (computeScores seed))).sum < 2 ^ 64 := by
    have sum := Scheme.leafScore_sum_le seed.value
    rw [List.map_congr_left fun c member => agree c (List.mem_range.mp member)]
    omega
  obtain ⟨root, only, rootBound, sound, combined⟩ := build_combine light
  obtain ⟨top, found, codeTree⟩ := Scheme.exists_root seed.value
  rw [arranged_congr agree, ← Scheme.sortedLeaves_eq, found, Option.some.injEq] at combined
  exact ⟨root, only, rootBound, sound, by rw [codeTree, combined, item_tree]⟩

end HuffPool

theorem chr_bit (b : Bool) : chr b.toNat = if b then '1' else '0' := by
  cases b <;> rfl

theorem dfs_spec {nodes : List HNode} (sound : Sound nodes) (target : Nat) (room : Nat)
    (path : List Char) {idx : Nat} (bound : idx < nodes.length)
    (deep : (tree nodes idx).height < room) :
    dfs nodes target room path idx = ((tree nodes idx).code target).map fun bits =>
      if path.isEmpty && bits.isEmpty then ['0']
      else path ++ bits.map fun b => chr b.toNat := by
  induction room generalizing path idx with
  | zero => omega
  | succ room ih =>
      obtain ⟨_, shape⟩ := sound idx bound
      rcases shape with labelled | ⟨inner, left, right, onLeft, onRight, leftBound, rightBound⟩
      · have leaf := congrArg Item.tree (item_leaf labelled)
        rw [item_tree] at leaf
        rw [dfs, if_pos (by omega), leaf, Tree.code]
        by_cases found : (nodeAt nodes idx).ch = target
        · have label : (nodeAt nodes idx).ch.toNat = target := by omega
          rw [if_pos found, if_pos label]
          cases path with
          | nil => rfl
          | cons c rest => simp
        · have label : (nodeAt nodes idx).ch.toNat ≠ target := by omega
          rw [if_neg found, if_neg label]
          rfl
      · have branch := tree_branch inner onLeft onRight leftBound rightBound
        rw [branch, HuffmanTree.Tree.height] at deep
        have goLeft := ih (path ++ ['0']) (show left < nodes.length by omega) (by omega)
        have goRight := ih (path ++ ['1']) (show right < nodes.length by omega) (by omega)
        simp only [dfs, inner, ne_eq, not_true_eq_false, if_false, onLeft, onRight,
          Int.toNat_natCast, goLeft, goRight, branch, Tree.code]
        cases found : (tree nodes left).code target with
        | some bits => simp [chr_bit]
        | none =>
            cases (tree nodes right).code target with
            | some bits => simp [chr_bit]
            | none => rfl

theorem genCodeFor_build (seed : Uint256) {c : Nat} (bound : c < 36) :
    ∃ root, (HuffPool.build (computeScores seed)).heap[0]? = some root ∧
      genCodeFor (HuffPool.build (computeScores seed)) root c =
        (Scheme.code seed.value c).map chr := by
  obtain ⟨root, only, rootBound, sound, shape⟩ := HuffPool.build_spec seed
  have height := Scheme.codeTree_height seed.value
  obtain ⟨bits, found⟩ := Scheme.exists_code seed.value bound
  have long := (Scheme.code_length_bounds seed.value bound).1
  refine ⟨root, by rw [only]; rfl, ?_⟩
  rw [genCodeFor, dfs_spec sound c 128 [] rootBound (by rw [shape]; omega), shape]
  simp only [Scheme.code, found, Option.getD_some, List.length_map] at long
  cases bits with
  | nil => simp at long
  | cons b rest => simp [Scheme.code, found]

end CudaOpenMp.Tlforce
