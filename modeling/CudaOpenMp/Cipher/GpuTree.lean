import CudaOpenMp.Cipher.GpuCore
import CudaOpenMp.Cipher.Scheme
import CudaOpenMp.Library.HuffmanHeap

/-! The device builds the code tree of its seed, and its stack search reads the codes. -/

namespace CudaOpenMp.Gpu

open HuffmanTree

theorem value_lt (seed : Seed128) : seed.value < 2 ^ 128 := by
  have high := seed.hi.toNat_lt
  have low := seed.lo.toNat_lt
  simp only [Seed128.value]
  omega

theorem shiftOr_toNat (rem low : UInt64) (small : rem.toNat < 997) (lowBound : low.toNat < 2 ^ 32) :
    (((rem <<< 32) ||| low) % 997).toNat = (rem.toNat * 2 ^ 32 + low.toNat) % 997 := by
  have shifted : rem.toNat <<< 32 < 2 ^ 64 := by
    rw [Nat.shiftLeft_eq]
    omega
  rw [UInt64.toNat_mod, UInt64.toNat_or, UInt64.toNat_shiftLeft]
  change (rem.toNat <<< 32 % 2 ^ 64 ||| low.toNat) % 997 = _
  rw [Nat.mod_eq_of_lt shifted, ← Nat.shiftLeft_add_eq_or_of_lt lowBound, Nat.shiftLeft_eq]

theorem dComputeScore_eq (seed : Seed128) {c : Nat} (bound : c < 36) :
    dComputeScore c seed = Scheme.leafScore seed.value c := by
  have high : (seed.lo >>> 32).toNat = seed.lo.toNat / 2 ^ 32 := by
    rw [UInt64.toNat_shiftRight, Nat.shiftRight_eq_div_pow]
    rfl
  have low : (seed.lo &&& 0xFFFFFFFF).toNat = seed.lo.toNat % 2 ^ 32 := by
    rw [UInt64.toNat_and]
    exact Nat.and_two_pow_sub_one_eq_mod _ 32
  have word := seed.lo.toNat_lt
  have first : (seed.hi % 997).toNat = seed.hi.toNat % 997 := UInt64.toNat_mod _ _
  have second := shiftOr_toNat (seed.hi % 997) (seed.lo >>> 32)
    (by rw [first]; exact Nat.mod_lt _ (by decide)) (by rw [high]; omega)
  have third := shiftOr_toNat (((seed.hi % 997) <<< 32 ||| (seed.lo >>> 32)) % 997)
    (seed.lo &&& 0xFFFFFFFF) (by rw [second]; exact Nat.mod_lt _ (by decide)) (by rw [low]; omega)
  have residue (hi lo : Nat) :
      ((hi % 997 * 2 ^ 32 + lo / 2 ^ 32) % 997 * 2 ^ 32 + lo % 2 ^ 32) % 997 =
        (hi * 2 ^ 64 + lo) % 997 := by omega
  rw [second, first, high, low, residue, ← Seed128.value] at third
  have small : seed.value % 997 < 997 := Nat.mod_lt _ (by decide)
  have index : (UInt64.ofNat (c + 1)).toNat = c + 1 :=
    UInt64.toNat_ofNat_of_lt' (Nat.lt_of_le_of_lt bound (by decide))
  have product : (c + 1) * (seed.value % 997) ≤ 36 * 997 := Nat.mul_le_mul (by omega) (by omega)
  rw [dComputeScore, UInt64.toNat_mod, UInt64.toNat_add, UInt64.toNat_mul, index, third]
  change (((((c + 1) * (seed.value % 997) % 2 ^ 64 + 17) % 2 ^ 64 % 997 : Nat)) : Int) = _
  rw [Nat.mod_eq_of_lt (show (c + 1) * (seed.value % 997) < 2 ^ 64 by omega),
    Nat.mod_eq_of_lt (show (c + 1) * (seed.value % 997) + 17 < 2 ^ 64 by omega),
    ← Scheme.leafScore_mod, Scheme.leafScore]

/-! The tree. -/

def cell (node : HuffNode) : Cell Nat :=
  if node.ch ≠ -1 then .leaf node.ch.toNat else .branch node.left.toNat node.right.toNat

def tree (nodes : List HuffNode) (idx : Nat) : HuffmanTree.Tree Nat :=
  treeAt (fun k => cell (nodes.getD k ⟨0, 0, 0, 0, 0⟩)) idx

def item (nodes : List HuffNode) (e : HeapElem) : Item Nat :=
  ⟨e.score.toNat, e.order.toNat, tree nodes e.nodeIdx.toNat⟩

def Fits (place : Nat) (node : HuffNode) : Prop :=
  0 ≤ node.ch ∨ node.ch = -1 ∧ ∃ left right : Nat, node.left = left ∧ node.right = right ∧
    left < place ∧ right < place

def Sound (nodes : List HuffNode) : Prop := ∀ idx < nodes.length, Fits idx (nodeAt nodes idx)

theorem nodeAt_append_left {nodes : List HuffNode} {idx : Nat} (node : HuffNode)
    (bound : idx < nodes.length) : nodeAt (nodes ++ [node]) idx = nodeAt nodes idx :=
  List.getD_append _ _ _ _ bound

theorem nodeAt_append_last (nodes : List HuffNode) (node : HuffNode) :
    nodeAt (nodes ++ [node]) nodes.length = node := by
  simp [nodeAt]

theorem Sound.append {nodes : List HuffNode} {node : HuffNode} (sound : Sound nodes)
    (fits : Fits nodes.length node) : Sound (nodes ++ [node]) :=
  forall_getD_append Fits sound fits

theorem tree_leaf {nodes : List HuffNode} {idx : Nat} (labelled : 0 ≤ (nodeAt nodes idx).ch) :
    tree nodes idx = .leaf (nodeAt nodes idx).ch.toNat := by
  apply treeAt_leaf
  change cell (nodeAt nodes idx) = _
  rw [cell, if_pos (by omega)]

theorem tree_branch {nodes : List HuffNode} {idx left right : Nat}
    (inner : (nodeAt nodes idx).ch = -1) (onLeft : (nodeAt nodes idx).left = left)
    (onRight : (nodeAt nodes idx).right = right) (leftBound : left < idx)
    (rightBound : right < idx) :
    tree nodes idx = .node (tree nodes left) (tree nodes right) := by
  have found : cell (nodeAt nodes idx) = .branch left right := by
    rw [cell, if_neg (by omega), onLeft, onRight, Int.toNat_natCast, Int.toNat_natCast]
  exact treeAt_branch found leftBound rightBound

theorem elemLess_order : ListHeap.WeakOrder elemLess := by
  constructor
  · intro x y below
    simp only [elemLess, Bool.or_eq_true, Bool.and_eq_true, decide_eq_true_eq, beq_iff_eq,
      Bool.or_eq_false_iff, Bool.and_eq_false_iff, decide_eq_false_iff_not,
      beq_eq_false_iff_ne] at *
    omega
  · intro x y z first second
    simp only [elemLess, Bool.or_eq_false_iff, Bool.and_eq_false_iff, decide_eq_false_iff_not,
      beq_eq_false_iff_ne] at *
    omega

namespace Builder

def content (builder : Builder) : List (Item Nat) := builder.heap.map (item builder.nodes)

structure Linked (nodes : List HuffNode) (e : HeapElem) : Prop where
  bound : e.nodeIdx.toNat < nodes.length
  index : 0 ≤ e.nodeIdx
  order : 0 ≤ e.order
  nonneg : 0 ≤ e.score
  score : (nodeAt nodes e.nodeIdx.toNat).score = e.score

structure Ready (builder : Builder) : Prop where
  sound : Sound builder.nodes
  linked : ∀ e ∈ builder.heap, Linked builder.nodes e
  ordered : ListHeap.Ordered elemLess builder.heap

theorem Ready.queue {builder : Builder} (ready : builder.Ready) :
    Queue elemLess (item builder.nodes) builder.heap where
  order := elemLess_order
  ordered := ready.ordered
  agree := by
    intro x xMember y yMember
    have xLinked := ready.linked x xMember
    have yLinked := ready.linked y yMember
    have xScore := xLinked.nonneg
    have yScore := yLinked.nonneg
    have xOrder := xLinked.order
    have yOrder := yLinked.order
    simp only [elemLess, item, Item.Before, Bool.or_eq_true, Bool.and_eq_true, decide_eq_true_eq,
      beq_iff_eq]
    omega

theorem Ready.add {builder : Builder} (ready : builder.Ready) {score ch left right : Int}
    (nonneg : 0 ≤ score)
    (fits : Fits builder.nodes.length ⟨score, builder.nodes.length, ch, left, right⟩) :
    (builder.add score ch left right).Ready ∧ (builder.add score ch left right).content.Perm
      (item (builder.add score ch left right).nodes
        ⟨score, builder.nodes.length, builder.nodes.length⟩ :: builder.content) := by
  generalize nodeEq : HuffNode.mk score builder.nodes.length ch left right = node at fits
  have nodes : (builder.add score ch left right).nodes = builder.nodes ++ [node] := by
    rw [← nodeEq, Builder.add]
  have moved := ListHeap.push_perm elemLess builder.heap
    ⟨score, builder.nodes.length, builder.nodes.length⟩
  have same : builder.heap.map (item (builder.nodes ++ [node])) = builder.content := by
    apply List.map_congr_left
    intro e member
    have shape : tree (builder.nodes ++ [node]) e.nodeIdx.toNat = tree builder.nodes e.nodeIdx.toNat :=
      treeAt_append cell _ node (ready.linked e member).bound
    rw [item, item, shape]
  constructor
  · refine ⟨by rw [nodes]; exact ready.sound.append fits, ?_, ?_⟩
    · intro e member
      rw [nodes]
      rcases List.mem_cons.mp (moved.subset member) with rfl | old
      · refine ⟨?_, Int.natCast_nonneg _, Int.natCast_nonneg _, nonneg, ?_⟩
        · rw [Int.toNat_natCast, List.length_append, List.length_singleton]
          exact Nat.lt_succ_self _
        · rw [Int.toNat_natCast, nodeAt_append_last, ← nodeEq]
      · obtain ⟨bound, index, order, scoreBound, score⟩ := ready.linked e old
        refine ⟨?_, index, order, scoreBound, ?_⟩
        · rw [List.length_append]
          exact Nat.lt_add_right _ bound
        · rwa [nodeAt_append_left node bound]
    · exact ListHeap.push_ordered elemLess_order _ ready.ordered
  · rw [← same, content, nodes, ← List.map_cons]
    exact moved.map _

theorem mergeOnce_spec {builder : Builder} (ready : builder.Ready)
    (several : 1 < builder.heap.length)
    (light : (builder.content.map fun x => x.weight).sum < 2 ^ 31) :
    ∃ merged, builder.mergeOnce = some merged ∧ merged.Ready ∧
      merged.nodes.length = builder.nodes.length + 1 ∧
      MergeStep builder.nodes.length builder.content merged.content := by
  obtain ⟨a, afterA, popA⟩ := ListHeap.exists_pop elemLess (show 0 < builder.heap.length by omega)
  have sizeA := ListHeap.pop_length popA
  obtain ⟨b, afterB, popB⟩ := ListHeap.exists_pop elemLess (show 0 < afterA.length by omega)
  obtain ⟨queueA, _, aMember⟩ := ready.queue.pop popA
  obtain ⟨queueB, _, bMember⟩ := queueA.pop popB
  have partsA := ListHeap.pop_perm popA
  have parts : (a :: b :: afterB).Perm builder.heap := ((ListHeap.pop_perm popB).cons a).trans partsA
  obtain ⟨aBound, aIndex, _, aNonneg, aScore⟩ := ready.linked a aMember
  obtain ⟨bBound, bIndex, _, bNonneg, bScore⟩ := ready.linked b (partsA.subset (by simp [bMember]))
  have total : a.score.toNat + b.score.toNat < 2 ^ 31 := by
    rw [content, ← ((parts.map (item builder.nodes)).map fun x => x.weight).sum_eq] at light
    simp only [List.map_cons, List.sum_cons, item] at light
    omega
  have sum : int32 ((nodeAt builder.nodes a.nodeIdx.toNat).score +
      (nodeAt builder.nodes b.nodeIdx.toNat).score) = some (a.score + b.score) := by
    rw [aScore, bScore]
    exact int32_of_range (by omega) (by omega)
  let rest : Builder := ⟨builder.nodes, afterB⟩
  have restReady : rest.Ready := by
    refine ⟨ready.sound, ?_, queueB.ordered⟩
    intro e member
    exact ready.linked e (parts.subset (by simp [show e ∈ afterB from member]))
  have fits : Fits rest.nodes.length
      ⟨a.score + b.score, rest.nodes.length, -1, a.nodeIdx, b.nodeIdx⟩ :=
    Or.inr ⟨rfl, a.nodeIdx.toNat, b.nodeIdx.toNat, (Int.toNat_of_nonneg aIndex).symm,
      (Int.toNat_of_nonneg bIndex).symm, aBound, bBound⟩
  obtain ⟨nextReady, nextContent⟩ := restReady.add (show 0 ≤ a.score + b.score by omega) fits
  have joined : item (rest.add (a.score + b.score) (-1) a.nodeIdx b.nodeIdx).nodes
      ⟨a.score + b.score, rest.nodes.length, rest.nodes.length⟩ =
        (item builder.nodes a).join builder.nodes.length (item builder.nodes b) := by
    generalize nodeEq : HuffNode.mk (a.score + b.score) builder.nodes.length (-1)
      a.nodeIdx b.nodeIdx = node
    have nodes : (rest.add (a.score + b.score) (-1) a.nodeIdx b.nodeIdx).nodes =
        builder.nodes ++ [node] := by rw [← nodeEq, Builder.add]
    have last := nodeAt_append_last builder.nodes node
    have shape := @tree_branch (builder.nodes ++ [node]) builder.nodes.length a.nodeIdx.toNat
      b.nodeIdx.toNat (by rw [last, ← nodeEq])
      (by rw [last, ← nodeEq, Int.toNat_of_nonneg aIndex])
      (by rw [last, ← nodeEq, Int.toNat_of_nonneg bIndex]) aBound bBound
    have aTree : tree (builder.nodes ++ [node]) a.nodeIdx.toNat = tree builder.nodes a.nodeIdx.toNat :=
      treeAt_append cell _ node aBound
    have bTree : tree (builder.nodes ++ [node]) b.nodeIdx.toNat = tree builder.nodes b.nodeIdx.toNat :=
      treeAt_append cell _ node bBound
    have weight : (a.score + b.score).toNat = a.score.toNat + b.score.toNat := by omega
    have place : rest.nodes.length = builder.nodes.length := rfl
    simp only [nodes, item, place, Int.toNat_natCast, shape, aTree, bTree, Item.join, weight]
  refine ⟨rest.add (a.score + b.score) (-1) a.nodeIdx b.nodeIdx, ?_, nextReady, ?_, ?_⟩
  · simp only [mergeOnce, popA, popB, sum, Option.bind_eq_bind, Option.bind_some, Option.pure_def,
      rest]
  · simp [rest, Builder.add]
  · rw [joined] at nextContent
    exact ready.queue.merge popA popB nextContent

theorem mergeLoop_spec {builder : Builder} {items : List (Item Nat)} (rounds : Nat)
    (ready : builder.Ready) (agenda : Agenda builder.nodes.length builder.content items)
    (inhabited : 0 < builder.heap.length) (enough : builder.heap.length ≤ rounds + 1)
    (light : (builder.content.map fun x => x.weight).sum < 2 ^ 31) :
    ∃ merged root, builder.mergeLoop rounds = some merged ∧ merged.heap = [root] ∧ merged.Ready ∧
      combine builder.nodes.length items = some (item merged.nodes root) := by
  have finished (last : builder.heap.length = 1) : ∃ root, builder.heap = [root] ∧
      combine builder.nodes.length items = some (item builder.nodes root) := by
    obtain ⟨root, only⟩ := List.length_eq_one_iff.mp last
    rw [content, only] at agenda
    exact ⟨root, only, agenda.finish⟩
  induction rounds generalizing builder items with
  | zero =>
      obtain ⟨root, only, combined⟩ := finished (by omega)
      exact ⟨builder, root, by rw [mergeLoop, if_neg (by omega)], only, ready, combined⟩
  | succ rounds ih =>
      rw [mergeLoop]
      by_cases several : 1 < builder.heap.length
      · rw [if_pos several]
        obtain ⟨merged, found, mergedReady, grown, step⟩ := mergeOnce_spec ready several light
        obtain ⟨remaining, mergedAgenda, shorter, same⟩ := agenda.step step
        have size := mergedAgenda.perm.length_eq
        have before := agenda.perm.length_eq
        rw [content, List.length_map] at size before
        rw [← grown] at mergedAgenda same
        rw [found, Option.bind_some, same]
        refine ih mergedReady mergedAgenda (by omega) (by omega) (by rwa [step.sum_eq]) ?_
        intro last
        obtain ⟨root, only⟩ := List.length_eq_one_iff.mp last
        rw [content, only] at mergedAgenda
        exact ⟨root, only, mergedAgenda.finish⟩
      · obtain ⟨root, only, combined⟩ := finished (by omega)
        exact ⟨builder, root, by rw [if_neg several], only, ready, combined⟩

theorem Ready.addLeaf {builder : Builder} (ready : builder.Ready) (seed : Seed128)
    (bound : builder.nodes.length < 36) :
    (builder.addLeaf seed builder.nodes.length).Ready ∧
      (builder.addLeaf seed builder.nodes.length).content.Perm
        (Scheme.leafItem seed.value builder.nodes.length :: builder.content) := by
  have score := dComputeScore_eq seed bound
  rw [Builder.addLeaf]
  generalize dComputeScore builder.nodes.length seed = computed at score ⊢
  have fits : Fits builder.nodes.length
      ⟨computed, builder.nodes.length, builder.nodes.length, -1, -1⟩ :=
    Or.inl (Int.natCast_nonneg _)
  obtain ⟨nextReady, nextContent⟩ := ready.add (show 0 ≤ computed by omega) fits
  refine ⟨nextReady, ?_⟩
  generalize nodeEq : HuffNode.mk computed builder.nodes.length builder.nodes.length (-1) (-1) = node
  have nodes : (builder.add computed builder.nodes.length (-1) (-1)).nodes =
      builder.nodes ++ [node] := by rw [← nodeEq, Builder.add]
  have last := nodeAt_append_last builder.nodes node
  have label : node.ch = builder.nodes.length := by rw [← nodeEq]
  have shape : tree (builder.nodes ++ [node]) builder.nodes.length = .leaf builder.nodes.length := by
    rw [tree_leaf (by rw [last, label]; omega), last, label, Int.toNat_natCast]
  have weight : computed.toNat = Scheme.leafScore seed.value builder.nodes.length := by omega
  rw [nodes, item] at nextContent
  simp only [Int.toNat_natCast, shape, weight] at nextContent
  exact nextContent

theorem leaves_spec (seed : Seed128) {count : Nat} (bound : count ≤ 36) :
    ∃ builder, (List.range count).foldl (Builder.addLeaf seed) ⟨[], []⟩ = builder ∧
      builder.Ready ∧ builder.nodes.length = count ∧
      builder.content.Perm ((List.range count).map (Scheme.leafItem seed.value)) := by
  induction count with
  | zero =>
      refine ⟨⟨[], []⟩, rfl, ⟨?_, ?_, ?_⟩, rfl, by simp [content]⟩
      · intro idx below
        simp at below
      · simp
      · intro i _
        rfl
  | succ count ih =>
      obtain ⟨builder, built, ready, size, content⟩ := ih (by omega)
      obtain ⟨nextReady, nextContent⟩ := ready.addLeaf seed (by omega)
      rw [size] at nextReady nextContent
      refine ⟨Builder.addLeaf seed builder count, ?_, nextReady, ?_, ?_⟩
      · rw [List.range_succ, List.foldl_append, built, List.foldl_cons, List.foldl_nil]
      · simp [Builder.addLeaf, Builder.add, size]
      · rw [List.range_succ, List.map_append]
        exact nextContent.trans ((content.cons _).trans (List.perm_append_singleton _ _).symm)

end Builder

theorem dBuildHuffman_spec (seed : Seed128) :
    ∃ nodes root, dBuildHuffman seed = some (nodes, root) ∧ Sound nodes ∧ root < nodes.length ∧
      tree nodes root = Scheme.codeTree seed.value := by
  obtain ⟨builder, built, ready, size, content⟩ := Builder.leaves_spec seed (Nat.le_refl 36)
  have leaves := Scheme.leaves_agenda seed.value
  have agenda : Agenda builder.nodes.length builder.content (Scheme.sortedLeaves seed.value 36) :=
    ⟨content.trans leaves.perm, leaves.sorted, by rw [size]; exact leaves.fresh⟩
  have count := content.length_eq
  simp only [Builder.content, List.length_map, List.length_range] at count
  have light : (builder.content.map fun x => x.weight).sum < 2 ^ 31 := by
    rw [(content.map fun x => x.weight).sum_eq, Scheme.leaves_weight]
    exact Nat.lt_of_le_of_lt (Scheme.leafScore_sum_le seed.value) (by decide)
  obtain ⟨merged, root, found, only, mergedReady, combined⟩ :=
    Builder.mergeLoop_spec 36 ready agenda (by omega) (by omega) light
  obtain ⟨top, foundToo, codeTree⟩ := Scheme.exists_root seed.value
  rw [size, foundToo, Option.some.injEq] at combined
  obtain ⟨first, others, popped⟩ :=
    ListHeap.exists_pop elemLess (show 0 < merged.heap.length by simp [only])
  have head := ListHeap.pop_head popped
  rw [only] at head
  simp only [List.getElem?_cons_zero, Option.some.injEq] at head
  have bound := (mergedReady.linked root (by simp [only])).bound
  refine ⟨merged.nodes, root.nodeIdx.toNat, ?_, mergedReady.sound, bound, ?_⟩
  · simp only [dBuildHuffman, built, found, popped, ← head, Option.bind_eq_bind, Option.bind_some,
      Option.pure_def]
  · rw [codeTree, combined, item]

/-! The search with a stack. -/

/-- What a loop over a stack does with the node of the top frame. -/
structure Searches {Φ α : Type} (nodes : List HuffNode) (target : Nat) (frame : Nat → List Nat → Φ)
    (emit : List Nat → α) (loop : Nat → List Φ → α) : Prop where
  leaf : ∀ idx < nodes.length, (nodeAt nodes idx).ch ≠ -1 → ∀ bits stk pops, bits.length ≤ 23 →
    loop (pops + 1) (frame idx bits :: stk) =
      if (nodeAt nodes idx).ch = target then emit (if bits.isEmpty then [0] else bits)
      else loop pops stk
  inner : ∀ idx < nodes.length, (nodeAt nodes idx).ch = -1 → ∀ left right : Nat,
    (nodeAt nodes idx).left = left → (nodeAt nodes idx).right = right →
    ∀ bits stk pops, bits.length < 23 → stk.length + 1 < 128 →
      loop (pops + 1) (frame idx bits :: stk) =
        loop pops (frame left (bits ++ [0]) :: frame right (bits ++ [1]) :: stk)

/-- The search visits a subtree and then returns to the frames below it. -/
theorem Searches.spec {Φ α : Type} {nodes : List HuffNode} {target : Nat}
    {frame : Nat → List Nat → Φ} {emit : List Nat → α} {loop : Nat → List Φ → α}
    (searches : Searches nodes target frame emit loop) (sound : Sound nodes) {idx : Nat}
    (bound : idx < nodes.length) (bits : List Nat) (stk : List Φ) (pops : Nat)
    (deep : bits.length + (tree nodes idx).height ≤ 23)
    (room : stk.length + (tree nodes idx).height < 128) :
    loop ((tree nodes idx).size + pops) (frame idx bits :: stk) =
      match (tree nodes idx).code target with
      | some more => emit (if bits.isEmpty && more.isEmpty then [0] else bits ++ more.map Bool.toNat)
      | none => loop pops stk := by
  induction idx using Nat.strongRecOn generalizing bits stk pops with
  | ind idx ih =>
      rcases sound idx bound with labelled | ⟨inner, left, right, onLeft, onRight, leftBound, rightBound⟩
      · have outer : (nodeAt nodes idx).ch ≠ -1 := by omega
        rw [tree_leaf labelled, Tree.size, Nat.add_comm,
          searches.leaf idx bound outer bits stk pops (by omega), Tree.code]
        by_cases found : (nodeAt nodes idx).ch = target
        · have label : (nodeAt nodes idx).ch.toNat = target := by omega
          rw [if_pos found, if_pos label]
          cases bits with
          | nil => rfl
          | cons b rest => simp
        · have label : (nodeAt nodes idx).ch.toNat ≠ target := by omega
          rw [if_neg found, if_neg label]
      · have branch := tree_branch inner onLeft onRight leftBound rightBound
        rw [branch, HuffmanTree.Tree.height] at deep room
        have goLeft := ih left leftBound (by omega) (bits ++ [0]) (frame right (bits ++ [1]) :: stk)
          ((tree nodes right).size + pops) (by simp only [List.length_append, List.length_singleton]; omega)
          (by simp only [List.length_cons]; omega)
        have goRight := ih right rightBound (by omega) (bits ++ [1]) stk pops
          (by simp only [List.length_append, List.length_singleton]; omega) (by omega)
        have budget : (tree nodes idx).size + pops =
            (tree nodes left).size + ((tree nodes right).size + pops) + 1 := by
          rw [branch, Tree.size]
          omega
        rw [budget, searches.inner idx bound inner left right onLeft onRight bits stk _ (by omega)
          (by omega), goLeft, branch, Tree.code]
        cases (tree nodes left).code target with
        | some more => simp
        | none =>
            rw [goRight]
            cases (tree nodes right).code target with
            | some more => simp
            | none => rfl

theorem pushChild_eq {stk : List Frame} {fr : Frame} (child : Nat) (bit : Nat)
    (deep : fr.bits.length < 23) (room : stk.length < 128) :
    pushChild stk fr child bit = some (⟨child, fr.bits ++ [bit]⟩ :: stk) := by
  rw [pushChild, if_pos ⟨by omega, deep⟩, if_pos room, Int.toNat_natCast]

theorem codeLoop_searches (nodes : List HuffNode) (target : Nat) :
    Searches nodes target Frame.mk some (codeLoop nodes target) where
  leaf := by
    intro idx _ outer bits stk pops _
    rw [codeLoop, if_pos outer]
  inner := by
    intro idx _ inner left right onLeft onRight bits stk pops deep room
    rw [codeLoop, if_neg (not_not.mpr inner), onRight, onLeft, pushChild_eq right 1 deep (by omega),
      Option.bind_eq_bind, Option.bind_some,
      pushChild_eq left 0 deep (by simpa using room), Option.bind_some]

theorem dGetCode_eq (seed : Seed128) {c : Nat} (bound : c < 36) :
    ((dBuildHuffman seed).bind fun (nodes, root) => dGetCode nodes root c) =
      some (Scheme.code seed.value c) := by
  obtain ⟨nodes, root, built, sound, inside, shape⟩ := dBuildHuffman_spec seed
  have height := Scheme.codeTree_height seed.value
  have size := Tree.size_eq (Scheme.codeTree seed.value)
  rw [(Scheme.codeTree_leaves seed.value).length_eq, List.length_range] at size
  obtain ⟨bits, found⟩ := Scheme.exists_code seed.value bound
  have long := (Scheme.code_length_bounds seed.value bound).1
  have searched := (codeLoop_searches nodes c).spec sound inside [] [] 57
    (by rw [shape]; simp only [List.length_nil]; omega)
    (by rw [shape]; simp only [List.length_nil]; omega)
  rw [shape, found, show (Scheme.codeTree seed.value).size + 57 = 128 by omega] at searched
  rw [built, Option.bind_some]
  change codeLoop nodes c 128 [⟨root, []⟩] = _
  rw [searched]
  simp only [Scheme.code, found, Option.getD_some, List.length_map] at long
  cases bits with
  | nil => simp at long
  | cons b rest => simp [Scheme.code, found]

end CudaOpenMp.Gpu
