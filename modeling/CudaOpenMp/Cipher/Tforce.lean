import CudaOpenMp.Cipher.GpuSteps
import CudaOpenMp.Cipher.TforceCore
import CudaOpenMp.Hash.Sha256
import CudaOpenMp.Library.HuffmanOptimal
import CudaOpenMp.Library.HuffmanQueues

/-!
The code words of `encode_char_fast` in `tforce.cpp`. They are those of the tree that merging the
lightest characters gives, so no prefix-free code is cheaper for the weights of the seed.
-/

namespace CudaOpenMp.Tforce

open GpuMatches (append_eq read)
open HuffmanTree

def score (seed : UInt32) (c : Nat) : Nat := (c + 1) * seed.toNat % 997

def codeTree (seed : UInt32) : HuffmanTree.Tree Nat :=
  ((combine 36 (arranged (score seed) 36)).getD ⟨0, 0, .leaf 0⟩).tree

def code (seed : UInt32) (c : Nat) : List Bool := ((codeTree seed).code c).getD []

theorem exists_root (seed : UInt32) : ∃ root, combine 36 (arranged (score seed) 36) = some root ∧
    codeTree seed = root.tree := by
  have size := (arranged_perm (score seed) 36).length_eq
  obtain ⟨root, built⟩ := exists_combine 36 (arranged (score seed) 36) (by
    intro empty
    simp [empty] at size)
  exact ⟨root, built, by rw [codeTree, built, Option.getD_some]⟩

theorem codeTree_leaves (seed : UInt32) : (codeTree seed).leaves.Perm (List.range 36) := by
  obtain ⟨root, built, same⟩ := exists_root seed
  rw [same]
  refine (combine_leaves built).trans (((arranged_perm (score seed) 36).flatMap_right _).trans ?_)
  simp [List.flatMap_map, numbered, HuffmanTree.Tree.leaves]

theorem code_spec (seed : UInt32) {c : Nat} (bound : c < 36) :
    (codeTree seed).code c = some (code seed c) ∧ code seed c ≠ [] ∧ (code seed c).length ≤ 35 := by
  have leaves := codeTree_leaves seed
  have size := leaves.length_eq
  rw [List.length_range] at size
  obtain ⟨bits, found⟩ := HuffmanTree.Tree.exists_code (leaves.symm.subset (List.mem_range.mpr bound))
  have short := HuffmanTree.Tree.code_length_le_height found
  have low := (codeTree seed).height_lt
  rw [code, found, Option.getD_some]
  exact ⟨rfl, HuffmanTree.Tree.code_ne_nil (by omega) found, by omega⟩

def nodeAt (pool : List HNode) (idx : Nat) : HNode := pool.getD idx ⟨0, 0, 0, 0⟩

def cell (node : HNode) : Cell Nat :=
  if 0 ≤ node.charIdx then .leaf node.charIdx.toNat else .branch node.left.toNat node.right.toNat

def tree (pool : List HNode) (idx : Nat) : HuffmanTree.Tree Nat := treeAt (fun k => cell (nodeAt pool k)) idx

/-- Leaves are as old as their characters, merged nodes as their places. -/
def order (pool : List HNode) (idx : Nat) : Nat :=
  if 0 ≤ (nodeAt pool idx).charIdx then (nodeAt pool idx).charIdx.toNat else idx

def item (pool : List HNode) (idx : Nat) : Item Nat :=
  ⟨(nodeAt pool idx).weight.toNat, order pool idx, tree pool idx⟩

def Fits (place : Nat) (node : HNode) : Prop :=
  0 ≤ node.weight ∧ (0 ≤ node.charIdx ∨ node.charIdx = -1 ∧ ∃ left right : Nat,
    node.left = left ∧ node.right = right ∧ left < place ∧ right < place)

def Sound (pool : List HNode) : Prop := ∀ idx < pool.length, Fits idx (nodeAt pool idx)

theorem nodeAt_append_left {pool : List HNode} {idx : Nat} (node : HNode)
    (bound : idx < pool.length) : nodeAt (pool ++ [node]) idx = nodeAt pool idx :=
  List.getD_append _ _ _ _ bound

theorem nodeAt_append_last (pool : List HNode) (node : HNode) :
    nodeAt (pool ++ [node]) pool.length = node := by
  simp [nodeAt]

theorem getElem?_node {pool : List HNode} {idx : Nat} (bound : idx < pool.length) :
    pool[idx]? = some (nodeAt pool idx) := by
  simp [nodeAt, bound]

theorem item_append_left {pool : List HNode} {idx : Nat} (node : HNode)
    (bound : idx < pool.length) : item (pool ++ [node]) idx = item pool idx := by
  have same : tree (pool ++ [node]) idx = tree pool idx := treeAt_append cell _ node bound
  simp only [item, order, nodeAt_append_left node bound, same]

theorem Sound.append {pool : List HNode} {node : HNode} (sound : Sound pool)
    (fits : Fits pool.length node) : Sound (pool ++ [node]) :=
  forall_getD_append Fits sound fits

theorem tree_leaf {pool : List HNode} {idx : Nat} (labelled : 0 ≤ (nodeAt pool idx).charIdx) :
    tree pool idx = .leaf (nodeAt pool idx).charIdx.toNat :=
  treeAt_leaf (if_pos labelled)

theorem tree_branch {pool : List HNode} {idx left right : Nat}
    (inner : (nodeAt pool idx).charIdx = -1) (onLeft : (nodeAt pool idx).left = left)
    (onRight : (nodeAt pool idx).right = right) (leftBound : left < idx) (rightBound : right < idx) :
    tree pool idx = .node (tree pool left) (tree pool right) := by
  refine treeAt_branch ?_ leftBound rightBound
  rw [cell, if_neg (by omega), onLeft, onRight, Int.toNat_natCast, Int.toNat_natCast]

namespace Forest

def front (s : Forest) : List Nat := s.q1.drop s.q1h

def back (s : Forest) : List Nat := s.q2.drop s.q2h

def queues (s : Forest) : Queues Nat :=
  ⟨s.front.map (item s.pool), s.back.map (item s.pool)⟩

theorem waiting_eq (s : Forest) : s.waiting = s.queues.content.length := by
  simp [waiting, queues, Queues.content, front, back]

structure Ready (s : Forest) : Prop where
  sound : Sound s.pool
  ready : Queues.Ready s.pool.length s.queues
  stored : ∀ idx ∈ s.front ++ s.back, idx < s.pool.length
  inside : s.q2h ≤ s.q2.length
  size : s.pool.length = 36 + s.q2.length
  count : s.q2.length + s.waiting = 36

theorem drop_cons {entries rest : List Nat} {head idx : Nat} (shape : entries.drop head = idx :: rest) :
    head < entries.length ∧ entries[head]? = some idx ∧ entries.drop (head + 1) = rest := by
  have first := congrArg List.head? shape
  rw [List.head?_drop, List.head?_cons] at first
  refine ⟨(List.getElem?_eq_some_iff.mp first).1, first, ?_⟩
  rw [← List.tail_drop, shape, List.tail_cons]

theorem drop_nil {entries : List Nat} {head : Nat} (shape : entries.drop head = []) :
    ¬head < entries.length := by
  rw [List.drop_eq_nil_iff] at shape
  omega

/-- The state after a pop from either queue. -/
structure Pops (s : Forest) (idx : Nat) (t : Forest) : Prop where
  pool : t.pool = s.pool
  q2 : t.q2 = s.q2
  inside : t.q2h ≤ t.q2.length
  known : idx ∈ s.front ++ s.back
  kept : ∀ i ∈ t.front ++ t.back, i ∈ s.front ++ s.back

theorem popMin_eq {s : Forest} (sound : Sound s.pool)
    (stored : ∀ idx ∈ s.front ++ s.back, idx < s.pool.length) (inside : s.q2h ≤ s.q2.length)
    {x : Item Nat} {r : Queues Nat} (popped : s.queues.pop = some (x, r)) :
    ∃ idx t, s.popMin = some (idx, t) ∧ x = item s.pool idx ∧ t.queues = r ∧ Pops s idx t := by
  cases first : s.front with
  | nil =>
      cases second : s.back with
      | nil => simp [queues, Queues.pop, first, second] at popped
      | cons y merged =>
          obtain ⟨yBound, yRead, yRest⟩ := drop_cons second
          simp only [queues, Queues.pop, first, second, List.map_nil, List.map_cons,
            Option.some.injEq, Prod.mk.injEq] at popped
          obtain ⟨rfl, rfl⟩ := popped
          have noLeaf := drop_nil first
          refine ⟨y, { s with q2h := s.q2h + 1 }, ?_, rfl, ?_, rfl, rfl, yBound, by simp [first, second], ?_⟩
          · simp [popMin, noLeaf, yRead]
          · have same : s.q1.drop s.q1h = [] := first
            simp [queues, front, back, yRest, same]
          · have same : s.q1.drop s.q1h = [] := first
            intro i member
            simp only [front, back, yRest, same, List.nil_append] at member
            rw [second]
            exact List.mem_append_right _ (List.mem_cons_of_mem _ member)
  | cons x leaves =>
      obtain ⟨xBound, xRead, xRest⟩ := drop_cons first
      cases second : s.back with
      | nil =>
          simp only [queues, Queues.pop, first, second, List.map_nil, List.map_cons,
            Option.some.injEq, Prod.mk.injEq] at popped
          obtain ⟨rfl, rfl⟩ := popped
          have noMerged := drop_nil second
          have same : s.q2.drop s.q2h = [] := second
          refine ⟨x, { s with q1h := s.q1h + 1 }, ?_, rfl, ?_, rfl, rfl, inside, by simp [first], ?_⟩
          · rw [popMin, if_neg (by omega), if_pos xBound, xRead]
            rfl
          · simp [queues, front, back, xRest, same]
          · intro i member
            simp only [front, back, xRest, same, List.append_nil] at member
            rw [first]
            exact List.mem_append_left _ (List.mem_cons_of_mem _ member)
      | cons y merged =>
          obtain ⟨yBound, yRead, yRest⟩ := drop_cons second
          have xStored := stored x (by simp [first])
          have yStored := stored y (by simp [second])
          have xWeight := (sound x xStored).1
          have yWeight := (sound y yStored).1
          have compare : (item s.pool x).weight ≤ (item s.pool y).weight ↔
              (nodeAt s.pool x).weight ≤ (nodeAt s.pool y).weight := by
            simp only [item]
            omega
          have xShape : s.q1.drop s.q1h = x :: leaves := first
          have yShape : s.q2.drop s.q2h = y :: merged := second
          simp only [queues, Queues.pop, first, second, List.map_cons, compare] at popped
          by_cases lighter : (nodeAt s.pool x).weight ≤ (nodeAt s.pool y).weight
          · rw [if_pos lighter, Option.some.injEq, Prod.mk.injEq] at popped
            obtain ⟨rfl, rfl⟩ := popped
            refine ⟨x, { s with q1h := s.q1h + 1 }, ?_, rfl, ?_, rfl, rfl, inside, by simp [first], ?_⟩
            · rw [popMin, if_pos ⟨xBound, yBound⟩]
              simp only [xRead, yRead, getElem?_node xStored, getElem?_node yStored,
                Option.bind_eq_bind, Option.bind_some, Option.pure_def, if_pos lighter]
            · simp [queues, front, back, xRest, yShape]
            · intro i member
              simp only [front, back, xRest, yShape] at member
              rw [first, second]
              rcases List.mem_append.mp member with leaf | inner
              · exact List.mem_append_left _ (List.mem_cons_of_mem _ leaf)
              · exact List.mem_append_right _ inner
          · rw [if_neg lighter, Option.some.injEq, Prod.mk.injEq] at popped
            obtain ⟨rfl, rfl⟩ := popped
            refine ⟨y, { s with q2h := s.q2h + 1 }, ?_, rfl, ?_, rfl, rfl, yBound, by simp [second], ?_⟩
            · rw [popMin, if_pos ⟨xBound, yBound⟩]
              simp only [xRead, yRead, getElem?_node xStored, getElem?_node yStored,
                Option.bind_eq_bind, Option.bind_some, Option.pure_def, if_neg lighter]
            · simp [queues, front, back, yRest, xShape]
            · intro i member
              simp only [front, back, yRest, xShape] at member
              rw [first, second]
              rcases List.mem_append.mp member with leaf | inner
              · exact List.mem_append_left _ leaf
              · exact List.mem_append_right _ (List.mem_cons_of_mem _ inner)

theorem push_item {pool : List HNode} {a b : Nat} {weight : Int} (sound : Sound pool)
    (aBound : a < pool.length) (bBound : b < pool.length)
    (sum : weight = (nodeAt pool a).weight + (nodeAt pool b).weight) :
    item (pool ++ [⟨weight, -1, a, b⟩]) pool.length =
      (item pool a).join pool.length (item pool b) := by
  have last := nodeAt_append_last pool ⟨weight, -1, a, b⟩
  have shape := @tree_branch (pool ++ [⟨weight, -1, a, b⟩]) pool.length a b (by rw [last])
    (by rw [last]) (by rw [last]) aBound bBound
  have aTree := congrArg Item.tree (item_append_left ⟨weight, -1, a, b⟩ aBound)
  have bTree := congrArg Item.tree (item_append_left ⟨weight, -1, a, b⟩ bBound)
  have aWeight := (sound a aBound).1
  have bWeight := (sound b bBound).1
  simp only [item] at aTree bTree
  have total : weight.toNat = (nodeAt pool a).weight.toNat + (nodeAt pool b).weight.toNat := by
    rw [sum, Int.toNat_add aWeight bWeight]
  simp only [item, order, last, shape, aTree, bTree, Item.join, total]
  rfl

theorem mergeOnce_spec {s : Forest} (ready : s.Ready) (several : 1 < s.queues.content.length)
    (light : (s.queues.content.map fun x => x.weight).sum ≤ 2147483647) :
    ∃ merged, s.mergeOnce = some merged ∧ merged.Ready ∧
      merged.pool.length = s.pool.length + 1 ∧
      MergeStep s.pool.length s.queues.content merged.queues.content := by
  obtain ⟨x, _, y, _, popX, popY, parts, readyAfter, step⟩ := ready.ready.merge several
  obtain ⟨a, t, popA, rfl, rfl, popsA⟩ := popMin_eq ready.sound ready.stored ready.inside popX
  have storedA : ∀ i ∈ t.front ++ t.back, i < t.pool.length := by
    intro i member
    rw [popsA.pool]
    exact ready.stored i (popsA.kept i member)
  obtain ⟨b, u, popB, rfl, rfl, popsB⟩ :=
    popMin_eq (popsA.pool ▸ ready.sound) storedA popsA.inside popY
  have pool : u.pool = s.pool := popsB.pool.trans popsA.pool
  have aBound := ready.stored a popsA.known
  have bBound := ready.stored b (popsA.kept b popsB.known)
  have aWeight := (ready.sound a aBound).1
  have bWeight := (ready.sound b bBound).1
  rw [popsA.pool] at parts readyAfter step
  have sum : (nodeAt s.pool a).weight + (nodeAt s.pool b).weight ≤ 2147483647 := by
    rw [(parts.map fun x => x.weight).sum_eq] at light
    simp only [List.map_cons, List.sum_cons, item] at light
    omega
  have count := ready.count
  have size := ready.size
  have q2 : u.q2 = s.q2 := popsB.q2.trans popsA.q2
  rw [waiting_eq] at count
  have shorter := parts.length_eq
  simp only [List.length_cons] at shorter
  generalize weightEq : (nodeAt s.pool a).weight + (nodeAt s.pool b).weight = weight at sum
  have merged : s.mergeOnce = some { u with
      pool := s.pool ++ [⟨weight, -1, a, b⟩], q2 := s.q2 ++ [s.pool.length] } := by
    have inside : int32 weight = some weight := int32_of_range (by omega) sum
    simp only [mergeOnce, popA, popB, pool, q2, Option.bind_eq_bind, Option.bind_some,
      getElem?_node aBound, getElem?_node bBound, weightEq, inside, Option.pure_def,
      append_eq (show s.pool.length < 128 by omega), append_eq (show s.q2.length < 72 by omega)]
  have storedU : ∀ i ∈ u.front ++ u.back, i < s.pool.length := by
    intro i member
    exact ready.stored i (popsA.kept i (popsB.kept i member))
  have old (entries : List Nat) (known : ∀ i ∈ entries, i ∈ u.front ++ u.back) :
      entries.map (item (s.pool ++ [⟨weight, -1, a, b⟩])) = entries.map (item u.pool) := by
    rw [pool]
    exact List.map_congr_left fun i member => item_append_left _ (storedU i (known i member))
  have behind : (s.q2 ++ [s.pool.length]).drop u.q2h = u.back ++ [s.pool.length] := by
    rw [back, q2, List.drop_append_of_le_length (q2 ▸ popsB.inside)]
  have queues : ({ u with pool := s.pool ++ [⟨weight, -1, a, b⟩], q2 := s.q2 ++ [s.pool.length] } :
      Forest).queues = u.queues.push ((item s.pool a).join s.pool.length (item s.pool b)) := by
    simp only [Forest.queues, front, back, behind, Queues.push, List.map_append, List.map_singleton,
      push_item ready.sound aBound bBound weightEq.symm]
    have leaves := old u.front fun i => List.mem_append_left _
    have inner := old u.back fun i => List.mem_append_right _
    simp only [front, back] at leaves inner
    rw [leaves, inner]
  refine ⟨_, merged, ⟨?_, ?_, ?_, ?_, ?_, ?_⟩, by simp, by rwa [queues]⟩
  · have positive : 0 ≤ weight := by omega
    exact ready.sound.append ⟨positive, Or.inr ⟨rfl, a, b, rfl, rfl, aBound, bBound⟩⟩
  · rw [queues, List.length_append, List.length_singleton]
    exact readyAfter
  · intro i member
    simp only [front, back, behind] at member
    rw [List.length_append, List.length_singleton]
    rcases List.mem_append.mp member with leaf | inner
    · exact Nat.lt_succ_of_lt (storedU i (List.mem_append_left _ leaf))
    · rcases List.mem_append.mp inner with kept | new
      · exact Nat.lt_succ_of_lt (storedU i (List.mem_append_right _ kept))
      · rw [List.mem_singleton.mp new]
        exact Nat.lt_succ_self _
  · have inside := popsB.inside
    simp only [List.length_append, ← q2]
    omega
  · simp only [List.length_append, List.length_singleton]
    omega
  · rw [waiting_eq, queues]
    simp only [Queues.push, Queues.content, List.length_append, List.length_singleton] at shorter ⊢
    simp only [Queues.content, List.length_append] at count shorter
    omega

theorem Ready.root {s : Forest} (ready : s.Ready) (last : s.queues.content.length = 1) :
    ∃ idx, s.root = some idx ∧ s.queues.content = [item s.pool idx] ∧ idx < s.pool.length := by
  have only : (s.front ++ s.back).length = 1 := by
    simpa [queues, Queues.content] using last
  obtain ⟨idx, shape⟩ := List.length_eq_one_iff.mp only
  refine ⟨idx, ?_, ?_, ready.stored idx (by simp [shape])⟩
  · cases first : s.front with
    | nil =>
        rw [first, List.nil_append] at shape
        obtain ⟨_, read, _⟩ := drop_cons shape
        rw [Forest.root, if_neg (drop_nil first), read]
    | cons x leaves =>
        rw [first, List.cons_append, List.cons.injEq] at shape
        obtain ⟨bound, read, _⟩ := drop_cons first
        rw [Forest.root, if_pos bound, read, shape.1]
  · rw [queues, Queues.content, ← List.map_append, shape, List.map_singleton]

theorem mergeLoop_spec {s : Forest} {items : List (Item Nat)} (rounds : Nat) (ready : s.Ready)
    (agenda : Agenda s.pool.length s.queues.content items) (inhabited : 0 < s.queues.content.length)
    (enough : s.queues.content.length ≤ rounds + 1)
    (light : (s.queues.content.map fun x => x.weight).sum ≤ 2147483647) :
    ∃ t idx, s.mergeLoop rounds = some t ∧ t.root = some idx ∧ t.Ready ∧ idx < t.pool.length ∧
      combine s.pool.length items = some (item t.pool idx) := by
  induction rounds generalizing s items with
  | zero =>
      obtain ⟨idx, root, only, bound⟩ := ready.root (show s.queues.content.length = 1 by omega)
      rw [only] at agenda
      refine ⟨s, idx, ?_, root, ready, bound, agenda.finish⟩
      rw [mergeLoop, waiting_eq, if_neg (by omega)]
  | succ rounds ih =>
      rw [mergeLoop, waiting_eq]
      by_cases several : 1 < s.queues.content.length
      · rw [if_pos several]
        obtain ⟨merged, found, mergedReady, grown, step⟩ := mergeOnce_spec ready several light
        obtain ⟨remaining, mergedAgenda, shorter, same⟩ := agenda.step step
        have size := mergedAgenda.perm.length_eq
        have before := agenda.perm.length_eq
        rw [← grown] at mergedAgenda same
        rw [found, Option.bind_some, same]
        exact ih mergedReady mergedAgenda (by omega) (by omega) (by rwa [step.sum_eq])
      · obtain ⟨idx, root, only, bound⟩ := ready.root (show s.queues.content.length = 1 by omega)
        rw [only] at agenda
        rw [if_neg several]
        exact ⟨s, idx, rfl, root, ready, bound, agenda.finish⟩

end Forest

/-! The sorted leaves. -/

def ranked (seed : UInt32) : List Nat :=
  (List.range 36).mergeSort fun a b => score seed a ≤ score seed b

theorem ranked_perm (seed : UInt32) : (ranked seed).Perm (List.range 36) :=
  List.mergeSort_perm _ _

theorem items_eq (seed : UInt32) :
    items seed = (List.range 36).map fun c => ((score seed c : Int), c) := by
  apply List.map_congr_left
  intro c member
  have small : c < 36 := List.mem_range.mp member
  have bound := seed.toNat_lt
  have product : (c + 1) * seed.toNat < 36 * 2 ^ 32 :=
    Nat.lt_of_le_of_lt (Nat.mul_le_mul_right _ small) (by omega)
  have index : (UInt64.ofNat (c + 1)).toNat = c + 1 :=
    UInt64.toNat_ofNat_of_lt' (Nat.lt_of_le_of_lt small (by decide))
  have weight : (UInt64.ofNat (c + 1) * seed.toUInt64 % 997).toNat = score seed c := by
    rw [UInt64.toNat_mod, UInt64.toNat_mul, index, UInt32.toNat_toUInt64,
      Nat.mod_eq_of_lt (show (c + 1) * seed.toNat < 2 ^ 64 by omega)]
    rfl
  rw [weight]

theorem sorted_items (seed : UInt32) :
    (items seed).mergeSort (fun a b => !decide (b.1 < a.1)) =
      (ranked seed).map fun c => ((score seed c : Int), c) := by
  rw [items_eq, ranked, List.map_mergeSort]
  intro a _ b _
  have same : ¬(score seed b : Int) < score seed a ↔ score seed a ≤ score seed b := by omega
  rw [← decide_not]
  exact decide_eq_decide.mpr same.symm

theorem plant_eq {s : Forest} {leaves : List (Int × Nat)} (queued : s.q1 = List.range s.pool.length)
    (room : s.pool.length + leaves.length ≤ 36) :
    leaves.foldlM Forest.plantOne s = some { s with
      pool := s.pool ++ leaves.map fun leaf => ⟨leaf.1, leaf.2, -1, -1⟩
      q1 := List.range (s.pool.length + leaves.length) } := by
  induction leaves generalizing s with
  | nil =>
      simp only [List.foldlM_nil, Option.pure_def, List.map_nil, List.append_nil, List.length_nil,
        Nat.add_zero, ← queued]
  | cons leaf rest ih =>
      rw [List.length_cons] at room
      have size : s.q1.length = s.pool.length := by rw [queued, List.length_range]
      have planted : s.plantOne leaf = some { s with
          pool := s.pool ++ [⟨leaf.1, leaf.2, -1, -1⟩], q1 := s.q1 ++ [s.pool.length] } := by
        simp only [Forest.plantOne, append_eq (show s.pool.length < 128 by omega),
          append_eq (show s.q1.length < 36 by omega), Option.bind_eq_bind, Option.bind_some,
          Option.pure_def]
      have length : (s.pool ++ [(⟨leaf.1, leaf.2, -1, -1⟩ : HNode)]).length = s.pool.length + 1 := by
        simp
      rw [List.foldlM_cons, planted, Option.bind_eq_bind, Option.bind_some, ih ?_ ?_]
      · simp only [length, List.append_assoc, List.map_cons, List.singleton_append, List.length_cons]
        rw [Nat.add_assoc, Nat.add_comm 1]
      · rw [length, queued, List.range_succ]
      · rw [length]
        omega

def planted (seed : UInt32) : Forest where
  pool := (ranked seed).map fun c => ⟨(score seed c : Int), c, -1, -1⟩
  q1 := List.range 36
  q1h := 0
  q2 := []
  q2h := 0

theorem planted_queues (seed : UInt32) :
    (planted seed).queues = ⟨(ranked seed).map (numbered (score seed)), []⟩ := by
  have size : (ranked seed).length = 36 := by rw [(ranked_perm seed).length_eq, List.length_range]
  have leaves : (List.range 36).map (item (planted seed).pool) =
      (ranked seed).map (numbered (score seed)) := by
    apply List.ext_getElem
    · simp [size]
    · intro i _ bound
      have inside : i < (ranked seed).length := by simpa using bound
      have node : nodeAt (planted seed).pool i =
          ⟨(score seed (ranked seed)[i] : Int), (ranked seed)[i], -1, -1⟩ := by
        simp [nodeAt, planted, inside]
      have labelled : 0 ≤ (nodeAt (planted seed).pool i).charIdx := by
        rw [node]
        exact Int.natCast_nonneg _
      rw [List.getElem_map, List.getElem_map, List.getElem_range]
      simp only [item, order, tree_leaf labelled, if_pos labelled]
      simp only [node, numbered, Int.toNat_natCast]
  exact congrArg (Queues.mk · []) leaves

theorem planted_ready (seed : UInt32) : (planted seed).Ready := by
  have size : (planted seed).pool.length = 36 := by
    simp [planted, (ranked_perm seed).length_eq]
  have queues := planted_queues seed
  constructor
  case sound =>
    intro idx bound
    have inside : idx < (ranked seed).length := by simpa [planted] using bound
    have node : nodeAt (planted seed).pool idx =
        ⟨(score seed (ranked seed)[idx] : Int), (ranked seed)[idx], -1, -1⟩ := by
      simp [nodeAt, planted, inside]
    rw [node]
    exact ⟨Int.natCast_nonneg _, Or.inl (Int.natCast_nonneg _)⟩
  case ready =>
    rw [queues]
    apply Queues.Ready.start
    · have before := StableSort.mergeSort_before (score seed) 36
      exact List.pairwise_map.mpr before
    · intro x member
      obtain ⟨c, listed, rfl⟩ := List.mem_map.mp member
      rw [size]
      exact List.mem_range.mp ((ranked_perm seed).subset listed)
  case stored =>
    intro idx member
    rw [size]
    simpa [planted, Forest.front, Forest.back] using member
  case inside => exact Nat.le_refl 0
  case size => exact size
  case count =>
    rw [Forest.waiting_eq, queues]
    simp [planted, Queues.content, (ranked_perm seed).length_eq]

theorem score_sum_le (seed : UInt32) (cs : List Nat) :
    ((cs.map (numbered (score seed))).map fun x => x.weight).sum ≤ 996 * cs.length := by
  induction cs with
  | nil => exact Nat.le_refl _
  | cons c rest ih =>
      have one : score seed c < 997 := Nat.mod_lt _ (by decide)
      simp only [List.map_cons, List.sum_cons, List.length_cons, numbered] at ih ⊢
      omega

/-- The nodes hold the tree of the seed. -/
theorem build_spec (seed : UInt32) :
    ∃ forest root, (planted seed).mergeLoop 36 = some forest ∧ forest.root = some root ∧
      Sound forest.pool ∧ root < forest.pool.length ∧ tree forest.pool root = codeTree seed := by
  have ready := planted_ready seed
  have queues := planted_queues seed
  have content : (planted seed).queues.content = (ranked seed).map (numbered (score seed)) := by
    rw [queues, Queues.content, List.append_nil]
  have length := (ranked_perm seed).length_eq
  rw [List.length_range] at length
  have size := ready.size
  have agenda : Agenda (planted seed).pool.length (planted seed).queues.content
      (arranged (score seed) 36) := by
    have leaves := arranged_agenda (score seed) 36
    rw [content, size]
    exact ⟨((ranked_perm seed).map _).trans leaves.perm, leaves.sorted, leaves.fresh⟩
  have light := score_sum_le seed (ranked seed)
  rw [← content, length] at light
  have count : (planted seed).queues.content.length = 36 := by rw [content, List.length_map, length]
  obtain ⟨forest, root, merged, found, final, bound, combined⟩ :=
    Forest.mergeLoop_spec 36 ready agenda (by omega) (by omega) (by omega)
  obtain ⟨top, built, same⟩ := exists_root seed
  have start : (planted seed).pool.length = 36 := size
  rw [start, built, Option.some.injEq] at combined
  exact ⟨forest, root, merged, found, final.sound, bound, by rw [same, combined, item]⟩

/-- The prefix of a frame after the bits of a path. -/
def extend (pfx : UInt64) (bits : List Bool) : UInt64 :=
  bits.foldl (fun pfx b => if b then (pfx <<< 1) ||| 1 else pfx <<< 1) pfx

theorem pushFrame_eq {stk : List Frame} (room : stk.length < 128) (fr : Frame) :
    pushFrame stk fr = some (fr :: stk) := if_pos room

theorem read_node {pool : List HNode} {idx : Nat} (bound : idx < pool.length) :
    read pool (idx : Int) = some (nodeAt pool idx) := by
  rw [GpuMatches.read, if_pos (Int.natCast_nonneg _), Int.toNat_natCast, getElem?_node bound]

/-- The search visits a subtree and then returns to the frames below it. -/
theorem codeLoop_spec {pool : List HNode} (sound : Sound pool) (target : Nat) {idx : Nat}
    (bound : idx < pool.length) (pfx : UInt64) (len : Nat) (stk : List Frame) (pops : Nat)
    (room : stk.length + (tree pool idx).height < 128) :
    codeLoop pool target ((tree pool idx).size + pops) (⟨idx, pfx, len⟩ :: stk) =
      match (tree pool idx).code target with
      | some bits => some (if len + bits.length = 0 then (0, 1)
          else (extend pfx bits, len + bits.length))
      | none => codeLoop pool target pops stk := by
  induction idx using Nat.strongRecOn generalizing pfx len stk pops with
  | ind idx ih =>
      rcases sound idx bound with ⟨_, labelled | ⟨inner, left, right, onLeft, onRight, leftBound, rightBound⟩⟩
      · rw [tree_leaf labelled, HuffmanTree.Tree.size, Nat.add_comm, codeLoop, read_node bound,
          Option.bind_eq_bind, Option.bind_some, if_pos labelled, HuffmanTree.Tree.code]
        by_cases found : (nodeAt pool idx).charIdx = target
        · have label : (nodeAt pool idx).charIdx.toNat = target := by omega
          rw [if_pos found, if_pos label]
          rfl
        · have label : (nodeAt pool idx).charIdx.toNat ≠ target := by omega
          rw [if_neg found, if_neg label]
      · have branch := tree_branch inner onLeft onRight leftBound rightBound
        rw [branch, HuffmanTree.Tree.height] at room
        have goLeft := ih left leftBound (by omega) (pfx <<< 1) (len + 1)
          (⟨right, (pfx <<< 1) ||| 1, len + 1⟩ :: stk) ((tree pool right).size + pops)
          (by rw [List.length_cons]; omega)
        have goRight := ih right rightBound (by omega) ((pfx <<< 1) ||| 1) (len + 1) stk pops (by omega)
        have budget : (tree pool idx).size + pops =
            (tree pool left).size + ((tree pool right).size + pops) + 1 := by
          rw [branch, HuffmanTree.Tree.size]
          omega
        rw [budget, codeLoop, read_node bound, Option.bind_eq_bind, Option.bind_some,
          if_neg (by omega), pushFrame_eq (by omega), Option.bind_eq_bind, Option.bind_some,
          pushFrame_eq (by rw [List.length_cons]; omega), Option.bind_some, onLeft, onRight, goLeft, branch,
          HuffmanTree.Tree.code]
        cases (tree pool left).code target with
        | some bits => simp [extend, Nat.add_assoc, Nat.add_comm 1]
        | none =>
            rw [goRight]
            cases (tree pool right).code target with
            | some bits => simp [extend, Nat.add_assoc, Nat.add_comm 1]
            | none => rfl

theorem idxOf_chr : ∀ {c : Nat}, c < 36 → idxOf (chr c) = c := by
  decide

theorem encodeCharFast_eq (seed : UInt32) {c : Nat} (bound : c < 36) :
    encodeCharFast seed (chr c) = some (extend 0 (code seed c), (code seed c).length) := by
  obtain ⟨forest, root, merged, found, sound, inside, shape⟩ := build_spec seed
  have start := @plant_eq ⟨[], [], 0, [], 0⟩ ((ranked seed).map fun c => ((score seed c : Int), c)) rfl
    (by simp [(ranked_perm seed).length_eq])
  have leaves : (([] : List HNode) ++ ((ranked seed).map fun c => ((score seed c : Int), c)).map
      fun leaf => (⟨leaf.1, leaf.2, -1, -1⟩ : HNode)) = (planted seed).pool := by
    simp [planted]
  have count : ([] : List HNode).length + ((ranked seed).map fun c => ((score seed c : Int), c)).length =
      36 := by
    simp [(ranked_perm seed).length_eq]
  rw [leaves, count] at start
  have grown : ((ranked seed).map fun c => ((score seed c : Int), c)).foldlM Forest.plantOne
      ⟨[], [], 0, [], 0⟩ = some (planted seed) := start
  have size := HuffmanTree.Tree.size_eq (codeTree seed)
  rw [(codeTree_leaves seed).length_eq, List.length_range] at size
  have low := (codeTree seed).height_lt
  rw [(codeTree_leaves seed).length_eq, List.length_range] at low
  obtain ⟨coded, inhabited, _⟩ := code_spec seed bound
  have searched := codeLoop_spec sound c inside 0 0 [] 57 (by rw [shape, List.length_nil]; omega)
  rw [shape, coded, show (codeTree seed).size + 57 = 128 by omega] at searched
  have long : 0 < (code seed c).length := List.length_pos_iff.mpr inhabited
  simp only [Nat.zero_add, if_neg (show ¬(code seed c).length = 0 by omega)] at searched
  simp only [encodeCharFast, sorted_items, grown, merged, found, idxOf_chr bound, searched,
    Option.bind_eq_bind, Option.bind_some]

def spell (bits : List Bool) : Nat := bits.foldl (fun v b => 2 * v + b.toNat) 0

theorem spell_concat (bits : List Bool) (b : Bool) : spell (bits ++ [b]) = 2 * spell bits + b.toNat := by
  rw [spell, List.foldl_append]
  rfl

theorem spell_lt (bits : List Bool) : spell bits < 2 ^ bits.length := by
  induction bits using List.reverseRecOn with
  | nil => decide
  | append_singleton bits b ih =>
      have bit : b.toNat < 2 := Bool.toNat_lt b
      rw [spell_concat, List.length_append, List.length_singleton, Nat.pow_succ]
      omega

theorem extend_toNat {bits : List Bool} (short : bits.length ≤ 64) :
    (extend 0 bits).toNat = spell bits := by
  induction bits using List.reverseRecOn with
  | nil => rfl
  | append_singleton bits b ih =>
      rw [List.length_append, List.length_singleton] at short
      have before := ih (by omega)
      have small := Nat.lt_of_lt_of_le (spell_lt bits) (Nat.pow_le_pow_right (by decide)
        (show bits.length ≤ 63 by omega))
      have shifted : (extend 0 bits <<< 1).toNat = 2 * spell bits := by
        rw [UInt64.toNat_shiftLeft, before]
        change spell bits <<< 1 % 2 ^ 64 = _
        rw [Nat.shiftLeft_eq]
        omega
      have last : extend 0 (bits ++ [b]) =
          if b then (extend 0 bits <<< 1) ||| 1 else extend 0 bits <<< 1 := by
        rw [extend, List.foldl_append]
        rfl
      rw [last, spell_concat]
      cases b with
      | false =>
          rw [if_neg Bool.false_ne_true, shifted]
          rfl
      | true =>
          rw [if_pos rfl, UInt64.toNat_or, shifted]
          change 2 * spell bits ||| 1 = 2 * spell bits + 1
          exact (Nat.two_pow_add_eq_or_of_lt (show 1 < 2 ^ 1 by decide) (spell bits)).symm

theorem spell_bit {bits : List Bool} {b : Nat} (inside : b < bits.length) :
    spell bits / 2 ^ b % 2 = 1 ↔ bits[bits.length - 1 - b]? = some true := by
  induction bits using List.reverseRecOn generalizing b with
  | nil => cases inside
  | append_singleton bits last ih =>
      rw [List.length_append, List.length_singleton] at inside
      rw [spell_concat, List.length_append, List.length_singleton]
      cases b with
      | zero =>
          rw [Nat.pow_zero, Nat.div_one, Nat.add_sub_cancel, Nat.sub_zero, List.getElem?_concat_length]
          cases last with
          | false => simp
          | true => simp [Nat.add_mod]
      | succ b =>
          have place : bits.length + 1 - 1 - (b + 1) = bits.length - 1 - b := by omega
          have halved : (2 * spell bits + last.toNat) / 2 ^ (b + 1) = spell bits / 2 ^ b := by
            have bit : last.toNat < 2 := Bool.toNat_lt last
            rw [Nat.pow_succ', ← Nat.div_div_eq_div_mul]
            congr 1
            omega
          rw [halved, place, List.getElem?_append_left (by omega), ih (by omega)]

theorem extend_bit {bits : List Bool} (short : bits.length ≤ 64) {b : Nat} (inside : b < bits.length) :
    ((extend 0 bits >>> UInt64.ofNat b) &&& 1 ≠ 0) ↔ bits[bits.length - 1 - b]? = some true := by
  have shift : (UInt64.ofNat b).toNat = b :=
    UInt64.toNat_ofNat_of_lt' (Nat.lt_of_lt_of_le inside (Nat.le_trans short (by decide)))
  have value : ((extend 0 bits >>> UInt64.ofNat b) &&& 1).toNat = spell bits / 2 ^ b % 2 := by
    rw [UInt64.toNat_and, UInt64.toNat_shiftRight, shift, extend_toNat short,
      Nat.mod_eq_of_lt (show b < 64 by omega), Nat.shiftRight_eq_div_pow]
    exact Nat.and_one_is_mod _
  rw [← spell_bit inside, ← value, ne_eq, ← UInt64.toNat_inj]
  have bit : ((extend 0 bits >>> UInt64.ofNat b) &&& 1).toNat < 2 := by
    rw [value]
    exact Nat.mod_lt _ (by decide)
  have zero : (0 : UInt64).toNat = 0 := rfl
  omega

/-! The code. -/

theorem code_prefixFree (seed : UInt32) : PrefixFree (code seed) (List.range 36) := by
  intro c cListed d dListed begins
  obtain ⟨rest, split⟩ := begins
  have cCode := (code_spec seed (List.mem_range.mp cListed)).1
  have dCode := (code_spec seed (List.mem_range.mp dListed)).1
  have whole : code seed c ++ rest = code seed d ++ [] := by rw [split, List.append_nil]
  exact (HuffmanTree.Tree.code_append_inj cCode dCode whole).1

/-- `encode_char_fast` gives the words of a prefix-free code, and none is cheaper for the weights. -/
theorem encodeCharFast_optimal (seed : UInt32) : ∃ words : Nat → List Bool,
    (∀ c < 36, encodeCharFast seed (chr c) = some (extend 0 (words c), (words c).length) ∧
      words c ≠ [] ∧ (words c).length ≤ 35) ∧
    PrefixFree words (List.range 36) ∧
    ∀ others : Nat → List Bool, PrefixFree others (List.range 36) →
      ((List.range 36).map fun c => score seed c * (words c).length).sum ≤
        ((List.range 36).map fun c => score seed c * (others c).length).sum := by
  refine ⟨code seed, ?_, code_prefixFree seed, ?_⟩
  · intro c bound
    obtain ⟨_, inhabited, short⟩ := code_spec seed bound
    exact ⟨encodeCharFast_eq seed bound, inhabited, short⟩
  · intro others free
    obtain ⟨root, built, same⟩ := exists_root seed
    have optimal := combine_optimal built (arranged_agenda (score seed) 36) List.nodup_range
      (by decide) free
    rw [← same] at optimal
    exact optimal

end CudaOpenMp.Tforce
