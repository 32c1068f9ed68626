import CudaOpenMp.Cipher.Scheme
import CudaOpenMp.Cipher.TreeforceCore

/-! The two queues build the code tree of the seed, and the walk reads its codes. -/

namespace CudaOpenMp.Treeforce

open HuffmanTree

def firstLabel : List Char → Nat
  | [] => 36
  | c :: _ => label c

def cell (node : Node) : Cell Nat :=
  if node.left = -1 then .leaf (firstLabel node.chars)
  else .branch node.left.toNat node.right.toNat

def tree (nodes : List Node) (idx : Nat) : HuffmanTree.Tree Nat := treeAt (fun k => cell (nodeIn nodes k)) idx

/-- Leaves are created in alphabet order before the sort, merged nodes in storage order. -/
def order (nodes : List Node) (idx : Nat) : Nat :=
  if (nodeIn nodes idx).left = -1 then firstLabel (nodeIn nodes idx).chars else idx

def item (nodes : List Node) (entry : UInt32 × Nat) : Item Nat :=
  ⟨entry.1.toNat, order nodes entry.2, tree nodes entry.2⟩

def Fits (nodes : List Node) (place : Nat) (node : Node) : Prop :=
  (node.left = -1 ∧ place < 36 ∧ ∃ c < 36, node.chars = [chr c]) ∨
    (36 ≤ place ∧ ∃ left right : Nat, node.left = left ∧ node.right = right ∧
      left < place ∧ right < place ∧
      node.chars = (nodeIn nodes left).chars ++ (nodeIn nodes right).chars)

def Sound (nodes : List Node) : Prop := ∀ idx < nodes.length, Fits nodes idx (nodeIn nodes idx)

theorem nodeIn_append_left {nodes : List Node} {idx : Nat} (node : Node)
    (bound : idx < nodes.length) : nodeIn (nodes ++ [node]) idx = nodeIn nodes idx :=
  List.getD_append _ _ _ _ bound

theorem nodeIn_append_last (nodes : List Node) (node : Node) :
    nodeIn (nodes ++ [node]) nodes.length = node := by
  simp [nodeIn]

theorem tree_append_left {nodes : List Node} {idx : Nat} (node : Node)
    (bound : idx < nodes.length) : tree (nodes ++ [node]) idx = tree nodes idx :=
  treeAt_append cell _ node bound

theorem item_append_left {nodes : List Node} {entry : UInt32 × Nat} (node : Node)
    (bound : entry.2 < nodes.length) : item (nodes ++ [node]) entry = item nodes entry := by
  simp only [item, order, nodeIn_append_left node bound, tree_append_left node bound]

theorem Fits.append {nodes : List Node} {place : Nat} {node : Node} (fits : Fits nodes place node)
    (bound : place ≤ nodes.length) (other : Node) : Fits (nodes ++ [other]) place node := by
  rcases fits with leaf | ⟨late, left, right, onLeft, onRight, leftBound, rightBound, chars⟩
  · exact Or.inl leaf
  · refine Or.inr ⟨late, left, right, onLeft, onRight, leftBound, rightBound, ?_⟩
    rw [nodeIn_append_left other (by omega), nodeIn_append_left other (by omega), chars]

theorem Sound.append {nodes : List Node} {node : Node} (sound : Sound nodes)
    (fits : Fits nodes nodes.length node) : Sound (nodes ++ [node]) :=
  forall_getD_append (Fits (nodes ++ [node]))
    (fun idx old => (sound idx old).append (Nat.le_of_lt old) node)
    (fits.append (Nat.le_refl _) node)

theorem tree_leaf {nodes : List Node} {idx c : Nat} (outer : (nodeIn nodes idx).left = -1)
    (chars : (nodeIn nodes idx).chars = [chr c]) (bound : c < 36) :
    tree nodes idx = .leaf c := by
  have found : cell (nodeIn nodes idx) = .leaf c := by
    rw [cell, if_pos outer, chars, firstLabel, label_chr bound]
  rw [tree, treeAt_leaf found]

theorem tree_branch {nodes : List Node} {idx left right : Nat}
    (onLeft : (nodeIn nodes idx).left = left) (onRight : (nodeIn nodes idx).right = right)
    (leftBound : left < idx) (rightBound : right < idx) :
    tree nodes idx = .node (tree nodes left) (tree nodes right) := by
  have found : cell (nodeIn nodes idx) = .branch left right := by
    rw [cell, if_neg (by omega), onLeft, onRight, Int.toNat_natCast, Int.toNat_natCast]
  rw [tree, treeAt_branch found leftBound rightBound, tree, tree]

theorem order_lt {nodes : List Node} (sound : Sound nodes) {idx : Nat} (bound : idx < nodes.length)
    (early : idx < 36) : order nodes idx < 36 := by
  rcases sound idx bound with ⟨outer, _, c, small, chars⟩ | ⟨late, _⟩
  · rw [order, if_pos outer, chars, firstLabel, label_chr small]
    exact small
  · omega

theorem order_eq {nodes : List Node} (sound : Sound nodes) {idx : Nat} (bound : idx < nodes.length)
    (late : 36 ≤ idx) : order nodes idx = idx := by
  rcases sound idx bound with ⟨_, early, _⟩ | ⟨_, left, right, onLeft, _⟩
  · omega
  · rw [order, if_neg (by omega)]

theorem chars_eq {nodes : List Node} (sound : Sound nodes) {idx : Nat}
    (bound : idx < nodes.length) :
    (nodeIn nodes idx).chars = (tree nodes idx).leaves.map chr := by
  induction idx using Nat.strongRecOn with
  | ind idx ih =>
      rcases sound idx bound with ⟨outer, _, c, small, chars⟩ |
        ⟨_, left, right, onLeft, onRight, leftBound, rightBound, chars⟩
      · rw [tree_leaf outer chars small, chars, Tree.leaves, List.map_singleton]
      · rw [tree_branch onLeft onRight leftBound rightBound, chars, Tree.leaves, List.map_append,
          ih left leftBound (by omega), ih right rightBound (by omega)]

namespace Forest

def front (s : Forest) : List (UInt32 × Nat) := s.q1.drop s.q1Head

def back (s : Forest) : List (UInt32 × Nat) := s.q2.drop s.q2Head

def content (s : Forest) : List (Item Nat) := (s.front ++ s.back).map (item s.tree)

theorem waiting_eq (s : Forest) : s.waiting = s.content.length := by
  simp [waiting, content, front, back]

structure Ready (s : Forest) : Prop where
  sound : Sound s.tree
  planted : 36 ≤ s.tree.length
  inside : s.q2Head ≤ s.q2.length
  frontEarly : ∀ entry ∈ s.front, entry.2 < 36
  backLate : ∀ entry ∈ s.back, 36 ≤ entry.2 ∧ entry.2 < s.tree.length
  frontSorted : Sorted (s.front.map (item s.tree))
  backSorted : Sorted (s.back.map (item s.tree))
  light : ∀ entry ∈ s.back,
    s.content.Pairwise fun y z => entry.1.toNat ≤ y.weight + z.weight

theorem drop_of_getElem? {entries : List (UInt32 × Nat)} {head : Nat} {entry : UInt32 × Nat}
    (found : entries[head]? = some entry) :
    entries.drop head = entry :: entries.drop (head + 1) := by
  obtain ⟨bound, same⟩ := List.getElem?_eq_some_iff.mp found
  rw [List.drop_eq_getElem_cons bound, same]

theorem popMin_cases {s t : Forest} {entry : UInt32 × Nat} (popped : s.popMin = some (entry, t)) :
    (s.q1[s.q1Head]? = some entry ∧ t = { s with q1Head := s.q1Head + 1 } ∧
      ∀ y, s.q2[s.q2Head]? = some y → entry.1 ≤ y.1) ∨
    (s.q2[s.q2Head]? = some entry ∧ t = { s with q2Head := s.q2Head + 1 } ∧
      ∀ x, s.q1[s.q1Head]? = some x → ¬x.1 ≤ entry.1) := by
  simp only [popMin] at popped
  split at popped
  · rename_i x y first second
    split at popped
    · rename_i smaller
      simp only [Option.some.injEq, Prod.mk.injEq] at popped
      obtain ⟨rfl, rfl⟩ := popped
      exact Or.inl ⟨first, rfl, by simpa [second] using smaller⟩
    · rename_i larger
      simp only [Option.some.injEq, Prod.mk.injEq] at popped
      obtain ⟨rfl, rfl⟩ := popped
      exact Or.inr ⟨second, rfl, by simpa [first] using larger⟩
  · rename_i x first second
    simp only [Option.some.injEq, Prod.mk.injEq] at popped
    obtain ⟨rfl, rfl⟩ := popped
    exact Or.inl ⟨first, rfl, by simp [second]⟩
  · rename_i y first second
    simp only [Option.some.injEq, Prod.mk.injEq] at popped
    obtain ⟨rfl, rfl⟩ := popped
    exact Or.inr ⟨second, rfl, by simp [first]⟩
  · simp at popped

theorem Ready.bound {s : Forest} (ready : s.Ready) {entry : UInt32 × Nat}
    (member : entry ∈ s.front ++ s.back) : entry.2 < s.tree.length := by
  rcases List.mem_append.mp member with early | late
  · exact Nat.lt_of_lt_of_le (ready.frontEarly entry early) ready.planted
  · exact (ready.backLate entry late).2

theorem weight_symm (x : Nat) {y z : Item Nat} (bound : x ≤ y.weight + z.weight) :
    x ≤ z.weight + y.weight := by
  omega

theorem least_of_heads {head other : Item Nat} {rest : List (Item Nat)}
    (sorted : Sorted (head :: rest)) (notBefore : ¬head.Before other) :
    ∀ x ∈ head :: rest, ¬x.Before other := by
  intro x member
  rcases List.mem_cons.mp member with rfl | later
  · exact notBefore
  · exact Item.not_before_trans ((List.pairwise_cons.mp sorted).1 x later).asymm notBefore

/-- The entry is a least one of the waiting entries, and the rest keep waiting. -/
structure Popped (s : Forest) (entry : UInt32 × Nat) (t : Forest) : Prop where
  ready : t.Ready
  tree : t.tree = s.tree
  bound : entry.2 < s.tree.length
  parts : s.content.Perm (item s.tree entry :: t.content)
  least : ∀ x ∈ t.content, ¬x.Before (item s.tree entry)

theorem Ready.light_of_perm {s : Forest} (ready : s.Ready) {x : Item Nat}
    {rest : List (Item Nat)} (parts : s.content.Perm (x :: rest)) {entry : UInt32 × Nat}
    (member : entry ∈ s.back) :
    rest.Pairwise fun y z => entry.1.toNat ≤ y.weight + z.weight := by
  have whole := ready.light entry member
  rw [parts.pairwise_iff (fun bound => weight_symm _ bound)] at whole
  exact (List.pairwise_cons.mp whole).2

theorem Ready.popFront {s : Forest} (ready : s.Ready) {entry : UInt32 × Nat}
    (first : s.q1[s.q1Head]? = some entry)
    (smaller : ∀ y, s.q2[s.q2Head]? = some y → entry.1 ≤ y.1) :
    Popped s entry { s with q1Head := s.q1Head + 1 } := by
  have shape : s.front = entry :: s.q1.drop (s.q1Head + 1) := drop_of_getElem? first
  have sorted := ready.frontSorted
  rw [shape, List.map_cons] at sorted
  have early := ready.frontEarly entry (by simp [shape])
  have bound := Nat.lt_of_lt_of_le early ready.planted
  have parts : s.content.Perm (item s.tree entry ::
      ({ s with q1Head := s.q1Head + 1 } : Forest).content) := by
    rw [content, shape]
    exact List.Perm.refl _
  refine ⟨⟨ready.sound, ready.planted, ready.inside, ?_, ready.backLate,
    (List.pairwise_cons.mp sorted).2, ready.backSorted, ?_⟩, rfl, bound, parts, ?_⟩
  · intro e member
    exact ready.frontEarly e (by rw [shape]; exact List.mem_cons_of_mem _ member)
  · intro e member
    exact ready.light_of_perm parts member
  · intro x member
    rw [content, List.map_append] at member
    rcases List.mem_append.mp member with inFront | inBack
    · exact ((List.pairwise_cons.mp sorted).1 x inFront).asymm
    · -- The head of the other queue is no lighter, and merged later than any leaf.
      change x ∈ s.back.map (item s.tree) at inBack
      cases heads : s.q2[s.q2Head]? with
      | none =>
          have empty : s.back = [] := List.drop_eq_nil_of_le (List.getElem?_eq_none_iff.mp heads)
          simp [empty] at inBack
      | some y =>
          have backShape : s.back = y :: s.q2.drop (s.q2Head + 1) := drop_of_getElem? heads
          have backSorted := ready.backSorted
          rw [backShape, List.map_cons] at backSorted inBack
          obtain ⟨late, yBound⟩ := ready.backLate y (by simp [backShape])
          have notLighter := UInt32.le_iff_toNat_le.mp (smaller y heads)
          have entryOrder := order_lt ready.sound bound early
          have yOrder := order_eq ready.sound yBound late
          refine least_of_heads backSorted ?_ x inBack
          simp only [Item.Before, item]
          omega

theorem Ready.popBack {s : Forest} (ready : s.Ready) {entry : UInt32 × Nat}
    (second : s.q2[s.q2Head]? = some entry)
    (larger : ∀ x, s.q1[s.q1Head]? = some x → ¬x.1 ≤ entry.1) :
    Popped s entry { s with q2Head := s.q2Head + 1 } := by
  have shape : s.back = entry :: s.q2.drop (s.q2Head + 1) := drop_of_getElem? second
  have sorted := ready.backSorted
  rw [shape, List.map_cons] at sorted
  obtain ⟨late, bound⟩ := ready.backLate entry (by simp [shape])
  have kept : ∀ e ∈ s.q2.drop (s.q2Head + 1), e ∈ s.back := by
    intro e member
    rw [shape]
    exact List.mem_cons_of_mem _ member
  have parts : s.content.Perm (item s.tree entry ::
      ({ s with q2Head := s.q2Head + 1 } : Forest).content) := by
    rw [content, shape, List.map_append, List.map_cons]
    refine List.perm_middle.trans ?_
    rw [← List.map_append]
    exact List.Perm.refl _
  refine ⟨⟨ready.sound, ready.planted, (List.getElem?_eq_some_iff.mp second).1, ready.frontEarly,
    fun e member => ready.backLate e (kept e member), ready.frontSorted,
    (List.pairwise_cons.mp sorted).2, ?_⟩, rfl, bound, parts, ?_⟩
  · intro e member
    exact ready.light_of_perm parts (kept e member)
  · intro x member
    rw [content, List.map_append] at member
    rcases List.mem_append.mp member with inFront | inBack
    · change x ∈ s.front.map (item s.tree) at inFront
      cases heads : s.q1[s.q1Head]? with
      | none =>
          have empty : s.front = [] := List.drop_eq_nil_of_le (List.getElem?_eq_none_iff.mp heads)
          simp [empty] at inFront
      | some y =>
          have frontShape : s.front = y :: s.q1.drop (s.q1Head + 1) := drop_of_getElem? heads
          have frontSorted := ready.frontSorted
          rw [frontShape, List.map_cons] at frontSorted inFront
          have heavier := mt UInt32.le_iff_toNat_le.mpr (larger y heads)
          refine least_of_heads frontSorted ?_ x inFront
          simp only [Item.Before, item]
          omega
    · exact ((List.pairwise_cons.mp sorted).1 x inBack).asymm

theorem popMin_back {s t : Forest} {entry : UInt32 × Nat} (popped : s.popMin = some (entry, t)) :
    ∀ e ∈ t.back, e ∈ s.back := by
  intro e member
  rcases popMin_cases popped with ⟨_, rfl, _⟩ | ⟨second, rfl, _⟩
  · exact member
  · rw [back, drop_of_getElem? second]
    exact List.mem_cons_of_mem _ member

theorem popMin_spec {s : Forest} (ready : s.Ready) (inhabited : 0 < s.content.length) :
    ∃ entry t, s.popMin = some (entry, t) ∧ Popped s entry t := by
  have found : ∃ entry t, s.popMin = some (entry, t) := by
    simp only [popMin]
    split
    · split
      · exact ⟨_, _, rfl⟩
      · exact ⟨_, _, rfl⟩
    · exact ⟨_, _, rfl⟩
    · exact ⟨_, _, rfl⟩
    · rename_i noFront noBack
      have frontEmpty := List.getElem?_eq_none_iff.mp noFront
      have backEmpty := List.getElem?_eq_none_iff.mp noBack
      rw [← waiting_eq, waiting] at inhabited
      omega
  obtain ⟨entry, t, popped⟩ := found
  refine ⟨entry, t, popped, ?_⟩
  rcases popMin_cases popped with ⟨first, rfl, smaller⟩ | ⟨second, rfl, larger⟩
  · exact ready.popFront first smaller
  · exact ready.popBack second larger

def push (u : Forest) (a b : UInt32 × Nat) : Forest :=
  { u with
    tree := u.tree ++ [⟨a.2, b.2, (nodeIn u.tree a.2).chars ++ (nodeIn u.tree b.2).chars⟩]
    q2 := u.q2 ++ [(a.1 + b.1, u.tree.length)] }

theorem push_item {u : Forest} {a b : UInt32 × Nat} (aBound : a.2 < u.tree.length)
    (bBound : b.2 < u.tree.length) (room : a.1.toNat + b.1.toNat < 2 ^ 32) :
    item (u.push a b).tree (a.1 + b.1, u.tree.length) =
      (item u.tree a).join u.tree.length (item u.tree b) := by
  generalize nodeEq : Node.mk a.2 b.2
    ((nodeIn u.tree a.2).chars ++ (nodeIn u.tree b.2).chars) = node
  have onLeft : node.left = a.2 := by rw [← nodeEq]
  have onRight : node.right = b.2 := by rw [← nodeEq]
  have last := nodeIn_append_last u.tree node
  have shape := @tree_branch (u.tree ++ [node]) u.tree.length a.2 b.2
    (by rw [last, onLeft]) (by rw [last, onRight]) aBound bBound
  have place : order (u.tree ++ [node]) u.tree.length = u.tree.length := by
    rw [order, last, if_neg (by omega)]
  have sum : (a.1 + b.1).toNat = a.1.toNat + b.1.toNat := by
    rw [UInt32.toNat_add, Nat.mod_eq_of_lt room]
  simp only [push, nodeEq, item, place, shape, sum, Item.join, tree_append_left _ aBound,
    tree_append_left _ bBound]

theorem Ready.push_back {u : Forest} (ready : u.Ready) (a b : UInt32 × Nat) :
    (u.push a b).back = u.back ++ [(a.1 + b.1, u.tree.length)] :=
  List.drop_append_of_le_length ready.inside

theorem Ready.push_map {u : Forest} (ready : u.Ready) (a b : UInt32 × Nat)
    (entries : List (UInt32 × Nat)) (waiting : ∀ e ∈ entries, e ∈ u.front ++ u.back) :
    entries.map (item (u.push a b).tree) = entries.map (item u.tree) := by
  apply List.map_congr_left
  intro e member
  exact item_append_left _ (ready.bound (waiting e member))

theorem Ready.push_content {u : Forest} (ready : u.Ready) {a b : UInt32 × Nat}
    (aBound : a.2 < u.tree.length) (bBound : b.2 < u.tree.length)
    (room : a.1.toNat + b.1.toNat < 2 ^ 32) :
    (u.push a b).content =
      u.content ++ [(item u.tree a).join u.tree.length (item u.tree b)] := by
  have old := ready.push_map a b (u.front ++ u.back) fun _ => id
  have front : (u.push a b).front = u.front := rfl
  rw [content, front, ready.push_back, ← List.append_assoc, List.map_append, old,
    List.map_singleton, push_item aBound bBound room, content]

theorem Ready.push {u : Forest} (ready : u.Ready) {a b : UInt32 × Nat}
    (aBound : a.2 < u.tree.length) (bBound : b.2 < u.tree.length)
    (room : a.1.toNat + b.1.toNat < 2 ^ 32)
    (least : ∀ x ∈ u.content, a.1.toNat ≤ x.weight ∧ b.1.toNat ≤ x.weight)
    (older : ∀ e ∈ u.back, e.1.toNat ≤ a.1.toNat + b.1.toNat) : (u.push a b).Ready := by
  have back := ready.push_back a b
  have content := ready.push_content aBound bBound room
  have size : (u.push a b).tree.length = u.tree.length + 1 := by simp [Forest.push]
  have planted := ready.planted
  have joinWeight : ((item u.tree a).join u.tree.length (item u.tree b)).weight =
      a.1.toNat + b.1.toNat := rfl
  constructor
  case sound =>
    exact ready.sound.append (Or.inr ⟨planted, a.2, b.2, rfl, rfl, aBound, bBound, rfl⟩)
  case planted => omega
  case inside =>
    have inside := ready.inside
    simp only [Forest.push, List.length_append]
    omega
  case frontEarly => exact ready.frontEarly
  case backLate =>
    intro e member
    rw [back] at member
    rw [size]
    rcases List.mem_append.mp member with old | new
    · obtain ⟨late, bound⟩ := ready.backLate e old
      exact ⟨late, by omega⟩
    · rw [List.mem_singleton.mp new]
      exact ⟨planted, Nat.lt_succ_self _⟩
  case frontSorted =>
    have same := ready.push_map a b u.front fun e => List.mem_append_left _
    change Sorted (u.front.map _)
    rw [same]
    exact ready.frontSorted
  case backSorted =>
    have same := ready.push_map a b u.back fun e => List.mem_append_right _
    rw [back, List.map_append, same, List.map_singleton, push_item aBound bBound room, Sorted,
      List.pairwise_append]
    refine ⟨ready.backSorted, List.pairwise_singleton _ _, ?_⟩
    intro x member y new
    obtain ⟨e, belongs, rfl⟩ := List.mem_map.mp member
    rw [List.mem_singleton.mp new]
    obtain ⟨late, bound⟩ := ready.backLate e belongs
    have place := order_eq ready.sound bound late
    have lighter := older e belongs
    simp only [Item.Before, joinWeight]
    simp only [item, Item.join, place]
    omega
  case light =>
    intro e member
    rw [content, List.pairwise_append]
    rw [back] at member
    rcases List.mem_append.mp member with old | new
    · refine ⟨ready.light e old, List.pairwise_singleton _ _, ?_⟩
      intro x _ y joined
      have lighter := older e old
      rw [List.mem_singleton.mp joined, joinWeight]
      omega
    · rw [List.mem_singleton.mp new]
      have sum : (a.1 + b.1).toNat = a.1.toNat + b.1.toNat := by
        rw [UInt32.toNat_add, Nat.mod_eq_of_lt room]
      refine ⟨?_, List.pairwise_singleton _ _, ?_⟩
      · apply List.pairwise_of_forall_mem_list
        intro y yMember z zMember
        have first := least y yMember
        have second := least z zMember
        simp only [sum]
        omega
      · intro x _ y joined
        rw [List.mem_singleton.mp joined, joinWeight]
        simp only [sum]
        omega

theorem mergeOnce_spec {s : Forest} (ready : s.Ready) (several : 1 < s.content.length)
    (room : (s.content.map fun x => x.weight).sum < 2 ^ 32) :
    ∃ merged, s.mergeOnce = some merged ∧ merged.Ready ∧
      merged.tree.length = s.tree.length + 1 ∧
      MergeStep s.tree.length s.content merged.content := by
  obtain ⟨a, t, popA, outA⟩ := popMin_spec ready (by omega)
  have sizeA := outA.parts.length_eq
  rw [List.length_cons] at sizeA
  obtain ⟨b, u, popB, outB⟩ := popMin_spec outA.ready (by omega)
  have tree : u.tree = s.tree := outB.tree.trans outA.tree
  have bBound := outB.bound
  have partsB := outB.parts
  have leastB := outB.least
  rw [outA.tree] at bBound partsB leastB
  have parts : s.content.Perm (item s.tree a :: item s.tree b :: u.content) :=
    outA.parts.trans (partsB.cons _)
  have sum : a.1.toNat + b.1.toNat < 2 ^ 32 := by
    rw [(parts.map fun x => x.weight).sum_eq] at room
    simp only [List.map_cons, List.sum_cons, item] at room
    omega
  have least : ∀ x ∈ u.content, a.1.toNat ≤ x.weight ∧ b.1.toNat ≤ x.weight := by
    intro x member
    have notFirst := outA.least x (partsB.symm.subset (by simp [member]))
    have notSecond := leastB x member
    simp only [Item.Before, item] at notFirst notSecond
    omega
  have older : ∀ e ∈ u.back, e.1.toNat ≤ a.1.toNat + b.1.toNat := by
    intro e member
    have whole := ready.light e (popMin_back popA _ (popMin_back popB _ member))
    rw [parts.pairwise_iff (fun bound => weight_symm _ bound)] at whole
    exact (List.pairwise_cons.mp whole).1 (item s.tree b) (by simp)
  have aInside : a.2 < u.tree.length := tree ▸ outA.bound
  have bInside : b.2 < u.tree.length := tree ▸ bBound
  have content := outB.ready.push_content aInside bInside sum
  rw [tree] at content
  refine ⟨u.push a b, ?_, outB.ready.push aInside bInside sum least older, ?_, ?_⟩
  · simp only [mergeOnce, popA, popB, Forest.push, tree]
  · simp [Forest.push, tree]
  · refine ⟨item s.tree a, item s.tree b, u.content, parts, ?_, leastB, ?_⟩
    · intro x member
      exact outA.least x (partsB.symm.subset member)
    · rw [content]
      exact List.perm_append_singleton _ _

theorem Ready.root {s : Forest} (ready : s.Ready) (last : s.content.length = 1) :
    ∃ entry, s.root = some entry.2 ∧ s.content = [item s.tree entry] ∧
      entry.2 < s.tree.length := by
  rw [content, List.length_map] at last
  obtain ⟨entry, only⟩ := List.length_eq_one_iff.mp last
  have bound := @Ready.bound s ready entry (by simp [only])
  refine ⟨entry, ?_, by rw [content, only, List.map_singleton], bound⟩
  cases heads : s.q1[s.q1Head]? with
  | some x =>
      have shape : s.front = x :: s.q1.drop (s.q1Head + 1) := drop_of_getElem? heads
      rw [shape, List.cons_append, List.cons.injEq] at only
      rw [Forest.root, heads, only.1]
  | none =>
      have empty : s.front = [] := List.drop_eq_nil_of_le (List.getElem?_eq_none_iff.mp heads)
      rw [empty, List.nil_append] at only
      have first := congrArg List.head? only
      rw [Forest.back, List.head?_drop] at first
      rw [Forest.root, heads, first]
      rfl

theorem mergeLoop_spec {s : Forest} {items : List (Item Nat)} (rounds : Nat) (ready : s.Ready)
    (agenda : Agenda s.tree.length s.content items) (inhabited : 0 < s.content.length)
    (enough : s.content.length ≤ rounds + 1)
    (room : (s.content.map fun x => x.weight).sum < 2 ^ 32) :
    ∃ t entry, s.mergeLoop rounds = some t ∧ t.root = some entry.2 ∧ Sound t.tree ∧
      entry.2 < t.tree.length ∧ combine s.tree.length items = some (item t.tree entry) := by
  induction rounds generalizing s items with
  | zero =>
      obtain ⟨entry, root, only, bound⟩ := ready.root (show s.content.length = 1 by omega)
      rw [only] at agenda
      refine ⟨s, entry, ?_, root, ready.sound, bound, agenda.finish⟩
      rw [mergeLoop, waiting_eq, if_neg (by omega)]
  | succ rounds ih =>
      rw [mergeLoop, waiting_eq]
      by_cases several : 1 < s.content.length
      · rw [if_pos several]
        obtain ⟨merged, found, mergedReady, grown, step⟩ := mergeOnce_spec ready several room
        obtain ⟨remaining, mergedAgenda, shorter, same⟩ := agenda.step step
        have size := mergedAgenda.perm.length_eq
        have before := agenda.perm.length_eq
        rw [← grown] at mergedAgenda same
        rw [found, Option.bind_some, same]
        exact ih mergedReady mergedAgenda (by omega) (by omega) (by rwa [step.sum_eq])
      · obtain ⟨entry, root, only, bound⟩ := ready.root (show s.content.length = 1 by omega)
        rw [only] at agenda
        rw [if_neg several]
        exact ⟨s, entry, rfl, root, ready.sound, bound, agenda.finish⟩

end Forest

/-! The sorted leaves. -/

theorem getMod997_toNat (seed : Seed256) : seed.getMod997.toNat = seed.value % 997 := by
  have folded (words : List UInt32) (rem : UInt64) (v : Nat) (start : rem.toNat = v % 997) :
      (words.foldl (fun (rem : UInt64) word => ((rem <<< 32) + word.toUInt64) % 997) rem).toNat =
        words.foldl (fun v word => v * 2 ^ 32 + word.toNat) v % 997 := by
    induction words generalizing rem v with
    | nil => exact start
    | cons word rest ih =>
        rw [List.foldl_cons, List.foldl_cons]
        apply ih
        have small : rem.toNat < 997 := start ▸ Nat.mod_lt _ (by decide)
        have bound := word.toNat_lt
        have congruent : (v % 997 * 2 ^ 32 + word.toNat) % 997 = (v * 2 ^ 32 + word.toNat) % 997 := by
          omega
        rw [UInt64.toNat_mod, UInt64.toNat_add, UInt64.toNat_shiftLeft, UInt32.toNat_toUInt64]
        change (rem.toNat <<< 32 % 2 ^ 64 + word.toNat) % 2 ^ 64 % 997 = _
        rw [Nat.shiftLeft_eq, Nat.mod_eq_of_lt (show rem.toNat * 2 ^ 32 < 2 ^ 64 by omega),
          Nat.mod_eq_of_lt (show rem.toNat * 2 ^ 32 + word.toNat < 2 ^ 64 by omega), start, congruent]
  rw [Seed256.getMod997, UInt64.toNat_toUInt32, folded _ 0 0 rfl, Seed256.value]
  exact Nat.mod_eq_of_lt (Nat.lt_trans (Nat.mod_lt _ (by decide)) (by decide))

def leafOf (entry : UInt32 × List Char) : Item Nat :=
  ⟨entry.1.toNat, firstLabel entry.2, .leaf (firstLabel entry.2)⟩

theorem items_eq (seed : Seed256) :
    items seed.getMod997 = (List.range 36).map fun c =>
      ((UInt32.ofNat (c + 1) * seed.getMod997 + 17) % 997, [chr c]) := by
  have indexed : charset.zipIdx = (List.range 36).map fun i => (chr i, i) := by decide
  rw [items, indexed, List.map_map]
  rfl

theorem items_leaves (seed : Seed256) :
    (items seed.getMod997).map leafOf = (List.range 36).map (Scheme.leafItem seed.value) := by
  rw [items_eq, List.map_map]
  apply List.map_congr_left
  intro c member
  have bound : c < 36 := by simpa using member
  have residue : seed.getMod997.toNat < 997 := by
    rw [getMod997_toNat]
    exact Nat.mod_lt _ (by decide)
  have index : (UInt32.ofNat (c + 1)).toNat = c + 1 :=
    UInt32.toNat_ofNat_of_lt' (Nat.lt_of_le_of_lt bound (by decide))
  have product : (c + 1) * seed.getMod997.toNat ≤ 36 * 997 :=
    Nat.mul_le_mul (by omega) (by omega)
  have score : ((UInt32.ofNat (c + 1) * seed.getMod997 + 17) % 997).toNat =
      Scheme.leafScore seed.value c := by
    rw [UInt32.toNat_mod, UInt32.toNat_add, UInt32.toNat_mul, index]
    change ((c + 1) * seed.getMod997.toNat % 2 ^ 32 + 17) % 2 ^ 32 % 997 = _
    rw [Nat.mod_eq_of_lt (show (c + 1) * seed.getMod997.toNat < 2 ^ 32 by omega),
      Nat.mod_eq_of_lt (show (c + 1) * seed.getMod997.toNat + 17 < 2 ^ 32 by omega),
      getMod997_toNat, ← Scheme.leafScore_mod, Scheme.leafScore]
  simp only [Function.comp_apply, leafOf, firstLabel, label_chr bound, score, Scheme.leafItem]

theorem itemLess_iff {a b : UInt32 × List Char} (aChar : ∃ c < 36, a.2 = [chr c])
    (bChar : ∃ c < 36, b.2 = [chr c]) : itemLess a b = true ↔ (leafOf a).Before (leafOf b) := by
  have alphabetic : ∀ c < 36, ∀ d < 36, ([chr c] < [chr d] ↔ c < d) := by decide +kernel
  obtain ⟨c, cBound, aIs⟩ := aChar
  obtain ⟨d, dBound, bIs⟩ := bChar
  have weights : a.1 = b.1 ↔ a.1.toNat = b.1.toNat := UInt32.toNat_inj.symm
  simp only [itemLess, aIs, bIs, leafOf, firstLabel, label_chr cBound, label_chr dBound,
    Item.Before]
  by_cases same : a.1 = b.1
  · rw [if_neg (by simpa using same), decide_eq_true_eq, alphabetic c cBound d dBound]
    rw [weights] at same
    omega
  · rw [if_pos same, decide_eq_true_eq, UInt32.lt_iff_toNat_lt]
    rw [weights] at same
    omega

theorem items_char (seed : Seed256) :
    ∀ entry ∈ items seed.getMod997, ∃ c < 36, entry.2 = [chr c] := by
  intro entry member
  rw [items_eq] at member
  obtain ⟨c, listed, rfl⟩ := List.mem_map.mp member
  exact ⟨c, by simpa using listed, rfl⟩

theorem sorted_leaves (seed : Seed256) :
    Sorted (((items seed.getMod997).mergeSort fun a b => !itemLess b a).map leafOf) := by
  have mapped : ((items seed.getMod997).mergeSort fun a b => !itemLess b a).map leafOf =
      ((List.range 36).map (Scheme.leafItem seed.value)).mergeSort
        fun x y => !decide (y.Before x) := by
    rw [← items_leaves, List.map_mergeSort]
    intro a aMember b bMember
    have agree := itemLess_iff (items_char seed b bMember) (items_char seed a aMember)
    apply congrArg
    rw [Bool.eq_iff_iff, agree, decide_eq_true_eq]
  have weak := @List.pairwise_mergeSort _ (fun x y : Item Nat => !decide (y.Before x)) (by
      intro x y z first second
      simp only [Bool.not_eq_true', decide_eq_false_iff_not] at *
      exact Item.not_before_trans second first) (by
      intro x y
      simp only [Bool.or_eq_true, Bool.not_eq_true', decide_eq_false_iff_not]
      by_cases before : y.Before x
      · exact Or.inr before.asymm
      · exact Or.inl before) ((List.range 36).map (Scheme.leafItem seed.value))
  have apart : (((List.range 36).map (Scheme.leafItem seed.value)).mergeSort
      fun x y => !decide (y.Before x)).Pairwise fun x y => x.order ≠ y.order := by
    rw [(List.mergeSort_perm _ _).pairwise_iff (fun different => Ne.symm different),
      List.pairwise_map]
    exact List.nodup_range
  rw [mapped, Sorted]
  refine (weak.and apart).imp ?_
  rintro x y ⟨kept, different⟩
  have notBefore : ¬y.Before x := by simpa using kept
  simp only [Item.Before] at notBefore ⊢
  omega

theorem plant_spec (seed : Seed256) {sorted : List (UInt32 × List Char)}
    (sort : ((items seed.getMod997).mergeSort fun a b => !itemLess b a) = sorted) :
    (plant sorted).Ready ∧ (plant sorted).tree.length = 36 ∧
      (plant sorted).content.Perm ((List.range 36).map (Scheme.leafItem seed.value)) := by
  have perm : sorted.Perm (items seed.getMod997) := sort ▸ List.mergeSort_perm _ _
  have size : sorted.length = 36 := by rw [perm.length_eq, items_eq]; simp
  have chars : ∀ entry ∈ sorted, ∃ c < 36, entry.2 = [chr c] := fun entry member =>
    items_char seed entry (perm.subset member)
  have nodeAtSpec {idx : Nat} (bound : idx < sorted.length) :
      nodeIn (plant sorted).tree idx = ⟨-1, -1, sorted[idx].2⟩ := by
    simp [nodeIn, plant, bound]
  have sound : Sound (plant sorted).tree := by
    intro idx bound
    have inside : idx < sorted.length := by simpa [plant] using bound
    rw [nodeAtSpec inside]
    exact Or.inl ⟨rfl, by omega, chars _ (List.getElem_mem inside)⟩
  have front : (plant sorted).front = sorted.zipIdx.map fun entry => (entry.1.1, entry.2) := rfl
  have back : (plant sorted).back = [] := rfl
  have leaves : (plant sorted).front.map (item (plant sorted).tree) = sorted.map leafOf := by
    apply List.ext_getElem
    · simp [front]
    · intro idx left right
      have inside : idx < sorted.length := by simpa using right
      obtain ⟨c, bound, isChar⟩ := chars _ (List.getElem_mem inside)
      have node := nodeAtSpec inside
      have shape := @tree_leaf (plant sorted).tree idx c (by rw [node]) (by rw [node, isChar]) bound
      simp only [front, List.getElem_map, List.getElem_zipIdx, Nat.zero_add, item, order, shape,
        leafOf, isChar, firstLabel, label_chr bound, node, if_true]
  have content : (plant sorted).content = sorted.map leafOf := by
    rw [Forest.content, back, List.append_nil, leaves]
  refine ⟨⟨sound, ?_, Nat.zero_le _, ?_, ?_, ?_, List.Pairwise.nil, ?_⟩, ?_, ?_⟩
  · simp [plant, size]
  · intro entry member
    rw [front] at member
    obtain ⟨⟨origin, i⟩, listed, rfl⟩ := List.mem_map.mp member
    have bound := List.snd_lt_of_mem_zipIdx listed
    simpa [size] using bound
  · simp [back]
  · rw [leaves, ← sort]
    exact sorted_leaves seed
  · simp [back]
  · simp [plant, size]
  · rw [content, ← items_leaves]
    exact perm.map leafOf

/-! The walk to a character's leaf. -/

theorem walk_spec {s : Forest} (sound : Sound s.tree) {c : Nat} (small : c < 36) (steps : Nat)
    {idx : Nat} (bound : idx < s.tree.length) (enough : idx < steps)
    (member : c ∈ (tree s.tree idx).leaves)
    (known : ∀ d ∈ (tree s.tree idx).leaves, d < 36) :
    s.walk (chr c) steps idx =
      ((tree s.tree idx).code c).map fun bits => bits.map fun b => chr b.toNat := by
  induction steps generalizing idx with
  | zero => omega
  | succ steps ih =>
      rw [Forest.walk]
      rcases sound idx bound with ⟨outer, _, d, dBound, chars⟩ |
        ⟨_, left, right, onLeft, onRight, leftBound, rightBound, chars⟩
      · rw [tree_leaf outer chars dBound, Tree.leaves, List.mem_singleton] at member
        rw [if_pos outer, tree_leaf outer chars dBound, Tree.code, if_pos member.symm]
        rfl
      · have branch := tree_branch onLeft onRight leftBound rightBound
        have leftInside : left < s.tree.length := by omega
        rw [branch, Tree.leaves] at member known
        have listed : (nodeIn s.tree left).chars.contains (chr c) = true ↔
            c ∈ (tree s.tree left).leaves := by
          rw [List.contains_iff_mem, chars_eq sound leftInside]
          constructor
          · intro found
            obtain ⟨d, belongs, same⟩ := List.mem_map.mp found
            have dBound := known d (List.mem_append_left _ belongs)
            rwa [← chr_inj dBound small same]
          · exact fun belongs => List.mem_map_of_mem belongs
        rw [if_neg (by omega), onLeft, Int.toNat_natCast, branch, Tree.code]
        by_cases inLeft : c ∈ (tree s.tree left).leaves
        · obtain ⟨bits, found⟩ := Tree.exists_code inLeft
          rw [if_pos (listed.mpr inLeft), ih leftInside (by omega) inLeft
            (fun d belongs => known d (List.mem_append_left _ belongs)), found]
          rfl
        · have missing : (tree s.tree left).code c = none := by
            rw [← Option.not_isSome_iff_eq_none, Tree.code_isSome_iff]
            exact inLeft
          have inRight := (List.mem_append.mp member).resolve_left inLeft
          obtain ⟨bits, found⟩ := Tree.exists_code inRight
          rw [if_neg (mt listed.mp inLeft), onRight, Int.toNat_natCast,
            ih (by omega) (by omega) inRight
              (fun d belongs => known d (List.mem_append_right _ belongs)), missing, found]
          rfl

theorem encodeCharFast_eq (seed : Seed256) {c : Nat} (bound : c < 36) :
    encodeCharFast seed (chr c) = some ((Scheme.code seed.value c).map chr) := by
  generalize sort : ((items seed.getMod997).mergeSort fun a b => !itemLess b a) = sorted
  obtain ⟨ready, size, content⟩ := plant_spec seed sort
  have leaves := Scheme.leaves_agenda seed.value
  have agenda : Agenda (plant sorted).tree.length (plant sorted).content
      (Scheme.sortedLeaves seed.value 36) :=
    ⟨content.trans leaves.perm, leaves.sorted, by rw [size]; exact leaves.fresh⟩
  have count := content.length_eq
  rw [List.length_map, List.length_range] at count
  have room : ((plant sorted).content.map fun x => x.weight).sum < 2 ^ 32 := by
    have sum := Scheme.leafScore_sum_le seed.value
    rw [(content.map fun x => x.weight).sum_eq, Scheme.leaves_weight]
    omega
  obtain ⟨t, entry, merged, root, sound, inside, combined⟩ :=
    Forest.mergeLoop_spec 36 ready agenda (by omega) (by omega) room
  obtain ⟨top, found, same⟩ := Scheme.exists_root seed.value
  rw [size, found, Option.some.injEq] at combined
  have shape : tree t.tree entry.2 = Scheme.codeTree seed.value := by rw [same, combined, item]
  have labels := Scheme.codeTree_leaves seed.value
  obtain ⟨bits, coded⟩ := Scheme.exists_code seed.value bound
  have long := (Scheme.code_length_bounds seed.value bound).1
  have walked := walk_spec sound bound t.tree.length inside inside
    (by rw [shape]; exact labels.symm.subset (by simpa using bound))
    (by rw [shape]; intro d member; simpa using labels.subset member)
  rw [shape, coded, Option.map_some] at walked
  simp only [Scheme.code, coded, Option.getD_some, List.length_map] at long
  simp only [encodeCharFast, sort, merged, root, walked, Option.bind_eq_bind, Option.bind_some,
    Option.pure_def]
  cases bits with
  | nil => simp at long
  | cons b rest => simp [Scheme.code, coded]

end CudaOpenMp.Treeforce
