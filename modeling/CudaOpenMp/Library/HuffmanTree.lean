import Mathlib.Algebra.BigOperators.Group.List.Basic
import Mathlib.Data.List.GetD
import Mathlib.Data.List.Perm.Basic
import Mathlib.Data.Nat.Fib.Basic
import Mathlib.Tactic.Common

/-!
Binary code trees and the least-first merging that builds them. Items are ordered by
weight and then by order of creation, so every merge is determined. A concrete priority
queue only has to show that each of its rounds is a `MergeStep`.
-/

namespace HuffmanTree

inductive Tree (α : Type) where
  | leaf (label : α)
  | node (left right : Tree α)
  deriving Repr, DecidableEq

variable {α : Type}

namespace Tree

def size : Tree α → Nat
  | leaf _ => 1
  | node left right => left.size + right.size + 1

def leaves : Tree α → List α
  | leaf label => [label]
  | node left right => left.leaves ++ right.leaves

def height : Tree α → Nat
  | leaf _ => 0
  | node left right => max left.height right.height + 1

/-- The path to the first leaf with the given label, left subtrees first. -/
def code [DecidableEq α] (target : α) : Tree α → Option (List Bool)
  | leaf label => if label = target then some [] else none
  | node left right =>
      match left.code target with
      | some bits => some (false :: bits)
      | none => (right.code target).map (true :: ·)

def weight (leafWeight : α → Nat) : Tree α → Nat
  | leaf label => leafWeight label
  | node left right => left.weight leafWeight + right.weight leafWeight

def heavier (leafWeight : α → Nat) : Tree α → Nat
  | leaf _ => 0
  | node left right => max (left.weight leafWeight) (right.weight leafWeight)

theorem size_eq (tree : Tree α) : tree.size + 1 = 2 * tree.leaves.length := by
  induction tree with
  | leaf label => rfl
  | node left right ihLeft ihRight =>
      simp only [size, leaves, List.length_append]
      omega

theorem code_isSome_iff [DecidableEq α] (target : α) (tree : Tree α) :
    (tree.code target).isSome = true ↔ target ∈ tree.leaves := by
  induction tree with
  | leaf label =>
      simp only [code, leaves, List.mem_singleton]
      split
      · rename_i same
        simp [same]
      · rename_i different
        simp [Ne.symm different]
  | node left right ihLeft ihRight =>
      rw [leaves, List.mem_append, ← ihLeft, ← ihRight]
      cases found : left.code target <;> simp [code, found]

theorem exists_code [DecidableEq α] {target : α} {tree : Tree α} (member : target ∈ tree.leaves) :
    ∃ bits, tree.code target = some bits :=
  Option.isSome_iff_exists.mp ((code_isSome_iff target tree).mpr member)

theorem code_length_le_height [DecidableEq α] {target : α} {tree : Tree α} {bits : List Bool}
    (found : tree.code target = some bits) : bits.length ≤ tree.height := by
  induction tree generalizing bits with
  | leaf label =>
      simp only [code] at found
      split at found
      · simp only [Option.some.injEq] at found
        simp [← found]
      · simp at found
  | node left right ihLeft ihRight =>
      simp only [code] at found
      split at found
      · rename_i path onLeft
        simp only [Option.some.injEq] at found
        have bound := ihLeft onLeft
        simp only [← found, List.length_cons, height]
        omega
      · obtain ⟨path, onRight, rfl⟩ := Option.map_eq_some_iff.mp found
        have bound := ihRight onRight
        simp only [List.length_cons, height]
        omega

/-- Reading a code word off the front of a bit string determines its label and the rest. -/
theorem code_append_inj [DecidableEq α] {tree : Tree α} {first second : α}
    {firstBits secondBits firstRest secondRest : List Bool}
    (firstCode : tree.code first = some firstBits) (secondCode : tree.code second = some secondBits)
    (same : firstBits ++ firstRest = secondBits ++ secondRest) :
    first = second ∧ firstRest = secondRest := by
  induction tree generalizing firstBits secondBits with
  | leaf label =>
      simp only [code, Option.ite_none_right_eq_some, Option.some.injEq] at firstCode secondCode
      obtain ⟨rfl, rfl⟩ := firstCode
      obtain ⟨rfl, rfl⟩ := secondCode
      exact ⟨rfl, by simpa using same⟩
  | node left right ihLeft ihRight =>
      simp only [code] at firstCode secondCode
      cases firstLeft : left.code first with
      | some firstPath =>
          simp only [firstLeft, Option.some.injEq] at firstCode
          subst firstBits
          cases secondLeft : left.code second with
          | some secondPath =>
              simp only [secondLeft, Option.some.injEq] at secondCode
              subst secondBits
              exact ihLeft firstLeft secondLeft (by simpa using same)
          | none =>
              simp only [secondLeft, Option.map_eq_some_iff] at secondCode
              obtain ⟨secondPath, _, rfl⟩ := secondCode
              simp at same
      | none =>
          simp only [firstLeft, Option.map_eq_some_iff] at firstCode
          obtain ⟨firstPath, firstRight, rfl⟩ := firstCode
          cases secondLeft : left.code second with
          | some secondPath =>
              simp only [secondLeft, Option.some.injEq] at secondCode
              subst secondBits
              simp at same
          | none =>
              simp only [secondLeft, Option.map_eq_some_iff] at secondCode
              obtain ⟨secondPath, secondRight, rfl⟩ := secondCode
              exact ihRight firstRight secondRight (by simpa using same)

theorem two_le_code_length [DecidableEq α] {a b c d : Tree α} {target : α} {bits : List Bool}
    (found : (node (node a b) (node c d)).code target = some bits) : 2 ≤ bits.length := by
  simp only [code] at found
  split at found
  · rename_i path onLeft
    split at onLeft
    · simp only [Option.some.injEq] at onLeft found
      simp [← found, ← onLeft]
    · obtain ⟨inner, _, rfl⟩ := Option.map_eq_some_iff.mp onLeft
      simp only [Option.some.injEq] at found
      simp [← found]
  · obtain ⟨path, onRight, rfl⟩ := Option.map_eq_some_iff.mp found
    split at onRight
    · simp only [Option.some.injEq] at onRight
      simp [← onRight]
    · obtain ⟨inner, _, rfl⟩ := Option.map_eq_some_iff.mp onRight
      simp

end Tree

structure Item (α : Type) where
  weight : Nat
  order : Nat
  tree : Tree α

namespace Item

def Before (x y : Item α) : Prop :=
  x.weight < y.weight ∨ x.weight = y.weight ∧ x.order < y.order

instance (x y : Item α) : Decidable (x.Before y) := inferInstanceAs (Decidable (_ ∨ _))

theorem Before.asymm {x y : Item α} (before : x.Before y) : ¬y.Before x := by
  simp only [Before] at *
  omega

theorem Before.trans {x y z : Item α} (first : x.Before y) (second : y.Before z) : x.Before z := by
  simp only [Before] at *
  omega

theorem not_before_trans {x y z : Item α} (first : ¬x.Before y) (second : ¬y.Before z) :
    ¬x.Before z := by
  simp only [Before] at *
  omega

theorem Before.weight_le {x y : Item α} (before : x.Before y) : x.weight ≤ y.weight := by
  simp only [Before] at before
  omega

def join (next : Nat) (a b : Item α) : Item α :=
  ⟨a.weight + b.weight, next, .node a.tree b.tree⟩

end Item

def Sorted (items : List (Item α)) : Prop := items.Pairwise Item.Before

def insert (x : Item α) : List (Item α) → List (Item α)
  | [] => [x]
  | y :: rest => if x.Before y then x :: y :: rest else y :: insert x rest

theorem insert_perm (x : Item α) (items : List (Item α)) : (insert x items).Perm (x :: items) := by
  induction items with
  | nil => exact List.Perm.refl _
  | cons y rest ih =>
      simp only [insert]
      split
      · exact List.Perm.refl _
      · exact (ih.cons y).trans (List.Perm.swap x y rest)

@[simp] theorem insert_length (x : Item α) (items : List (Item α)) :
    (insert x items).length = items.length + 1 := by
  simpa using (insert_perm x items).length_eq

theorem insert_sorted {x : Item α} {items : List (Item α)} (sorted : Sorted items)
    (fresh : ∀ y ∈ items, y.order < x.order) : Sorted (insert x items) := by
  induction items with
  | nil => simp [insert, Sorted]
  | cons y rest ih =>
      simp only [Sorted, List.pairwise_cons] at sorted
      simp only [insert]
      split
      · rename_i before
        refine List.pairwise_cons.mpr ⟨?_, List.pairwise_cons.mpr sorted⟩
        intro z member
        rcases List.mem_cons.mp member with rfl | later
        · exact before
        · exact before.trans (sorted.1 z later)
      · rename_i notBefore
        refine List.pairwise_cons.mpr ⟨?_, ih sorted.2 fun z later => fresh z (by simp [later])⟩
        intro z member
        rcases List.mem_cons.mp ((insert_perm x rest).subset member) with rfl | later
        · have older := fresh y (by simp)
          simp only [Item.Before] at notBefore ⊢
          omega
        · exact sorted.1 z later

def combine (next : Nat) : List (Item α) → Option (Item α)
  | [] => none
  | [root] => some root
  | a :: b :: rest => combine (next + 1) (insert (a.join next b) rest)
termination_by items => items.length

theorem exists_combine (next : Nat) (items : List (Item α)) (inhabited : items ≠ []) :
    ∃ root, combine next items = some root := by
  induction next, items using combine.induct with
  | case1 => exact (inhabited rfl).elim
  | case2 next root => exact ⟨root, by rw [combine]⟩
  | case3 next a b rest ih =>
      rw [combine]
      exact ih fun empty => by simpa using congrArg List.length empty

theorem combine_leaves {next : Nat} {items : List (Item α)} {root : Item α}
    (built : combine next items = some root) :
    root.tree.leaves.Perm (items.flatMap fun x => x.tree.leaves) := by
  induction next, items using combine.induct with
  | case1 => simp [combine] at built
  | case2 next only =>
      rw [combine, Option.some.injEq] at built
      simp [built]
  | case3 next a b rest ih =>
      rw [combine] at built
      refine (ih built).trans ?_
      refine ((insert_perm (a.join next b) rest).flatMap_right _).trans ?_
      simp [Item.join, Tree.leaves]

theorem combine_weight {next : Nat} {items : List (Item α)} {root : Item α}
    (built : combine next items = some root) :
    root.weight = (items.map fun x => x.weight).sum := by
  induction next, items using combine.induct with
  | case1 => simp [combine] at built
  | case2 next only =>
      rw [combine, Option.some.injEq] at built
      simp [built]
  | case3 next a b rest ih =>
      rw [combine] at built
      rw [ih built, ((insert_perm (a.join next b) rest).map _).sum_eq]
      simp [Item.join, Nat.add_assoc]

/-! Priority queues that hold the items in another arrangement. -/

structure Agenda (next : Nat) (content items : List (Item α)) : Prop where
  perm : content.Perm items
  sorted : Sorted items
  fresh : ∀ x ∈ items, x.order < next

/-- One round of a queue: its two least items leave and their join enters. -/
def MergeStep (next : Nat) (content after : List (Item α)) : Prop :=
  ∃ a b rest, content.Perm (a :: b :: rest) ∧ (∀ x ∈ b :: rest, ¬x.Before a) ∧
    (∀ x ∈ rest, ¬x.Before b) ∧ after.Perm (a.join next b :: rest)

theorem head_of_least {x : Item α} {others items : List (Item α)} (sorted : Sorted items)
    (perm : (x :: others).Perm items) (least : ∀ y ∈ others, ¬y.Before x) :
    ∃ rest, items = x :: rest ∧ others.Perm rest := by
  cases items with
  | nil => simp at perm
  | cons y rest =>
      have head : y = x := by
        by_contra different
        have later : y ∈ others :=
          (List.mem_cons.mp (perm.symm.subset (List.mem_cons_self))).resolve_left different
        have placed : x ∈ rest :=
          (List.mem_cons.mp (perm.subset (List.mem_cons_self))).resolve_left (Ne.symm different)
        exact least y later ((List.pairwise_cons.mp sorted).1 x placed)
      subst y
      exact ⟨rest, rfl, perm.cons_inv⟩

theorem join_fresh {next : Nat} {a b : Item α} {rest : List (Item α)}
    (fresh : ∀ x ∈ rest, x.order < next) :
    ∀ x ∈ insert (a.join next b) rest, x.order < next + 1 := by
  intro x member
  rcases List.mem_cons.mp ((insert_perm _ _).subset member) with rfl | later
  · exact Nat.lt_succ_self next
  · exact Nat.lt_succ_of_lt (fresh x later)

theorem Agenda.step {next : Nat} {content after items : List (Item α)}
    (agenda : Agenda next content items) (step : MergeStep next content after) :
    ∃ items', Agenda (next + 1) after items' ∧ items'.length + 1 = items.length ∧
      combine next items = combine (next + 1) items' := by
  obtain ⟨a, b, rest, parts, aLeast, bLeast, joined⟩ := step
  obtain ⟨tail, rfl, tailPerm⟩ := head_of_least agenda.sorted (parts.symm.trans agenda.perm) aLeast
  have tailSorted := (List.pairwise_cons.mp agenda.sorted).2
  obtain ⟨remaining, rfl, restPerm⟩ := head_of_least tailSorted tailPerm bLeast
  have restFresh : ∀ x ∈ remaining, x.order < next := fun x member =>
    agenda.fresh x (by simp [member])
  refine ⟨insert (a.join next b) remaining, ⟨?_, ?_, ?_⟩, by simp, by rw [combine]⟩
  · exact joined.trans ((restPerm.cons _).trans (insert_perm _ _).symm)
  · exact insert_sorted (List.pairwise_cons.mp tailSorted).2 restFresh
  · exact join_fresh restFresh

theorem MergeStep.sum_eq {next : Nat} {content after : List (Item α)}
    (step : MergeStep next content after) :
    (after.map fun x => x.weight).sum = (content.map fun x => x.weight).sum := by
  obtain ⟨a, b, rest, parts, _, _, joined⟩ := step
  rw [(joined.map _).sum_eq, (parts.map _).sum_eq]
  simp [Item.join, Nat.add_assoc]

theorem Agenda.finish {next : Nat} {root : Item α} {items : List (Item α)}
    (agenda : Agenda next [root] items) : combine next items = some root := by
  rw [← List.singleton_perm.mp agenda.perm, combine]

theorem combine_rounds {root : Item α} {motive : Nat → List (Item α) → Prop}
    (finish : ∀ next, motive next [root])
    (round : ∀ next a b rest, Sorted (a :: b :: rest) →
      combine (next + 1) (insert (a.join next b) rest) = some root →
      motive (next + 1) (insert (a.join next b) rest) → motive next (a :: b :: rest))
    {next : Nat} {items : List (Item α)} (built : combine next items = some root)
    (sorted : Sorted items) (fresh : ∀ x ∈ items, x.order < next) : motive next items := by
  induction next, items using combine.induct with
  | case1 => simp [combine] at built
  | case2 next only =>
      rw [combine, Option.some.injEq] at built
      rw [built]
      exact finish next
  | case3 next a b rest ih =>
      rw [combine] at built
      have restSorted := (List.pairwise_cons.mp (List.pairwise_cons.mp sorted).2).2
      have restFresh : ∀ x ∈ rest, x.order < next := fun x member => fresh x (by simp [member])
      exact round next a b rest sorted built
        (ih built (insert_sorted restSorted restFresh) (join_fresh restFresh))

def numbered (score : Nat → Nat) (c : Nat) : Item Nat := ⟨score c, c, .leaf c⟩

def arranged (score : Nat → Nat) : Nat → List (Item Nat)
  | 0 => []
  | count + 1 => insert (numbered score count) (arranged score count)

theorem arranged_perm (score : Nat → Nat) (count : Nat) :
    (arranged score count).Perm ((List.range count).map (numbered score)) := by
  induction count with
  | zero => exact List.Perm.refl _
  | succ count ih =>
      rw [List.range_succ, List.map_append]
      exact (insert_perm _ _).trans
        ((ih.cons _).trans (List.perm_append_singleton _ _).symm)

theorem arranged_fresh (score : Nat → Nat) (count : Nat) :
    ∀ x ∈ arranged score count, x.order < count := by
  intro x member
  have listed := (arranged_perm score count).subset member
  simp only [List.mem_map, List.mem_range] at listed
  obtain ⟨c, bound, rfl⟩ := listed
  exact bound

theorem arranged_sorted (score : Nat → Nat) (count : Nat) : Sorted (arranged score count) := by
  induction count with
  | zero => exact List.Pairwise.nil
  | succ count ih => exact insert_sorted ih (arranged_fresh score count)

theorem arranged_agenda (score : Nat → Nat) (count : Nat) :
    Agenda count ((List.range count).map (numbered score)) (arranged score count) where
  perm := (arranged_perm score count).symm
  sorted := arranged_sorted score count
  fresh := arranged_fresh score count

theorem arranged_congr {score other : Nat → Nat} {count : Nat}
    (agree : ∀ c < count, score c = other c) : arranged score count = arranged other count := by
  induction count with
  | zero => rfl
  | succ count ih =>
      rw [arranged, arranged, ih fun c bound => agree c (Nat.lt_succ_of_lt bound), numbered, numbered,
        agree count (Nat.lt_succ_self count)]

/-! Bounds on the depth of the leaves. -/

/-- A merged tree of height `h` weighs at least the Fibonacci number of `h + 1`. -/
def Grown (leafWeight : α → Nat) (tree : Tree α) : Prop :=
  tree.height = 0 ∨ Nat.fib (tree.height + 1) ≤ tree.weight leafWeight ∧
    Nat.fib tree.height ≤ tree.heavier leafWeight

def Apart (leafWeight : α → Nat) (x y : Item α) : Prop :=
  x.tree.heavier leafWeight ≤ y.weight ∧ y.tree.heavier leafWeight ≤ x.weight ∧
    0 < x.weight + y.weight

theorem Apart.symm {leafWeight : α → Nat} {x y : Item α} (apart : Apart leafWeight x y) :
    Apart leafWeight y x := by
  obtain ⟨first, second, positive⟩ := apart
  exact ⟨second, first, by omega⟩

structure Balanced (leafWeight : α → Nat) (items : List (Item α)) : Prop where
  weights : ∀ x ∈ items, x.weight = x.tree.weight leafWeight
  grown : ∀ x ∈ items, Grown leafWeight x.tree
  apart : items.Pairwise (Apart leafWeight)

theorem grown_node {leafWeight : α → Nat} {left right : Tree α}
    (leftGrown : Grown leafWeight left) (rightGrown : Grown leafWeight right)
    (leftBound : left.heavier leafWeight ≤ right.weight leafWeight)
    (rightBound : right.heavier leafWeight ≤ left.weight leafWeight)
    (positive : 0 < left.weight leafWeight + right.weight leafWeight) :
    Grown leafWeight (.node left right) := by
  -- The taller child supplies the larger Fibonacci number, its sibling the smaller one.
  have taller {tall short : Tree α} (tallGrown : Grown leafWeight tall)
      (shorter : short.height ≤ tall.height)
      (bound : tall.heavier leafWeight ≤ short.weight leafWeight)
      (sum : 0 < tall.weight leafWeight + short.weight leafWeight) :
      Nat.fib (tall.height + 2) ≤ tall.weight leafWeight + short.weight leafWeight ∧
        Nat.fib (tall.height + 1) ≤
          max (tall.weight leafWeight) (short.weight leafWeight) := by
    rcases tallGrown with flat | ⟨weightBound, childBound⟩
    · simp only [flat, Nat.zero_add, Nat.fib_one, Nat.fib_two]
      omega
    · rw [Nat.fib_add_two]
      omega
  right
  simp only [Tree.height, Tree.weight, Tree.heavier]
  rcases Nat.le_total right.height left.height with shorter | shorter
  · rw [Nat.max_eq_left shorter]
    exact taller leftGrown shorter leftBound positive
  · rw [Nat.max_eq_right shorter]
    have bounds := taller rightGrown shorter rightBound (by omega)
    rw [Nat.add_comm (left.weight leafWeight), Nat.max_comm]
    exact bounds

theorem Balanced.step {leafWeight : α → Nat} {next : Nat} {a b : Item α} {rest : List (Item α)}
    (sorted : Sorted (a :: b :: rest)) (balanced : Balanced leafWeight (a :: b :: rest)) :
    Balanced leafWeight (insert (a.join next b) rest) := by
  have aWeight := balanced.weights a (by simp)
  have bWeight := balanced.weights b (by simp)
  obtain ⟨aApart, bApart, restApart⟩ : (∀ x ∈ b :: rest, Apart leafWeight a x) ∧
      (∀ x ∈ rest, Apart leafWeight b x) ∧ rest.Pairwise (Apart leafWeight) := by
    simpa only [List.pairwise_cons] using balanced.apart
  obtain ⟨aBefore, bBefore, _⟩ : (∀ x ∈ b :: rest, a.Before x) ∧ (∀ x ∈ rest, b.Before x) ∧
      rest.Pairwise Item.Before := by
    simpa only [Sorted, List.pairwise_cons] using sorted
  have ab := aApart b (by simp)
  have joinedFirst := insert_perm (a.join next b) rest
  refine ⟨?_, ?_, ?_⟩
  · intro x member
    rcases List.mem_cons.mp (joinedFirst.subset member) with rfl | later
    · simp only [Item.join, Tree.weight, aWeight, bWeight]
    · exact balanced.weights x (by simp [later])
  · intro x member
    rcases List.mem_cons.mp (joinedFirst.subset member) with rfl | later
    · apply grown_node (balanced.grown a (by simp)) (balanced.grown b (by simp))
      · simpa [bWeight] using ab.1
      · simpa [aWeight] using ab.2.1
      · simpa [aWeight, bWeight] using ab.2.2
    · exact balanced.grown x (by simp [later])
  · rw [joinedFirst.pairwise_iff (fun apart => apart.symm), List.pairwise_cons]
    refine ⟨?_, restApart⟩
    intro x later
    have aFirst := (aBefore x (by simp [later])).weight_le
    have bFirst := (bBefore x later).weight_le
    have fromA := aApart x (by simp [later])
    refine ⟨?_, ?_, ?_⟩
    · simp only [Item.join, Tree.heavier, ← aWeight, ← bWeight]
      omega
    · have child := fromA.2.1
      simp only [Item.join]
      omega
    · have positive := ab.2.2
      simp only [Item.join]
      omega

theorem combine_balanced {leafWeight : α → Nat} {next : Nat} {items : List (Item α)}
    {root : Item α} (built : combine next items = some root) (sorted : Sorted items)
    (fresh : ∀ x ∈ items, x.order < next) (balanced : Balanced leafWeight items) :
    Balanced leafWeight [root] := by
  revert balanced
  apply @combine_rounds _ root (fun _ items => Balanced leafWeight items → Balanced leafWeight [root])
    _ _ next items built sorted fresh
  · exact fun _ final => final
  · intro next a b rest sortedNow _ ih balancedNow
    exact ih (balancedNow.step sortedNow)

theorem combine_height_lt {leafWeight : α → Nat} {next bound : Nat} {items : List (Item α)}
    {root : Item α} (built : combine next items = some root) (sorted : Sorted items)
    (fresh : ∀ x ∈ items, x.order < next) (balanced : Balanced leafWeight items)
    (light : root.weight < Nat.fib (bound + 1)) (positive : 0 < bound) :
    root.tree.height < bound := by
  have final := combine_balanced built sorted fresh balanced
  rcases final.grown root (by simp) with flat | ⟨heavy, _⟩
  · omega
  · by_contra tall
    have monotone : Nat.fib (bound + 1) ≤ Nat.fib (root.tree.height + 1) :=
      Nat.fib_mono (by omega)
    have weightEq := final.weights root (by simp)
    omega

theorem Tree.weight_le_twice_heavier {leafWeight : α → Nat} (left right : Tree α) :
    (node left right).weight leafWeight ≤ 2 * (node left right).heavier leafWeight := by
  simp only [weight, heavier]
  omega

/-- A leaf beside an inner sibling would carry a third of the weight of both. -/
theorem inner_of_spread {leafWeight : α → Nat} {x y : Item α} (apart : Apart leafWeight x y)
    (xWeight : x.weight = x.tree.weight leafWeight) (yWeight : y.weight = y.tree.weight leafWeight)
    (xSpread : ∀ label, x.tree = .leaf label → 3 * x.weight < x.weight + y.weight)
    (ySpread : ∀ label, y.tree = .leaf label → 3 * y.weight < x.weight + y.weight) :
    ∃ a b c d, Tree.node x.tree y.tree = .node (.node a b) (.node c d) := by
  cases xTree : x.tree with
  | leaf label =>
      have light := xSpread label xTree
      cases yTree : y.tree with
      | leaf other =>
          have lightToo := ySpread other yTree
          omega
      | node left right =>
          have double := @Tree.weight_le_twice_heavier _ leafWeight left right
          have child := apart.2.1
          rw [yTree] at yWeight child
          omega
  | node xLeft xRight =>
      cases yTree : y.tree with
      | leaf other =>
          have light := ySpread other yTree
          have double := @Tree.weight_le_twice_heavier _ leafWeight xLeft xRight
          have child := apart.1
          rw [xTree] at xWeight child
          omega
      | node yLeft yRight => exact ⟨xLeft, xRight, yLeft, yRight, rfl⟩

/-- When no leaf carries a third of the total weight, both children of the root are inner. -/
theorem combine_inner_children {leafWeight : α → Nat} {next : Nat} {items : List (Item α)}
    {root : Item α} (built : combine next items = some root) (sorted : Sorted items)
    (fresh : ∀ x ∈ items, x.order < next) (balanced : Balanced leafWeight items)
    (several : 2 ≤ items.length)
    (spread : ∀ x ∈ items, ∀ label, x.tree = .leaf label →
      3 * x.weight < (items.map fun y => y.weight).sum) :
    ∃ a b c d, root.tree = .node (.node a b) (.node c d) := by
  revert balanced several spread
  apply @combine_rounds _ root (fun _ items => Balanced leafWeight items → 2 ≤ items.length →
      (∀ x ∈ items, ∀ label, x.tree = .leaf label →
        3 * x.weight < (items.map fun y => y.weight).sum) →
      ∃ a b c d, root.tree = .node (.node a b) (.node c d)) _ _ next items built sorted fresh
  · intro next balanced several
    simp at several
  · intro next a b rest sorted built ih balanced _ spread
    cases rest with
    | cons c others =>
        refine ih (balanced.step sorted) (by simp) ?_
        intro x member label isLeaf
        have joinedFirst := insert_perm (a.join next b) (c :: others)
        rw [(joinedFirst.map _).sum_eq]
        rcases List.mem_cons.mp (joinedFirst.subset member) with rfl | later
        · simp [Item.join] at isLeaf
        · have light := spread x (by simp [List.mem_cons.mp later]) label isLeaf
          simpa [Item.join, Nat.add_assoc] using light
    | nil =>
        rw [insert, combine, Option.some.injEq] at built
        rw [← built]
        refine inner_of_spread ((List.pairwise_cons.mp balanced.apart).1 b (by simp))
          (balanced.weights a (by simp)) (balanced.weights b (by simp)) ?_ ?_
        · simpa using spread a (by simp)
        · simpa using spread b (by simp)

/-! Trees stored as cells whose children have smaller addresses. -/

inductive Cell (α : Type) where
  | leaf (label : α)
  | branch (left right : Nat)

/-- The tree below an address. A child with a larger address is not followed. -/
def treeAt [Inhabited α] (cells : Nat → Cell α) (address : Nat) : Tree α :=
  match cells address with
  | .leaf label => .leaf label
  | .branch left right =>
      if left < address ∧ right < address then
        .node (treeAt cells left) (treeAt cells right)
      else .leaf default
termination_by address
decreasing_by all_goals omega

theorem treeAt_leaf [Inhabited α] {cells : Nat → Cell α} {address : Nat} {label : α}
    (found : cells address = .leaf label) : treeAt cells address = .leaf label := by
  rw [treeAt, found]

theorem treeAt_branch [Inhabited α] {cells : Nat → Cell α} {address left right : Nat}
    (found : cells address = .branch left right) (leftBound : left < address)
    (rightBound : right < address) :
    treeAt cells address = .node (treeAt cells left) (treeAt cells right) := by
  rw [treeAt, found]
  simp only [leftBound, rightBound, and_self, ↓reduceIte]

theorem treeAt_congr [Inhabited α] {cells others : Nat → Cell α} {address : Nat}
    (agree : ∀ i ≤ address, cells i = others i) : treeAt cells address = treeAt others address := by
  induction address using Nat.strongRecOn with
  | ind address ih =>
      rw [treeAt, treeAt.eq_def others, agree address (Nat.le_refl _)]
      split
      · rfl
      · split
        · rename_i left right found below
          rw [ih left below.1 fun i bound => agree i (by omega),
            ih right below.2 fun i bound => agree i (by omega)]
        · rfl

theorem treeAt_append [Inhabited α] {Node : Type} (cell : Node → Cell α) (blank : Node)
    {nodes : List Node} (node : Node) {address : Nat} (bound : address < nodes.length) :
    treeAt (fun k => cell ((nodes ++ [node]).getD k blank)) address =
      treeAt (fun k => cell (nodes.getD k blank)) address := by
  apply treeAt_congr
  intro k below
  rw [List.getD_append _ _ _ _ (by omega)]

theorem forall_getD_append {Node : Type} (fits : Nat → Node → Prop) {blank node : Node}
    {nodes : List Node} (stored : ∀ i < nodes.length, fits i (nodes.getD i blank))
    (last : fits nodes.length node) :
    ∀ i < (nodes ++ [node]).length, fits i ((nodes ++ [node]).getD i blank) := by
  intro i bound
  rw [List.length_append, List.length_singleton] at bound
  by_cases old : i < nodes.length
  · rw [List.getD_append _ _ _ _ old]
    exact stored i old
  · have place : i = nodes.length := by omega
    rw [place, List.getD_append_right _ _ _ _ (Nat.le_refl _), Nat.sub_self]
    exact last

end HuffmanTree
