import CudaOpenMp.Library.HuffmanTree

/-!
Merging with two queues instead of a heap: sorted leaves wait in the first one, and merged items,
which come out sorted by themselves, in the second one.
-/

namespace HuffmanTree

variable {α : Type}

structure Queues (α : Type) where
  leaves : List (Item α)
  merged : List (Item α)

namespace Queues

def content (q : Queues α) : List (Item α) := q.leaves ++ q.merged

/-- The lighter one of the two heads; the leaf when both weigh the same. -/
def pop : Queues α → Option (Item α × Queues α)
  | ⟨x :: leaves, y :: merged⟩ =>
      if x.weight ≤ y.weight then some (x, ⟨leaves, y :: merged⟩)
      else some (y, ⟨x :: leaves, merged⟩)
  | ⟨x :: leaves, []⟩ => some (x, ⟨leaves, []⟩)
  | ⟨[], y :: merged⟩ => some (y, ⟨[], merged⟩)
  | ⟨[], []⟩ => none

def push (q : Queues α) (item : Item α) : Queues α := ⟨q.leaves, q.merged ++ [item]⟩

structure Ready (next : Nat) (q : Queues α) : Prop where
  leavesSorted : Sorted q.leaves
  mergedSorted : Sorted q.merged
  older : ∀ x ∈ q.leaves, ∀ y ∈ q.merged, x.order < y.order
  fresh : ∀ y ∈ q.content, y.order < next
  light : ∀ y ∈ q.merged, q.content.Pairwise fun u v => y.weight ≤ u.weight + v.weight

theorem Ready.start {next : Nat} {leaves : List (Item α)} (sorted : Sorted leaves)
    (fresh : ∀ x ∈ leaves, x.order < next) : Ready next ⟨leaves, []⟩ where
  leavesSorted := sorted
  mergedSorted := List.Pairwise.nil
  older := by simp
  fresh := by simpa [content] using fresh
  light := by simp

/-- What is popped is a least item, and the others keep waiting. -/
structure Popped (next : Nat) (q : Queues α) (x : Item α) (r : Queues α) : Prop where
  ready : Ready next r
  parts : q.content.Perm (x :: r.content)
  least : ∀ y ∈ r.content, ¬y.Before x
  leaves : ∀ y ∈ r.leaves, y ∈ q.leaves
  merged : ∀ y ∈ r.merged, y ∈ q.merged

theorem light_symm (weight : Nat) {u v : Item α} (bound : weight ≤ u.weight + v.weight) :
    weight ≤ v.weight + u.weight := by
  omega

theorem Ready.shrink {next : Nat} {q r : Queues α} {x : Item α} (ready : Ready next q)
    (leavesSorted : Sorted r.leaves) (mergedSorted : Sorted r.merged)
    (parts : q.content.Perm (x :: r.content)) (leaves : ∀ y ∈ r.leaves, y ∈ q.leaves)
    (merged : ∀ y ∈ r.merged, y ∈ q.merged) (least : ∀ y ∈ r.content, ¬y.Before x) :
    Popped next q x r := by
  refine ⟨⟨leavesSorted, mergedSorted, ?_, ?_, ?_⟩, parts, least, leaves, merged⟩
  · intro y leaf z inner
    exact ready.older y (leaves y leaf) z (merged z inner)
  · intro y member
    exact ready.fresh y (parts.symm.subset (List.mem_cons_of_mem _ member))
  · intro y member
    have whole := ready.light y (merged y member)
    rw [parts.pairwise_iff (fun bound => light_symm _ bound)] at whole
    exact (List.pairwise_cons.mp whole).2

theorem Ready.pop {next : Nat} {q : Queues α} (ready : Ready next q)
    (inhabited : 0 < q.content.length) : ∃ x r, q.pop = some (x, r) ∧ Popped next q x r := by
  obtain ⟨leaves, merged⟩ := q
  cases leaves with
  | nil =>
      cases merged with
      | nil => simp [content] at inhabited
      | cons y merged =>
          have sorted := List.pairwise_cons.mp ready.mergedSorted
          refine ⟨y, ⟨[], merged⟩, rfl, ready.shrink ready.leavesSorted sorted.2 (by simp [content])
            (by simp) (fun z later => List.mem_cons_of_mem _ later) ?_⟩
          intro z later
          exact (sorted.1 z (by simpa [content] using later)).asymm
  | cons x leaves =>
      have leavesSorted := List.pairwise_cons.mp ready.leavesSorted
      cases merged with
      | nil =>
          refine ⟨x, ⟨leaves, []⟩, rfl, ready.shrink leavesSorted.2 ready.mergedSorted
            (by simp [content]) (fun z later => List.mem_cons_of_mem _ later) (by simp) ?_⟩
          intro z later
          exact (leavesSorted.1 z (by simpa [content] using later)).asymm
      | cons y merged =>
          have mergedSorted := List.pairwise_cons.mp ready.mergedSorted
          have created := ready.older x List.mem_cons_self y List.mem_cons_self
          by_cases lighter : x.weight ≤ y.weight
          · -- The leaf comes first, also among equal weights, since leaves are older.
            refine ⟨x, ⟨leaves, y :: merged⟩, by simp [Queues.pop, lighter],
              ready.shrink leavesSorted.2 ready.mergedSorted (by simp [content])
                (fun z later => List.mem_cons_of_mem _ later) (fun z member => member) ?_⟩
            intro z later
            have first : x.Before y := by
              simp only [Item.Before]
              omega
            rcases List.mem_append.mp later with leaf | inner
            · exact (leavesSorted.1 z leaf).asymm
            · rcases List.mem_cons.mp inner with rfl | behind
              · exact first.asymm
              · exact (first.trans (mergedSorted.1 z behind)).asymm
          · refine ⟨y, ⟨x :: leaves, merged⟩, by simp [Queues.pop, lighter],
              ready.shrink ready.leavesSorted mergedSorted.2 ?_ (fun z member => member)
                (fun z later => List.mem_cons_of_mem _ later) ?_⟩
            · exact List.perm_middle
            · intro z later
              have first : y.Before x := by
                simp only [Item.Before]
                omega
              rcases List.mem_append.mp later with leaf | inner
              · rcases List.mem_cons.mp leaf with rfl | behind
                · exact first.asymm
                · exact (first.trans (leavesSorted.1 z behind)).asymm
              · exact (mergedSorted.1 z inner).asymm

theorem Ready.push {next : Nat} {u : Queues α} {a b : Item α} (ready : Ready next u)
    (least : ∀ x ∈ u.content, a.weight ≤ x.weight ∧ b.weight ≤ x.weight)
    (older : ∀ y ∈ u.merged, y.weight ≤ a.weight + b.weight) :
    Ready (next + 1) (u.push (a.join next b)) := by
  have content : (u.push (a.join next b)).content = u.content ++ [a.join next b] := by
    simp [Queues.push, Queues.content]
  have joinWeight : (a.join next b).weight = a.weight + b.weight := rfl
  constructor
  case leavesSorted => exact ready.leavesSorted
  case mergedSorted =>
    refine List.pairwise_append.mpr ⟨ready.mergedSorted, List.pairwise_singleton _ _, ?_⟩
    intro y member z last
    have lighter := older y member
    have created := ready.fresh y (List.mem_append_right _ member)
    rw [List.mem_singleton.mp last]
    simp only [Item.Before, Item.join]
    omega
  case older =>
    intro x leaf y member
    rcases List.mem_append.mp member with old | new
    · exact ready.older x leaf y old
    · rw [List.mem_singleton.mp new]
      exact ready.fresh x (List.mem_append_left _ leaf)
  case fresh =>
    rw [content]
    intro y member
    rcases List.mem_append.mp member with old | new
    · exact Nat.lt_succ_of_lt (ready.fresh y old)
    · rw [List.mem_singleton.mp new]
      exact Nat.lt_succ_self next
  case light =>
    intro y member
    rw [content, List.pairwise_append]
    rcases List.mem_append.mp member with old | new
    · refine ⟨ready.light y old, List.pairwise_singleton _ _, ?_⟩
      intro x _ z last
      have lighter := older y old
      rw [List.mem_singleton.mp last, joinWeight]
      omega
    · rw [List.mem_singleton.mp new, joinWeight]
      refine ⟨?_, List.pairwise_singleton _ _, ?_⟩
      · apply List.pairwise_of_forall_mem_list
        intro u uMember v vMember
        have first := least u uMember
        have second := least v vMember
        omega
      · intro x _ z last
        rw [List.mem_singleton.mp last, joinWeight]
        omega

theorem Ready.merge {next : Nat} {q : Queues α} (ready : Ready next q)
    (several : 1 < q.content.length) :
    ∃ a t b u, q.pop = some (a, t) ∧ t.pop = some (b, u) ∧
      q.content.Perm (a :: b :: u.content) ∧ Ready (next + 1) (u.push (a.join next b)) ∧
      MergeStep next q.content (u.push (a.join next b)).content := by
  obtain ⟨a, t, popA, outA⟩ := ready.pop (by omega)
  have size := outA.parts.length_eq
  rw [List.length_cons] at size
  obtain ⟨b, u, popB, outB⟩ := outA.ready.pop (by omega)
  have parts : q.content.Perm (a :: b :: u.content) := outA.parts.trans (outB.parts.cons _)
  have least : ∀ x ∈ u.content, a.weight ≤ x.weight ∧ b.weight ≤ x.weight := by
    intro x member
    have notFirst := outA.least x (outB.parts.symm.subset (List.mem_cons_of_mem _ member))
    have notSecond := outB.least x member
    simp only [Item.Before] at notFirst notSecond
    omega
  have older : ∀ y ∈ u.merged, y.weight ≤ a.weight + b.weight := by
    intro y member
    have whole := ready.light y (outA.merged y (outB.merged y member))
    rw [parts.pairwise_iff (fun bound => light_symm _ bound)] at whole
    exact (List.pairwise_cons.mp whole).1 b List.mem_cons_self
  refine ⟨a, t, b, u, popA, popB, parts, outB.ready.push least older, a, b, u.content, parts, ?_,
    outB.least, ?_⟩
  · intro x member
    exact outA.least x (outB.parts.symm.subset member)
  · have behind : (u.push (a.join next b)).content = u.content ++ [a.join next b] := by
      simp [Queues.push, Queues.content]
    rw [behind]
    exact List.perm_append_singleton _ _

end Queues

end HuffmanTree
