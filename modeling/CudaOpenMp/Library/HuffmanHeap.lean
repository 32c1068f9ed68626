import CudaOpenMp.Library.HuffmanTree
import CudaOpenMp.Library.ListHeap

/-! Binary heaps whose cells stand for the items of a code tree. -/

namespace HuffmanTree

variable {α β : Type} {less : α → α → Bool} {item : α → Item β} {heap : List α}

structure Queue (less : α → α → Bool) (item : α → Item β) (heap : List α) : Prop where
  order : ListHeap.WeakOrder less
  ordered : ListHeap.Ordered less heap
  agree : ∀ x ∈ heap, ∀ y ∈ heap, less x y = true ↔ (item x).Before (item y)

theorem Queue.pop {rest : List α} {top : α} (queue : Queue less item heap)
    (popped : ListHeap.pop less heap = some (top, rest)) :
    Queue less item rest ∧ (∀ y ∈ rest, ¬(item y).Before (item top)) ∧ top ∈ heap := by
  have parts := ListHeap.pop_perm popped
  have kept : ∀ y ∈ rest, y ∈ heap := fun y member => parts.subset (by simp [member])
  have root : top ∈ heap := parts.subset (by simp)
  refine ⟨⟨queue.order, ListHeap.pop_ordered queue.order queue.ordered popped, ?_⟩, ?_, root⟩
  · intro x xMember y yMember
    exact queue.agree x (kept x xMember) y (kept y yMember)
  · intro y member before
    have below := (queue.agree y (kept y member) top root).mpr before
    rw [ListHeap.pop_least queue.order queue.ordered popped y (kept y member)] at below
    simp at below

theorem Queue.merge {afterA afterB : List α} {a b : α} {next : Nat} {after : List (Item β)}
    (queue : Queue less item heap) (first : ListHeap.pop less heap = some (a, afterA))
    (second : ListHeap.pop less afterA = some (b, afterB))
    (joined : after.Perm ((item a).join next (item b) :: afterB.map item)) :
    MergeStep next (heap.map item) after := by
  obtain ⟨queueA, leastA, _⟩ := queue.pop first
  obtain ⟨_, leastB, _⟩ := queueA.pop second
  have partsA := ListHeap.pop_perm first
  have partsB := ListHeap.pop_perm second
  refine ⟨item a, item b, afterB.map item, ?_, ?_, ?_, joined⟩
  · exact (partsA.symm.trans (partsB.symm.cons a)).map item
  · intro x member
    have listed : x ∈ (b :: afterB).map item := by simpa using member
    obtain ⟨y, belongs, rfl⟩ := List.mem_map.mp listed
    exact leastA y (partsB.subset belongs)
  · intro x member
    obtain ⟨y, belongs, rfl⟩ := List.mem_map.mp member
    exact leastB y belongs

end HuffmanTree
