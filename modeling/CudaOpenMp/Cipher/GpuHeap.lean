import CudaOpenMp.Cipher.GpuMatches
import CudaOpenMp.Library.PriorityQueue
import Mathlib.Data.Prod.Lex

/-!
The heap of `brute_force_gpu.cu` under any sequence of calls. Its functions check every access
against the cells in use, and the loop of `heap_pop` may run out of rounds; neither happens.
-/

namespace CudaOpenMp.GpuMatches

open Gpu (HeapElem elemLess elemLess_order)
open PriorityQueue (Call Serves Admissible Refines pushed)

def Precedes (x y : HeapElem) : Prop := toLex (x.score, x.order) < toLex (y.score, y.order)

def Accepts (bag : Multiset HeapElem) (e : HeapElem) : Prop :=
  bag.card < 128 ∧ ∀ x ∈ bag, x.order ≠ e.order

/-- Calls of `heap_push` and `heap_pop` on an empty heap: the elements popped and the heap. -/
def heapCalls (calls : List (Call HeapElem)) : Option (List HeapElem × List HeapElem) :=
  PriorityQueue.run heapPush heapPop calls []

theorem elemLess_iff (x y : HeapElem) : elemLess x y = true ↔ Precedes x y := by
  simp [elemLess, Precedes, Prod.Lex.toLex_lt_toLex]

structure HeapHolds (heap : List HeapElem) (bag : Multiset HeapElem) : Prop where
  content : (heap : Multiset HeapElem) = bag
  ordered : ListHeap.Ordered elemLess heap
  distinct : (bag.map HeapElem.order).Nodup

theorem heap_refines : Refines Precedes Accepts heapPush heapPop HeapHolds where
  push := by
    intro heap bag e holds accepted
    obtain ⟨rfl, ordered, distinct⟩ := holds
    refine ⟨_, heapPush_eq accepted.1 e, ?_, ListHeap.push_ordered elemLess_order e ordered, ?_⟩
    · exact Multiset.coe_eq_coe.mpr (ListHeap.push_perm elemLess heap e)
    · rw [Multiset.map_cons, Multiset.nodup_cons]
      refine ⟨?_, distinct⟩
      intro member
      obtain ⟨x, belongs, same⟩ := Multiset.mem_map.mp member
      exact accepted.2 x belongs same
  pop := by
    intro heap bag holds inhabited
    obtain ⟨rfl, ordered, distinct⟩ := holds
    have size : 0 < heap.length := List.length_pos_iff.mpr fun empty => inhabited (by rw [empty]; rfl)
    obtain ⟨top, rest, popped⟩ := ListHeap.exists_pop elemLess size
    have parts : (heap : Multiset HeapElem) = top ::ₘ (rest : Multiset HeapElem) :=
      (Multiset.coe_eq_coe.mpr (ListHeap.pop_perm popped)).symm
    rw [parts, Multiset.map_cons, Multiset.nodup_cons] at distinct
    refine ⟨top, rest, rest, by rw [heapPop_eq size, popped], parts, ?_, rfl,
      ListHeap.pop_ordered elemLess_order ordered popped, distinct.2⟩
    intro y member
    have above := ListHeap.pop_least elemLess_order ordered popped y
      (by rw [← Multiset.mem_coe, parts]; exact Multiset.mem_cons_of_mem member)
    have different : top.order ≠ y.order := fun same =>
      distinct.1 (Multiset.mem_map.mpr ⟨y, member, same.symm⟩)
    rw [← Bool.not_eq_true, elemLess_iff, Precedes, not_lt] at above
    refine lt_of_le_of_ne above ?_
    intro same
    exact different (congrArg (fun p => (ofLex p).2) same)

theorem calls_served {calls : List (Call HeapElem)} (admissible : Admissible Precedes Accepts 0 calls) :
    ∃ popped heap, heapCalls calls = some (popped, heap) ∧ Serves Precedes 0 calls popped heap ∧
      pushed calls = popped + heap := by
  have empty : HeapHolds [] 0 := ⟨rfl, fun _ _ => rfl, Multiset.nodup_zero⟩
  obtain ⟨popped, heap, bag, ran, holds, serves⟩ := heap_refines.run empty admissible
  have balance := serves.balance
  rw [Multiset.zero_add] at balance
  rw [← holds.content] at serves balance
  exact ⟨popped, heap, ran, serves, balance⟩

def lowerSecond : List (Call HeapElem) := [.push ⟨5, 0, 0⟩, .push ⟨3, 1, 1⟩, .pop, .pop]

theorem lowerSecond_admissible : Admissible Precedes Accepts 0 lowerSecond := by
  refine ⟨⟨by decide, by simp⟩, ⟨by decide, by simp⟩, by simp, ?_⟩
  intro top rest parts _
  refine ⟨?_, fun _ _ _ _ => trivial⟩
  rintro rfl
  have sizes := congrArg Multiset.card parts
  simp at sizes

theorem calls_served_lowerSecond :
    ∃ popped heap, heapCalls lowerSecond = some (popped, heap) ∧
      Serves Precedes 0 lowerSecond popped heap ∧ pushed lowerSecond = popped + heap :=
  calls_served lowerSecond_admissible

end CudaOpenMp.GpuMatches
