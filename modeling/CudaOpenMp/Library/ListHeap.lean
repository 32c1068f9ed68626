import Mathlib.Data.List.Perm.Basic
import Mathlib.Logic.Equiv.Basic
import Mathlib.Tactic.Common

/-!
Array binary heaps over an arbitrary strict weak order, kept as level-order lists.
Both sifts exchange cells along one ancestor path, so the contents never change.
-/

namespace ListHeap

variable {α : Type}

def swap (cells : List α) (i j : Nat) : List α :=
  match cells[i]?, cells[j]? with
  | some x, some y => (cells.set i y).set j x
  | _, _ => cells

@[simp] theorem swap_length (cells : List α) (i j : Nat) : (swap cells i j).length = cells.length := by
  unfold swap
  split <;> simp

theorem swap_eq_set {cells : List α} {i j : Nat} (iBound : i < cells.length)
    (jBound : j < cells.length) : swap cells i j = (cells.set i cells[j]).set j cells[i] := by
  simp [swap, iBound, jBound]

theorem swap_getElem? {cells : List α} {i j : Nat} (iBound : i < cells.length)
    (jBound : j < cells.length) (k : Nat) :
    (swap cells i j)[k]? = cells[Equiv.swap i j k]? := by
  rw [swap_eq_set iBound jBound, Equiv.swap_apply_def]
  by_cases atJ : j = k
  · subst k
    by_cases same : j = i
    · subst i
      simp [jBound]
    · simp [same, jBound, iBound]
  · by_cases atI : i = k
    · subst k
      rw [List.getElem?_set_ne atJ]
      simp [iBound, jBound]
    · rw [List.getElem?_set_ne atJ, List.getElem?_set_ne atI, if_neg (Ne.symm atI),
        if_neg (Ne.symm atJ)]

theorem swap_perm (cells : List α) (i j : Nat) : (swap cells i j).Perm cells := by
  unfold swap
  split
  · rename_i x y atI atJ
    obtain ⟨iBound, rfl⟩ := List.getElem?_eq_some_iff.mp atI
    obtain ⟨jBound, rfl⟩ := List.getElem?_eq_some_iff.mp atJ
    exact List.set_set_perm iBound jBound
  · exact List.Perm.refl _

/-- What the sifts need of the comparison: asymmetry and transitivity of its negation. -/
structure WeakOrder (less : α → α → Bool) : Prop where
  asymm : ∀ x y, less x y = true → less y x = false
  negTrans : ∀ x y z, less x y = false → less y z = false → less x z = false

theorem WeakOrder.irrefl {less : α → α → Bool} (order : WeakOrder less) (x : α) :
    less x x = false := by
  by_contra holds
  have yes : less x x = true := by simpa using holds
  rw [order.asymm x x yes] at yes
  simp at yes

def lessAt (less : α → α → Bool) (heap : List α) (i j : Nat) : Bool :=
  match heap[i]?, heap[j]? with
  | some x, some y => less x y
  | _, _ => false

def siftUp (less : α → α → Bool) (heap : List α) (i : Nat) : List α :=
  if i = 0 then heap
  else if lessAt less heap i ((i - 1) / 2) then
    siftUp less (swap heap i ((i - 1) / 2)) ((i - 1) / 2)
  else heap
termination_by i

def smallest (less : α → α → Bool) (heap : List α) (i : Nat) : Nat :=
  let best := if 2 * i + 1 < heap.length && lessAt less heap (2 * i + 1) i then 2 * i + 1 else i
  if 2 * i + 2 < heap.length && lessAt less heap (2 * i + 2) best then 2 * i + 2 else best

theorem smallest_cases (less : α → α → Bool) (heap : List α) (i : Nat) :
    smallest less heap i = i ∨
      (smallest less heap i = 2 * i + 1 ∨ smallest less heap i = 2 * i + 2) ∧
        smallest less heap i < heap.length := by
  simp only [smallest, Bool.and_eq_true, decide_eq_true_eq]
  generalize firstEq : (if 2 * i + 1 < heap.length ∧ lessAt less heap (2 * i + 1) i = true
    then 2 * i + 1 else i) = first
  have firstCases : first = i ∨ first = 2 * i + 1 ∧ first < heap.length := by
    split at firstEq
    · rename_i left
      exact Or.inr ⟨firstEq.symm, firstEq ▸ left.1⟩
    · exact Or.inl firstEq.symm
  split
  · rename_i right
    exact Or.inr ⟨Or.inr rfl, right.1⟩
  · rcases firstCases with same | ⟨same, bound⟩
    · exact Or.inl same
    · exact Or.inr ⟨Or.inl same, bound⟩

def siftDown (less : α → α → Bool) (heap : List α) (i : Nat) : List α :=
  if smallest less heap i = i then heap
  else siftDown less (swap heap i (smallest less heap i)) (smallest less heap i)
termination_by heap.length - i
decreasing_by
  rename_i moved
  have place := (smallest_cases less heap i).resolve_left moved
  simp only [swap_length]
  omega

def push (less : α → α → Bool) (heap : List α) (x : α) : List α :=
  siftUp less (heap ++ [x]) heap.length

/-- The root, and the heap with its last cell moved to the root and sifted down. -/
def pop (less : α → α → Bool) (heap : List α) : Option (α × List α) :=
  match heap.head?, heap.getLast? with
  | some top, some last => some (top, siftDown less (heap.set 0 last).dropLast 0)
  | _, _ => none

theorem siftUp_perm (less : α → α → Bool) (heap : List α) (i : Nat) :
    (siftUp less heap i).Perm heap := by
  induction heap, i using siftUp.induct less with
  | case1 heap => simp [siftUp]
  | case2 heap i inner below ih =>
      rw [siftUp, if_neg inner, if_pos below]
      exact ih.trans (swap_perm heap _ _)
  | case3 heap i inner above =>
      rw [siftUp, if_neg inner, if_neg above]

theorem siftDown_perm (less : α → α → Bool) (heap : List α) (i : Nat) :
    (siftDown less heap i).Perm heap := by
  induction heap, i using siftDown.induct less with
  | case1 heap i stop => rw [siftDown, if_pos stop]
  | case2 heap i moved ih =>
      rw [siftDown, if_neg moved]
      exact ih.trans (swap_perm heap _ _)

theorem push_perm (less : α → α → Bool) (heap : List α) (x : α) :
    (push less heap x).Perm (x :: heap) :=
  (siftUp_perm less _ _).trans (List.perm_append_singleton x heap)

@[simp] theorem push_length (less : α → α → Bool) (heap : List α) (x : α) :
    (push less heap x).length = heap.length + 1 := by
  simpa using (push_perm less heap x).length_eq

theorem replaceRoot_perm (top last : α) (rest : List α)
    (atEnd : (top :: rest).getLast? = some last) :
    (top :: ((top :: rest).set 0 last).dropLast).Perm (top :: rest) := by
  refine List.Perm.cons top ?_
  rcases List.eq_nil_or_concat rest with rfl | ⟨front, final, rfl⟩
  · simp
  · rw [List.concat_eq_append] at atEnd ⊢
    rw [← List.cons_append, List.getLast?_append, List.getLast?_singleton] at atEnd
    have same : final = last := by simpa using atEnd
    subst final
    have shape : ((top :: (front ++ [last])).set 0 last).dropLast = last :: front := by
      rw [List.set_cons_zero, ← List.cons_append, List.dropLast_concat]
    rw [shape]
    exact (List.perm_append_singleton last front).symm

theorem pop_cases {less : α → α → Bool} {heap rest : List α} {top : α}
    (popped : pop less heap = some (top, rest)) :
    ∃ others last, heap = top :: others ∧ (top :: others).getLast? = some last ∧
      rest = siftDown less ((top :: others).set 0 last).dropLast 0 := by
  cases heap with
  | nil => simp [pop] at popped
  | cons first others =>
      cases atEnd : (first :: others).getLast? with
      | none => simp at atEnd
      | some last =>
          simp only [pop, List.head?_cons, atEnd, Option.some.injEq, Prod.mk.injEq] at popped
          obtain ⟨rfl, rfl⟩ := popped
          exact ⟨others, last, rfl, atEnd, rfl⟩

theorem pop_perm {less : α → α → Bool} {heap rest : List α} {top : α}
    (popped : pop less heap = some (top, rest)) : (top :: rest).Perm heap := by
  obtain ⟨others, last, rfl, atEnd, rfl⟩ := pop_cases popped
  exact ((siftDown_perm less _ 0).cons top).trans (replaceRoot_perm top last others atEnd)

theorem pop_length {less : α → α → Bool} {heap rest : List α} {top : α}
    (popped : pop less heap = some (top, rest)) : rest.length + 1 = heap.length := by
  simpa using (pop_perm popped).length_eq

theorem pop_head {less : α → α → Bool} {heap rest : List α} {top : α}
    (popped : pop less heap = some (top, rest)) : heap[0]? = some top := by
  obtain ⟨others, last, rfl, -, -⟩ := pop_cases popped
  rfl

theorem exists_pop (less : α → α → Bool) {heap : List α} (inhabited : 0 < heap.length) :
    ∃ top rest, pop less heap = some (top, rest) := by
  cases heap with
  | nil => simp at inhabited
  | cons first others =>
      cases atEnd : (first :: others).getLast? with
      | none => simp at atEnd
      | some last =>
          refine ⟨first, siftDown less ((first :: others).set 0 last).dropLast 0, ?_⟩
          simp only [pop, List.head?_cons, atEnd]

/-! The order carried by the parent links. -/

def Ordered (less : α → α → Bool) (heap : List α) : Prop :=
  ∀ i, 0 < i → lessAt less heap i ((i - 1) / 2) = false

theorem Ordered.congr {less other : α → α → Bool} {heap : List α} (ordered : Ordered less heap)
    (agree : ∀ x ∈ heap, ∀ y ∈ heap, less x y = other x y) : Ordered other heap := by
  intro i positive
  have link := ordered i positive
  simp only [lessAt] at link ⊢
  cases child : heap[i]? with
  | none => rfl
  | some x =>
      cases parent : heap[(i - 1) / 2]? with
      | none => rfl
      | some y =>
          rw [child, parent] at link
          simpa [← agree x (List.mem_of_getElem? child) y (List.mem_of_getElem? parent)] using link

theorem lessAt_swap (less : α → α → Bool) {heap : List α} {i j : Nat} (iBound : i < heap.length)
    (jBound : j < heap.length) (a b : Nat) :
    lessAt less (swap heap i j) a b = lessAt less heap (Equiv.swap i j a) (Equiv.swap i j b) := by
  simp only [lessAt, swap_getElem? iBound jBound]

theorem lessAt_bounds {less : α → α → Bool} {heap : List α} {i j : Nat}
    (below : lessAt less heap i j = true) : i < heap.length ∧ j < heap.length := by
  simp only [lessAt] at below
  split at below
  · rename_i x y atI atJ
    exact ⟨(List.getElem?_eq_some_iff.mp atI).1, (List.getElem?_eq_some_iff.mp atJ).1⟩
  · simp at below

theorem lessAt_asymm {less : α → α → Bool} (order : WeakOrder less) {heap : List α} {i j : Nat}
    (below : lessAt less heap i j = true) : lessAt less heap j i = false := by
  simp only [lessAt] at below ⊢
  split at below
  · rename_i x y atI atJ
    simpa only [atI, atJ] using order.asymm x y below
  · simp at below

theorem lessAt_trans {less : α → α → Bool} (order : WeakOrder less) {heap : List α} {i j k : Nat}
    (jBound : j < heap.length) (first : lessAt less heap i j = false)
    (second : lessAt less heap j k = false) : lessAt less heap i k = false := by
  obtain ⟨y, atJ⟩ : ∃ y, heap[j]? = some y := ⟨heap[j], by simp [jBound]⟩
  simp only [lessAt, atJ] at first second ⊢
  cases atI : heap[i]? with
  | none => rfl
  | some x =>
      cases atK : heap[k]? with
      | none => rfl
      | some z =>
          simp only [atI, atK] at first second
          exact order.negTrans x y z first second

/-- Only the link from `i` to its parent may be out of order. -/
structure UpReady (less : α → α → Bool) (heap : List α) (i : Nat) : Prop where
  except : ∀ k, 0 < k → k ≠ i → lessAt less heap k ((k - 1) / 2) = false
  grand : ∀ k, 0 < k → (k - 1) / 2 = i → 0 < i → lessAt less heap k ((i - 1) / 2) = false

theorem UpReady.step {less : α → α → Bool} (order : WeakOrder less) {heap : List α} {i : Nat}
    (ready : UpReady less heap i) (inner : i ≠ 0)
    (below : lessAt less heap i ((i - 1) / 2) = true) :
    UpReady less (swap heap i ((i - 1) / 2)) ((i - 1) / 2) := by
  obtain ⟨iBound, parentBound⟩ := lessAt_bounds below
  generalize parentEq : (i - 1) / 2 = parent at below parentBound ⊢
  have above : lessAt less heap parent i = false := lessAt_asymm order below
  have parentBelow : parent < i := by omega
  constructor
  · intro k positive notParent
    rw [lessAt_swap less iBound parentBound]
    by_cases atI : k = i
    · subst k
      rw [parentEq, Equiv.swap_apply_left, Equiv.swap_apply_right]
      exact above
    rw [Equiv.swap_apply_of_ne_of_ne atI notParent]
    have old := ready.except k positive atI
    by_cases child : (k - 1) / 2 = i
    · rw [child, Equiv.swap_apply_left]
      simpa [parentEq] using ready.grand k positive child (by omega)
    by_cases sibling : (k - 1) / 2 = parent
    · rw [sibling, Equiv.swap_apply_right]
      rw [sibling] at old
      exact lessAt_trans order parentBound old above
    · rwa [Equiv.swap_apply_of_ne_of_ne child sibling]
  · intro k positive isChild parentPositive
    have fixed : Equiv.swap i parent ((parent - 1) / 2) = (parent - 1) / 2 :=
      Equiv.swap_apply_of_ne_of_ne (by omega) (by omega)
    rw [lessAt_swap less iBound parentBound, fixed]
    have upper := ready.except parent parentPositive (by omega)
    by_cases atI : k = i
    · rwa [atI, Equiv.swap_apply_left]
    · rw [Equiv.swap_apply_of_ne_of_ne atI (by omega)]
      have old := ready.except k positive atI
      rw [isChild] at old
      exact lessAt_trans order parentBound old upper

theorem siftUp_ordered {less : α → α → Bool} (order : WeakOrder less) (heap : List α) (i : Nat)
    (ready : UpReady less heap i) : Ordered less (siftUp less heap i) := by
  induction heap, i using siftUp.induct less with
  | case1 heap =>
      rw [siftUp, if_pos rfl]
      exact fun k positive => ready.except k positive (by omega)
  | case2 heap i inner below ih =>
      rw [siftUp, if_neg inner, if_pos below]
      exact ih (ready.step order inner below)
  | case3 heap i inner above =>
      rw [siftUp, if_neg inner, if_neg above]
      intro k positive
      by_cases atI : k = i
      · subst k
        simpa using above
      · exact ready.except k positive atI

theorem lessAt_append_left {less : α → α → Bool} {heap : List α} {i j : Nat} (x : α)
    (iBound : i < heap.length) (jBound : j < heap.length) :
    lessAt less (heap ++ [x]) i j = lessAt less heap i j := by
  simp only [lessAt, List.getElem?_append_left iBound, List.getElem?_append_left jBound]

theorem lessAt_out_left {less : α → α → Bool} {heap : List α} {i j : Nat}
    (outside : heap.length ≤ i) : lessAt less heap i j = false := by
  simp [lessAt, List.getElem?_eq_none outside]

theorem push_ordered {less : α → α → Bool} (order : WeakOrder less) {heap : List α} (x : α)
    (ordered : Ordered less heap) : Ordered less (push less heap x) := by
  apply siftUp_ordered order
  constructor
  · intro k positive notLast
    by_cases inside : k < heap.length
    · rw [lessAt_append_left x inside (by omega)]
      exact ordered k positive
    · exact lessAt_out_left (by simp; omega)
  · intro k positive child _
    exact lessAt_out_left (by simp; omega)

/-- Only the links from the children of `i` may be out of order. -/
structure DownReady (less : α → α → Bool) (heap : List α) (i : Nat) : Prop where
  except : ∀ k, 0 < k → (k - 1) / 2 ≠ i → lessAt less heap k ((k - 1) / 2) = false
  grand : ∀ k, 0 < k → (k - 1) / 2 = i → 0 < i → lessAt less heap k ((i - 1) / 2) = false

theorem smallest_spec {less : α → α → Bool} (order : WeakOrder less) (heap : List α) (i : Nat) :
    (smallest less heap i ≠ i → lessAt less heap (smallest less heap i) i = true) ∧
      ∀ k, 0 < k → (k - 1) / 2 = i → lessAt less heap k (smallest less heap i) = false := by
  have children (k : Nat) (positive : 0 < k) (child : (k - 1) / 2 = i) :
      k = 2 * i + 1 ∨ k = 2 * i + 2 := by omega
  have selfLess (j : Nat) : lessAt less heap j j = false := by
    simp only [lessAt]
    split
    · rename_i x y atX atY
      rw [atX, Option.some.injEq] at atY
      subst y
      exact order.irrefl x
    · rfl
  simp only [smallest, Bool.and_eq_true, decide_eq_true_eq]
  by_cases left : 2 * i + 1 < heap.length ∧ lessAt less heap (2 * i + 1) i = true
  · rw [if_pos left]
    by_cases right : 2 * i + 2 < heap.length ∧ lessAt less heap (2 * i + 2) (2 * i + 1) = true
    · rw [if_pos right]
      constructor
      · intro _
        by_contra notBelow
        have up : lessAt less heap (2 * i + 2) i = false := by simpa using notBelow
        have down : lessAt less heap i (2 * i + 1) = false := lessAt_asymm order left.2
        have cycle := lessAt_trans order (lessAt_bounds left.2).2 up down
        rw [right.2] at cycle
        simp at cycle
      · intro k positive child
        rcases children k positive child with rfl | rfl
        · exact lessAt_asymm order right.2
        · exact selfLess _
    · rw [if_neg right]
      refine ⟨fun _ => left.2, ?_⟩
      intro k positive child
      rcases children k positive child with rfl | rfl
      · exact selfLess _
      · by_cases inside : 2 * i + 2 < heap.length
        · simpa [inside] using right
        · exact lessAt_out_left (by omega)
  · rw [if_neg left]
    have leftAbove : lessAt less heap (2 * i + 1) i = false := by
      by_cases inside : 2 * i + 1 < heap.length
      · simpa [inside] using left
      · exact lessAt_out_left (by omega)
    by_cases right : 2 * i + 2 < heap.length ∧ lessAt less heap (2 * i + 2) i = true
    · rw [if_pos right]
      refine ⟨fun _ => right.2, ?_⟩
      intro k positive child
      rcases children k positive child with rfl | rfl
      · exact lessAt_trans order (lessAt_bounds right.2).2 leftAbove (lessAt_asymm order right.2)
      · exact selfLess _
    · rw [if_neg right]
      refine ⟨fun impossible => (impossible rfl).elim, ?_⟩
      intro k positive child
      rcases children k positive child with rfl | rfl
      · exact leftAbove
      · by_cases inside : 2 * i + 2 < heap.length
        · simpa [inside] using right
        · exact lessAt_out_left (by omega)

theorem DownReady.step {less : α → α → Bool} (order : WeakOrder less) {heap : List α} {i : Nat}
    (ready : DownReady less heap i) (moved : smallest less heap i ≠ i) :
    DownReady less (swap heap i (smallest less heap i)) (smallest less heap i) := by
  obtain ⟨place, bestBound⟩ := (smallest_cases less heap i).resolve_left moved
  obtain ⟨isBelow, isLeast⟩ := smallest_spec order heap i
  have below := isBelow moved
  generalize smallest less heap i = best at *
  have iBound : i < heap.length := by omega
  have bestParent : (best - 1) / 2 = i := by omega
  constructor
  · intro k positive notChild
    rw [lessAt_swap less iBound bestBound]
    by_cases atBest : k = best
    · rw [atBest, bestParent, Equiv.swap_apply_right, Equiv.swap_apply_left]
      exact lessAt_asymm order below
    by_cases atI : k = i
    · subst k
      rw [Equiv.swap_apply_left, Equiv.swap_apply_of_ne_of_ne (by omega) notChild]
      exact ready.grand best (by omega) bestParent positive
    rw [Equiv.swap_apply_of_ne_of_ne atI atBest]
    by_cases child : (k - 1) / 2 = i
    · rw [child, Equiv.swap_apply_left]
      exact isLeast k positive child
    · rw [Equiv.swap_apply_of_ne_of_ne child notChild]
      exact ready.except k positive child
  · intro k positive child _
    rw [lessAt_swap less iBound bestBound, bestParent, Equiv.swap_apply_left,
      Equiv.swap_apply_of_ne_of_ne (by omega) (by omega)]
    have old := ready.except k positive (by omega)
    rwa [child] at old

theorem siftDown_ordered {less : α → α → Bool} (order : WeakOrder less) (heap : List α) (i : Nat)
    (ready : DownReady less heap i) : Ordered less (siftDown less heap i) := by
  induction heap, i using siftDown.induct less with
  | case1 heap i stop =>
      rw [siftDown, if_pos stop]
      have least := (smallest_spec order heap i).2
      rw [stop] at least
      intro k positive
      by_cases child : (k - 1) / 2 = i
      · rw [child]
        exact least k positive child
      · exact ready.except k positive child
  | case2 heap i moved ih =>
      rw [siftDown, if_neg moved]
      exact ih (ready.step order moved)

theorem pop_ordered {less : α → α → Bool} (order : WeakOrder less) {heap rest : List α} {top : α}
    (ordered : Ordered less heap) (popped : pop less heap = some (top, rest)) :
    Ordered less rest := by
  obtain ⟨others, last, rfl, -, rfl⟩ := pop_cases popped
  apply siftDown_ordered order
  refine ⟨?_, fun _ _ _ impossible => absurd impossible (Nat.lt_irrefl 0)⟩
  intro k positive notRoot
  by_cases inside : k < others.length
  · have cell (j : Nat) (jPositive : 0 < j) (jBound : j < others.length) :
        (((top :: others).set 0 last).dropLast)[j]? = (top :: others)[j]? := by
      rw [List.getElem?_dropLast, if_pos (by simpa using jBound), List.getElem?_set_ne (by omega)]
    have old := ordered k positive
    simp only [lessAt] at old ⊢
    rwa [cell k positive inside, cell ((k - 1) / 2) (by omega) (by omega)]
  · exact lessAt_out_left (by simp; omega)

theorem pop_least {less : α → α → Bool} (order : WeakOrder less) {heap rest : List α} {top : α}
    (ordered : Ordered less heap) (popped : pop less heap = some (top, rest)) :
    ∀ x ∈ heap, less x top = false := by
  have rootFirst (k : Nat) : lessAt less heap k 0 = false := by
    induction k using Nat.strongRecOn with
    | ind k ih =>
        by_cases root : k = 0
        · subst k
          have top := pop_head popped
          simp only [lessAt, top]
          exact order.irrefl _
        · by_cases inside : k < heap.length
          · exact lessAt_trans order (by omega) (ordered k (by omega)) (ih ((k - 1) / 2) (by omega))
          · exact lessAt_out_left (by omega)
  intro x member
  obtain ⟨k, bound, rfl⟩ := List.mem_iff_getElem.mp member
  have found := rootFirst k
  simpa only [lessAt, pop_head popped, List.getElem?_eq_getElem bound] using found

end ListHeap
