import CudaOpenMp.Library.CInt
import Mathlib.Algebra.BigOperators.Group.Finset.Basic
import Mathlib.Algebra.BigOperators.Group.Finset.Piecewise
import Mathlib.Data.Nat.Log

/-!
The reduction on the host in `ParallelReduction.cu`. It adds the upper half of the array to the
lower half in place, again and again, with lengths that are halved without the remainder.
-/

namespace CudaOpenMp.RecursiveReduce

def addFar (stride : Nat) (data : Nat → Int) (i : Nat) : Option (Nat → Int) := do
  let sum ← int32 (data i + data (i + stride))
  return Function.update data i sum

def recursiveReduce (data : Nat → Int) : Nat → Option Int
  | 0 => none -- calls itself with 0 for ever
  | 1 => some (data 0)
  | size + 2 => do
      let stride := (size + 2) / 2
      let data ← (List.range stride).foldlM (addFar stride) data
      recursiveReduce data stride

/-- The given places, and those that are added to them from the upper half. -/
def withUpper (stride : Nat) (places : Finset Nat) : Finset Nat :=
  places ∪ places.image (· + stride)

/-- The places of the array whose values are added up in one cell at one time. -/
def groups : Nat → List (Finset Nat)
  | 0 => []
  | 1 => []
  | size + 2 =>
      let stride := (size + 2) / 2
      (List.range stride).map (fun i => withUpper stride {i}) ++
        (groups stride).map (withUpper stride)

/-- The places that are added up in `data[0]` in the end. -/
def kept : Nat → Finset Nat
  | 0 => ∅
  | 1 => {0}
  | size + 2 =>
      let stride := (size + 2) / 2
      withUpper stride (kept stride)

def dropped (size : Nat) : Finset Nat := Finset.range size \ kept size

/-- Every partial sum is an `int`. -/
def SumsFit (data : Nat → Int) (size : Nat) : Prop :=
  ∀ places ∈ groups size, int32 (∑ i ∈ places, data i) ≠ none

/-- The array after some turns of the loop. -/
def foldedTo (count stride : Nat) (data : Nat → Int) : Nat → Int := fun i =>
  if i < count then data i + data (i + stride) else data i

theorem int32_ne_none {value : Int} (fits : int32 value ≠ none) : int32 value = some value := by
  rw [int32] at fits ⊢
  split
  · rfl
  · next large => exact absurd (if_neg large) fits

theorem addFar_foldedTo {count stride : Nat} (below : count < stride) (data : Nat → Int) :
    addFar stride (foldedTo count stride data) count =
      (int32 (data count + data (count + stride))).bind fun _ =>
        some (foldedTo (count + 1) stride data) := by
  have lower : foldedTo count stride data count = data count := if_neg (Nat.lt_irrefl _)
  have upper : foldedTo count stride data (count + stride) = data (count + stride) :=
    if_neg (by omega)
  rw [addFar, lower, upper]
  cases fits : int32 (data count + data (count + stride)) with
  | none => rfl
  | some sum =>
      have value : sum = data count + data (count + stride) := by
        have := int32_ne_none (by rw [fits]; exact Option.some_ne_none sum)
        rw [fits] at this
        exact Option.some.inj this
      simp only [Option.bind_eq_bind, Option.bind_some, Option.pure_def, Option.some.injEq]
      funext i
      by_cases here : i = count
      · subst here
        rw [Function.update_self, foldedTo, if_pos (Nat.lt_succ_self i), value]
      · have same : i < count ↔ i < count + 1 := by omega
        rw [Function.update_of_ne here, foldedTo, foldedTo]
        simp only [same]

theorem loop_foldedTo {count stride : Nat} (within : count ≤ stride) (data : Nat → Int) :
    (List.range count).foldlM (addFar stride) data = some (foldedTo count stride data) ∧
        (∀ i < count, int32 (data i + data (i + stride)) ≠ none) ∨
      (List.range count).foldlM (addFar stride) data = none ∧
        ∃ i < count, int32 (data i + data (i + stride)) = none := by
  induction count with
  | zero => exact Or.inl ⟨rfl, fun _ below => absurd below (Nat.not_lt_zero _)⟩
  | succ count ih =>
      rw [List.range_succ, List.foldlM_append]
      rcases ih (by omega) with ⟨ran, fit⟩ | ⟨failed, i, below, large⟩
      · simp only [ran, List.foldlM_cons, List.foldlM_nil, Option.bind_eq_bind, Option.bind_some,
          addFar_foldedTo (show count < stride by omega)]
        cases last : int32 (data count + data (count + stride)) with
        | none => exact Or.inr ⟨rfl, count, Nat.lt_succ_self _, last⟩
        | some sum =>
            refine Or.inl ⟨rfl, ?_⟩
            intro i below
            rcases Nat.lt_succ_iff_lt_or_eq.mp below with earlier | rfl
            · exact fit i earlier
            · rw [last]
              exact Option.some_ne_none sum
      · exact Or.inr ⟨by rw [failed]; rfl, i, by omega, large⟩

/-! All rounds. -/

theorem withUpper_subset {stride size : Nat} (half : 2 * stride ≤ size) {places : Finset Nat}
    (inside : places ⊆ Finset.range stride) : withUpper stride places ⊆ Finset.range size := by
  intro i member
  simp only [withUpper, Finset.mem_union, Finset.mem_image] at member
  rw [Finset.mem_range]
  rcases member with lower | ⟨j, lower, rfl⟩
  · have := Finset.mem_range.mp (inside lower)
    omega
  · have := Finset.mem_range.mp (inside lower)
    omega

theorem withUpper_disjoint {stride : Nat} {places : Finset Nat}
    (inside : places ⊆ Finset.range stride) : Disjoint places (places.image (· + stride)) := by
  rw [Finset.disjoint_left]
  intro i lower upper
  obtain ⟨j, -, rfl⟩ := Finset.mem_image.mp upper
  have := Finset.mem_range.mp (inside lower)
  omega

theorem sum_withUpper {stride : Nat} {places : Finset Nat} (inside : places ⊆ Finset.range stride)
    (data : Nat → Int) :
    ∑ i ∈ withUpper stride places, data i = ∑ i ∈ places, foldedTo stride stride data i := by
  rw [withUpper, Finset.sum_union (withUpper_disjoint inside),
    Finset.sum_image fun i _ j _ same => Nat.add_right_cancel same, ← Finset.sum_add_distrib]
  apply Finset.sum_congr rfl
  intro i member
  rw [foldedTo, if_pos (Finset.mem_range.mp (inside member))]

theorem kept_subset (size : Nat) : kept size ⊆ Finset.range size := by
  induction size using kept.induct with
  | case1 => simp [kept]
  | case2 => simp [kept]
  | case3 size stride =>
      rename_i ih
      rw [kept]
      exact withUpper_subset (by omega) ih

theorem groups_subset {size : Nat} : ∀ places ∈ groups size, places ⊆ Finset.range size := by
  induction size using groups.induct with
  | case1 => simp [groups]
  | case2 => simp [groups]
  | case3 size stride ih =>
      intro places member
      rw [groups] at member
      rcases List.mem_append.mp member with first | later
      · obtain ⟨i, below, rfl⟩ := List.mem_map.mp first
        apply withUpper_subset (by omega)
        rw [Finset.singleton_subset_iff, Finset.mem_range]
        exact List.mem_range.mp below
      · obtain ⟨smaller, inside, rfl⟩ := List.mem_map.mp later
        exact withUpper_subset (by omega) (ih smaller inside)

theorem sumsFit_step {size : Nat} {data : Nat → Int} : SumsFit data (size + 2) ↔
    (∀ i < (size + 2) / 2, int32 (data i + data (i + (size + 2) / 2)) ≠ none) ∧
      SumsFit (foldedTo ((size + 2) / 2) ((size + 2) / 2) data) ((size + 2) / 2) := by
  have pair (i : Nat) (below : i < (size + 2) / 2) :
      ∑ j ∈ withUpper ((size + 2) / 2) {i}, data j = data i + data (i + (size + 2) / 2) := by
    rw [sum_withUpper (by simpa using below), Finset.sum_singleton, foldedTo, if_pos below]
  rw [SumsFit, groups, List.forall_mem_append, List.forall_mem_map, List.forall_mem_map]
  apply and_congr
  · constructor
    · intro fit i below
      rw [← pair i below]
      exact fit i (List.mem_range.mpr below)
    · intro fit i member
      have below := List.mem_range.mp member
      rw [pair i below]
      exact fit i below
  · constructor
    · intro fit places member
      rw [← sum_withUpper (groups_subset places member)]
      exact fit places member
    · intro fit places member
      rw [sum_withUpper (groups_subset places member)]
      exact fit places member

theorem recursiveReduce_eq_some_iff {size : Nat} (positive : 1 ≤ size) (data : Nat → Int)
    (result : Int) : recursiveReduce data size = some result ↔
      SumsFit data size ∧ result = ∑ i ∈ kept size, data i := by
  induction size using kept.induct generalizing data with
  | case1 => omega
  | case2 => simp [recursiveReduce, SumsFit, groups, kept, eq_comm]
  | case3 size stride ih =>
      rw [recursiveReduce, sumsFit_step, kept, sum_withUpper (kept_subset _)]
      rcases loop_foldedTo (Nat.le_refl stride) data with ⟨ran, fit⟩ | ⟨failed, i, below, large⟩
      · rw [ran, Option.bind_eq_bind, Option.bind_some, ih (by omega), and_assoc]
        exact (and_iff_right fit).symm
      · rw [failed]
        constructor
        · intro absurd
          cases absurd
        · rintro ⟨⟨fit, -⟩, -⟩
          exact absurd large (fit i below)

theorem sum_eq_kept_iff (data : Nat → Int) (size : Nat) :
    ∑ i ∈ Finset.range size, data i = ∑ i ∈ kept size, data i ↔ ∑ i ∈ dropped size, data i = 0 := by
  have parts := Finset.sum_sdiff (f := data) (kept_subset size)
  rw [← parts, add_eq_right, dropped]

/-- The result is the sum when the sums are in range and the dropped values make no
difference. -/
theorem recursiveReduce_sum_iff (data : Nat → Int) {size : Nat} (positive : 1 ≤ size) :
    recursiveReduce data size = some (∑ i ∈ Finset.range size, data i) ↔
      SumsFit data size ∧ ∑ i ∈ dropped size, data i = 0 := by
  rw [recursiveReduce_eq_some_iff positive, sum_eq_kept_iff]

theorem recursiveReduce_sum_iff_squares :
    recursiveReduce (fun i => i ^ 2) 8 = some (∑ i ∈ Finset.range 8, (i : Int) ^ 2) ↔
      SumsFit (fun i => i ^ 2) 8 ∧ ∑ i ∈ dropped 8, (i : Int) ^ 2 = 0 :=
  recursiveReduce_sum_iff _ (by omega)

theorem third_value_lost : SumsFit (fun i => i) 3 ∧
    recursiveReduce (fun i => i) 3 = some 1 ∧ ∑ i ∈ Finset.range 3, (i : Int) = 3 := by
  refine ⟨?_, ?_, ?_⟩
  · simp [SumsFit, groups, withUpper, int32]
  · simp [recursiveReduce, addFar, int32]
  · simp [Finset.sum_range_succ]

/-! The lengths from which nothing is dropped. -/

theorem card_kept {size : Nat} (positive : 1 ≤ size) : (kept size).card = 2 ^ Nat.log 2 size := by
  induction size using kept.induct with
  | case1 => omega
  | case2 => simp [kept]
  | case3 size stride =>
      rename_i ih
      have apart := withUpper_disjoint (kept_subset stride)
      have grows : Nat.log 2 (size + 2) = Nat.log 2 stride + 1 :=
        Nat.log_of_one_lt_of_le (by omega) (by omega)
      have nonempty : 1 ≤ (size + 2) / 2 := by omega
      rw [kept, withUpper, Finset.card_union_of_disjoint apart, Finset.card_image_of_injective _
        (add_left_injective stride), ih nonempty, grows, Nat.pow_succ, Nat.mul_two]

theorem dropped_eq_empty_iff {size : Nat} (positive : 1 ≤ size) :
    dropped size = ∅ ↔ ∃ k, size = 2 ^ k := by
  rw [dropped, Finset.sdiff_eq_empty_iff_subset]
  constructor
  · intro all
    have same := Finset.Subset.antisymm (kept_subset size) all
    have card := card_kept positive
    rw [same, Finset.card_range] at card
    exact ⟨_, card⟩
  · rintro ⟨k, rfl⟩
    apply (Finset.eq_of_subset_of_card_le (kept_subset _) ?_).ge
    rw [card_kept positive, Nat.log_pow (by omega), Finset.card_range]

theorem always_sum_iff {size : Nat} (positive : 1 ≤ size) :
    (∀ data, SumsFit data size →
        recursiveReduce data size = some (∑ i ∈ Finset.range size, data i)) ↔
      ∃ k, size = 2 ^ k := by
  rw [← dropped_eq_empty_iff positive]
  constructor
  · intro right
    by_contra some
    obtain ⟨i, lost⟩ := Finset.nonempty_iff_ne_empty.mpr some
    have fit : SumsFit (fun j => if j = i then 1 else 0) size := by
      intro places _
      rw [Finset.sum_ite_eq']
      split <;> decide
    have same := ((recursiveReduce_eq_some_iff positive _ _).mp (right _ fit)).2
    have wrong := (sum_eq_kept_iff _ size).mp same
    rw [Finset.sum_ite_eq', if_pos lost] at wrong
    omega
  · intro none data fit
    rw [recursiveReduce_eq_some_iff positive, sum_eq_kept_iff, none]
    exact ⟨fit, Finset.sum_empty⟩

end CudaOpenMp.RecursiveReduce
