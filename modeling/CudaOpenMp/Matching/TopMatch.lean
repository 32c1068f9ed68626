import Mathlib.Algebra.Order.Ring.Abs
import Mathlib.Data.List.Basic
import Mathlib.Data.List.GetD
import Mathlib.Data.List.Induction
import Mathlib.Data.Rat.Defs
import Mathlib.Algebra.Order.Field.Rat
import Mathlib.Tactic.Linarith
import Mathlib.Tactic.NormNum

/-!
The selection of the best positions in `run_test_case` of `test_all.cu`, for the scores of the host
and for those of the device. Numbers of type `float` are rational; a score that is not a number is
`none`. The search on the device skips what is close to its maximum, and can so stay below the true
one.
-/

namespace CudaOpenMp.TopMatch

abbrev Pcc := List (Option Rat)

def tolerance : Rat := 1 / 10000

def cpuRound (cpuMax1 : Rat) : Option Rat → Rat
  | some v => if v > cpuMax1 then v else cpuMax1
  | none => cpuMax1

def cpuMax (pcc : Pcc) : Rat := pcc.foldl cpuRound (-2)

def gpuRound (max1 : Rat) : Option Rat → Rat
  | some v => if |v - max1| < tolerance then max1 else if v > max1 then v else max1
  | none => max1

def gpuMax (pcc : Pcc) : Rat := pcc.foldl gpuRound (-2)

/-- Whether the loop that prints shows a score. -/
def near (max1 : Rat) : Option Rat → Bool
  | some v => |v - max1| < tolerance
  | none => false

def printed (pcc : Pcc) (outC : Nat) (max1 : Rat) : List (Nat × Nat) :=
  if max1 > -2 then
    ((List.range pcc.length).filter fun i => near max1 (pcc.getD i none)).map fun i =>
      (i / outC, i % outC)
  else []

def cpuPrinted (pcc : Pcc) (outC : Nat) : List (Nat × Nat) := printed pcc outC (cpuMax pcc)

def gpuPrinted (pcc : Pcc) (outC : Nat) : List (Nat × Nat) := printed pcc outC (gpuMax pcc)

/-! What the searches settle at. -/

def values (pcc : Pcc) : List Rat := pcc.filterMap id

/-- The scores that rise above all leaders before them by the tolerance. -/
def leaders (scores : List Rat) : List Rat :=
  scores.foldl (fun kept v => if ∀ l ∈ kept, l + tolerance ≤ v then kept ++ [v] else kept) []

@[simp] theorem values_append (pcc : Pcc) (v : Option Rat) :
    values (pcc ++ [v]) = values pcc ++ v.toList := by
  cases v <;> simp [values]

theorem leaders_append (scores : List Rat) (v : Rat) : leaders (scores ++ [v]) =
    if ∀ l ∈ leaders scores, l + tolerance ≤ v then leaders scores ++ [v] else leaders scores := by
  rw [leaders, List.foldl_append]
  rfl

/-- A true maximum, or the initial value when no score is a number. -/
theorem cpuMax_spec {pcc : Pcc} (low : ∀ v ∈ values pcc, -1 ≤ v) :
    (values pcc = [] ∧ cpuMax pcc = -2) ∨
      (cpuMax pcc ∈ values pcc ∧ ∀ v ∈ values pcc, v ≤ cpuMax pcc) := by
  induction pcc using List.reverseRecOn with
  | nil => exact Or.inl ⟨rfl, rfl⟩
  | append_singleton pcc score ih =>
      have step : cpuMax (pcc ++ [score]) = cpuRound (cpuMax pcc) score := by
        rw [cpuMax, List.foldl_append]
        rfl
      rw [values_append] at low ⊢
      have before := ih fun v member => low v (List.mem_append_left _ member)
      rw [step]
      cases score with
      | none => simpa [cpuRound] using before
      | some v =>
          have bound : -1 ≤ v := low v (by simp)
          right
          rw [cpuRound]
          rcases before with ⟨none, initial⟩ | ⟨attained, top⟩
          · rw [if_pos (by linarith), none]
            simp
          · split
            · next larger =>
              refine ⟨by simp, ?_⟩
              intro w member
              rcases List.mem_append.mp member with earlier | last
              · exact (top w earlier).trans larger.le
              · rw [Option.toList_some, List.mem_singleton] at last
                exact last.le
            · next smaller =>
              refine ⟨List.mem_append_left _ attained, ?_⟩
              intro w member
              rcases List.mem_append.mp member with earlier | last
              · exact top w earlier
              · rw [Option.toList_some, List.mem_singleton] at last
                rw [last]
                exact not_lt.mp smaller

/-- The last leader, and no score rises above it by the tolerance. -/
structure Settled (scores : List Rat) (max1 : Rat) : Prop where
  leads : max1 ∈ leaders scores
  attained : max1 ∈ scores
  last : ∀ l ∈ leaders scores, l ≤ max1
  close : ∀ v ∈ scores, v < max1 + tolerance

theorem gpuRound_some (max1 v : Rat) :
    gpuRound max1 (some v) = if max1 + tolerance ≤ v then v else max1 := by
  have positive : 0 < tolerance := by norm_num [tolerance]
  rw [gpuRound]
  by_cases rises : max1 + tolerance ≤ v
  · have apart : ¬|v - max1| < tolerance := by
      rw [abs_lt]
      intro close
      linarith [close.2]
    rw [if_neg apart, if_pos (by linarith), if_pos rises]
  · rw [if_neg rises]
    split
    · rfl
    · next apart =>
      rw [if_neg]
      intro larger
      exact apart (abs_lt.mpr ⟨by linarith, by linarith⟩)

theorem Settled.concat {scores : List Rat} {max1 : Rat} (settled : Settled scores max1) (v : Rat) :
    Settled (scores ++ [v]) (if max1 + tolerance ≤ v then v else max1) := by
  have positive : 0 < tolerance := by norm_num [tolerance]
  by_cases rises : max1 + tolerance ≤ v
  · have all : ∀ l ∈ leaders scores, l + tolerance ≤ v := by
      intro l kept
      linarith [settled.last l kept]
    rw [if_pos rises]
    refine ⟨?_, by simp, ?_, ?_⟩
    · rw [leaders_append, if_pos all]
      simp
    · rw [leaders_append, if_pos all]
      intro l kept
      rcases List.mem_append.mp kept with earlier | last
      · linarith [all l earlier]
      · exact (List.mem_singleton.mp last).le
    · intro w member
      rcases List.mem_append.mp member with earlier | last
      · linarith [settled.close w earlier]
      · rw [List.mem_singleton.mp last]
        linarith
  · have passed : ¬∀ l ∈ leaders scores, l + tolerance ≤ v := fun all =>
      rises (all max1 settled.leads)
    rw [if_neg rises]
    refine ⟨?_, List.mem_append_left _ settled.attained, ?_, ?_⟩
    · rw [leaders_append, if_neg passed]
      exact settled.leads
    · rw [leaders_append, if_neg passed]
      exact settled.last
    · intro w member
      rcases List.mem_append.mp member with earlier | last
      · exact settled.close w earlier
      · rw [List.mem_singleton.mp last]
        exact not_le.mp rises

theorem gpuMax_spec {pcc : Pcc} (low : ∀ v ∈ values pcc, -1 ≤ v) :
    (values pcc = [] ∧ gpuMax pcc = -2) ∨ Settled (values pcc) (gpuMax pcc) := by
  induction pcc using List.reverseRecOn with
  | nil => exact Or.inl ⟨rfl, rfl⟩
  | append_singleton pcc score ih =>
      have step : gpuMax (pcc ++ [score]) = gpuRound (gpuMax pcc) score := by
        rw [gpuMax, List.foldl_append]
        rfl
      rw [values_append] at low ⊢
      have before := ih fun v member => low v (List.mem_append_left _ member)
      rw [step]
      cases score with
      | none => simpa [gpuRound] using before
      | some v =>
          have bound : -1 ≤ v := low v (by simp)
          right
          rw [gpuRound_some, Option.toList_some]
          rcases before with ⟨none, initial⟩ | settled
          · have rises : gpuMax pcc + tolerance ≤ v := by
              rw [initial]
              norm_num [tolerance]
              linarith
            rw [if_pos rises, none]
            refine ⟨by simp [leaders], by simp, by simp [leaders], ?_⟩
            intro w member
            rw [List.nil_append, List.mem_singleton] at member
            rw [member]
            norm_num [tolerance]
          · exact settled.concat v

/-! What is printed. -/

theorem mem_values {pcc : Pcc} {v : Rat} :
    v ∈ values pcc ↔ ∃ i < pcc.length, pcc.getD i none = some v := by
  rw [values, List.mem_filterMap]
  constructor
  · rintro ⟨score, member, held⟩
    obtain ⟨i, inside, rfl⟩ := List.getElem_of_mem member
    exact ⟨i, inside, by rw [List.getD_eq_getElem _ _ inside]; exact held⟩
  · rintro ⟨i, inside, held⟩
    rw [List.getD_eq_getElem _ _ inside] at held
    exact ⟨pcc[i], List.getElem_mem inside, held⟩

theorem position_injective (outC : Nat) : Function.Injective fun i => (i / outC, i % outC) := by
  intro i j same
  rw [Prod.mk.injEq] at same
  rw [← Nat.div_add_mod i outC, ← Nat.div_add_mod j outC, same.1, same.2]

theorem mem_printed {pcc : Pcc} {outC i : Nat} {max1 : Rat} (settled : max1 > -2) :
    (i / outC, i % outC) ∈ printed pcc outC max1 ↔
      i < pcc.length ∧ near max1 (pcc.getD i none) = true := by
  rw [printed, if_pos settled, List.mem_map_of_injective (position_injective outC), List.mem_filter,
    List.mem_range]

theorem printed_eq_iff {pcc : Pcc} {outC : Nat} {first second : Rat} (firstSettled : first > -2)
    (secondSettled : second > -2) :
    printed pcc outC first = printed pcc outC second ↔
      ∀ v ∈ values pcc, near first (some v) = near second (some v) := by
  have pointwise : printed pcc outC first = printed pcc outC second ↔
      ∀ i < pcc.length, near first (pcc.getD i none) = near second (pcc.getD i none) := by
    constructor
    · intro same i inside
      have members := @mem_printed pcc outC i first firstSettled
      rw [same, mem_printed secondSettled] at members
      rw [Bool.eq_iff_iff]
      constructor
      · intro shown
        exact (members.mpr ⟨inside, shown⟩).2
      · intro shown
        exact (members.mp ⟨inside, shown⟩).2
    · intro all
      rw [printed, printed, if_pos firstSettled, if_pos secondSettled,
        List.filter_congr fun i member => all i (List.mem_range.mp member)]
  rw [pointwise]
  constructor
  · intro all v member
    obtain ⟨i, inside, held⟩ := mem_values.mp member
    have here := all i inside
    rwa [held] at here
  · intro all i inside
    cases held : pcc.getD i none with
    | none => rfl
    | some v => exact all v (mem_values.mpr ⟨i, inside, held⟩)

theorem near_iff {max1 v : Rat} (below : v < max1 + tolerance) :
    near max1 (some v) = true ↔ max1 < v + tolerance := by
  rw [near, decide_eq_true_eq, abs_lt]
  constructor
  · rintro ⟨low, _⟩
    linarith
  · intro close
    exact ⟨by linarith, by linarith⟩

/-- One list for both, and a position of a true maximum in it. -/
structure SelectionsAgree (pcc : Pcc) (outC : Nat) : Prop where
  same : gpuPrinted pcc outC = cpuPrinted pcc outC
  attained : values pcc ≠ [] → ∃ i v, pcc.getD i none = some v ∧ (∀ w ∈ values pcc, w ≤ v) ∧
    (i / outC, i % outC) ∈ gpuPrinted pcc outC ∧ (i / outC, i % outC) ∈ cpuPrinted pcc outC

section
variable {pcc : Pcc} (low : ∀ v ∈ values pcc, -1 ≤ v)
include low

/-- Both lists hold a position of the true maximum, also when they differ. -/
theorem maximum_printed (outC : Nat) (some : values pcc ≠ []) :
    ∃ i v, pcc.getD i none = Option.some v ∧ (∀ w ∈ values pcc, w ≤ v) ∧
      (i / outC, i % outC) ∈ gpuPrinted pcc outC ∧ (i / outC, i % outC) ∈ cpuPrinted pcc outC := by
  have positive : 0 < tolerance := by norm_num [tolerance]
  obtain ⟨attained, top⟩ := (cpuMax_spec low).resolve_left fun none => some none.1
  have settled := (gpuMax_spec low).resolve_left fun none => some none.1
  obtain ⟨i, inside, held⟩ := mem_values.mp attained
  have aboveHost := low _ attained
  have aboveDevice := low _ settled.attained
  refine ⟨i, cpuMax pcc, held, top, ?_, ?_⟩
  · refine (mem_printed (by linarith)).mpr ⟨inside, ?_⟩
    rw [held, near_iff (settled.close _ attained)]
    linarith [top _ settled.attained]
  · refine (mem_printed (by linarith)).mpr ⟨inside, ?_⟩
    rw [held, near_iff (by linarith)]
    linarith

/-- The selections agree exactly if every score that some score exceeds by the tolerance is exceeded
by a leader. -/
theorem selections_agree_iff (outC : Nat) : SelectionsAgree pcc outC ↔
    ∀ v ∈ values pcc, (∃ w ∈ values pcc, v + tolerance ≤ w) →
      ∃ l ∈ leaders (values pcc), v + tolerance ≤ l := by
  have positive : 0 < tolerance := by norm_num [tolerance]
  have agree : SelectionsAgree pcc outC ↔ gpuPrinted pcc outC = cpuPrinted pcc outC :=
    ⟨fun agree => agree.same, fun same => ⟨same, maximum_printed low outC⟩⟩
  rw [agree, gpuPrinted, cpuPrinted]
  rcases cpuMax_spec low with ⟨none, host⟩ | ⟨attained, top⟩
  · have device : gpuMax pcc = -2 := by
      rcases gpuMax_spec low with ⟨_, initial⟩ | settled
      · exact initial
      · have member := settled.attained
        rw [none] at member
        cases member
    rw [host, device, none]
    simp
  · have some : values pcc ≠ [] := List.ne_nil_of_mem attained
    have settled := (gpuMax_spec low).resolve_left fun none => some none.1
    have aboveHost := low _ attained
    have aboveDevice := low _ settled.attained
    rw [printed_eq_iff (by linarith) (by linarith)]
    apply forall₂_congr
    intro v member
    have exceeded : (∃ w ∈ values pcc, v + tolerance ≤ w) ↔ v + tolerance ≤ cpuMax pcc := by
      constructor
      · rintro ⟨w, listed, above⟩
        exact above.trans (top w listed)
      · intro above
        exact ⟨_, attained, above⟩
    have led : (∃ l ∈ leaders (values pcc), v + tolerance ≤ l) ↔ v + tolerance ≤ gpuMax pcc := by
      constructor
      · rintro ⟨l, kept, above⟩
        exact above.trans (settled.last l kept)
      · intro above
        exact ⟨_, settled.leads, above⟩
    have lower := top _ settled.attained
    rw [exceeded, led, Bool.eq_iff_iff, near_iff (settled.close v member),
      near_iff (by linarith [top v member])]
    constructor
    · intro same above
      by_contra apart
      linarith [same.mp (not_le.mp apart)]
    · intro covered
      constructor
      · intro close
        by_contra apart
        linarith [covered (not_lt.mp apart)]
      · intro close
        linarith

end

theorem selections_agree_iff_two : SelectionsAgree [some 0, none, some 1] 3 ↔
    ∀ v ∈ values [some 0, none, some 1], (∃ w ∈ values [some 0, none, some 1], v + tolerance ≤ w) →
      ∃ l ∈ leaders (values [some 0, none, some 1]), v + tolerance ≤ l :=
  selections_agree_iff (by decide) 3

/-- The second score is the maximum, and the device stays at the first, which is close to the third
as well. -/
theorem selections_differ :
    gpuPrinted [some 0, some (9 / 100000), some (-5 / 100000)] 3 = [(0, 0), (0, 1), (0, 2)] ∧
      cpuPrinted [some 0, some (9 / 100000), some (-5 / 100000)] 3 = [(0, 0), (0, 1)] ∧
      ¬SelectionsAgree [some 0, some (9 / 100000), some (-5 / 100000)] 3 := by
  have device : gpuPrinted [some 0, some (9 / 100000), some (-5 / 100000)] 3 =
      [(0, 0), (0, 1), (0, 2)] := by decide +kernel
  have host : cpuPrinted [some 0, some (9 / 100000), some (-5 / 100000)] 3 = [(0, 0), (0, 1)] := by
    decide +kernel
  refine ⟨device, host, ?_⟩
  intro agree
  have same := agree.same
  rw [device, host] at same
  cases same

end CudaOpenMp.TopMatch
