import CudaOpenMp.Image.CannyCompare
import Mathlib.Data.Finset.Card

/-!
Edge linking in `canny_cpu.cpp`, which repeats the scan until nothing changes. The loop ends,
and then the strong pixels are those that weak paths join to a strong one.
-/

namespace CudaOpenMp.Canny

open Rasters Raster Spreading

/-- The two loops over the neighbours; the `break` only leaves the inner one. -/
def connectedAt (w : Nat) (edges : Edges) (p : Pixel) : Bool :=
  [-1, 0, 1].foldl (fun connected (i : Int) =>
    if [-1, 0, 1].any fun j : Int => edges (cell w (shift p j i)) == 255 then true
    else connected) false

def visitChanged (w : Nat) (state : Edges × Bool) (p : Pixel) : Edges × Bool :=
  let (edges, changed) := state
  if edges (cell w p) = 128 then
    if connectedAt w edges p then (Function.update edges (cell w p) 255, true)
    else (edges, changed)
  else (edges, changed)

/-- One turn of the `while` loop: the map, and whether it has changed. -/
def scan (w h : Nat) (edges : Edges) : Edges × Bool :=
  (interiorPixels w h).foldl (visitChanged w) (edges, false)

def hysteresis (w h : Nat) : Nat → Edges → Option Edges
  | 0, _ => none
  | fuel + 1, edges =>
      let (edges, changed) := scan w h edges
      if changed then hysteresis w h fuel edges else some edges

theorem foldl_flag {α : Type} (found : α → Bool) (list : List α) (connected : Bool) :
    list.foldl (fun connected x => if found x then true else connected) connected =
      (connected || list.any found) := by
  induction list generalizing connected with
  | nil => simp
  | cons first rest ih =>
      rw [List.foldl_cons, ih, List.any_cons]
      cases found first <;> simp

theorem connectedAt_eq (w : Nat) (edges : Edges) (p : Pixel) :
    connectedAt w edges p = (around p).any fun q => edges (cell w q) == 255 := by
  rw [connectedAt, foldl_flag, Bool.false_or, around, List.any_flatMap]
  simp only [List.any_map, Function.comp_def]

theorem visitChanged_fst (w : Nat) (edges : Edges) (changed : Bool) (p : Pixel) :
    (visitChanged w (edges, changed) p).1 = visit w edges p := by
  simp only [visitChanged, visit, connectedAt_eq]
  split
  · split <;> rfl
  · rfl

theorem scan_fst (w h : Nat) (edges : Edges) : (scan w h edges).1 = cpuPass w h edges := by
  have fold (list : List Pixel) (edges : Edges) (changed : Bool) :
      (list.foldl (visitChanged w) (edges, changed)).1 = list.foldl (visit w) edges := by
    induction list generalizing edges changed with
    | nil => rfl
    | cons p rest ih =>
        rw [List.foldl_cons, List.foldl_cons, ← visitChanged_fst w edges changed p]
        exact ih _ _
  exact fold _ _ _

def weakCount (w h : Nat) (edges : Edges) : Nat :=
  ((Finset.range (w * h)).filter fun index => edges index = 128).card

theorem weakCount_le (w h : Nat) (edges : Edges) : weakCount w h edges ≤ w * h := by
  exact (Finset.card_filter_le _ _).trans (Finset.card_range (w * h)).le

variable {w h : Nat}

theorem weakCount_mark {edges : Edges} {p : Pixel} (low : p ∈ weak w h edges) :
    weakCount w h (Function.update edges (cell w p) 255) < weakCount w h edges := by
  apply Finset.card_lt_card
  rw [Finset.ssubset_iff_of_subset]
  · refine ⟨cell w p, ?_, ?_⟩
    · simpa using ⟨cell_lt low.1.inside, low.2⟩
    · simp
  · intro index member
    obtain ⟨below, still⟩ := Finset.mem_filter.mp member
    refine Finset.mem_filter.mpr ⟨below, ?_⟩
    by_cases same : index = cell w p
    · rw [same, low.2]
    · rwa [Function.update_of_ne same] at still

/-- Without a change the map is as before; with one, fewer pixels are weak. -/
structure Spent (w h : Nat) (edges : Edges) (state : Edges × Bool) : Prop where
  fewer : state.2 = true → weakCount w h state.1 < weakCount w h edges
  same : state.2 = false → state.1 = edges

theorem Spent.visit {edges : Edges} {state : Edges × Bool} (spent : Spent w h edges state)
    {p : Pixel} (interior : Interior w h p) : Spent w h edges (visitChanged w state p) := by
  obtain ⟨current, changed⟩ := state
  by_cases low : current (cell w p) = 128
  · by_cases near : connectedAt w current p = true
    · have less := weakCount_mark (w := w) ⟨interior, low⟩
      simp only [visitChanged, low, near, if_true]
      refine ⟨fun _ => ?_, nofun⟩
      cases changed with
      | true => exact less.trans (spent.fewer rfl)
      | false =>
          have start := spent.same rfl
          simp only at start
          rwa [start] at less ⊢
    · have stays : visitChanged w (current, changed) p = (current, changed) := by
        simp [visitChanged, near]
      rwa [stays]
  · have stays : visitChanged w (current, changed) p = (current, changed) := by
      simp [visitChanged, low]
    rwa [stays]

theorem scan_spent (edges : Edges) : Spent w h edges (scan w h edges) := by
  have fold (list : List Pixel) (interior : ∀ p ∈ list, Interior w h p) (state : Edges × Bool)
      (spent : Spent w h edges state) : Spent w h edges (list.foldl (visitChanged w) state) := by
    induction list generalizing state with
    | nil => exact spent
    | cons p rest ih =>
        rw [List.foldl_cons]
        exact ih (fun q member => interior q (List.mem_cons_of_mem p member)) _
          (spent.visit (interior p List.mem_cons_self))
  exact fold _ (fun _ => mem_interiorPixels.mp) _ ⟨nofun, fun _ => rfl⟩

/-! The loop. -/

theorem Sound.link {start before after : Edges} (sound : Sound w h start before)
    (link : Linking w h before after) : Sound w h start after where
  grown := sound.grown.trans link.grown
  reached := link.pass.stays.trans
    ((linked_mono_free sound.grown.weak_subset).trans (linked_subset_linked sound.reached))

theorem hysteresis_ends {start edges : Edges} (sound : Sound w h start edges) {fuel : Nat}
    (enough : weakCount w h edges < fuel) : ∃ out, hysteresis w h fuel edges = some out ∧
      Grown w h start out ∧ strong w h out = reach w h start := by
  induction fuel generalizing edges with
  | zero => omega
  | succ fuel ih =>
      have link : Linking w h edges (scan w h edges).1 := by
        rw [scan_fst]
        exact cpuPass_linking edges
      have spent := scan_spent (w := w) (h := h) edges
      have unfold : hysteresis w h (fuel + 1) edges =
          if (scan w h edges).2 then hysteresis w h fuel (scan w h edges).1
          else some (scan w h edges).1 := rfl
      rw [unfold]
      cases changed : (scan w h edges).2 with
      | true =>
          have less := spent.fewer changed
          exact ih (sound.link link) (by omega)
      | false =>
          have same := spent.same changed
          rw [same] at link ⊢
          refine ⟨edges, rfl, sound.grown, Set.Subset.antisymm sound.reached ?_⟩
          apply linked_subset_of_closed sound.grown.strong_subset
          rw [← grow_eq_of_free sound.grown.weak_subset sound.grown.weak_union]
          exact link.pass.grows

/-- The loop ends, always with the same map, and the pixels left after the cleanup are those
that can be traced to a strong one. -/
theorem hysteresis_cleanup (edges : Edges)
    (values : ∀ p, Inside w h p → edges (cell w p) = 0 ∨ edges (cell w p) = 128 ∨
      edges (cell w p) = 255) :
    ∃ out, (∀ fuel, w * h < fuel → hysteresis w h fuel edges = some out) ∧
      ∀ p, Inside w h p →
        (cpuCleanup w h out (cell w p) = 255 ↔ edges (cell w p) = 255 ∨
          Interior w h p ∧ edges (cell w p) = 128 ∧ p ∈ reach w h edges) ∧
        (cpuCleanup w h out (cell w p) ≠ 255 → cpuCleanup w h out (cell w p) = 0) := by
  have initial : Sound w h edges edges := ⟨.refl edges, marked_subset_linked⟩
  have ends {fuel : Nat} (enough : w * h < fuel) :=
    hysteresis_ends initial ((weakCount_le w h edges).trans_lt enough)
  obtain ⟨out, _, grown, marked⟩ := ends (Nat.lt_succ_self (w * h))
  refine ⟨out, ?_, ?_⟩
  · intro fuel enough
    obtain ⟨other, result, grownOther, markedOther⟩ := ends enough
    rw [result, grownOther.ext grown (markedOther.trans marked.symm)]
  · intro p inside
    rw [cpuCleanup_eq]
    have high : cleaned w h out (cell w p) = 255 ↔ p ∈ reach w h edges := by
      rw [← marked, ← strong_cleaned]
      exact ⟨fun equal => ⟨inside, equal⟩, And.right⟩
    constructor
    · rw [high]
      constructor
      · intro reached
        rcases mem_linked_iff.mp reached with first | ⟨low, _⟩
        · exact Or.inl first.2
        · exact Or.inr ⟨low.1, low.2, reached⟩
      · rintro (first | ⟨_, _, reached⟩)
        · exact marked_subset_linked ⟨inside, first⟩
        · exact reached
    · intro other
      have apart : out (cell w p) ≠ 255 := by
        intro equal
        apply other
        rw [high, ← marked]
        exact ⟨inside, equal⟩
      rw [cleaned]
      split
      · rfl
      · next still =>
        rcases grown (cell w p) with same | ⟨_, _, _, up⟩
        · rw [same] at apart still ⊢
          rcases values p inside with zero | low | top
          · exact zero
          · exact (still ⟨cell_lt inside, low⟩).elim
          · exact (apart top).elim
        · exact (apart up).elim

theorem hysteresis_cleanup_row :
    ∃ out, (∀ fuel, 9 * 3 < fuel → hysteresis 9 3 fuel row = some out) ∧
      ∀ p, Inside 9 3 p →
        (cpuCleanup 9 3 out (cell 9 p) = 255 ↔ row (cell 9 p) = 255 ∨
          Interior 9 3 p ∧ row (cell 9 p) = 128 ∧ p ∈ reach 9 3 row) ∧
        (cpuCleanup 9 3 out (cell 9 p) ≠ 255 → cpuCleanup 9 3 out (cell 9 p) = 0) :=
  hysteresis_cleanup row fun _ _ => row_values _

end CudaOpenMp.Canny
