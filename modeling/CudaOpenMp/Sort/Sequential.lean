import CudaOpenMp.Sort.SequentialCore

/-!
Both loops step outside the array. `oe_sort.c` stays inside and sorts only what is sorted already, in
an array of even length. `b_sort.c` sorts the cell behind the array together with it.
-/

namespace CudaOpenMp

open Exchange

namespace Sorting

variable {s : Sorting} {places : List Nat}

theorem visit_x (s : Sorting) (i : Nat) : (s.visit i).x = compareExchange s.x i := by
  rw [visit, compareExchange]
  split
  · funext j
    simp only [Function.update_apply, Function.comp_apply, Equiv.swap_apply_def]
    split_ifs <;> first | rfl | omega
  · rfl

theorem visit_changes (s : Sorting) (i : Nat) :
    (s.visit i).changes = if s.x (i + 1) < s.x i then 1 else s.changes := by
  rw [visit]
  split <;> rfl

theorem visit_touched (s : Sorting) (i : Nat) : (s.visit i).touched = (i + 1) :: i :: s.touched := by
  rw [visit]
  split <;> rfl

theorem foldl_visit_x : (places.foldl visit s).x = sweep s.x places := by
  induction places generalizing s with
  | nil => rfl
  | cons i rest ih => rw [List.foldl_cons, ih, visit_x, sweep, sweep, List.foldl_cons]

theorem foldl_visit_changes :
    (places.foldl visit s).changes = if exchanges s.x places = 0 then s.changes else 1 := by
  induction places generalizing s with
  | nil => rfl
  | cons i rest ih =>
      rw [List.foldl_cons, ih, visit_x, visit_changes, exchanges]
      by_cases below : s.x (i + 1) < s.x i <;> simp [below]

theorem mem_foldl_visit_touched {j : Nat} :
    j ∈ (places.foldl visit s).touched ↔ j ∈ s.touched ∨ ∃ i ∈ places, j = i ∨ j = i + 1 := by
  induction places generalizing s with
  | nil => simp
  | cons i rest ih =>
      rw [List.foldl_cons, ih, visit_touched, List.exists_mem_cons_iff, List.mem_cons, List.mem_cons]
      simp only [or_assoc, or_left_comm]

theorem pass_x : (s.pass places).x = sweep s.x places := foldl_visit_x

theorem pass_changes : (s.pass places).changes ≠ 0 ↔ exchanges s.x places ≠ 0 := by
  rw [pass, foldl_visit_changes]
  split <;> simp_all

theorem mem_pass_touched {j : Nat} :
    j ∈ (s.pass places).touched ↔ j ∈ s.touched ∨ ∃ i ∈ places, j = i ∨ j = i + 1 :=
  mem_foldl_visit_touched

end Sorting

namespace OeSort

variable {n : Nat} {x : Nat → Int}

theorem mem_indices {even i : Nat} (start : even ≤ 1) : i ∈ indices even n ↔ i < n ∧ i % 2 = even := by
  rw [indices, List.mem_range']
  constructor
  · rintro ⟨k, bound, rfl⟩
    omega
  · rintro ⟨bound, parity⟩
    exact ⟨(i - even) / 2, by omega, by omega⟩

theorem touched_round {s : State} {j : Nat} (before : j ∈ s.sorting.touched) :
    j ∈ (round n s).sorting.touched :=
  Sorting.mem_pass_touched.mpr (Or.inl before)

theorem touched_end (s : State) (positive : 0 < n) (start : s.even ≤ 1)
    (parity : (n - 1) % 2 = s.even) : n ∈ (round n s).sorting.touched :=
  Sorting.mem_pass_touched.mpr
    (Or.inr ⟨n - 1, (mem_indices start).mpr ⟨by omega, parity⟩, Or.inr (by omega)⟩)

structure Kept (n : Nat) (x : Nat → Int) (s : State) : Prop where
  even : s.even ≤ 1
  perm : (cells (n + 1) s.sorting.x).Perm (cells (n + 1) x)
  inside : ∀ j ∈ s.sorting.touched, j ≤ n

theorem Kept.start (n : Nat) (x : Nat → Int) : Kept n x ⟨Sorting.start x, 0⟩ where
  even := Nat.zero_le 1
  perm := List.Perm.refl _
  inside := by simp [Sorting.start]

theorem Kept.places {s : State} (kept : Kept n x s) : ∀ i ∈ indices s.even n, i + 1 < n + 1 :=
  fun _ member => Nat.succ_lt_succ ((mem_indices kept.even).mp member).1

theorem Kept.round {s : State} (kept : Kept n x s) : Kept n x (round n s) where
  even := Nat.sub_le _ _
  perm := by
    rw [OeSort.round, Sorting.pass_x]
    exact (sweep_perm _ kept.places).trans kept.perm
  inside := by
    intro j member
    rcases Sorting.mem_pass_touched.mp member with before | ⟨i, visited, place⟩
    · exact kept.inside j before
    · have bound := kept.places i visited
      omega

def State.rank (n : Nat) (s : State) : Nat :=
  if s.sorting.changes = 0 then 0 else inversions (n + 1) s.sorting.x + 1

theorem Kept.rank_lt {s : State} (kept : Kept n x s) (again : s.sorting.changes ≠ 0) :
    (OeSort.round n s).rank n < s.rank n := by
  have fewer := sweep_inversions s.sorting.x kept.places
  simp only [State.rank, if_neg again, OeSort.round, Sorting.pass_x]
  split
  · omega
  · rename_i some
    have exchanged := Sorting.pass_changes.mp some
    omega

theorem exists_run (n : Nat) (x : Nat → Int) :
    ∃ rounds last, run n x rounds = some last ∧ (cells (n + 1) last.x).Perm (cells (n + 1) x) ∧
      ∀ i ∈ last.touched, i ≤ n := by
  have step (s : State) (kept : Kept n x s) (again : decide (s.sorting.changes ≠ 0) = true) :
      Kept n x (OeSort.round n s) ∧ (OeSort.round n s).rank n < s.rank n :=
    ⟨kept.round, kept.rank_lt (by simpa using again)⟩
  obtain ⟨rounds, last, ran, kept, _⟩ :=
    Loops.exists_whileLoop (Kept n x) (State.rank n) step (Kept.start n x)
  exact ⟨rounds, last.sorting, by rw [run, ran]; rfl, kept.perm, kept.inside⟩

theorem outside {s : State} {rounds : Nat} {last : State} (touched : n ∈ s.sorting.touched)
    (ran : Loops.whileLoop (fun s => s.sorting.changes ≠ 0) (round n) rounds s = some last) :
    ¬∀ i ∈ last.sorting.touched, i < n := by
  intro inside
  have kept := Loops.whileLoop_keeps (fun s : State => n ∈ s.sorting.touched)
    (fun _ => touched_round) touched ran
  exact Nat.lt_irrefl n (inside n kept)

theorem start_changes (x : Nat → Int) : (Sorting.start x).changes ≠ 0 := Int.one_ne_zero

theorem first_unchanged_iff (n : Nat) (x : Nat → Int) :
    (round n ⟨Sorting.start x, 0⟩).sorting.changes = 0 ↔ exchanges x (indices 0 n) = 0 :=
  not_iff_not.mp Sorting.pass_changes

theorem one_round (positive : 0 < n) {rounds : Nat} {sorting : Sorting}
    (ran : run n x rounds = some sorting) (inside : ∀ i ∈ sorting.touched, i < n) :
    n % 2 = 0 ∧ sorting.x = x := by
  obtain ⟨last, ended, rfl⟩ := Option.map_eq_some_iff.mp ran
  obtain ⟨fewer, rest⟩ := Loops.whileLoop_step (by simpa using start_changes x) ended
  have even : n % 2 = 0 := by
    by_contra odd
    exact outside (touched_end _ positive (Nat.zero_le 1) (by simp only; omega)) rest inside
  have unchanged : (round n ⟨Sorting.start x, 0⟩).sorting.changes = 0 := by
    by_contra changed
    obtain ⟨_, further⟩ := Loops.whileLoop_step (by simpa using changed) rest
    exact outside (touched_end _ positive (by simp [round]) (by simp [round]; omega)) further inside
  refine ⟨even, ?_⟩
  rw [Loops.whileLoop_done (by simpa using unchanged) rest, round, Sorting.pass_x]
  exact sweep_of_no_exchange ((first_unchanged_iff n x).mp unchanged)

theorem run_one (none : exchanges x (indices 0 n) = 0) :
    run n x 1 = some (round n ⟨Sorting.start x, 0⟩).sorting := by
  have unchanged := (first_unchanged_iff n x).mpr none
  rw [run, Loops.whileLoop, Loops.whileLoop]
  simp [start_changes, unchanged]

theorem sorts_iff (positive : 0 < n) (x : Nat → Int) :
    SortsInside (run n x) n x ↔ n % 2 = 0 ∧ Ascending n x := by
  constructor
  · rintro ⟨rounds, sorting, ran, inside, sorted⟩
    obtain ⟨even, same⟩ := one_round positive ran inside
    refine ⟨even, ascending_iff.mpr ?_⟩
    rw [← same]
    exact sorted.sorted
  · rintro ⟨even, ascending⟩
    have none : exchanges x (indices 0 n) = 0 := by
      rw [exchanges_eq_zero_iff]
      intro i member
      obtain ⟨bound, parity⟩ := (mem_indices (Nat.zero_le 1)).mp member
      exact ascending i (by omega)
    refine ⟨1, _, run_one none, ?_, ?_⟩
    · intro j member
      rcases Sorting.mem_pass_touched.mp member with before | ⟨i, visited, place⟩
      · simp [Sorting.start] at before
      · obtain ⟨bound, parity⟩ := (mem_indices (Nat.zero_le 1)).mp visited
        omega
    · rw [round, Sorting.pass_x]
      simp only [Sorting.start, sweep_of_no_exchange none]
      exact ⟨ascending_iff.mp ascending, List.Perm.refl _⟩

def ascendingCells (i : Nat) : Int := [1, 2, 2, 5].getD i 0

theorem sorts_iff_four :
    SortsInside (run 4 ascendingCells) 4 ascendingCells ↔ 4 % 2 = 0 ∧ Ascending 4 ascendingCells :=
  sorts_iff (by decide) ascendingCells

def middleExchanged (i : Nat) : Int := [1, 3, 2, 4].getD i 0

/-- The first round compares 1 with 3 and 2 with 4, and the loop ends. -/
theorem exits_unsorted : ¬SortsInside (run 4 middleExchanged) 4 middleExchanged := by
  rintro ⟨rounds, sorting, ran, _, sorted⟩
  obtain ⟨last, ended, rfl⟩ := Option.map_eq_some_iff.mp ran
  obtain ⟨_, rest⟩ := Loops.whileLoop_step (by decide) ended
  have same := Loops.whileLoop_done (by decide) rest
  have left : cells 4 (round 4 ⟨Sorting.start middleExchanged, 0⟩).sorting.x = [1, 3, 2, 4] := by
    decide
  have ordered := sorted.sorted
  rw [same, left] at ordered
  exact absurd ordered (by decide)

end OeSort

namespace BSort

variable {n : Nat} {x : Nat → Int} {s : State}

theorem touched_round {j : Nat} (before : j ∈ s.sorting.touched) :
    j ∈ (round s).sorting.touched :=
  Sorting.mem_pass_touched.mpr (Or.inl before)

/-- The cells above `s.n` have their final values. -/
structure Settled (n : Nat) (x : Nat → Int) (s : State) : Prop where
  bound : s.n ≤ n
  perm : (cells (n + 1) s.sorting.x).Perm (cells (n + 1) x)
  upper : ∀ j k, j ≤ k → s.n.toNat < k → k ≤ n → s.sorting.x j ≤ s.sorting.x k
  unchanged : s.sorting.changes = 0 → Ascending (n + 1) s.sorting.x
  room : s.sorting.changes ≠ 0 → 0 ≤ s.n
  inside : ∀ j ∈ s.sorting.touched, j ≤ n

theorem Settled.start (n : Nat) (x : Nat → Int) : Settled n x ⟨Sorting.start x, n⟩ where
  bound := le_refl _
  perm := List.Perm.refl _
  upper := by
    intro j k _ above bound
    simp only [Int.toNat_natCast] at above
    omega
  unchanged := fun none => absurd none Int.one_ne_zero
  room := fun _ => Int.natCast_nonneg n
  inside := by simp [Sorting.start]

theorem round_x (s : State) :
    (round s).sorting.x = sweep s.sorting.x (List.range s.n.toNat) := Sorting.pass_x

theorem round_above {k : Nat} (high : s.n.toNat < k) :
    (round s).sorting.x k = s.sorting.x k := by
  rw [round_x]
  apply sweep_other
  intro i member
  have small := List.mem_range.mp member
  omega

theorem round_below {j : Nat} (low : j ≤ s.n.toNat) :
    ∃ i ≤ s.n.toNat, (round s).sorting.x j = s.sorting.x i := by
  have places : ∀ i ∈ List.range s.n.toNat, i + 1 < s.n.toNat + 1 := by simp
  have listed : sweep s.sorting.x (List.range s.n.toNat) j ∈
      cells (s.n.toNat + 1) (sweep s.sorting.x (List.range s.n.toNat)) :=
    List.mem_map_of_mem (List.mem_range.mpr (by omega))
  obtain ⟨i, member, same⟩ := List.mem_map.mp ((sweep_perm s.sorting.x places).subset listed)
  exact ⟨i, Nat.lt_succ_iff.mp (List.mem_range.mp member), by rw [round_x, same]⟩

theorem Settled.round_upper (settled : Settled n x s) {j k : Nat} (order : j ≤ k)
    (high : (s.n - 1).toNat < k) (last : k ≤ n) :
    (round s).sorting.x j ≤ (round s).sorting.x k := by
  rcases Nat.lt_or_ge s.n.toNat k with higher | atTop
  · rw [round_above higher]
    by_cases low : j ≤ s.n.toNat
    · obtain ⟨i, iLow, value⟩ := round_below low
      rw [value]
      exact settled.upper i k (by omega) higher last
    · rw [round_above (by omega)]
      exact settled.upper j k order higher last
  · rw [show k = s.n.toNat by omega, round_x]
    exact sweep_range_le _ _ j (by omega)

theorem Settled.round (settled : Settled n x s) : Settled n x (round s) where
  bound := (Int.sub_le_self s.n (by decide)).trans settled.bound
  perm := by
    have bound := settled.bound
    rw [round_x]
    refine (sweep_perm s.sorting.x ?_).trans settled.perm
    intro i member
    have small := List.mem_range.mp member
    omega
  upper := fun _ _ => settled.round_upper
  unchanged := by
    intro none i inArray
    have still : exchanges s.sorting.x (List.range s.n.toNat) = 0 := by
      by_contra some
      exact Sorting.pass_changes.mpr some none
    rcases Nat.lt_or_ge i s.n.toNat with low | high
    · rw [round_x, sweep_of_no_exchange still]
      exact (exchanges_eq_zero_iff _ _).mp still i (List.mem_range.mpr low)
    · exact settled.round_upper (by omega) (by omega) (by omega)
  room := by
    intro some
    have fired := Sorting.pass_changes.mp some
    by_contra negative
    rw [show s.n.toNat = 0 by simp only [BSort.round] at negative; omega] at fired
    exact fired rfl
  inside := by
    have bound := settled.bound
    intro j member
    rcases Sorting.mem_pass_touched.mp member with before | ⟨i, visited, place⟩
    · exact settled.inside j before
    · have small := List.mem_range.mp visited
      omega

def State.rank (s : State) : Nat := if s.sorting.changes = 0 then 0 else s.n.toNat + 1

theorem Settled.rank_lt (settled : Settled n x s) (again : s.sorting.changes ≠ 0) :
    (BSort.round s).rank < s.rank := by
  have room := settled.room again
  rw [State.rank, State.rank, if_neg again]
  split
  · omega
  · rename_i some
    have roomAfter := settled.round.room some
    simp only [BSort.round] at roomAfter ⊢
    omega

/-- The loop ends, and what it has sorted is one cell more than the array. -/
theorem run_sorts_next (n : Nat) (x : Nat → Int) :
    ∃ rounds last, run n x rounds = some last ∧ Sorts (n + 1) x last.x ∧ ∀ i ∈ last.touched, i ≤ n := by
  have step (s : State) (settled : Settled n x s)
      (again : decide (s.sorting.changes ≠ 0) = true) :
      Settled n x (BSort.round s) ∧ (BSort.round s).rank < s.rank :=
    ⟨settled.round, settled.rank_lt (by simpa using again)⟩
  obtain ⟨rounds, last, ran, settled, ended⟩ :=
    Loops.exists_whileLoop (Settled n x) State.rank step (Settled.start n x)
  refine ⟨rounds, last.sorting, by rw [run, ran]; rfl, ⟨?_, settled.perm⟩, settled.inside⟩
  exact ascending_iff.mp (settled.unchanged (by simpa using ended))

theorem never_inside (positive : 0 < n) (x : Nat → Int) : ¬SortsInside (run n x) n x := by
  rintro ⟨rounds, sorting, ran, inside, _⟩
  obtain ⟨last, ended, rfl⟩ := Option.map_eq_some_iff.mp ran
  obtain ⟨_, rest⟩ := Loops.whileLoop_step (by simp [Sorting.start]) ended
  have touched : n ∈ (round ⟨Sorting.start x, n⟩).sorting.touched :=
    Sorting.mem_pass_touched.mpr (Or.inr ⟨n - 1, by simp; omega, Or.inr (by omega)⟩)
  have kept := Loops.whileLoop_keeps (fun s : State => n ∈ s.sorting.touched)
    (fun _ => touched_round) touched rest
  exact Nat.lt_irrefl n (inside n kept)

theorem never_inside_four :
    ¬SortsInside (run 4 OeSort.ascendingCells) 4 OeSort.ascendingCells :=
  never_inside (by decide) OeSort.ascendingCells

/-- An array of one cell that holds 5, and 3 behind it. -/
def lessBehind (i : Nat) : Int := [5, 3].getD i 0

theorem foreign_exchanged : ¬SortsInside (run 1 lessBehind) 1 lessBehind := by
  rintro ⟨rounds, sorting, ran, _, sorted⟩
  obtain ⟨last, ended, rfl⟩ := Option.map_eq_some_iff.mp ran
  obtain ⟨_, second⟩ := Loops.whileLoop_step (by decide) ended
  obtain ⟨_, rest⟩ := Loops.whileLoop_step (by decide) second
  have same := Loops.whileLoop_done (by decide) rest
  have left : cells 1 (round (round ⟨Sorting.start lessBehind, 1⟩)).sorting.x = [3] := by decide
  have kept := sorted.perm
  rw [same, Int.natCast_one, left] at kept
  exact absurd kept (by decide)

end BSort

end CudaOpenMp
