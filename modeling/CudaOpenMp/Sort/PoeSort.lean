import CudaOpenMp.Sort.PoeSortCore
import Mathlib.Algebra.BigOperators.Fin

/-!
A round of the `while` loop does what a sweep over the even pairs and one over the odd pairs do.
Counts of the first loop may get lost, those of the second do not, so that the loop ends with an odd
sweep that changed nothing after an even one.
-/

namespace CudaOpenMp.PoeSort

open Interleaving Exchange

variable {n : Nat} {phase : Phase}

theorem mem_iterations {i : Nat} :
    i ∈ iterations n phase ↔ i + 1 < n ∧ i % 2 = phase.first := by
  rw [iterations, List.mem_range']
  cases phase <;> simp only [Phase.first]
  · constructor
    · rintro ⟨k, bound, rfl⟩
      omega
    · rintro ⟨bound, parity⟩
      exact ⟨i / 2, by omega, by omega⟩
  · constructor
    · rintro ⟨k, bound, rfl⟩
      omega
    · rintro ⟨bound, parity⟩
      exact ⟨(i - 1) / 2, by omega, by omega⟩

theorem iterations_nodup (n : Nat) (phase : Phase) : (iterations n phase).Nodup :=
  List.nodup_range' 2

theorem gap_of_ne {i j : Nat} (first : i ∈ iterations n phase) (second : j ∈ iterations n phase)
    (different : i ≠ j) : i + 1 < j ∨ j + 1 < i := by
  have parity := (mem_iterations.mp first).2
  have same := (mem_iterations.mp second).2
  omega

theorem apart_of_sub {places : List Nat} (nodup : places.Nodup)
    (sub : ∀ i ∈ places, i ∈ iterations n phase) : Apart places := by
  refine nodup.imp_of_mem ?_
  intro i j first second different
  exact gap_of_ne (sub i first) (sub j second) different

theorem iterations_apart (n : Nat) (phase : Phase) : Apart (iterations n phase) :=
  apart_of_sub (iterations_nodup n phase) fun _ member => member

namespace Schedule

variable {threads : Nat} (schedule : Schedule n threads phase) {t u : Fin threads} {i j : Nat}

theorem mem_own_iff : (∃ t, i ∈ schedule.own t) ↔ i ∈ iterations n phase := by
  rw [← schedule.dealt.mem_iff, List.mem_flatten]
  simp [List.mem_ofFn]

theorem mem (member : i ∈ schedule.own t) : i ∈ iterations n phase :=
  schedule.mem_own_iff.mp ⟨t, member⟩

theorem own_apart (t : Fin threads) : Apart (schedule.own t) := by
  have nodup := (List.nodup_flatten.mp (schedule.dealt.nodup_iff.mpr (iterations_nodup n phase))).1
  exact apart_of_sub (nodup _ (by simp [List.mem_ofFn])) fun _ member => schedule.mem member

theorem gap (first : i ∈ schedule.own t) (second : j ∈ schedule.own u) (different : t ≠ u) :
    i + 1 < j ∨ j + 1 < i := by
  apply gap_of_ne (schedule.mem first) (schedule.mem second)
  rintro rfl
  have disjoint :=
    (List.nodup_flatten.mp (schedule.dealt.nodup_iff.mpr (iterations_nodup n phase))).2
  rw [List.pairwise_ofFn] at disjoint
  rcases lt_or_gt_of_ne different with below | above
  · exact disjoint below first second
  · exact disjoint above second first

theorem sum_descents (x : Nat → Int) :
    ∑ t, descents x (schedule.own t) = descents x (iterations n phase) := by
  rw [descents, ← schedule.dealt.countP_eq, List.countP_flatten, List.map_ofFn, List.sum_ofFn]
  rfl

end Schedule

variable {threads : Nat} {schedule : Schedule n threads phase} {t u : Fin threads}
  {b x y : Nat → Int} {own before todo : List Nat} {i changes : Nat} {g g' : Memory} {l l' : Stage}

def Untouched (b x : Nat → Int) (i : Nat) : Prop := x i = b i ∧ x (i + 1) = b (i + 1)

def Exchanged (b x : Nat → Int) (i : Nat) : Prop :=
  x i = min (b i) (b (i + 1)) ∧ x (i + 1) = max (b i) (b (i + 1))

structure Partway (b x : Nat → Int) (own before busy todo : List Nat) (changes : Nat) : Prop where
  split : own = before ++ busy ++ todo
  count : changes = descents b before
  exchanged : ∀ i ∈ before, Exchanged b x i
  untouched : ∀ i ∈ todo, Untouched b x i

def Holds (b x : Nat → Int) (own : List Nat) : Stage → Prop
  | .clear todo => Partway b x own [] [] todo 0
  | .loop todo changes => ∃ before, Partway b x own before [] todo changes
  | .lift i todo changes =>
      ∃ before, Partway b x own before [i] todo changes ∧ b (i + 1) < b i ∧ Untouched b x i
  | .shift i todo changes tmp => ∃ before, Partway b x own before [i] todo changes ∧
      b (i + 1) < b i ∧ Untouched b x i ∧ tmp = b i
  | .drop i todo changes tmp => ∃ before, Partway b x own before [i] todo changes ∧
      b (i + 1) < b i ∧ x i = b (i + 1) ∧ tmp = b i
  | .wait => ∀ i ∈ own, Exchanged b x i

theorem Untouched.congr (same : y i = x i ∧ y (i + 1) = x (i + 1)) (old : Untouched b x i) :
    Untouched b y i :=
  ⟨same.1.trans old.1, same.2.trans old.2⟩

theorem Exchanged.congr (same : y i = x i ∧ y (i + 1) = x (i + 1)) (old : Exchanged b x i) :
    Exchanged b y i :=
  ⟨same.1.trans old.1, same.2.trans old.2⟩

theorem Partway.congr {busy : List Nat}
    (same : ∀ i, i ∈ before ∨ i ∈ todo → y i = x i ∧ y (i + 1) = x (i + 1))
    (part : Partway b x own before busy todo changes) : Partway b y own before busy todo changes where
  split := part.split
  count := part.count
  exchanged := fun i member => (part.exchanged i member).congr (same i (Or.inl member))
  untouched := fun i member => (part.untouched i member).congr (same i (Or.inr member))

theorem Partway.advance (part : Partway b x own before [i] todo changes)
    (exchanged : Exchanged b x i) :
    Partway b x own (before ++ [i]) [] todo (changes + if b (i + 1) < b i then 1 else 0) where
  split := by simp [part.split]
  count := by
    rw [part.count, descents, descents, List.countP_append, List.countP_singleton]
    simp
  exchanged := by
    intro j member
    rcases List.mem_append.mp member with earlier | last
    · exact part.exchanged j earlier
    · rwa [List.mem_singleton.mp last]
  untouched := part.untouched

theorem Partway.gap (apart : Apart own) (part : Partway b x own before [i] todo changes) :
    ∀ j, j ∈ before ∨ j ∈ todo → i + 1 < j ∨ j + 1 < i := by
  rw [part.split, Apart, List.pairwise_append, List.pairwise_append] at apart
  obtain ⟨⟨_, _, front⟩, _, back⟩ := apart
  intro j member
  rcases member with earlier | later
  · exact (front j earlier i (List.mem_singleton_self i)).symm
  · exact back i (by simp) j later

theorem Holds.congr (same : ∀ i ∈ own, y i = x i ∧ y (i + 1) = x (i + 1))
    (holds : Holds b x own l) : Holds b y own l := by
  have partway {before busy todo : List Nat} {changes : Nat}
      (part : Partway b x own before busy todo changes) :
      Partway b y own before busy todo changes :=
    part.congr fun i member => same i (by rw [part.split]; aesop)
  have current {before todo : List Nat} {i changes : Nat}
      (part : Partway b x own before [i] todo changes) : y i = x i ∧ y (i + 1) = x (i + 1) :=
    same i (by rw [part.split]; simp)
  cases l with
  | clear todo => exact partway holds
  | loop todo changes =>
      obtain ⟨before, part⟩ := holds
      exact ⟨before, partway part⟩
  | lift i todo changes =>
      obtain ⟨before, part, below, untouched⟩ := holds
      exact ⟨before, partway part, below, untouched.congr (current part)⟩
  | shift i todo changes tmp =>
      obtain ⟨before, part, below, untouched, saved⟩ := holds
      exact ⟨before, partway part, below, untouched.congr (current part), saved⟩
  | drop i todo changes tmp =>
      obtain ⟨before, part, below, shifted, saved⟩ := holds
      exact ⟨before, partway part, below, (current part).1.trans shifted, saved⟩
  | wait => exact fun i member => (holds i member).congr (same i member)

theorem Holds.act (apart : Apart own) (acted : Act t g l g' l') (holds : Holds b g.x own l) :
    Holds b g'.x own l' := by
  cases acted with
  | clear => exact ⟨[], holds⟩
  | @keep i todo changes above =>
      obtain ⟨before, part⟩ := holds
      obtain ⟨left, right⟩ := part.untouched i List.mem_cons_self
      have ordered : ¬b (i + 1) < b i := by rwa [← left, ← right]
      have busy : Partway b g.x own before [i] todo changes :=
        ⟨by simp [part.split], part.count, part.exchanged,
          fun j member => part.untouched j (List.mem_cons_of_mem i member)⟩
      have next := busy.advance ⟨by rw [left]; omega, by rw [right]; omega⟩
      rw [if_neg ordered] at next
      exact ⟨before ++ [i], next⟩
  | @compare i todo changes below =>
      obtain ⟨before, part⟩ := holds
      have untouched := part.untouched i List.mem_cons_self
      refine ⟨before, ⟨by simp [part.split], part.count, part.exchanged,
        fun j member => part.untouched j (List.mem_cons_of_mem i member)⟩, ?_, untouched⟩
      rwa [← untouched.1, ← untouched.2]
  | lift =>
      obtain ⟨before, part, below, untouched⟩ := holds
      exact ⟨before, part, below, untouched, untouched.1⟩
  | @shift i todo changes tmp =>
      obtain ⟨before, part, below, untouched, saved⟩ := holds
      refine ⟨before, part.congr ?_, below, by simp [untouched.2], saved⟩
      intro j member
      have gap := part.gap apart j member
      exact ⟨Function.update_of_ne (by omega) .., Function.update_of_ne (by omega) ..⟩
  | @drop i todo changes tmp =>
      obtain ⟨before, part, below, shifted, saved⟩ := holds
      have moved : Partway b (Function.update g.x (i + 1) tmp) own before [i] todo changes := by
        refine part.congr ?_
        intro j member
        have gap := part.gap apart j member
        exact ⟨Function.update_of_ne (by omega) .., Function.update_of_ne (by omega) ..⟩
      have next := moved.advance ⟨by simp; omega, by simp; omega⟩
      rw [if_pos below] at next
      exact ⟨before ++ [i], next⟩
  | combine =>
      obtain ⟨before, part⟩ := holds
      have all : own = before := by simpa using part.split
      rw [all]
      exact part.exchanged

theorem Act.frame (acted : Act t g l g' l') (holds : Holds b g.x own l) {j : Nat}
    (free : ∀ i ∈ own, j ≠ i ∧ j ≠ i + 1) : g'.x j = g.x j := by
  cases acted with
  | clear => rfl
  | keep _ => rfl
  | compare _ => rfl
  | lift => rfl
  | @shift i todo changes tmp =>
      obtain ⟨before, part, _⟩ := holds
      exact Function.update_of_ne (free i (by rw [part.split]; simp)).1 ..
  | @drop i todo changes tmp =>
      obtain ⟨before, part, _⟩ := holds
      exact Function.update_of_ne (free i (by rw [part.split]; simp)).2 ..
  | combine => rfl

def Keeps (schedule : Schedule n threads phase) (b : Nat → Int) (t : Fin threads) (g : Memory)
    (l : Stage) : Prop :=
  Holds b g.x (schedule.own t) l ∧
    ∀ j, (∀ i ∈ iterations n phase, j ≠ i ∧ j ≠ i + 1) → g.x j = b j

theorem keeps_stable (schedule : Schedule n threads phase) (b : Nat → Int) :
    Stable Act (Keeps schedule b) where
  own := by
    intro t g l g' l' acted keeps
    obtain ⟨holds, outside⟩ := keeps
    refine ⟨holds.act (schedule.own_apart t) acted, ?_⟩
    intro j free
    rw [acted.frame holds fun i member => free i (schedule.mem member), outside j free]
  others := by
    intro t u g l g' l' m different acted keeps other
    obtain ⟨holds, outside⟩ := keeps
    refine ⟨other.1.congr ?_, ?_⟩
    · intro i member
      have free (j : Nat) (belongs : j ∈ schedule.own t) :
          (i ≠ j ∧ i ≠ j + 1) ∧ i + 1 ≠ j ∧ i + 1 ≠ j + 1 := by
        have gap := schedule.gap belongs member different
        omega
      exact ⟨acted.frame holds fun j belongs => (free j belongs).1,
        acted.frame holds fun j belongs => (free j belongs).2⟩
    · intro j free
      rw [acted.frame holds fun i member => free i (schedule.mem member), outside j free]

theorem swept {s : State (Fin threads) Memory Stage} (inhabited : 0 < threads)
    (keeps : ∀ t, Keeps schedule b t s.shared (s.locals t)) (arrived : Arrived s) :
    s.shared.x = sweep b (iterations n phase) := by
  have exchanged (i : Nat) (member : i ∈ iterations n phase) : Exchanged b s.shared.x i := by
    obtain ⟨t, belongs⟩ := schedule.mem_own_iff.mpr member
    have holds := (keeps t).1
    rw [arrived t] at holds
    exact holds i belongs
  funext j
  by_cases paired : ∃ i ∈ iterations n phase, j = i ∨ j = i + 1
  · obtain ⟨i, member, place⟩ := paired
    obtain ⟨left, right⟩ := sweep_apart b (iterations_apart n phase) member
    rcases place with rfl | rfl
    · rw [(exchanged j member).1, left]
    · rw [(exchanged i member).2, right]
  · have free : ∀ i ∈ iterations n phase, j ≠ i ∧ j ≠ i + 1 := fun i member =>
      ⟨fun same => paired ⟨i, member, Or.inl same⟩, fun same => paired ⟨i, member, Or.inr same⟩⟩
    rw [(keeps ⟨0, inhabited⟩).2 j free, sweep_other b free]

/-- What a thread has added to the shared counter in its loop. -/
def share (schedule : Schedule n threads phase) (b : Nat → Int) (t : Fin threads) : Stage → Nat
  | .wait => descents b (schedule.own t)
  | _ => 0

theorem Act.adds (acted : Act t g l g' l') (holds : Holds b g.x (schedule.own t) l) :
    (∃ todo, l = .clear todo ∧ g'.changes = 0) ∨
      (∀ todo, l ≠ .clear todo) ∧ (∀ todo, l' ≠ .clear todo) ∧ ∃ amount,
        g'.changes = g.changes + amount ∧ share schedule b t l' = share schedule b t l + amount := by
  cases acted with
  | @clear todo => exact Or.inl ⟨todo, rfl, rfl⟩
  | combine =>
      obtain ⟨before, part⟩ := holds
      have all : schedule.own t = before := by simpa using part.split
      refine Or.inr ⟨nofun, nofun, _, rfl, ?_⟩
      simp only [share, all, part.count, Nat.zero_add]
  | keep _ => exact Or.inr ⟨nofun, nofun, 0, rfl, rfl⟩
  | compare _ => exact Or.inr ⟨nofun, nofun, 0, rfl, rfl⟩
  | lift => exact Or.inr ⟨nofun, nofun, 0, rfl, rfl⟩
  | shift => exact Or.inr ⟨nofun, nofun, 0, rfl, rfl⟩
  | drop => exact Or.inr ⟨nofun, nofun, 0, rfl, rfl⟩

/-- In the first loop counts may get lost until the last thread has cleared the counter. -/
def AtMost (schedule : Schedule n threads phase) (b : Nat → Int)
    (s : State (Fin threads) Memory Stage) : Prop :=
  (∀ t, ∃ todo, s.locals t = .clear todo) ∨
    s.shared.changes ≤ ∑ t, share schedule b t (s.locals t)

theorem AtMost.step {s s' : State (Fin threads) Memory Stage} (move : Interleaving.Step Act s s')
    (keeps : ∀ t, Keeps schedule b t s.shared (s.locals t)) (bounded : AtMost schedule b s) :
    AtMost schedule b s' := by
  cases move with
  | @turn t shared thread acted =>
      rcases acted.adds (keeps t).1 with ⟨todo, _, zero⟩ | ⟨running, _, amount, grows, shareGrows⟩
      · exact Or.inr (by simp only [zero]; exact Nat.zero_le _)
      · rcases bounded with all | bound
        · obtain ⟨todo, clear⟩ := all t
          exact absurd clear (running todo)
        · refine Or.inr ?_
          have total := sum_update (share schedule b) s.locals t thread
          simp only
          omega

/-- In the second loop every count arrives. -/
structure Counted (schedule : Schedule n threads phase) (b : Nat → Int) (kept : Nat)
    (s : State (Fin threads) Memory Stage) : Prop where
  cleared : ∀ t todo, s.locals t ≠ .clear todo
  exact : s.shared.changes = kept + ∑ t, share schedule b t (s.locals t)

theorem Counted.step {s s' : State (Fin threads) Memory Stage} {kept : Nat}
    (move : Interleaving.Step Act s s') (keeps : ∀ t, Keeps schedule b t s.shared (s.locals t))
    (counted : Counted schedule b kept s) : Counted schedule b kept s' := by
  cases move with
  | @turn t shared thread acted =>
      rcases acted.adds (keeps t).1 with ⟨todo, clear, _⟩ | ⟨_, running, amount, grows, shareGrows⟩
      · exact absurd clear (counted.cleared t todo)
      · constructor
        · intro u
          by_cases same : u = t
          · subst same
            simpa only [Function.update_self] using running
          · simpa only [Function.update_of_ne same] using counted.cleared u
        · have total := sum_update (share schedule b) s.locals t thread
          have before := counted.exact
          simp only
          omega

theorem sum_share {s : State (Fin threads) Memory Stage} (arrived : Arrived s) :
    ∑ t, share schedule b t (s.locals t) = descents b (iterations n phase) := by
  rw [← schedule.sum_descents]
  refine Finset.sum_congr rfl ?_
  intro t _
  rw [arrived t, share]

/-! A parallel region that starts with the array `b`. -/

def Region (team : Team n) (b : Nat → Int) :
    Phase → State (Fin team.threads) Memory Stage → Prop
  | .even, s => (∀ t, Keeps (team.schedule .even) b t s.shared (s.locals t)) ∧
      AtMost (team.schedule .even) b s
  | .odd, s => (∀ t, Keeps (team.schedule .odd) (sweep b (iterations n .even)) t s.shared
        (s.locals t)) ∧
      ∃ kept ≤ descents b (iterations n .even),
        Counted (team.schedule .odd) (sweep b (iterations n .even)) kept s

theorem untouched_all (b : Nat → Int) (places : List Nat) : Partway b b places [] [] places 0 where
  split := rfl
  count := rfl
  exchanged := by simp
  untouched := fun _ _ => ⟨rfl, rfl⟩

variable {team : Team n} {s s' : State (Fin team.threads) Memory Stage}

theorem Region.enter (team : Team n) (g : Memory) : Region team g.x .even (enter team g) :=
  ⟨fun _ => ⟨untouched_all _ _, fun _ _ => rfl⟩, Or.inl fun _ => ⟨_, rfl⟩⟩

theorem Region.turn (region : Region team b phase s) (move : Interleaving.Step Act s s') :
    Region team b phase s' := by
  cases phase with
  | even =>
      obtain ⟨keeps, bounded⟩ := region
      exact ⟨(keeps_stable _ b).step move keeps, bounded.step move keeps⟩
  | odd =>
      obtain ⟨keeps, kept, low, counted⟩ := region
      exact ⟨(keeps_stable _ _).step move keeps, kept, low, counted.step move keeps⟩

theorem Region.barrier (region : Region team b .even s) (arrived : Arrived s) :
    Region team b .odd (second team s.shared) := by
  obtain ⟨keeps, bounded⟩ := region
  have array := swept team.inhabited keeps arrived
  have low : s.shared.changes ≤ descents b (iterations n .even) := by
    rcases bounded with all | bound
    · obtain ⟨todo, clear⟩ := all ⟨0, team.inhabited⟩
      rw [arrived] at clear
      simp at clear
    · rwa [sum_share arrived] at bound
  refine ⟨fun t => ⟨⟨[], ?_⟩, fun j _ => by rw [second, array]⟩, s.shared.changes, low, nofun, ?_⟩
  · simp only [second, array]
    exact untouched_all _ _
  · simp [second, share]

/-- What a region leaves of the array and of the counter. -/
structure Round (n : Nat) (b : Nat → Int) (g : Memory) : Prop where
  array : g.x = sweep (sweep b (iterations n .even)) (iterations n .odd)
  low : descents (sweep b (iterations n .even)) (iterations n .odd) ≤ g.changes
  high : g.changes ≤ descents b (iterations n .even) +
    descents (sweep b (iterations n .even)) (iterations n .odd)

theorem Region.join (region : Region team b .odd s) (arrived : Arrived s) : Round n b s.shared := by
  obtain ⟨keeps, kept, low, counted⟩ := region
  have total := counted.exact
  rw [sum_share arrived] at total
  exact ⟨swept team.inhabited keeps arrived, by omega, by omega⟩

namespace Round

theorem inside (n : Nat) (phase : Phase) : ∀ i ∈ iterations n phase, i + 1 < n :=
  fun _ member => (mem_iterations.mp member).1

theorem perm (round : Round n b g) : (cells n g.x).Perm (cells n b) := by
  rw [round.array]
  exact (sweep_perm _ (inside n .odd)).trans (sweep_perm _ (inside n .even))

theorem ascending (round : Round n b g) (none : g.changes = 0) : Ascending n g.x := by
  have low := round.low
  rw [← exchanges_apart _ (iterations_apart n .odd)] at low
  have still : exchanges (sweep b (iterations n .even)) (iterations n .odd) = 0 := by omega
  rw [round.array, sweep_of_no_exchange still]
  intro i bound
  by_cases even : i % 2 = 0
  · obtain ⟨left, right⟩ := sweep_apart b (iterations_apart n .even)
      (mem_iterations.mpr ⟨bound, even⟩)
    rw [left, right]
    exact min_le_max
  · exact (exchanges_eq_zero_iff _ _).mp still i
      (mem_iterations.mpr ⟨bound, by simp only [Phase.first]; omega⟩)

theorem inversions_lt (round : Round n b g) (some : g.changes ≠ 0) :
    inversions n g.x < inversions n b := by
  have high := round.high
  have first := sweep_inversions b (inside n .even)
  have next := sweep_inversions (sweep b (iterations n .even)) (inside n .odd)
  rw [exchanges_apart _ (iterations_apart n _)] at first next
  rw [round.array]
  omega

theorem descents_le (b : Nat → Int) (n : Nat) (phase : Phase) :
    descents b (iterations n phase) ≤ (n - 1 - phase.first + 1) / 2 :=
  List.countP_le_length.trans_eq List.length_range'

theorem changes_le (round : Round n b g) : g.changes ≤ n - 1 := by
  have high := round.high
  have first := descents_le b n .even
  have next := descents_le (sweep b (iterations n .even)) n .odd
  simp only [Phase.first] at first next
  omega

end Round

/-! The `while` loop. -/

/-- The counter is 1 or at most `n - 1`, so that an `int` holds it. -/
def Correct (n : Nat) (x : Nat → Int) : Program n → Prop
  | .test g => (cells n g.x).Perm (cells n x) ∧ (g.changes = 0 → Ascending n g.x) ∧
      g.changes ≤ max 1 (n - 1)
  | .region team phase s => ∃ b, (cells n b).Perm (cells n x) ∧ Region team b phase s
  | .exited g => Sorts n x g.x

theorem Correct.step {p q : Program n} (correct : Correct n x p) (move : Step p q) :
    Correct n x q := by
  cases move with
  | fork team _ => exact ⟨_, correct.1, Region.enter team _⟩
  | turn moved =>
      obtain ⟨b, perm, region⟩ := correct
      exact ⟨b, perm, region.turn moved⟩
  | barrier arrived =>
      obtain ⟨b, perm, region⟩ := correct
      exact ⟨b, perm, region.barrier arrived⟩
  | join arrived =>
      obtain ⟨b, perm, region⟩ := correct
      have round := region.join arrived
      have small := round.changes_le
      exact ⟨round.perm.trans perm, round.ascending, by omega⟩
  | exit none => exact ⟨ascending_iff.mp (correct.2.1 none), correct.1⟩

theorem run_correct {p : Program n} (run : Run (start n x) p) : Correct n x p := by
  induction run with
  | refl => exact ⟨List.Perm.refl _, fun none => absurd none Nat.one_ne_zero, by simp⟩
  | tail _ move ih => exact ih.step move

theorem exists_act (t : Fin threads) (g : Memory) (running : l ≠ .wait) :
    ∃ g' l', Act t g l g' l' := by
  cases l with
  | clear todo => exact ⟨_, _, .clear⟩
  | loop todo changes =>
      cases todo with
      | nil => exact ⟨_, _, .combine⟩
      | cons i todo =>
          by_cases below : g.x i > g.x (i + 1)
          · exact ⟨_, _, .compare below⟩
          · exact ⟨_, _, .keep below⟩
  | lift i todo changes => exact ⟨_, _, .lift⟩
  | shift i todo changes tmp => exact ⟨_, _, .shift⟩
  | drop i todo changes tmp => exact ⟨_, _, .drop⟩
  | wait => exact absurd rfl running

def alone (n : Nat) : Team n where
  threads := 1
  inhabited := Nat.one_pos
  schedule := fun phase => ⟨fun _ => iterations n phase, by simp⟩

theorem exists_step (p : Program n) : (∃ q, Step p q) ∨ ∃ g, p = .exited g := by
  cases p with
  | test g =>
      by_cases none : g.changes = 0
      · exact Or.inl ⟨_, .exit none⟩
      · exact Or.inl ⟨_, .fork (alone n) none⟩
  | region team phase s =>
      by_cases arrived : Arrived s
      · cases phase with
        | even => exact Or.inl ⟨_, .barrier arrived⟩
        | odd => exact Or.inl ⟨_, .join arrived⟩
      · obtain ⟨t, running⟩ := not_forall.mp arrived
        obtain ⟨g, l, acted⟩ := exists_act t s.shared running
        exact Or.inl ⟨_, .turn (.turn t acted)⟩
  | exited g => exact Or.inr ⟨g, rfl⟩

def Stage.left : Stage → Nat
  | .clear todo => 4 * todo.length + 2
  | .loop todo _ => 4 * todo.length + 1
  | .lift _ todo _ => 4 * todo.length + 4
  | .shift _ todo _ _ => 4 * todo.length + 3
  | .drop _ todo _ _ => 4 * todo.length + 2
  | .wait => 0

theorem Act.left_lt (acted : Act t g l g' l') : l'.left < l.left := by
  cases acted <;> simp only [Stage.left, List.length_cons, List.length_nil] <;> omega

def left (s : State (Fin threads) Memory Stage) : Nat := ∑ t, (s.locals t).left

theorem left_lt {s s' : State (Fin threads) Memory Stage} (move : Interleaving.Step Act s s') :
    left s' < left s := by
  cases move with
  | @turn t shared thread acted =>
      exact @sum_rank_lt _ _ _ _ _ (fun _ _ thread => thread.left) s t shared thread acted.left_lt
        fun _ _ => rfl

/-! The loop ends: a round that leaves a count leaves fewer inversions. -/

abbrev Ends (p : Program n) : Prop := Acc (fun q p => Step p q) p

theorem ends_exited (g : Memory) : Ends (.exited g : Program n) := ⟨_, nofun⟩

theorem ends_test_of_zero (none : g.changes = 0) : Ends (.test g : Program n) := by
  refine ⟨_, ?_⟩
  intro q move
  cases move with
  | fork team some => exact absurd none some
  | exit _ => exact ends_exited g

/-- Where the program is behind the barrier of a loop. -/
def behind (team : Team n) : Phase → Memory → Program n
  | .even, g => .region team .odd (second team g)
  | .odd, g => .test g

theorem ends_region (region : Region team b phase s)
    (after : ∀ s, Region team b phase s → Arrived s → Ends (behind team phase s.shared)) :
    Ends (.region team phase s) := by
  induction size : left s using Nat.strongRecOn generalizing s with
  | ind size ih =>
      refine ⟨_, ?_⟩
      intro q move
      cases move with
      | turn moved => exact ih _ (size ▸ left_lt moved) (region.turn moved) rfl
      | barrier arrived => exact after s region arrived
      | join arrived => exact after s region arrived

theorem ends_test (n : Nat) (g : Memory) : Ends (.test g : Program n) := by
  induction size : inversions n g.x using Nat.strongRecOn generalizing g with
  | ind size ih =>
      refine ⟨_, ?_⟩
      intro q move
      cases move with
      | exit _ => exact ends_exited g
      | fork team _ =>
          refine ends_region (Region.enter team g) ?_
          intro s first arrived
          refine ends_region (first.barrier arrived) ?_
          intro s next arrived
          by_cases none : s.shared.changes = 0
          · exact ends_test_of_zero none
          · exact ih _ (size ▸ (next.join arrived).inversions_lt none) s.shared rfl

/-- No run goes on for ever, none gets stuck, and one that ends has sorted the array. -/
theorem loop_sorts (n : Nat) (x : Nat → Int) :
    (¬∃ run : Nat → Program n, run 0 = start n x ∧ ∀ k, Step (run k) (run (k + 1))) ∧
      ∀ p, Run (start n x) p → (∃ q, Step p q) ∨ ∃ g, p = .exited g ∧ Sorts n x g.x := by
  constructor
  · intro endless
    exact not_acc_iff_exists_descending_chain.mpr endless (ends_test n ⟨x, 1⟩)
  · intro p run
    rcases exists_step p with moves | ⟨g, rfl⟩
    · exact Or.inl moves
    · exact Or.inr ⟨g, rfl, run_correct run⟩

end CudaOpenMp.PoeSort
