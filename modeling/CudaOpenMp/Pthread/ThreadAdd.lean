import CudaOpenMp.Library.Interleaving
import Mathlib.Algebra.BigOperators.Fin

/-!
The two threads of `thread_no_sem.c`, which lose updates, and of `thread_with_sem.c`,
`thread_with_mutex.c` and `2thread_count.c`, which do not.
-/

namespace CudaOpenMp.ThreadAdd

open Interleaving

def niter : Nat := 1000000

/-- The place in the loop of a thread, named after what is done next. -/
inductive Stage where
  | wait
  | load
  | add
  | store
  | post
deriving DecidableEq

structure Local where
  stage : Stage
  i : Nat
  tmp : Int

/-- `mutex` is the value of the semaphore, or 1 for a mutex that nobody holds. -/
structure Shared where
  count : Int
  mutex : Nat

/-- Whether there is anything before `tmp = count`. -/
def top (guarded : Bool) : Stage := if guarded then .wait else .load

inductive Act (n : Nat) (guarded : Bool) : Action (Fin 2) Shared Local
  | wait {t : Fin 2} {g : Shared} {i : Nat} {tmp : Int} : i < n → 0 < g.mutex →
      Act n guarded t g ⟨.wait, i, tmp⟩ { g with mutex := g.mutex - 1 } ⟨.load, i, tmp⟩
  | load {t : Fin 2} {g : Shared} {i : Nat} {tmp : Int} : i < n →
      Act n guarded t g ⟨.load, i, tmp⟩ g ⟨.add, i, g.count⟩
  | add {t : Fin 2} {g : Shared} {i : Nat} {tmp : Int} :
      Act n guarded t g ⟨.add, i, tmp⟩ g ⟨.store, i, tmp + 1⟩
  | store {t : Fin 2} {g : Shared} {i : Nat} {tmp : Int} :
      Act n guarded t g ⟨.store, i, tmp⟩ { g with count := tmp }
        (if guarded then ⟨.post, i, tmp⟩ else ⟨.load, i + 1, tmp⟩)
  | post {t : Fin 2} {g : Shared} {i : Nat} {tmp : Int} :
      Act n guarded t g ⟨.post, i, tmp⟩ { g with mutex := g.mutex + 1 } ⟨.wait, i + 1, tmp⟩

def Finished (n : Nat) (guarded : Bool) (l : Local) : Prop := l.stage = top guarded ∧ l.i = n

/-- `tmp` is not initialised. -/
def start (guarded : Bool) (garbage : Fin 2 → Int) : Forked 2 Shared Local :=
  .start ⟨0, 1⟩ fun t => ⟨top guarded, 0, garbage t⟩

/-- The value that `main` compares with `2 * NITER`, once it has joined both threads. -/
def Prints (n : Nat) (guarded : Bool) (garbage : Fin 2 → Int) (c : Int) : Prop :=
  ∃ f, ForkRun (Act n guarded) (Finished n guarded) (start guarded garbage) f ∧ f.joined = 2 ∧
    f.state.shared.count = c

theorem halted {n : Nat} {guarded : Bool} (t : Fin 2) (g : Shared) (l : Local) (g' : Shared)
    (l' : Local) (finished : Finished n guarded l) : ¬Act n guarded t g l g' l' := by
  obtain ⟨here, last⟩ := finished
  intro act
  cases act with
  | wait below _ => exact Nat.ne_of_lt below last
  | load below => exact Nat.ne_of_lt below last
  | add | store | post => cases guarded <;> cases here

section
variable {n : Nat} {s t : State (Fin 2) Shared Local} {g g' : Shared} {l l' : Local} {total : Nat}

/-- What a thread knows, when `total` values have been stored. -/
structure Own (n total : Nat) (l : Local) : Prop where
  unguarded : l.stage = .load ∨ l.stage = .add ∨ l.stage = .store
  bound : l.i ≤ n
  busy : l.stage ≠ .load → l.i < n
  add : l.stage = .add → l.tmp ≤ total ∧ 0 ≤ l.tmp ∧ (0 < l.i → 1 ≤ l.tmp)
  store : l.stage = .store → l.tmp ≤ total + 1 ∧ 1 ≤ l.tmp ∧ (0 < l.i → 2 ≤ l.tmp)

theorem Own.mono {total' : Nat} (own : Own n total l) (more : total ≤ total') : Own n total' l := by
  refine ⟨own.unguarded, own.bound, own.busy, fun adds => ?_, fun stores => ?_⟩
  · have known := own.add adds
    omega
  · have known := own.store stores
    omega

structure Inv (n : Nat) (s : State (Fin 2) Shared Local) : Prop where
  own : ∀ t, Own n (∑ u, (s.locals u).i) (s.locals t)
  upper : s.shared.count ≤ (∑ u, (s.locals u).i : Nat)
  lower : 0 ≤ s.shared.count ∧ (0 < ∑ u, (s.locals u).i → 1 ≤ s.shared.count)
  last : (∀ t, (s.locals t).i = n) → 2 ≤ s.shared.count

theorem Own.step {u : Fin 2} (own : Own n total l) (act : Act n false u g l g' l')
    (share : l.i ≤ total) (upper : g.count ≤ total)
    (lower : 0 ≤ g.count ∧ (0 < total → 1 ≤ g.count)) :
    Own n (total + l'.i - l.i) l' ∧ (l'.i = l.i ∧ g'.count = g.count ∨
      l.stage = .store ∧ l'.i = l.i + 1 ∧ g'.count = l.tmp) := by
  cases act with
  | wait | post => exact absurd own.unguarded (by simp)
  | load below =>
      refine ⟨⟨.inr (.inl rfl), own.bound, fun _ => below, fun _ => ?_, nofun⟩, .inl ⟨rfl, rfl⟩⟩
      simp only at share ⊢
      omega
  | add =>
      have known := own.add rfl
      refine ⟨⟨.inr (.inr rfl), own.bound, fun _ => own.busy nofun, nofun, fun _ => ?_⟩,
        .inl ⟨rfl, rfl⟩⟩
      simp only at known share ⊢
      omega
  | store => exact ⟨⟨.inl rfl, own.busy nofun, nofun, nofun, nofun⟩, .inr ⟨rfl, rfl, rfl⟩⟩

theorem Inv.step (two : 2 ≤ n) (inv : Inv n s) (move : Step (Act n false) s t) : Inv n t := by
  cases move with
  | turn u acted =>
      rename_i g' l'
      have sum := sum_update (fun _ l => l.i) s.locals u l'
      have share : (s.locals u).i ≤ ∑ v, (s.locals v).i :=
        Finset.single_le_sum (f := fun v => (s.locals v).i) (fun _ _ => Nat.zero_le _) (Finset.mem_univ u)
      obtain ⟨own, effect⟩ := (inv.own u).step acted share inv.upper inv.lower
      have total : ∑ v, (Function.update s.locals u l' v).i =
          (∑ v, (s.locals v).i) + l'.i - (s.locals u).i := by omega
      have grown : ∑ v, (s.locals v).i ≤ ∑ v, (Function.update s.locals u l' v).i := by
        rcases effect with ⟨same, _⟩ | ⟨_, more, _⟩ <;> omega
      have upper := inv.upper
      have lower := inv.lower
      refine ⟨fun v => ?_, ?_, ?_, fun all => ?_⟩
      · by_cases mine : v = u
        · subst mine
          simp only [Function.update_self, total]
          exact own
        · simp only [Function.update_of_ne mine]
          exact (inv.own v).mono grown
      · rcases effect with ⟨_, count⟩ | ⟨stage, more, count⟩
        · simp only [count]
          omega
        · have known := (inv.own u).store stage
          simp only [count]
          omega
      · rcases effect with ⟨same, count⟩ | ⟨stage, more, count⟩
        · simp only [count]
          refine ⟨lower.1, fun some => lower.2 (by omega)⟩
        · have known := (inv.own u).store stage
          simp only [count]
          omega
      · rcases effect with ⟨same, count⟩ | ⟨stage, more, count⟩
        · simp only [count]
          apply inv.last
          intro v
          have here := all v
          by_cases mine : v = u
          · subst mine
            simp only [Function.update_self] at here
            omega
          · simpa only [Function.update_of_ne mine] using here
        · have known := (inv.own u).store stage
          have here := all u
          simp only [Function.update_self] at here
          simp only [count]
          omega

theorem inv_start (positive : 0 < n) (garbage : Fin 2 → Int) : Inv n (start false garbage).state := by
  refine ⟨fun t => ⟨.inl rfl, Nat.zero_le n, fun busy => (busy rfl).elim, nofun, nofun⟩, ?_, ?_, ?_⟩
  · exact Int.natCast_nonneg _
  · refine ⟨Int.le_refl 0, fun some => ?_⟩
    simp [start, Forked.start] at some
  · intro all
    exact absurd (all 0) (Nat.ne_of_lt positive)

theorem prints_bounds (two : 2 ≤ n) {garbage : Fin 2 → Int} {c : Int}
    (prints : Prints n false garbage c) : 2 ≤ c ∧ c ≤ 2 * n := by
  obtain ⟨f, run, joined, rfl⟩ := prints
  have inv : Inv n f.state := run.run.invariant (inv_start (by omega) garbage)
    fun _ _ move inv => inv.step two move
  have ended : ∀ t, (f.state.locals t).i = n := fun t =>
    (ForkRun.joined_finished run rfl halted t (by rw [joined]; exact t.isLt)).2
  refine ⟨inv.last ended, ?_⟩
  have upper := inv.upper
  simp only [ended, Fin.sum_univ_two] at upper
  omega

/-! Runs that lose as many additions as wanted. -/

def both (first second : Local) : Fin 2 → Local := fun t => if t.val = 0 then first else second

theorem Act.first {guarded : Bool} (other : Local) (act : Act n guarded 0 g l g' l') :
    Step (Act n guarded) ⟨g, both l other⟩ ⟨g', both l' other⟩ := by
  have moved : both l' other = Function.update (both l other) 0 l' := by
    funext t
    by_cases zero : t = 0
    · simp [both, zero]
    · have apart : t.val ≠ 0 := by omega
      simp [both, zero, apart]
  rw [moved]
  exact .turn 0 act

theorem Act.second {guarded : Bool} (other : Local) (act : Act n guarded 1 g l g' l') :
    Step (Act n guarded) ⟨g, both other l⟩ ⟨g', both other l'⟩ := by
  have moved : both other l' = Function.update (both other l) 1 l' := by
    funext t
    by_cases one : t = 1
    · subst one
      simp [both]
    · have zero : t = 0 := by omega
      simp [both, zero]
  rw [moved]
  exact .turn 1 act

theorem both_all {p : Local → Prop} {first second : Local} (one : p first) (two : p second)
    (t : Fin 2) : p (both first second t) := by
  rw [both]
  split
  · exact one
  · exact two

theorem rounds (place : Local → Fin 2 → Local) {u : Fin 2}
    (moves : ∀ {g l g' l'}, Act n false u g l g' l' →
      Step (Act n false) ⟨g, place l⟩ ⟨g', place l'⟩) (m : Nat) {i : Nat} (fits : i + m ≤ n) (tmp : Int)
    (g : Shared) : ∃ tmp', Run (Act n false) ⟨g, place ⟨.load, i, tmp⟩⟩
      ⟨{ g with count := g.count + m }, place ⟨.load, i + m, tmp'⟩⟩ := by
  induction m with
  | zero => exact ⟨tmp, by simpa using Relation.ReflTransGen.refl⟩
  | succ m ih =>
      obtain ⟨tmp', run⟩ := ih (by omega)
      have load := moves (@Act.load n false u { g with count := g.count + m } (i + m) tmp' (by omega))
      have add := moves (@Act.add n false u { g with count := g.count + m } (i + m) (g.count + m))
      have store := moves (@Act.store n false u { g with count := g.count + m } (i + m)
        (g.count + m + 1))
      refine ⟨g.count + m + 1, ?_⟩
      rw [Int.natCast_succ, ← Int.add_assoc, ← Nat.add_assoc]
      exact ((run.tail load).tail add).tail store

theorem exists_prints {m j : Nat} (few : m < n) (few' : j < n) (garbage : Fin 2 → Int) :
    Prints n false garbage (m + 1 + j + 1) := by
  have begin : start false garbage =
      .start ⟨0, 1⟩ (both ⟨.load, 0, garbage 0⟩ ⟨.load, 0, garbage 1⟩) := by
    rw [start]
    congr 1
    funext t
    by_cases zero : t = 0
    · subst zero
      rfl
    · obtain rfl : t = 1 := by omega
      rfl
  let a : Local := ⟨.load, 0, garbage 0⟩
  -- the second thread counts to `m`
  obtain ⟨tmp, counted⟩ := rounds (both a) (Act.second a) m (show 0 + m ≤ n by omega) (garbage 1) ⟨0, 1⟩
  -- the first one reads that, and the second goes on to its last round
  let b : Local := ⟨.load, 0 + m, tmp⟩
  let a' : Local := ⟨.store, 0, 0 + m + 1⟩
  have read := Act.first b (@Act.load n false 0 ⟨0 + m, 1⟩ 0 (garbage 0) (by omega))
  have added := Act.first b (@Act.add n false 0 ⟨0 + m, 1⟩ 0 (0 + m))
  obtain ⟨tmp', ahead⟩ := rounds (both a') (Act.second a') (n - 1 - m)
    (show 0 + m + (n - 1 - m) ≤ n by omega) tmp ⟨0 + m, 1⟩
  -- what the first one stores is all that counts, and it goes on for `j` rounds
  let b' : Local := ⟨.load, 0 + m + (n - 1 - m), tmp'⟩
  have stored := Act.first b' (@Act.store n false 0 ⟨0 + m + (n - 1 - m : Nat), 1⟩ 0 (0 + m + 1))
  obtain ⟨tmp'', further⟩ := rounds (both · b') (Act.first b') j (show 0 + 1 + j ≤ n by omega)
    (0 + m + 1) ⟨0 + m + 1, 1⟩
  -- the second one reads that, the first one comes to its end, and the second one stores
  let a'' : Local := ⟨.load, 0 + 1 + j, tmp''⟩
  let b'' : Local := ⟨.store, 0 + m + (n - 1 - m), 0 + m + 1 + j + 1⟩
  have read' := Act.second a'' (@Act.load n false 1 ⟨0 + m + 1 + j, 1⟩ (0 + m + (n - 1 - m)) tmp'
    (by omega))
  have added' := Act.second a'' (@Act.add n false 1 ⟨0 + m + 1 + j, 1⟩ (0 + m + (n - 1 - m))
    (0 + m + 1 + j))
  obtain ⟨tmp₃, rest⟩ := rounds (both · b'') (Act.first b'') (n - 1 - j)
    (show 0 + 1 + j + (n - 1 - j) ≤ n by omega) tmp'' ⟨0 + m + 1 + j, 1⟩
  have stored' := Act.second ⟨.load, 0 + 1 + j + (n - 1 - j), tmp₃⟩
    (@Act.store n false 1 ⟨0 + m + 1 + j + (n - 1 - j : Nat), 1⟩ (0 + m + (n - 1 - m))
      (0 + m + 1 + j + 1))
  have run := (((((((((counted.tail read).tail added).trans ahead).tail stored).trans further).tail
    read').tail added').trans rest).tail stored')
  have ended : ∀ t, Finished n false (both ⟨.load, 0 + 1 + j + (n - 1 - j), tmp₃⟩
      ⟨.load, 0 + m + (n - 1 - m) + 1, 0 + m + 1 + j + 1⟩ t) :=
    both_all ⟨rfl, show 0 + 1 + j + (n - 1 - j) = n by omega⟩
      ⟨rfl, show 0 + m + (n - 1 - m) + 1 = n by omega⟩
  obtain ⟨f, forked, joined, here⟩ := exists_joined run ended
  refine ⟨f, begin ▸ forked, joined, ?_⟩
  rw [here]
  change (0 + m + 1 + j + 1 : Int) = _
  omega

end

/-- `thread_no_sem.c` can print any number from 2 to `2 * NITER`, and no other. -/
theorem lost_updates (garbage : Fin 2 → Int) (c : Int) :
    Prints niter false garbage c ↔ 2 ≤ c ∧ c ≤ 2 * niter := by
  constructor
  · exact prints_bounds (by decide)
  · rintro ⟨low, high⟩
    obtain ⟨m, j, few, few', rfl⟩ : ∃ m j : Nat, m < niter ∧ j < niter ∧ c = m + 1 + j + 1 := by
      by_cases small : c ≤ niter + 1
      · refine ⟨0, (c - 2).toNat, by decide, ?_, ?_⟩ <;> omega
      · refine ⟨niter - 1, (c - niter - 1).toNat, by decide, ?_, ?_⟩
        · omega
        · have positive : (niter - 1 : Nat) = (niter : Int) - 1 := rfl
          omega
    exact exists_prints few few' garbage

/-! With the semaphore. -/

section
variable {n : Nat} {s t : State (Fin 2) Shared Local} {g g' : Shared} {l l' : Local} {u : Fin 2}

def Stage.inside : Stage → Nat
  | .wait => 0
  | .load | .add | .store | .post => 1

def Local.stored (l : Local) : Nat := l.i + if l.stage = .post then 1 else 0

structure Guarded (n : Nat) (g : Shared) (l : Local) : Prop where
  bound : l.i ≤ n
  busy : l.stage ≠ .wait → l.i < n
  add : l.stage = .add → l.tmp = g.count
  store : l.stage = .store → l.tmp = g.count + 1

structure Balanced (n : Nat) (s : State (Fin 2) Shared Local) : Prop where
  each : ∀ t, Guarded n s.shared (s.locals t)
  mutex : s.shared.mutex + ∑ t, (s.locals t).stage.inside = 1
  count : s.shared.count = (∑ t, (s.locals t).stored : Nat)

theorem Guarded.step (guarded : Guarded n g l) (act : Act n true u g l g' l') :
    Guarded n g' l' ∧ g'.mutex + l'.stage.inside = g.mutex + l.stage.inside ∧
      g'.count + l.stored = g.count + l'.stored ∧ (g'.count = g.count ∨ l.stage.inside = 1) := by
  cases act with
  | wait below free =>
      refine ⟨⟨guarded.bound, fun _ => below, nofun, nofun⟩, ?_, rfl, .inl rfl⟩
      simp only [Stage.inside]
      omega
  | load below => exact ⟨⟨guarded.bound, fun _ => below, fun _ => rfl, nofun⟩, rfl, rfl, .inl rfl⟩
  | add =>
      have known := guarded.add rfl
      refine ⟨⟨guarded.bound, fun _ => guarded.busy nofun, nofun, fun _ => ?_⟩, rfl, rfl, .inl rfl⟩
      simp only at known ⊢
      rw [known]
  | store =>
      have known := guarded.store rfl
      refine ⟨⟨guarded.bound, fun _ => guarded.busy nofun, nofun, nofun⟩, rfl, ?_, .inr rfl⟩
      simp only [if_true, Local.stored] at known ⊢
      rw [known]
      simp
      omega
  | post =>
      exact ⟨⟨guarded.busy nofun, fun inside => (inside rfl).elim, nofun, nofun⟩, rfl, rfl, .inl rfl⟩

theorem sum_two {u v : Fin 2} (apart : v ≠ u) (f : Fin 2 → Nat) : ∑ t, f t = f u + f v := by
  rw [Fin.sum_univ_two]
  by_cases zero : u = 0
  · obtain rfl : v = 1 := by omega
    rw [zero]
  · obtain rfl : v = 0 := by omega
    obtain rfl : u = 1 := by omega
    exact Nat.add_comm _ _

theorem Balanced.step (balanced : Balanced n s) (move : Step (Act n true) s t) : Balanced n t := by
  cases move with
  | turn u acted =>
      rename_i g' l'
      obtain ⟨own, mutex, count, alone⟩ := (balanced.each u).step acted
      have insides := sum_update (fun _ l => l.stage.inside) s.locals u l'
      have stores := sum_update (fun _ l => l.stored) s.locals u l'
      have before := balanced.mutex
      have total := balanced.count
      refine ⟨fun v => ?_, by simp only; omega, by simp only; omega⟩
      by_cases mine : v = u
      · subst mine
        simpa only [Function.update_self] using own
      · simp only [Function.update_of_ne mine]
        have kept := balanced.each v
        rcases alone with same | inside
        · exact ⟨kept.bound, kept.busy, fun add => same ▸ kept.add add, fun store => same ▸ kept.store store⟩
        · have only := sum_two mine fun t => (s.locals t).stage.inside
          have outside : (s.locals v).stage = .wait := by
            cases stage : (s.locals v).stage with
            | wait => rfl
            | load | add | store | post =>
                have also : (s.locals v).stage.inside = 1 := by
                  rw [stage]
                  rfl
                omega
          refine ⟨kept.bound, kept.busy, fun add => ?_, fun store => ?_⟩
          · rw [outside] at add
            cases add
          · rw [outside] at store
            cases store

theorem balanced_start (garbage : Fin 2 → Int) : Balanced n (start true garbage).state :=
  ⟨fun _ => ⟨Nat.zero_le n, fun busy => (busy rfl).elim, nofun, nofun⟩, rfl, rfl⟩

def Stage.left : Stage → Nat
  | .wait => 5
  | .load => 4
  | .add => 3
  | .store => 2
  | .post => 1

def Local.rank (n : Nat) (l : Local) : Nat := 5 * (n - l.i) + l.stage.left

theorem exists_act (guarded : Guarded n g l) (enters : l.stage = .wait → l.i < n ∧ 0 < g.mutex) :
    ∃ g' l', Act n true u g l g' l' ∧ l'.rank n < l.rank n := by
  obtain ⟨stage, i, tmp⟩ := l
  cases stage with
  | wait => exact ⟨_, _, .wait (enters rfl).1 (enters rfl).2, by simp [Local.rank, Stage.left]⟩
  | load => exact ⟨_, _, .load (guarded.busy nofun), by simp [Local.rank, Stage.left]⟩
  | add => exact ⟨_, _, .add, by simp [Local.rank, Stage.left]⟩
  | store => exact ⟨_, _, .store, by simp [Local.rank, Stage.left]⟩
  | post =>
      have below : i < n := guarded.busy nofun
      refine ⟨_, _, .post, ?_⟩
      simp only [Local.rank, Stage.left]
      omega

theorem Balanced.go (balanced : Balanced n s) : (∀ t, Finished n true (s.locals t)) ∨
    ∃ t, Step (Act n true) s t ∧ Balanced n t ∧
      ∑ u, (t.locals u).rank n < ∑ u, (s.locals u).rank n := by
  have further (u : Fin 2) (enters : (s.locals u).stage = .wait →
      (s.locals u).i < n ∧ 0 < s.shared.mutex) : ∃ t, Step (Act n true) s t ∧ Balanced n t ∧
        ∑ u, (t.locals u).rank n < ∑ u, (s.locals u).rank n := by
    obtain ⟨g', l', act, lower⟩ := exists_act (u := u) (balanced.each u) enters
    exact ⟨_, .turn u act, balanced.step (.turn u act),
      @sum_rank_lt _ Shared _ _ _ (fun _ _ l => l.rank n) s u g' l' lower fun _ _ => rfl⟩
  by_cases held : ∃ u, (s.locals u).stage ≠ .wait
  · obtain ⟨u, inside⟩ := held
    exact .inr (further u fun outside => (inside outside).elim)
  · have outside : ∀ u, (s.locals u).stage = .wait := by
      intro u
      by_contra inside
      exact held ⟨u, inside⟩
    have free : 0 < s.shared.mutex := by
      have mutex := balanced.mutex
      simp only [outside, Stage.inside, Finset.sum_const_zero] at mutex
      omega
    by_cases ended : ∀ u, (s.locals u).i = n
    · exact .inl fun u => ⟨outside u, ended u⟩
    · obtain ⟨u, unfinished⟩ := not_forall.mp ended
      have bound := (balanced.each u).bound
      exact .inr (further u fun _ => ⟨by omega, free⟩)

theorem Balanced.total (balanced : Balanced n s) (ended : ∀ t, Finished n true (s.locals t)) :
    s.shared.count = 2 * n := by
  have each : ∀ t, (s.locals t).stored = n := by
    intro t
    obtain ⟨stage, last⟩ := ended t
    rw [Local.stored, stage, last]
    rfl
  have count := balanced.count
  simp only [each, Fin.sum_univ_two] at count
  omega

theorem counts_all {garbage : Fin 2 → Int} {f : Forked 2 Shared Local}
    (run : ForkRun (Act n true) (Finished n true) (start true garbage) f) :
    (f.joined = 2 → f.state.shared.count = 2 * n) ∧
      ∃ f', ForkRun (Act n true) (Finished n true) f f' ∧ f'.joined = 2 := by
  have balanced : Balanced n f.state := run.run.invariant (balanced_start garbage)
    fun _ _ move balanced => balanced.step move
  constructor
  · intro joined
    exact balanced.total fun t =>
      ForkRun.joined_finished run rfl halted t (by rw [joined]; exact t.isLt)
  · obtain ⟨s, more, ended, _⟩ :=
      exists_finished (fun _ _ (l : Local) => l.rank n) (fun _ balanced => balanced.go) balanced
    obtain ⟨f', further, joined, _⟩ := ForkRun.exists_joined run more ended
    exact ⟨f', further, joined⟩

end

/-- No update is lost between `sem_wait` and `sem_post`, and the threads can always be joined. -/
theorem no_lost_updates {garbage : Fin 2 → Int} {f : Forked 2 Shared Local}
    (run : ForkRun (Act niter true) (Finished niter true) (start true garbage) f) :
    (f.joined = 2 → f.state.shared.count = 2 * niter) ∧
      ∃ f', ForkRun (Act niter true) (Finished niter true) f f' ∧ f'.joined = 2 :=
  counts_all run

theorem no_lost_updates_end : Prints niter true (fun _ => 9) (2 * niter) := by
  have begun : ForkRun (Act niter true) (Finished niter true) (start true fun _ => 9) _ := .refl
  obtain ⟨f, run, joined⟩ := (no_lost_updates begun).2
  exact ⟨f, run, joined, (no_lost_updates run).1 joined⟩

end CudaOpenMp.ThreadAdd
