import CudaOpenMp.Search.TforceCore
import Mathlib.Algebra.BigOperators.Fin
import Mathlib.Algebra.GroupWithZero.Nat
import Mathlib.Algebra.Order.BigOperators.Group.Finset
import Mathlib.Algebra.Order.Group.Multiset

/-!
No interleaving of the workers of `tforce.cpp` loses all hits: a worker stops early only
after some hit has been recorded.
-/

namespace CudaOpenMp.TforceSearch

open Interleaving KeySpace

variable {Perm : Type}

def start (numThreads : Int32) : Forked (jobs numThreads).length (Shared Perm) (Worker Perm) :=
  Forked.start ⟨0, false, false, []⟩ fun i => spawn (jobs numThreads)[i]

/-- The runs of the program: the main thread starts the workers and joins them in order. -/
abbrev Run (tryKey : List Char → Option Perm) {n : Nat}
    (before after : Forked n (Shared Perm) (Worker Perm)) : Prop :=
  ForkRun (act tryKey) Worker.finished before after

variable (tryKey : List Char → Option Perm)

def hits (number : Nat) : List (List Char × Perm) :=
  (tryKey (key 4 number)).toList.map fun perm => (key 4 number, perm)

def Worker.pushed (w : Worker Perm) : List (List Char × Perm) :=
  match w.stage with
  | .unlock | .raise | .countHit | .returned => hits tryKey w.idx.toNat
  | .load | .attempt | .lock _ _ | .push _ _ | .count | .done => []

def Worker.counted (chunk : Chunk) (w : Worker Perm) : Nat :=
  match w.stage with
  | .returned => w.idx.toNat - chunk.first.toNat + 1
  | .load | .attempt | .lock _ _ | .push _ _ | .unlock | .raise | .countHit | .count | .done =>
      w.idx.toNat - chunk.first.toNat

def Stage.Holds (chunk : Chunk) (g : Shared Perm) (idx : Nat) : Stage Perm → Prop
  | .load => True
  | .attempt => idx < chunk.last.toNat
  | .lock foundKey foundPerm | .push foundKey foundPerm =>
      idx < chunk.last.toNat ∧ foundKey = key 4 idx ∧ tryKey (key 4 idx) = some foundPerm
  | .unlock | .raise | .countHit | .returned => idx < chunk.last.toNat ∧ g.results ≠ []
  | .count => idx < chunk.last.toNat ∧ tryKey (key 4 idx) = none
  | .done => g.results = [] → idx = chunk.last.toNat

structure Tracks (chunk : Chunk) (g : Shared Perm) (w : Worker Perm) : Prop where
  endIdx : w.endIdx = chunk.last
  lower : chunk.first.toNat ≤ w.idx.toNat
  upper : w.idx.toNat ≤ chunk.last.toNat
  misses : ∀ n, chunk.first.toNat ≤ n → n < w.idx.toNat → tryKey (key 4 n) = none
  holds : w.stage.Holds tryKey chunk g w.idx.toNat
  stopped : g.stop = true → g.results ≠ []

/-- What one action changes in the shared memory. -/
structure Moves (chunk : Chunk) (g : Shared Perm) (w : Worker Perm) (g' : Shared Perm)
    (w' : Worker Perm) : Prop where
  tracks : Tracks tryKey chunk g' w'
  counts : ∃ amount, g'.checked = g.checked + UInt64.ofNat amount ∧
    w'.counted chunk = w.counted chunk + amount
  records : ∃ gained, g'.results = g.results ++ gained ∧ w'.pushed tryKey = w.pushed tryKey ++ gained

theorem Moves.stay {chunk : Chunk} {g g' : Shared Perm} {w w' : Worker Perm}
    (tracks : Tracks tryKey chunk g' w') (checked : g'.checked = g.checked)
    (results : g'.results = g.results) (counted : w'.counted chunk = w.counted chunk)
    (pushed : w'.pushed tryKey = w.pushed tryKey) : Moves tryKey chunk g w g' w' :=
  ⟨tracks, ⟨0, by simp [checked], by simp [counted]⟩, ⟨[], by simp [results], by simp [pushed]⟩⟩

theorem load_moves {chunk : Chunk} {stale : Bool} {g g' : Shared Perm} {w w' : Worker Perm}
    (stage : w.stage = .load) (acted : step tryKey stale g w = some (g', w'))
    (held : Tracks tryKey chunk g w) : Moves tryKey chunk g w g' w' := by
  obtain ⟨endIdx, lower, upper, misses, holds, stopped⟩ := held
  simp only [step, stage, endIdx, UInt64.lt_iff_toNat_lt] at acted
  split at acted
  · next within =>
    by_cases seen : (if stale then false else g.stop) = true
    · rw [if_pos seen] at acted
      cases acted
      have up : g.stop = true := by
        cases stale
        · exact seen
        · cases seen
      apply Moves.stay
      · exact ⟨rfl, lower, upper, misses, fun none => absurd none (stopped up), stopped⟩
      all_goals simp [Worker.counted, Worker.pushed, stage]
    · rw [if_neg seen] at acted
      cases acted
      apply Moves.stay
      · exact ⟨rfl, lower, upper, misses, within, stopped⟩
      all_goals simp [Worker.counted, Worker.pushed, stage]
  · next beyond =>
    cases acted
    apply Moves.stay
    · refine ⟨rfl, lower, upper, misses, fun _ => ?_, stopped⟩
      simp only
      omega
    all_goals simp [Worker.counted, Worker.pushed, stage]

theorem count_moves {chunk : Chunk} {stale : Bool} {g g' : Shared Perm} {w w' : Worker Perm}
    (stage : w.stage = .count) (acted : step tryKey stale g w = some (g', w'))
    (held : Tracks tryKey chunk g w) : Moves tryKey chunk g w g' w' := by
  obtain ⟨endIdx, lower, upper, misses, holds, stopped⟩ := held
  rw [stage] at holds
  obtain ⟨within, outcome⟩ := holds
  simp only [step, stage] at acted
  cases acted
  have wordSize := chunk.last.toNat_lt
  have next : (w.idx + 1).toNat = w.idx.toNat + 1 := toNat_succ (by omega)
  refine ⟨⟨endIdx, ?_, ?_, ?_, trivial, stopped⟩, ⟨1, rfl, ?_⟩, ⟨[], by simp, ?_⟩⟩
  · simp only [next]
    omega
  · simp only [next]
    omega
  · simp only [next]
    intro n from_ below
    by_cases last : n = w.idx.toNat
    · rw [last]
      exact outcome
    · exact misses n from_ (by omega)
  · simp only [Worker.counted, stage, next]
    omega
  · simp [Worker.pushed, stage]

theorem step_moves {chunk : Chunk} {stale : Bool} {g g' : Shared Perm} {w w' : Worker Perm}
    (acted : step tryKey stale g w = some (g', w')) (held : Tracks tryKey chunk g w) :
    Moves tryKey chunk g w g' w' := by
  have ⟨endIdx, lower, upper, misses, holds, stopped⟩ := held
  cases stage : w.stage with
  | load => exact load_moves tryKey stage acted held
  | attempt =>
      simp only [stage, Stage.Holds] at holds
      simp only [step, stage, fillDigits_chr] at acted
      cases outcome : tryKey (key 4 w.idx.toNat) with
      | some foundPerm =>
          rw [outcome] at acted
          cases acted
          apply Moves.stay
          · exact ⟨endIdx, lower, upper, misses, ⟨holds, rfl, outcome⟩, stopped⟩
          all_goals simp [Worker.counted, Worker.pushed, stage]
      | none =>
          rw [outcome] at acted
          cases acted
          apply Moves.stay
          · exact ⟨endIdx, lower, upper, misses, ⟨holds, outcome⟩, stopped⟩
          all_goals simp [Worker.counted, Worker.pushed, stage]
  | lock foundKey foundPerm =>
      rw [stage] at holds
      simp only [step, stage] at acted
      split at acted
      · cases acted
      · cases acted
        apply Moves.stay
        · exact ⟨endIdx, lower, upper, misses, holds, stopped⟩
        all_goals simp [Worker.counted, Worker.pushed, stage]
  | push foundKey foundPerm =>
      rw [stage] at holds
      obtain ⟨within, rfl, outcome⟩ := holds
      simp only [step, stage] at acted
      cases acted
      refine ⟨⟨endIdx, lower, upper, misses, ⟨within, by simp⟩, by simp⟩, ⟨0, by simp, ?_⟩, ?_⟩
      · simp [Worker.counted, stage]
      · exact ⟨[(key 4 w.idx.toNat, foundPerm)], rfl, by simp [Worker.pushed, stage, hits, outcome]⟩
  | unlock =>
      rw [stage] at holds
      simp only [step, stage] at acted
      cases acted
      apply Moves.stay
      · exact ⟨endIdx, lower, upper, misses, holds, stopped⟩
      all_goals simp [Worker.counted, Worker.pushed, stage]
  | raise =>
      rw [stage] at holds
      simp only [step, stage] at acted
      cases acted
      apply Moves.stay
      · exact ⟨endIdx, lower, upper, misses, holds, fun _ => holds.2⟩
      all_goals simp [Worker.counted, Worker.pushed, stage]
  | countHit =>
      rw [stage] at holds
      simp only [step, stage] at acted
      cases acted
      refine ⟨⟨endIdx, lower, upper, misses, holds, stopped⟩, ⟨1, rfl, ?_⟩, ⟨[], ?_, ?_⟩⟩
      all_goals simp [Worker.counted, Worker.pushed, stage]
  | count => exact count_moves tryKey stage acted held
  | returned => simp [step, stage] at acted
  | done => simp [step, stage] at acted

theorem Moves.tracks_others {chunk other : Chunk} {g g' : Shared Perm} {w w' m : Worker Perm}
    (moves : Moves tryKey chunk g w g' w') (held : Tracks tryKey other g m) :
    Tracks tryKey other g' m := by
  obtain ⟨gained, results, _⟩ := moves.records
  have grows (some : g.results ≠ []) : g'.results ≠ [] := by
    rw [results]
    exact List.append_ne_nil_of_left_ne_nil some gained
  obtain ⟨endIdx, lower, upper, misses, holds, _⟩ := held
  refine ⟨endIdx, lower, upper, misses, ?_, moves.tracks.stopped⟩
  cases stage : m.stage with
  | unlock | raise | countHit | returned =>
      rw [stage] at holds
      exact ⟨holds.1, grows holds.2⟩
  | done =>
      rw [stage] at holds
      intro none
      rw [results, List.append_eq_nil_iff] at none
      exact holds none.1
  | load | attempt | lock _ _ | push _ _ | count =>
      rw [stage] at holds
      exact holds

theorem stable {chunks : List Chunk} :
    Stable (act tryKey) fun (i : Fin chunks.length) g w => Tracks tryKey chunks[i] g w where
  own := by
    rintro i g w g' w' ⟨stale, acted⟩ held
    exact (step_moves tryKey acted held).tracks
  others := by
    rintro i j g w g' w' m _ ⟨stale, acted⟩ held other
    exact (step_moves tryKey acted held).tracks_others tryKey other

/-! The chunks together. -/

def reports (numbers : List Nat) : List (List Char × Perm) := numbers.flatMap (hits tryKey)

theorem mem_hits {number : Nat} {entry : List Char × Perm} :
    entry ∈ hits tryKey number ↔ entry.1 = key 4 number ∧ tryKey entry.1 = some entry.2 := by
  obtain ⟨text, perm⟩ := entry
  simp only [hits, List.mem_map, Option.mem_toList, Prod.mk.injEq]
  constructor
  · rintro ⟨found, outcome, rfl, rfl⟩
    exact ⟨rfl, outcome⟩
  · rintro ⟨rfl, outcome⟩
    exact ⟨perm, outcome, rfl, rfl⟩

theorem mem_reports {entry : List Char × Perm} :
    entry ∈ reports tryKey (List.range (36 ^ 4)) ↔
      OverCharset entry.1 ∧ entry.1.length = 4 ∧ tryKey entry.1 = some entry.2 := by
  have known : entry.1 ∈ keys 4 ↔ OverCharset entry.1 ∧ entry.1.length = 4 := mem_keys
  simp only [reports, List.mem_flatMap, mem_hits]
  rw [← and_assoc, ← known, keys, List.mem_map]
  constructor
  · rintro ⟨number, bound, spelled, outcome⟩
    exact ⟨⟨number, bound, spelled.symm⟩, outcome⟩
  · rintro ⟨⟨number, bound, spelled⟩, outcome⟩
    exact ⟨number, bound, spelled.symm, outcome⟩

theorem reports_keys (numbers : List Nat) :
    (reports tryKey numbers).map Prod.fst =
      (numbers.map (key 4)).filter fun text => (tryKey text).isSome := by
  induction numbers with
  | nil => rfl
  | cons number rest ih =>
      rw [reports] at ih ⊢
      rw [List.flatMap_cons, List.map_append, ih, List.map_cons, List.filter_cons]
      cases outcome : tryKey (key 4 number) <;> simp [hits, outcome]

theorem total_toNat : total.toNat = 36 ^ 4 := by decide

theorem widen_toNat {n : Int32} (positive : 1 ≤ n) :
    1 ≤ n.toInt64.toUInt64.toNat ∧ n.toInt64.toUInt64.toNat < 2 ^ 32 := by
  have above : 1 ≤ n.toInt := Int32.le_iff_toInt_le.mp positive
  have below : n.toInt ≤ 2147483647 := n.toInt_le
  have wide : n.toInt64.toInt = n.toInt := Int32.toInt_toInt64 n
  have nonneg : 0 ≤ n.toInt64 := by
    rw [Int64.le_iff_toInt_le, wide]
    exact Int.le_trans (by decide) above
  have same : n.toInt64.toUInt64.toNat = n.toInt.toNat := by
    rw [Int64.toNat_toUInt64_of_le nonneg, Int64.toNatClampNeg, wide]
  omega

section
variable {numThreads : Int32} (positive : 1 ≤ numThreads)
include positive

theorem jobs_numbers : (jobs numThreads).flatMap Chunk.numbers = List.range (36 ^ 4) := by
  obtain ⟨some, few⟩ := widen_toNat positive
  rw [jobs, ceilChunks_numbers some few (by decide), total_toNat]

theorem jobs_ordered {chunk : Chunk} (member : chunk ∈ jobs numThreads) :
    chunk.first.toNat ≤ chunk.last.toNat := by
  obtain ⟨some, few⟩ := widen_toNat positive
  exact (ceilChunks_bounds some few (by decide) member).1

theorem sum_numbers :
    ∑ i : Fin (jobs numThreads).length, (jobs numThreads)[i].numbers.length = 36 ^ 4 := by
  have sum := Fin.sum_univ_fun_getElem (jobs numThreads) fun chunk => chunk.numbers.length
  rw [← List.length_flatMap, jobs_numbers positive, List.length_range] at sum
  exact sum

end

theorem spawn_tracks {chunk : Chunk} (ordered : chunk.first.toNat ≤ chunk.last.toNat) :
    Tracks tryKey chunk (⟨0, false, false, []⟩ : Shared Perm) (spawn chunk) := by
  refine ⟨rfl, Nat.le_refl _, ordered, ?_, trivial, ?_⟩
  · intro n lower below
    simp only [spawn] at below
    omega
  · simp

theorem Tracks.pushed_le {chunk : Chunk} {g : Shared Perm} {w : Worker Perm}
    (held : Tracks tryKey chunk g w) :
    (w.pushed tryKey : Multiset (List Char × Perm)) ≤ (reports tryKey chunk.numbers : Multiset _) := by
  have inside (within : w.idx.toNat < chunk.last.toNat) :
      (hits tryKey w.idx.toNat).Sublist (reports tryKey chunk.numbers) := by
    have member : w.idx.toNat ∈ chunk.numbers := IndexRanges.mem_indices.mpr ⟨held.lower, within⟩
    simpa [reports] using (List.singleton_sublist.mpr member).flatMap (hits tryKey)
  have holds := held.holds
  rw [Worker.pushed]
  cases stage : w.stage with
  | unlock | raise | countHit | returned =>
      rw [stage] at holds
      exact Multiset.coe_le.mpr (inside holds.1).subperm
  | load | attempt | lock _ _ | push _ _ | count | done => exact Multiset.zero_le _

/-! Every run. -/

section
variable {tryKey} {numThreads : Int32} (positive : 1 ≤ numThreads)
  {f : Forked (jobs numThreads).length (Shared Perm) (Worker Perm)}
  (run : Run tryKey (start numThreads) f)

include run in
theorem run_finished (joined : f.joined = (jobs numThreads).length)
    (i : Fin (jobs numThreads).length) : (f.state.locals i).finished := by
  apply run.joined_finished rfl
  · rintro _ _ w _ _ finished ⟨stale, acted⟩
    cases stage : w.stage <;> simp [Worker.finished, stage] at finished <;>
      simp [step, stage] at acted
  · rw [joined]
    exact i.isLt

include positive run

theorem run_tracks (i : Fin (jobs numThreads).length) :
    Tracks tryKey (jobs numThreads)[i] f.state.shared (f.state.locals i) := by
  apply (stable tryKey).run run.run
  intro i
  exact spawn_tracks tryKey (jobs_ordered positive (List.getElem_mem _))

theorem run_results :
    (f.state.shared.results : Multiset (List Char × Perm)) ≤
      (reports tryKey (List.range (36 ^ 4)) : Multiset _) := by
  have exactly : (f.state.shared.results : Multiset (List Char × Perm)) =
      ∑ i : Fin (jobs numThreads).length, ((f.state.locals i).pushed tryKey : Multiset _) := by
    apply (stable tryKey).sum (fun g => (g.results : Multiset (List Char × Perm)))
      (fun _ w => (w.pushed tryKey : Multiset (List Char × Perm))) _ run.run
    · intro i
      exact spawn_tracks tryKey (jobs_ordered positive (List.getElem_mem _))
    · simp [start, Forked.start, spawn, Worker.pushed]
    · rintro i g w g' w' ⟨stale, acted⟩ held
      obtain ⟨gained, results, pushed⟩ := (step_moves tryKey acted held).records
      exact ⟨gained, by rw [results, Multiset.coe_add], by rw [pushed, Multiset.coe_add]⟩
  have joint := Fin.sum_univ_fun_getElem (jobs numThreads)
    fun chunk => (reports tryKey chunk.numbers : Multiset (List Char × Perm))
  rw [sum_coe] at joint
  rw [exactly, ← jobs_numbers positive, reports, List.flatMap_assoc]
  exact (Finset.sum_le_sum fun i _ => (run_tracks positive run i).pushed_le).trans_eq joint

theorem run_checked :
    f.state.shared.checked = UInt64.ofNat (∑ i : Fin (jobs numThreads).length,
      (f.state.locals i).counted (jobs numThreads)[i]) := by
  apply (stable tryKey).counter Shared.checked
    (fun i : Fin (jobs numThreads).length => Worker.counted (jobs numThreads)[i]) _ run.run
  · intro i
    exact spawn_tracks tryKey (jobs_ordered positive (List.getElem_mem _))
  · simp [start, Forked.start, spawn, Worker.counted]
  · rintro i g w g' w' ⟨stale, acted⟩ held
    exact (step_moves tryKey acted held).counts

theorem run_exhausted (joined : f.joined = (jobs numThreads).length)
    (none : f.state.shared.results = []) (i : Fin (jobs numThreads).length) :
    (f.state.locals i).idx.toNat = (jobs numThreads)[i].last.toNat ∧
      (f.state.locals i).counted (jobs numThreads)[i] = (jobs numThreads)[i].numbers.length := by
  have held := (run_tracks positive run i).holds
  have finished := run_finished run joined i
  rw [Worker.finished] at finished
  cases stage : (f.state.locals i).stage with
  | returned =>
      rw [stage] at held
      exact absurd none held.2
  | done =>
      rw [stage] at held
      have ends := held none
      refine ⟨ends, ?_⟩
      simp [Worker.counted, stage, ends, Chunk.numbers, IndexRanges.indices]
  | load | attempt | lock _ _ | push _ _ | unlock | raise | countHit | count =>
      simp [stage] at finished

theorem run_misses (joined : f.joined = (jobs numThreads).length)
    (none : f.state.shared.results = []) {text : List Char} (inCharset : OverCharset text)
    (size : text.length = 4) : tryKey text = .none := by
  have listed : text ∈ keys 4 := mem_keys.mpr ⟨inCharset, size⟩
  rw [keys, ← jobs_numbers positive] at listed
  obtain ⟨number, inside, rfl⟩ := List.mem_map.mp listed
  obtain ⟨chunk, member, belongs⟩ := List.mem_flatMap.mp inside
  obtain ⟨i, bound, rfl⟩ := List.mem_iff_getElem.mp member
  have range := IndexRanges.mem_indices.mp belongs
  have ends := (run_exhausted positive run joined none ⟨i, bound⟩).1
  apply (run_tracks positive run ⟨i, bound⟩).misses number range.1
  rw [ends]
  exact range.2

end

/-- The results are hits, each key at most once, and there is one if any key succeeds; if
none does, all keys have been counted. -/
theorem search_sound {tryKey : List Char → Option Perm} {numThreads : Int32}
    (positive : 1 ≤ numThreads)
    {f : Forked (jobs numThreads).length (Shared Perm) (Worker Perm)}
    (run : Run tryKey (start numThreads) f) (joined : f.joined = (jobs numThreads).length) :
    (f.state.shared.results ≠ [] ↔
      ∃ text, OverCharset text ∧ text.length = 4 ∧ (tryKey text).isSome = true) ∧
      (∀ entry ∈ f.state.shared.results, OverCharset entry.1 ∧ entry.1.length = 4 ∧
        tryKey entry.1 = some entry.2) ∧
      (f.state.shared.results.map Prod.fst).Nodup ∧
      ((∀ text, OverCharset text → text.length = 4 → tryKey text = none) →
        f.state.shared.checked = total) := by
  have within := run_results positive run
  have genuine : ∀ entry ∈ f.state.shared.results, OverCharset entry.1 ∧ entry.1.length = 4 ∧
      tryKey entry.1 = some entry.2 := by
    intro entry member
    have reported := Multiset.subset_of_le within (Multiset.mem_coe.mpr member)
    exact (mem_reports tryKey).mp (Multiset.mem_coe.mp reported)
  refine ⟨⟨?_, ?_⟩, genuine, ?_, ?_⟩
  · intro some
    obtain ⟨entry, member⟩ := List.exists_mem_of_ne_nil _ some
    obtain ⟨inCharset, size, outcome⟩ := genuine entry member
    exact ⟨entry.1, inCharset, size, by rw [outcome]; rfl⟩
  · rintro ⟨text, inCharset, size, succeeds⟩ none
    rw [run_misses positive run joined none inCharset size] at succeeds
    cases succeeds
  · have keysOnce : ((reports tryKey (List.range (36 ^ 4))).map Prod.fst).Nodup := by
      rw [reports_keys]
      exact (keys_nodup 4).filter _
    have part := Multiset.map_le_map (f := Prod.fst) within
    rw [Multiset.map_coe, Multiset.map_coe] at part
    exact Multiset.coe_nodup.mp (Multiset.nodup_of_le part (Multiset.coe_nodup.mpr keysOnce))
  · intro fails
    have none : f.state.shared.results = [] := by
      apply List.eq_nil_iff_forall_not_mem.mpr
      intro entry member
      obtain ⟨inCharset, size, outcome⟩ := genuine entry member
      rw [fails entry.1 inCharset size] at outcome
      cases outcome
    have sum : ∑ i : Fin (jobs numThreads).length,
        (f.state.locals i).counted (jobs numThreads)[i] = 36 ^ 4 := by
      rw [← sum_numbers positive]
      exact Finset.sum_congr rfl fun i _ => (run_exhausted positive run joined none i).2
    apply UInt64.toNat_inj.mp
    rw [run_checked positive run, sum, total_toNat, UInt64.toNat_ofNat']
    exact Nat.mod_eq_of_lt (by decide)

/-! A schedule that lets the main thread join every worker. -/

def Stage.rank : Stage Perm → Nat
  | .load => 8
  | .attempt => 7
  | .lock _ _ => 6
  | .push _ _ => 5
  | .unlock => 4
  | .raise => 3
  | .countHit => 2
  | .count => 1
  | .returned => 0
  | .done => 0

def Stage.holdsLock : Stage Perm → Prop
  | .push _ _ | .unlock => True
  | .load | .attempt | .lock _ _ | .raise | .countHit | .count | .returned | .done => False

theorem step_enabled {chunk : Chunk} {g : Shared Perm} {w : Worker Perm}
    (held : Tracks tryKey chunk g w) (owned : g.locked = true → w.stage.holdsLock)
    (running : ¬w.finished) :
    ∃ g' w', step tryKey true g w = some (g', w') ∧ (g'.locked = true → w'.stage.holdsLock) ∧
      (chunk.last.toNat - w'.idx.toNat) * 8 + w'.stage.rank <
        (chunk.last.toNat - w.idx.toNat) * 8 + w.stage.rank := by
  have free (outside : ¬w.stage.holdsLock) : g.locked = false := by
    cases locked : g.locked with
    | false => rfl
    | true => exact absurd (owned locked) outside
  cases stage : w.stage with
  | load =>
      have unlocked := free (by simp [stage, Stage.holdsLock])
      by_cases within : w.idx < w.endIdx <;> simp [step, stage, within, unlocked, Stage.rank]
  | attempt =>
      have unlocked := free (by simp [stage, Stage.holdsLock])
      cases outcome : tryKey ((fillDigits 4 w.idx).map chr) <;>
        simp [step, stage, outcome, unlocked, Stage.rank]
  | lock foundKey foundPerm =>
      have unlocked := free (by simp [stage, Stage.holdsLock])
      simp [step, stage, unlocked, Stage.rank, Stage.holdsLock]
  | push foundKey foundPerm => simp [step, stage, Stage.rank, Stage.holdsLock]
  | unlock => simp [step, stage, Stage.rank]
  | raise =>
      have unlocked := free (by simp [stage, Stage.holdsLock])
      simp [step, stage, unlocked, Stage.rank]
  | countHit =>
      have unlocked := free (by simp [stage, Stage.holdsLock])
      simp [step, stage, unlocked, Stage.rank]
  | count =>
      have unlocked := free (by simp [stage, Stage.holdsLock])
      have within := held.holds
      simp only [stage, Stage.Holds] at within
      have wordSize := chunk.last.toNat_lt
      have next : (w.idx + 1).toNat = w.idx.toNat + 1 := toNat_succ (by omega)
      simp only [step, stage, Option.some.injEq, Prod.mk.injEq]
      refine ⟨_, _, ⟨rfl, rfl⟩, by simp [unlocked], ?_⟩
      simp only [Stage.rank, next]
      omega
  | returned => simp [Worker.finished, stage] at running
  | done => simp [Worker.finished, stage] at running

theorem solo {chunks : List Chunk} (ordered : ∀ chunk ∈ chunks, chunk.first.toNat ≤ chunk.last.toNat) :
    Solo (act tryKey) Worker.finished (fun i : Fin chunks.length => spawn chunks[i])
      (fun g => g.locked = false ∧ (g.stop = true → g.results ≠ []))
      (fun i g w => Tracks tryKey chunks[i] g w ∧ (g.locked = true → w.stage.holdsLock))
      (fun i _ w => (chunks[i].last.toNat - w.idx.toNat) * 8 + w.stage.rank) where
  enter := by
    rintro i g ⟨unlocked, stopped⟩
    have fresh := spawn_tracks tryKey (ordered chunks[i] (List.getElem_mem _))
    exact ⟨⟨fresh.endIdx, fresh.lower, fresh.upper, fresh.misses, trivial, stopped⟩, by simp [unlocked]⟩
  move := by
    rintro i g w ⟨held, owned⟩
    by_cases finished : w.finished
    · refine Or.inl ⟨finished, ?_, held.stopped⟩
      cases locked : g.locked with
      | false => rfl
      | true =>
          have holder := owned locked
          rw [Worker.finished] at finished
          cases stage : w.stage <;> simp [stage, Stage.holdsLock] at finished holder
    · obtain ⟨g', w', acted, ownedAfter, lower⟩ := step_enabled tryKey held owned finished
      exact Or.inr ⟨g', w', ⟨true, acted⟩, ⟨(step_moves tryKey acted held).tracks, ownedAfter⟩, lower⟩

theorem exists_joined {numThreads : Int32} (positive : 1 ≤ numThreads) :
    ∃ f, Run tryKey (start numThreads) f ∧ f.joined = (jobs numThreads).length :=
  (solo tryKey fun _ member => jobs_ordered positive member).exists_joined ⟨rfl, by simp⟩

/-- A stand-in for `try_key` that succeeds on one key. -/
def tryZero (text : List Char) : Option (List Nat) :=
  if text = ['0', '0', '0', '0'] then some [2, 0, 3, 1] else none

theorem search_sound_two :
    ∃ f : Forked (jobs 2).length (Shared (List Nat)) (Worker (List Nat)),
      (f.state.shared.results ≠ [] ↔
        ∃ text, OverCharset text ∧ text.length = 4 ∧ (tryZero text).isSome = true) ∧
        (∀ entry ∈ f.state.shared.results, OverCharset entry.1 ∧ entry.1.length = 4 ∧
          tryZero entry.1 = some entry.2) ∧
        (f.state.shared.results.map Prod.fst).Nodup ∧
        ((∀ text, OverCharset text → text.length = 4 → tryZero text = none) →
          f.state.shared.checked = total) := by
  obtain ⟨f, run, joined⟩ := exists_joined tryZero (show (1 : Int32) ≤ 2 by decide)
  exact ⟨f, search_sound (by decide) run joined⟩

end CudaOpenMp.TforceSearch
