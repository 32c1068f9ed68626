import CudaOpenMp.Search.TlforceCore
import Mathlib.Algebra.BigOperators.Fin
import Mathlib.Algebra.GroupWithZero.Nat
import Mathlib.Algebra.Order.BigOperators.Group.Finset
import Mathlib.Data.Multiset.AddSub
import Mathlib.Data.Multiset.Filter
import Mathlib.Data.Multiset.Range

/-!
Every interleaving of the workers of `tlforce.cpp` finds every matching key once and
counts every key once.
-/

namespace CudaOpenMp.TlforceSearch

open Interleaving KeySpace

def start (nthreads : UInt32) : Forked (jobs nthreads).length Shared Worker :=
  Forked.start ⟨0, false, false, []⟩ fun i => (jobs nthreads)[i].start

/-- The runs of the program: the main thread starts the workers and joins them in order. -/
abbrev Run (isMatch : List Char → Bool) {n : Nat} (before after : Forked n Shared Worker) : Prop :=
  ForkRun (act isMatch) (fun w => w.stage = .done) before after

theorem carryUp_one (places : List Nat) : carryUp places 1 = Radix.bump 36 places := by
  have settled (rest : List Nat) : carryUp rest 0 = rest := by
    cases rest with
    | nil => rfl
    | cons place rest => simp [carryUp]
  induction places with
  | nil => rfl
  | cons place rest ih =>
      simp only [carryUp, Radix.bump, ih, settled, Nat.one_ne_zero, if_false]
      by_cases room : place + 1 < 36
      · rw [if_neg (by omega), if_pos room]
      · rw [if_pos (by omega), if_neg room]

theorem advance_fillDigits (length : Nat) {k : UInt64} (room : k.toNat + 1 < 2 ^ 64) :
    advance (fillDigits length k) = fillDigits length (k + 1) := by
  have next : (k + 1).toNat = k.toNat + 1 := toNat_succ room
  rw [advance, fillDigits_eq, fillDigits_eq, List.reverse_reverse, carryUp_one,
    Radix.bump_lowDigits (by decide), next]

/-- The keys whose outcome has been recorded, and those that have been counted. -/
def Worker.searched (w : Worker) : Nat :=
  match w.stage with
  | .publish | .unlock | .tally | .flush | .advance => w.k.toNat + 1
  | .test | .lock | .push | .last | .done => w.k.toNat

def Worker.tallied (w : Worker) : Nat :=
  match w.stage with
  | .flush | .advance => w.k.toNat + 1
  | .test | .lock | .push | .publish | .unlock | .tally | .last | .done => w.k.toNat

variable (isMatch : List Char → Bool)

def Job.hits (job : Job) (reached : Nat) : List (List Char) :=
  ((IndexRanges.indices job.chunk.first.toNat reached).map (key job.length)).filter isMatch

def Job.flushed (job : Job) (w : Worker) : Nat :=
  w.tallied - job.chunk.first.toNat - (if w.stage = .done then 0 else w.localChecked.toNat)

def Stage.busy : Stage → Prop
  | .test | .last | .done => False
  | .lock | .push | .publish | .unlock | .tally | .flush | .advance => True

structure Tracks (job : Job) (w : Worker) : Prop where
  length : w.length = job.length
  endIdx : w.endIdx = job.chunk.last
  lower : job.chunk.first.toNat ≤ w.k.toNat
  upper : w.k.toNat ≤ job.chunk.last.toNat
  inside : w.stage.busy → w.k.toNat < job.chunk.last.toNat
  complete : w.stage = .last ∨ w.stage = .done → w.k.toNat = job.chunk.last.toNat
  combo : w.combo = fillDigits job.length w.k
  spelled : w.stage.busy → w.key = key job.length w.k.toNat
  hit : w.stage = .lock ∨ w.stage = .push → isMatch w.key = true
  pending : w.stage ≠ .done → w.localChecked.toNat ≤ w.tallied - job.chunk.first.toNat
  batch : if w.stage = .flush then w.localChecked = 200 else w.localChecked.toNat < 200

theorem Job.start_tracks {job : Job} (ordered : job.chunk.first.toNat ≤ job.chunk.last.toNat) :
    Tracks isMatch job job.start := by
  constructor <;> simp [Job.start, Stage.busy, ordered]

structure Moves (job : Job) (g : Shared) (w : Worker) (g' : Shared) (w' : Worker) : Prop where
  tracks : Tracks isMatch job w'
  counts : ∃ amount, g'.checked = g.checked + UInt64.ofNat amount ∧
    job.flushed w' = job.flushed w + amount
  records : ∃ gained, g'.results = g.results ++ gained ∧
    job.hits isMatch w'.searched = job.hits isMatch w.searched ++ gained

theorem Moves.stay {job : Job} {g g' : Shared} {w w' : Worker} (tracks : Tracks isMatch job w')
    (checked : g'.checked = g.checked) (results : g'.results = g.results)
    (flushed : job.flushed w' = job.flushed w)
    (hits : job.hits isMatch w'.searched = job.hits isMatch w.searched) :
    Moves isMatch job g w g' w' :=
  ⟨tracks, ⟨0, by simp [checked], by simp [flushed]⟩, ⟨[], by simp [results], by simp [hits]⟩⟩

theorem Job.hits_succ (job : Job) {k : Nat} (lower : job.chunk.first.toNat ≤ k) :
    job.hits isMatch (k + 1) =
      job.hits isMatch k ++ if isMatch (key job.length k) then [key job.length k] else [] := by
  rw [Job.hits, Job.hits, IndexRanges.indices_succ lower, List.map_append, List.filter_append]
  cases outcome : isMatch (key job.length k) <;> simp [outcome]

/-- The stages between the test of a key and its count. -/
def Stage.early : Stage → Prop
  | .lock | .push | .publish | .unlock | .tally => True
  | .test | .flush | .advance | .last | .done => False

theorem Tracks.of_early {job : Job} {w : Worker} (early : w.stage.early)
    (length : w.length = job.length) (endIdx : w.endIdx = job.chunk.last)
    (lower : job.chunk.first.toNat ≤ w.k.toNat) (within : w.k.toNat < job.chunk.last.toNat)
    (combo : w.combo = fillDigits job.length w.k) (spelled : w.key = key job.length w.k.toNat)
    (hit : w.stage = .lock ∨ w.stage = .push → isMatch w.key = true)
    (pending : w.localChecked.toNat ≤ w.k.toNat - job.chunk.first.toNat)
    (batch : w.localChecked.toNat < 200) : Tracks isMatch job w := by
  refine ⟨length, endIdx, lower, Nat.le_of_lt within, fun _ => within, ?_, combo, fun _ => spelled,
    hit, ?_, ?_⟩
  · rintro (stage | stage) <;> simp [stage, Stage.early] at early
  · intro _
    cases stage : w.stage <;> simp_all [Stage.early, Worker.tallied]
  · rw [if_neg (by intro stage; simp [stage, Stage.early] at early)]
    exact batch

theorem Tracks.move {job : Job} {w : Worker} {next : Stage} (held : Tracks isMatch job w)
    (early : w.stage.early) (later : next.early)
    (hit : next = .lock ∨ next = .push → isMatch w.key = true) :
    Tracks isMatch job { w with stage := next } := by
  have busy : w.stage.busy := by
    cases stage : w.stage <;> simp_all [Stage.early, Stage.busy]
  have pending := held.pending (by intro stage; simp [stage, Stage.early] at early)
  have batch := held.batch
  have counted : w.tallied = w.k.toNat := by
    cases stage : w.stage <;> simp_all [Stage.early, Worker.tallied]
  rw [counted] at pending
  rw [if_neg (by intro stage; simp [stage, Stage.early] at early)] at batch
  exact .of_early isMatch later held.length held.endIdx held.lower (held.inside busy) held.combo
    (held.spelled busy) hit pending batch

theorem test_moves {job : Job} {g g' : Shared} {w w' : Worker} (stage : w.stage = .test)
    (acted : step isMatch g w = some (g', w')) (held : Tracks isMatch job w) :
    Moves isMatch job g w g' w' := by
  have wordSize := job.chunk.last.toNat_lt
  obtain ⟨length, endIdx, lower, upper, _, _, combo, _, _, pending, batch⟩ := held
  simp only [stage, reduceCtorEq, ne_eq, not_false_eq_true, forall_const, if_false,
    Worker.tallied] at pending batch
  simp only [step, stage, endIdx, UInt64.lt_iff_toNat_lt] at acted
  split at acted
  · next within =>
    have spelling : w.combo.map chr = key job.length w.k.toNat := by
      rw [combo, fillDigits_chr]
    simp only [spelling, Option.some.injEq, Prod.mk.injEq] at acted
    obtain ⟨rfl, rfl⟩ := acted
    cases outcome : isMatch (key job.length w.k.toNat) with
    | true =>
        apply Moves.stay
        · exact .of_early isMatch trivial length rfl lower within combo rfl
            (fun _ => outcome) pending batch
        all_goals simp [Job.flushed, Worker.tallied, Worker.searched, stage]
    | false =>
        apply Moves.stay
        · exact .of_early isMatch trivial length rfl lower within combo rfl (by simp)
            pending batch
        all_goals simp [Job.flushed, Worker.tallied, Worker.searched, stage,
          job.hits_succ isMatch lower, outcome]
  · next beyond =>
    simp only [Option.some.injEq, Prod.mk.injEq] at acted
    obtain ⟨rfl, rfl⟩ := acted
    apply Moves.stay
    · exact ⟨length, rfl, lower, upper, by simp [Stage.busy], fun _ => by simp only; omega,
        combo, by simp [Stage.busy], by simp, fun _ => pending, by simpa using batch⟩
    all_goals simp [Job.flushed, Worker.tallied, Worker.searched, stage]

theorem tally_moves {job : Job} {g g' : Shared} {w w' : Worker} (stage : w.stage = .tally)
    (acted : step isMatch g w = some (g', w')) (held : Tracks isMatch job w) :
    Moves isMatch job g w g' w' := by
  have wordSize := job.chunk.last.toNat_lt
  obtain ⟨length, endIdx, lower, upper, inside, _, combo, spelled, _, pending, batch⟩ := held
  simp only [step, stage, Option.some.injEq, Prod.mk.injEq] at acted
  obtain ⟨rfl, rfl⟩ := acted
  simp only [stage, reduceCtorEq, ne_eq, not_false_eq_true, forall_const, if_false,
    Worker.tallied] at pending batch
  have within := inside (by simp [stage, Stage.busy])
  have spelling := spelled (by simp [stage, Stage.busy])
  have next : (w.localChecked + 1).toNat = w.localChecked.toNat + 1 := toNat_succ (by omega)
  have whole : (w.localChecked + 1) % 200 = 0 ↔ w.localChecked + 1 = 200 := by
    rw [← UInt64.toNat_inj, ← UInt64.toNat_inj, UInt64.toNat_mod, next]
    simp
    omega
  by_cases full : w.localChecked + 1 = 200
  · rw [if_pos (whole.mpr full)]
    apply Moves.stay
    · exact ⟨length, endIdx, lower, upper, fun _ => within, by simp, combo, fun _ => spelling,
        by simp, fun _ => by simp only [Worker.tallied, next]; omega, by simpa using full⟩
    · rfl
    · rfl
    · simp only [Job.flushed, Worker.tallied, stage, reduceCtorEq, if_false, next]
      omega
    · simp [Worker.searched, stage]
  · rw [if_neg (mt whole.mp full)]
    have partly : w.localChecked.toNat + 1 ≠ 200 := by
      rw [← next]
      exact fun same => full (UInt64.toNat_inj.mp same)
    apply Moves.stay
    · exact ⟨length, endIdx, lower, upper, fun _ => within, by simp, combo, fun _ => spelling,
        by simp, fun _ => by simp only [Worker.tallied, next]; omega,
        by simp only [reduceCtorEq, if_false, next]; omega⟩
    · rfl
    · rfl
    · simp only [Job.flushed, Worker.tallied, stage, reduceCtorEq, if_false, next]
      omega
    · simp [Worker.searched, stage]

theorem advance_moves {job : Job} {g g' : Shared} {w w' : Worker} (stage : w.stage = .advance)
    (acted : step isMatch g w = some (g', w')) (held : Tracks isMatch job w) :
    Moves isMatch job g w g' w' := by
  have wordSize := job.chunk.last.toNat_lt
  obtain ⟨length, endIdx, lower, upper, inside, _, combo, _, _, pending, batch⟩ := held
  simp only [step, stage, Option.some.injEq, Prod.mk.injEq] at acted
  obtain ⟨rfl, rfl⟩ := acted
  simp only [stage, reduceCtorEq, ne_eq, not_false_eq_true, forall_const, if_false,
    Worker.tallied] at pending batch
  have within := inside (by simp [stage, Stage.busy])
  have next : (w.k + 1).toNat = w.k.toNat + 1 := toNat_succ (by omega)
  have turned := @advance_fillDigits job.length w.k (by omega)
  apply Moves.stay
  · exact ⟨length, endIdx, by simp only [next]; omega, by simp only [next]; omega,
      by simp [Stage.busy], by simp, by rw [combo, turned], by simp [Stage.busy], by simp,
      fun _ => by simpa only [Worker.tallied, next] using pending, by simpa using batch⟩
  all_goals simp [Job.flushed, Worker.tallied, Worker.searched, stage, next]

theorem step_moves {job : Job} {g g' : Shared} {w w' : Worker}
    (acted : step isMatch g w = some (g', w')) (held : Tracks isMatch job w) :
    Moves isMatch job g w g' w' := by
  cases stage : w.stage with
  | test => exact test_moves isMatch stage acted held
  | lock =>
      simp only [step, stage] at acted
      split at acted
      · cases acted
      · simp only [Option.some.injEq, Prod.mk.injEq] at acted
        obtain ⟨rfl, rfl⟩ := acted
        apply Moves.stay
        · exact held.move isMatch (by simp [stage, Stage.early]) trivial
            fun _ => held.hit (Or.inl stage)
        all_goals simp [Job.flushed, Worker.tallied, Worker.searched, stage]
  | push =>
      simp only [step, stage, Option.some.injEq, Prod.mk.injEq] at acted
      obtain ⟨rfl, rfl⟩ := acted
      have spelling := held.spelled (by simp [stage, Stage.busy])
      have matched := held.hit (Or.inr stage)
      refine ⟨held.move isMatch (by simp [stage, Stage.early]) trivial (by simp),
        ⟨0, by simp, by simp [Job.flushed, Worker.tallied, stage]⟩, [w.key], rfl, ?_⟩
      rw [spelling] at matched ⊢
      simp [Worker.searched, stage, job.hits_succ isMatch held.lower, matched]
  | publish =>
      simp only [step, stage, Option.some.injEq, Prod.mk.injEq] at acted
      obtain ⟨rfl, rfl⟩ := acted
      apply Moves.stay
      · exact held.move isMatch (by simp [stage, Stage.early]) trivial (by simp)
      all_goals simp [Job.flushed, Worker.tallied, Worker.searched, stage]
  | unlock =>
      simp only [step, stage, Option.some.injEq, Prod.mk.injEq] at acted
      obtain ⟨rfl, rfl⟩ := acted
      apply Moves.stay
      · exact held.move isMatch (by simp [stage, Stage.early]) trivial (by simp)
      all_goals simp [Job.flushed, Worker.tallied, Worker.searched, stage]
  | tally => exact tally_moves isMatch stage acted held
  | flush =>
      obtain ⟨length, endIdx, lower, upper, inside, _, combo, spelled, _, pending, batch⟩ := held
      simp only [step, stage, Option.some.injEq, Prod.mk.injEq] at acted
      obtain ⟨rfl, rfl⟩ := acted
      simp only [stage, reduceCtorEq, ne_eq, not_false_eq_true, forall_const, if_true,
        Worker.tallied] at pending batch
      have full : w.localChecked.toNat = 200 := by rw [batch]; rfl
      have busy : w.stage.busy := by simp [stage, Stage.busy]
      refine ⟨⟨length, endIdx, lower, upper, fun _ => inside busy, by simp, combo,
        fun _ => spelled busy, by simp, by simp, by simp⟩, ⟨200, rfl, ?_⟩, [], by simp,
        by simp [Worker.searched, stage]⟩
      simp only [Job.flushed, Worker.tallied, stage, reduceCtorEq, if_false, full,
        UInt64.toNat_zero]
      omega
  | advance => exact advance_moves isMatch stage acted held
  | last =>
      obtain ⟨length, endIdx, lower, upper, _, complete, combo, _, _, pending, batch⟩ := held
      simp only [step, stage, Option.some.injEq, Prod.mk.injEq] at acted
      obtain ⟨rfl, rfl⟩ := acted
      simp only [stage, reduceCtorEq, ne_eq, not_false_eq_true, forall_const, if_false,
        Worker.tallied] at pending batch
      refine ⟨⟨length, endIdx, lower, upper, by simp [Stage.busy], fun _ => complete (Or.inl stage),
        combo, by simp [Stage.busy], by simp, by simp, by simpa using batch⟩,
        ⟨w.localChecked.toNat, by simp, ?_⟩, [], by simp, by simp [Worker.searched, stage]⟩
      simp only [Job.flushed, Worker.tallied, stage, reduceCtorEq, if_true, if_false]
      omega
  | done => simp [step, stage] at acted

/-! The jobs together. -/

def candidates : List (List Char) := [1, 2, 3, 4].flatMap keys

theorem mem_candidates {text : List Char} :
    text ∈ candidates ↔ OverCharset text ∧ 1 ≤ text.length ∧ text.length ≤ 4 := by
  simp only [candidates, List.mem_flatMap, mem_keys]
  constructor
  · rintro ⟨length, member, inCharset, same⟩
    simp only [List.mem_cons, List.not_mem_nil, or_false] at member
    exact ⟨inCharset, by omega, by omega⟩
  · rintro ⟨inCharset, lower, upper⟩
    refine ⟨text.length, ?_, inCharset, rfl⟩
    simp only [List.mem_cons, List.not_mem_nil, or_false]
    omega

theorem candidates_nodup : candidates.Nodup := by
  apply List.nodup_flatMap.mpr
  constructor
  · intro length _
    exact keys_nodup length
  · have distinct : ([1, 2, 3, 4] : List Nat).Pairwise (· ≠ ·) := by decide
    apply distinct.imp
    intro first second different text firstMember secondMember
    exact different ((mem_keys.mp firstMember).2.symm.trans (mem_keys.mp secondMember).2)

theorem total_toNat : total.toNat = 1727604 := by decide

theorem candidates_length : candidates.length = total.toNat := by
  have size (length : Nat) : (keys length).length = 36 ^ length := by
    rw [keys, List.length_map, List.length_range]
  rw [candidates, List.length_flatMap, total_toNat]
  simp only [List.map_cons, List.map_nil, size, List.sum_cons, List.sum_nil, Nat.reducePow,
    Nat.reduceAdd]

def Job.candidates (job : Job) : List (List Char) := job.chunk.numbers.map (key job.length)

theorem countOf_toNat {length : Nat} (member : length ∈ [1, 2, 3, 4]) :
    (countOf length).toNat = 36 ^ length ∧ (countOf length).toNat < 2 ^ 31 := by
  revert length
  decide

section
variable {nthreads : UInt32} (positive : 1 ≤ nthreads)
include positive

theorem jobs_candidates : (jobs nthreads).flatMap Job.candidates = candidates := by
  have some : 1 ≤ nthreads.toUInt64.toNat := by
    rw [UInt32.toNat_toUInt64]
    exact UInt32.le_iff_toNat_le.mp positive
  rw [jobs, candidates, List.flatMap_assoc]
  apply List.flatMap_congr
  intro length member
  obtain ⟨count, small⟩ := countOf_toNat member
  have numbers := ceilChunks_numbers some
    (by rw [UInt32.toNat_toUInt64]; exact nthreads.toNat_lt) small
  rw [List.flatMap_map, keys, ← count, ← numbers, List.map_flatMap]
  rfl

theorem sum_candidates :
    ∑ i : Fin (jobs nthreads).length, (jobs nthreads)[i].candidates.length = total.toNat := by
  have sum := Fin.sum_univ_fun_getElem (jobs nthreads) fun job => job.candidates.length
  rw [← List.length_flatMap, jobs_candidates positive, candidates_length] at sum
  exact sum

theorem jobs_ordered {job : Job} (member : job ∈ jobs nthreads) :
    job.chunk.first.toNat ≤ job.chunk.last.toNat := by
  have some : 1 ≤ nthreads.toUInt64.toNat := by
    rw [UInt32.toNat_toUInt64]
    exact UInt32.le_iff_toNat_le.mp positive
  obtain ⟨length, listed, belongs⟩ := List.mem_flatMap.mp member
  obtain ⟨chunk, inside, rfl⟩ := List.mem_map.mp belongs
  exact (ceilChunks_bounds some (by rw [UInt32.toNat_toUInt64]; exact nthreads.toNat_lt)
    (countOf_toNat listed).2 inside).1

end

theorem Job.candidates_length (job : Job) :
    job.candidates.length = job.chunk.last.toNat - job.chunk.first.toNat := by
  simp [Job.candidates, Chunk.numbers, IndexRanges.indices]

theorem Tracks.flushed_le {job : Job} {w : Worker} (held : Tracks isMatch job w) :
    job.flushed w ≤ job.candidates.length := by
  have upper := held.upper
  have inside := held.inside
  rw [Job.candidates_length, Job.flushed, Worker.tallied]
  cases stage : w.stage <;> simp only [stage, Stage.busy, forall_const] at inside <;> simp only [] <;>
    omega

theorem Tracks.flushed_done {job : Job} {w : Worker} (held : Tracks isMatch job w)
    (done : w.stage = .done) : job.flushed w = job.candidates.length := by
  rw [Job.candidates_length, Job.flushed, Worker.tallied, done,
    held.complete (Or.inr done)]
  simp

theorem Tracks.hits_done {job : Job} {w : Worker} (held : Tracks isMatch job w)
    (done : w.stage = .done) :
    job.hits isMatch w.searched = job.candidates.filter isMatch := by
  rw [Worker.searched, done]
  simp only [held.complete (Or.inr done)]
  rfl

/-! Every run. -/

theorem stable {joblist : List Job} :
    Stable (act isMatch) fun (i : Fin joblist.length) _ w => Tracks isMatch joblist[i] w where
  own := fun _ _ _ _ _ acted held => (step_moves isMatch acted held).tracks
  others := fun _ _ _ _ _ _ _ _ _ _ held => held

section
variable {isMatch} {nthreads : UInt32} (positive : 1 ≤ nthreads)
  {f : Forked (jobs nthreads).length Shared Worker} (run : Run isMatch (start nthreads) f)

include run in
theorem run_done (joined : f.joined = (jobs nthreads).length) (i : Fin (jobs nthreads).length) :
    (f.state.locals i).stage = .done := by
  apply run.joined_finished rfl
  · intro _ _ w _ _ done acted
    simp [act, step, done] at acted
  · rw [joined]
    exact i.isLt

include positive run

theorem run_tracks (i : Fin (jobs nthreads).length) :
    Tracks isMatch (jobs nthreads)[i] (f.state.locals i) := by
  apply (stable isMatch).run run.run
  intro i
  exact Job.start_tracks isMatch (jobs_ordered positive (List.getElem_mem _))

theorem run_checked :
    f.state.shared.checked =
      UInt64.ofNat (∑ i : Fin (jobs nthreads).length, (jobs nthreads)[i].flushed (f.state.locals i)) := by
  apply (stable isMatch).counter Shared.checked (fun i => (jobs nthreads)[i].flushed) _
    run.run
  · intro i
    exact Job.start_tracks isMatch (jobs_ordered positive (List.getElem_mem _))
  · simp [start, Forked.start, Job.flushed, Job.start, Worker.tallied]
  · intro i g w g' w' acted held
    exact (step_moves isMatch acted held).counts

theorem run_results :
    (f.state.shared.results : Multiset (List Char)) =
      ∑ i : Fin (jobs nthreads).length,
        ((jobs nthreads)[i].hits isMatch (f.state.locals i).searched : Multiset (List Char)) := by
  apply (stable isMatch).sum (fun g => (g.results : Multiset (List Char)))
    (fun i w => ((jobs nthreads)[i].hits isMatch w.searched : Multiset (List Char))) _ run.run
  · intro i
    exact Job.start_tracks isMatch (jobs_ordered positive (List.getElem_mem _))
  · simp [start, Forked.start, Job.hits, Job.start, Worker.searched, IndexRanges.indices]
  · intro i g w g' w' acted held
    obtain ⟨gained, results, hits⟩ := (step_moves isMatch acted held).records
    exact ⟨gained, by rw [results, Multiset.coe_add], by rw [hits, Multiset.coe_add]⟩

theorem run_checked_toNat :
    f.state.shared.checked.toNat =
      ∑ i : Fin (jobs nthreads).length, (jobs nthreads)[i].flushed (f.state.locals i) ∧
      f.state.shared.checked.toNat ≤ total.toNat := by
  have bound : ∑ i : Fin (jobs nthreads).length, (jobs nthreads)[i].flushed (f.state.locals i) ≤
      total.toNat := by
    rw [← sum_candidates positive]
    exact Finset.sum_le_sum fun i _ => (run_tracks positive run i).flushed_le
  have exactly := run_checked positive run
  rw [total_toNat] at bound ⊢
  rw [exactly, UInt64.toNat_ofNat', Nat.mod_eq_of_lt (by omega)]
  exact ⟨rfl, bound⟩

theorem run_checked_done (joined : f.joined = (jobs nthreads).length) :
    f.state.shared.checked = total := by
  apply UInt64.toNat_inj.mp
  rw [(run_checked_toNat positive run).1, ← sum_candidates positive]
  apply Finset.sum_congr rfl
  intro i _
  exact (run_tracks positive run i).flushed_done isMatch (run_done run joined i)

theorem run_results_done (joined : f.joined = (jobs nthreads).length) :
    f.state.shared.results.Perm (candidates.filter isMatch) := by
  have share (i : Fin (jobs nthreads).length) :
      (jobs nthreads)[i].hits isMatch (f.state.locals i).searched =
        (jobs nthreads)[i].candidates.filter isMatch :=
    (run_tracks positive run i).hits_done isMatch (run_done run joined i)
  have sum := run_results positive run
  simp only [share] at sum
  have joint := Fin.sum_univ_fun_getElem (jobs nthreads)
    fun job => (job.candidates.filter isMatch : Multiset (List Char))
  rw [sum_coe, ← List.filter_flatMap, jobs_candidates positive] at joint
  exact Multiset.coe_eq_coe.mp (sum.trans joint)

end

/-- Every key that matches is reported once, every key is counted once, and the counter
never passes the total. -/
theorem search_complete {isMatch : List Char → Bool} {nthreads : UInt32} (positive : 1 ≤ nthreads)
    {f : Forked (jobs nthreads).length Shared Worker} (run : Run isMatch (start nthreads) f) :
    f.state.shared.checked ≤ total ∧
      (total - f.state.shared.checked).toNat = total.toNat - f.state.shared.checked.toNat ∧
      (f.joined = (jobs nthreads).length →
        f.state.shared.checked = total ∧ f.state.shared.results.Nodup ∧
          ∀ text, text ∈ f.state.shared.results ↔
            OverCharset text ∧ 1 ≤ text.length ∧ text.length ≤ 4 ∧ isMatch text = true) := by
  have below : f.state.shared.checked ≤ total :=
    UInt64.le_iff_toNat_le.mpr (run_checked_toNat positive run).2
  refine ⟨below, UInt64.toNat_sub_of_le _ _ below, ?_⟩
  intro joined
  have found := run_results_done positive run joined
  refine ⟨run_checked_done positive run joined, ?_, ?_⟩
  · exact found.nodup_iff.mpr (candidates_nodup.filter isMatch)
  · intro text
    rw [found.mem_iff, List.mem_filter, mem_candidates, and_assoc, and_assoc]

/-! A schedule that lets the main thread join every worker. -/

def Stage.rank : Stage → Nat
  | .test => 10
  | .lock => 9
  | .push => 8
  | .publish => 7
  | .unlock => 6
  | .tally => 5
  | .flush => 4
  | .advance => 3
  | .last => 2
  | .done => 1

def Stage.holdsLock : Stage → Prop
  | .push | .publish | .unlock => True
  | .test | .lock | .tally | .flush | .advance | .last | .done => False

theorem step_enabled {job : Job} {g : Shared} {w : Worker} (held : Tracks isMatch job w)
    (owned : g.locked = true → w.stage.holdsLock) (running : w.stage ≠ .done) :
    ∃ g' w', step isMatch g w = some (g', w') ∧ (g'.locked = true → w'.stage.holdsLock) ∧
      (job.chunk.last.toNat - w'.k.toNat) * 11 + w'.stage.rank <
        (job.chunk.last.toNat - w.k.toNat) * 11 + w.stage.rank := by
  have free (outside : ¬w.stage.holdsLock) : g.locked = false := by
    cases locked : g.locked with
    | false => rfl
    | true => exact absurd (owned locked) outside
  cases stage : w.stage with
  | test =>
      have unlocked := free (by simp [stage, Stage.holdsLock])
      by_cases within : w.k < w.endIdx
      · cases outcome : isMatch (w.combo.map chr) <;>
          simp [step, stage, within, outcome, unlocked, Stage.rank]
      · simp [step, stage, within, unlocked, Stage.rank]
  | lock =>
      have unlocked := free (by simp [stage, Stage.holdsLock])
      simp [step, stage, unlocked, Stage.rank, Stage.holdsLock]
  | push => simp [step, stage, Stage.rank, Stage.holdsLock]
  | publish => simp [step, stage, Stage.rank, Stage.holdsLock]
  | unlock => simp [step, stage, Stage.rank]
  | tally =>
      have unlocked := free (by simp [stage, Stage.holdsLock])
      by_cases full : (w.localChecked + 1) % 200 = 0 <;>
        simp [step, stage, full, unlocked, Stage.rank]
  | flush =>
      have unlocked := free (by simp [stage, Stage.holdsLock])
      simp [step, stage, unlocked, Stage.rank]
  | advance =>
      have unlocked := free (by simp [stage, Stage.holdsLock])
      have within := held.inside (by simp [stage, Stage.busy])
      have wordSize := job.chunk.last.toNat_lt
      have next : (w.k + 1).toNat = w.k.toNat + 1 := toNat_succ (by omega)
      simp only [step, stage, Option.some.injEq, Prod.mk.injEq]
      refine ⟨_, _, ⟨rfl, rfl⟩, by simp [unlocked], ?_⟩
      simp only [Stage.rank, next]
      omega
  | last =>
      have unlocked := free (by simp [stage, Stage.holdsLock])
      simp [step, stage, unlocked, Stage.rank]
  | done => exact absurd stage running

theorem solo {joblist : List Job}
    (ordered : ∀ job ∈ joblist, job.chunk.first.toNat ≤ job.chunk.last.toNat) :
    Solo (act isMatch) (fun w => w.stage = .done) (fun i : Fin joblist.length => joblist[i].start)
      (fun g => g.locked = false)
      (fun i g w => Tracks isMatch joblist[i] w ∧ (g.locked = true → w.stage.holdsLock))
      (fun i _ w => (joblist[i].chunk.last.toNat - w.k.toNat) * 11 + w.stage.rank) where
  enter := by
    intro i g unlocked
    refine ⟨Job.start_tracks isMatch (ordered _ (List.getElem_mem _)), ?_⟩
    simp [unlocked]
  move := by
    rintro i g w ⟨held, owned⟩
    by_cases done : w.stage = .done
    · refine Or.inl ⟨done, ?_⟩
      cases locked : g.locked with
      | false => rfl
      | true => simpa [done, Stage.holdsLock] using owned locked
    · obtain ⟨g', w', acted, ownedAfter, lower⟩ := step_enabled isMatch held owned done
      exact Or.inr ⟨g', w', acted, ⟨(step_moves isMatch acted held).tracks, ownedAfter⟩, lower⟩

theorem exists_joined {nthreads : UInt32} (positive : 1 ≤ nthreads) :
    ∃ f, Run isMatch (start nthreads) f ∧ f.joined = (jobs nthreads).length :=
  (solo isMatch fun _ member => jobs_ordered positive member).exists_joined rfl

theorem search_complete_two :
    ∃ f : Forked (jobs 2).length Shared Worker,
      f.state.shared.checked = total ∧ f.state.shared.results.Nodup ∧
        ∀ text, text ∈ f.state.shared.results ↔
          OverCharset text ∧ 1 ≤ text.length ∧ text.length ≤ 4 ∧
            decide (text = ['4', 'z', '1', 'j']) = true := by
  obtain ⟨f, run, joined⟩ := exists_joined (fun text => decide (text = ['4', 'z', '1', 'j']))
    (show (1 : UInt32) ≤ 2 by decide)
  exact ⟨f, (search_complete (by decide) run).2.2 joined⟩

end CudaOpenMp.TlforceSearch
