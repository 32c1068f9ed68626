import CudaOpenMp.Search.TreeforceStats
import Mathlib.Data.List.FinRange

/-!
However the workers of `treeforce.cpp` are interleaved, the merged statistics are those of
one loop over all keys.
-/

namespace CudaOpenMp.TreeforceSearch

open Interleaving KeySpace

variable (sha : Sha256) {plaintext : List Char} (keyLength : Nat)

/-- The statistics of a worker at each place, with the permutations that already ran. -/
def Stage.Holds (plaintext : List Char) (chunk : Chunk) (stats : Stats) (idx : Nat) : Stage → Prop
  | .head => stats =
      Stats.ofList (lengthsOf sha plaintext keyLength (IndexRanges.indices chunk.first.toNat idx))
  | .measure poker base perms => idx < chunk.last.toNat ∧
      afterPoker plaintext (key keyLength idx) = some poker ∧ base = seedBase (key keyLength idx) ∧
      ∃ ran, ran ++ perms = allPerms ∧ stats = Stats.ofList
        (lengthsOf sha plaintext keyLength (IndexRanges.indices chunk.first.toNat idx) ++
          permLengths sha poker base ran)
  | .bump => idx < chunk.last.toNat ∧ stats = Stats.ofList
      (lengthsOf sha plaintext keyLength (IndexRanges.indices chunk.first.toNat (idx + 1)))
  | .done => idx = chunk.last.toNat ∧ stats =
      Stats.ofList (lengthsOf sha plaintext keyLength (IndexRanges.indices chunk.first.toNat idx))

structure Tracks (plaintext : List Char) (chunk : Chunk) (stats : Stats) (w : Worker) : Prop where
  endIdx : w.endIdx = chunk.last
  lower : chunk.first.toNat ≤ w.idx.toNat
  upper : w.idx.toNat ≤ chunk.last.toNat
  holds : w.stage.Holds sha keyLength plaintext chunk stats w.idx.toNat

theorem lengthsOf_succ {first idx : Nat} (lower : first ≤ idx) :
    lengthsOf sha plaintext keyLength (IndexRanges.indices first (idx + 1)) =
      lengthsOf sha plaintext keyLength (IndexRanges.indices first idx) ++
        keyLengths sha plaintext (key keyLength idx) := by
  rw [lengthsOf, IndexRanges.indices_succ lower, List.flatMap_append, List.flatMap_singleton]
  rfl

theorem step_others {n : Nat} {t : Fin n} {g g' : Shared n} {w w' : Worker}
    (acted : step sha plaintext keyLength t g w = some (g', w')) {j : Fin n} (other : j ≠ t) :
    g'.threadStats j = g.threadStats j := by
  simp only [step] at acted
  split at acted
  · split at acted
    · obtain ⟨poker, _, result⟩ := Option.bind_eq_some_iff.mp acted
      cases result
      rfl
    · cases acted
      rfl
  · obtain ⟨len, _, result⟩ := Option.bind_eq_some_iff.mp acted
    cases result
    exact Function.update_of_ne other _ _
  · cases acted
    rfl
  · cases acted
    rfl
  · cases acted

theorem step_tracks {n : Nat} {t : Fin n} {chunk : Chunk} {g g' : Shared n} {w w' : Worker}
    (acted : step sha plaintext keyLength t g w = some (g', w'))
    (held : Tracks sha keyLength plaintext chunk (g.threadStats t) w) :
    Tracks sha keyLength plaintext chunk (g'.threadStats t) w' := by
  obtain ⟨endIdx, lower, upper, holds⟩ := held
  cases stage : w.stage with
  | head =>
      rw [stage] at holds
      simp only [step, stage, endIdx, UInt64.lt_iff_toNat_lt, currentKey, fillDigits_chr] at acted
      split at acted
      · next within =>
        obtain ⟨poker, substituted, result⟩ := Option.bind_eq_some_iff.mp acted
        cases result
        refine ⟨rfl, lower, upper, within, substituted, rfl, [], rfl, ?_⟩
        rw [holds]
        simp [permLengths]
      · next beyond =>
        cases acted
        exact ⟨rfl, lower, upper, by simp only; omega, holds⟩
  | measure poker base perms =>
      rw [stage] at holds
      obtain ⟨within, substituted, rfl, ran, split, stats⟩ := holds
      cases perms with
      | nil =>
          simp only [step, stage] at acted
          cases acted
          rw [List.append_nil] at split
          refine ⟨endIdx, lower, upper, within, ?_⟩
          rw [stats, split, lengthsOf_succ sha keyLength lower, keyLengths, substituted]
          rfl
      | cons perm rest =>
          simp only [step, stage] at acted
          obtain ⟨len, measured, result⟩ := Option.bind_eq_some_iff.mp acted
          cases result
          have longer : permLengths sha poker (seedBase (key keyLength w.idx.toNat)) (ran ++ [perm]) =
              permLengths sha poker (seedBase (key keyLength w.idx.toNat)) ran ++ [len] := by
            simp [permLengths, measured]
          refine ⟨endIdx, lower, upper, within, substituted, rfl, ran ++ [perm], by simpa using split, ?_⟩
          simp only [Function.update_self]
          rw [stats, ofList_append_one, longer, List.append_assoc]
  | bump =>
      rw [stage] at holds
      simp only [step, stage] at acted
      cases acted
      have wordSize := chunk.last.toNat_lt
      obtain ⟨within, stats⟩ := holds
      have next : (w.idx + 1).toNat = w.idx.toNat + 1 := toNat_succ (by omega)
      refine ⟨endIdx, by simp only [next]; omega, by simp only [next]; omega, ?_⟩
      simp only [next]
      exact stats
  | done => simp [step, stage] at acted

theorem stable {n : Nat} (chunks : Fin n → Chunk) :
    Stable (act sha plaintext keyLength) fun (t : Fin n) g w =>
      Tracks sha keyLength plaintext (chunks t) (g.threadStats t) w where
  own := fun _ _ _ _ _ acted held => step_tracks sha keyLength acted held
  others := by
    intro t j g w g' w' m different acted _ held
    rw [step_others sha keyLength acted (Ne.symm different)]
    exact held

theorem total_eq : total keyLength = UInt64.ofNat (36 ^ keyLength) := by
  rw [total]
  induction keyLength with
  | zero => rfl
  | succ length ih =>
      rw [List.range_succ, List.foldl_append, ih, List.foldl_cons, List.foldl_nil, Nat.pow_succ,
        UInt64.ofNat_mul]
      rfl

def cut (keyLength : Nat) (numThreads : UInt32) (t : Nat) : Nat :=
  if t < numThreads.toNat then t * (36 ^ keyLength / numThreads.toNat) else 36 ^ keyLength

section
variable {keyLength} (room : 36 ^ keyLength < 2 ^ 64) {numThreads : UInt32}
include room

theorem total_toNat : (total keyLength).toNat = 36 ^ keyLength := by
  rw [total_eq, UInt64.toNat_ofNat']
  exact Nat.mod_eq_of_lt room

theorem share_toNat {t : Nat} (bound : t ≤ numThreads.toNat) :
    (UInt64.ofNat t * (total keyLength / numThreads.toUInt64)).toNat =
      t * (36 ^ keyLength / numThreads.toNat) := by
  have small := numThreads.toNat_lt
  have index : (UInt64.ofNat t).toNat = t := UInt64.toNat_ofNat_of_lt' (show t < 2 ^ 64 by omega)
  have below : t * (36 ^ keyLength / numThreads.toNat) ≤ 36 ^ keyLength :=
    (Nat.mul_le_mul_right _ bound).trans (Nat.mul_div_le _ _)
  rw [UInt64.toNat_mul, index, UInt64.toNat_div, total_toNat room, UInt32.toNat_toUInt64]
  exact Nat.mod_eq_of_lt (by omega)

theorem job_toNat (t : Fin numThreads.toNat) :
    (job keyLength numThreads t).first.toNat = cut keyLength numThreads t ∧
      (job keyLength numThreads t).last.toNat = cut keyLength numThreads (t + 1) := by
  have inside := t.isLt
  constructor
  · rw [job, cut, if_pos inside]
    exact share_toNat room (Nat.le_of_lt inside)
  · by_cases last : t.val = numThreads.toNat - 1
    · have beyond : ¬t.val + 1 < numThreads.toNat := by omega
      simp only [job, cut, if_pos last, if_neg beyond]
      exact total_toNat room
    · have within : t.val + 1 < numThreads.toNat := by omega
      simp only [job, cut, if_neg last, if_pos within]
      exact share_toNat room (Nat.le_of_lt within)

omit room in
theorem cut_rising (t : Nat) : cut keyLength numThreads t ≤ cut keyLength numThreads (t + 1) :=
  IndexRanges.floorCut_rising (36 ^ keyLength) numThreads.toNat t

theorem job_ordered (t : Fin numThreads.toNat) :
    (job keyLength numThreads t).first.toNat ≤ (job keyLength numThreads t).last.toNat := by
  rw [(job_toNat room t).1, (job_toNat room t).2]
  exact cut_rising t

theorem jobs_numbers (positive : 1 ≤ numThreads) :
    (List.finRange numThreads.toNat).flatMap (fun t => (job keyLength numThreads t).numbers) =
      List.range (36 ^ keyLength) := by
  have threads : 0 < numThreads.toNat := UInt32.le_iff_toNat_le.mp positive
  have pieces (t : Fin numThreads.toNat) : (job keyLength numThreads t).numbers =
      IndexRanges.indices (cut keyLength numThreads t) (cut keyLength numThreads (t + 1)) := by
    rw [Chunk.numbers, (job_toNat room t).1, (job_toNat room t).2]
  have joined := IndexRanges.flatMap_floorCut (36 ^ keyLength) threads
  rw [← List.map_coe_finRange_eq_range, List.flatMap_map] at joined
  rw [← joined]
  exact List.flatMap_congr fun t _ => pieces t

theorem sequential_eq (size : plaintext.length = 4) :
    sequential sha plaintext keyLength =
      some (Stats.ofList (lengthsOf sha plaintext keyLength (List.range (36 ^ keyLength)))) := by
  have loop (numbers : List Nat) (small : ∀ number ∈ numbers, number < 2 ^ 64) (lens : List Nat) :
      numbers.foldlM (fun stats idx =>
        measureKey sha plaintext (currentKey keyLength (UInt64.ofNat idx)) stats) (Stats.ofList lens) =
      some (Stats.ofList (lens ++ lengthsOf sha plaintext keyLength numbers)) := by
    induction numbers generalizing lens with
    | nil => simp [lengthsOf]
    | cons number rest ih =>
        have index : (UInt64.ofNat number).toNat = number :=
          UInt64.toNat_ofNat_of_lt' (small number List.mem_cons_self)
        have spelled : currentKey keyLength (UInt64.ofNat number) = key keyLength number := by
          rw [currentKey, fillDigits_chr, index]
        rw [List.foldlM_cons, spelled, measureKey_eq sha size, Option.bind_eq_bind, Option.bind_some,
          ih fun n member => small n (List.mem_cons_of_mem number member)]
        simp [lengthsOf]
  have small : ∀ number ∈ List.range (36 ^ keyLength), number < 2 ^ 64 := by
    intro number member
    exact (List.mem_range.mp member).trans room
  rw [sequential]
  simpa [Stats.ofList] using loop (List.range (36 ^ keyLength)) small []

end

theorem lengthsOf_length (size : plaintext.length = 4) (numbers : List Nat) :
    (lengthsOf sha plaintext keyLength numbers).length = 24 * numbers.length := by
  induction numbers with
  | nil => rfl
  | cons number rest ih =>
      rw [lengthsOf] at ih ⊢
      rw [List.flatMap_cons, List.length_append, (keyLengths_bounds sha size _).1, ih,
        List.length_cons]
      omega

theorem lengthsOf_bounds (size : plaintext.length = 4) (numbers : List Nat) :
    ∀ len ∈ lengthsOf sha plaintext keyLength numbers, 8 ≤ len ∧ len ≤ 88 := by
  intro len member
  obtain ⟨number, _, belongs⟩ := List.mem_flatMap.mp member
  exact (keyLengths_bounds sha size _).2 len belongs

theorem sum_bounds {lens : List Nat} (bounds : ∀ len ∈ lens, 8 ≤ len ∧ len ≤ 88) :
    8 * lens.length ≤ lens.sum ∧ lens.sum ≤ 88 * lens.length := by
  induction lens with
  | nil => simp
  | cons len rest ih =>
      have first := bounds len List.mem_cons_self
      have later := ih fun x member => bounds x (List.mem_cons_of_mem len member)
      rw [List.sum_cons, List.length_cons]
      omega

/-! Every run. -/

section
variable {sha keyLength} (room : 36 ^ keyLength < 2 ^ 64) {numThreads : UInt32}
  {f : Forked numThreads.toNat (Shared numThreads.toNat) Worker}
  (run : Run sha plaintext keyLength (start keyLength numThreads) f)
include room run

theorem run_tracks (t : Fin numThreads.toNat) :
    Tracks sha keyLength plaintext (job keyLength numThreads t) (f.state.shared.threadStats t)
      (f.state.locals t) := by
  apply (stable sha keyLength (job keyLength numThreads)).run run.run
  intro t
  refine ⟨rfl, Nat.le_refl _, job_ordered room t, ?_⟩
  rw [start, Forked.start]
  simp only [Stage.Holds, IndexRanges.indices_empty (Nat.le_refl _)]
  rfl

theorem run_stats (joined : f.joined = numThreads.toNat) (t : Fin numThreads.toNat) :
    f.state.shared.threadStats t =
      Stats.ofList (lengthsOf sha plaintext keyLength (job keyLength numThreads t).numbers) := by
  have finished : (f.state.locals t).finished := by
    apply run.joined_finished rfl
    · intro _ _ w _ _ finished acted
      cases stage : w.stage <;> simp [Worker.finished, stage] at finished
      simp [act, step, stage] at acted
    · rw [joined]
      exact t.isLt
  have holds := (run_tracks room run t).holds
  rw [Worker.finished] at finished
  cases stage : (f.state.locals t).stage with
  | done =>
      rw [stage] at holds
      obtain ⟨ends, stats⟩ := holds
      rw [stats, ends]
      rfl
  | head | measure _ _ _ | bump => simp [stage] at finished

theorem merged_eq (positive : 1 ≤ numThreads) (joined : f.joined = numThreads.toNat) :
    merged f =
      Stats.ofList (lengthsOf sha plaintext keyLength (List.range (36 ^ keyLength))) := by
  have fold (threads : List (Fin numThreads.toNat)) (lens : List Nat) :
      threads.foldl (fun merged t => merged.merge (f.state.shared.threadStats t)) (Stats.ofList lens) =
        Stats.ofList (lens ++ lengthsOf sha plaintext keyLength
          (threads.flatMap fun t => (job keyLength numThreads t).numbers)) := by
    induction threads generalizing lens with
    | nil => simp [lengthsOf]
    | cons t rest ih =>
        rw [List.foldl_cons, run_stats room run joined t, merge_ofList, ih]
        simp [lengthsOf]
  rw [merged, ← jobs_numbers room positive]
  exact fold (List.finRange numThreads.toNat) []

end

theorem room_of_count (room : 24 * 36 ^ keyLength < 2 ^ 64) : 36 ^ keyLength < 2 ^ 64 := by
  omega

theorem count_of_lengths (size : plaintext.length = 4) :
    (lengthsOf sha plaintext keyLength (List.range (36 ^ keyLength))).length = 24 * 36 ^ keyLength := by
  rw [lengthsOf_length sha keyLength size, List.length_range]

/-- The merged statistics are those of the sequential loop; only the total length wraps. -/
theorem bruteforce_eq_sequential {sha : Sha256} {plaintext : List Char}
    (size : plaintext.length = 4) {keyLength : Nat} (room : 24 * 36 ^ keyLength < 2 ^ 64)
    {numThreads : UInt32} (positive : 1 ≤ numThreads)
    {f : Forked numThreads.toNat (Shared numThreads.toNat) Worker}
    (run : Run sha plaintext keyLength (start keyLength numThreads) f)
    (joined : f.joined = numThreads.toNat) :
    sequential sha plaintext keyLength = some (merged f) ∧
      (merged f).count.toNat = 24 * 36 ^ keyLength ∧
      (merged f).frequencies = 24 * 36 ^ keyLength ∧
      (merged f).totalLen.toNat = (merged f).weighted % 2 ^ 64 ∧
      (keyLength ≤ 10 → (merged f).totalLen.toNat = (merged f).weighted) ∧
      (merged f).lenFreq.minKey? = some (merged f).minLen ∧
      (merged f).lenFreq.maxKey? = some (merged f).maxLen := by
  have narrow := room_of_count keyLength room
  have length := count_of_lengths sha keyLength size
  have bounds := lengthsOf_bounds sha keyLength size (List.range (36 ^ keyLength))
  rw [merged_eq narrow run positive joined, sequential_eq sha narrow size]
  generalize lengthsOf sha plaintext keyLength (List.range (36 ^ keyLength)) = lens at length bounds
  have few : lens.length < 2 ^ 64 := by omega
  have keys : 0 < 36 ^ keyLength := Nat.pow_pos (by decide)
  have inhabited : lens ≠ [] := by
    rintro rfl
    rw [List.length_nil] at length
    omega
  have wrapped : (Stats.ofList lens).totalLen.toNat = (Stats.ofList lens).weighted % 2 ^ 64 := by
    rw [ofList_weighted few, ofList_eq, UInt64.toNat_ofNat']
  refine ⟨rfl, ?_, ?_, wrapped, ?_, ?_, ofList_maxKey inhabited⟩
  · rw [ofList_count few, length]
  · rw [ofList_frequencies few, length]
  · intro short
    have sum := (sum_bounds bounds).2
    have power : 36 ^ keyLength ≤ 36 ^ 10 := Nat.pow_le_pow_right (by decide) short
    rw [wrapped, ofList_weighted few]
    exact Nat.mod_eq_of_lt (by omega)
  · exact ofList_minKey inhabited fun len member => (bounds len member).2.trans (by decide)

/-! A schedule that lets the main thread join every worker. -/

def Stage.Runs (chunk : Chunk) (idx : Nat) : Stage → Prop
  | .head => True
  | .measure poker _ perms => idx < chunk.last.toNat ∧ OverCharset poker ∧ poker.length = 4 ∧
      perms.length ≤ 24 ∧ ∀ perm ∈ perms, perm ∈ allPerms
  | .bump => idx < chunk.last.toNat
  | .done => True

def Stage.rank : Stage → Nat
  | .head => 27
  | .measure _ _ perms => perms.length + 2
  | .bump => 1
  | .done => 0

theorem solo (size : plaintext.length = 4) {n : Nat} (chunks : Fin n → Chunk) :
    Solo (act sha plaintext keyLength) Worker.finished
      (fun t : Fin n => (⟨(chunks t).last, (chunks t).first, .head⟩ : Worker))
      (fun _ => True) (fun t _ w => w.endIdx = (chunks t).last ∧ w.stage.Runs (chunks t) w.idx.toNat)
      (fun t _ w => ((chunks t).last.toNat - w.idx.toNat) * 28 + w.stage.rank) where
  enter := fun _ _ _ => ⟨rfl, trivial⟩
  move := by
    rintro t g w ⟨endIdx, runs⟩
    cases stage : w.stage with
    | head =>
        right
        by_cases within : w.idx < w.endIdx
        · obtain ⟨poker, substituted, inCharset, pokerSize⟩ :=
            exists_afterPoker plaintext (currentKey keyLength w.idx)
          refine ⟨g, { w with stage := .measure poker (seedBase (currentKey keyLength w.idx)) allPerms },
            ?_, ⟨endIdx, ?_⟩, ?_⟩
          · simp [act, step, stage, within, substituted]
          · rw [endIdx] at within
            exact ⟨UInt64.lt_iff_toNat_lt.mp within, inCharset, pokerSize.trans size,
              Nat.le_of_eq allPerms_length, fun _ member => member⟩
          · simp [Stage.rank, allPerms_length]
        · refine ⟨g, { w with stage := .done }, by simp [act, step, stage, within], ⟨endIdx, trivial⟩, ?_⟩
          simp [Stage.rank]
    | measure poker base perms =>
        right
        rw [stage] at runs
        obtain ⟨within, inCharset, pokerSize, few, listed⟩ := runs
        cases perms with
        | nil =>
            refine ⟨g, { w with stage := .bump }, by simp [act, step, stage], ⟨endIdx, within⟩, ?_⟩
            simp [Stage.rank]
        | cons perm rest =>
            obtain ⟨len, measured, _⟩ :=
              exists_permLength sha inCharset pokerSize base (listed perm List.mem_cons_self)
            rw [List.length_cons] at few
            have later := fun p member => listed p (List.mem_cons_of_mem perm member)
            refine ⟨⟨g.checked, Function.update g.threadStats t ((g.threadStats t).record len)⟩,
              { w with stage := .measure poker base rest }, ?_,
              ⟨endIdx, within, inCharset, pokerSize, by omega, later⟩, ?_⟩
            · simp [act, step, stage, measured]
            · simp [Stage.rank]
    | bump =>
        right
        rw [stage] at runs
        have within : w.idx.toNat < (chunks t).last.toNat := runs
        have wordSize := (chunks t).last.toNat_lt
        have next : (w.idx + 1).toNat = w.idx.toNat + 1 := toNat_succ (by omega)
        refine ⟨{ g with checked := g.checked + 1 }, { w with idx := w.idx + 1, stage := .head },
          by simp [act, step, stage], ⟨endIdx, trivial⟩, ?_⟩
        simp only [Stage.rank, next]
        omega
    | done => exact Or.inl ⟨by simp [Worker.finished, stage], trivial⟩

theorem exists_joined (size : plaintext.length = 4) (numThreads : UInt32) :
    ∃ f, Run sha plaintext keyLength (start keyLength numThreads) f ∧ f.joined = numThreads.toNat :=
  (solo sha keyLength size (job keyLength numThreads)).exists_joined trivial

theorem bruteforce_eq_sequential_book :
    ∃ f : Forked 3 (Shared 3) Worker,
      sequential zeroHash ['b', 'o', 'o', 'k'] 2 = some (merged f) ∧
        (merged f).count.toNat = 24 * 36 ^ 2 ∧ (merged f).frequencies = 24 * 36 ^ 2 ∧
        (merged f).totalLen.toNat = (merged f).weighted % 2 ^ 64 ∧
        (2 ≤ 10 → (merged f).totalLen.toNat = (merged f).weighted) ∧
        (merged f).lenFreq.minKey? = some (merged f).minLen ∧
        (merged f).lenFreq.maxKey? = some (merged f).maxLen := by
  obtain ⟨f, run, joined⟩ := @exists_joined zeroHash ['b', 'o', 'o', 'k'] 2 rfl 3
  exact ⟨f, bruteforce_eq_sequential rfl (by decide) (by decide) run joined⟩

/-- With keys of eleven characters the sum of all lengths does not fit in 64 bits. -/
theorem totalLen_wraps :
    24 * 36 ^ 11 < 2 ^ 64 ∧ ∃ f : Forked 4 (Shared 4) Worker,
      Run zeroHash ['b', 'o', 'o', 'k'] 11 (start 11 4) f ∧ f.joined = 4 ∧
        (merged f).totalLen.toNat ≠ (merged f).weighted := by
  have size : ['b', 'o', 'o', 'k'].length = 4 := rfl
  refine ⟨by decide, ?_⟩
  obtain ⟨f, run, joined⟩ := exists_joined zeroHash 11 size 4
  refine ⟨f, run, joined, ?_⟩
  have length := count_of_lengths zeroHash 11 size
  have bounds := lengthsOf_bounds zeroHash 11 size (List.range (36 ^ 11))
  rw [merged_eq (by decide) run (by decide) joined]
  generalize lengthsOf zeroHash ['b', 'o', 'o', 'k'] 11 (List.range (36 ^ 11)) = lens at length bounds
  have least := (sum_bounds bounds).1
  have word := (Stats.ofList lens).totalLen.toNat_lt
  rw [ofList_weighted (by omega)]
  omega

end CudaOpenMp.TreeforceSearch
