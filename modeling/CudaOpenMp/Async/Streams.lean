import CudaOpenMp.Async.StreamsCore
import Mathlib.Algebra.Order.Group.Unbundled.Abs
import Mathlib.Algebra.Order.Ring.Int

/-!
What the host reads after the event on the default stream. The streams of `cudaStreamCreate` are
done by then; non-blocking streams need not be.
-/

namespace CudaOpenMp.Async

open Streams

section
variable {F : Type} [Add F] [Mul F] {maths : Maths F}

theorem launch_cells (stream : Stream) (blocks threads offset : Nat) :
    (launch maths stream blocks threads offset).cells =
      Finset.Ico offset (offset + blocks * threads) := by
  ext k
  simp only [launch, Finset.mem_image, Finset.mem_product, Finset.mem_range, Prod.exists,
    Finset.mem_Ico]
  constructor
  · rintro ⟨b, t, ⟨block, thread⟩, rfl⟩
    have bound : (b + 1) * threads ≤ blocks * threads := Nat.mul_le_mul_right threads block
    rw [Nat.add_mul, Nat.one_mul] at bound
    omega
  · rintro ⟨low, high⟩
    have inside : k - offset < threads * blocks := by
      rw [Nat.mul_comm]
      omega
    have some : 0 < threads := Nat.pos_of_ne_zero fun none => by simp [none] at inside
    refine ⟨(k - offset) / threads, (k - offset) % threads,
      ⟨Nat.div_lt_of_lt_mul inside, Nat.mod_lt _ some⟩, ?_⟩
    have split := Nat.mod_add_div' (k - offset) threads
    omega

variable {nStreams k : Nat} {stream : Nat → Stream}

theorem streamSize_mul (nStreams : Nat) :
    nStreams * streamSize nStreams = 4 * 1024 * blockSize * nStreams := by
  rcases Nat.eq_zero_or_pos nStreams with rfl | some
  · rfl
  · rw [streamSize, Nat.mul_div_cancel _ some, Nat.mul_comm]

theorem blocks_mul (nStreams : Nat) :
    streamSize nStreams / blockSize * blockSize = streamSize nStreams := by
  rcases Nat.eq_zero_or_pos nStreams with rfl | some
  · rfl
  · rw [streamSize, Nat.mul_div_cancel _ some]
    rfl

theorem blocks_all (nStreams : Nat) : 4 * 1024 * blockSize * nStreams / blockSize * blockSize =
    4 * 1024 * blockSize * nStreams := by
  apply Nat.div_mul_cancel
  exact Nat.dvd_mul_right_of_dvd (Nat.dvd_mul_left _ _) _

def part (maths : Maths F) (nStreams : Nat) (stream : Stream) (i : Nat) : List (Call Nat (Cell F)) :=
  [upload stream (i * streamSize nStreams) (streamSize nStreams),
    launch maths stream (streamSize nStreams / blockSize) blockSize (i * streamSize nStreams),
    download stream (i * streamSize nStreams) (streamSize nStreams)]

theorem part_cells {s : Stream} {i : Nat} {c : Call Nat (Cell F)} (member : c ∈ part maths nStreams s i) :
    c.stream = s ∧
      c.cells = Finset.Ico (i * streamSize nStreams) (i * streamSize nStreams + streamSize nStreams) := by
  simp only [part, List.mem_cons, List.not_mem_nil, or_false] at member
  rcases member with rfl | rfl | rfl
  · exact ⟨rfl, rfl⟩
  · exact ⟨rfl, by rw [launch_cells, blocks_mul]⟩
  · exact ⟨rfl, rfl⟩

theorem mem_part_iff {i : Nat} (inside : k < 4 * 1024 * blockSize * nStreams) :
    k ∈ Finset.Ico (i * streamSize nStreams) (i * streamSize nStreams + streamSize nStreams) ↔
      i = k / streamSize nStreams := by
  have some : 0 < streamSize nStreams := by
    rw [← streamSize_mul] at inside
    exact Nat.pos_of_mul_pos_left (Nat.lt_of_le_of_lt (Nat.zero_le k) inside)
  rw [Finset.mem_Ico, eq_comm, Nat.div_eq_iff some]
  have least : streamSize nStreams * i = i * streamSize nStreams := Nat.mul_comm ..
  omega

theorem flatMap_single {α : Type} (here : List α) (c m : Nat) :
    (List.range m).flatMap (fun i => if i = c then here else []) = if c < m then here else [] := by
  induction m with
  | zero => rfl
  | succ m ih =>
      rw [List.range_succ, List.flatMap_append, ih, List.flatMap_singleton]
      by_cases last : m = c
      · subst last
        simp
      · have apart : c < m ↔ c < m + 1 := by omega
        simp [last, apart]

omit [Add F] [Mul F] in
theorem touching_loop (calls : Nat → List (Call Nat (Cell F)))
    (cells : ∀ i, ∀ c ∈ calls i, c.cells =
      Finset.Ico (i * streamSize nStreams) (i * streamSize nStreams + streamSize nStreams))
    (inside : k < 4 * 1024 * blockSize * nStreams) :
    touching k ((List.range nStreams).flatMap calls) = calls (k / streamSize nStreams) := by
  have one (i : Nat) : touching k (calls i) =
      if i = k / streamSize nStreams then calls (k / streamSize nStreams) else [] := by
    by_cases here : i = k / streamSize nStreams
    · rw [if_pos here, touching, ← here]
      apply List.filter_eq_self.mpr
      intro c member
      rw [cells i c member]
      exact decide_eq_true ((mem_part_iff inside).mpr here)
    · rw [if_neg here, touching, List.filter_eq_nil_iff]
      intro c member touched
      have touched' := of_decide_eq_true touched
      rw [cells i c member] at touched'
      exact here ((mem_part_iff inside).mp touched')
  have bound : k / streamSize nStreams < nStreams := by
    apply Nat.div_lt_of_lt_mul
    rw [Nat.mul_comm, streamSize_mul]
    exact inside
  simp only [touching] at one
  rw [touching, List.filter_flatMap]
  simp only [one]
  rw [flatMap_single, if_pos bound]

theorem touching_version1 (inside : k < 4 * 1024 * blockSize * nStreams) :
    touching k (version1 maths nStreams stream) =
      part maths nStreams (stream (k / streamSize nStreams)) (k / streamSize nStreams) :=
  touching_loop _ (fun _ _ member => (part_cells member).2) inside

theorem touching_map (call : Nat → Call Nat (Cell F))
    (member : ∀ i, call i ∈ part maths nStreams (stream i) i)
    (inside : k < 4 * 1024 * blockSize * nStreams) :
    touching k ((List.range nStreams).map call) = [call (k / streamSize nStreams)] := by
  rw [List.map_eq_flatMap]
  refine touching_loop _ (fun i c here => ?_) inside
  rw [List.mem_singleton.mp here]
  exact (part_cells (member i)).2

theorem touching_version2 (inside : k < 4 * 1024 * blockSize * nStreams) :
    touching k (version2 maths nStreams stream) =
      part maths nStreams (stream (k / streamSize nStreams)) (k / streamSize nStreams) := by
  have uploads (i : Nat) : upload (stream i) (i * streamSize nStreams) (streamSize nStreams) ∈
      part maths nStreams (stream i) i := by simp [part]
  have launches (i : Nat) : launch maths (stream i) (streamSize nStreams / blockSize) blockSize
      (i * streamSize nStreams) ∈ part maths nStreams (stream i) i := by simp [part]
  have downloads (i : Nat) : download (stream i) (i * streamSize nStreams) (streamSize nStreams) ∈
      part maths nStreams (stream i) i := by simp [part]
  rw [version2, touching_append, touching_append, touching_map _ uploads inside,
    touching_map _ launches inside, touching_map _ downloads inside]
  rfl

theorem version1_part {c : Call Nat (Cell F)} (member : c ∈ version1 maths nStreams stream) :
    ∃ i, c ∈ part maths nStreams (stream i) i := by
  obtain ⟨i, _, here⟩ := List.mem_flatMap.mp member
  exact ⟨i, here⟩

theorem version2_part {c : Call Nat (Cell F)} (member : c ∈ version2 maths nStreams stream) :
    ∃ i, c ∈ part maths nStreams (stream i) i := by
  simp only [version2, List.mem_append, List.mem_map] at member
  rcases member with (⟨i, _, rfl⟩ | ⟨i, _, rfl⟩) | ⟨i, _, rfl⟩ <;> exact ⟨i, by simp [part]⟩

theorem part_waits {i j : Nat} {b c : Call Nat (Cell F)} (first : b ∈ part maths nStreams (stream i) i)
    (second : c ∈ part maths nStreams (stream j) j) :
    Disjoint b.cells c.cells ∨ c.stream.waits b.stream = true := by
  obtain ⟨streamB, cellsB⟩ := part_cells first
  obtain ⟨streamC, cellsC⟩ := part_cells second
  by_cases same : i = j
  · subst same
    rw [streamB, streamC, Stream.waits_self]
    exact .inr rfl
  · refine .inl (Finset.disjoint_left.mpr fun k inB inC => ?_)
    rw [cellsB, Finset.mem_Ico] at inB
    rw [cellsC, Finset.mem_Ico] at inC
    rcases Nat.lt_or_gt_of_ne same with less | less
    · have bound := Nat.mul_le_mul_right (streamSize nStreams) less
      rw [Nat.succ_mul] at bound
      omega
    · have bound := Nat.mul_le_mul_right (streamSize nStreams) less
      rw [Nat.succ_mul] at bound
      omega

theorem version1_pairwise : (version1 maths nStreams stream).Pairwise fun b c =>
    Disjoint b.cells c.cells ∨ c.stream.waits b.stream = true := by
  apply List.pairwise_of_forall_mem_list
  intro b first c second
  obtain ⟨i, partB⟩ := version1_part first
  obtain ⟨j, partC⟩ := version1_part second
  exact part_waits partB partC

theorem version2_pairwise : (version2 maths nStreams stream).Pairwise fun b c =>
    Disjoint b.cells c.cells ∨ c.stream.waits b.stream = true := by
  apply List.pairwise_of_forall_mem_list
  intro b first c second
  obtain ⟨i, partB⟩ := version2_part first
  obtain ⟨j, partC⟩ := version2_part second
  exact part_waits partB partC

theorem apply_part (s : Stream) (i : Nat) (x : Cell F) :
    apply k (part maths nStreams s i) x = ⟨kernel maths k x.a, kernel maths k x.a⟩ := rfl

end

/-! One version, from a state in which nothing is open. -/

section
variable {F : Type} [Zero F] {n : Nat} {past calls : List (Call Nat (Cell F))}

theorem after_version : (version n calls).foldl Log.after ⟨past, []⟩ =
    ⟨past ++ [memset n, record] ++ calls ++ [record],
      calls.filter fun b => !Stream.default.waits b.stream⟩ := by
  have shut : ([memset n] : List (Call Nat (Cell F))).filter
      (fun b => !(memset n : Call Nat (Cell F)).stream.waits b.stream) = [] := by
    simp [memset]
  have last : ([record] ++ calls ++ [record]).filter
      (fun b => !(record : Call Nat (Cell F)).stream.waits b.stream) =
      calls.filter fun b => !Stream.default.waits b.stream := by
    simp [record]
  rw [version, reads]
  simp only [List.foldl_append, Log.after_reads, List.foldl_cons, List.foldl_nil, Log.after_issues,
    Log.after_issue, Log.after_wait, List.nil_append, shut, last]
  simp only [List.append_assoc, List.singleton_append]

theorem after_fixed (waited : ∀ c ∈ calls, Stream.default.waits c.stream = true) (n : Nat) :
    (version n calls).foldl Log.after ⟨past, []⟩ =
      ⟨past ++ [memset n, record] ++ calls ++ [record], []⟩ := by
  have shut : calls.filter (fun b => !Stream.default.waits b.stream) = [] := by
    apply List.filter_eq_nil_iff.mpr
    intro c member
    simp [waited c member]
  rw [after_version, shut]

theorem orderly_version (among : calls.Pairwise fun b c =>
    Disjoint b.cells c.cells ∨ c.stream.waits b.stream = true) :
    Log.Orderly ⟨past, []⟩ (version n calls) := by
  rw [version, reads]
  simp only [Log.orderly_append, List.foldl_append, List.foldl_cons, List.foldl_nil, Log.after_issues,
    Log.orderly_reads, and_true]
  refine ⟨⟨?_, Log.orderly_issues ?_ among⟩, ?_⟩
  · simp [Log.Orderly, Log.Allows, Log.after, memset]
  · simp [Log.after, memset, record]
  · simp [Log.Orderly, Log.Allows, Log.after, memset, record]

theorem views_version (initial : Nat → Cell F) : Log.views initial ⟨past, []⟩ (version n calls) =
    (List.range n).map (Log.View initial ⟨past ++ [memset n, record] ++ calls ++ [record],
      calls.filter fun b => !Stream.default.waits b.stream⟩) := by
  have log := @after_version F _ n past calls
  rw [version, reads] at log ⊢
  simp only [List.foldl_append, Log.after_reads] at log
  simp only [Log.views_append, List.foldl_append, Log.views_issues, Log.views_reads, log]
  simp [Log.views]

end

section
variable {F : Type} [Zero F] [Add F] [Mul F] {maths : Maths F} {n : Nat}

def baselineCalls (maths : Maths F) (n : Nat) : List (Call Nat (Cell F)) :=
  [memset n] ++ [record] ++ [upload .default 0 n] ++
    [launch maths .default (n / blockSize) blockSize 0] ++ [download .default 0 n] ++ [record]

theorem baseline_log : (baseline maths n).foldl Log.after .empty = ⟨baselineCalls maths n, []⟩ := by
  rw [baseline, reads, List.foldl_append, Log.after_reads]
  rfl

theorem baseline_orderly : Log.empty.Orderly (baseline maths n) := by
  rw [baseline, reads, Log.orderly_append]
  refine ⟨?_, Log.orderly_reads _⟩
  simp [Log.Orderly, Log.Allows, Log.after, Log.empty, memset, record, upload, launch, download]

theorem baseline_views (initial : Nat → Cell F) : Log.empty.views initial (baseline maths n) =
    (List.range n).map (Log.View initial ⟨baselineCalls maths n, []⟩) := by
  have log := @baseline_log F _ _ _ maths n
  rw [baseline, reads] at log ⊢
  simp only [List.foldl_append, Log.after_reads] at log
  rw [Log.views_append, Log.views_reads, log]
  simp [Log.views]

end

/-! What is in the arrays when all calls on a part have run. -/

section
variable {F : Type} [Zero F] [Add F] [Mul F] {maths : Maths F} {nStreams k : Nat}
  {stream : Nat → Stream} {past calls : List (Call Nat (Cell F))} {initial : Nat → Cell F}

def value (maths : Maths F) (i : Nat) : F := kernel maths i 0

def values (maths : Maths F) (nStreams : Nat) : List F :=
  (List.range (4 * 1024 * blockSize * nStreams)).map (value maths)

theorem touching_version (inside : k < 4 * 1024 * blockSize * nStreams)
    (touched : touching k calls =
      part maths nStreams (stream (k / streamSize nStreams)) (k / streamSize nStreams)) :
    touching k (past ++ [memset (4 * 1024 * blockSize * nStreams), record] ++ calls ++ [record]) =
      touching k past ++ [memset (4 * 1024 * blockSize * nStreams)] ++
        part maths nStreams (stream (k / streamSize nStreams)) (k / streamSize nStreams) := by
  have around : touching k [(memset (4 * 1024 * blockSize * nStreams) : Call Nat (Cell F)), record] =
      [memset (4 * 1024 * blockSize * nStreams)] := by
    simp [touching, memset, record, inside]
  have last : touching k [(record : Call Nat (Cell F))] = [] := by simp [touching, record]
  rw [touching_append, touching_append, touching_append, around, last, touched, List.append_nil]

theorem baseline_value (inside : k < 4 * 1024 * blockSize * nStreams) (x : Cell F) :
    apply k (touching k (baselineCalls maths (4 * 1024 * blockSize * nStreams))) x =
      ⟨value maths k, value maths k⟩ := by
  have all : touching k (baselineCalls maths (4 * 1024 * blockSize * nStreams)) =
      [memset (4 * 1024 * blockSize * nStreams), upload .default 0 (4 * 1024 * blockSize * nStreams),
        launch maths .default (4 * 1024 * blockSize * nStreams / blockSize) blockSize 0,
        download .default 0 (4 * 1024 * blockSize * nStreams)] := by
    have touched : k ∈ (launch maths .default (4 * 1024 * blockSize * nStreams / blockSize)
        blockSize 0).cells := by
      rw [launch_cells, blocks_all, Finset.mem_Ico]
      omega
    simp [touching, baselineCalls, memset, record, upload, download, inside, touched]
  rw [all]
  rfl

theorem version_value (inside : k < 4 * 1024 * blockSize * nStreams)
    (touched : touching k calls =
      part maths nStreams (stream (k / streamSize nStreams)) (k / streamSize nStreams)) (x : Cell F) :
    apply k (touching k (past ++ [memset (4 * 1024 * blockSize * nStreams), record] ++ calls ++
      [record])) x = ⟨value maths k, value maths k⟩ := by
  rw [touching_version inside touched, apply_append, apply_part, apply_append]
  rfl

theorem fixed_reads {log : Log Nat (Cell F)} {n : Nat} (shut : log.opened = [])
    (exact : ∀ k < n, apply k (touching k log.past) (initial k) = ⟨value maths k, value maths k⟩) :
    List.Forall₂ (fun view v => ∀ x : Cell F, view x → x.a = v)
      ((List.range n).map (Log.View initial log)) ((List.range n).map (value maths)) := by
  rw [List.forall₂_map_left_iff, List.forall₂_map_right_iff, List.forall₂_same]
  intro k member x view
  rw [view.eq shut, exact k (List.mem_range.mp member)]

theorem fixed_baseline : List.Forall₂ (fun view v => ∀ x : Cell F, view x → x.a = v)
    (Log.empty.views initial (baseline maths (4 * 1024 * blockSize * nStreams)))
    (values maths nStreams) := by
  rw [baseline_views]
  exact fixed_reads rfl fun k inside => baseline_value inside _

theorem fixed_version (waited : ∀ c ∈ calls, Stream.default.waits c.stream = true)
    (touched : ∀ k < 4 * 1024 * blockSize * nStreams, touching k calls =
      part maths nStreams (stream (k / streamSize nStreams)) (k / streamSize nStreams)) :
    List.Forall₂ (fun view v => ∀ x : Cell F, view x → x.a = v)
      (Log.views initial ⟨past, []⟩ (version (4 * 1024 * blockSize * nStreams) calls))
      (values maths nStreams) := by
  rw [views_version]
  refine fixed_reads ?_ fun k inside => version_value inside (touched k inside) _
  apply List.filter_eq_nil_iff.mpr
  intro c member
  simp [waited c member]

end

section
variable {F : Type} [Zero F] [One F] [Add F] [Sub F] [Mul F] [LT F] [DecidableLT F]
  {maths : Maths F} {nStreams : Nat} {s : State Nat (Cell F)}

omit [Add F] [Mul F] in
theorem printed_append (n versions : Nat) {first rest : List F} (length : first.length = n) :
    printed maths n (versions + 1) (first ++ rest) =
      maxError maths first :: printed maths n versions rest := by
  rw [printed, List.take_left' length, List.drop_left' length]

omit [One F] [Sub F] [LT F] [DecidableLT F] in
theorem values_length : (values maths nStreams).length = 4 * 1024 * blockSize * nStreams := by
  rw [values, List.length_map, List.length_range]

def parity : Maths Int := ⟨fun i => (i % 2 : Nat), id, fun x => 1 - x, id, abs⟩

/-- Both asynchronous versions of `async.cu` leave what the sequential version leaves, and the same
error is printed three times. -/
theorem async_same (initial : Nat → Cell F) (run : Run (start initial (async maths nStreams)) s) :
    s.seen.map Cell.a <+: values maths nStreams ++ values maths nStreams ++ values maths nStreams ∧
      (s.program = [] → printed maths (4 * 1024 * blockSize * nStreams) 3 (s.seen.map Cell.a) =
        List.replicate 3 (maxError maths (values maths nStreams))) ∧
      ∃ t, Run s t ∧ t.program = [] := by
  have waited1 : ∀ c ∈ version1 maths nStreams .blocking, Stream.default.waits c.stream = true := by
    intro c member
    obtain ⟨i, part⟩ := version1_part member
    rw [(part_cells part).1]
    rfl
  have waited2 : ∀ c ∈ version2 maths nStreams .blocking, Stream.default.waits c.stream = true := by
    intro c member
    obtain ⟨i, part⟩ := version2_part member
    rw [(part_cells part).1]
    rfl
  have orderly : Log.empty.Orderly (async maths nStreams) := by
    rw [async, Log.orderly_append, Log.orderly_append, List.foldl_append, baseline_log,
      after_fixed waited1]
    exact ⟨⟨baseline_orderly, orderly_version version1_pairwise⟩, orderly_version version2_pairwise⟩
  have exact : List.Forall₂ (fun view v => ∀ x : Cell F, view x → x.a = v)
      (Log.empty.views initial (async maths nStreams))
      (values maths nStreams ++ values maths nStreams ++ values maths nStreams) := by
    rw [async, Log.views_append, Log.views_append, List.foldl_append, baseline_log,
      after_fixed waited1]
    exact List.rel_append (List.rel_append fixed_baseline
      (fixed_version waited1 fun k inside => touching_version1 inside))
      (fixed_version waited2 fun k inside => touching_version2 inside)
  obtain ⟨before, finished⟩ := seen_values orderly exact run
  refine ⟨before, fun ended => ?_, exists_finished orderly run⟩
  rw [finished ended, List.append_assoc, printed_append _ _ values_length,
    printed_append _ _ values_length, ← List.append_nil (values maths nStreams),
    printed_append _ _ (by rw [values_length]), List.append_nil]
  rfl

theorem async_same_parity : ∃ t, Run (start (fun _ => ⟨7, 9⟩) (async parity 4)) t ∧
    printed parity (4 * 1024 * blockSize * 4) 3 (t.seen.map Cell.a) =
      List.replicate 3 (maxError parity (values parity 4)) := by
  have begun : Run (start (fun _ => ⟨7, 9⟩) (async parity 4)) _ := .refl
  obtain ⟨_, _, t, run, finished⟩ := async_same _ begun
  exact ⟨t, run, (async_same _ run).2.1 finished⟩

theorem blockStream_same (initial : Nat → Cell F)
    (run : Run (start initial (blockStream maths nStreams)) s) :
    s.seen.map Cell.a <+: values maths nStreams ++ values maths nStreams ∧
      (s.program = [] → printed maths (4 * 1024 * blockSize * nStreams) 2 (s.seen.map Cell.a) =
        List.replicate 2 (maxError maths (values maths nStreams))) ∧
      ∃ t, Run s t ∧ t.program = [] := by
  have waited : ∀ c ∈ version2 maths nStreams (around .blocking),
      Stream.default.waits c.stream = true := by
    intro c member
    obtain ⟨i, part⟩ := version2_part member
    rw [(part_cells part).1]
    rcases i with _ | _ | i <;> rfl
  have orderly : Log.empty.Orderly (blockStream maths nStreams) := by
    rw [blockStream, Log.orderly_append, baseline_log]
    exact ⟨baseline_orderly, orderly_version version2_pairwise⟩
  have exact : List.Forall₂ (fun view v => ∀ x : Cell F, view x → x.a = v)
      (Log.empty.views initial (blockStream maths nStreams))
      (values maths nStreams ++ values maths nStreams) := by
    rw [blockStream, Log.views_append, baseline_log]
    exact List.rel_append fixed_baseline (fixed_version waited fun k inside => touching_version2 inside)
  obtain ⟨before, finished⟩ := seen_values orderly exact run
  refine ⟨before, fun ended => ?_, exists_finished orderly run⟩
  rw [finished ended, printed_append _ _ values_length, ← List.append_nil (values maths nStreams),
    printed_append _ _ (by rw [values_length]), List.append_nil]
  rfl

theorem blockStream_same_parity : ∃ t, Run (start (fun _ => ⟨7, 9⟩) (blockStream parity 4)) t ∧
    printed parity (4 * 1024 * blockSize * 4) 2 (t.seen.map Cell.a) =
      List.replicate 2 (maxError parity (values parity 4)) := by
  have begun : Run (start (fun _ => ⟨7, 9⟩) (blockStream parity 4)) _ := .refl
  obtain ⟨_, _, t, run, finished⟩ := blockStream_same _ begun
  exact ⟨t, run, (blockStream_same _ run).2.1 finished⟩

end

end CudaOpenMp.Async
