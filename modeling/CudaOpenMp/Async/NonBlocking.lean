import CudaOpenMp.Async.Streams

/-!
`nonblock_stream.cu`: the event on the default stream says nothing about the other streams, and
the host can read any mixture of old and new values there.
-/

namespace CudaOpenMp.Async

open Streams

section
variable {F : Type} [Add F] [Mul F] {maths : Maths F} {nStreams k : Nat}

/-! What a read can return. -/

theorem around_stream {i : Nat} (other : Stream.default.waits (around .nonBlocking i) = false) :
    i ≠ 1 ∧ ∃ j, around .nonBlocking i = .nonBlocking j := by
  rcases i with _ | _ | i
  · exact ⟨nofun, 0, rfl⟩
  · cases other
  · exact ⟨by omega, i + 1, rfl⟩

theorem mem_opened {c : Call Nat (Cell F)} (member : c ∈ (version2 maths nStreams
    (around .nonBlocking)).filter fun b => !Stream.default.waits b.stream) :
    ∃ j, c.stream = .nonBlocking j := by
  obtain ⟨issued, other⟩ := List.mem_filter.mp member
  obtain ⟨i, part⟩ := version2_part issued
  rw [(part_cells part).1] at other ⊢
  exact (around_stream (by simpa using other)).2

theorem mid_value {s : Stream} {i : Nat} {mid ahead : List (Call Nat (Cell F))}
    (split : part maths nStreams s i = mid ++ ahead) (x : Cell F) :
    ahead = [] ∨ (apply k mid x).a = x.a := by
  rw [part] at split
  rcases mid with _ | ⟨first, _ | ⟨second, _ | ⟨third, rest⟩⟩⟩
  · exact .inr rfl
  · simp only [List.cons_append, List.cons.injEq] at split
    obtain ⟨rfl, _⟩ := split
    exact .inr rfl
  · simp only [List.cons_append, List.cons.injEq] at split
    obtain ⟨rfl, rfl, _⟩ := split
    exact .inr rfl
  · refine .inl ?_
    have length := congrArg List.length split
    simp only [List.length_append, List.length_cons, List.length_nil] at length
    exact List.length_eq_zero_iff.mp (by omega)

end

section
variable {F : Type} [Zero F] [Add F] [Mul F] {maths : Maths F} {nStreams k : Nat}
  {initial : Nat → Cell F}

theorem before_stream {c : Call Nat (Cell F)}
    (member : c ∈ touching k (baselineCalls maths (4 * 1024 * blockSize * nStreams)) ++
      [memset (4 * 1024 * blockSize * nStreams)]) : c.stream = .host ∨ c.stream = .default := by
  rcases List.mem_append.mp member with old | new
  · have issued := List.mem_of_mem_filter old
    simp only [baselineCalls, List.mem_append, List.mem_singleton] at issued
    rcases issued with ((((rfl | rfl) | rfl) | rfl) | rfl) | rfl
    · exact .inl rfl
    all_goals exact .inr rfl
  · rw [List.mem_singleton.mp new]
    exact .inl rfl

theorem view_value (inside : k < 4 * 1024 * blockSize * nStreams) {x : Cell F}
    (view : Log.View initial
      ⟨baselineCalls maths (4 * 1024 * blockSize * nStreams) ++
          [memset (4 * 1024 * blockSize * nStreams), record] ++
          version2 maths nStreams (around .nonBlocking) ++ [record],
        (version2 maths nStreams (around .nonBlocking)).filter
          fun b => !Stream.default.waits b.stream⟩ k x) :
    x.a = value maths k ∨ k / streamSize nStreams ≠ 1 ∧ x.a = 0 := by
  obtain ⟨ended, ahead, split, opened, rfl⟩ := view
  rw [touching_version inside (touching_version2 inside)] at split
  obtain ⟨mid, rfl, rest⟩ : ∃ mid,
      ended = touching k (baselineCalls maths (4 * 1024 * blockSize * nStreams)) ++
        [memset (4 * 1024 * blockSize * nStreams)] ++ mid ∧
      part maths nStreams (around .nonBlocking (k / streamSize nStreams)) (k / streamSize nStreams) =
        mid ++ ahead := by
    rcases List.append_eq_append_iff.mp split with ⟨mid, more, rest⟩ | ⟨mid, fewer, more⟩
    · exact ⟨mid, more, rest⟩
    · have none : mid = [] := by
        apply List.eq_nil_iff_forall_not_mem.mpr
        intro c member
        obtain ⟨j, stream⟩ := mem_opened (opened c (by simp [more, member]))
        rcases before_stream (fewer ▸ List.mem_append_right ended member) with host | default
        · rw [stream] at host
          cases host
        · rw [stream] at default
          cases default
      subst none
      exact ⟨[], by simpa using fewer.symm, by simpa using more.symm⟩
  rw [apply_append, apply_append]
  rcases mid_value rest (apply k [memset (4 * 1024 * blockSize * nStreams)] (apply k
    (touching k (baselineCalls maths (4 * 1024 * blockSize * nStreams))) (initial k))) with
    whole | still
  · subst whole
    rw [List.append_nil] at rest
    rw [← rest]
    exact .inl rfl
  · by_cases default : k / streamSize nStreams = 1
    · have whole : ahead = [] := by
        apply List.eq_nil_iff_forall_not_mem.mpr
        intro c member
        obtain ⟨j, stream⟩ := mem_opened (opened c member)
        have here : c ∈ part maths nStreams (around .nonBlocking (k / streamSize nStreams))
            (k / streamSize nStreams) := rest ▸ List.mem_append_right mid member
        rw [(part_cells here).1, default] at stream
        cases stream
      subst whole
      rw [List.append_nil] at rest
      rw [← rest]
      exact .inl rfl
    · exact .inr ⟨default, still⟩

theorem nonblockStream_orderly : Log.empty.Orderly (nonblockStream maths nStreams) := by
  rw [nonblockStream, Log.orderly_append, baseline_log]
  exact ⟨baseline_orderly, orderly_version version2_pairwise⟩

theorem forall₂_range {α : Type} {n : Nat} {seen : List α} {allowed : Nat → α → Prop}
    (views : List.Forall₂ (fun x view => view x) seen ((List.range n).map allowed)) :
    seen.length = n ∧ ∀ k < n, ∃ x, seen[k]? = some x ∧ allowed k x := by
  have length : seen.length = n := by simpa using views.length_eq
  refine ⟨length, fun k bound => ?_⟩
  have here : k < seen.length := length ▸ bound
  have one := views.get here (by simpa using bound)
  exact ⟨seen[k], List.getElem?_eq_getElem here, by simpa using one⟩

theorem nonblockStream_reads_only {s : State Nat (Cell F)}
    (run : Run (start initial (nonblockStream maths nStreams)) s) (finished : s.program = []) :
    ∃ w, s.seen.map Cell.a = values maths nStreams ++ w ∧
      w.length = 4 * 1024 * blockSize * nStreams ∧
      ∀ k < 4 * 1024 * blockSize * nStreams, w[k]? = some (value maths k) ∨
        k / streamSize nStreams ≠ 1 ∧ w[k]? = some 0 := by
  obtain ⟨earlier, later, split, seen, ended⟩ := seen_views nonblockStream_orderly run
  obtain rfl := ended finished
  rw [List.append_nil] at split
  subst split
  rw [nonblockStream, Log.views_append, baseline_log, views_version] at seen
  have front := List.forall₂_take_append _ _ _ seen
  have back := List.forall₂_drop_append _ _ _ seen
  have whole := List.take_append_drop (Log.empty.views initial
    (baseline maths (4 * 1024 * blockSize * nStreams))).length s.seen
  generalize s.seen.take _ = first at front whole
  generalize s.seen.drop _ = second at back whole
  obtain ⟨length, each⟩ := forall₂_range back
  refine ⟨second.map Cell.a, ?_, (List.length_map _).trans length, fun k inside => ?_⟩
  · rw [← whole, List.map_append, map_of_views front fixed_baseline]
  · obtain ⟨x, here, view⟩ := each k inside
    rw [List.getElem?_map, here, Option.map_some, Option.some.injEq, Option.some.injEq]
    exact view_value inside view

/-! Every mixture can be read. -/

def front (maths : Maths F) (nStreams : Nat) : List (Command Nat (Cell F)) :=
  baseline maths (4 * 1024 * blockSize * nStreams) ++
    ([.issue (memset (4 * 1024 * blockSize * nStreams)), .wait, .issue record] ++
      ((List.range nStreams).map (fun i => upload (around .nonBlocking i) (i * streamSize nStreams)
          (streamSize nStreams)) ++
        (List.range nStreams).map (fun i => launch maths (around .nonBlocking i)
          (streamSize nStreams / blockSize) blockSize (i * streamSize nStreams))).map .issue)

def downloads (nStreams : Nat) : List (Call Nat (Cell F)) :=
  (List.range nStreams).map fun i =>
    download (around .nonBlocking i) (i * streamSize nStreams) (streamSize nStreams)

theorem nonblockStream_split : nonblockStream maths nStreams =
    front maths nStreams ++ ((downloads nStreams).map .issue ++ ([.issue record, .wait] ++
      (reads (4 * 1024 * blockSize * nStreams) ++ []))) := by
  simp only [nonblockStream, version, version2, front, downloads, List.map_append, List.append_assoc,
    List.append_nil]

theorem front_past : ((front maths nStreams).foldl Log.after .empty).past =
    baselineCalls maths (4 * 1024 * blockSize * nStreams) ++
      [memset (4 * 1024 * blockSize * nStreams)] ++ [record] ++
      ((List.range nStreams).map (fun i => upload (around .nonBlocking i) (i * streamSize nStreams)
          (streamSize nStreams)) ++
        (List.range nStreams).map (fun i => launch maths (around .nonBlocking i)
          (streamSize nStreams / blockSize) blockSize (i * streamSize nStreams))) := by
  rw [front, List.foldl_append, baseline_log, List.foldl_append, Log.after_issues]
  simp only [List.foldl_cons, List.foldl_nil, Log.after_issue, Log.after_wait]

theorem touching_front (k : Nat) (inside : k < 4 * 1024 * blockSize * nStreams) :
    touching k ((front maths nStreams).foldl Log.after .empty).past =
      touching k (baselineCalls maths (4 * 1024 * blockSize * nStreams)) ++
        [memset (4 * 1024 * blockSize * nStreams)] ++
        ([upload (around .nonBlocking (k / streamSize nStreams))
            (k / streamSize nStreams * streamSize nStreams) (streamSize nStreams)] ++
          [launch maths (around .nonBlocking (k / streamSize nStreams))
            (streamSize nStreams / blockSize) blockSize
            (k / streamSize nStreams * streamSize nStreams)]) := by
  have uploads (i : Nat) :
      upload (around .nonBlocking i) (i * streamSize nStreams) (streamSize nStreams) ∈
        part maths nStreams (around .nonBlocking i) i := by simp [part]
  have launches (i : Nat) : launch maths (around .nonBlocking i) (streamSize nStreams / blockSize)
      blockSize (i * streamSize nStreams) ∈ part maths nStreams (around .nonBlocking i) i := by
    simp [part]
  have cleared : touching k [(memset (4 * 1024 * blockSize * nStreams) : Call Nat (Cell F))] =
      [memset (4 * 1024 * blockSize * nStreams)] := by
    simp [touching, memset, inside]
  have event : touching k [(record : Call Nat (Cell F))] = [] := by simp [touching, record]
  rw [front_past, touching_append, touching_append, touching_append, touching_append,
    touching_map _ uploads inside, touching_map _ launches inside, cleared, event, List.append_nil]

theorem around_apart {i j : Nat} (apart : i ≠ j) :
    (around .nonBlocking j).waits (around .nonBlocking i) = false := by
  rcases i with _ | _ | i <;> rcases j with _ | _ | j <;> simp [around, Stream.waits] <;> omega

theorem exists_partial_run (initial : Nat → Cell F) {fresh : Finset Nat}
    (whole : ∀ k < 4 * 1024 * blockSize * nStreams, k / streamSize nStreams = 1 → k ∈ fresh) :
    ∃ m history seen, Run (start initial (nonblockStream maths nStreams))
        ⟨m, history ++ (downloads nStreams).map (leftOf fresh) ++ [⟨record, ∅, true⟩], [],
          seen ++ (List.range (4 * 1024 * blockSize * nStreams)).map m⟩ ∧
      Sorted history ∧ (∀ e ∈ history, e.done = true) ∧
      history.map Entry.call = ((front maths nStreams).foldl Log.after .empty).past := by
  have orderly := @nonblockStream_orderly F _ _ _ maths nStreams
  rw [nonblockStream_split, Log.orderly_append] at orderly
  -- everything up to the copies back is done at once
  obtain ⟨m, history, seen, run, past, ended⟩ := @run_steadily _ _ _ initial []
    ((downloads nStreams).map .issue ++ ([.issue record, .wait] ++
      (reads (4 * 1024 * blockSize * nStreams) ++ []))) [] _ (front maths nStreams) orderly.1 rfl nofun
  have apart : (downloads nStreams : List (Call Nat (Cell F))).Pairwise
      fun b c => c.stream.waits b.stream = false := by
    rw [downloads, List.pairwise_map]
    exact List.nodup_range.imp around_apart
  obtain ⟨m', parts⟩ := @run_parts _ _ _ m history ([.issue record, .wait] ++
    (reads (4 * 1024 * blockSize * nStreams) ++ [])) seen fresh (downloads nStreams)
    (fun c _ e member _ => ended e member) apart
  -- the event waits for the part on the default stream only
  have ready : Ready (history ++ (downloads nStreams).map (leftOf fresh))
      (record : Call Nat (Cell F)) := by
    intro e member waits
    rcases List.mem_append.mp member with old | new
    · exact ended e old
    · obtain ⟨c, issued, rfl⟩ := List.mem_map.mp new
      obtain ⟨i, bound, rfl⟩ := List.mem_map.mp issued
      obtain rfl : i = 1 := by
        rcases i with _ | _ | i
        · cases waits
        · rfl
        · cases waits
      refine decide_eq_true fun k inside => ?_
      have below : k < 4 * 1024 * blockSize * nStreams := by
        have two := Nat.mul_le_mul_right (streamSize nStreams) (List.mem_range.mp bound)
        rw [streamSize_mul] at two
        simp only [download, Finset.mem_Ico] at inside
        omega
      exact whole k below ((mem_part_iff below).mp inside).symm
  have event := @run_whole _ _ _ m' _ record
    (.wait :: (reads (4 * 1024 * blockSize * nStreams) ++ [])) seen ready
  have all := (((run.trans parts).trans event).tail (.wait rfl)).trans
    (run_reads (List.range (4 * 1024 * blockSize * nStreams)))
  rw [← nonblockStream_split] at all run
  obtain ⟨_, before⟩ := follows_run nonblockStream_orderly run
  exact ⟨_, history, seen, all, before.sorted, ended, past.symm⟩

theorem exists_nonblockStream_reads (initial : Nat → Cell F) {w : List F}
    (length : w.length = 4 * 1024 * blockSize * nStreams)
    (mixed : ∀ k < 4 * 1024 * blockSize * nStreams, w[k]? = some (value maths k) ∨
      k / streamSize nStreams ≠ 1 ∧ w[k]? = some 0) :
    ∃ s, Run (start initial (nonblockStream maths nStreams)) s ∧ s.program = [] ∧
      s.seen.map Cell.a = values maths nStreams ++ w := by
  classical
  obtain ⟨m, history, seen, run, sorted, ended, past⟩ := @exists_partial_run F _ _ _ maths nStreams initial
    ((Finset.range (4 * 1024 * blockSize * nStreams)).filter fun k => w[k]? = some (value maths k))
    (fun k below default => Finset.mem_filter.mpr ⟨Finset.mem_range.mpr below,
      (mixed k below).resolve_right fun old => old.1 default⟩)
  refine ⟨_, run, rfl, ?_⟩
  obtain ⟨w', both, length', _⟩ := nonblockStream_reads_only run rfl
  obtain ⟨_, follows⟩ := follows_run nonblockStream_orderly run
  have read : ∀ k < 4 * 1024 * blockSize * nStreams, w[k]? = some (m k).a := by
    intro k below
    have back (i : Nat) : download (around .nonBlocking i) (i * streamSize nStreams)
        (streamSize nStreams) ∈ part maths nStreams (around .nonBlocking i) i := by simp [part]
    have event : ran k [(⟨record, ∅, true⟩ : Entry Nat (Cell F))] = [] := by simp [ran, record]
    have exact : m k = _ := follows.exact k
    rw [exact, ran_append, ran_append, ran_of_done sorted ended, past, touching_front k below,
      ran_parts, downloads, touching_map _ back below, event, List.append_nil]
    simp only [apply_append]
    by_cases new : w[k]? = some (value maths k)
    · rw [if_pos (Finset.mem_filter.mpr ⟨Finset.mem_range.mpr below, new⟩), new]
      rfl
    · have outside : k ∉ (Finset.range (4 * 1024 * blockSize * nStreams)).filter
          fun k => w[k]? = some (value maths k) := fun member => new (Finset.mem_filter.mp member).2
      rw [if_neg outside, ((mixed k below).resolve_left new).2]
      rfl
  have same : w = (List.range (4 * 1024 * blockSize * nStreams)).map fun k => (m k).a := by
    apply List.ext_getElem?
    intro k
    by_cases below : k < 4 * 1024 * blockSize * nStreams
    · rw [read k below, List.getElem?_map, List.getElem?_range below]
      rfl
    · rw [List.getElem?_eq_none (by omega), List.getElem?_eq_none]
      rw [List.length_map, List.length_range]
      omega
  have first : seen.map Cell.a = values maths nStreams := by
    have total := congrArg List.length both
    simp only [List.length_map, List.length_append, List.length_range, values_length, length'] at total
    rw [List.map_append] at both
    apply List.append_inj_left both
    rw [List.length_map, values_length]
    omega
  rw [List.map_append, first, List.map_map]
  exact congrArg _ same.symm

/-- The host reads the old or the new value of each cell outside the part on the default stream,
and it can read any such mixture. -/
theorem nonblockStream_reads (maths : Maths F) (nStreams : Nat) (initial : Nat → Cell F)
    (seen : List F) :
    (∃ s, Run (start initial (nonblockStream maths nStreams)) s ∧ s.program = [] ∧
        s.seen.map Cell.a = seen) ↔
      ∃ w, seen = values maths nStreams ++ w ∧ w.length = 4 * 1024 * blockSize * nStreams ∧
        ∀ k < 4 * 1024 * blockSize * nStreams, w[k]? = some (value maths k) ∨
          k / streamSize nStreams ≠ 1 ∧ w[k]? = some 0 := by
  constructor
  · rintro ⟨s, run, finished, rfl⟩
    exact nonblockStream_reads_only run finished
  · rintro ⟨w, rfl, length, mixed⟩
    exact exists_nonblockStream_reads initial length mixed

end

end CudaOpenMp.Async
