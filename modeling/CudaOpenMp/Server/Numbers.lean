import CudaOpenMp.Server.Connections

/-!
The numbers of the requests. They are given out under `accept_mutex`, in two steps.
-/

namespace CudaOpenMp.Server

open Interleaving

def Stage.critical : Stage → Bool
  | .number _ _ | .increment _ _ _ | .unlock _ _ _ => true
  | .lock _ _ | .receive _ _ _ | .calls _ _ _ _ | .accept | .exited | .create _ | .stdin | .shutdown
  | .close | .join _ | .fclose | .finished | .idle => false

/-- How far the counter is behind the numbers that were given out. -/
def Stage.behind : Stage → Int32
  | .increment _ _ _ => 1
  | .number _ _ | .unlock _ _ _ | .lock _ _ | .receive _ _ _ | .calls _ _ _ _ | .accept | .exited
  | .create _ | .stdin | .shutdown | .close | .join _ | .fclose | .finished | .idle => 0

def Stage.request_id : Stage → Option Int32
  | .increment _ _ id | .unlock _ _ id | .receive _ _ id | .calls _ _ id _ => some id
  | .number _ _ | .lock _ _ | .accept | .exited | .create _ | .stdin | .shutdown | .close | .join _
  | .fclose | .finished | .idle => none

variable {n : Nat}

structure Numbered (g : Shared n) : Prop where
  ids : g.given.map Prod.snd = (List.range g.given.length).map Int32.ofNat
  once : (g.given.map Prod.fst).Nodup
  known : ∀ entry ∈ g.given, entry.1 < g.accepted
  free : g.acceptMutex = none → g.nextRequestId = Int32.ofNat g.given.length
  asked : ∀ c conn r, g.conns c = some conn → conn.request = some r → (c, r.request_id) ∈ g.given

structure Takes (g : Shared n) (i : Fin n) (l : Stage) : Prop where
  mutex : l.critical = true ↔ g.acceptMutex = some i
  counter : l.critical = true → g.nextRequestId + l.behind = Int32.ofNat g.given.length
  fresh : ∀ c d, l.current = some (c, d) → l.request_id = none → c ∉ g.given.map Prod.fst
  has : ∀ c d id, l.current = some (c, d) → l.request_id = some id → (c, id) ∈ g.given

section
variable {files : Bytes → Option Entry} {g g' : Shared n} {i j : Fin n} {l l' m : Stage}

theorem Numbered.same (numbered : Numbered g) (given : g'.given = g.given)
    (accepted : g.accepted ≤ g'.accepted)
    (free : g'.acceptMutex = none → g'.nextRequestId = Int32.ofNat g.given.length)
    (asked : ∀ c conn r, g'.conns c = some conn → conn.request = some r →
      (c, r.request_id) ∈ g.given) : Numbered g' := by
  refine ⟨?_, ?_, ?_, ?_, ?_⟩ <;> rw [given]
  · exact numbered.ids
  · exact numbered.once
  · exact fun entry member => Nat.lt_of_lt_of_le (numbered.known entry member) accepted
  · exact free
  · exact asked

theorem edit_asked {f : Conn n → Conn n} {c : Nat} (numbered : Numbered g)
    (same : ∀ conn, (f conn).request = conn.request) :
    ∀ c' conn r, (g.edit c f).conns c' = some conn → conn.request = some r →
      (c', r.request_id) ∈ g.given := by
  intro c' conn r found request
  by_cases here : c' = c
  · subst here
    cases before : g.conns c' with
    | none => simp [Shared.edit, before] at found
    | some conn' =>
        rw [edit_self before] at found
        rw [← Option.some.inj found, same] at request
        exact numbered.asked c' conn' r before request
  · rw [edit_of_ne here] at found
    exact numbered.asked c' conn r found request

theorem Numbered.edit (numbered : Numbered g) (c : Nat) (f : Conn n → Conn n)
    (same : ∀ conn, (f conn).request = conn.request) : Numbered (g.edit c f) :=
  numbered.same rfl (Nat.le_refl _) numbered.free (edit_asked numbered same)

theorem Numbered.perform {d c : Nat} {call : Call} (numbered : Numbered g) :
    Numbered (g.perform i d c call) := by
  have sending (bytes : Bytes) : Numbered (g.send d bytes) := by
    rcases send_cases g d bytes with same | ⟨c, same⟩ | same <;> rw [same]
    · exact numbered.same rfl (Nat.le_refl _) numbered.free numbered.asked
    · exact numbered.edit _ _ fun conn => conn.take_request bytes
    · exact numbered
  have released {g : Shared n} (numbered : Numbered g) : Numbered (g.release d) :=
    numbered.same rfl (Nat.le_refl _) numbered.free numbered.asked
  cases call with
  | fputs line => exact numbered.same rfl (Nat.le_refl _) numbered.free numbered.asked
  | send bytes => exact sending bytes
  | chunk bytes => exact sending bytes
  | close =>
      rw [Shared.perform, Shared.close]
      split
      · exact released (numbered.edit _ _ fun _ => rfl)
      · exact released numbered
      · exact released numbered
      · exact released numbered
  | shutdown =>
      rw [Shared.perform, Shared.shutdown]
      split
      · exact numbered.edit _ _ fun _ => rfl
      · exact numbered.same rfl (Nat.le_refl _) numbered.free numbered.asked
      · exact numbered
      · exact numbered
  | spin => exact numbered
  | undefined => exact numbered.same rfl (Nat.le_refl _) numbered.free numbered.asked

def SameCounter (g g' : Shared n) : Prop :=
  g'.given = g.given ∧ g'.acceptMutex = g.acceptMutex ∧ g'.nextRequestId = g.nextRequestId

theorem perform_sameCounter (g : Shared n) (i : Fin n) (d c : Nat) (call : Call) :
    SameCounter g (g.perform i d c call) := by
  have same : SameCounter g g := ⟨rfl, rfl, rfl⟩
  have sending (bytes : Bytes) : SameCounter g (g.send d bytes) := by
    rcases send_cases g d bytes with equal | ⟨c, equal⟩ | equal <;> rw [equal] <;> exact same
  cases call with
  | fputs line => exact same
  | send bytes => exact sending bytes
  | chunk bytes => exact sending bytes
  | close =>
      rw [Shared.perform, Shared.close]
      split <;> exact same
  | shutdown =>
      rw [Shared.perform, Shared.shutdown]
      split <;> exact same
  | spin => exact same
  | undefined => exact same

theorem Takes.same (takes : Takes g i l) (same : SameCounter g g')
    (critical : l'.critical = l.critical) (behind : l'.behind = l.behind)
    (fresh : ∀ c d, l'.current = some (c, d) → l'.request_id = none →
      c ∉ g.given.map Prod.fst)
    (has : ∀ c d id, l'.current = some (c, d) → l'.request_id = some id → (c, id) ∈ g.given) :
    Takes g' i l' := by
  obtain ⟨given, mutex, counter⟩ := same
  refine ⟨?_, ?_, ?_, ?_⟩
  · rw [critical, mutex]
    exact takes.mutex
  · rw [critical, behind, counter, given]
    exact takes.counter
  · rw [given]
    exact fresh
  · rw [given]
    exact has

theorem Takes.spared (takes : Takes g i l) (mutex : g'.acceptMutex = some i ↔ g.acceptMutex = some i)
    (counter : l.critical = true → g'.nextRequestId = g.nextRequestId ∧ g'.given = g.given)
    (grown : ∀ entry ∈ g.given, entry ∈ g'.given)
    (apart : ∀ c d, l.current = some (c, d) → c ∈ g'.given.map Prod.fst →
      c ∈ g.given.map Prod.fst) : Takes g' i l := by
  refine ⟨takes.mutex.trans mutex.symm, fun here => ?_, fun c d current none member => ?_,
    fun c d id current some => grown _ (takes.has c d id current some)⟩
  · rw [(counter here).1, (counter here).2]
    exact takes.counter here
  · exact takes.fresh c d current none (apart c d current member)

theorem Takes.step (numbered : Numbered g) (takes : Takes g i l)
    (act : Act files (.worker i) g l g' l') : Takes g' i l' := by
  have ⟨mutex, counter, fresh, has⟩ := takes
  cases act with
  | accept =>
      refine takes.same ⟨rfl, rfl, rfl⟩ rfl rfl (fun c d here _ member => ?_) nofun
      obtain ⟨entry, given, rfl⟩ := List.mem_map.mp member
      have known := numbered.known entry given
      rw [(Prod.mk.inj (Option.some.inj here)).1] at known
      exact Nat.lt_irrefl _ known
  | refused => exact takes.same ⟨rfl, rfl, rfl⟩ rfl rfl nofun nofun
  | lock free =>
      refine ⟨by simp [Stage.critical], fun _ => ?_, fun c d here _ => fresh c d here rfl, nofun⟩
      rw [show Stage.behind (.number _ _) = 0 from rfl, Int32.add_zero]
      exact numbered.free free
  | number =>
      have held := counter rfl
      refine ⟨mutex, fun _ => ?_, nofun, fun c d id here some => ?_⟩
      · change g.nextRequestId + 0 = _ at held
        change g.nextRequestId + 1 = Int32.ofNat (g.given ++ [_]).length
        rw [Int32.add_zero] at held
        rw [List.length_append, List.length_singleton, held, Int32.ofNat_add]
        rfl
      · obtain ⟨rfl, _⟩ := Prod.mk.inj (Option.some.inj here)
        obtain rfl := Option.some.inj some
        simp
  | increment =>
      have held := counter rfl
      refine ⟨mutex, fun _ => ?_, nofun, has⟩
      change g.nextRequestId + 1 + 0 = _
      rw [Int32.add_zero]
      exact held
  | unlock => exact ⟨by simp [Stage.critical], nofun, nofun, has⟩
  | dropped => exact takes.same ⟨rfl, rfl, rfl⟩ rfl rfl nofun nofun
  | receive r => exact takes.same ⟨rfl, rfl, rfl⟩ rfl rfl nofun has
  | call => exact takes.same (perform_sameCounter g i _ _ _) rfl rfl nofun has
  | again => exact takes.same ⟨rfl, rfl, rfl⟩ rfl rfl nofun nofun

theorem Takes.others {p : Party n} (takes : Takes g i m) (other : p ≠ .worker i)
    (mine : ∀ c d, m.current = some (c, d) → ∃ conn, g.conns c = some conn ∧ conn.owner = i)
    (act : Act files p g l g' l')
    (theirs : ∀ j, p = .worker j → Own files g.conns g.fds g.log j l ∧ Takes g j l) :
    Takes g' i m := by
  have apart {j : Fin n} (same : p = .worker j) : j ≠ i := by
    rintro rfl
    exact other same
  have alone {j : Fin n} (same : p = .worker j) (critical : l.critical = true) :
      g.acceptMutex = some j ∧ m.critical ≠ true := by
    have holder := (theirs j same).2.mutex.mp critical
    refine ⟨holder, fun held => apart same ?_⟩
    have both := (takes.mutex.mp held).symm.trans holder
    exact (Option.some.inj both).symm
  have same (given : g'.given = g.given) (mutex : g'.acceptMutex = g.acceptMutex)
      (counter : g'.nextRequestId = g.nextRequestId) : Takes g' i m :=
    takes.same ⟨given, mutex, counter⟩ rfl rfl takes.fresh takes.has
  cases act with
  | lock free =>
      refine takes.spared ?_ (fun _ => ⟨rfl, rfl⟩) (fun _ => id) fun _ _ _ => id
      rw [free]
      exact ⟨fun got => (apart rfl (Option.some.inj got)).elim, nofun⟩
  | number =>
      obtain ⟨_, free⟩ := alone rfl rfl
      refine takes.spared Iff.rfl (fun held => (free held).elim)
        (fun entry member => List.mem_append_left _ member) fun c d current member => ?_
      rw [List.map_append, List.mem_append] at member
      rcases member with old | new
      · exact old
      · obtain ⟨conn, found, owner, _⟩ := (theirs _ rfl).1.current _ _ rfl
        obtain ⟨conn', found', owner'⟩ := mine c d current
        rw [List.mem_singleton.mp new, found] at found'
        rw [← Option.some.inj found', owner] at owner'
        exact (apart rfl owner').elim
  | increment =>
      obtain ⟨_, free⟩ := alone rfl rfl
      exact takes.spared Iff.rfl (fun held => (free held).elim) (fun _ => id) fun _ _ _ => id
  | unlock =>
      obtain ⟨holder, _⟩ := alone rfl rfl
      refine takes.spared ?_ (fun _ => ⟨rfl, rfl⟩) (fun _ => id) fun _ _ _ => id
      rw [holder]
      exact ⟨nofun, fun got => (apart rfl (Option.some.inj got)).elim⟩
  | @call _ j d c _ call =>
      obtain ⟨given, mutex, counter⟩ := perform_sameCounter g j d c call
      exact same given mutex counter
  | create | created | exit | shutdown | close | join | joined | fclose | reset | accept | refused
  | dropped | receive | again => exact same rfl rfl rfl

theorem Numbered.step {p : Party n} (numbered : Numbered g) (sound : Sound g)
    (act : Act files p g l g' l')
    (actor : ∀ j, p = .worker j → Own files g.conns g.fds g.log j l ∧ Takes g j l) :
    Numbered g' := by
  have held {j : Fin n} (same : p = .worker j) (critical : l.critical = true) :
      g.acceptMutex ≠ none := by
    rw [(actor j same).2.mutex.mp critical]
    simp
  cases act with
  | reset c link => exact numbered.edit _ _ fun conn => (Worn.lose conn link).request
  | accept =>
      refine numbered.same rfl (Nat.le_succ _) numbered.free fun c conn r found request => ?_
      by_cases here : c = g.accepted
      · subst here
        simp only [Shared.opened, Function.update_self, Option.some.injEq] at found
        rw [← found] at request
        cases request
      · simp only [Shared.opened, Function.update_of_ne here] at found
        exact numbered.asked c conn r found request
  | lock => exact numbered.same rfl (Nat.le_refl _) (by intros; contradiction) numbered.asked
  | @number _ i d c =>
      obtain ⟨own, takes⟩ := actor i rfl
      obtain ⟨conn, found, _⟩ := own.current c d rfl
      have next := takes.counter rfl
      change g.nextRequestId + 0 = _ at next
      rw [Int32.add_zero] at next
      refine ⟨?_, ?_, fun entry member => ?_, fun free => (held rfl rfl free).elim,
        fun c conn r found request => List.mem_append_left _ (numbered.asked c conn r found request)⟩
      · simp only [List.map_append, List.length_append, List.length_singleton, List.range_succ,
          numbered.ids, List.map_singleton, next]
      · rw [List.map_append, List.nodup_append]
        refine ⟨numbered.once, by simp, fun a member b last same => ?_⟩
        rw [List.map_singleton, List.mem_singleton] at last
        rw [same, last] at member
        exact takes.fresh c d rfl rfl member
      · rcases List.mem_append.mp member with old | new
        · exact numbered.known entry old
        · rw [List.mem_singleton.mp new]
          apply Nat.lt_of_not_le
          intro late
          rw [(sound.fresh c).mp late] at found
          cases found
  | increment =>
      exact numbered.same rfl (Nat.le_refl _) (fun free => (held rfl rfl free).elim) numbered.asked
  | unlock =>
      have next := (actor _ rfl).2.counter rfl
      change g.nextRequestId + 0 = _ at next
      rw [Int32.add_zero] at next
      exact numbered.same rfl (Nat.le_refl _) (fun _ => next) numbered.asked
  | @receive _ i d c id r _ number =>
      refine numbered.same rfl (Nat.le_refl _) numbered.free fun c' conn r' found request => ?_
      by_cases here : c' = c
      · subst here
        have given := (actor i rfl).2.has c' d id rfl rfl
        cases before : g.conns c' with
        | none => simp [Shared.edit, before] at found
        | some conn' =>
            rw [edit_self before] at found
            rw [← Option.some.inj found] at request
            rw [← Option.some.inj request, number]
            exact given
      · rw [edit_of_ne here] at found
        exact numbered.asked c' conn r' found request
  | call => exact numbered.perform
  | create | created | exit | shutdown | close | join | joined | fclose | refused | dropped | again =>
      exact numbered.same rfl (Nat.le_refl _) numbered.free numbered.asked

end

/-! Runs. -/

section
variable {files : Bytes → Option Entry} {s : State (Party n) (Shared n) Stage}

theorem numbered_reachable (run : Run (Turn files) (start n) s) :
    Numbered s.shared ∧ ∀ i, Takes s.shared i (s.locals (.worker i)) := by
  induction run with
  | refl =>
      refine ⟨⟨rfl, List.nodup_nil, nofun, fun _ => rfl, nofun⟩, fun i => ⟨?_, nofun, nofun, nofun⟩⟩
      simp [start, Stage.critical]
  | @tail s _ before move ih =>
      obtain ⟨numbered, takes⟩ := ih
      have owns := owns_reachable before
      obtain ⟨p, acted⟩ := move
      have actor (j : Fin n) (same : p = .worker j) :
          Own files s.shared.conns s.shared.fds s.shared.log j (s.locals p) ∧
            Takes s.shared j (s.locals p) := by
        refine ⟨(owns p).2 j same, ?_⟩
        rw [same]
        exact takes j
      refine ⟨numbered.step (owns p).1 acted.2 actor, fun i => ?_⟩
      by_cases same : p = .worker i
      · subst same
        simp only [Function.update_self]
        exact (takes i).step numbered acted.2
      · simp only [Function.update_of_ne (Ne.symm same)]
        refine (takes i).others same (fun c d current => ?_) acted.2 actor
        obtain ⟨conn, found, owner, _⟩ := ((owns (.worker i)).2 i rfl).current c d current
        exact ⟨conn, found, owner⟩

theorem mem_of_idx {given : List (Nat × Int32)} {c : Nat} {id : Int32} (member : (c, id) ∈ given)
    (ids : given.map Prod.snd = (List.range given.length).map Int32.ofNat) :
    ∃ k < given.length, (given.map Prod.fst)[k]? = some c ∧ id = Int32.ofNat k := by
  obtain ⟨k, bound, place⟩ := List.mem_iff_getElem.mp member
  have number := congrArg (fun list => list[k]?) ids
  simp only [List.getElem?_map, List.getElem?_eq_getElem bound, place, Option.map_some,
    List.getElem?_range bound, Option.some.injEq] at number
  exact ⟨k, bound, by simp [List.getElem?_eq_getElem bound, place], number⟩

theorem ofNat_inj {k k' : Nat} (small : k < 2 ^ 32) (small' : k' < 2 ^ 32)
    (same : Int32.ofNat k = Int32.ofNat k') : k = k' := by
  have bits := congrArg (fun v : Int32 => v.toUInt32.toNat) same
  simp only [Int32.toUInt32_ofNat', UInt32.toNat_ofNat'] at bits
  omega

/-- The numbers are given out from zero up without a gap, each to one connection. Two requests have
the same number only after the counter has gone around. -/
theorem requests_numbered (run : Run (Turn files) (start n) s) :
    s.shared.given.map Prod.snd = (List.range s.shared.given.length).map Int32.ofNat ∧
      (s.shared.given.map Prod.fst).Nodup ∧
      (∀ c conn r, s.shared.conns c = some conn → conn.request = some r →
        (c, r.request_id) ∈ s.shared.given) ∧
      (s.shared.accepted ≤ 2 ^ 32 → ∀ c c' conn conn' r r', s.shared.conns c = some conn →
        conn.request = some r → s.shared.conns c' = some conn' → conn'.request = some r' →
        r.request_id = r'.request_id → c = c') := by
  obtain ⟨numbered, _⟩ := numbered_reachable run
  refine ⟨numbered.ids, numbered.once, numbered.asked, ?_⟩
  intro few c c' conn conn' r r' found request found' request' same
  have count : s.shared.given.length ≤ s.shared.accepted := by
    have inside : s.shared.given.map Prod.fst ⊆ List.range s.shared.accepted := by
      intro c member
      obtain ⟨entry, given, rfl⟩ := List.mem_map.mp member
      exact List.mem_range.mpr (numbered.known entry given)
    have bound := (numbered.once.subperm inside).length_le
    simpa using bound
  obtain ⟨k, bound, place, number⟩ := mem_of_idx (numbered.asked c conn r found request) numbered.ids
  obtain ⟨k', bound', place', number'⟩ :=
    mem_of_idx (numbered.asked c' conn' r' found' request') numbered.ids
  rw [number, number'] at same
  obtain rfl := ofNat_inj (by omega) (by omega) same
  rw [place] at place'
  exact Option.some.inj place'

theorem requests_numbered_two : ∃ s : State (Party 2) (Shared 2) Stage, ∃ conn conn' r r',
    s.shared.given = [(0, 0), (1, 1)] ∧
      s.shared.given.map Prod.snd = (List.range s.shared.given.length).map Int32.ofNat ∧
      s.shared.conns 0 = some conn ∧ conn.request = some r ∧ s.shared.conns 1 = some conn' ∧
      conn'.request = some r' ∧ r.request_id ≠ r'.request_id := by
  have first := @run_accepts (fun _ => none) 2 (created 2).locals (created 2).shared 0 5 rfl rfl
    (by decide) rfl rfl rfl rfl
  have path := ((run_created 2).trans first).tail
    (.solo (created 2).locals _ ⟨rfl, .receive traces rfl rfl (by decide) (by decide) (by decide)⟩)
  have path := path.trans (@run_accepts _ 2 _ _ 1 6 rfl rfl (Nat.lt_succ_self 1) rfl rfl rfl rfl)
  have path := path.tail (.solo _ _ ⟨rfl, .receive { traces with
    thread_index := 1, request_id := 1 } rfl rfl (by decide) (by decide) (by decide)⟩)
  have numbered := requests_numbered path
  refine ⟨_, _, _, _, _, rfl, numbered.1, rfl, rfl, rfl, rfl, fun same => ?_⟩
  have equal := numbered.2.2.2 (by decide) 0 1 _ _ _ _ rfl rfl rfl rfl same
  cases equal

end

end CudaOpenMp.Server
