import CudaOpenMp.Server.Workers

/-!
What has happened to the connections after any run of the server: what is in the log about each, what
was sent on it, and which descriptors are still open.
-/

namespace CudaOpenMp.Server

open Interleaving

section
variable {files : Bytes → Option Entry} {n : Nat}
  {conn conn' : Conn n} {g g' : Shared n} {i j : Fin n} {l l' : Stage} {c d : Nat}

theorem Sound.edit (sound : Sound g) (f : Conn n → Conn n) : Sound (g.edit c f) := by
  refine ⟨sound.known, sound.single, fun c' => ?_, sound.listener, sound.logged⟩
  rw [Shared.edit, sound.fresh c']
  by_cases here : c' = c
  · subst here
    simp only [Function.update_self, Option.map_eq_none_iff]
  · simp only [Function.update_of_ne here]

theorem Sound.release (sound : Sound g) (d : Nat) : Sound (g.release d) := by
  have before (e c : Nat) (here : (g.release d).fds e = some (.conn c)) :
      g.fds e = some (.conn c) := by
    by_cases same : e = d
    · subst same
      simp [Shared.release] at here
    · simpa only [Shared.release, Function.update_of_ne same] using here
  exact ⟨fun e c here => sound.known e c (before e c here),
    fun e e' c here there => sound.single e e' c (before e c here) (before e' c there), sound.fresh,
    fun c here => sound.listener c (before serverd c here), sound.logged⟩

theorem Sound.opened (sound : Sound g) (unused : g.fds d = none)
    (bound : g.fds serverd = some .listener) : Sound (g.opened j d) := by
  have table (e c : Nat) (here : (g.opened j d).fds e = some (.conn c)) :
      e = d ∧ c = g.accepted ∨ e ≠ d ∧ g.fds e = some (.conn c) := by
    by_cases same : e = d
    · subst same
      simp only [Shared.opened, Function.update_self, Option.some.injEq, Descriptor.conn.injEq] at here
      exact .inl ⟨rfl, here.symm⟩
    · simp only [Shared.opened, Function.update_of_ne same] at here
      exact .inr ⟨same, here⟩
  refine ⟨fun e c here => ?_, fun e e' c here there => ?_, fun c => ?_, fun c here => ?_,
    fun entry member => Nat.lt_succ_of_lt (sound.logged entry member)⟩
  · rcases table e c here with ⟨_, rfl⟩ | ⟨_, old⟩
    · exact Nat.lt_succ_self _
    · exact Nat.lt_succ_of_lt (sound.known e c old)
  · rcases table e c here with ⟨rfl, rfl⟩ | ⟨_, old⟩ <;>
      rcases table e' _ there with ⟨rfl, new⟩ | ⟨_, old'⟩
    · rfl
    · exact (Nat.lt_irrefl _ (sound.known _ _ old')).elim
    · subst new
      exact (Nat.lt_irrefl _ (sound.known _ _ old)).elim
    · exact sound.single e e' c old old'
  · by_cases here : c = g.accepted
    · subst here
      simp [Shared.opened]
    · simp only [Shared.opened, Function.update_of_ne here]
      rw [← sound.fresh c]
      omega
  · rcases table serverd c here with ⟨same, _⟩ | ⟨_, old⟩
    · rw [same, unused] at bound
      cases bound
    · exact sound.listener c old

theorem Sound.perform {request_id : Int32} {call : Call} {rest : List Call} (sound : Sound g)
    (own : Own files g.conns g.fds g.log j (.calls d c request_id (call :: rest))) :
    Sound (g.perform j d c call) := by
  have sending (bytes : Bytes) : Sound (g.send d bytes) := by
    rcases send_cases g d bytes with same | ⟨c, same⟩ | same <;> rw [same]
    · exact ⟨sound.known, sound.single, sound.fresh, sound.listener, sound.logged⟩
    · exact sound.edit _
    · exact sound
  cases call with
  | fputs line =>
      obtain ⟨conn, found, _⟩ := own.current c d rfl
      refine ⟨sound.known, sound.single, sound.fresh, sound.listener, fun entry member => ?_⟩
      rcases List.mem_append.mp member with old | new
      · exact sound.logged entry old
      · rw [List.mem_singleton.mp new]
        apply Nat.lt_of_not_le
        intro late
        rw [(sound.fresh c).mp late] at found
        cases found
  | send bytes => exact sending bytes
  | chunk bytes => exact sending bytes
  | close =>
      rw [Shared.perform, Shared.close]
      split
      · exact (sound.edit _).release d
      · exact sound.release d
      · exact sound.release d
      · exact sound.release d
  | shutdown =>
      rw [Shared.perform, Shared.shutdown]
      split
      · exact sound.edit _
      · exact ⟨sound.known, sound.single, sound.fresh, sound.listener, sound.logged⟩
      · exact sound
      · exact sound
  | spin => exact sound
  | undefined => exact ⟨sound.known, sound.single, sound.fresh, sound.listener, sound.logged⟩

theorem Act.sound {p : Party n} (act : Act files p g l g' l') (sound : Sound g)
    (own : ∀ j, p = .worker j → Own files g.conns g.fds g.log j l) : Sound g' := by
  cases act with
  | close => exact sound.release serverd
  | reset c => exact sound.edit _
  | accept _ bound _ unused => exact sound.opened unused bound
  | receive r => exact sound.edit _
  | call _ => exact sound.perform (own _ rfl)
  | create | created | exit | shutdown | join | joined | fclose | refused | lock | number | increment
  | unlock | dropped | again =>
      exact ⟨sound.known, sound.single, sound.fresh, sound.listener, sound.logged⟩

/-! A worker and its own connections. -/

theorem Own.change {conns conns' : Nat → Option (Conn n)} {fds fds' : Nat → Option Descriptor}
    {log log' : List (Nat × Bytes)} (own : Own files conns fds log i l)
    (current : l.current = some (c, d)) (current' : l'.current = some (c, d))
    (aside : ∀ c' conn', c' ≠ c → conns' c' = some conn' → conn'.owner = i →
      conns c' = some conn' ∧ about log' c' = about log c' ∧
        ∀ e, fds' e = some (.conn c') ↔ fds e = some (.conn c'))
    (mine : ∃ conn, conns' c = some conn ∧ conn.owner = i ∧
      Kept files log' fds' c conn l'.todo ∧ Held conns' fds' c d conn l') :
    Own files conns' fds' log' i l' := by
  refine ⟨fun c' d' here => ?_, fun c' conn' found owner idle => ?_⟩
  · rw [current'] at here
    obtain ⟨rfl, rfl⟩ := Prod.mk.inj (Option.some.inj here)
    exact mine
  · have other : c' ≠ c := by
      rintro rfl
      exact idle d current'
    obtain ⟨before, sameLog, sameFds⟩ := aside c' conn' other found owner
    obtain ⟨kept, somewhere⟩ := own.former c' conn' before owner (by
      intro d' here
      rw [current] at here
      exact other (Prod.mk.inj (Option.some.inj here)).1.symm)
    refine ⟨kept.worn (.refl conn') sameLog sameFds, fun up => ?_⟩
    obtain ⟨e, open'⟩ := somewhere up
    exact ⟨e, (sameFds e).mpr open'⟩

theorem Own.leave (own : Own files g.conns g.fds g.log i l) (current : l.current = some (c, d))
    (done : l.todo = []) : Own files g.conns g.fds g.log i .accept := by
  refine ⟨nofun, fun c' conn' found owner _ => ?_⟩
  by_cases here : c' = c
  · subst here
    obtain ⟨conn, found', _, kept, held⟩ := own.current c' d current
    rw [found] at found'
    obtain rfl := Option.some.inj found'
    rw [done] at kept
    exact ⟨kept, fun up => ⟨d, held.here up⟩⟩
  · refine own.former c' conn' found owner fun d' there => ?_
    rw [current] at there
    exact here (Prod.mk.inj (Option.some.inj there)).1.symm

theorem about_eq_nil {log : List (Nat × Bytes)} (none : ∀ entry ∈ log, entry.1 ≠ c) :
    about log c = [] := by
  rw [about, List.map_eq_nil_iff, List.filter_eq_nil_iff]
  intro entry member
  simpa using none entry member

theorem Own.opened (own : Own files g.conns g.fds g.log i .accept) (sound : Sound g)
    (unused : g.fds d = none) :
    Own files (g.opened i d).conns (g.opened i d).fds (g.opened i d).log i (.lock d g.accepted) := by
  refine ⟨fun c e here => ?_, fun c conn found owner idle => ?_⟩
  · obtain ⟨rfl, rfl⟩ := Prod.mk.inj (Option.some.inj here)
    refine ⟨⟨i, none, [], .up, none, false⟩, Function.update_self .., rfl, ⟨?_, ?_, ?_, ?_, ?_, ?_, ?_, ?_⟩,
      fun _ => Function.update_self .., (by intros; contradiction), (by intros; contradiction), trivial, by simp [Stage.informed]⟩
    · have none := about_eq_nil fun entry member => Nat.ne_of_lt (sound.logged entry member)
      simp only [Shared.opened, none, Stage.todo, lines, Conn.script, Option.map_none, Option.getD_none,
        List.append_nil]
    · exact List.nil_prefix
    · exact fun _ _ => rfl
    · exact fun _ own => absurd own (by simp)
    · simp
    · simp [Conn.script]
    · intros; contradiction
    · intros; contradiction
  · have other : c ≠ g.accepted := by
      rintro rfl
      exact idle d rfl
    simp only [Shared.opened, Function.update_of_ne other] at found
    obtain ⟨kept, somewhere⟩ := own.former c conn found owner (by simp [Stage.current])
    have sameFds (e : Nat) : (g.opened i d).fds e = some (.conn c) ↔ g.fds e = some (.conn c) := by
      by_cases same : e = d
      · subst same
        simpa [Shared.opened, unused] using Ne.symm other
      · simp only [Shared.opened, Function.update_of_ne same]
    refine ⟨kept.worn (.refl conn) rfl sameFds, fun up => ?_⟩
    obtain ⟨e, open'⟩ := somewhere up
    exact ⟨e, (sameFds e).mpr open'⟩

theorem Own.receive {request_id : Int32}
    (own : Own files g.conns g.fds g.log i (.receive d c request_id)) (r : Request)
    (calls : List Call) (asked : r.handle files = calls) (orderly : Orderly calls) :
    Own files (g.edit c fun conn => { conn with request := some r }).conns
      (g.edit c fun conn => { conn with request := some r }).fds
      (g.edit c fun conn => { conn with request := some r }).log i (.calls d c request_id calls) := by
  obtain ⟨conn, found, owner, kept, held⟩ := own.current c d rfl
  have unread : conn.request = none := held.informed.mpr rfl
  have script : conn.script files = [] := by simp [Conn.script, unread]
  have script' : Conn.script files { conn with request := some r } = calls := by
    rw [Conn.script, Option.map_some, Option.getD_some, asked]
  have nothing : conn.received = [] := List.prefix_nil.mp (by simpa [script, sends] using kept.sent)
  have logless : about g.log c = [] := by
    simpa [script, lines, Stage.todo] using kept.logged
  have up : conn.closed = false := by
    cases closed : conn.closed with
    | false => rfl
    | true =>
        have both := kept.closes.mp closed
        rw [script] at both
        cases both.1
  refine own.change rfl rfl
    (fun c' conn' other found' _ => ⟨(edit_of_ne other).symm.trans found', rfl, fun _ => Iff.rfl⟩)
    ⟨_, edit_self found, owner, ⟨?_, ?_, ?_, ?_, ?_, ?_, ?_, ?_⟩, held.here, ?_, ?_, orderly, ?_⟩
  · rw [script']
    change about g.log c ++ lines calls = lines calls
    rw [logless, List.nil_append]
  · simp [nothing]
  · intro _ _
    rw [script']
    simp [nothing, Stage.todo]
  · intro _ own'
    exact (kept.unread unread own').elim
  · intros; contradiction
  · rw [script']
    simp [up, Stage.todo]
  · rw [script']
    exact fun member => member
  · simp [up]
  · simp [up]
  · simp [up]
  · simp [Stage.informed]

theorem Own.edit {f : Conn n → Conn n} {request_id : Int32} {call : Call} {rest todo : List Call}
    (own : Own files g.conns g.fds g.log i (.calls d c request_id (call :: rest)))
    (found : g.conns c = some conn) (same : (f conn).owner = conn.owner)
    (kept : Kept files g.log g.fds c (f conn) todo)
    (held : Held (g.edit c f).conns g.fds c d (f conn) (.calls d c request_id todo)) :
    Own files (g.edit c f).conns (g.edit c f).fds (g.edit c f).log i (.calls d c request_id todo) := by
  obtain ⟨conn', found', owner, _⟩ := own.current c d rfl
  rw [found] at found'
  obtain rfl := Option.some.inj found'
  exact own.change rfl rfl
    (fun c' conn' other found' _ => ⟨(edit_of_ne other).symm.trans found', rfl, fun _ => Iff.rfl⟩)
    ⟨f conn, edit_self found, same.trans owner, kept, held⟩

theorem sigpipe_eq (here : g.fds d = some (.conn c)) (found : g.conns c = some conn) :
    g.sigpipe d = conn.pipe := by
  rw [Shared.sigpipe, here]
  simp only [found, Option.any_some]

theorem sendable_eq (here : g.fds d = some (.conn c)) (found : g.conns c = some conn) :
    g.sendable d = decide (conn.link = .up) := by
  rw [Shared.sendable, here]
  simp only [found, Option.any_some]

theorem Conn.pipe_eq_false : conn.pipe = false ↔ conn.cut = none ∧ conn.link ≠ .broken := by
  simp [Conn.pipe]

theorem Own.fputs {request_id : Int32} {line : Bytes} {rest : List Call}
    (own : Own files g.conns g.fds g.log i (.calls d c request_id (.fputs line :: rest))) :
    Own files g.conns g.fds (g.log ++ [(c, line)]) i (.calls d c request_id rest) := by
  obtain ⟨conn, found, owner, kept, held⟩ := own.current c d rfl
  have up := held.closed_eq rfl nofun
  have mine : Kept files (g.log ++ [(c, line)]) g.fds c conn rest := by
    refine ⟨?_, kept.sent, kept.whole, kept.cutOwn, kept.unread, ?_, ?_, kept.gone⟩
    · have logged := kept.logged
      rw [about_concat, if_pos rfl, List.append_assoc]
      exact logged
    · have closes := kept.closes
      simpa [Stage.todo] using closes
    · exact fun member => kept.closing (by simp [Stage.todo, member])
  have aside (c' : Nat) (conn' : Conn n) (other : c' ≠ c) (found' : g.conns c' = some conn')
      (_ : conn'.owner = i) : g.conns c' = some conn' ∧
        about (g.log ++ [(c, line)]) c' = about g.log c' ∧
        ∀ e, g.fds e = some (.conn c') ↔ g.fds e = some (.conn c') := by
    refine ⟨found', ?_, fun _ => Iff.rfl⟩
    rw [about_concat, if_neg other.symm, List.append_nil]
  exact own.change rfl rfl aside
    ⟨conn, found, owner, mine, held.here, by simp [up], by simp [up], held.orderly.tail, held.informed⟩

theorem Conn.take_closed (conn : Conn n) (bytes : Bytes) :
    (conn.take bytes).closed = conn.closed ∧ (conn.take bytes).cut = conn.cut := by
  rw [Conn.take]
  split <;> exact ⟨rfl, rfl⟩

theorem Conn.take_request (conn : Conn n) (bytes : Bytes) :
    (conn.take bytes).request = conn.request := by
  rw [Conn.take]
  split <;> rfl

theorem Own.send {request_id : Int32} {call : Call} {bytes : Bytes} {rest : List Call}
    (own : Own files g.conns g.fds g.log i (.calls d c request_id (call :: rest)))
    (kind : call = .send bytes ∨ call = .chunk bytes) :
    Own files (g.send d bytes).conns (g.send d bytes).fds (g.send d bytes).log i
      (.calls d c request_id (g.after d call rest)) := by
  obtain ⟨conn, found, owner, kept, held⟩ := own.current c d rfl
  have up : conn.closed = false := held.closed_eq rfl (by rcases kind with rfl | rfl <;> simp)
  have here := held.here up
  have silent : lines (call :: rest) = lines rest := by rcases kind with rfl | rfl <;> rfl
  have bytes' : sends (call :: rest) = bytes ++ sends rest := by rcases kind with rfl | rfl <;> rfl
  have other : Call.close ≠ call := by rcases kind with rfl | rfl <;> simp
  obtain ⟨sameLines, orderly, members⟩ := after_spec g d call rest
  have closeMem : .close ∈ g.after d call rest ↔ .close ∈ call :: rest := by
    rw [members .close rfl, List.mem_cons]
    exact ⟨.inr, fun either => either.resolve_left other⟩
  have logged := kept.logged
  have whole := kept.whole
  have closes := kept.closes
  have closing := kept.closing
  simp only [Stage.todo] at logged whole closes closing
  rw [silent, ← sameLines] at logged
  rw [← closeMem] at closes closing
  have holds {conns : Nat → Option (Conn n)} {conn' : Conn n} (closed : conn'.closed = conn.closed)
      (request : conn'.request = conn.request) :
      Held conns g.fds c d conn' (.calls d c request_id (g.after d call rest)) := by
    have still : conn'.closed ≠ true := by simp [closed, up]
    refine ⟨fun _ => here, fun shut => (still shut).elim, fun shut => (still shut).elim,
      orderly held.orderly.tail, ?_⟩
    rw [request]
    exact held.informed
  have failed (link : Link) (dead : link = .up → conn.link = .up ∧ conn.cut ≠ none) :
      Kept files g.log g.fds c { conn with link := link } (g.after d call rest) :=
    ⟨logged, kept.sent, fun able uncut => ((dead able).2 uncut).elim,
      fun able own => kept.cutOwn (dead able).1 own, kept.unread, closes, closing, kept.gone⟩
  cases signal : g.sigpipe d with
  | true =>
      have pipe := (sigpipe_eq here found).symm.trans signal
      rw [send_sigpipe signal]
      refine own.change rfl rfl (fun c' conn' _ found' _ => ⟨found', rfl, fun _ => Iff.rfl⟩)
        ⟨conn, found, owner, failed conn.link fun able => ⟨able, fun uncut => ?_⟩, holds rfl rfl⟩
      simp [Conn.pipe, able, uncut] at pipe
  | false =>
      obtain ⟨uncut, unbroken⟩ := Conn.pipe_eq_false.mp ((sigpipe_eq here found).symm.trans signal)
      rw [perform_send here signal]
      refine own.edit found (conn.take_owner bytes) ?_ (holds (conn.take_closed bytes).1
        (conn.take_request bytes))
      cases able : conn.link with
      | up =>
          have same : g.after d call rest = rest :=
            after_eq (.inr ((sendable_eq here found).trans (decide_eq_true able)))
          have taken : conn.take bytes = { conn with received := conn.received ++ bytes } := by
            simp only [Conn.take, able]
          have total := whole able uncut
          rw [bytes', ← List.append_assoc] at total
          rw [taken]
          refine ⟨logged, ⟨sends rest, total⟩, fun _ _ => ?_, fun _ own' => ?_, kept.unread, closes,
            closing, kept.gone⟩
          · rw [same]
            exact total
          · simp only [uncut] at own'
            cases own'
      | reset =>
          have taken : conn.take bytes = { conn with link := .broken } := by
            simp only [Conn.take, able]
          rw [taken]
          exact failed .broken (by intros; contradiction)
      | broken => exact (unbroken able).elim

theorem Own.close {request_id : Int32} {rest : List Call} (sound : Sound g)
    (own : Own files g.conns g.fds g.log i (.calls d c request_id (.close :: rest))) :
    Own files (g.close d).conns (g.close d).fds (g.close d).log i (.calls d c request_id rest) := by
  obtain ⟨conn, found, owner, kept, held⟩ := own.current c d rfl
  have up := held.closed_eq rfl nofun
  have here := held.here up
  have only : rest = [.shutdown] := held.orderly
  have cleared (e c' : Nat) (there : Function.update g.fds d none e = some (.conn c')) :
      e ≠ d ∧ g.fds e = some (.conn c') := by
    by_cases same : e = d
    · subst same
      rw [Function.update_self] at there
      cases there
    · rw [Function.update_of_ne same] at there
      exact ⟨same, there⟩
  rw [perform_close here]
  refine own.change rfl rfl (fun c' conn' other found' _ => ⟨(edit_of_ne other).symm.trans found', rfl,
    fun e => ⟨fun there => (cleared e c' there).2, fun there => ?_⟩⟩)
    ⟨_, edit_self found, owner, ⟨kept.logged, kept.sent, ?_, kept.cutOwn, kept.unread, ?_, ?_, ?_⟩, nofun,
      fun _ => .inr only, fun _ c' conn' there => ?_, held.orderly.tail, held.informed⟩
  · simp only [Shared.release]
    rw [Function.update_of_ne]
    · exact there
    · rintro rfl
      rw [here] at there
      exact other (Descriptor.conn.inj (Option.some.inj there)).symm
  · exact kept.whole
  · have member : .close ∈ Conn.script files { conn with closed := true } :=
      kept.closing (by simp [Stage.todo])
    rw [only]
    simpa [Stage.todo] using member
  · rw [only]
    simp [Stage.todo]
  · intro _ e there
    obtain ⟨other, before⟩ := cleared e c there
    exact other (sound.single e d c before here)
  · exact ((cleared d c' there).1 rfl).elim

theorem Own.shutdown {request_id : Int32} {rest : List Call}
    (own : Own files g.conns g.fds g.log i (.calls d c request_id (.shutdown :: rest))) :
    Own files (g.shutdown i d).conns (g.shutdown i d).fds (g.shutdown i d).log i
      (.calls d c request_id rest) := by
  obtain ⟨conn, found, owner, kept, held⟩ := own.current c d rfl
  obtain ⟨silent, closeless, orderly⟩ := held.orderly
  have logged := kept.logged
  have whole := kept.whole
  have closes := kept.closes
  simp only [Stage.todo, lines, sends, List.mem_cons, reduceCtorEq, false_or] at logged whole closes
  have mine : Kept files g.log g.fds c conn rest :=
    ⟨logged, kept.sent, whole, kept.cutOwn, kept.unread, closes,
      fun member => (closeless member).elim, kept.gone⟩
  cases closed : conn.closed with
  | false =>
      rw [perform_shutdown (held.here closed)]
      refine own.edit found rfl ⟨logged, kept.sent, fun _ uncut => ?_, fun up cut => ?_, fun unread => ?_,
        closes, fun member => (closeless member).elim, kept.gone⟩ ⟨held.here, ?_, ?_, orderly, held.informed⟩
      · simp [Conn.shut] at uncut
      · cases before : conn.cut with
        | none =>
            have total := whole up before
            rw [sends_eq_nil silent, List.append_nil] at total
            exact total
        | some k =>
            refine kept.cutOwn up ?_
            rw [before]
            simpa [Conn.shut, before] using cut
      · have informed := held.informed.mp unread
        cases informed
      · intro shut
        exact (Bool.false_ne_true (closed.symm.trans shut)).elim
      · intro shut
        exact (Bool.false_ne_true (closed.symm.trans shut)).elim
  | true =>
      -- the descriptor belongs to somebody else, or to nobody
      have rest' : rest = [] := by
        rcases held.last closed with none | only
        · cases none
        · exact (List.cons.inj only).2
      have stay (conns' : Nat → Option (Conn n)) (found' : conns' c = some conn)
          (stale : ∀ c' conn', g.fds d = some (.conn c') → conns' c' = some conn' →
            conn'.owner ≠ conn.owner) : Held conns' g.fds c d conn (.calls d c request_id rest) :=
        ⟨held.here, fun _ => .inl rest', fun _ => stale, orderly, held.informed⟩
      have same : Own files g.conns g.fds g.log i (.calls d c request_id rest) :=
        own.change rfl rfl (fun c' conn' _ found' _ => ⟨found', rfl, fun _ => Iff.rfl⟩)
          ⟨conn, found, owner, mine, stay g.conns found (held.stale closed)⟩
      rw [Shared.shutdown]
      split
      · next target there =>
        have other : c ≠ target := by
          rintro rfl
          exact kept.gone closed d there
        have before {conn' : Conn n} (found' : (g.edit target (·.shut i)).conns target = some conn') :
            ∃ conn'', g.conns target = some conn'' ∧ conn''.owner = conn'.owner := by
          cases known : g.conns target with
          | none => simp [Shared.edit, known] at found'
          | some conn'' =>
              rw [edit_self known] at found'
              exact ⟨conn'', rfl, by rw [← Option.some.inj found']; rfl⟩
        have foreign (conn' : Conn n) (found' : (g.edit target (·.shut i)).conns target = some conn') :
            conn'.owner ≠ conn.owner := by
          obtain ⟨conn'', known, sameOwner⟩ := before found'
          rw [← sameOwner]
          exact held.stale closed target conn'' there known
        refine own.change rfl rfl (fun c' conn' _ found' mine' => ⟨?_, rfl, fun _ => Iff.rfl⟩)
          ⟨conn, (edit_of_ne other).trans found, owner, mine, stay _ ((edit_of_ne other).trans found) ?_⟩
        · by_cases hit : c' = target
          · subst hit
            exact (foreign conn' found' (mine'.trans owner.symm)).elim
          · exact (edit_of_ne hit).symm.trans found'
        · intro c' conn' there' found'
          rw [there] at there'
          obtain rfl := Descriptor.conn.inj (Option.some.inj there')
          exact foreign conn' found'
      · exact same
      · exact same
      · exact same

theorem Own.call {request_id : Int32} {call : Call} {rest : List Call} (sound : Sound g)
    (own : Own files g.conns g.fds g.log i (.calls d c request_id (call :: rest)))
    (ends : call ≠ .spin) :
    Own files (g.perform i d c call).conns (g.perform i d c call).fds (g.perform i d c call).log i
      (.calls d c request_id (g.after d call rest)) := by
  have plain (other : call.isChunk = false) : g.after d call rest = rest := after_eq (.inl other)
  cases call with
  | fputs line =>
      rw [plain rfl]
      exact own.fputs
  | send bytes => exact own.send (.inl rfl)
  | chunk bytes => exact own.send (.inr rfl)
  | close =>
      rw [plain rfl]
      exact own.close sound
  | shutdown =>
      rw [plain rfl]
      exact own.shutdown
  | spin => exact (ends rfl).elim
  | undefined =>
      obtain ⟨conn, found, owner, kept, held⟩ := own.current c d rfl
      have up := held.closed_eq rfl nofun
      have closes := kept.closes
      simp only [Stage.todo, List.mem_cons, reduceCtorEq, false_or] at closes
      rw [plain rfl]
      exact own.change rfl rfl (fun c' conn' _ found' _ => ⟨found', rfl, fun _ => Iff.rfl⟩)
        ⟨conn, found, owner, ⟨kept.logged, kept.sent, kept.whole, kept.cutOwn, kept.unread, closes,
          fun member => kept.closing (List.mem_cons_of_mem _ member), kept.gone⟩,
          held.here, by simp [up], by simp [up], held.orderly.tail, held.informed⟩

theorem Own.step (sound : Sound g) (own : Own files g.conns g.fds g.log i l)
    (act : Act files (.worker i) g l g' l') : Own files g'.conns g'.fds g'.log i l' := by
  cases act with
  | accept _ _ _ unused => exact own.opened sound unused
  | refused => exact ⟨nofun, fun c conn found owner _ => own.former c conn found owner nofun⟩
  | lock | number | increment | unlock =>
      refine ⟨fun c d here => ?_, own.former⟩
      obtain ⟨conn, found, owner, kept, held⟩ := own.current c d here
      exact ⟨conn, found, owner, kept, held.here, held.last, held.stale, held.orderly, held.informed⟩
  | dropped => exact own.leave rfl rfl
  | receive r _ _ _ _ clock =>
      generalize asked : r.handle files = calls
      exact own.receive r calls asked (handle_orderly asked clock)
  | call ends => exact own.call sound ends
  | again => exact own.leave rfl rfl

end

/-! Runs. -/

section
variable {files : Bytes → Option Entry} {n : Nat}

/-- What holds of the state whenever a thread has the turn. -/
def Owns (files : Bytes → Option Entry) (p : Party n) (g : Shared n) (l : Stage) : Prop :=
  Sound g ∧ ∀ i, p = .worker i → Own files g.conns g.fds g.log i l

theorem owns_stable : ∀ s t : State (Party n) (Shared n) Stage, Step (Turn files) s t →
    (∀ p, Owns files p s.shared (s.locals p)) → ∀ p, Owns files p t.shared (t.locals p) := by
  rintro s t ⟨p, acted⟩ before q
  have sound := (before p).1
  refine ⟨acted.2.sound sound (before p).2, fun i worker => ?_⟩
  subst worker
  by_cases same : p = .worker i
  · subst same
    simp only [Function.update_self]
    exact ((before _).2 i rfl).step sound acted.2
  · simp only [Function.update_of_ne (Ne.symm same)]
    exact ((before _).2 i rfl).spared (acted.2.spared sound same (before p).2)

theorem start_owns (p : Party n) : Owns files p (start n).shared ((start n).locals p) := by
  have table (d c : Nat) : (start n).shared.fds d ≠ some (.conn c) := by
    simp only [start]
    split
    · nofun
    · split <;> nofun
  refine ⟨⟨fun d c here => (table d c here).elim, fun d _ c here => (table d c here).elim, fun c => ?_,
    table serverd, nofun⟩, fun i worker => ⟨?_, ?_⟩⟩
  · simp [start]
  · subst worker
    nofun
  · nofun

theorem owns_reachable {s : State (Party n) (Shared n) Stage} (run : Run (Turn files) (start n) s)
    (p : Party n) : Owns files p s.shared (s.locals p) :=
  run.invariant start_owns (fun s t move before => owns_stable s t move before) p

def created (n : Nat) : State (Party n) (Shared n) Stage :=
  solo (start n).locals .main { (start n).shared with created := n } (.create n)

theorem run_created (n : Nat) : Run (Turn files) (start n) (created n) := by
  have upto (k : Nat) (bound : k ≤ n) : Run (Turn files) (start n)
      (solo (start n).locals .main { (start n).shared with created := k } (.create k)) := by
    induction k with
    | zero =>
        have here := solo_self (start n).locals .main (start n).shared
        rw [show solo (start n).locals .main { (start n).shared with created := 0 } (.create 0) =
          start n from here]
    | succ k ih => exact (ih (by omega)).tail (.solo _ _ ⟨rfl, .create bound⟩)
  exact upto n (Nat.le_refl n)

/-- A connection has been accepted and has got its number. -/
def Shared.numbered (g : Shared n) (i : Fin n) (clientd : Nat) : Shared n :=
  { g.opened i clientd with
    nextRequestId := g.nextRequestId + 1
    acceptMutex := none
    given := g.given ++ [(g.accepted, g.nextRequestId)] }

section
variable {locals : Party n → Stage} {g : Shared n} {i : Fin n} {d c : Nat} {id : Int32}

theorem run_accepts (calm : g.crashed = false) (turn : locals (.worker i) = .accept)
    (exists' : i.val < g.created) (bound : g.fds serverd = some .listener)
    (hearing : g.listening = true) (unused : g.fds d = none) (free : g.acceptMutex = none) :
    Run (Turn files) ⟨g, locals⟩
      (solo locals (.worker i) (g.numbered i d) (.receive d g.accepted g.nextRequestId)) := by
  have step {g g' : Shared n} {l l' : Stage} (calm : g.crashed = false)
      (act : Act files (.worker i) g l g' l') :
      Step (Turn files) (solo locals (.worker i) g l) (solo locals (.worker i) g' l') :=
    .solo locals _ ⟨calm, act⟩
  rw [← solo_self locals (.worker i), turn]
  have path := Relation.ReflTransGen.single (step calm (.accept exists' bound hearing unused))
  have path := path.tail (step calm (.lock free))
  have path := path.tail (step calm .number)
  have path := path.tail (step calm .increment)
  exact path.tail (step calm .unlock)

def Call.plain : Call → Bool
  | .fputs _ | .send _ | .chunk _ => true
  | .close | .shutdown | .spin | .undefined => false

theorem run_calls {conn : Conn n} {front rest : List Call} (plain : ∀ call ∈ front, call.plain = true)
    (calm : g.crashed = false) (here : g.fds d = some (.conn c)) (found : g.conns c = some conn)
    (up : conn.link = .up) (uncut : conn.cut = none) :
    ∃ g', Run (Turn files) (solo locals (.worker i) g (.calls d c id (front ++ rest)))
        (solo locals (.worker i) g' (.calls d c id rest)) ∧
      g' = { g with conns := g'.conns, log := g'.log } ∧
      g'.conns c = some { conn with received := conn.received ++ sends front } ∧
      about g'.log c = about g.log c ++ lines front := by
  induction front generalizing g conn with
  | nil => exact ⟨g, .refl, rfl, by simpa [sends] using found, by simp [lines]⟩
  | cons call front ih =>
      obtain ⟨first, later⟩ := List.forall_mem_cons.mp plain
      have quiet : g.sigpipe d = false :=
        (sigpipe_eq here found).trans (Conn.pipe_eq_false.mpr ⟨uncut, by simp [up]⟩)
      have next : g.after d call (front ++ rest) = front ++ rest :=
        after_eq (.inr ((sendable_eq here found).trans (decide_eq_true up)))
      have step (ends : call ≠ .spin) :
          Step (Turn files) (solo locals (.worker i) g (.calls d c id (call :: front ++ rest)))
            (solo locals (.worker i) (g.perform i d c call) (.calls d c id (front ++ rest))) := by
        have acted : Turn files (.worker i) g (.calls d c id (call :: (front ++ rest))) _ _ :=
          ⟨calm, .call ends⟩
        have moved := Step.solo locals (.worker i) acted
        rwa [next] at moved
      have sending (bytes : Bytes) (ends : call ≠ .spin) (sent : g.perform i d c call = g.send d bytes)
          (bytes' : sends (call :: front) = bytes ++ sends front)
          (silent : lines (call :: front) = lines front) :
          ∃ g', Run (Turn files) (solo locals (.worker i) g (.calls d c id (call :: front ++ rest)))
              (solo locals (.worker i) g' (.calls d c id rest)) ∧
            g' = { g with conns := g'.conns, log := g'.log } ∧
            g'.conns c = some { conn with received := conn.received ++ sends (call :: front) } ∧
            about g'.log c = about g.log c ++ lines (call :: front) := by
        have taken : conn.take bytes = { conn with received := conn.received ++ bytes } := by
          simp only [Conn.take, up]
        rw [perform_send here quiet] at sent
        obtain ⟨g', path, frame, received, logged⟩ := @ih (g.edit c (·.take bytes)) (conn.take bytes)
          later calm here (edit_self found) (by rw [taken]; exact up) (by rw [taken]; exact uncut)
        refine ⟨g', .head ?_ path, frame, ?_, ?_⟩
        · rw [← sent]
          exact step ends
        · rw [received, taken, bytes', List.append_assoc]
        · rw [logged, silent]
          rfl
      cases call with
      | fputs line =>
          obtain ⟨g', path, frame, received, logged⟩ := @ih { g with log := g.log ++ [(c, line)] } conn
            later calm here found up uncut
          refine ⟨g', .head (step (by simp)) path, frame, received, ?_⟩
          rw [logged, about_concat, if_pos rfl, List.append_assoc]
          rfl
      | send bytes => exact sending bytes (by simp) rfl rfl rfl
      | chunk bytes => exact sending bytes (by simp) rfl rfl rfl
      | close | shutdown | spin | undefined => cases first

end

def traces : Request := ⟨0, 0, ascii "TRACE / HTTP/1.1
", []⟩

def beginning : List Call :=
  [.fputs traces.firstLine, .fputs (traces.secondLine (ascii "TRACE") (ascii "/") (ascii "HTTP/1.1")),
    .fputs (headerLine 0 (ascii "HTTP/1.1 200 OK")), .send (header 200 "OK" [] 17)]

set_option maxRecDepth 2000 in
theorem traces_handle : traces.handle (fun _ => none) =
    beginning ++ [.send traces.buff, .shutdown, .fputs (ascii "
")] := by decide

theorem exists_halfway : ∃ g conn, Run (Turn fun _ => none) (start 1) (solo (created 1).locals
      (.worker 0) g (.calls 5 0 0 [.send traces.buff, .shutdown, .fputs (ascii "
")])) ∧
    g = { ((created 1).shared.numbered 0 5) with conns := g.conns, log := g.log } ∧
    conn = ⟨0, some traces, header 200 "OK" [] 17, .up, none, false⟩ ∧ g.conns 0 = some conn ∧
    about g.log 0 = [traces.firstLine, traces.secondLine (ascii "TRACE") (ascii "/") (ascii "HTTP/1.1"),
      headerLine 0 (ascii "HTTP/1.1 200 OK")] := by
  have accepted := @run_accepts (fun _ => none) 1 (created 1).locals (created 1).shared 0 5 rfl rfl
    (by decide) rfl rfl rfl rfl
  have path := ((run_created 1).trans accepted).tail
    (.solo (created 1).locals _ ⟨rfl, .receive traces rfl rfl (by decide) (by decide) (by decide)⟩)
  rw [traces_handle] at path
  obtain ⟨g, made, frame, received, logged⟩ := @run_calls (fun _ => none) 1 (created 1).locals
    (((created 1).shared.numbered 0 5).edit 0 fun conn => { conn with request := some traces }) 0 5 0 0
    _ beginning [.send traces.buff, .shutdown, .fputs (ascii "
")] (by decide) rfl rfl rfl rfl rfl
  exact ⟨g, _, path.trans made, frame, rfl, received, logged⟩

variable {s : State (Party n) (Shared n) Stage} {c : Nat} {conn : Conn n}

/-- Whoever has shut down a connection of another worker has closed one of its own before. -/
def Blamed (g : Shared n) : Prop :=
  ∀ c conn j, g.conns c = some conn → conn.cut = some j → j ≠ conn.owner →
    ∃ c' conn', g.conns c' = some conn' ∧ conn'.owner = j ∧ conn'.closed = true

section
variable {g g' : Shared n}

theorem Blamed.edit (blamed : Blamed g) (c : Nat) (f : Conn n → Conn n)
    (owner : ∀ conn, (f conn).owner = conn.owner)
    (closed : ∀ conn, conn.closed = true → (f conn).closed = true)
    (cut : ∀ conn j, g.conns c = some conn → (f conn).cut = some j → j ≠ conn.owner →
      conn.cut = some j ∨ ∃ c' conn', g.conns c' = some conn' ∧ conn'.owner = j ∧
        conn'.closed = true) : Blamed (g.edit c f) := by
  have carried {j : Fin n} (before : ∃ c' conn', g.conns c' = some conn' ∧ conn'.owner = j ∧
      conn'.closed = true) : ∃ c' conn', (g.edit c f).conns c' = some conn' ∧ conn'.owner = j ∧
      conn'.closed = true := by
    obtain ⟨c', conn', found, mine, shut⟩ := before
    by_cases here : c' = c
    · subst here
      exact ⟨c', f conn', edit_self found, (owner conn').trans mine, closed conn' shut⟩
    · exact ⟨c', conn', (edit_of_ne here).trans found, mine, shut⟩
  intro c' conn' j found shut other
  apply carried
  by_cases here : c' = c
  · subst here
    cases before : g.conns c' with
    | none => simp [Shared.edit, before] at found
    | some conn =>
        rw [edit_self before] at found
        obtain rfl := Option.some.inj found
        rw [owner] at other
        rcases cut conn j before shut other with old | blame
        · exact blamed c' conn j before old other
        · exact blame
  · rw [edit_of_ne here] at found
    exact blamed c' conn' j found shut other

theorem Blamed.shutdown {i : Fin n} {d c₀ : Nat} {conn₀ : Conn n} {l : Stage} (blamed : Blamed g)
    (found : g.conns c₀ = some conn₀) (owner : conn₀.owner = i)
    (held : Held g.conns g.fds c₀ d conn₀ l) : Blamed (g.shutdown i d) := by
  rw [Shared.shutdown]
  split
  · next c there =>
    refine blamed.edit c _ (fun _ => rfl) (fun _ => id) fun conn j before shut other => ?_
    cases cut : conn.cut with
    | some k =>
        refine .inl ?_
        simpa [Conn.shut, cut] using shut
    | none =>
        have self : i = j := by simpa [Conn.shut, cut] using shut
        subst self
        refine .inr ⟨c₀, conn₀, found, owner, ?_⟩
        cases closed : conn₀.closed with
        | true => rfl
        | false =>
            -- the descriptor would still be that of the worker's own connection
            rw [held.here closed] at there
            obtain rfl := Descriptor.conn.inj (Option.some.inj there)
            rw [found] at before
            rw [← Option.some.inj before] at other
            exact (other owner.symm).elim
  · exact blamed
  · exact blamed
  · exact blamed

theorem Blamed.perform {i : Fin n} {d c : Nat} {request_id : Int32} {call : Call} {rest : List Call}
    (blamed : Blamed g)
    (own : Own files g.conns g.fds g.log i (.calls d c request_id (call :: rest))) :
    Blamed (g.perform i d c call) := by
  have sending (bytes : Bytes) : Blamed (g.send d bytes) := by
    rcases send_cases g d bytes with same | ⟨c, same⟩ | same <;> rw [same]
    · exact blamed
    · refine blamed.edit _ _ (fun conn => conn.take_owner bytes)
        (fun conn closed => (conn.take_closed bytes).1.trans closed) fun conn j _ shut _ => .inl ?_
      rwa [(conn.take_closed bytes).2] at shut
    · exact blamed
  cases call with
  | fputs line => exact blamed
  | send bytes => exact sending bytes
  | chunk bytes => exact sending bytes
  | close =>
      rw [Shared.perform, Shared.close]
      split
      · exact blamed.edit _ (fun conn => { conn with closed := true }) (fun _ => rfl)
          (fun _ _ => rfl) fun _ _ _ shut _ => .inl shut
      · exact blamed
      · exact blamed
      · exact blamed
  | shutdown =>
      obtain ⟨conn, found, owner, _, held⟩ := own.current c d rfl
      exact blamed.shutdown found owner held
  | spin => exact blamed
  | undefined => exact blamed

theorem Blamed.opened {i : Fin n} {d : Nat} (blamed : Blamed g) (sound : Sound g) :
    Blamed (g.opened i d) := by
  have old {c : Nat} {conn : Conn n} (found : g.conns c = some conn) :
      (g.opened i d).conns c = some conn := by
    have other : c ≠ g.accepted := by
      rintro rfl
      rw [(sound.fresh _).mp (Nat.le_refl _)] at found
      cases found
    simp only [Shared.opened, Function.update_of_ne other]
    exact found
  intro c conn j found shut other
  by_cases here : c = g.accepted
  · subst here
    simp only [Shared.opened, Function.update_self, Option.some.injEq] at found
    rw [← found] at shut
    cases shut
  · simp only [Shared.opened, Function.update_of_ne here] at found
    obtain ⟨c', conn', found', mine, closed⟩ := blamed c conn j found shut other
    exact ⟨c', conn', old found', mine, closed⟩

theorem Act.blamed {p : Party n} {l l' : Stage} (act : Act files p g l g' l') (sound : Sound g)
    (own : ∀ j, p = .worker j → Own files g.conns g.fds g.log j l) (blamed : Blamed g) :
    Blamed g' := by
  cases act with
  | reset c link =>
      refine blamed.edit c (·.lose link) (fun conn => (Worn.lose conn link).owner)
        (fun conn closed => ?_) fun conn j _ shut _ => .inl ?_
      · rwa [(Worn.lose conn link).closed]
      · rw [Conn.lose] at shut
        split at shut <;> exact shut
  | accept => exact blamed.opened sound
  | receive r =>
      exact blamed.edit _ (fun conn => { conn with request := some r }) (fun _ => rfl) (fun _ => id)
        fun _ _ _ shut _ => .inl shut
  | call _ => exact blamed.perform (own _ rfl)
  | create | created | exit | shutdown | close | join | joined | fclose | refused | lock | number
  | increment | unlock | dropped | again => exact blamed

end

end

end CudaOpenMp.Server
