import CudaOpenMp.Server.Response
import CudaOpenMp.Server.WorkersCore

/-!
What the workers of the server have to do with each other's connections. All that a worker does to a
connection of another one is a `shutdown` of a descriptor that it has closed before.
-/

namespace CudaOpenMp.Server

open Interleaving

def lines : List Call → List Bytes
  | [] => []
  | .fputs line :: rest => line :: lines rest
  | .send _ :: rest | .chunk _ :: rest | .close :: rest | .shutdown :: rest | .spin :: rest
  | .undefined :: rest => lines rest

/-- Nothing is sent behind a `shutdown` or a `close`, and behind a `close` there is only a
`shutdown`. -/
def Orderly : List Call → Prop
  | [] => True
  | .close :: rest => rest = [.shutdown]
  | .shutdown :: rest =>
    (∀ call ∈ rest, call.isSend = false) ∧ .close ∉ rest ∧ Orderly rest
  | .fputs _ :: rest | .send _ :: rest | .chunk _ :: rest | .spin :: rest | .undefined :: rest =>
    Orderly rest

theorem sends_eq_nil {calls : List Call} (silent : ∀ call ∈ calls, call.isSend = false) :
    sends calls = [] := by
  induction calls with
  | nil => rfl
  | cons call calls ih =>
      obtain ⟨first, later⟩ := List.forall_mem_cons.mp silent
      cases call with
      | send _ | chunk _ => cases first
      | fputs _ | close | shutdown | spin | undefined => exact ih later

theorem Orderly.append {calls more : List Call} (plain : ∀ call ∈ calls, call.isSend = true)
    (orderly : Orderly more) : Orderly (calls ++ more) := by
  induction calls with
  | nil => exact orderly
  | cons call calls ih =>
      have rest := ih fun call member => plain call (by simp [member])
      have first := plain call (by simp)
      cases call <;> first | exact rest | cases first

theorem Script.orderly {r : Request} {calls : List Call} (script : Script r calls)
    (clock : r.timestamp.length < 30) : Orderly calls := by
  induction script with
  | undefined => trivial
  | badRequest =>
      rw [badRequest_eq clock]
      exact rfl
  | served served =>
      cases served with
      | calls sending ended =>
          rw [List.append_assoc, List.append_assoc]
          apply Orderly.append sending
          rcases ended with rfl | rfl
          · exact ⟨by simp [Call.isSend], by simp, trivial⟩
          · trivial
  | line _ ih => exact ih

theorem Orderly.tail {call : Call} {rest : List Call} (orderly : Orderly (call :: rest)) :
    Orderly rest := by
  cases call with
  | close =>
      have only : rest = [.shutdown] := orderly
      rw [only]
      exact ⟨nofun, List.not_mem_nil, trivial⟩
  | shutdown => exact orderly.2.2
  | fputs _ | send _ | chunk _ | spin | undefined => exact orderly

theorem handle_orderly {files : Bytes → Option Entry} {r : Request} {calls : List Call}
    (asked : r.handle files = calls) (clock : r.timestamp.length < 30) : Orderly calls := by
  have script := handle_script files r clock
  rw [asked] at script
  exact script.orderly clock

section
variable {n : Nat} {g : Shared n} {d : Nat} {call : Call} {rest : List Call}

theorem dropChunks_spec (calls : List Call) : lines (calls.dropWhile Call.isChunk) = lines calls ∧
    (Orderly calls → Orderly (calls.dropWhile Call.isChunk)) ∧
    ∀ call, call.isChunk = false → (call ∈ calls.dropWhile Call.isChunk ↔ call ∈ calls) := by
  induction calls with
  | nil => exact ⟨rfl, id, fun _ _ => Iff.rfl⟩
  | cons first calls ih =>
      obtain ⟨same, orderly, members⟩ := ih
      cases piece : first.isChunk with
      | false =>
          rw [List.dropWhile_cons_of_neg (by simp [piece])]
          exact ⟨rfl, id, fun _ _ => Iff.rfl⟩
      | true =>
          rw [List.dropWhile_cons_of_pos piece]
          refine ⟨?_, fun whole => orderly whole.tail, fun call other => ?_⟩
          · rw [same]
            cases first <;> first | rfl | cases piece
          · rw [members call other, List.mem_cons]
            refine ⟨.inr, fun either => either.resolve_left ?_⟩
            rintro rfl
            rw [piece] at other
            cases other

theorem after_spec (g : Shared n) (d : Nat) (call : Call) (rest : List Call) :
    lines (g.after d call rest) = lines rest ∧ (Orderly rest → Orderly (g.after d call rest)) ∧
      ∀ other, other.isChunk = false → (other ∈ g.after d call rest ↔ other ∈ rest) := by
  rw [Shared.after]
  split
  · exact dropChunks_spec rest
  · exact ⟨rfl, id, fun _ _ => Iff.rfl⟩

theorem after_eq (done : call.isChunk = false ∨ g.sendable d = true) : g.after d call rest = rest := by
  rw [Shared.after, if_neg]
  rintro ⟨piece, failed⟩
  rcases done with other | sent
  · rw [piece] at other
    cases other
  · rw [failed] at sent
    cases sent

end

/-- The lines in the log that were written for a connection. -/
def about (log : List (Nat × Bytes)) (c : Nat) : List Bytes :=
  (log.filter fun entry => entry.1 = c).map Prod.snd

/-- The calls that the message of a connection asks for. -/
def Conn.script {n : Nat} (files : Bytes → Option Entry) (conn : Conn n) : List Call :=
  (conn.request.map fun r => r.handle files).getD []

def Stage.current : Stage → Option (Nat × Nat)
  | .lock d c | .number d c | .increment d c _ | .unlock d c _ | .receive d c _ | .calls d c _ _ =>
    some (c, d)
  | .accept | .exited | .create _ | .stdin | .shutdown | .close | .join _ | .fclose | .finished
  | .idle => none

def Stage.todo : Stage → List Call
  | .calls _ _ _ todo => todo
  | .lock _ _ | .number _ _ | .increment _ _ _ | .unlock _ _ _ | .receive _ _ _ | .accept | .exited
  | .create _ | .stdin | .shutdown | .close | .join _ | .fclose | .finished | .idle => []

/-- The worker has received the message of its connection. -/
def Stage.informed : Stage → Bool
  | .calls _ _ _ _ => true
  | .lock _ _ | .number _ _ | .increment _ _ _ | .unlock _ _ _ | .receive _ _ _ | .accept | .exited
  | .create _ | .stdin | .shutdown | .close | .join _ | .fclose | .finished | .idle => false

variable (files : Bytes → Option Entry) {n : Nat}

/-- A connection against the calls that its message asks for and those that are still to be made. -/
structure Kept (log : List (Nat × Bytes)) (fds : Nat → Option Descriptor) (c : Nat) (conn : Conn n)
    (todo : List Call) : Prop where
  logged : about log c ++ lines todo = lines (conn.script files)
  sent : conn.received <+: sends (conn.script files)
  whole : conn.link = .up → conn.cut = none →
    conn.received ++ sends todo = sends (conn.script files)
  cutOwn : conn.link = .up → conn.cut = some conn.owner →
    conn.received = sends (conn.script files)
  unread : conn.request = none → conn.cut ≠ some conn.owner
  closes : conn.closed = true ↔ .close ∈ conn.script files ∧ .close ∉ todo
  closing : .close ∈ todo → .close ∈ conn.script files
  gone : conn.closed = true → ∀ d, fds d ≠ some (.conn c)

/-- The connection that a worker has: its descriptor may be in use by another one when it was
closed. -/
structure Held (conns : Nat → Option (Conn n)) (fds : Nat → Option Descriptor) (c d : Nat)
    (conn : Conn n) (l : Stage) : Prop where
  here : conn.closed = false → fds d = some (.conn c)
  last : conn.closed = true → l.todo = [] ∨ l.todo = [.shutdown]
  stale : conn.closed = true → ∀ c' conn', fds d = some (.conn c') → conns c' = some conn' →
    conn'.owner ≠ conn.owner
  orderly : Orderly l.todo
  informed : conn.request = none ↔ l.informed = false

structure Own (conns : Nat → Option (Conn n)) (fds : Nat → Option Descriptor)
    (log : List (Nat × Bytes)) (i : Fin n) (l : Stage) : Prop where
  current : ∀ c d, l.current = some (c, d) → ∃ conn, conns c = some conn ∧ conn.owner = i ∧
    Kept files log fds c conn l.todo ∧ Held conns fds c d conn l
  former : ∀ c conn, conns c = some conn → conn.owner = i → (∀ d, l.current ≠ some (c, d)) →
    Kept files log fds c conn [] ∧ (conn.closed = false → ∃ d, fds d = some (.conn c))

/-- What is so whoever has the turn. -/
structure Sound (g : Shared n) : Prop where
  known : ∀ d c, g.fds d = some (.conn c) → c < g.accepted
  single : ∀ d d' c, g.fds d = some (.conn c) → g.fds d' = some (.conn c) → d = d'
  fresh : ∀ c, g.accepted ≤ c ↔ g.conns c = none
  listener : ∀ c, g.fds serverd ≠ some (.conn c)
  logged : ∀ entry ∈ g.log, entry.1 < g.accepted

/-! What a connection can take from other threads. -/

/-- A connection before and after others had the turn. -/
structure Worn (conn conn' : Conn n) : Prop where
  owner : conn'.owner = conn.owner
  request : conn'.request = conn.request
  received : conn'.received = conn.received
  closed : conn'.closed = conn.closed
  link : conn'.link = conn.link ∨ conn.link = .up
  cut : conn'.cut = conn.cut ∨ ∃ j, j ≠ conn.owner ∧ conn.cut = none ∧ conn'.cut = some j

structure Spared (i : Fin n) (g g' : Shared n) : Prop where
  worn : ∀ c conn, g.conns c = some conn → conn.owner = i →
    ∃ conn', g'.conns c = some conn' ∧ Worn conn conn'
  origin : ∀ c conn', g'.conns c = some conn' → conn'.owner = i →
    ∃ conn, g.conns c = some conn ∧ Worn conn conn'
  log : ∀ c conn, g.conns c = some conn → conn.owner = i → about g'.log c = about g.log c
  fds : ∀ c conn d, g.conns c = some conn → conn.owner = i →
    (g'.fds d = some (.conn c) ↔ g.fds d = some (.conn c))

section
variable {files}
variable {conn conn' : Conn n} {g g' : Shared n} {i j : Fin n} {l l' : Stage} {c d : Nat}

theorem Worn.refl (conn : Conn n) : Worn conn conn :=
  ⟨rfl, rfl, rfl, rfl, .inl rfl, .inl rfl⟩

theorem Worn.up (worn : Worn conn conn') (up : conn'.link = .up) : conn.link = .up := by
  rcases worn.link with same | before
  · rw [← same, up]
  · exact before

theorem Worn.uncut (worn : Worn conn conn') (uncut : conn'.cut = none) : conn.cut = none := by
  rcases worn.cut with same | ⟨_, _, before, _⟩
  · rw [← same, uncut]
  · exact before

theorem Worn.lose (conn : Conn n) (link : Link) : Worn conn (conn.lose link) := by
  rw [Conn.lose]
  split
  · next up => exact ⟨rfl, rfl, rfl, rfl, .inr up, .inl rfl⟩
  · exact .refl conn

theorem Worn.cutOwn (worn : Worn conn conn') (own : conn'.cut = some conn'.owner) :
    conn.cut = some conn.owner := by
  rw [worn.owner] at own
  rcases worn.cut with same | ⟨j, other, _, cut⟩
  · rw [← same]
    exact own
  · rw [cut] at own
    exact (other (Option.some.inj own)).elim

theorem Kept.worn {log log' : List (Nat × Bytes)} {fds fds' : Nat → Option Descriptor}
    {todo : List Call} (kept : Kept files log fds c conn todo) (worn : Worn conn conn')
    (sameLog : about log' c = about log c)
    (sameFds : ∀ d, fds' d = some (.conn c) ↔ fds d = some (.conn c)) :
    Kept files log' fds' c conn' todo := by
  have script : conn'.script files = conn.script files := by
    rw [Conn.script, Conn.script, worn.request]
  refine ⟨?_, ?_, fun up uncut => ?_, fun up own => ?_, fun unread own => ?_, ?_, ?_, fun shut d => ?_⟩
  · rw [sameLog, script]
    exact kept.logged
  · rw [worn.received, script]
    exact kept.sent
  · rw [worn.received, script]
    exact kept.whole (worn.up up) (worn.uncut uncut)
  · rw [worn.received, script]
    exact kept.cutOwn (worn.up up) (worn.cutOwn own)
  · rw [worn.request] at unread
    exact kept.unread unread (worn.cutOwn own)
  · rw [worn.closed, script]
    exact kept.closes
  · rw [script]
    exact kept.closing
  · rw [worn.closed] at shut
    rw [ne_eq, sameFds]
    exact kept.gone shut d

theorem Held.worn {conns conns' : Nat → Option (Conn n)} {fds fds' : Nat → Option Descriptor}
    (held : Held conns fds c d conn l) (worn : Worn conn conn')
    (sameFds : ∀ d, fds' d = some (.conn c) ↔ fds d = some (.conn c))
    (others : ∀ c' other', fds' d = some (.conn c') → conns' c' = some other' →
      other'.owner = conn.owner → ∃ other, fds d = some (.conn c') ∧ conns c' = some other ∧
        other.owner = conn.owner) : Held conns' fds' c d conn' l := by
  refine ⟨?_, ?_, ?_, held.orderly, ?_⟩
  · rw [worn.closed, sameFds]
    exact held.here
  · rw [worn.closed]
    exact held.last
  · rw [worn.closed, worn.owner]
    intro shut c' other' target found same
    obtain ⟨other, before, known, owner⟩ := others c' other' target found same
    exact held.stale shut c' other before known owner
  · rw [worn.request]
    exact held.informed

theorem Own.spared (own : Own files g.conns g.fds g.log i l) (spared : Spared i g g') :
    Own files g'.conns g'.fds g'.log i l := by
  refine ⟨fun c d current => ?_, fun c conn' found owner idle => ?_⟩
  · obtain ⟨conn, found, owner, kept, held⟩ := own.current c d current
    obtain ⟨conn', found', worn⟩ := spared.worn c conn found owner
    have sameFds := fun d => spared.fds c conn d found owner
    refine ⟨conn', found', worn.owner.trans owner,
      kept.worn worn (spared.log c conn found owner) sameFds, held.worn worn sameFds ?_⟩
    intro c' other' target known same
    obtain ⟨other, before, worn'⟩ := spared.origin c' other' known (same.trans owner)
    have mine := worn'.owner.symm.trans same
    exact ⟨other, (spared.fds c' other d before (mine.trans owner)).mp target, before, mine⟩
  · obtain ⟨conn, before, worn⟩ := spared.origin c conn' found owner
    have mine := worn.owner.symm.trans owner
    obtain ⟨kept, somewhere⟩ := own.former c conn before mine idle
    have sameFds := fun d => spared.fds c conn d before mine
    refine ⟨kept.worn worn (spared.log c conn before mine) sameFds, ?_⟩
    rw [worn.closed]
    intro up
    obtain ⟨d, here⟩ := somewhere up
    exact ⟨d, (sameFds d).mpr here⟩

/-! The steps of the others. -/

theorem edit_self {f : Conn n → Conn n} (found : g.conns c = some conn) :
    (g.edit c f).conns c = some (f conn) := by
  simp only [Shared.edit, Function.update_self, found, Option.map_some]

theorem edit_of_ne {f : Conn n → Conn n} {c' : Nat} (other : c' ≠ c) :
    (g.edit c f).conns c' = g.conns c' := by
  simp only [Shared.edit, Function.update_of_ne other]

theorem Spared.same (conns : g'.conns = g.conns) (log : g'.log = g.log) (fds : g'.fds = g.fds) :
    Spared i g g' := by
  refine ⟨fun c conn found _ => ?_, fun c conn found _ => ?_, fun _ _ _ _ => ?_, fun _ _ _ _ _ => ?_⟩
  · rw [conns]
    exact ⟨conn, found, .refl conn⟩
  · rw [conns] at found
    exact ⟨conn, found, .refl conn⟩
  · rw [log]
  · rw [fds]

theorem Spared.edit {f : Conn n → Conn n} (owner : ∀ conn, (f conn).owner = conn.owner)
    (worn : ∀ conn, g.conns c = some conn → conn.owner = i → Worn conn (f conn)) :
    Spared i g (g.edit c f) := by
  refine ⟨fun c' conn found mine => ?_, fun c' conn' found mine => ?_, fun _ _ _ _ => rfl,
    fun _ _ _ _ _ => Iff.rfl⟩
  · by_cases here : c' = c
    · subst here
      exact ⟨f conn, edit_self found, worn conn found mine⟩
    · exact ⟨conn, (edit_of_ne here).trans found, .refl conn⟩
  · by_cases here : c' = c
    · subst here
      cases before : g.conns c' with
      | none => simp [Shared.edit, before] at found
      | some conn =>
          rw [edit_self before] at found
          obtain rfl := Option.some.inj found
          exact ⟨conn, rfl, worn conn before ((owner conn).symm.trans mine)⟩
    · rw [edit_of_ne here] at found
      exact ⟨conn', found, .refl conn'⟩

theorem Worn.shut (other : j ≠ conn.owner) : Worn conn (conn.shut j) := by
  refine ⟨rfl, rfl, rfl, rfl, .inl rfl, ?_⟩
  cases cut : conn.cut with
  | none => exact .inr ⟨j, other, rfl, by simp [Conn.shut, cut]⟩
  | some k => exact .inl (by simp [Conn.shut, cut])

theorem Conn.take_owner (conn : Conn n) (bytes : Bytes) : (conn.take bytes).owner = conn.owner := by
  rw [Conn.take]
  split <;> rfl

theorem Held.closed_eq {conns : Nat → Option (Conn n)} {fds : Nat → Option Descriptor} {call : Call}
    {rest : List Call} (held : Held conns fds c d conn l) (todo : l.todo = call :: rest)
    (call' : call ≠ .shutdown) : conn.closed = false := by
  cases closed : conn.closed with
  | false => rfl
  | true =>
      rcases held.last closed with none | only
      · rw [todo] at none
        cases none
      · rw [todo] at only
        exact (call' (List.cons.inj only).1).elim

theorem send_sigpipe {bytes : Bytes} (signal : g.sigpipe d = true) :
    g.send d bytes = { g with crashed := true } := if_pos signal

theorem perform_send {bytes : Bytes} (here : g.fds d = some (.conn c)) (quiet : g.sigpipe d = false) :
    g.send d bytes = g.edit c (·.take bytes) := by
  rw [Shared.send, here, quiet]
  rfl

theorem send_cases (g : Shared n) (d : Nat) (bytes : Bytes) :
    g.send d bytes = { g with crashed := true } ∨ (∃ c, g.send d bytes = g.edit c (·.take bytes)) ∨
      g.send d bytes = g := by
  cases signal : g.sigpipe d with
  | true => exact .inl (send_sigpipe signal)
  | false =>
      refine .inr ?_
      rw [Shared.send, signal, if_neg Bool.false_ne_true]
      split
      · exact .inl ⟨_, rfl⟩
      · exact .inr rfl
      · exact .inr rfl
      · exact .inr rfl

theorem perform_close (here : g.fds d = some (.conn c)) :
    g.close d = (g.edit c fun conn => { conn with closed := true }).release d := by
  rw [Shared.close, here]

theorem perform_shutdown (here : g.fds d = some (.conn c)) :
    g.shutdown i d = g.edit c (·.shut i) := by
  rw [Shared.shutdown, here]

theorem Spared.close (here : g.fds d = some (.conn c)) (found : g.conns c = some conn)
    (other : conn.owner ≠ i) : Spared i g (g.close d) := by
  have edited : Spared i g (g.edit c fun conn => { conn with closed := true }) := by
    refine .edit (fun _ => rfl) fun conn' found' mine => ?_
    rw [found] at found'
    rw [← Option.some.inj found'] at mine
    exact (other mine).elim
  rw [perform_close here]
  refine ⟨edited.worn, edited.origin, edited.log, fun c' conn' d' found' mine => ?_⟩
  have apart : c' ≠ c := by
    rintro rfl
    rw [found] at found'
    rw [← Option.some.inj found'] at mine
    exact other mine
  by_cases same : d' = d
  · subst same
    simp only [Shared.release, Function.update_self, here, Option.some.injEq, Descriptor.conn.injEq,
      reduceCtorEq, false_iff]
    exact Ne.symm apart
  · simp only [Shared.release, Function.update_of_ne same]
    rfl

theorem Spared.shutdown (other : ∀ c conn, g.fds d = some (.conn c) → g.conns c = some conn →
    conn.owner = i → j ≠ i) : Spared i g (g.shutdown j d) := by
  rw [Shared.shutdown]
  split
  · next c here =>
    refine .edit (fun _ => rfl) fun conn found mine => .shut ?_
    rw [mine]
    exact other c conn here found mine
  · exact .same rfl rfl rfl
  · exact .same rfl rfl rfl
  · exact .same rfl rfl rfl

theorem about_concat (log : List (Nat × Bytes)) (c c' : Nat) (line : Bytes) :
    about (log ++ [(c', line)]) c = about log c ++ if c' = c then [line] else [] := by
  rw [about, List.filter_append, List.map_append, about]
  congr 1
  by_cases same : c' = c <;> simp [same]

theorem Spared.perform {request_id : Int32} {call : Call} {rest : List Call}
    (own : Own files g.conns g.fds g.log j (.calls d c request_id (call :: rest))) (apart : i ≠ j) :
    Spared i g (g.perform j d c call) := by
  obtain ⟨conn, found, owner, kept, held⟩ := own.current c d rfl
  have sending (bytes : Bytes) (call' : call ≠ .shutdown) : Spared i g (g.send d bytes) := by
    cases signal : g.sigpipe d with
    | true =>
        rw [send_sigpipe signal]
        exact .same rfl rfl rfl
    | false =>
        rw [perform_send (held.here (held.closed_eq rfl call')) signal]
        refine .edit (fun conn => conn.take_owner bytes) fun conn' found' mine => ?_
        rw [found] at found'
        rw [← Option.some.inj found', owner] at mine
        exact (apart mine.symm).elim
  cases call with
  | fputs line =>
      refine ⟨fun c conn found _ => ⟨conn, found, .refl conn⟩,
        fun c conn found _ => ⟨conn, found, .refl conn⟩, fun c' conn' found' mine => ?_,
        fun _ _ _ _ _ => Iff.rfl⟩
      have other : c ≠ c' := by
        rintro rfl
        rw [found] at found'
        rw [← Option.some.inj found', owner] at mine
        exact apart mine.symm
      rw [Shared.perform, about_concat, if_neg other, List.append_nil]
  | send bytes => exact sending bytes nofun
  | chunk bytes => exact sending bytes nofun
  | close =>
      refine .close (held.here (held.closed_eq rfl nofun)) found ?_
      rw [owner]
      exact apart.symm
  | shutdown => exact .shutdown fun _ _ _ _ _ => apart.symm
  | spin => exact .same rfl rfl rfl
  | undefined => exact .same rfl rfl rfl

theorem Spared.opened (sound : Sound g) (unused : g.fds d = none) (apart : i ≠ j) :
    Spared i g (g.opened j d) := by
  have fresh (c : Nat) (conn : Conn n) (found : g.conns c = some conn) : c ≠ g.accepted := by
    rintro rfl
    rw [(sound.fresh _).mp (Nat.le_refl _)] at found
    cases found
  refine ⟨fun c conn found _ => ?_, fun c conn' found mine => ?_, fun _ _ _ _ => rfl,
    fun c conn d' found _ => ?_⟩
  · refine ⟨conn, ?_, .refl conn⟩
    simp only [Shared.opened, Function.update_of_ne (fresh c conn found)]
    exact found
  · by_cases here : c = g.accepted
    · subst here
      simp only [Shared.opened, Function.update_self, Option.some.injEq] at found
      rw [← found] at mine
      exact (apart mine.symm).elim
    · simp only [Shared.opened, Function.update_of_ne here] at found
      exact ⟨conn', found, .refl conn'⟩
  · by_cases same : d' = d
    · subst same
      simp only [Shared.opened, Function.update_self, unused, Option.some.injEq, Descriptor.conn.injEq,
        reduceCtorEq, iff_false]
      exact (fresh c conn found).symm
    · simp only [Shared.opened, Function.update_of_ne same]

theorem Act.spared {p : Party n} (sound : Sound g) (act : Act files p g l g' l')
    (other : p ≠ .worker i) (own : ∀ j, p = .worker j → Own files g.conns g.fds g.log j l) :
    Spared i g g' := by
  have apart {j : Fin n} (same : p = .worker j) : i ≠ j := by
    rintro rfl
    exact other same
  cases act with
  | close =>
      refine ⟨fun c conn found _ => ⟨conn, found, .refl conn⟩,
        fun c conn found _ => ⟨conn, found, .refl conn⟩, fun _ _ _ _ => rfl, fun c conn d _ _ => ?_⟩
      by_cases same : d = serverd
      · subst same
        simp only [Shared.release, Function.update_self]
        exact ⟨nofun, fun here => (sound.listener c here).elim⟩
      · simp only [Shared.release, Function.update_of_ne same]
  | reset c link => exact .edit (fun conn => (Worn.lose conn link).owner) fun conn _ _ => .lose conn link
  | accept _ _ _ unused => exact .opened sound unused (apart rfl)
  | @receive _ j d c _ r =>
      obtain ⟨conn, found, owner, _⟩ := (own j rfl).current c d rfl
      refine .edit (fun _ => rfl) fun conn' found' mine => ?_
      rw [found] at found'
      rw [← Option.some.inj found', owner] at mine
      exact (apart rfl mine.symm).elim
  | call _ => exact .perform (own _ rfl) (apart rfl)
  | create | created | exit | shutdown | join | joined | fclose | refused | lock | number | increment
  | unlock | dropped | again => exact .same rfl rfl rfl

end

end CudaOpenMp.Server
