import CudaOpenMp.Server.Shutdown

/-!
Whether the server can still come to its end. What is in the way of it stays there.
-/

namespace CudaOpenMp.Server

open Interleaving

def Sends (todo : List Call) : Prop := ∃ call ∈ todo, call.isSend = true

/-- What is left behind the next `send` when it fails. -/
def afterSend : List Call → List Call
  | [] => []
  | .send _ :: rest => rest
  | .chunk _ :: rest => rest.dropWhile Call.isChunk
  | .fputs _ :: rest | .close :: rest | .shutdown :: rest | .spin :: rest | .undefined :: rest =>
    afterSend rest

variable {n : Nat}

/-- A `send` that is still to be made raises `SIGPIPE`, unless the rest of the file is left out. -/
def Conn.Fatal (conn : Conn n) (todo : List Call) : Prop :=
  conn.pipe = true ∧ Sends todo ∨ conn.link = .reset ∧ Sends (afterSend todo)

/-- A worker is in a loop that does not end, or on the way into undefined behaviour or a signal. -/
def Shared.Dooms (g : Shared n) (l : Stage) : Prop :=
  .spin ∈ l.todo ∨ .undefined ∈ l.todo ∨
    ∃ c d conn, l.current = some (c, d) ∧ g.conns c = some conn ∧ conn.Fatal l.todo

section
variable {files : Bytes → Option Entry} {g g' : Shared n} {conn conn' : Conn n} {i : Fin n}
  {c d : Nat} {call : Call} {todo rest : List Call}

theorem sends_cons : Sends (call :: rest) ↔ call.isSend = true ∨ Sends rest := by
  simp only [Sends, List.mem_cons, exists_eq_or_imp]

theorem Sends.cons (sends : Sends rest) : Sends (call :: rest) := sends_cons.mpr (.inr sends)

theorem Sends.of_afterSend (sends : Sends (afterSend todo)) : Sends todo := by
  induction todo with
  | nil => exact sends
  | cons call rest ih =>
      cases call with
      | send bytes => exact sends.cons
      | chunk bytes =>
          obtain ⟨other, member, sending⟩ := sends
          have kept : other ∈ rest := (List.dropWhile_sublist _).mem member
          exact .cons ⟨other, kept, sending⟩
      | fputs _ | close | shutdown | spin | undefined => exact (ih sends).cons

theorem Conn.Fatal.sends (fatal : conn.Fatal todo) : Sends todo := by
  rcases fatal with ⟨_, sends⟩ | ⟨_, later⟩
  · exact sends
  · exact later.of_afterSend

theorem Conn.Fatal.worn (fatal : conn.Fatal todo) (worn : Worn conn conn') : conn'.Fatal todo := by
  have dead (pipe : conn.pipe = true) : conn'.pipe = true := by
    have other : ¬(conn'.cut = none ∧ conn'.link ≠ .broken) := by
      rintro ⟨uncut, unbroken⟩
      have alive : conn.pipe = false := Conn.pipe_eq_false.mpr ⟨worn.uncut uncut, fun broken => ?_⟩
      · rw [pipe] at alive
        cases alive
      · rcases worn.link with same | up
        · exact unbroken (same.trans broken)
        · rw [up] at broken
          cases broken
    rw [← Conn.pipe_eq_false] at other
    simpa using other
  rcases fatal with ⟨pipe, sends⟩ | ⟨reset, later⟩
  · exact .inl ⟨dead pipe, sends⟩
  · rcases worn.link with same | up
    · exact .inr ⟨same.trans reset, later⟩
    · rw [up] at reset
      cases reset

theorem Orderly.silent (orderly : Orderly (call :: rest)) (last : call = .close ∨ call = .shutdown) :
    ¬Sends (call :: rest) := by
  intro sends
  rcases last with rfl | rfl
  · have only : rest = [.shutdown] := orderly
    rw [only] at sends
    simp [Sends, Call.isSend] at sends
  · obtain ⟨other, member, sending⟩ := (sends_cons.mp sends).resolve_left Bool.false_ne_true
    rw [orderly.1 other member] at sending
    cases sending

theorem Shared.Dooms.spared {l : Stage} (dooms : g.Dooms l) (own : Own files g.conns g.fds g.log i l)
    (spared : Spared i g g') : g'.Dooms l := by
  rcases dooms with spin | undefined | ⟨c, d, conn, current, found, fatal⟩
  · exact .inl spin
  · exact .inr (.inl undefined)
  · obtain ⟨conn₀, found₀, owner, _⟩ := own.current c d current
    rw [found] at found₀
    obtain rfl := Option.some.inj found₀
    obtain ⟨conn', found', worn⟩ := spared.worn c conn found owner
    exact .inr (.inr ⟨c, d, conn', current, found', fatal.worn worn⟩)

def Stage.harmless (l : Stage) : Prop := .spin ∉ l.todo ∧ .undefined ∉ l.todo ∧ ¬Sends l.todo

/-- As long as there is something to send, only the own connection changes. -/
theorem perform_elsewhere {request_id : Int32} {c' : Nat}
    (own : Own files g.conns g.fds g.log i (.calls d c request_id (call :: rest)))
    (sends : Sends (call :: rest)) (other : c' ≠ c) :
    (g.perform i d c call).conns c' = g.conns c' := by
  obtain ⟨conn, found, _, _, held⟩ := own.current c d rfl
  have sending (bytes : Bytes) (call' : call ≠ .shutdown) :
      (g.send d bytes).conns c' = g.conns c' := by
    cases signal : g.sigpipe d with
    | true => rw [send_sigpipe signal]
    | false =>
        rw [perform_send (held.here (held.closed_eq rfl call')) signal]
        exact edit_of_ne other
  cases call with
  | fputs line | spin | undefined => rfl
  | send bytes | chunk bytes => exact sending bytes nofun
  | close => exact (held.orderly.silent (.inl rfl) sends).elim
  | shutdown => exact (held.orderly.silent (.inr rfl) sends).elim

theorem Shared.Dooms.elsewhere {request_id : Int32} {j : Fin n} {l : Stage}
    (own : Own files g.conns g.fds g.log i (.calls d c request_id (call :: rest)))
    (sends : Sends (call :: rest)) (theirs : Own files g.conns g.fds g.log j l) (apart : i ≠ j)
    (dooms : (g.perform i d c call).Dooms l) : g.Dooms l := by
  rcases dooms with spin | undefined | ⟨c', d', conn', current, found', fatal⟩
  · exact .inl spin
  · exact .inr (.inl undefined)
  · refine .inr (.inr ⟨c', d', conn', current, ?_, fatal⟩)
    rw [← found']
    refine (perform_elsewhere own sends ?_).symm
    rintro rfl
    obtain ⟨conn, found, owner, _⟩ := own.current c' d rfl
    obtain ⟨conn₀, found₀, owner₀, _⟩ := theirs.current c' d' current
    rw [found] at found₀
    rw [← Option.some.inj found₀, owner] at owner₀
    exact apart owner₀

end

section
variable {files : Bytes → Option Entry} {s t : State (Party n) (Shared n) Stage}

/-- What is left to do at most when the clients send nothing more. -/
def Stage.rank (n : Nat) : Stage → Nat
  | .create k => (n - k) + n + 8
  | .stdin => n + 7
  | .shutdown => n + 6
  | .close => n + 5
  | .join j => (n - j) + 3
  | .fclose => 1
  | .lock _ _ => 6
  | .number _ _ => 5
  | .increment _ _ _ => 4
  | .unlock _ _ _ => 3
  | .calls _ _ _ todo => todo.length + 3
  | .receive _ _ _ => 2
  | .accept => 1
  | .finished | .exited | .idle => 0

def Harmless (s : State (Party n) (Shared n) Stage) : Prop :=
  s.shared.crashed = false ∧ ∀ i, (s.locals (.worker i)).harmless

end

end CudaOpenMp.Server
