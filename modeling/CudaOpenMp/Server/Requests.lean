import CudaOpenMp.Server.Response

/-!
Which messages the server gets through, and what it answers to the others.
-/

namespace CudaOpenMp.Server

open Words

section
variable {files : Bytes → Option Entry} {r : Request} {n : Command} {read : Bool}
  {tok0 tok1 tok2 : Bytes}

theorem firstLine_length (clock : r.timestamp.length < 30) (index : r.thread_index.natAbs < 10 ^ 10) :
    r.firstLine.length < maxBuff := by
  have id := decimal_int32_length r.request_id
  have thread := decimal_length index
  have words : " ".toList.length = 1 ∧ "\n".toList.length = 1 := ⟨rfl, rfl⟩
  simp only [Request.firstLine, List.length_append, ascii_length, words.1, words.2, maxBuff]
  omega

theorem handle_of_printed (clock : r.timestamp.length < 30)
    (index : r.thread_index.natAbs < 10 ^ 10) (command : readCommand r.buff = some (n, read))
    (first : n.printed 0 = some tok0) (second : n.printed 1 = some tok1)
    (third : n.printed 2 = some tok2) :
    r.handle files = .fputs r.firstLine :: sprintf (r.secondLine tok0 tok1 tok2)
      (.fputs (r.secondLine tok0 tok1 tok2) :: r.answer files n tok0 read) := by
  rw [Request.handle, sprintf_eq (firstLine_length clock index), command]
  simp only [first, second, third]

theorem handle_of_unprinted (clock : r.timestamp.length < 30)
    (index : r.thread_index.natAbs < 10 ^ 10) (command : readCommand r.buff = some (n, read))
    {i : Nat} (early : i < 3) (unprinted : n.printed i = none) :
    r.handle files = [.fputs r.firstLine, .undefined] := by
  rw [Request.handle, sprintf_eq (firstLine_length clock index), command]
  simp only
  split
  · next first second third =>
    have cases : i = 0 ∨ i = 1 ∨ i = 2 := by omega
    rcases cases with rfl | rfl | rfl <;> simp_all
  · rfl

theorem handle_of_blank (clock : r.timestamp.length < 30) (index : r.thread_index.natAbs < 10 ^ 10)
    (command : readCommand r.buff = none) :
    r.handle files = [.fputs r.firstLine, .undefined] := by
  rw [Request.handle, sprintf_eq (firstLine_length clock index), command]

theorem answer_words (second : n.string 1 = some (some tok1)) (third : n.string 2 = some (some tok2)) :
    r.answer files n tok0 read =
      if tok1.head? = some 47 ∧ tok2 = ascii "HTTP/1.1" ∧ read = true then
        r.dispatch files tok0 tok1 ++ [.fputs (ascii "\n")]
      else r.badRequest := by
  rw [Request.answer, second]
  simp only [third]
  by_cases slash : tok1.head? = some 47
  · by_cases version : tok2 = ascii "HTTP/1.1"
    · cases read <;> simp [slash, version]
    · simp [slash, version]
  · simp [slash]

/-! The words of the text. -/

variable {text word : Bytes} {words : List Bytes}

theorem closed_of_endsWord (ends : EndsWord text) :
    closed isspace text ≠ [] := by
  rcases List.eq_nil_or_concat text with rfl | ⟨before, c, rfl⟩
  · exact (ends.2 rfl).elim
  · rw [EndsWord, List.concat_eq_append, List.dropLast_concat] at ends
    rw [List.concat_eq_append]
    cases outside : isspace c with
    | false =>
        rw [current_concat outside] at ends
        simp at ends
    | true =>
        rw [closed_concat_sep outside, if_neg ends.2]
        simp

theorem argument_word {i : Nat} (bound : i < (closed isspace text).length) :
    argument text i = some (closed isspace text)[i]? := if_pos bound

theorem argument_first : argument text 0 =
    some (some ((closed isspace text ++ [current isspace text]).headD [])) := by
  cases shape : closed isspace text with
  | nil =>
      have unended : ¬EndsWord text := fun ends => closed_of_endsWord ends shape
      simp only [argument, shape, List.length_nil, Nat.lt_irrefl, if_false, unended, not_false_eq_true,
        and_self, if_true]
      rfl
  | cons word words =>
      rw [argument_word (by simp [shape]), shape]
      rfl

theorem argument_last {i : Nat} (here : i = (closed isspace text).length) (later : i ≠ 0) :
    argument text i = if EndsWord text then none else some none := by
  rw [argument, if_neg (by omega)]
  by_cases ends : EndsWord text
  · rw [if_neg (fun both => both.2 ends), if_pos ends]
  · rw [if_pos ⟨here, ends⟩, if_neg ends, if_neg later]

theorem argument_beyond {i : Nat} (behind : (closed isspace text).length < i) :
    argument text i = none := by
  rw [argument, if_neg (by omega), if_neg (by omega)]

theorem exists_last (shape : closed isspace text = word :: words) :
    ∃ last, text.getLast? = some last := by
  cases text with
  | nil => cases shape
  | cons c rest => exact ⟨_, List.getLast?_eq_some_getLast (List.cons_ne_nil c rest)⟩

/-! Messages with three words that are ended by spaces, and the others. -/

theorem handle_words (short : r.buff.length < 1000) (clock : r.timestamp.length < 30)
    (index : r.thread_index.natAbs < 10 ^ 10)
    (shape : closed isspace (cText r.buff) = tok0 :: tok1 :: tok2 :: words) :
    r.handle files = .fputs r.firstLine :: sprintf (r.secondLine tok0 tok1 tok2)
      (.fputs (r.secondLine tok0 tok1 tok2) ::
        if tok1.head? = some 47 ∧ tok2 = ascii "HTTP/1.1" ∧ (cText r.buff).getLast? = some 10 then
          r.dispatch files tok0 tok1 ++ [.fputs (ascii "\n")]
        else r.badRequest) := by
  obtain ⟨last, ends⟩ := exists_last shape
  obtain ⟨n, command, _, _, strings⟩ := readCommand_eq short ends
  have word (i : Nat) (token : Bytes) (place : (tok0 :: tok1 :: tok2 :: words)[i]? = some token) :
      n.string i = some (some token) := by
    have bound : i < (closed isspace (cText r.buff)).length := by
      rw [shape]
      exact (List.getElem?_eq_some_iff.mp place).1
    rw [strings, argument_word bound, shape, place]
  have first := word 0 tok0 rfl
  have second := word 1 tok1 rfl
  have third := word 2 tok2 rfl
  rw [handle_of_printed clock index command (by rw [Command.printed, first]; rfl)
    (by rw [Command.printed, second]; rfl) (by rw [Command.printed, third]; rfl),
    answer_words second third]
  simp only [ends, Option.some.injEq, decide_eq_true_eq]

/-- With two words, the server answers only when the message ends there and the second one has no
slash in front. -/
theorem handle_two (short : r.buff.length < 1000) (clock : r.timestamp.length < 30)
    (index : r.thread_index.natAbs < 10 ^ 10) (shape : closed isspace (cText r.buff) = [tok0, tok1])
    (ends : EndsWord (cText r.buff)) :
    r.handle files = .fputs r.firstLine :: sprintf (r.secondLine tok0 tok1 (ascii "(null)"))
      (.fputs (r.secondLine tok0 tok1 (ascii "(null)")) ::
        if tok1.head? = some 47 then [.undefined] else r.badRequest) := by
  obtain ⟨last, final⟩ := exists_last shape
  obtain ⟨n, command, _, _, strings⟩ := readCommand_eq short final
  have length : (closed isspace (cText r.buff)).length = 2 := by rw [shape]; rfl
  have first : n.string 0 = some (some tok0) := by
    rw [strings, argument_word (by omega), shape]
    rfl
  have second : n.string 1 = some (some tok1) := by
    rw [strings, argument_word (by omega), shape]
    rfl
  have third : n.string 2 = none := by
    rw [strings, argument_last length.symm (by decide), if_pos ends]
  rw [handle_of_printed clock index command (by rw [Command.printed, first]; rfl)
    (by rw [Command.printed, second]; rfl) (by rw [Command.printed, third]; rfl), Request.answer,
    second]
  simp only [third]
  by_cases slash : tok1.head? = some 47 <;> simp [slash]

theorem undefined_notMem_sprintf {text : Bytes} {next : List Call} :
    .undefined ∉ sprintf text next ↔ text.length < 1000 ∧ .undefined ∉ next := by
  rw [Server.sprintf]
  by_cases fits : text.length < maxBuff
  · rw [if_pos fits]
    exact ⟨fun clean => ⟨fits, clean⟩, fun both => both.2⟩
  · rw [if_neg fits]
    exact ⟨fun clean => (clean (by simp)).elim, fun both => (fits both.1).elim⟩

theorem undefined_notMem_badRequest (clock : r.timestamp.length < 30) :
    .undefined ∉ r.badRequest := by
  rw [badRequest_eq clock]
  simp [opening]

/-- Without three words ended by spaces, and not in the case before, memory is read that has no
string. -/
theorem undefined_mem_handle (short : r.buff.length < 1000) (clock : r.timestamp.length < 30)
    (index : r.thread_index.natAbs < 10 ^ 10) (few : (closed isspace (cText r.buff)).length < 3)
    (other : ¬((closed isspace (cText r.buff)).length = 2 ∧ EndsWord (cText r.buff))) :
    .undefined ∈ r.handle files := by
  cases text : (cText r.buff).getLast? with
  | none =>
      rw [handle_of_blank clock index (readCommand_nil short (List.getLast?_eq_none_iff.mp text))]
      simp
  | some last =>
      obtain ⟨n, command, _, _, strings⟩ := readCommand_eq short text
      have unread (i : Nat) (early : i < 3) (here : i = (closed isspace (cText r.buff)).length)
          (later : i ≠ 0) (unended : ¬EndsWord (cText r.buff)) : .undefined ∈ r.handle files := by
        have unprinted : n.printed i = none := by
          rw [Command.printed, strings, argument_last here later, if_neg unended]
          rfl
        rw [handle_of_unprinted clock index command early unprinted]
        simp
      by_cases two : (closed isspace (cText r.buff)).length = 2
      · exact unread 2 (by decide) two.symm (by decide) fun ends => other ⟨two, ends⟩
      · -- the first word is there, or the text has none: the second pointer is null
        by_cases dangling : (closed isspace (cText r.buff)).length = 1 ∧ ¬EndsWord (cText r.buff)
        · exact unread 1 (by decide) dangling.1.symm (by decide) dangling.2
        · have second : n.string 1 = none := by
            rw [strings]
            by_cases one : (closed isspace (cText r.buff)).length = 1
            · rw [argument_last one.symm (by decide),
                if_pos (not_not.mp fun unended => dangling ⟨one, unended⟩)]
            · exact argument_beyond (by omega)
          have third : n.string 2 = none := by
            rw [strings]
            exact argument_beyond (by omega)
          rw [handle_of_printed clock index command
            (by rw [Command.printed, strings, argument_first]; rfl)
            (by rw [Command.printed, second]; rfl) (by rw [Command.printed, third]; rfl),
            Request.answer, second, Server.sprintf]
          split <;> simp

/-- The messages that the server survives. -/
theorem handle_defined_iff (files : Bytes → Option Entry) (r : Request)
    (short : r.buff.length < 1000) (clock : r.timestamp.length < 30)
    (index : r.thread_index.natAbs < 10 ^ 10) :
    .undefined ∉ r.handle files ↔
      (∃ tok0 tok1 tok2 words, closed isspace (cText r.buff) = tok0 :: tok1 :: tok2 :: words ∧
        (r.secondLine tok0 tok1 tok2).length < 1000) ∨
      ∃ tok0 tok1, closed isspace (cText r.buff) = [tok0, tok1] ∧ EndsWord (cText r.buff) ∧
        tok1.head? ≠ some 47 ∧ (r.secondLine tok0 tok1 (ascii "(null)")).length < 1000 := by
  constructor
  · intro clean
    by_cases few : (closed isspace (cText r.buff)).length < 3
    · have two : (closed isspace (cText r.buff)).length = 2 ∧ EndsWord (cText r.buff) :=
        not_not.mp fun other => clean (undefined_mem_handle short clock index few other)
      obtain ⟨tok0, tok1, shape⟩ := List.length_eq_two.mp two.1
      rw [handle_two short clock index shape two.2, List.mem_cons, not_or,
        undefined_notMem_sprintf, List.mem_cons, not_or] at clean
      refine .inr ⟨tok0, tok1, shape, two.2, fun slash => ?_, clean.2.1⟩
      rw [if_pos slash] at clean
      exact clean.2.2.2 (by simp)
    · obtain ⟨tok0, tok1, tok2, words, shape⟩ : ∃ tok0 tok1 tok2 words,
          closed isspace (cText r.buff) = tok0 :: tok1 :: tok2 :: words := by
        rcases list : closed isspace (cText r.buff) with _ | ⟨tok0, _ | ⟨tok1, _ | ⟨tok2, words⟩⟩⟩
        · simp [list] at few
        · simp [list] at few
        · simp [list] at few
        · exact ⟨tok0, tok1, tok2, words, rfl⟩
      rw [handle_words short clock index shape, List.mem_cons, not_or,
        undefined_notMem_sprintf] at clean
      exact .inl ⟨tok0, tok1, tok2, words, shape, clean.2.1⟩
  · rintro (⟨tok0, tok1, tok2, words, shape, fits⟩ | ⟨tok0, tok1, shape, ends, slash, fits⟩)
    · rw [handle_words short clock index shape, List.mem_cons, not_or, undefined_notMem_sprintf,
        List.mem_cons, not_or]
      refine ⟨nofun, fits, nofun, ?_⟩
      split
      · rw [List.mem_append, not_or]
        exact ⟨(dispatch_served clock).undefined_notMem, by simp⟩
      · exact undefined_notMem_badRequest clock
    · rw [handle_two short clock index shape ends, if_neg slash, List.mem_cons, not_or,
        undefined_notMem_sprintf, List.mem_cons, not_or]
      exact ⟨nofun, fits, nofun, undefined_notMem_badRequest clock⟩

theorem handle_defined_get :
    .undefined ∉ Request.handle (fun _ => none) ⟨0, 0, ascii "GET / HTTP/1.1\n", []⟩ := by
  rw [handle_defined_iff (fun _ => none) ⟨0, 0, ascii "GET / HTTP/1.1\n", []⟩ (by decide) (by decide)
    (by decide)]
  exact .inl ⟨ascii "GET", [47], ascii "HTTP/1.1", [], by decide, by decide⟩

end

end CudaOpenMp.Server
