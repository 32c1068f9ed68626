import CudaOpenMp.Library.Words
import CudaOpenMp.Server.ReadCommandCore

/-!
What `read_command` makes of a message that `recv` has put into the buffer: the words of the text,
each in memory of its own.
-/

namespace CudaOpenMp.Server

open Words

/-- The text ends with the space that has ended its last word. -/
abbrev EndsWord (text : Bytes) : Prop := current isspace text = [] ∧ current isspace text.dropLast ≠ []

/-- What `tok[i]` points to: a word; in front of the first word of a text without a complete one, what
there is of it; memory without an end; or nothing. -/
def argument (text : Bytes) (i : Nat) : Option (Option Bytes) :=
  if i < (closed isspace text).length then some (closed isspace text)[i]?
  else if i = (closed isspace text).length ∧ ¬EndsWord text then
    some (if i = 0 then some (current isspace text) else none)
  else none

theorem Block.read_append {block : Block} {word : Bytes} {ti room : Nat}
    (cells : ∀ i < word.length, block (ti + i) = word[i]?) (zeros : 0 ∉ word)
    (fits : word.length ≤ room) :
    block.read room ti =
      (block.read (room - word.length) (ti + word.length)).map (word ++ ·) := by
  induction word generalizing ti room with
  | nil => simp
  | cons c word ih =>
      obtain ⟨room, rfl⟩ : ∃ fewer, room = fewer + 1 := ⟨room - 1, by simp at fits; omega⟩
      have first : block ti = some c := by simpa using cells 0 (by simp)
      have nonzero : c ≠ 0 := by
        rintro rfl
        exact zeros (by simp)
      have behind : ∀ i < word.length, block (ti + 1 + i) = word[i]? := by
        intro i bound
        have cell := cells (i + 1) (by simpa using bound)
        rwa [Nat.add_comm i 1, ← Nat.add_assoc, Nat.add_comm 1 i, List.getElem?_cons_succ] at cell
      have rest := ih behind (fun member => zeros (by simp [member])) (Nat.le_of_succ_le_succ fits)
      rw [Block.read, first]
      simp only [nonzero, if_false, rest, Option.map_map, List.length_cons, Nat.add_sub_add_right]
      rw [Nat.add_assoc, Nat.add_comm 1 word.length]
      rfl

section
variable {block : Block} {word : Bytes}

theorem Block.text_closed (cells : ∀ i < word.length, block i = word[i]?) (zeros : 0 ∉ word)
    (fits : word.length ≤ maxTokSize) (ended : block word.length = some 0) :
    block.text = some word := by
  obtain ⟨room, roomy⟩ : ∃ room, maxTokSize + 1 - word.length = room + 1 :=
    ⟨maxTokSize - word.length, by omega⟩
  rw [Block.text, Block.read_append (by simpa using cells) zeros (by omega), roomy, Block.read]
  simp [ended]

theorem Block.text_open (cells : ∀ i < word.length, block i = word[i]?) (zeros : 0 ∉ word)
    (fits : word.length ≤ maxTokSize) (unwritten : block word.length = none) :
    block.text = none := by
  obtain ⟨room, roomy⟩ : ∃ room, maxTokSize + 1 - word.length = room + 1 :=
    ⟨maxTokSize - word.length, by omega⟩
  rw [Block.text, Block.read_append (by simpa using cells) zeros (by omega), roomy, Block.read]
  simp [unwritten]

end

/-! The loop. -/

/-- The block of the current token has what was read of it. -/
def Reader.Open (s : Reader) (text : Bytes) : Prop :=
  ∃ block, s.tok s.t = some block ∧
    (∀ i < (current isspace text).length, block i = (current isspace text)[i]?) ∧
    ∀ i ≥ (current isspace text).length, block i = if s.t = 0 then some 0 else none

structure Reader.Scanned (s : Reader) (text : Bytes) : Prop where
  t : s.t = (closed isspace text).length
  ti : s.ti = (current isspace text).length
  count : s.count = s.t
  earlier : ∀ i < s.t, (s.tok i).map Block.text = some (closed isspace text)[i]?
  later : ∀ i > s.t, s.tok i = none

structure Reader.Final (s : Reader) (text : Bytes) : Prop where
  ended : EndsWord text → s.tok s.t = none
  unended : ¬EndsWord text → s.Open text

section
variable {s : Reader} {text rest : Bytes} {c : UInt8}

theorem Reader.store_eq {block : Block} (small : s.t < maxToks + 1) (room : s.ti < maxTokSize + 1)
    (here : s.tok s.t = some block) : s.store c = some
      { s with tok := Function.update s.tok s.t (some (Function.update block s.ti (some c))) } := by
  simp [Reader.store, small, room, here]

theorem Reader.Scanned.character (scanned : s.Scanned text) (opened : s.Open text)
    (small : text.length < maxToks) (inside : isspace c = false) :
    ∃ s', s.store c = some s' ∧ Reader.Scanned { s' with ti := s'.ti + 1 } (text ++ [c]) ∧
      Reader.Open { s' with ti := s'.ti + 1 } (text ++ [c]) := by
  obtain ⟨block, here, cells, behind⟩ := opened
  have bound : (closed isspace text).length + (current isspace text).length ≤ text.length :=
    length_le text
  have ti := scanned.ti
  have t := scanned.t
  simp only [maxToks] at small
  refine ⟨_, store_eq (by simp only [maxToks]; omega) (by simp only [maxTokSize]; omega) here,
    ⟨?_, ?_, scanned.count, ?_, ?_⟩, Function.update block s.ti (some c), ?_, ?_, ?_⟩
  · rw [closed_concat inside]
    exact t
  · rw [current_concat inside, List.length_append, ti]
    rfl
  · intro i before
    rw [closed_concat inside]
    simp only [Function.update_of_ne (Nat.ne_of_lt before)]
    exact scanned.earlier i before
  · intro i after
    simp only [Function.update_of_ne (Nat.ne_of_gt after)]
    exact scanned.later i after
  · simp
  · intro i inWord
    rw [current_concat inside] at inWord ⊢
    rw [List.length_append, List.length_singleton] at inWord
    by_cases last : i = s.ti
    · rw [last, Function.update_self, ti, List.getElem?_concat_length]
    · rw [Function.update_of_ne last, List.getElem?_append_left (by omega)]
      exact cells i (by omega)
  · intro i after
    rw [current_concat inside, List.length_append, List.length_singleton] at after
    rw [Function.update_of_ne (by omega)]
    exact behind i (by omega)

theorem Reader.Scanned.space (scanned : s.Scanned text) (outside : isspace c = true)
    (blank : current isspace text = []) : s.Scanned (text ++ [c]) := by
  have same : closed isspace (text ++ [c]) = closed isspace text := by
    rw [closed_concat_sep outside, if_pos blank, List.append_nil]
  refine ⟨?_, ?_, scanned.count, ?_, scanned.later⟩
  · rw [same]
    exact scanned.t
  · rw [current_concat_sep outside, scanned.ti, blank]
  · rw [same]
    exact scanned.earlier

theorem Reader.Open.space (opened : s.Open text) (outside : isspace c = true)
    (blank : current isspace text = []) : s.Open (text ++ [c]) := by
  obtain ⟨block, here, cells, behind⟩ := opened
  rw [blank] at cells behind
  refine ⟨block, here, ?_⟩
  rw [current_concat_sep outside]
  exact ⟨cells, behind⟩

theorem Reader.Scanned.terminator (scanned : s.Scanned text) (opened : s.Open text)
    (zeros : 0 ∉ text) (small : text.length < maxToks) (outside : isspace c = true)
    (filled : current isspace text ≠ []) :
    ∃ s', s.store 0 = some s' ∧ s'.t = s.t ∧ s'.next.tok s'.next.t = none ∧
      s'.next.Scanned (text ++ [c]) := by
  obtain ⟨block, here, cells, behind⟩ := opened
  have bound : (closed isspace text).length + (current isspace text).length ≤ text.length :=
    length_le text
  have ti := scanned.ti
  have t := scanned.t
  have noZero : 0 ∉ current isspace text := fun member => zeros ((current_suffix text).subset member)
  have grown : closed isspace (text ++ [c]) = closed isspace text ++ [current isspace text] := by
    rw [closed_concat_sep outside, if_neg filled]
  simp only [maxToks] at small
  refine ⟨_, store_eq (by simp only [maxToks]; omega) (by simp only [maxTokSize]; omega) here, rfl,
    ?_, ?_, ?_, ?_, ?_, ?_⟩
  · simp only [Reader.next, Function.update_of_ne (Nat.succ_ne_self s.t)]
    exact scanned.later _ (Nat.lt_succ_self _)
  · simp only [Reader.next, grown, List.length_append, List.length_singleton, t]
  · rw [current_concat_sep outside]
    rfl
  · simp only [Reader.next, scanned.count]
  · intro i before
    rw [grown]
    simp only [Reader.next] at before ⊢
    by_cases last : i = s.t
    · have word : Block.text (Function.update block s.ti (some 0)) =
          some (current isspace text) := by
        apply Block.text_closed _ noZero (by simp only [maxTokSize]; omega)
        · rw [← ti, Function.update_self]
        · intro i inWord
          rw [Function.update_of_ne (by omega)]
          exact cells i inWord
      rw [last, Function.update_self, Option.map_some, word, t, List.getElem?_concat_length]
    · rw [Function.update_of_ne last, List.getElem?_append_left (by omega)]
      exact scanned.earlier i (by omega)
  · intro i after
    simp only [Reader.next] at after ⊢
    rw [Function.update_of_ne (by omega)]
    exact scanned.later i (by omega)

theorem Reader.Scanned.alloc (scanned : s.next.Scanned text) : s.alloc.next.Scanned text := by
  refine ⟨scanned.t, scanned.ti, scanned.count, ?_, ?_⟩
  · intro i before
    have other : i ≠ s.t + 1 := Nat.ne_of_lt before
    simp only [Reader.next, Reader.alloc, Function.update_of_ne other]
    exact scanned.earlier i before
  · intro i after
    have other : i ≠ s.t + 1 := Nat.ne_of_gt after
    simp only [Reader.next, Reader.alloc, Function.update_of_ne other]
    exact scanned.later i after

theorem Reader.Open.alloc (blank : current isspace text = []) : s.alloc.next.Open text := by
  refine ⟨malloc, Function.update_self .., ?_, ?_⟩
  · rw [blank]
    nofun
  · intro i _
    rfl

theorem Reader.start_scanned : Reader.start.Scanned [] :=
  ⟨rfl, rfl, rfl, nofun, fun _ after => if_neg (Nat.ne_of_gt after)⟩

theorem Reader.start_open : Reader.start.Open [] := ⟨calloc, rfl, nofun, fun _ _ => rfl⟩

theorem Reader.loop_scanned (scanned : s.Scanned text) (final : rest = [] → s.Final text)
    (opened : rest ≠ [] → s.Open text) (zeros : 0 ∉ text ++ rest)
    (short : (text ++ rest).length < maxToks) :
    ∃ s', s.loop rest = some (s', none) ∧ s'.Scanned (text ++ rest) ∧ s'.Final (text ++ rest) := by
  induction rest generalizing s text with
  | nil =>
      rw [List.append_nil]
      exact ⟨s, rfl, scanned, final rfl⟩
  | cons c rest ih =>
      have opened := opened (by simp)
      have nonzero : c ≠ 0 := by
        rintro rfl
        exact zeros (by simp)
      have before : 0 ∉ text := fun member => zeros (by simp [member])
      rw [← List.singleton_append, ← List.append_assoc] at zeros short ⊢
      have small : text.length < maxToks := by
        rw [List.length_append, List.length_append] at short
        omega
      rw [List.singleton_append, Reader.loop, if_neg nonzero]
      cases outside : isspace c with
      | false =>
          obtain ⟨s', stored, scanned', opened'⟩ := scanned.character opened small outside
          have growing : current isspace (text ++ [c]) ≠ [] := by
            rw [current_concat outside]
            simp
          rw [if_pos rfl, stored]
          exact ih scanned' (fun _ => ⟨fun ends => (growing ends.1).elim, fun _ => opened'⟩)
            (fun _ => opened') zeros short
      | true =>
          rw [if_neg (by simp)]
          by_cases blank : current isspace text = []
          · have none : s.ti = 0 := by rw [scanned.ti, blank, List.length_nil]
            have opened' := opened.space outside blank
            rw [if_pos none]
            refine ih (scanned.space outside blank) (fun _ => ⟨fun ends => ?_, fun _ => opened'⟩)
              (fun _ => opened') zeros short
            rw [EndsWord, List.dropLast_concat] at ends
            exact (ends.2 blank).elim
          · have some : s.ti ≠ 0 := by rwa [scanned.ti, ne_eq, List.length_eq_zero_iff]
            have bound : (closed isspace text).length + (current isspace text).length ≤ text.length :=
              length_le text
            have ti := scanned.ti
            have t := scanned.t
            have blank' : current isspace (text ++ [c]) = [] := current_concat_sep outside text
            obtain ⟨s', stored, place, fresh, scanned'⟩ :=
              scanned.terminator opened before small outside blank
            have room : s.ti < maxTokSize := by
              simp only [maxToks, maxTokSize] at small ⊢
              omega
            have toks : s'.t + 1 < maxToks := by
              rw [place]
              rw [List.length_append, List.length_append, List.length_singleton] at short
              omega
            rw [if_neg some, if_pos room, stored]
            simp only [Option.bind_eq_bind, Option.bind_some]
            cases rest with
            | nil =>
                rw [if_neg (by simp), if_neg (by simp)]
                refine ih scanned' (fun _ => ⟨fun _ => fresh, fun more => ?_⟩)
                  (fun more => (more rfl).elim) zeros short
                rw [EndsWord, List.dropLast_concat] at more
                exact (more ⟨blank', blank⟩).elim
            | cons d rest =>
                have another : d ≠ 0 := by
                  rintro rfl
                  exact zeros (by simp)
                rw [if_pos ⟨toks, another⟩]
                exact ih scanned'.alloc nofun (fun _ => .alloc blank') zeros short

end

/-! The message. -/

theorem zero_notMem_cText (buff : Bytes) : 0 ∉ cText buff := by
  intro member
  simpa using List.mem_takeWhile_imp member

theorem cText_length_le (buff : Bytes) : (cText buff).length ≤ buff.length :=
  (List.takeWhile_prefix _).length_le

theorem cText_headD (rest : Bytes) : (cText rest).headD 0 = rest.headD 0 := by
  cases rest with
  | nil => rfl
  | cons c rest =>
      by_cases zero : c = 0 <;> simp [cText, zero]

theorem Reader.loop_cText (s : Reader) (buff : Bytes) : s.loop (cText buff) = s.loop buff := by
  induction buff generalizing s with
  | nil => rfl
  | cons c rest ih =>
      by_cases zero : c = 0
      · simp [cText, zero, Reader.loop]
      · have text : cText (c :: rest) = c :: cText rest := by simp [cText, zero]
        rw [text, Reader.loop, Reader.loop]
        simp only [ih, cText_headD]

theorem Reader.string_eq {s : Reader} {text : Bytes} {status : Status} (scanned : s.Scanned text)
    (final : s.Final text) (zeros : 0 ∉ text) (short : text.length < maxToks) (i : Nat) :
    Command.string ⟨s.tok, s.count, status⟩ i = argument text i := by
  have bound : (closed isspace text).length + (current isspace text).length ≤ text.length :=
    length_le text
  have t := scanned.t
  simp only [maxToks] at short
  change (s.tok i).map Block.text = _
  rw [argument, ← t]
  rcases Nat.lt_trichotomy i s.t with earlier | here | later
  · rw [if_pos earlier]
    exact scanned.earlier i earlier
  · subst here
    rw [if_neg (Nat.lt_irrefl _)]
    by_cases ends : EndsWord text
    · rw [if_neg (fun unended => unended.2 ends), final.ended ends]
      rfl
    · obtain ⟨block, here, cells, behind⟩ := final.unended ends
      have noZero : 0 ∉ current isspace text :=
        fun member => zeros ((current_suffix text).subset member)
      have fits : (current isspace text).length ≤ maxTokSize := by
        simp only [maxTokSize]
        omega
      have end' := behind _ (Nat.le_refl _)
      rw [if_pos ⟨rfl, ends⟩, here, Option.map_some]
      by_cases first : s.t = 0
      · rw [if_pos first] at end' ⊢
        rw [Block.text_closed cells noZero fits end']
      · rw [if_neg first] at end' ⊢
        rw [Block.text_open cells noZero fits end']
  · rw [if_neg (Nat.not_lt_of_gt later), if_neg (fun same => Nat.ne_of_gt later same.1),
      scanned.later i later]
    rfl

theorem start_loop {buff : Bytes} (short : buff.length < maxToks) :
    ∃ s, Reader.start.loop buff = some (s, none) ∧ s.Scanned (cText buff) ∧ s.Final (cText buff) := by
  rw [← Reader.loop_cText]
  have fits := cText_length_le buff
  obtain ⟨s, ran, scanned, final⟩ := Reader.loop_scanned Reader.start_scanned
    (fun _ => ⟨fun ends => (ends.2 rfl).elim, fun _ => Reader.start_open⟩)
    (fun _ => Reader.start_open) (zero_notMem_cText buff) (Nat.lt_of_le_of_lt fits short)
  exact ⟨s, ran, scanned, final⟩

theorem readCommand_nil {buff : Bytes} (short : buff.length < maxToks) (blank : cText buff = []) :
    readCommand buff = none := by
  obtain ⟨s, ran, _⟩ := start_loop short
  rw [readCommand, ran, blank]
  rfl

theorem readCommand_eq {buff : Bytes} {last : UInt8} (short : buff.length < maxToks)
    (ends : (cText buff).getLast? = some last) :
    ∃ n, readCommand buff = some (n, decide (last = 10)) ∧
      n.status = (if last = 10 then Status.normal else Status.inputOverflow) ∧
      n.count = (closed isspace (cText buff)).length ∧
      ∀ i, n.string i = argument (cText buff) i := by
  obtain ⟨s, ran, scanned, final⟩ := start_loop short
  have strings (status : Status) : ∀ i, Command.string ⟨s.tok, s.count, status⟩ i =
      argument (cText buff) i :=
    Reader.string_eq scanned final (zero_notMem_cText buff)
      (Nat.lt_of_le_of_lt (cText_length_le buff) short)
  rw [readCommand, ran]
  simp only [Option.bind_eq_bind, Option.bind_some, ends]
  by_cases newline : last = 10
  · rw [if_neg (not_not.mpr newline)]
    exact ⟨⟨s.tok, s.count, .normal⟩, by simp [newline], (if_pos newline).symm,
      scanned.count.trans scanned.t, strings _⟩
  · rw [if_pos newline]
    exact ⟨⟨s.tok, s.count, .inputOverflow⟩, by simp [newline], (if_neg newline).symm,
      scanned.count.trans scanned.t, strings _⟩

/-- A message that `recv` can put into the buffer is never too long for the tokens, and there are never
too many of them. -/
theorem readCommand_splits (buff : Bytes) (short : buff.length < 1000) :
    (cText buff = [] → readCommand buff = none) ∧
    ∀ last, (cText buff).getLast? = some last →
      ∃ n, readCommand buff = some (n, decide (last = 10)) ∧
        n.status = (if last = 10 then Status.normal else Status.inputOverflow) ∧
        n.count = (closed isspace (cText buff)).length ∧
        ∀ i, n.string i = argument (cText buff) i :=
  ⟨readCommand_nil short, fun _ => readCommand_eq short⟩

theorem readCommand_splits_two : ∃ n, readCommand [71, 32, 47, 10] = some (n, true) ∧
    n.string 0 = some (some [71]) ∧ n.string 1 = some (some [47]) ∧ n.string 2 = none := by
  obtain ⟨n, read, _, _, strings⟩ := (readCommand_splits [71, 32, 47, 10] (by decide)).2 10 rfl
  exact ⟨n, read, by rw [strings]; decide, by rw [strings]; decide, by rw [strings]; decide⟩

end CudaOpenMp.Server
