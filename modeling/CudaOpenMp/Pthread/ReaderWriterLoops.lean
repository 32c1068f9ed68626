import CudaOpenMp.Library.CriticalSections

/-!
The one-place buffers of `reader_writer.c` and `reader_writer_cond.c`. The writer says so when the
buffer is full and the reader when it is empty; in `reader_writer_cond.c` they then wait, and give
the mutex back when they are woken.
-/

namespace CudaOpenMp.ReaderWriterLoops

open Interleaving Sections

inductive Party where
  | writer
  | reader
deriving DecidableEq

inductive Cond where
  | bufferNotFull
  | bufferNotEmpty
deriving DecidableEq

inductive Line where
  | produce (item : UInt8)
  | consume (item : UInt8)
  | full
  | empty
deriving DecidableEq

/-- `item` is the writer's own. -/
structure Data where
  buffer : UInt8
  bufferHasItem : Int32
  item : Int8

/-- `if(item++==-1) item=0;` -/
def Data.nextItem (d : Data) : Data :=
  { d with item := if d.item = -1 then 0 else d.item + 1 }

def writerFunction : Section Data Line Cond where
  test d := d.bufferHasItem = 0
  body := [.assign fun d => { d with buffer := d.item.toUInt8 },
    .printf fun d => .produce d.buffer,
    .assign fun d => { d with bufferHasItem := 1 },
    .assign Data.nextItem]
  otherwise := [.printf fun _ => .full]
  ending := .unlock

def readerFunction : Section Data Line Cond where
  test d := d.bufferHasItem = 1
  body := [.printf fun d => .consume d.buffer,
    .assign fun d => { d with bufferHasItem := 0 }]
  otherwise := [.printf fun _ => .empty]
  ending := .unlock

def readerWriter : Party → Section Data Line Cond
  | .writer => writerFunction
  | .reader => readerFunction

/-! `reader_writer_cond.c` -/

def writerFunctionCond : Section Data Line Cond where
  test d := d.bufferHasItem = 0
  body := [.assign fun d => { d with buffer := d.item.toUInt8 },
    .printf fun d => .produce d.buffer,
    .assign fun d => { d with bufferHasItem := 1 },
    .assign Data.nextItem,
    .signal (fun _ => true) .bufferNotEmpty]
  otherwise := [.printf fun _ => .full]
  ending := .wait false .bufferNotFull

def readerFunctionCond : Section Data Line Cond where
  test d := d.bufferHasItem = 1
  body := [.printf fun d => .consume d.buffer,
    .assign fun d => { d with bufferHasItem := 0 },
    .signal (fun _ => true) .bufferNotFull]
  otherwise := [.printf fun _ => .empty]
  ending := .wait false .bufferNotEmpty

def readerWriterCond : Party → Section Data Line Cond
  | .writer => writerFunctionCond
  | .reader => readerFunctionCond

/-- A buffer with one place for the items `0`, `1`, and so on modulo `256`, as the lines tell of it:
the item that is in it or comes next, and whether it is in it. -/
def onePlace : UInt8 × Bool → Line → Option (UInt8 × Bool)
  | (next, stored), .produce item =>
      if stored = false ∧ item = next then some (next, true) else none
  | (next, stored), .consume item =>
      if stored = true ∧ item = next then some (next + 1, false) else none
  | (next, stored), .full => if stored = true then some (next, stored) else none
  | (next, stored), .empty => if stored = false then some (next, stored) else none

def Line.refusal : Line → Bool
  | .full | .empty => true
  | .produce _ | .consume _ => false

theorem nextItem_item (d : Data) : d.nextItem.item = d.item + 1 := by
  rw [Data.nextItem]
  split
  · next last => rw [last]; rfl
  · rfl

/-- What the data say about the buffer. -/
def Holds (d : Data) : UInt8 × Bool → Prop
  | (next, true) => d.bufferHasItem = 1 ∧ d.buffer = next ∧ d.item.toUInt8 = next + 1
  | (next, false) => d.bufferHasItem = 0 ∧ d.item.toUInt8 = next

theorem holds_start : Holds ⟨0, 0, 0⟩ (0, false) :=
  ⟨rfl, rfl⟩

section
variable {d : Data} {next : UInt8}

theorem writer_goes (room : Holds d (next, false)) :
    (readerWriter .writer).branch d = (writerFunction.body, .unlock) ∧
      (readerWriterCond .writer).branch d = (writerFunctionCond.body, .unlock) := by
  simp [readerWriter, readerWriterCond, writerFunction, writerFunctionCond, Section.branch, room.1]

theorem writer_refuses (stored : Holds d (next, true)) :
    (readerWriter .writer).branch d = (writerFunction.otherwise, .unlock) ∧
      (readerWriterCond .writer).branch d =
        (writerFunctionCond.otherwise, .wait false .bufferNotFull) := by
  simp [readerWriter, readerWriterCond, writerFunction, writerFunctionCond, Section.branch, stored.1]

theorem reader_goes (stored : Holds d (next, true)) :
    (readerWriter .reader).branch d = (readerFunction.body, .unlock) ∧
      (readerWriterCond .reader).branch d = (readerFunctionCond.body, .unlock) := by
  simp [readerWriter, readerWriterCond, readerFunction, readerFunctionCond, Section.branch, stored.1]

theorem reader_refuses (room : Holds d (next, false)) :
    (readerWriter .reader).branch d = (readerFunction.otherwise, .unlock) ∧
      (readerWriterCond .reader).branch d =
        (readerFunctionCond.otherwise, .wait false .bufferNotEmpty) := by
  simp [readerWriter, readerWriterCond, readerFunction, readerFunctionCond, Section.branch, room.1]

theorem produced (room : Holds d (next, false)) :
    Holds (after writerFunction.body d) (next, true) := by
  refine ⟨rfl, room.2, ?_⟩
  change (Data.nextItem _).item.toUInt8 = _
  rw [nextItem_item, Int8.toUInt8_add, room.2]
  rfl

theorem consumed (stored : Holds d (next, true)) :
    Holds (after readerFunction.body d) (next + 1, false) :=
  ⟨rfl, stored.2.2⟩

theorem lines_produce (room : Holds d (next, false)) :
    lines writerFunction.body d = [.produce next] := by
  rw [← room.2]
  rfl

theorem lines_consume (stored : Holds d (next, true)) :
    lines readerFunction.body d = [.consume next] := by
  rw [← stored.2.1]
  rfl

end

theorem readerWriter_never (i : Party) : (readerWriter i).ending = .unlock := by
  cases i <;> rfl

theorem readerWriterCond_alone : Alone readerWriterCond := by
  intro i j c first second
  have same := first.trans second.symm
  cases i <;> cases j
  · rfl
  · exact absurd same (by decide)
  · exact absurd same (by decide)
  · rfl

theorem readerWriter_recognizes (spurious : Bool) :
    Recognizes readerWriter spurious onePlace
      (fun a m => Holds a.data m ∧ ∀ i, a.parked i = false) where
  turn := by
    rintro a ⟨next, stored⟩ i ⟨holds, up⟩ _
    have still := turn_never (i := i) readerWriter_never up
    cases i with
    | writer =>
        cases stored with
        | false =>
            refine Or.inr ⟨.produce next, (next, true), ?_, if_pos ⟨rfl, rfl⟩, ?_, still⟩
            · rw [(writer_goes holds).1, lines_produce holds]
            · rw [turn_data, (writer_goes holds).1]
              exact produced holds
        | true =>
            refine Or.inr ⟨.full, (next, true), ?_, rfl, ?_, still⟩
            · rw [(writer_refuses holds).1]
              rfl
            · rw [turn_data, (writer_refuses holds).1]
              exact holds
    | reader =>
        cases stored with
        | false =>
            refine Or.inr ⟨.empty, (next, false), ?_, rfl, ?_, still⟩
            · rw [(reader_refuses holds).1]
              rfl
            · rw [turn_data, (reader_refuses holds).1]
              exact holds
        | true =>
            refine Or.inr ⟨.consume next, (next + 1, false), ?_, if_pos ⟨rfl, rfl⟩, ?_, still⟩
            · rw [(reader_goes holds).1, lines_consume holds]
            · rw [turn_data, (reader_goes holds).1]
              exact consumed holds
  line := by
    rintro a ⟨next, stored⟩ line m' ⟨holds, up⟩ read
    cases line with
    | produce item =>
        obtain ⟨⟨rfl, rfl⟩, _⟩ : (stored = false ∧ item = next) ∧ (next, true) = m' := by
          simpa [onePlace] using read
        refine ⟨[.writer], ⟨Or.inr (up _), trivial⟩, ?_⟩
        rw [transcript, (writer_goes holds).1, lines_produce holds]
        rfl
    | consume item =>
        obtain ⟨⟨rfl, rfl⟩, _⟩ : (stored = true ∧ item = next) ∧ (next + 1, false) = m' := by
          simpa [onePlace] using read
        refine ⟨[.reader], ⟨Or.inr (up _), trivial⟩, ?_⟩
        rw [transcript, (reader_goes holds).1, lines_consume holds]
        rfl
    | full =>
        obtain ⟨rfl, _⟩ : stored = true ∧ (next, stored) = m' := by simpa [onePlace] using read
        refine ⟨[.writer], ⟨Or.inr (up _), trivial⟩, ?_⟩
        rw [transcript, (writer_refuses holds).1]
        rfl
    | empty =>
        obtain ⟨rfl, _⟩ : stored = false ∧ (next, stored) = m' := by simpa [onePlace] using read
        refine ⟨[.reader], ⟨Or.inr (up _), trivial⟩, ?_⟩
        rw [transcript, (reader_refuses holds).1]
        rfl

/-- The writer sleeps exactly when the last line has been about the full buffer, and the reader
when it has been about the empty one. -/
structure Waits (a : Atomic Party Data) (m : (UInt8 × Bool) × Bool) : Prop where
  holds : Holds a.data m.1
  writer : a.parked .writer = (m.1.2 && m.2)
  reader : a.parked .reader = (!m.1.2 && m.2)

section
variable {a : Atomic Party Data} {next : UInt8} {refused : Bool}

theorem Waits.produce (waits : Waits a ((next, false), refused)) :
    Waits (turn readerWriterCond a .writer) ((next, true), false) := by
  have work := (writer_goes waits.holds).2
  refine ⟨?_, ?_, turn_called (by decide) ?_⟩
  · rw [turn_data, work]
    exact produced waits.holds
  · rw [turn_self, work]
    rfl
  · rw [work]
    rfl

theorem Waits.consume (waits : Waits a ((next, true), refused)) :
    Waits (turn readerWriterCond a .reader) ((next + 1, false), false) := by
  have work := (reader_goes waits.holds).2
  refine ⟨?_, turn_called (by decide) ?_, ?_⟩
  · rw [turn_data, work]
    exact consumed waits.holds
  · rw [work]
    rfl
  · rw [turn_self, work]
    rfl

theorem Waits.full (waits : Waits a ((next, true), refused)) :
    Waits (turn readerWriterCond a .writer) ((next, true), true) := by
  have work := (writer_refuses waits.holds).2
  refine ⟨?_, ?_, turn_awake (by decide) waits.reader⟩
  · rw [turn_data, work]
    exact waits.holds
  · rw [turn_self, work]
    rfl

theorem Waits.empty (waits : Waits a ((next, false), refused)) :
    Waits (turn readerWriterCond a .reader) ((next, false), true) := by
  have work := (reader_refuses waits.holds).2
  refine ⟨?_, turn_awake (by decide) waits.writer, ?_⟩
  · rw [turn_data, work]
    exact waits.holds
  · rw [turn_self, work]
    rfl

end

theorem readerWriterCond_recognizes (spurious : Bool) :
    Recognizes readerWriterCond spurious (patient spurious Line.refusal onePlace) Waits where
  turn := by
    rintro a ⟨⟨next, stored⟩, refused⟩ i waits allowed
    have quiet (parked : a.parked i = refused) (line : Line) :
        ¬(spurious = false ∧ refused = true ∧ line.refusal = true) := by
      rintro ⟨genuine, before, _⟩
      rw [genuine, parked, before] at allowed
      simp at allowed
    cases i with
    | writer =>
        cases stored with
        | false =>
            refine Or.inr ⟨.produce next, ((next, true), false), ?_,
              patient_of_go rfl (if_pos ⟨rfl, rfl⟩), waits.produce⟩
            rw [(writer_goes waits.holds).2]
            exact lines_produce waits.holds
        | true =>
            refine Or.inr ⟨.full, ((next, true), true), ?_,
              patient_eq_some.mpr ⟨quiet waits.writer .full, rfl, rfl⟩, waits.full⟩
            rw [(writer_refuses waits.holds).2]
            rfl
    | reader =>
        cases stored with
        | false =>
            refine Or.inr ⟨.empty, ((next, false), true), ?_,
              patient_eq_some.mpr ⟨quiet waits.reader .empty, rfl, rfl⟩, waits.empty⟩
            rw [(reader_refuses waits.holds).2]
            rfl
        | true =>
            refine Or.inr ⟨.consume next, ((next + 1, false), false), ?_,
              patient_of_go rfl (if_pos ⟨rfl, rfl⟩), waits.consume⟩
            rw [(reader_goes waits.holds).2]
            exact lines_consume waits.holds
  line := by
    rintro a ⟨⟨next, stored⟩, refused⟩ line ⟨m', refused'⟩ waits reads
    obtain ⟨quiet, read, _⟩ := patient_eq_some.mp reads
    have allowed {i : Party} (parked : a.parked i = refused) (refuses : line.refusal = true) :
        spurious = true ∨ a.parked i = false := by
      rw [parked]
      cases genuine : spurious with
      | true => exact Or.inl rfl
      | false => exact Or.inr (Bool.eq_false_iff.mpr fun before => quiet ⟨genuine, before, refuses⟩)
    cases line with
    | produce item =>
        obtain ⟨⟨rfl, rfl⟩, _⟩ : (stored = false ∧ item = next) ∧ (next, true) = m' := by
          simpa [onePlace] using read
        refine ⟨[.writer], ⟨Or.inr waits.writer, trivial⟩, ?_⟩
        rw [transcript, (writer_goes waits.holds).2]
        exact congrArg (· ++ []) (lines_produce waits.holds)
    | consume item =>
        obtain ⟨⟨rfl, rfl⟩, _⟩ : (stored = true ∧ item = next) ∧ (next + 1, false) = m' := by
          simpa [onePlace] using read
        refine ⟨[.reader], ⟨Or.inr waits.reader, trivial⟩, ?_⟩
        rw [transcript, (reader_goes waits.holds).2]
        exact congrArg (· ++ []) (lines_consume waits.holds)
    | full =>
        obtain ⟨rfl, _⟩ : stored = true ∧ (next, stored) = m' := by simpa [onePlace] using read
        refine ⟨[.writer], ⟨allowed waits.writer rfl, trivial⟩, ?_⟩
        rw [transcript, (writer_refuses waits.holds).2]
        rfl
    | empty =>
        obtain ⟨rfl, _⟩ : stored = false ∧ (next, stored) = m' := by simpa [onePlace] using read
        refine ⟨[.reader], ⟨allowed waits.reader rfl, trivial⟩, ?_⟩
        rw [transcript, (reader_refuses waits.holds).2]
        rfl

/-- Both programs can go on in exactly the ways in which a buffer with one place can be told of:
every item is consumed once, in order, before the next one is produced. With the conditions, and as
long as no thread wakes up by itself, no two lines in a row say that the buffer is full or empty;
that is all the conditions take away. -/
theorem readerWriter_prints (spurious : Bool) :
    Prints readerWriter spurious ⟨0, 0, 0⟩ (Accepts onePlace (0, false)) ∧
      Prints readerWriterCond spurious ⟨0, 0, 0⟩ fun w => Accepts onePlace (0, false) w ∧
        (spurious = false → w.IsChain fun x y => x.refusal = true → y.refusal = false) := by
  constructor
  · exact (readerWriter_recognizes spurious).prints (alone_never readerWriter_never)
      ⟨holds_start, fun _ => rfl⟩ fun _ => Iff.rfl
  · exact (readerWriterCond_recognizes spurious).prints readerWriterCond_alone
      ⟨holds_start, rfl, rfl⟩ (accepts_patient (0, false))

end CudaOpenMp.ReaderWriterLoops
