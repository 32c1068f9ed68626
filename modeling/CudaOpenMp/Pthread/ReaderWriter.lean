import CudaOpenMp.Library.Interleaving
import Mathlib.Data.List.Infix

/-!
The one-byte buffer of `reader_writer_diff_mutex.c`. The two threads lock different mutexes, so
only the flag keeps them apart.
-/

namespace CudaOpenMp.ReaderWriter

open Interleaving

inductive Party where
  | writer
  | reader
deriving DecidableEq

/-- The place in the loop of a thread, named after what is done next. -/
inductive Stage where
  | lock
  | test
  | store
  | print
  | raise
  | increment
  | lower
  | unlock
deriving DecidableEq

structure Local where
  stage : Stage
  item : Int8

/-- `stored` and `printed` are the bytes that the writer has stored and the reader has printed.
The program does not read them. -/
structure Shared where
  buffer : UInt8
  bufferHasItem : Int
  mutex1 : Bool
  mutex2 : Bool
  stored : List UInt8
  printed : List UInt8

/-- The value of `item` after `if(item++==-1) item=0;`. -/
def incremented (item : Int8) : Int8 := if item = -1 then 0 else item + 1

/-- One load or store, or one call on a mutex. -/
inductive Act : Action Party Shared Local
  | lockWriter {g : Shared} {item : Int8} : g.mutex1 = false →
      Act .writer g ⟨.lock, item⟩ { g with mutex1 := true } ⟨.test, item⟩
  | testWriter {g : Shared} {item : Int8} :
      Act .writer g ⟨.test, item⟩ g
        ⟨if g.bufferHasItem = 0 then .store else .unlock, item⟩
  | store {g : Shared} {item : Int8} :
      Act .writer g ⟨.store, item⟩
        { g with buffer := item.toUInt8, stored := g.stored ++ [item.toUInt8] } ⟨.print, item⟩
  | printWriter {g : Shared} {item : Int8} : Act .writer g ⟨.print, item⟩ g ⟨.raise, item⟩
  | raise {g : Shared} {item : Int8} :
      Act .writer g ⟨.raise, item⟩ { g with bufferHasItem := 1 } ⟨.increment, item⟩
  | increment {g : Shared} {item : Int8} :
      Act .writer g ⟨.increment, item⟩ g ⟨.unlock, incremented item⟩
  | unlockWriter {g : Shared} {item : Int8} :
      Act .writer g ⟨.unlock, item⟩ { g with mutex1 := false } ⟨.lock, item⟩
  | lockReader {g : Shared} {item : Int8} : g.mutex2 = false →
      Act .reader g ⟨.lock, item⟩ { g with mutex2 := true } ⟨.test, item⟩
  | testReader {g : Shared} {item : Int8} :
      Act .reader g ⟨.test, item⟩ g
        ⟨if g.bufferHasItem = 1 then .print else .unlock, item⟩
  | printReader {g : Shared} {item : Int8} :
      Act .reader g ⟨.print, item⟩
        { g with printed := g.printed ++ [g.buffer] } ⟨.lower, item⟩
  | lower {g : Shared} {item : Int8} :
      Act .reader g ⟨.lower, item⟩ { g with bufferHasItem := 0 } ⟨.unlock, item⟩
  | unlockReader {g : Shared} {item : Int8} :
      Act .reader g ⟨.unlock, item⟩ { g with mutex2 := false } ⟨.lock, item⟩

def start : State Party Shared Local where
  shared := ⟨0, 0, false, false, [], []⟩
  locals := fun _ => ⟨.lock, 0⟩

/-! Who has the buffer: `l` is the writer and `m` the reader. -/

def Stage.writing : Stage → Bool
  | .store | .print | .raise => true
  | .lock | .test | .increment | .lower | .unlock => false

def Stage.filled : Stage → Bool
  | .print | .raise => true
  | .lock | .test | .store | .increment | .lower | .unlock => false

/-- The writer has stored `item` and not yet moved on to the next one. -/
def Stage.behind : Stage → Nat
  | .print | .raise | .increment => 1
  | .lock | .test | .store | .lower | .unlock => 0

def Stage.reading : Stage → Bool
  | .print | .lower => true
  | .lock | .test | .store | .raise | .increment | .unlock => false

def Stage.emptied : Stage → Bool
  | .lower => true
  | .lock | .test | .store | .print | .raise | .increment | .unlock => false

/-- The buffer has a byte that was not yet printed. -/
def Full (g : Shared) (l m : Local) : Prop :=
  l.stage.filled = true ∨ g.bufferHasItem = 1 ∧ m.stage.emptied = false

structure Inv (g : Shared) (l m : Local) : Prop where
  writing : l.stage.writing = true → g.bufferHasItem = 0
  reading : m.stage.reading = true → g.bufferHasItem = 1
  full : Full g l m → g.stored = g.printed ++ [g.buffer]
  empty : ¬Full g l m → g.stored = g.printed
  count : ∃ turn, g.stored.length = turn + l.stage.behind ∧ l.item.toUInt8 = UInt8.ofNat turn
  bytes : g.stored = (List.range g.stored.length).map UInt8.ofNat

section
variable {g g' : Shared} {l l' m m' : Local}

theorem Inv.start : Inv start.shared ⟨.lock, 0⟩ ⟨.lock, 0⟩ where
  writing := nofun
  reading := nofun
  full := by
    rintro (filled | ⟨up, -⟩)
    · cases filled
    · cases up
  empty := fun _ => rfl
  count := ⟨0, rfl, rfl⟩
  bytes := rfl

theorem incremented_byte {item : Int8} {turn : Nat} (here : item.toUInt8 = UInt8.ofNat turn) :
    (incremented item).toUInt8 = UInt8.ofNat (turn + 1) := by
  have next : (incremented item).toUInt8 = item.toUInt8 + 1 := by
    rw [incremented]
    split
    · next last =>
      rw [last]
      rfl
    · rfl
  rw [next, here, UInt8.ofNat_add]
  rfl

theorem bytes_concat {bytes : List UInt8} {turn : Nat} {byte : UInt8}
    (length : bytes.length = turn) (before : bytes = (List.range bytes.length).map UInt8.ofNat)
    (last : byte = UInt8.ofNat turn) :
    bytes ++ [byte] = (List.range (bytes ++ [byte]).length).map UInt8.ofNat := by
  rw [List.length_append, List.length_singleton, List.range_succ, List.map_append, ← before, length,
    last, List.map_singleton]

theorem Inv.drained (inv : Inv g l m) (down : g.bufferHasItem = 0)
    (unfilled : l.stage.filled = false) : g.stored = g.printed := by
  apply inv.empty
  rintro (filled | ⟨up, -⟩)
  · rw [unfilled] at filled
    cases filled
  · rw [down] at up
    cases up

theorem Inv.not_emptied (inv : Inv g l m) (down : g.bufferHasItem = 0) :
    m.stage.emptied = false := by
  have reading := inv.reading
  rw [down] at reading
  cases stage : m.stage with
  | lower =>
      rw [stage] at reading
      cases reading rfl
  | lock | test | store | print | raise | increment | unlock => rfl

theorem Inv.writer (inv : Inv g l m) (act : Act .writer g l g' l') : Inv g' l' m := by
  have ⟨writing, reading, full, empty, ⟨turn, length, item⟩, bytes⟩ := inv
  cases act with
  | lockWriter => exact ⟨nofun, reading, full, empty, ⟨turn, length, item⟩, bytes⟩
  | testWriter =>
      split
      · next down => exact ⟨fun _ => down, reading, full, empty, ⟨turn, length, item⟩, bytes⟩
      · exact ⟨nofun, reading, full, empty, ⟨turn, length, item⟩, bytes⟩
  | store =>
      have down := writing rfl
      have drained := inv.drained down rfl
      refine ⟨fun _ => down, reading, fun _ => ?_, fun hollow => (hollow (Or.inl rfl)).elim,
        ⟨turn, ?_, item⟩, bytes_concat length bytes item⟩
      · rw [← drained]
      · rw [List.length_append, length]
        rfl
  | printWriter =>
      exact ⟨fun _ => writing rfl, reading, full, empty, ⟨turn, length, item⟩, bytes⟩
  | raise =>
      have down := writing rfl
      have apart : m.stage.emptied = false := inv.not_emptied down
      exact ⟨nofun, fun _ => rfl, fun _ => full (Or.inl rfl),
        fun hollow => (hollow (Or.inr ⟨rfl, apart⟩)).elim, ⟨turn, length, item⟩, bytes⟩
  | increment =>
      exact ⟨nofun, reading, full, empty, ⟨turn + 1, length, incremented_byte item⟩, bytes⟩
  | unlockWriter => exact ⟨nofun, reading, full, empty, ⟨turn, length, item⟩, bytes⟩

theorem Inv.unfilled (inv : Inv g l m) (up : g.bufferHasItem = 1) : l.stage.filled = false := by
  have writing := inv.writing
  rw [up] at writing
  cases stage : l.stage with
  | print | raise =>
      rw [stage] at writing
      cases writing rfl
  | lock | test | store | increment | lower | unlock => rfl

theorem Inv.reader (inv : Inv g l m) (act : Act .reader g m g' m') : Inv g' l m' := by
  have ⟨writing, reading, full, empty, count, bytes⟩ := inv
  cases act with
  | lockReader => exact ⟨writing, nofun, full, empty, count, bytes⟩
  | testReader =>
      split
      · next up => exact ⟨writing, fun _ => up, full, empty, count, bytes⟩
      · exact ⟨writing, nofun, full, empty, count, bytes⟩
  | printReader =>
      have up := reading rfl
      have one := full (Or.inr ⟨up, rfl⟩)
      refine ⟨writing, fun _ => up, ?_, fun _ => one, count, bytes⟩
      rintro (filled | ⟨_, pending⟩)
      · have unfilled := inv.unfilled up
        rw [unfilled] at filled
        cases filled
      · cases pending
  | lower =>
      have up := reading rfl
      have unfilled := inv.unfilled up
      have drained : g.stored = g.printed := by
        apply empty
        rintro (filled | ⟨_, pending⟩)
        · rw [unfilled] at filled
          cases filled
        · cases pending
      refine ⟨fun _ => rfl, nofun, ?_, fun _ => drained, count, bytes⟩
      rintro (filled | ⟨raised, _⟩)
      · rw [unfilled] at filled
        cases filled
      · cases raised
  | unlockReader => exact ⟨writing, nofun, full, empty, count, bytes⟩

end

theorem inv_run {s : State Party Shared Local} (run : Run Act start s) :
    Inv s.shared (s.locals .writer) (s.locals .reader) := by
  induction run with
  | refl => exact Inv.start
  | tail _ move inv =>
      cases move with
      | turn party acted =>
          cases party with
          | writer => simpa using inv.writer acted
          | reader => simpa using inv.reader acted

/-- The bytes count up from 0 and start again after 255. The reader prints them in this order,
and a byte is stored only when all before it have been printed. -/
theorem bytes_in_order {s : State Party Shared Local} (run : Run Act start s) :
    s.shared.printed <+: s.shared.stored ∧
      s.shared.stored.length ≤ s.shared.printed.length + 1 ∧
      s.shared.stored = (List.range s.shared.stored.length).map UInt8.ofNat ∧
      ((s.locals .writer).stage = .store → s.shared.printed = s.shared.stored) ∧
      ((s.locals .reader).stage = .print →
        s.shared.stored = s.shared.printed ++ [s.shared.buffer]) := by
  have inv := inv_run run
  refine ⟨?_, ?_, inv.bytes, ?_, ?_⟩
  · by_cases full : Full s.shared (s.locals .writer) (s.locals .reader)
    · rw [inv.full full]
      exact List.prefix_append _ _
    · rw [inv.empty full]
  · by_cases full : Full s.shared (s.locals .writer) (s.locals .reader)
    · rw [inv.full full, List.length_append, List.length_singleton]
    · rw [inv.empty full]
      exact Nat.le_succ _
  · intro store
    have down := inv.writing (by rw [store]; rfl)
    exact (inv.drained down (by rw [store]; rfl)).symm
  · intro print
    have up := inv.reading (by rw [print]; rfl)
    exact inv.full (Or.inr ⟨up, by rw [print]; rfl⟩)

/-! Rounds of one thread while the other one stands still. -/

theorem write_alone (locals : Party → Local) {g : Shared} (item : Int8) (free : g.mutex1 = false)
    (down : g.bufferHasItem = 0) :
    Run Act (solo locals .writer g ⟨.lock, item⟩)
      (solo locals .writer ⟨item.toUInt8, 1, false, g.mutex2, g.stored ++ [item.toUInt8], g.printed⟩
        ⟨.lock, incremented item⟩) := by
  let locked : Shared := { g with mutex1 := true }
  let stored : Shared :=
    { locked with buffer := item.toUInt8, stored := g.stored ++ [item.toUInt8] }
  let raised : Shared := { stored with bufferHasItem := 1 }
  have lock := Step.solo locals .writer (@Act.lockWriter g item free)
  have test := Step.solo locals .writer (@Act.testWriter locked item)
  have store := Step.solo locals .writer (@Act.store locked item)
  have print := Step.solo locals .writer (@Act.printWriter stored item)
  have raise := Step.solo locals .writer (@Act.raise stored item)
  have increment := Step.solo locals .writer (@Act.increment raised item)
  have unlock := Step.solo locals .writer (@Act.unlockWriter raised (incremented item))
  rw [if_pos (show locked.bufferHasItem = 0 from down)] at test
  exact .head lock (.head test (.head store (.head print (.head raise (.head increment
    (.single unlock))))))

theorem read_alone (locals : Party → Local) {g : Shared} (item : Int8) (free : g.mutex2 = false)
    (up : g.bufferHasItem = 1) :
    Run Act (solo locals .reader g ⟨.lock, item⟩)
      (solo locals .reader ⟨g.buffer, 0, g.mutex1, false, g.stored, g.printed ++ [g.buffer]⟩
        ⟨.lock, item⟩) := by
  let locked : Shared := { g with mutex2 := true }
  let printed : Shared := { locked with printed := g.printed ++ [g.buffer] }
  let lowered : Shared := { printed with bufferHasItem := 0 }
  have lock := Step.solo locals .reader (@Act.lockReader g item free)
  have test := Step.solo locals .reader (@Act.testReader locked item)
  have print := Step.solo locals .reader (@Act.printReader locked item)
  have lower := Step.solo locals .reader (@Act.lower printed item)
  have unlock := Step.solo locals .reader (@Act.unlockReader lowered item)
  rw [if_pos (show locked.bufferHasItem = 1 from up)] at test
  exact .head lock (.head test (.head print (.head lower (.single unlock))))

theorem exists_rounds (n : Nat) : ∃ s, Run Act start s ∧ s.shared.printed.length = n ∧
    s.shared.bufferHasItem = 0 ∧ s.shared.mutex1 = false ∧ s.shared.mutex2 = false ∧
    ∃ writer reader, s.locals .writer = ⟨.lock, writer⟩ ∧ s.locals .reader = ⟨.lock, reader⟩ := by
  induction n with
  | zero => exact ⟨start, .refl, rfl, rfl, rfl, rfl, 0, 0, rfl, rfl⟩
  | succ n ih =>
      obtain ⟨⟨g, locals⟩, run, length, down, free, free', writer, reader, atWriter, atReader⟩ := ih
      have wrote := write_alone locals writer free down
      rw [← atWriter, solo_self] at wrote
      have read := @read_alone (Function.update locals .writer ⟨.lock, incremented writer⟩)
        ⟨writer.toUInt8, 1, false, g.mutex2, g.stored ++ [writer.toUInt8], g.printed⟩ reader free' rfl
      have there : Function.update locals .writer ⟨.lock, incremented writer⟩ .reader =
          ⟨.lock, reader⟩ := atReader
      rw [← there, solo_self] at read
      refine ⟨_, run.trans (wrote.trans read), ?_, rfl, rfl, rfl, incremented writer, reader, ?_⟩
      · have longer : (g.printed ++ [writer.toUInt8]).length = n + 1 := by
          rw [List.length_append, List.length_singleton]
          exact congrArg (· + 1) length
        exact longer
      · refine ⟨rfl, ?_⟩
        simp only [solo, Function.update_self]
        exact there

theorem bytes_in_order_wrap : ∃ s, Run Act start s ∧ s.shared.printed.length = 257 ∧
    s.shared.printed <+: s.shared.stored := by
  obtain ⟨s, run, length, _⟩ := exists_rounds 257
  exact ⟨s, run, length, (bytes_in_order run).1⟩

end CudaOpenMp.ReaderWriter
