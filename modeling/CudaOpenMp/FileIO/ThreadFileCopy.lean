import CudaOpenMp.Library.Loops
import Mathlib.Data.List.TakeWhile
import Mathlib.Logic.Function.Basic

/-!
Executable model of `CopyFile` in `Thread_FileCopy.c`. A byte goes through a signed 8-bit `char` before
it is compared with `EOF`, so that the copy ends in front of the first byte 255.
-/

namespace CudaOpenMp.FileCopy

def eof : Int := -1

/-- The next byte of a stream, or `EOF`, and the rest of the stream. -/
def fgetc : List UInt8 → Int × List UInt8
  | [] => (eof, [])
  | b :: rest => (b.toNat, rest)

/-- The character is converted to an `int` and that to an `unsigned char`. -/
def fputc (ch : Int8) (stream : List UInt8) : List UInt8 := stream ++ [UInt8.ofInt ch.toInt]

structure Streams where
  fp1 : List UInt8
  fp2 : List UInt8

def Streams.next (s : Streams) : Int8 × List UInt8 := (Int8.ofInt (fgetc s.fp1).1, (fgetc s.fp1).2)

def Streams.again (s : Streams) : Bool := s.next.1.toInt ≠ eof

def Streams.round (s : Streams) : Streams := ⟨s.next.2, fputc s.next.1 s.fp2⟩

def copyLoop (rounds : Nat) (s : Streams) : Option Streams :=
  Loops.whileLoop Streams.again Streams.round rounds s

/-- The contents of the files and the paths that can be opened for writing. -/
structure Files where
  content : List Char → Option (List UInt8)
  writable : List Char → Bool

def Files.write (files : Files) (path : List Char) (bytes : List UInt8) : Files :=
  { files with content := Function.update files.content path (some bytes) }

/-- `fopen(path, "w")` empties the file when it succeeds. -/
def Files.truncate (files : Files) (path : List Char) : Files :=
  if files.writable path then files.write path [] else files

def destPath (filename : List Char) : List Char := ['.', '/', 'D', 'e', 's', 't', '/'] ++ filename

def outfilename (filename : List Char) : Option (List Char) :=
  if (destPath filename).length + 1 ≤ 30 then some (destPath filename) else none

structure Outcome where
  files : Files
  printed : String
  exited : Bool

/-- A call whose loop runs for at most the given number of rounds. -/
def copyFile (files : Files) (filename : List Char) (rounds : Nat) : Option Outcome := do
  let fp1 := files.content filename
  let out ← outfilename filename
  let files := files.truncate out
  if fp1.isNone ∨ files.writable out = false then return ⟨files, "fopen error \n", true⟩
  let input ← files.content filename
  let streams ← copyLoop rounds ⟨input, []⟩
  return ⟨files.write out streams.fp2,
    "copy " ++ String.ofList filename ++ " to " ++ String.ofList out ++ " \n", false⟩

/-- The call ends, and the destination file has the bytes of the source file. -/
def CopiesExactly (files : Files) (filename : List Char) : Prop :=
  ∃ rounds outcome, copyFile files filename rounds = some outcome ∧
    outcome.files.content (destPath filename) = files.content filename

theorem toInt_eq_eof_iff (b : UInt8) : (Int8.ofInt b.toNat).toInt = eof ↔ b = 255 := by
  have byte := b.toNat_lt
  rw [Int8.toInt_ofInt, eof, ← UInt8.toNat_inj]
  change (b.toNat : Int).bmod 256 = -1 ↔ b.toNat = 255
  rw [Int.bmod_def]
  split <;> omega

theorem fputc_byte (b : UInt8) (stream : List UInt8) :
    fputc (Int8.ofInt b.toNat) stream = stream ++ [b] := by
  have byte := b.toNat_lt
  have residue : (b.toNat : Int).bmod 256 % 256 = b.toNat := by
    rw [Int.bmod_def]
    split <;> omega
  have back : UInt8.ofInt (Int8.ofInt b.toNat).toInt = b := by
    rw [Int8.toInt_ofInt, UInt8.ofInt]
    change UInt8.ofNat ((b.toNat : Int).bmod 256 % 256).toNat = b
    rw [residue, Int.toNat_natCast, UInt8.ofNat_toNat]
  rw [fputc, back]

theorem again_nil (out : List UInt8) : Streams.again ⟨[], out⟩ = false := by
  rw [Streams.again, Streams.next, fgetc]
  rfl

theorem again_cons (b : UInt8) (rest out : List UInt8) :
    Streams.again ⟨b :: rest, out⟩ = true ↔ b ≠ 255 := by
  rw [Streams.again, Streams.next, fgetc, decide_eq_true_eq, ne_eq, toInt_eq_eof_iff]

theorem round_cons (b : UInt8) (rest out : List UInt8) :
    Streams.round ⟨b :: rest, out⟩ = ⟨rest, out ++ [b]⟩ := by
  rw [Streams.round, Streams.next, fgetc, fputc_byte]

theorem exists_copyLoop (s : Streams) : ∃ rounds last, copyLoop rounds s = some last := by
  have step (s : Streams) (_ : True) (again : s.again = true) :
      True ∧ s.round.fp1.length < s.fp1.length := by
    obtain ⟨input, out⟩ := s
    cases input with
    | nil =>
        rw [again_nil] at again
        simp at again
    | cons b rest =>
        rw [round_cons]
        exact ⟨trivial, Nat.lt_succ_self _⟩
  have ended : ∃ rounds last, copyLoop rounds s = some last ∧ True ∧ last.again = false :=
    Loops.exists_whileLoop (fun _ => True) (fun s => s.fp1.length) step trivial
  obtain ⟨rounds, last, ran, _⟩ := ended
  exact ⟨rounds, last, ran⟩

/-- What is written is the input up to the first byte 255. -/
theorem copyLoop_written {input out : List UInt8} {rounds : Nat} {last : Streams}
    (ran : copyLoop rounds ⟨input, out⟩ = some last) :
    last.fp2 = out ++ input.takeWhile (· ≠ 255) := by
  induction input generalizing out rounds with
  | nil =>
      rw [Loops.whileLoop_done (again_nil out) ran]
      simp
  | cons b rest ih =>
      by_cases stop : b = 255
      · have ended : Streams.again ⟨b :: rest, out⟩ = false := by
          rw [Bool.eq_false_iff, ne_eq, again_cons]
          exact not_not.mpr stop
        rw [Loops.whileLoop_done ended ran]
        simp [stop]
      · obtain ⟨fewer, more⟩ := Loops.whileLoop_step ((again_cons b rest out).mpr stop) ran
        rw [round_cons] at more
        rw [ih more]
        simp [stop]

/-! The call. -/

theorem destPath_ne (filename : List Char) : filename ≠ destPath filename := by
  intro same
  have lengths := congrArg List.length same
  rw [destPath, List.length_append] at lengths
  simp only [List.length_cons, List.length_nil] at lengths
  omega

variable {files : Files} {filename path : List Char} {content bytes : List UInt8}

theorem write_self : (files.write path bytes).content path = some bytes := Function.update_self ..

theorem write_of_ne {other : List Char} (different : other ≠ path) :
    (files.write path bytes).content other = files.content other :=
  Function.update_of_ne different ..

theorem truncate_of_ne {other : List Char} (different : other ≠ path) :
    (files.truncate path).content other = files.content other := by
  rw [Files.truncate]
  split
  · exact write_of_ne different
  · rfl

/-- A call changes the destination file only, also when it cannot open a file. -/
theorem copyFile_other {rounds : Nat} {outcome : Outcome}
    (ran : copyFile files filename rounds = some outcome) (other : path ≠ destPath filename) :
    outcome.files.content path = files.content path := by
  rw [copyFile, outfilename] at ran
  by_cases fits : (destPath filename).length + 1 ≤ 30
  · simp only [if_pos fits, Option.bind_eq_bind, Option.bind_some, Option.pure_def] at ran
    split at ran
    · rw [← Option.some.inj ran]
      exact truncate_of_ne other
    · obtain ⟨input, _, read⟩ := Option.bind_eq_some_iff.mp ran
      obtain ⟨streams, _, copied⟩ := Option.bind_eq_some_iff.mp read
      rw [← Option.some.inj copied]
      exact (write_of_ne other).trans (truncate_of_ne other)
  · rw [if_neg fits] at ran
    simp at ran

theorem copyFile_eq (fits : (destPath filename).length + 1 ≤ 30)
    (source : files.content filename = some content)
    (writable : files.writable (destPath filename) = true) (rounds : Nat) :
    copyFile files filename rounds = (copyLoop rounds ⟨content, []⟩).map fun streams =>
      ⟨(files.write (destPath filename) []).write (destPath filename) streams.fp2,
        "copy " ++ String.ofList filename ++ " to " ++ String.ofList (destPath filename) ++ " \n",
        false⟩ := by
  have kept : (files.write (destPath filename) []).content filename = some content := by
    rw [write_of_ne (destPath_ne filename), source]
  have stillOpen : (files.write (destPath filename) []).writable (destPath filename) = true := writable
  simp only [copyFile, outfilename, if_pos fits, Option.bind_eq_bind, Option.bind_some, source,
    Files.truncate, writable, if_true, kept, stillOpen, Option.isNone_some, Bool.false_eq_true,
    Bool.true_eq_false, or_self, if_false]
  cases copyLoop rounds ⟨content, []⟩ <;> rfl

theorem copies_iff (fits : (destPath filename).length + 1 ≤ 30)
    (source : files.content filename = some content)
    (writable : files.writable (destPath filename) = true) :
    CopiesExactly files filename ↔ 255 ∉ content := by
  have whole : content.takeWhile (· ≠ 255) = content ↔ 255 ∉ content := by
    rw [List.takeWhile_eq_self_iff]
    constructor
    · intro all member
      simpa using all 255 member
    · intro absent b member
      have other : b ≠ 255 := fun same => absent (same ▸ member)
      simpa using other
  rw [← whole]
  constructor
  · rintro ⟨rounds, outcome, ran, same⟩
    rw [copyFile_eq fits source writable] at ran
    obtain ⟨last, copied, rfl⟩ := Option.map_eq_some_iff.mp ran
    rwa [source, write_self, copyLoop_written copied, List.nil_append, Option.some.injEq] at same
  · intro complete
    obtain ⟨rounds, last, copied⟩ := exists_copyLoop ⟨content, []⟩
    refine ⟨rounds, _, by rw [copyFile_eq fits source writable, copied]; rfl, ?_⟩
    rw [source, write_self, copyLoop_written copied, List.nil_append, complete]

def zeroTxt : List Char := ['0', '.', 't', 'x', 't']

def onlyFile (bytes : List UInt8) : Files :=
  ⟨fun path => if path = zeroTxt then some bytes else none, fun _ => true⟩

theorem copies_iff_letters :
    CopiesExactly (onlyFile [65, 66]) zeroTxt ↔ (255 : UInt8) ∉ [65, 66] :=
  copies_iff (by decide) rfl rfl

/-- Of the bytes 65, 255 and 66 only the first one is copied. -/
theorem copy_cut_off : ¬CopiesExactly (onlyFile [65, 255, 66]) zeroTxt := by
  rintro ⟨rounds, outcome, ran, same⟩
  rw [@copyFile_eq _ zeroTxt [65, 255, 66] (by decide) rfl rfl] at ran
  obtain ⟨last, copied, rfl⟩ := Option.map_eq_some_iff.mp ran
  rw [write_self, copyLoop_written copied] at same
  exact absurd same (by decide)

end CudaOpenMp.FileCopy
