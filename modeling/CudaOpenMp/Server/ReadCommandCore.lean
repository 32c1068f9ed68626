import Mathlib.Data.List.TakeWhile
import Mathlib.Data.UInt
import Mathlib.Logic.Function.Basic

/-!
Executable model of `read_command` in `server.c`. Memory that was not written yet is `none`; a store
outside of a block, through a null pointer, or a load from in front of the buffer has no result.
-/

namespace CudaOpenMp.Server

abbrev Bytes := List UInt8

def maxToks : Nat := 1000
def maxTokSize : Nat := 1000

/-- The C string at the start of a buffer that a zero byte follows. -/
def cText (buff : Bytes) : Bytes := buff.takeWhile (· ≠ 0)

/-- `isspace` in the locale `C`. -/
def isspace (c : UInt8) : Bool := c = 32 ∨ 9 ≤ c ∧ c ≤ 13

inductive Status where
  | normal
  | eofFound
  | inputOverflow
  | oversizeToken
  | tooManyTokens
deriving DecidableEq

/-- The `MAXTOKSIZE + 1` characters of a token. -/
abbrev Block := Nat → Option UInt8

def calloc : Block := fun _ => some 0
def malloc : Block := fun _ => none

/-- The string in a block, if it ends within the given number of written characters. -/
def Block.read (block : Block) : Nat → Nat → Option Bytes
  | 0, _ => none
  | room + 1, ti =>
    match block ti with
    | none => none
    | some c => if c = 0 then some [] else (block.read room (ti + 1)).map (c :: ·)

def Block.text (block : Block) : Option Bytes := block.read (maxTokSize + 1) 0

structure Command where
  tok : Nat → Option Block
  count : Nat
  status : Status

/-- A null pointer, or what is in the block behind it. -/
def Command.string (n : Command) (t : Nat) : Option (Option Bytes) := (n.tok t).map Block.text

/-- `n->tok`, `t`, `ti` and `n->count`. -/
structure Reader where
  tok : Nat → Option Block
  t : Nat
  ti : Nat
  count : Nat

def Reader.start : Reader := ⟨fun t => if t = 0 then some calloc else none, 0, 0, 0⟩

def Reader.store (s : Reader) (c : UInt8) : Option Reader := do
  let block ← if s.t < maxToks + 1 then s.tok s.t else none
  if s.ti < maxTokSize + 1 then
    return { s with tok := Function.update s.tok s.t (some (Function.update block s.ti (some c))) }
  else none

def Reader.alloc (s : Reader) : Reader :=
  { s with tok := Function.update s.tok (s.t + 1) (some malloc) }

def Reader.next (s : Reader) : Reader := { s with t := s.t + 1, ti := 0, count := s.count + 1 }

/-- The loop from `buff[j]` on, with the status when it returns early. -/
def Reader.loop (s : Reader) : Bytes → Option (Reader × Option Status)
  | [] => some (s, none)
  | c :: rest =>
    if c = 0 then some (s, none)
    else if isspace c = false then do
      let s ← s.store c
      Reader.loop { s with ti := s.ti + 1 } rest
    else if s.ti = 0 then s.loop rest
    else if s.ti < maxTokSize then do
      let s ← s.store 0
      if s.t + 1 < maxToks ∧ rest.headD 0 ≠ 0 then s.alloc.next.loop rest
      else if s.t + 1 = maxToks ∧ rest.headD 0 ≠ 0 then some (s, some .tooManyTokens)
      else s.next.loop rest
    else some (s, some .oversizeToken)

def readCommand (buff : Bytes) : Option (Command × Bool) := do
  let ended ← Reader.start.loop buff
  match ended.2 with
  | some status => return (⟨ended.1.tok, ended.1.count, status⟩, false)
  | none =>
    let last ← (cText buff).getLast?
    if last ≠ 10 then return (⟨ended.1.tok, ended.1.count, .inputOverflow⟩, false)
    else return (⟨ended.1.tok, ended.1.count, .normal⟩, true)

end CudaOpenMp.Server
