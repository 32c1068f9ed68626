import CudaOpenMp.Cipher.GpuMatchesCore
import CudaOpenMp.Hash.Sha256Core
import CudaOpenMp.Search.TreeforceCore

/-!
Executable model of the cipher in `tforce.cpp`, whose seeds are words of 32 bits: the substitution,
the 24 rearrangements and the code of a rearranged text, compared with the target as it is built.
An access outside an array or string, a signed overflow and a shift by 64 or more are `none`.
-/

namespace CudaOpenMp.Tforce

open GpuMatches (append read)
open TreeforceSearch (allPerms)

def idxOf (c : Char) : Int := if c ∈ charset then charset.idxOf c else -1

def xor32 (a b : UInt32) : UInt32 := a ^^^ b

/-- The same loop as in `treeforce.cpp`, word for word. -/
def doShuffle (seed : UInt32) : List Nat := TreeforceSearch.shuffleDeck seed

def keyToSeedMaster (key : List Char) : UInt32 :=
  key.foldl (fun seed c => seed * 36 + UInt32.ofInt (idxOf c)) 0

def shaUpdate (seed : UInt32) (c : Char) : Option UInt32 := do
  let val := seed ^^^ c.toNat.toUInt8.toUInt32
  let digest ← Sha256Impl.sha256
    [(val >>> 24).toUInt8, (val >>> 16).toUInt8, (val >>> 8).toUInt8, val.toUInt8]
  BlockBuffer.readWord digest 0

/-! `encode_char_fast` -/

/-- A leaf has a `charIdx` of at least 0; -1 stands for none. -/
structure HNode where
  weight : Int
  charIdx : Int
  left : Int
  right : Int
  deriving DecidableEq, Repr

def items (seed : UInt32) : List (Int × Nat) :=
  (List.range 36).map fun i => ((UInt64.ofNat (i + 1) * seed.toUInt64 % 997).toNat, i)

/-- The nodes and the two queues with their heads; the tails are the lengths. -/
structure Forest where
  pool : List HNode
  q1 : List Nat
  q1h : Nat
  q2 : List Nat
  q2h : Nat

namespace Forest

def plantOne (s : Forest) (item : Int × Nat) : Option Forest := do
  let pool ← append 128 s.pool ⟨item.1, item.2, -1, -1⟩
  let q1 ← append 36 s.q1 s.pool.length
  return { s with pool := pool, q1 := q1 }

def popMin (s : Forest) : Option (Nat × Forest) :=
  if s.q1h < s.q1.length ∧ s.q2h < s.q2.length then do
    let x ← s.q1[s.q1h]?
    let y ← s.q2[s.q2h]?
    if (← s.pool[x]?).weight ≤ (← s.pool[y]?).weight then return (x, { s with q1h := s.q1h + 1 })
    else return (y, { s with q2h := s.q2h + 1 })
  else if s.q1h < s.q1.length then do
    return (← s.q1[s.q1h]?, { s with q1h := s.q1h + 1 })
  else do
    return (← s.q2[s.q2h]?, { s with q2h := s.q2h + 1 })

def waiting (s : Forest) : Nat := (s.q1.length - s.q1h) + (s.q2.length - s.q2h)

def mergeOnce (s : Forest) : Option Forest := do
  let (a, s) ← s.popMin
  let (b, s) ← s.popMin
  let weight ← int32 ((← s.pool[a]?).weight + (← s.pool[b]?).weight)
  let pool ← append 128 s.pool ⟨weight, -1, a, b⟩
  let q2 ← append 72 s.q2 s.pool.length
  return { s with pool := pool, q2 := q2 }

def mergeLoop : Nat → Forest → Option Forest
  | 0, s => if 1 < s.waiting then none else some s
  | rounds + 1, s => if 1 < s.waiting then s.mergeOnce.bind (mergeLoop rounds) else some s

def root (s : Forest) : Option Nat :=
  if s.q1h < s.q1.length then s.q1[s.q1h]? else s.q2[s.q2h]?

end Forest

structure Frame where
  node : Int
  pfx : UInt64
  len : Nat

def pushFrame (stk : List Frame) (fr : Frame) : Option (List Frame) :=
  if stk.length < 128 then some (fr :: stk) else none

/-- The search with the stack, for a given number of pops: `code` and `code_len`. -/
def codeLoop (pool : List HNode) (targetIdx : Int) : Nat → List Frame → Option (UInt64 × Nat)
  | _, [] => some (0, 0)
  | 0, _ :: _ => none
  | pops + 1, fr :: stk => do
      let n ← read pool fr.node
      if 0 ≤ n.charIdx then
        if n.charIdx = targetIdx then return if fr.len = 0 then (0, 1) else (fr.pfx, fr.len)
        codeLoop pool targetIdx pops stk
      else
        let stk ← pushFrame stk ⟨n.right, (fr.pfx <<< 1) ||| 1, fr.len + 1⟩
        let stk ← pushFrame stk ⟨n.left, fr.pfx <<< 1, fr.len + 1⟩
        codeLoop pool targetIdx pops stk

def encodeCharFast (seed : UInt32) (targetChar : Char) : Option (UInt64 × Nat) := do
  let sorted := (items seed).mergeSort fun a b => !decide (b.1 < a.1)
  let forest ← sorted.foldlM Forest.plantOne ⟨[], [], 0, [], 0⟩
  let forest ← forest.mergeLoop 36
  let root ← forest.root
  codeLoop forest.pool (idxOf targetChar) 128 [⟨root, 0, 0⟩]

/-! `try_key` -/

def pokerStep (plaintext : List Char) (dA dB : List Nat) (s : Nat × List Char) (i : Nat) :
    Option (Nat × List Char) := do
  let ic := idxOf (← plaintext[i]?)
  let off := (i + 1 + s.1) % 36
  let oi ← read (if i % 2 = 0 then dA else dB) ((ic + off).tmod 36)
  return (oi, ← append 4 s.2 (← charset[oi]?))

def afterPoker (plaintext key : List Char) (n : Nat) : Option (List Char) := do
  let sm := keyToSeedMaster key
  let dA := doShuffle (xor32 sm 0x1111)
  let dB := doShuffle (xor32 sm 0x2222)
  let (_, poker) ← (List.range n).foldlM (pokerStep plaintext dA dB) ((sm % 36).toNat, [])
  return poker

def seedBase (key : List Char) : UInt32 :=
  key.foldl (fun seed c => seed + c.toNat.toUInt8.toUInt32) (82 + 49)

def afterPerm (n : Nat) (poker : List Char) (perm : List Nat) : Option (List Char) :=
  (List.range n).mapM fun i => do poker[← perm[i]?]?

/-- The comparison of a code word with the target, from a given number of bits on. -/
def compareCode (target : List Char) (pos : Nat) (code : UInt64) (codeLen : Nat) :
    Nat → Option Bool
  | 0 => some true
  | b + 1 => do
      if 64 ≤ b then none
      let expected := if (code >>> UInt64.ofNat b) &&& 1 ≠ 0 then '1' else '0'
      if (← target[pos + (codeLen - 1 - b)]?) ≠ expected then return false
      compareCode target pos code codeLen b

/-- The loop over the characters, with `ok` and `pos` after it. -/
def charLoop (target : List Char) (tgtLen : Int) : UInt32 → Nat → List Char → Option (Bool × Nat)
  | _, pos, [] => some (true, pos)
  | seed, pos, c :: rest => do
      let (code, codeLen) ← encodeCharFast seed c
      if tgtLen < (← int32 (pos + codeLen)) then return (false, pos)
      if ← compareCode target pos code codeLen codeLen then
        charLoop target tgtLen (← shaUpdate seed c) (pos + codeLen) rest
      else return (false, pos)

/-- The loop over the permutations: `found_perm`, if it returns true. -/
def permLoop (target poker : List Char) (n : Nat) (tgtLen : Int) (seed : UInt32) :
    List (List Nat) → Option (Option (List Nat))
  | [] => some none
  | perm :: rest => do
      let text ← afterPerm n poker perm
      let (ok, pos) ← charLoop target tgtLen seed 0 text
      if ok && (pos : Int) == tgtLen then return some perm
      permLoop target poker n tgtLen seed rest

def tryKey (plaintext target : List Char) (n : Nat) (tgtLen : Int) (key : List Char) :
    Option (Option (List Nat)) := do
  permLoop target (← afterPoker plaintext key n) n tgtLen (seedBase key) allPerms

end CudaOpenMp.Tforce
