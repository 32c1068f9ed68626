import CudaOpenMp.Library.CInt
import CudaOpenMp.Search.Treeforce2Core

/-!
Executable model of the search in `old.cpp`: the test of one key with two stages of encoding, and
the share of the keys that each thread is given. The seed, the encoder, the table `IDX`, the decks
and the permutations are those of `treeforce.cpp`, word for word. An index outside a string or
vector is `none`, and so is an exception or a division by zero.
-/

namespace CudaOpenMp.Old

open KeySpace (Chunk)
open Treeforce (Seed256)
open TreeforceSearch (idxOf shuffleDeck allPerms)

/-! `try_key`. -/

def seedMaster (key : List Char) : UInt64 :=
  key.foldl (fun sm c => sm * 36 + UInt64.ofNat (idxOf c)) 0

def pokerStep (plaintext : List Char) (dA dB : List Nat) (s : Nat × List Char) (i : Nat) :
    Option (Nat × List Char) := do
  let ic := idxOf (← plaintext[i]?)
  let off := (i + 1 + s.1) % 36
  let idx := (ic + off) % 36
  let oi ← (if i % 2 = 0 then dA else dB)[idx]?
  return (oi, s.2 ++ [← charset[oi]?])

def afterPoker (plaintext key : List Char) (n : Nat) : Option (List Char) := do
  let sm := seedMaster key
  let dA := shuffleDeck (sm ^^^ 0x1111).toUInt32
  let dB := shuffleDeck (sm ^^^ 0x2222).toUInt32
  let (_, text) ← (List.range n).foldlM (pokerStep plaintext dA dB) ((sm % 36).toNat, [])
  return text

def arrange (n : Nat) (poker : List Char) (perm : List Nat) : Option (List Char) :=
  (List.range n).mapM fun i => do poker[← perm[i]?]?

def keyAsciiSum (key : List Char) : UInt64 :=
  key.foldl (fun sum c => sum + c.toNat.toUInt8.toUInt64) 0

/-- The key with `R1` or `R2` behind it; the sum is stored in the last of the eight words. -/
def seedOf (key suffix : List Char) : Seed256 :=
  let seed := suffix.foldl (fun seed c => seed + c.toNat.toUInt8.toUInt64) (keyAsciiSum key)
  ⟨#v[0, 0, 0, 0, 0, 0, 0, seed.toUInt32]⟩

def seedR1 (key : List Char) : Seed256 := seedOf key ['R', '1']

def seedR2 (key : List Char) : Seed256 := seedOf key ['R', '2']

/-- The bit string of one stage, as the loop of the first stage builds it. -/
def huffman (sha : Sha256) : Seed256 → List Char → Option (List Char)
  | _, [] => some []
  | seed, c :: rest => do
      let code ← encodeCharFast seed c
      return code ++ (← huffman sha (seed.update sha c) rest)

/-- `target.compare(pos, len, code) == 0`, which throws if `pos` is past the end. -/
def comparesEqual (target : List Char) (pos : Nat) (code : List Char) : Option Bool :=
  if target.length < pos then none
  else some (((target.drop pos).take code.length) == code)

/-- The loop of the second stage, with `ok` and `pos` after it. -/
def compareLoop (sha : Sha256) (target : List Char) (tgtLen : Int) :
    Seed256 → Nat → List Char → Option (Bool × Nat)
  | _, pos, [] => some (true, pos)
  | seed, pos, bit :: rest => do
      let code ← encodeCharFast seed bit
      if tgtLen < (pos + code.length : Nat) then return (false, pos)
      if ← comparesEqual target pos code then
        compareLoop sha target tgtLen (seed.update sha bit) (pos + code.length) rest
      else return (false, pos)

def permStep (sha : Sha256) (target key poker : List Char) (n : Nat) (tgtLen : Int)
    (s : List (List Nat) × Bool) (perm : List Nat) : Option (List (List Nat) × Bool) := do
  let afterPerm ← arrange n poker perm
  let r1Output ← huffman sha (seedR1 key) afterPerm
  let (ok, pos) ← compareLoop sha target tgtLen (seedR2 key) 0 r1Output
  return if ok && (pos : Int) == tgtLen then (s.1 ++ [perm], true) else s

/-- `hit_perms` after the call, and what is returned. -/
def tryKey (sha : Sha256) (plaintext target key : List Char) (n : Nat) (tgtLen : Int)
    (hitPerms : List (List Nat)) : Option (List (List Nat) × Bool) := do
  let poker ← afterPoker plaintext key n
  allPerms.foldlM (permStep sha target key poker n tgtLen) (hitPerms, false)

/-! `bruteforce`. -/

def total (keyLength : Nat) : UInt64 := (List.range keyLength).foldl (fun total _ => total * 36) 1

/-- The pieces of the workers: whole chunks, and the last worker takes what is left. -/
def jobs (total : UInt64) (numThreads : UInt32) : Option (List Chunk) :=
  if numThreads = 0 then none
  else
    let chunkSize := total / numThreads.toUInt64
    some ((List.range numThreads.toNat).map fun t =>
      ⟨UInt64.ofNat t * chunkSize,
        if UInt32.ofNat t = numThreads - 1 then total
        else (UInt32.ofNat t + 1).toUInt64 * chunkSize⟩)

end CudaOpenMp.Old
