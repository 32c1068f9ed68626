import CudaOpenMp.Search.TreeforceCore

/-!
Executable model of `treeforce2.cpp`: the search for a plaintext and a key whose four characters
all get a code of 35 bits. The seed, the node store with its queues, the table `IDX`, the decks and
the permutations are those of `treeforce.cpp`, word for word. An index outside a string or vector
is `none`; the progress lines are left out.
-/

namespace CudaOpenMp.Treeforce2

open Treeforce (Seed256 Forest nodeIn items itemLess plant)
open TreeforceSearch (idxOf shuffleDeck allPerms)

def walkLength (s : Forest) (target : Char) : Nat → Nat → Nat → Option Nat
  | 0, _, _ => none
  | steps + 1, curr, len =>
      let n := nodeIn s.tree curr
      if n.left = -1 then some len
      else if (nodeIn s.tree n.left.toNat).chars.contains target then
        walkLength s target steps n.left.toNat (len + 1)
      else walkLength s target steps n.right.toNat (len + 1)

def getCharHuffmanLen (seed : Seed256) (target : Char) : Option Nat := do
  let sorted := (items seed.getMod997).mergeSort fun a b => !itemLess b a
  let forest ← (plant sorted).mergeLoop 36
  let root ← forest.root
  let len ← walkLength forest target forest.tree.length root 0
  return if len = 0 then 1 else len

def seedMaster (key : List Char) : UInt64 :=
  key.foldl (fun sm c => sm * 36 + UInt64.ofNat (idxOf c)) 0

def pokerStep (plaintext : List Char) (dA dB : List Nat) (s : Nat × List Char) (i : Nat) :
    Option (Nat × List Char) := do
  let ic := idxOf (← plaintext[i]?)
  let off := (i + 1 + s.1) % 36
  let idx := (ic + off) % 36
  let oi ← (if i % 2 = 0 then dA else dB)[idx]?
  return (oi, s.2 ++ [← charset[oi]?])

def afterPoker (plaintext key : List Char) : Option (List Char) := do
  let sm := seedMaster key
  let dA := shuffleDeck (sm ^^^ 0x1111).toUInt32
  let dB := shuffleDeck (sm ^^^ 0x2222).toUInt32
  let (_, text) ← (List.range 4).foldlM (pokerStep plaintext dA dB) ((sm % 36).toNat, [])
  return text

def seedBaseVal (key : List Char) : UInt64 :=
  key.foldl (fun value c => value + c.toNat.toUInt8.toUInt64) (82 + 49)

/-- `is_valid_path` and `current_total` after the loop over the characters. -/
def pathLoop (sha : Sha256) : Seed256 → Nat → List Char → Option (Bool × Nat)
  | _, total, [] => some (true, total)
  | seed, total, c :: rest => do
      let len ← getCharHuffmanLen seed c
      if len < 35 then return (false, total)
      pathLoop sha (seed.update sha c) (total + len) rest

def arrange (poker : List Char) (perm : List Nat) : Option (List Char) :=
  (List.range 4).mapM fun i => do poker[← perm[i]?]?

/-- The result with `final_len` and `win_perm`, which are set only when it is true. -/
structure Verdict where
  found : Bool
  finalLen : Nat
  winPerm : List Nat
  deriving DecidableEq, Repr

def permLoop (sha : Sha256) (poker : List Char) (base : UInt64) (finalLen : Nat)
    (winPerm : List Nat) : List (List Nat) → Option Verdict
  | [] => some ⟨false, finalLen, winPerm⟩
  | perm :: rest => do
      let afterPerm ← arrange poker perm
      let (isValidPath, currentTotal) ←
        pathLoop sha ⟨#v[0, 0, 0, 0, 0, 0, 0, base.toUInt32]⟩ 0 afterPerm
      if isValidPath && currentTotal == 140 then return ⟨true, currentTotal, perm⟩
      permLoop sha poker base finalLen winPerm rest

def verifyCombination (sha : Sha256) (plaintext key : List Char) (finalLen : Nat)
    (winPerm : List Nat) : Option Verdict := do
  let poker ← afterPoker plaintext key
  permLoop sha poker (seedBaseVal key) finalLen winPerm allPerms

/-! `thread_worker`. -/

structure Solution where
  plaintext : List Char
  key : List Char
  finalLen : Nat
  winPerm : List Nat
  deriving DecidableEq, Repr

/-- The text spelled by an index, for the plaintext and for the key. -/
def current (idx : UInt64) : List Char := (KeySpace.fillDigits 4 idx).map chr

def keyStep (sha : Sha256) (plaintext : List Char) (printed : List Solution) (kIdx : Nat) :
    Option (List Solution) := do
  let key := current (UInt64.ofNat kIdx)
  let verdict ← verifyCombination sha plaintext key 0 []
  return if verdict.found then printed ++ [⟨plaintext, key, verdict.finalLen, verdict.winPerm⟩]
    else printed

/-- What one worker prints and what it adds to `global_checked`. -/
structure Progress where
  printed : List Solution
  checked : UInt64

def plainStep (sha : Sha256) (totalKeySpace : UInt64) (s : Progress) (pIdx : Nat) :
    Option Progress := do
  let printed ← (List.range totalKeySpace.toNat).foldlM
    (keyStep sha (current (UInt64.ofNat pIdx))) s.printed
  return ⟨printed, s.checked + totalKeySpace⟩

def threadWorker (sha : Sha256) (startPlainIdx endPlainIdx totalKeySpace : UInt64) :
    Option Progress :=
  (List.range' startPlainIdx.toNat (endPlainIdx.toNat - startPlainIdx.toNat)).foldlM
    (plainStep sha totalKeySpace) ⟨[], 0⟩

end CudaOpenMp.Treeforce2
