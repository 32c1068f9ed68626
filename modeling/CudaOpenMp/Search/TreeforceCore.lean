import CudaOpenMp.Cipher.TreeforceCore
import CudaOpenMp.Library.Interleaving
import CudaOpenMp.Library.ListHeap
import CudaOpenMp.Library.Tally
import CudaOpenMp.Search.KeySpace

/-!
Executable model of the statistics in `treeforce.cpp`: how long the bit strings of the 24
rearrangements are, over all keys of one length. An index outside a string or vector is
`none`.
-/

namespace CudaOpenMp.TreeforceSearch

open Interleaving KeySpace

structure Stats where
  count : UInt64
  totalLen : UInt64
  minLen : Nat
  maxLen : Nat
  lenFreq : Tally.Table Nat compare

namespace Stats

def empty : Stats := ⟨0, 0, 1000, 0, ∅⟩

def record (s : Stats) (len : Nat) : Stats where
  count := s.count + 1
  totalLen := s.totalLen + UInt64.ofNat len
  minLen := if len < s.minLen then len else s.minLen
  maxLen := if s.maxLen < len then len else s.maxLen
  lenFreq := Tally.add s.lenFreq len 1

def merge (s other : Stats) : Stats where
  count := s.count + other.count
  totalLen := s.totalLen + other.totalLen
  minLen := if other.minLen < s.minLen then other.minLen else s.minLen
  maxLen := if s.maxLen < other.maxLen then other.maxLen else s.maxLen
  lenFreq := Tally.merge s.lenFreq other.lenFreq

end Stats

/-- The next arrangement in lexicographic order; a descending one has none. -/
def nextPermutation : List Nat → Option (List Nat)
  | [] => none
  | first :: rest =>
      match nextPermutation rest with
      | some next => some (first :: next)
      | none =>
          let rising := rest.reverse
          match rising.findIdx? fun x => first < x with
          | some place => some (rising.getD place 0 :: rising.set place first)
          | none => none

def permsFrom : Nat → List Nat → List (List Nat)
  | 0, _ => []
  | count + 1, p =>
      p :: match nextPermutation p with
        | some next => permsFrom count next
        | none => []

def allPerms : List (List Nat) := permsFrom 24 [0, 1, 2, 3]

def idxOf (c : Char) : Nat := if c ∈ charset then charset.idxOf c else 0

def lcgNext (s : UInt32) : UInt32 := s * 1664525 + 1013904223

def shuffleLoop : Nat → UInt32 → List Nat → List Nat
  | 0, _, deck => deck
  | i + 1, s, deck =>
      let s := lcgNext s
      shuffleLoop i s (ListHeap.swap deck i (s % UInt32.ofNat (i + 1)).toNat)

def shuffleDeck (s : UInt32) : List Nat := shuffleLoop 36 s (List.range 36)

def pokerLoop (dA dB : List Nat) : Nat → Nat → List Char → Option (List Char)
  | _, _, [] => some []
  | i, prev, c :: rest => do
      let off := (i + 1 + prev) % 36
      let idx := (idxOf c + off) % 36
      let oi ← (if i % 2 = 0 then dA else dB)[idx]?
      let out ← charset[oi]?
      let tail ← pokerLoop dA dB (i + 1) oi rest
      return out :: tail

def afterPoker (plaintext key : List Char) : Option (List Char) :=
  let sm := key.foldl (fun (sm : UInt64) c => sm * 36 + UInt64.ofNat (idxOf c)) 0
  pokerLoop (shuffleDeck (sm ^^^ 0x1111).toUInt32) (shuffleDeck (sm ^^^ 0x2222).toUInt32) 0
    (sm % 36).toNat plaintext

def seedBase (key : List Char) : UInt64 :=
  key.foldl (fun value c => value + c.toNat.toUInt8.toUInt64) (82 + 49)

def codeLengths (sha : Sha256) : Treeforce.Seed256 → List Char → Option Nat
  | _, [] => some 0
  | seed, c :: rest => do
      let code ← Treeforce.encodeCharFast seed c
      let tail ← codeLengths sha (seed.update sha c) rest
      return code.length + tail

/-- The length of the bit string for one of the rearrangements. -/
def permLength (sha : Sha256) (poker : List Char) (base : UInt64) (perm : List Nat) : Option Nat := do
  let afterPerm ← (List.range poker.length).mapM fun i => do
    let place ← perm[i]?
    poker[place]?
  codeLengths sha ⟨#v[0, 0, 0, 0, 0, 0, 0, base.toUInt32]⟩ afterPerm

def measureKey (sha : Sha256) (plaintext key : List Char) (stats : Stats) : Option Stats := do
  let poker ← afterPoker plaintext key
  allPerms.foldlM (fun (stats : Stats) perm => do
    let len ← permLength sha poker (seedBase key) perm
    return stats.record len) stats

def currentKey (keyLength : Nat) (idx : UInt64) : List Char := (fillDigits keyLength idx).map chr

/-- One loop over all keys and all rearrangements. -/
def sequential (sha : Sha256) (plaintext : List Char) (keyLength : Nat) : Option Stats :=
  (List.range (36 ^ keyLength)).foldlM (fun stats idx =>
    measureKey sha plaintext (currentKey keyLength (UInt64.ofNat idx)) stats) Stats.empty

structure Shared (n : Nat) where
  checked : UInt64
  threadStats : Fin n → Stats

inductive Stage where
  | head
  | measure (poker : List Char) (base : UInt64) (perms : List (List Nat))
  | bump
  | done

structure Worker where
  endIdx : UInt64
  idx : UInt64
  stage : Stage

/-- One action of the worker with index `t`. -/
def step (sha : Sha256) (plaintext : List Char) (keyLength : Nat) {n : Nat} (t : Fin n)
    (g : Shared n) (w : Worker) : Option (Shared n × Worker) :=
  match w.stage with
  | .head =>
      if w.idx < w.endIdx then do
        let key := currentKey keyLength w.idx
        let poker ← afterPoker plaintext key
        return (g, { w with stage := .measure poker (seedBase key) allPerms })
      else some (g, { w with stage := .done })
  | .measure poker base (perm :: rest) => do
      let len ← permLength sha poker base perm
      let stats := (g.threadStats t).record len
      return ({ g with threadStats := Function.update g.threadStats t stats },
        { w with stage := .measure poker base rest })
  | .measure _ _ [] => some (g, { w with stage := .bump })
  | .bump =>
      some ({ g with checked := g.checked + 1 }, { w with idx := w.idx + 1, stage := .head })
  | .done => none

def act (sha : Sha256) (plaintext : List Char) (keyLength : Nat) {n : Nat} :
    Action (Fin n) (Shared n) Worker :=
  fun t g w g' w' => step sha plaintext keyLength t g w = some (g', w')

def Worker.finished (w : Worker) : Prop :=
  match w.stage with
  | .done => True
  | .head | .measure _ _ _ | .bump => False

/-! `bruteforce_single_len`. -/

def total (keyLength : Nat) : UInt64 := (List.range keyLength).foldl (fun total _ => total * 36) 1

def job (keyLength : Nat) (numThreads : UInt32) (t : Fin numThreads.toNat) : Chunk where
  first := UInt64.ofNat t * (total keyLength / numThreads.toUInt64)
  last :=
    if t.val = numThreads.toNat - 1 then total keyLength
    else UInt64.ofNat (t + 1) * (total keyLength / numThreads.toUInt64)

def start (keyLength : Nat) (numThreads : UInt32) :
    Forked numThreads.toNat (Shared numThreads.toNat) Worker :=
  Forked.start ⟨0, fun _ => Stats.empty⟩ fun t =>
    ⟨(job keyLength numThreads t).last, (job keyLength numThreads t).first, .head⟩

abbrev Run (sha : Sha256) (plaintext : List Char) (keyLength : Nat) {n : Nat}
    (before after : Forked n (Shared n) Worker) : Prop :=
  ForkRun (act sha plaintext keyLength) Worker.finished before after

def merged {n : Nat} (f : Forked n (Shared n) Worker) : Stats :=
  (List.finRange n).foldl (fun merged t => merged.merge (f.state.shared.threadStats t)) Stats.empty

end CudaOpenMp.TreeforceSearch
