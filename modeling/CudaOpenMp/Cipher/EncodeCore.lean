import CudaOpenMp.Cipher.Charset
import CudaOpenMp.Library.ListHeap
import Mathlib.Algebra.GroupWithZero.Nat

/-!
Executable model of `encode.py`. Its integers are unbounded, a raised exception is `none`,
and a heap is the bag of its entries. What the script prints is left out.
-/

namespace CudaOpenMp.Encode

def charToIdx (c : Char) : Option Nat := charset.idxOf? c

def idxToChar (i : Nat) : Option Char := charset[i]?

def keyToSeedMaster (key : List Char) : Option Nat :=
  key.foldlM (fun seed c => (charToIdx c).map fun i => seed * 36 + i) 0

def lcgNext (state : Nat) : Nat := (state * 1664525 + 1013904223) &&& 0xFFFFFFFF

def shuffleLoop : Nat → Nat → List Nat → List Nat
  | 0, _, deck => deck
  | i + 1, state, deck =>
      let state := lcgNext state
      let j := state % (i + 1)
      shuffleLoop i state (ListHeap.swap deck i j)

def fisherYatesShuffle (seed : Nat) : List Nat :=
  shuffleLoop 36 (seed &&& 0xFFFFFFFF) (List.range 36)

def xor32 (a b : Nat) : Nat := (a ^^^ b) &&& 0xFFFFFFFF

abbrev Dict (V : Type) := List (Char × V)

def setItem {V : Type} : Dict V → Char → V → Dict V
  | [], c, v => [(c, v)]
  | entry :: rest, c, v => if entry.1 = c then (c, v) :: rest else entry :: setItem rest c v

def computeScores (seed : Nat) : Dict Nat :=
  charset.zipIdx.map fun (c, i) => (c, ((i + 1) * seed + 17) % 997)

/-- A heap entry: the tuple of score, counter, character and the two merged entries. -/
inductive Node where
  | leaf (score counter : Nat) (ch : Char)
  | inner (score counter : Nat) (left right : Node)
  deriving Repr

namespace Node

def score : Node → Nat
  | leaf score _ _ => score
  | inner score _ _ _ => score

def counter : Node → Nat
  | leaf _ counter _ => counter
  | inner _ counter _ _ => counter

/-- Counters are distinct, so the comparison of tuples never reaches the third field. -/
def less (x y : Node) : Bool :=
  x.score < y.score || (x.score == y.score && x.counter < y.counter)

end Node

def least : Node → List Node → Node × List Node
  | x, [] => (x, [])
  | x, y :: rest =>
      if y.less x then
        let (found, others) := least y rest
        (found, x :: others)
      else
        let (found, others) := least x rest
        (found, y :: others)

theorem least_perm (x : Node) (rest : List Node) :
    ((least x rest).1 :: (least x rest).2).Perm (x :: rest) := by
  induction rest generalizing x with
  | nil => exact List.Perm.refl _
  | cons y rest ih =>
      simp only [least]
      split
      · exact (List.Perm.swap x _ _).trans ((ih y).cons x)
      · exact (List.Perm.swap y _ _).trans (((ih x).cons y).trans (List.Perm.swap x y rest))

def heappush (heap : List Node) (node : Node) : List Node := heap ++ [node]

def heappop : List Node → Option (Node × List Node)
  | [] => none
  | x :: rest => some (least x rest)

theorem heappop_perm {heap rest : List Node} {top : Node}
    (popped : heappop heap = some (top, rest)) : (top :: rest).Perm heap := by
  cases heap with
  | nil => simp [heappop] at popped
  | cons x others =>
      have parts := least_perm x others
      rw [heappop, Option.some.injEq] at popped
      rwa [popped] at parts

def mergeOnce (counter : Nat) (heap : List Node) : Option (List Node) :=
  match heappop heap with
  | none => none
  | some (first, afterFirst) =>
      match heappop afterFirst with
      | none => none
      | some (second, afterSecond) =>
          some (heappush afterSecond (.inner (first.score + second.score) counter first second))

theorem mergeOnce_length {counter : Nat} {heap merged : List Node}
    (step : mergeOnce counter heap = some merged) : merged.length + 1 = heap.length := by
  simp only [mergeOnce] at step
  split at step
  · simp at step
  · rename_i first afterFirst popped
    split at step
    · simp at step
    · rename_i second afterSecond poppedToo
      have firstSize := (heappop_perm popped).length_eq
      have secondSize := (heappop_perm poppedToo).length_eq
      rw [Option.some.injEq] at step
      simp only [List.length_cons] at firstSize secondSize
      simp only [← step, heappush, List.length_append, List.length_singleton]
      omega

def mergeLoop (counter : Nat) (heap : List Node) : List Node :=
  if 1 < heap.length then
    match _step : mergeOnce counter heap with
    | some merged => mergeLoop (counter + 1) merged
    | none => heap
  else heap
termination_by heap.length
decreasing_by
  have shrinks := mergeOnce_length _step
  omega

def pushLeaves : Nat → Dict Nat → List Node → List Node
  | _, [], heap => heap
  | counter, (c, s) :: rest, heap => pushLeaves (counter + 1) rest (heappush heap (.leaf s counter c))

def buildHuffmanRoot (scores : Dict Nat) : Option Node :=
  (mergeLoop scores.length (pushLeaves 0 scores []))[0]?

def genCodes : Node → List Char → Dict (List Char) → Dict (List Char)
  | .leaf _ _ ch, path, codes => setItem codes ch (if path.isEmpty then ['0'] else path)
  | .inner _ _ left right, path, codes =>
      genCodes right (path ++ ['1']) (genCodes left (path ++ ['0']) codes)

def hexdigest (digest : List UInt8) : List Char :=
  digest.flatMap fun b => [Nat.digitChar (b.toNat / 16), Nat.digitChar (b.toNat % 16)]

def hexValue (c : Char) : Nat := if c.toNat < 58 then c.toNat - 48 else c.toNat - 87

def intBase16 (h : List Char) : Nat := h.foldl (fun v c => v * 16 + hexValue c) 0

def updateSeed (sha : Sha256) (seed : Nat) (char : Char) : Nat :=
  let temp := seed ^^^ char.toNat
  let h := hexdigest (sha ((Nat.repr temp).toList.map fun c => c.toNat.toUInt8)).toList
  intBase16 h

/-! The three steps of a round. -/

def pokerLoop (deckA deckB : List Nat) : Nat → Nat → List Char → Option (List Char)
  | _, _, [] => some []
  | i, prev, c :: rest => do
      let idxC ← charToIdx c
      let offset := (i + 1 + prev) % 36
      let idx := (idxC + offset) % 36
      let outIdx ← (if i % 2 = 0 then deckA else deckB)[idx]?
      let outC ← idxToChar outIdx
      let tail ← pokerLoop deckA deckB (i + 1) outIdx rest
      return outC :: tail

def pokerSubstitute (text key : List Char) (roundNum : Nat) : Option (List Char) := do
  let seedMaster ← keyToSeedMaster key
  let prev := seedMaster % 36
  let seedA := xor32 seedMaster (0x1111 * roundNum)
  let seedB := xor32 seedMaster (0x2222 * roundNum)
  pokerLoop (fisherYatesShuffle seedA) (fisherYatesShuffle seedB) 0 prev text

def randomKeys : Nat → Nat → List Nat
  | 0, _ => []
  | n + 1, state => lcgNext state % 10000 :: randomKeys n (lcgNext state)

def permute (text key : List Char) (pid : Nat) : Option (List Char) := do
  let seedMaster ← keyToSeedMaster key
  let seed1 := xor32 seedMaster (pid * 0x3333)
  let randoms := randomKeys text.length (seed1 &&& 0xFFFFFFFF)
  let sortedIdx := (List.range text.length).mergeSort fun a b => randoms.getD a 0 ≤ randoms.getD b 0
  sortedIdx.mapM fun i => text[i]?

def encodeLoop (sha : Sha256) : Nat → List Char → Option (List Char)
  | _, [] => some []
  | seed, char :: rest => do
      let root ← buildHuffmanRoot (computeScores seed)
      let encoded ← (genCodes root [] []).lookup char
      let tail ← encodeLoop sha (updateSeed sha seed char) rest
      return encoded ++ tail

def scoreTreeEncode (sha : Sha256) (text key : List Char) (roundNum : Nat) :
    Option (List Char) :=
  let suffix := 'R' :: (toString ((roundNum : Int) - 1)).toList
  let seed := (key.map Char.toNat).sum + (suffix.map Char.toNat).sum + 1
  encodeLoop sha seed text

def round (sha : Sha256) (text key : List Char) (roundNum : Nat) : Option (List Char) := do
  let afterPoker ← pokerSubstitute text key roundNum
  let afterPerm ← permute afterPoker key roundNum
  scoreTreeEncode sha afterPerm key roundNum

/-- The two rounds of the main flow, from the key and the plaintext it works on. -/
def mainFlow (sha : Sha256) (key plaintext : List Char) : Option (List Char) := do
  let afterTreeR1 ← round sha plaintext key 1
  round sha afterTreeR1 key 2

def isSpace (c : Char) : Bool :=
  let n := c.toNat
  (9 ≤ n && n ≤ 13) || (28 ≤ n && n ≤ 32) || n == 0x85 || n == 0xA0 || n == 0x1680 ||
    (0x2000 ≤ n && n ≤ 0x200A) || n == 0x2028 || n == 0x2029 || n == 0x202F || n == 0x205F ||
    n == 0x3000

def strip (line : List Char) : List Char :=
  ((line.dropWhile isSpace).reverse.dropWhile isSpace).reverse

def prompt (line fallback : List Char) : List Char :=
  if (strip line).isEmpty then fallback else strip line

/-- The script from its two input lines to `after_tree_r2`. -/
def main (sha : Sha256) (keyLine textLine : List Char) : Option (List Char) :=
  mainFlow sha (prompt keyLine ['w', 'l', 'a', 'q']) (prompt textLine ['b', 'o', 'o', 'k'])

end CudaOpenMp.Encode
