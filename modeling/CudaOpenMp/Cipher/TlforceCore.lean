import CudaOpenMp.Cipher.Charset
import CudaOpenMp.Library.ListHeap

/-!
Executable model of the cipher in `tlforce.cpp`. A result of `none` stands for undefined
behaviour or an exception: a signed overflow, an index outside an array, a vector of
negative size.
-/

namespace CudaOpenMp.Tlforce

def charToIdx (c : Char) : Int :=
  if '0'.toNat ≤ c.toNat ∧ c.toNat ≤ '9'.toNat then (c.toNat : Int) - '0'.toNat
  else (c.toNat : Int) - 'a'.toNat + 10

def idxToChar (i : Nat) : Option Char := charset[i]?

def unsignedChar (c : Char) : UInt64 := c.toNat.toUInt8.toUInt64

structure Uint256 where
  hi2 : UInt64
  hi1 : UInt64
  lo1 : UInt64
  lo0 : UInt64
  deriving DecidableEq, Repr

def Uint256.value (seed : Uint256) : Nat :=
  ((seed.hi2.toNat * 2 ^ 64 + seed.hi1.toNat) * 2 ^ 64 + seed.lo1.toNat) * 2 ^ 64 + seed.lo0.toNat

def readWord (digest : List UInt8) (offset : Nat) : UInt64 :=
  ((digest.drop offset).take 8).foldl (fun v b => (v <<< 8) ||| b.toUInt64) 0

def Uint256.fromDigest (digest : List UInt8) : Uint256 where
  hi2 := readWord digest 0
  hi1 := readWord digest 8
  lo1 := readWord digest 16
  lo0 := readWord digest 24

def keyToSeedMaster (key : List Char) : UInt64 :=
  key.foldl (fun seed c => seed * 36 + UInt64.ofInt (charToIdx c)) 0

def lcgNext (state : UInt32) : UInt32 := (state.toUInt64 * 1664525 + 1013904223).toUInt32

def shuffleLoop : Nat → UInt32 → List Nat → List Nat
  | 0, _, deck => deck
  | i + 1, state, deck =>
      let state := lcgNext state
      let j := (state % UInt32.ofNat (i + 1)).toNat
      shuffleLoop i state (ListHeap.swap deck i j)

def fisherYatesShuffle (seed : UInt64) : List Nat :=
  shuffleLoop 36 (seed &&& 0xFFFFFFFF).toUInt32 (List.range 36)

def xor32 (a b : UInt64) : UInt32 := ((a ^^^ b) &&& 0xFFFFFFFF).toUInt32

def powLoop (base exp result : UInt64) : UInt64 :=
  if exp = 0 then result
  else
    let result := if exp &&& 1 = 1 then result * base % 997 else result
    powLoop (base * base % 997) (exp >>> 1) result
termination_by exp.toNat
decreasing_by
  rename_i nonzero
  have positive : 0 < exp.toNat :=
    Nat.pos_of_ne_zero fun zero => nonzero (UInt64.toNat_inj.mp (by simpa using zero))
  simp only [UInt64.toNat_shiftRight]
  exact Nat.lt_of_le_of_lt (Nat.le_of_eq (Nat.shiftRight_eq_div_pow _ _))
    (Nat.div_lt_self positive (by decide))

def p64 : UInt64 := powLoop (2 % 997) 64 1

def p128 : UInt64 := p64 * p64 % 997

def p192 : UInt64 := p128 * p64 % 997

def seedMod (seed : Uint256) : UInt64 :=
  (seed.hi2 % 997 * p192 % 997 + seed.hi1 % 997 * p128 % 997 + seed.lo1 % 997 * p64 % 997
    + seed.lo0 % 997) % 997

def computeScores (seed : Uint256) : List UInt64 :=
  (List.range 36).map fun i => (UInt64.ofNat (i + 1) * seedMod seed % 997 + 17) % 997

structure HNode where
  score : UInt64
  counter : Nat
  ch : Int
  left : Int
  right : Int
  deriving DecidableEq, Repr

structure HuffPool where
  nodes : List HNode
  heap : List Nat

/-- The pool is static storage, so an unused node reads as zeros. -/
def nodeAt (nodes : List HNode) (idx : Nat) : HNode := nodes.getD idx ⟨0, 0, 0, 0, 0⟩

def nodeLess (ni np : HNode) : Bool :=
  ni.score < np.score || (ni.score == np.score && ni.counter < np.counter)

def less (nodes : List HNode) (i p : Nat) : Bool := nodeLess (nodeAt nodes i) (nodeAt nodes p)

namespace HuffPool

/-- `nodes[node_cnt] = node; push(node_cnt++)`. -/
def add (pool : HuffPool) (node : HNode) : HuffPool where
  nodes := pool.nodes ++ [node]
  heap := ListHeap.push (less (pool.nodes ++ [node])) pool.heap pool.nodes.length

def pop (pool : HuffPool) : Option (Nat × HuffPool) :=
  match ListHeap.pop (less pool.nodes) pool.heap with
  | some (top, heap) => some (top, { pool with heap := heap })
  | none => none

def addLeaf (scores : List UInt64) (pool : HuffPool) (i : Nat) : HuffPool :=
  pool.add ⟨scores.getD i 0, pool.nodes.length, i, -1, -1⟩

def mergeOnce (pool : HuffPool) : Option HuffPool :=
  match pool.pop with
  | none => none
  | some (a, afterA) =>
      match afterA.pop with
      | none => none
      | some (b, afterB) =>
          let score := (nodeAt pool.nodes a).score + (nodeAt pool.nodes b).score
          some (afterB.add ⟨score, afterB.nodes.length, -1, a, b⟩)

theorem mergeOnce_heap_length {pool merged : HuffPool} (step : pool.mergeOnce = some merged) :
    merged.heap.length + 1 = pool.heap.length := by
  simp only [mergeOnce, pop] at step
  split at step
  · simp at step
  · rename_i a afterA firstPop
    split at firstPop
    · rename_i top heap popped
      simp only [Option.some.injEq, Prod.mk.injEq] at firstPop
      obtain ⟨rfl, rfl⟩ := firstPop
      have first := ListHeap.pop_length popped
      split at step
      · simp at step
      · rename_i b afterB secondPop
        split at secondPop
        · rename_i popped
          simp only [Option.some.injEq, Prod.mk.injEq] at secondPop
          obtain ⟨rfl, rfl⟩ := secondPop
          have second := ListHeap.pop_length popped
          simp only [Option.some.injEq] at step
          simp only [← step, add, ListHeap.push_length]
          simp only at second
          omega
        · simp at secondPop
    · simp at firstPop

def mergeLoop (pool : HuffPool) : HuffPool :=
  if 1 < pool.heap.length then
    match _step : pool.mergeOnce with
    | some merged => mergeLoop merged
    | none => pool
  else pool
termination_by pool.heap.length
decreasing_by
  have shrinks := mergeOnce_heap_length _step
  omega

def build (scores : List UInt64) : HuffPool :=
  mergeLoop ((List.range 36).foldl (addLeaf scores) ⟨[], []⟩)

end HuffPool

/-- The recursive search. The first argument counts the free cells of the path buffer. -/
def dfs (nodes : List HNode) (targetCh : Int) : Nat → List Char → Nat → Option (List Char)
  | 0, _, _ => none
  | room + 1, path, idx =>
      let n := nodeAt nodes idx
      if n.ch ≠ -1 then
        if n.ch = targetCh then some (if path.isEmpty then ['0'] else path) else none
      else
        match dfs nodes targetCh room (path ++ ['0']) n.left.toNat with
        | some out => some out
        | none => dfs nodes targetCh room (path ++ ['1']) n.right.toNat

def genCodeFor (pool : HuffPool) (root : Nat) (targetCh : Int) : List Char :=
  (dfs pool.nodes targetCh 128 [] root).getD []

/-! The decimal string of a seed and its hash. -/

def wordBytes (v : UInt64) : List UInt8 :=
  ([56, 48, 40, 32, 24, 16, 8, 0] : List UInt64).map fun shift => ((v >>> shift) &&& 0xFF).toUInt8

def bignum (temp : Uint256) : List UInt8 :=
  [temp.hi2, temp.hi1, temp.lo1, temp.lo0].flatMap wordBytes

def isZero (bytes : List UInt8) : Bool := bytes.all (· == 0)

/-- Long division by ten from a running remainder: quotient bytes and final remainder. -/
def divmod10 : UInt32 → List UInt8 → List UInt8 × UInt32
  | rem, [] => ([], rem)
  | rem, b :: rest =>
      let cur := rem * 256 + b.toUInt32
      let (quotient, last) := divmod10 (cur % 10) rest
      ((cur / 10).toUInt8 :: quotient, last)

/-- The digits, lowest first. The first argument counts the free cells of `digits`. -/
def digitLoop : Nat → List UInt8 → Option (List UInt8)
  | room, bytes =>
      if isZero bytes then some []
      else
        match room with
        | 0 => none
        | room + 1 =>
            let (quotient, last) := divmod10 0 bytes
            (digitLoop room quotient).map (last.toUInt8 :: ·)

def decStr (temp : Uint256) : Option (List UInt8) :=
  let digits := if isZero (bignum temp) then some [0] else digitLoop 80 (bignum temp)
  digits.map fun ds => ds.reverse.map fun d => 48 + d

def updateSeed (sha : Sha256) (seed : Uint256) (ch : Char) : Option Uint256 := do
  let temp := { seed with lo0 := seed.lo0 ^^^ unsignedChar ch }
  let dec ← decStr temp
  return Uint256.fromDigest (sha dec).toList

/-! The three steps of a round. -/

def pokerLoop (deckA deckB : List Nat) : Nat → Nat → List Char → Option (List Char)
  | _, _, [] => some []
  | i, prev, c :: rest => do
      let sum ← int32 (i + 1 + prev)
      let offset := sum.tmod 36
      let idx := (charToIdx c + offset).tmod 36
      let outIdx ← if idx < 0 then none else (if i % 2 = 0 then deckA else deckB)[idx.toNat]?
      let out ← idxToChar outIdx
      let tail ← pokerLoop deckA deckB (i + 1) outIdx rest
      return out :: tail

def pokerSubstitute (text : List Char) (seedMaster : UInt64) (roundNum : Nat) :
    Option (List Char) := do
  let prev := (seedMaster % 36).toNat
  let sA := (xor32 seedMaster (0x1111 * UInt64.ofNat roundNum)).toUInt64
  let sB := (xor32 seedMaster (0x2222 * UInt64.ofNat roundNum)).toUInt64
  -- The loop runs below `(int)text.size()`; the cells above keep their blanks.
  let n := (narrow text.length).toNat
  let front ← pokerLoop (fisherYatesShuffle sA) (fisherYatesShuffle sB) 0 prev (text.take n)
  return front ++ List.replicate (text.length - n) ' '

def randomKeys : Nat → UInt32 → List Nat
  | 0, _ => []
  | n + 1, state =>
      let state := lcgNext state
      (state % 10000).toNat :: randomKeys n state

def permute (text : List Char) (seedMaster : UInt64) (pid : Nat) : Option (List Char) :=
  let n := narrow text.length
  let seed1 := xor32 seedMaster (UInt64.ofNat pid * 0x3333)
  if n < 0 then none
  else
    let randoms := randomKeys n.toNat seed1
    let sortedIdx := (List.range n.toNat).mergeSort fun a b => !(randoms.getD b 0 < randoms.getD a 0)
    sortedIdx.mapM fun i => text[i]?

def encodeLoop (sha : Sha256) : Uint256 → List Char → Option (List Char)
  | _, [] => some []
  | seed, ch :: rest => do
      let pool := HuffPool.build (computeScores seed)
      let root ← pool.heap[0]?
      let code := genCodeFor pool root (charToIdx ch)
      let next ← updateSeed sha seed ch
      let tail ← encodeLoop sha next rest
      return code ++ tail

def seedInit (key : List Char) (roundNum : Nat) : UInt64 :=
  let suffix := 'R' :: (toString ((roundNum : Int) - 1)).toList
  let seed := key.foldl (fun seed c => seed + unsignedChar c) 1
  suffix.foldl (fun seed c => seed + unsignedChar c) seed

def scoreTreeEncode (sha : Sha256) (text key : List Char) (roundNum : Nat) :
    Option (List Char) :=
  encodeLoop sha ⟨0, 0, 0, seedInit key roundNum⟩ text

def round (sha : Sha256) (text key : List Char) (roundNum : Nat) : Option (List Char) := do
  let sm := keyToSeedMaster key
  let t ← pokerSubstitute text sm roundNum
  let t ← permute t sm roundNum
  scoreTreeEncode sha t key roundNum

def encrypt (sha : Sha256) (plaintext key : List Char) : Option (List Char) := do
  let t ← round sha plaintext key 1
  round sha t key 2

end CudaOpenMp.Tlforce
