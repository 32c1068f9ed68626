import CudaOpenMp.Cipher.GpuCore

/-!
Executable model of `d_encrypt_matches` in `brute_force_gpu.cu` in which every access to an array is
checked. A buffer is the list of its cells written so far; a write past the declared size, or a
read of a cell not written, is `none`. The literal that initialises `d_target` is longer than the
array, so the target is a parameter.
-/

namespace CudaOpenMp.GpuMatches

open Gpu (Seed128 HuffNode HeapElem elemLess Builder dCharToIdx dComputeScore dUpdateSeed seedInit)

def append {α : Type} (size : Nat) (buf : List α) (v : α) : Option (List α) :=
  if buf.length < size then some (buf ++ [v]) else none

def read {α : Type} (buf : List α) (i : Int) : Option α := if 0 ≤ i then buf[i.toNat]? else none

def write {α : Type} (buf : List α) (i : Nat) (v : α) : Option (List α) :=
  if i < buf.length then some (buf.set i v) else none

def swapCells {α : Type} (buf : List α) (i j : Nat) : Option (List α) := do
  let tmp ← buf[i]?
  let buf ← write buf i (← buf[j]?)
  write buf j tmp

def dLcgNext (state : UInt32) : UInt32 := state * 1664525 + 1013904223

def dKeyToSeed (key : List Char) : UInt32 :=
  key.foldl (fun seed c => seed * 36 + UInt32.ofInt (dCharToIdx c)) 0

def shuffleLoop : Nat → UInt32 → List Nat → Option (List Nat)
  | 0, _, deck => some deck
  | i + 1, state, deck => do
      let state := dLcgNext state
      let j := (state % UInt32.ofNat (i + 1)).toNat
      shuffleLoop i state (← swapCells deck i j)

def dFisherYates (seed : UInt32) : Option (List Nat) := shuffleLoop 36 seed (List.range 36)

def pokerStep (input : List Char) (deckA deckB : List Nat) (s : Nat × List Char) (i : Nat) :
    Option (Nat × List Char) := do
  let idxC := dCharToIdx (← input[i]?)
  let offset := (i + 1 + s.1) % 36
  let idx := (idxC + offset).tmod 36
  let outIdx ← read (if i % 2 = 0 then deckA else deckB) idx
  return (outIdx, ← append 512 s.2 (← charset[outIdx]?))

/-- `d_poker_substitute`, and the block of the second round. Both fill a buffer of `BUF_SIZE`. -/
def dPokerSubstitute (input : List Char) (n : Nat) (seedMaster : UInt32) (roundNum : Nat) :
    Option (List Char) := do
  let deckA ← dFisherYates (seedMaster ^^^ 0x1111 * UInt32.ofNat roundNum)
  let deckB ← dFisherYates (seedMaster ^^^ 0x2222 * UInt32.ofNat roundNum)
  let (_, out) ← (List.range n).foldlM (pokerStep input deckA deckB) ((seedMaster % 36).toNat, [])
  return out

def randomStep (size : Nat) (s : UInt32 × List Nat) : Option (UInt32 × List Nat) := do
  let state := dLcgNext s.1
  return (state, ← append size s.2 (state % 10000).toNat)

/-- The inner loop of the insertion sort. The first argument is `j + 1`. -/
def insertLoop (randoms : List Nat) (ki vi : Nat) : Nat → List Nat → Option (List Nat)
  | 0, sortedIdx => write sortedIdx 0 ki
  | j + 1, sortedIdx => do
      let other ← sortedIdx[j]?
      if vi < (← randoms[other]?) then insertLoop randoms ki vi j (← write sortedIdx (j + 1) other)
      else write sortedIdx (j + 1) ki

def insertStep (randoms : List Nat) (sortedIdx : List Nat) (i : Nat) : Option (List Nat) := do
  let ki ← sortedIdx[i]?
  insertLoop randoms ki (← randoms[ki]?) i sortedIdx

def permuteWith (size : Nat) (input : List Char) (n : Nat) (seedMaster : UInt32) (pid : Nat) :
    Option (List Char) := do
  let seed1 := seedMaster ^^^ UInt32.ofNat pid * 0x3333
  let (_, randoms) ← (List.range n).foldlM (fun s _ => randomStep size s) (seed1, [])
  let sortedIdx ← (List.range n).foldlM (append size) []
  let sortedIdx ← (List.range' 1 (n - 1)).foldlM (insertStep randoms) sortedIdx
  (List.range n).foldlM (fun out i => do append 512 out (← input[← sortedIdx[i]?]?)) []

/-- With arrays of `PLAIN_LEN` cells. -/
def dPermute (input : List Char) (n : Nat) (seedMaster : UInt32) (pid : Nat) : Option (List Char) :=
  permuteWith 4 input n seedMaster pid

/-- The block of the second round, with arrays of `BUF_SIZE` cells. -/
def permuteBits (input : List Char) (n : Nat) (seedMaster : UInt32) : Option (List Char) :=
  permuteWith 512 input n seedMaster 2

def siftUp (heap : List HeapElem) (i : Nat) : Option (List HeapElem) :=
  if i = 0 then some heap
  else do
    let p := (i - 1) / 2
    if elemLess (← heap[i]?) (← heap[p]?) then siftUp (← swapCells heap i p) p else return heap
termination_by i

def heapPush (heap : List HeapElem) (e : HeapElem) : Option (List HeapElem) := do
  siftUp (← append 128 heap e) heap.length

def smaller (heap : List HeapElem) (j smallest : Nat) : Option Nat :=
  if j < heap.length then do
    return if elemLess (← heap[j]?) (← heap[smallest]?) then j else smallest
  else some smallest

/-- The loop of `heap_pop`, for a given number of rounds. -/
def siftDown : Nat → List HeapElem → Nat → Option (List HeapElem)
  | 0, _, _ => none
  | rounds + 1, heap, i => do
      let smallest ← smaller heap (2 * i + 1) i
      let smallest ← smaller heap (2 * i + 2) smallest
      if smallest = i then return heap
      siftDown rounds (← swapCells heap i smallest) smallest

def heapPop (heap : List HeapElem) : Option (HeapElem × List HeapElem) := do
  let top ← heap[0]?
  let last ← heap[heap.length - 1]?
  return (top, ← siftDown heap.length (← write heap 0 last).dropLast 0)

def add (builder : Builder) (score ch left right : Int) : Option Builder := do
  let nn := builder.nodes.length
  let nodes ← append 128 builder.nodes ⟨score, nn, ch, left, right⟩
  return ⟨nodes, ← heapPush builder.heap ⟨score, nn, nn⟩⟩

def addLeaf (seed : Seed128) (builder : Builder) (i : Nat) : Option Builder :=
  add builder (dComputeScore i seed) i (-1) (-1)

def mergeOnce (builder : Builder) : Option Builder := do
  let (e1, heap) ← heapPop builder.heap
  let (e2, heap) ← heapPop heap
  let sc ← int32 ((← read builder.nodes e1.nodeIdx).score + (← read builder.nodes e2.nodeIdx).score)
  add ⟨builder.nodes, heap⟩ sc (-1) e1.nodeIdx e2.nodeIdx

def mergeLoop : Nat → Builder → Option Builder
  | 0, builder => if 1 < builder.heap.length then none else some builder
  | rounds + 1, builder => do
      if 1 < builder.heap.length then mergeLoop rounds (← mergeOnce builder) else return builder

def dBuildHuffman (seed : Seed128) : Option (List HuffNode × Nat) := do
  let builder ← (List.range 36).foldlM (addLeaf seed) ⟨[], []⟩
  let builder ← mergeLoop 36 builder
  let (root, _) ← heapPop builder.heap
  return (builder.nodes, root.nodeIdx.toNat)

/-! The search for a code. -/

structure Frame where
  node : Int
  bits : List Nat

/-- The stack, and how many children the depth guard has dropped. -/
structure Search where
  stk : List Frame
  dropped : Nat

def pushChild (s : Search) (fr : Frame) (child : Int) (bit : Nat) : Option Search :=
  if child = -1 then some s
  else if fr.bits.length < 24 - 1 then do
    let bits ← append 24 fr.bits bit
    if s.stk.length < 128 then some ⟨⟨child, bits⟩ :: s.stk, s.dropped⟩ else none
  else some ⟨s.stk, s.dropped + 1⟩

/-- The loop over the stack, for a given number of pops. The result is the content of `bits_out`
and the number of dropped children. -/
def codeLoop (nodes : List HuffNode) (charIdx : Int) : Nat → Search → Option (List Nat × Nat)
  | _, ⟨[], dropped⟩ => some ([], dropped)
  | 0, ⟨_ :: _, _⟩ => none
  | pops + 1, ⟨fr :: stk, dropped⟩ => do
      let nd ← read nodes fr.node
      if nd.ch ≠ -1 then
        if nd.ch = charIdx then
          let bitsOut ← (if fr.bits.isEmpty then [0] else fr.bits).foldlM (append 24) []
          return (bitsOut, dropped)
        codeLoop nodes charIdx pops ⟨stk, dropped⟩
      else
        let s ← pushChild ⟨stk, dropped⟩ fr nd.right 1
        let s ← pushChild s fr nd.left 0
        codeLoop nodes charIdx pops s

def dGetCode (nodes : List HuffNode) (root : Nat) (charIdx : Int) : Option (List Nat × Nat) :=
  codeLoop nodes charIdx 128 ⟨[⟨root, []⟩], 0⟩

/-! The encoder and the whole function. -/

structure CodeCall where
  nodes : List HuffNode
  root : Nat
  charIdx : Int
  code : List Nat
  dropped : Nat

structure Encoded where
  returned : Int
  outBits : List Char
  calls : List CodeCall

/-- The loop over the positions of the text. `total_bits` is the number of bits written. -/
def encodeLoop (sha : Sha256) (text : List Char) (size : Nat) (maxOut : Int) :
    List Nat → Seed128 → List Char → List CodeCall → Option Encoded
  | [], _, out, calls => some ⟨out.length, out, calls⟩
  | ci :: rest, seed, out, calls => do
      let (nodes, root) ← dBuildHuffman seed
      let c ← text[ci]?
      let (code, dropped) ← dGetCode nodes root (dCharToIdx c)
      let calls := calls ++ [⟨nodes, root, dCharToIdx c, code, dropped⟩]
      let sum ← int32 (out.length + code.length)
      if maxOut < sum then return ⟨-1, out, calls⟩
      let out ← code.foldlM (fun out b => append size out (Char.ofNat (48 + b))) out
      encodeLoop sha text size maxOut rest (← dUpdateSeed sha seed c) out calls

/-- The array behind `out_bits` has the given size. -/
def dScoreTreeEncode (sha : Sha256) (text : List Char) (n : Nat) (key : List Char) (roundNum : Nat)
    (size : Nat) (maxOut : Int) : Option Encoded := do
  let seed ← seedInit key roundNum
  encodeLoop sha text size maxOut (List.range n) ⟨0, UInt64.ofInt seed⟩ [] []

def dPlain : List Char := ['b', 'o', 'o', 'k']

structure Outcome where
  isMatch : Bool
  returned : List Int
  calls : List CodeCall

/-- The comparison with the target, up to the first difference. -/
def compareLoop (bits2 : List Char) (target : Vector Char 120) : List Nat → Option Bool
  | [] => some true
  | i :: rest => do
      if (← bits2[i]?) ≠ (← target.toList[i]?) then return false
      compareLoop bits2 target rest

def dEncryptMatches (sha : Sha256) (target : Vector Char 120) (key : List Char) :
    Option Outcome := do
  let sm := dKeyToSeed key
  let bufA ← dPokerSubstitute dPlain 4 sm 1
  let bufB ← dPermute bufA 4 sm 1
  let first ← dScoreTreeEncode sha bufB 4 key 1 512 512
  if first.returned < 0 then return ⟨false, [first.returned], first.calls⟩
  let len1 := first.returned.toNat
  let bufA ← dPokerSubstitute first.outBits len1 sm 2
  let bufB ← permuteBits bufA len1 sm
  let second ← dScoreTreeEncode sha bufB len1 key 2 (512 * 8) (512 * 8)
  let returned := [first.returned, second.returned]
  let calls := first.calls ++ second.calls
  if second.returned < 0 then return ⟨false, returned, calls⟩
  if second.returned ≠ 119 then return ⟨false, returned, calls⟩
  return ⟨← compareLoop second.outBits target (List.range 119), returned, calls⟩

end CudaOpenMp.GpuMatches
