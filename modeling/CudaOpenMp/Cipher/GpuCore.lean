import CudaOpenMp.Cipher.Charset
import CudaOpenMp.Library.ListHeap

/-!
Executable model of the adaptive encoder in `brute_force_gpu.cu`. A result of `none` or
`undefined` stands for a signed overflow or an index outside a fixed buffer.
-/

namespace CudaOpenMp.Gpu

def dCharToIdx (c : Char) : Int :=
  if '0'.toNat ≤ c.toNat ∧ c.toNat ≤ '9'.toNat then (c.toNat : Int) - '0'.toNat
  else 10 + ((c.toNat : Int) - 'a'.toNat)

structure Seed128 where
  hi : UInt64
  lo : UInt64
  deriving DecidableEq, Repr

def Seed128.value (seed : Seed128) : Nat := seed.hi.toNat * 2 ^ 64 + seed.lo.toNat

/-- Long division by ten from a running remainder: quotient words and final remainder. -/
def divideByTen : UInt64 → List UInt32 → List UInt32 × UInt64
  | rem, [] => ([], rem)
  | rem, v :: rest =>
      let cur := rem * 0x100000000 + v.toUInt64
      let (quotient, last) := divideByTen (cur % 10) rest
      ((cur / 10).toUInt32 :: quotient, last)

/-- The digits, lowest first. The first argument counts the cells free before the terminator. -/
def digitLoop : Nat → List UInt32 → Option (List UInt8)
  | room, v =>
      if v.all (· == 0) then some []
      else
        match room with
        | 0 => none
        | room + 1 =>
            let (quotient, rem) := divideByTen 0 v
            (digitLoop room quotient).map ((48 + rem.toUInt8) :: ·)

def hashWord (digest : List UInt8) (i : Nat) : UInt32 :=
  ((digest.drop (4 * i)).take 4).foldl (fun w b => (w <<< 8) ||| b.toUInt32) 0

def Seed128.fromHash (hash : List UInt8) : Seed128 where
  hi := ((hashWord hash 0).toUInt64 <<< 32) ||| (hashWord hash 1).toUInt64
  lo := ((hashWord hash 2).toUInt64 <<< 32) ||| (hashWord hash 3).toUInt64

def dUpdateSeed (sha : Sha256) (seed : Seed128) (ch : Char) : Option Seed128 := do
  let lo := seed.lo ^^^ ch.toNat.toUInt8.toUInt64
  let hi := seed.hi
  let v := [(hi >>> 32).toUInt32, (hi &&& 0xFFFFFFFF).toUInt32,
    (lo >>> 32).toUInt32, (lo &&& 0xFFFFFFFF).toUInt32]
  let tmp ← if v.all (· == 0) then some [48] else digitLoop 39 v
  return Seed128.fromHash (sha tmp.reverse).toList

def dComputeScore (charIdx : Nat) (seed : Seed128) : Int :=
  let modHi := seed.hi % 997
  let modLo := ((modHi <<< 32) ||| (seed.lo >>> 32)) % 997
  let modLo := ((modLo <<< 32) ||| (seed.lo &&& 0xFFFFFFFF)) % 997
  ((UInt64.ofNat (charIdx + 1) * modLo + 17) % 997).toNat

structure HuffNode where
  score : Int
  order : Nat
  ch : Int
  left : Int
  right : Int
  deriving DecidableEq, Repr

structure HeapElem where
  score : Int
  order : Int
  nodeIdx : Int
  deriving DecidableEq, Repr

def elemLess (x y : HeapElem) : Bool :=
  x.score < y.score || (x.score == y.score && x.order < y.order)

structure Builder where
  nodes : List HuffNode
  heap : List HeapElem

def nodeAt (nodes : List HuffNode) (idx : Nat) : HuffNode := nodes.getD idx ⟨0, 0, 0, 0, 0⟩

namespace Builder

def add (builder : Builder) (score ch left right : Int) : Builder where
  nodes := builder.nodes ++ [⟨score, builder.nodes.length, ch, left, right⟩]
  heap := ListHeap.push elemLess builder.heap ⟨score, builder.nodes.length, builder.nodes.length⟩

def addLeaf (seed : Seed128) (builder : Builder) (i : Nat) : Builder :=
  builder.add (dComputeScore i seed) i (-1) (-1)

def mergeOnce (builder : Builder) : Option Builder := do
  let (e1, heap) ← ListHeap.pop elemLess builder.heap
  let (e2, heap) ← ListHeap.pop elemLess heap
  let sc ← int32 ((nodeAt builder.nodes e1.nodeIdx.toNat).score +
    (nodeAt builder.nodes e2.nodeIdx.toNat).score)
  return (Builder.mk builder.nodes heap).add sc (-1) e1.nodeIdx e2.nodeIdx

def mergeLoop : Nat → Builder → Option Builder
  | 0, builder => if 1 < builder.heap.length then none else some builder
  | rounds + 1, builder =>
      if 1 < builder.heap.length then builder.mergeOnce.bind (mergeLoop rounds) else some builder

end Builder

def dBuildHuffman (seed : Seed128) : Option (List HuffNode × Nat) := do
  let builder ← ((List.range 36).foldl (Builder.addLeaf seed) ⟨[], []⟩).mergeLoop 36
  let (root, _) ← ListHeap.pop elemLess builder.heap
  return (builder.nodes, root.nodeIdx.toNat)

/-- A stack frame: a node and the bits on the way to it, as many as its depth. -/
structure Frame where
  node : Nat
  bits : List Nat

/-- `if (child != -1 && fr.depth < CODE_MAX_LEN-1)`, with the bound of the stack. -/
def pushChild (stk : List Frame) (fr : Frame) (child : Int) (bit : Nat) : Option (List Frame) :=
  if child ≠ -1 ∧ fr.bits.length < 23 then
    if stk.length < 128 then some (⟨child.toNat, fr.bits ++ [bit]⟩ :: stk) else none
  else some stk

/-- The search with an explicit stack, for a given number of pops. -/
def codeLoop (nodes : List HuffNode) (charIdx : Int) : Nat → List Frame → Option (List Nat)
  | _, [] => some []
  | 0, _ :: _ => none
  | pops + 1, fr :: stk =>
      let nd := nodeAt nodes fr.node
      if nd.ch ≠ -1 then
        if nd.ch = charIdx then some (if fr.bits.isEmpty then [0] else fr.bits)
        else codeLoop nodes charIdx pops stk
      else do
        let stk ← pushChild stk fr nd.right 1
        let stk ← pushChild stk fr nd.left 0
        codeLoop nodes charIdx pops stk

def dGetCode (nodes : List HuffNode) (root : Nat) (charIdx : Int) : Option (List Nat) :=
  codeLoop nodes charIdx 128 [⟨root, []⟩]

/-! The whole encoder. -/

/-- `full` is the return value -1. -/
inductive Outcome where
  | undefined
  | full
  | written (bits : List Char)
  deriving DecidableEq, Repr

def Outcome.after (bits : List Char) : Outcome → Outcome
  | undefined => undefined
  | full => full
  | written more => written (bits ++ more)

def encodeLoop (sha : Sha256) (maxOut : Int) : Seed128 → Int → List Char → Outcome
  | _, _, [] => .written []
  | seed, totalBits, c :: rest =>
      let code := (dBuildHuffman seed).bind fun (nodes, root) => dGetCode nodes root (dCharToIdx c)
      match code with
      | none => .undefined
      | some code =>
          match int32 (totalBits + code.length) with
          | none => .undefined
          | some sum =>
              if maxOut < sum then .full
              else
                match dUpdateSeed sha seed c with
                | none => .undefined
                | some next =>
                    (encodeLoop sha maxOut next sum rest).after
                      (code.map fun b => Char.ofNat (48 + b))

def addChars (start : Int) (codes : List Nat) : Option Int :=
  codes.foldlM (fun (sum : Int) (code : Nat) => int32 (sum + code)) start

def suffixCodes (roundNum : Nat) : List Nat :=
  let rn1 := roundNum - 1
  82 :: (if 10 ≤ rn1 then [48 + rn1 / 10, 48 + rn1 % 10] else [48 + rn1 % 10])

def seedInit (key : List Char) (roundNum : Nat) : Option Int := do
  let keySum ← addChars 0 (key.map fun c => c.toNat.toUInt8.toNat)
  let sufSum ← addChars 0 (suffixCodes roundNum)
  let sum ← int32 (keySum + sufSum)
  int32 (sum + 1)

def dScoreTreeEncode (sha : Sha256) (text key : List Char) (roundNum : Nat) (maxOut : Int) :
    Outcome :=
  match seedInit key roundNum with
  | none => .undefined
  | some seed => encodeLoop sha maxOut ⟨0, UInt64.ofInt seed⟩ 0 text

end CudaOpenMp.Gpu
