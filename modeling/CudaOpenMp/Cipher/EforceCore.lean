import CudaOpenMp.Cipher.TlforceCore

/-!
Executable model of the cipher in `eforce.cpp`. Its seeds, scores, pool and decks repeat
those of `tlforce.cpp`; its buffers have fixed sizes, and an index past one is a fault.
-/

namespace CudaOpenMp.Eforce

inductive Buffer where
  | randoms
  | idx
  | out
  deriving DecidableEq, Repr

inductive Fault where
  | outOfBounds (buffer : Buffer) (index : Nat)
  | undefined
  deriving DecidableEq, Repr

def ptLen : Nat := 4

def defined {α : Type} : Option α → Except Fault α
  | some value => .ok value
  | none => .error .undefined

abbrev U256 := Tlforce.Uint256

def keyToSeedMaster (key : List Char) : UInt64 := Tlforce.keyToSeedMaster key

def lcgNext (state : UInt32) : UInt32 := Tlforce.lcgNext state

def fisherYatesShuffle (seed : UInt64) : List Nat := Tlforce.fisherYatesShuffle seed

def xor32 (a b : UInt64) : UInt32 := Tlforce.xor32 a b

def updateSeed (sha : Sha256) (seed : U256) (ch : Char) : Option U256 :=
  Tlforce.updateSeed sha seed ch

def isZero (n : U256) : Bool := n.hi2 == 0 && n.hi1 == 0 && n.lo1 == 0 && n.lo0 == 0

/-- The characters, lowest first. The first argument counts the free cells of `digits`. -/
def digitLoop : Nat → List UInt8 → Option (List UInt8)
  | room, buf =>
      if Tlforce.isZero buf then some []
      else
        match room with
        | 0 => none
        | room + 1 =>
            let (quotient, rem) := Tlforce.divmod10 0 buf
            (digitLoop room quotient).map ((48 + rem.toUInt8) :: ·)

def u256ToDec (n : U256) : Option (List UInt8) :=
  if isZero n then some [48] else (digitLoop 80 (Tlforce.bignum n)).map List.reverse

def computeScores (seed : U256) : List UInt64 := Tlforce.computeScores seed

def build (scores : List UInt64) : Tlforce.HuffPool := Tlforce.HuffPool.build scores

/-- The same search with a path of 36 cells and no terminator. -/
def getCode (pool : Tlforce.HuffPool) (targetCh : Int) : Option (List Char) := do
  let root ← pool.heap[0]?
  Tlforce.dfs pool.nodes targetCh 37 [] root

/-! The three steps, with the sizes of their buffers. -/

def pokerSub (text : List Char) (sm : UInt64) (rnd outSize : Nat) : Except Fault (List Char) :=
  if outSize < text.length then .error (.outOfBounds .out outSize)
  else
    let deckA := fisherYatesShuffle (xor32 sm (0x1111 * UInt64.ofNat rnd)).toUInt64
    let deckB := fisherYatesShuffle (xor32 sm (0x2222 * UInt64.ofNat rnd)).toUInt64
    defined (Tlforce.pokerLoop deckA deckB 0 (sm % 36).toNat text)

def fillRandoms : Nat → Nat → UInt32 → Except Fault (List Nat)
  | 0, _, _ => .ok []
  | left + 1, i, state =>
      if ptLen ≤ i then .error (.outOfBounds .randoms i)
      else do
        let state := lcgNext state
        let rest ← fillRandoms left (i + 1) state
        return (state % 10000).toNat :: rest

def doPermute (text : List Char) (sm : UInt64) (pid outSize : Nat) : Except Fault (List Char) := do
  let n := text.length
  let randoms ← fillRandoms n 0 (xor32 sm (UInt64.ofNat pid * 0x3333))
  if ptLen < n then .error (.outOfBounds .idx ptLen)
  else if outSize < n then .error (.outOfBounds .out outSize)
  else
    let idx := (List.range n).mergeSort fun a b => !(randoms.getD b 0 < randoms.getD a 0)
    defined (idx.mapM fun i => text[i]?)

def encodeLoop (sha : Sha256) : U256 → List Char → Option (List Char)
  | _, [] => some []
  | seed, ch :: rest => do
      let code ← getCode (build (computeScores seed)) (Tlforce.charToIdx ch)
      let next ← updateSeed sha seed ch
      let tail ← encodeLoop sha next rest
      return code ++ tail

def scoreEncode (sha : Sha256) (text key : List Char) (rnd : Nat) : Except Fault (List Char) :=
  defined (encodeLoop sha ⟨0, 0, 0, Tlforce.seedInit key rnd⟩ text)

def encrypt (sha : Sha256) (pt key : List Char) (sm : UInt64) : Except Fault (List Char) := do
  let t1 ← pokerSub pt sm 1 ptLen
  let t2 ← doPermute t1 sm 1 ptLen
  let bits1 ← scoreEncode sha t2 key 1
  let t3 ← pokerSub bits1 sm 2 bits1.length
  let t4 ← doPermute t3 sm 2 bits1.length
  scoreEncode sha t4 key 2

end CudaOpenMp.Eforce
