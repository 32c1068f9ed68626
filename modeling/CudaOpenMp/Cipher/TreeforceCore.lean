import CudaOpenMp.Cipher.Charset

/-!
Executable model of the seed and the two-queue encoder of `treeforce.cpp`, which
`old.cpp` shares. An index outside a vector is `none`.
-/

namespace CudaOpenMp.Treeforce

/-- Eight 32-bit words, the highest first. -/
structure Seed256 where
  data : Vector UInt32 8
  deriving DecidableEq

namespace Seed256

def value (seed : Seed256) : Nat := seed.data.toList.foldl (fun v word => v * 2 ^ 32 + word.toNat) 0

def getMod997 (seed : Seed256) : UInt32 :=
  (seed.data.toList.foldl (fun (rem : UInt64) word => ((rem <<< 32) + word.toUInt64) % 997) 0).toUInt32

/-- Doubling the digits, lowest first, with a carry into the lowest one. -/
def doubleDigits : List UInt32 → UInt64 → List UInt32 × UInt64
  | [], carry => ([], carry)
  | d :: rest, carry =>
      let cur := d.toUInt64 * 2 + carry
      let (digits, last) := doubleDigits rest (cur / 10)
      ((cur % 10).toUInt32 :: digits, last)

def carryDigits (carry : Nat) : List UInt32 :=
  if carry = 0 then [] else (carry % 10).toUInt32 :: carryDigits (carry / 10)
termination_by carry
decreasing_by omega

def addBit (dec : List UInt32) (bit : UInt64) : List UInt32 :=
  let (digits, carry) := doubleDigits dec bit
  digits ++ carryDigits carry.toNat

def wordBits (word : UInt32) : List UInt64 :=
  (List.range 32).reverse.map fun bit => ((word >>> bit.toUInt32) &&& 1).toUInt64

def toDecimalString (seed : Seed256) : List UInt8 :=
  let dec := (seed.data.toList.flatMap wordBits).foldl addBit [0]
  (dec.reverse.flatMap fun d => (toString d).toList).map fun c => c.toNat.toUInt8

def readWord (hash : Vector UInt8 32) (i : Nat) : UInt32 :=
  let byte (k : Nat) : UInt32 := (hash.toList.getD (i * 4 + k) 0).toUInt32
  (byte 0 <<< 24) ||| (byte 1 <<< 16) ||| (byte 2 <<< 8) ||| byte 3

def update (sha : Sha256) (seed : Seed256) (c : Char) : Seed256 :=
  let mixed : Seed256 := ⟨seed.data.set 7 (seed.data[7] ^^^ c.toNat.toUInt8.toUInt32)⟩
  ⟨Vector.ofFn fun i => readWord (sha mixed.toDecimalString) i⟩

end Seed256

structure Node where
  left : Int
  right : Int
  chars : List Char
  deriving DecidableEq, Repr

def nodeIn (nodes : List Node) (idx : Nat) : Node := nodes.getD idx ⟨-1, -1, []⟩

structure Forest where
  tree : List Node
  q1 : List (UInt32 × Nat)
  q2 : List (UInt32 × Nat)
  q1Head : Nat
  q2Head : Nat

def itemLess (a b : UInt32 × List Char) : Bool :=
  if a.1 ≠ b.1 then a.1 < b.1 else a.2 < b.2

def items (seedMod : UInt32) : List (UInt32 × List Char) :=
  charset.zipIdx.map fun (c, i) => ((UInt32.ofNat (i + 1) * seedMod + 17) % 997, [c])

def plant (sorted : List (UInt32 × List Char)) : Forest where
  tree := sorted.map fun item => ⟨-1, -1, item.2⟩
  q1 := sorted.zipIdx.map fun (item, i) => (item.1, i)
  q2 := []
  q1Head := 0
  q2Head := 0

namespace Forest

def popMin (s : Forest) : Option ((UInt32 × Nat) × Forest) :=
  match s.q1[s.q1Head]?, s.q2[s.q2Head]? with
  | some x, some y =>
      if x.1 ≤ y.1 then some (x, { s with q1Head := s.q1Head + 1 })
      else some (y, { s with q2Head := s.q2Head + 1 })
  | some x, none => some (x, { s with q1Head := s.q1Head + 1 })
  | none, some y => some (y, { s with q2Head := s.q2Head + 1 })
  | none, none => none

def waiting (s : Forest) : Nat := (s.q1.length - s.q1Head) + (s.q2.length - s.q2Head)

def mergeOnce (s : Forest) : Option Forest :=
  match s.popMin with
  | none => none
  | some ((wa, na), afterA) =>
      match afterA.popMin with
      | none => none
      | some ((wb, nb), afterB) =>
          let newNode : Node := ⟨na, nb, (nodeIn s.tree na).chars ++ (nodeIn s.tree nb).chars⟩
          some { afterB with
            tree := afterB.tree ++ [newNode]
            q2 := afterB.q2 ++ [(wa + wb, afterB.tree.length)] }

def mergeLoop : Nat → Forest → Option Forest
  | 0, s => if 1 < s.waiting then none else some s
  | rounds + 1, s => if 1 < s.waiting then s.mergeOnce.bind (mergeLoop rounds) else some s

def root (s : Forest) : Option Nat :=
  match s.q1[s.q1Head]? with
  | some x => some x.2
  | none => (s.q2[s.q2Head]?).map Prod.snd

/-- The walk from a node to a leaf, for a given number of steps. -/
def walk (s : Forest) (target : Char) : Nat → Nat → Option (List Char)
  | 0, _ => none
  | steps + 1, curr =>
      let n := nodeIn s.tree curr
      if n.left = -1 then some []
      else if (nodeIn s.tree n.left.toNat).chars.contains target then
        (s.walk target steps n.left.toNat).map ('0' :: ·)
      else (s.walk target steps n.right.toNat).map ('1' :: ·)

end Forest

def encodeCharFast (seed : Seed256) (target : Char) : Option (List Char) := do
  let sorted := (items seed.getMod997).mergeSort fun a b => !itemLess b a
  let forest ← (plant sorted).mergeLoop 36
  let root ← forest.root
  let code ← forest.walk target forest.tree.length root
  return if code.isEmpty then ['0'] else code

end CudaOpenMp.Treeforce

namespace CudaOpenMp.Old

/-- `old.cpp` has the same seed and the same encoder, word for word. -/
def encodeCharFast (seed : Treeforce.Seed256) (target : Char) : Option (List Char) :=
  Treeforce.encodeCharFast seed target

end CudaOpenMp.Old
