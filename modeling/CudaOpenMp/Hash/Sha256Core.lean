import Mathlib.Data.UInt

/-!
Model of the two SHA-256 functions, of `tforce.cpp` and of `brute_force_gpu.cu`. An access outside
the block buffer of 128 bytes is `none`.
-/

namespace CudaOpenMp

namespace BlockBuffer

def write (buf : List UInt8) (i : Nat) (v : UInt8) : Option (List UInt8) :=
  if i < buf.length then some (buf.set i v) else none

/-- Bytes written at rising indices. -/
def store : List UInt8 → Nat → List UInt8 → Option (List UInt8)
  | buf, _, [] => some buf
  | buf, i, v :: rest => do store (← write buf i v) (i + 1) rest

/-- Bytes written at falling indices. -/
def storeDown : List UInt8 → Nat → List UInt8 → Option (List UInt8)
  | buf, _, [] => some buf
  | buf, i, v :: rest => do storeDown (← write buf i v) (i - 1) rest

def readWord (buf : List UInt8) (i : Nat) : Option UInt32 := do
  let b0 ← buf[i]?
  let b1 ← buf[i + 1]?
  let b2 ← buf[i + 2]?
  let b3 ← buf[i + 3]?
  return (b0.toUInt32 <<< 24) ||| (b1.toUInt32 <<< 16) ||| (b2.toUInt32 <<< 8) ||| b3.toUInt32

end BlockBuffer

structure HashWords where
  a : UInt32
  b : UInt32
  c : UInt32
  d : UInt32
  e : UInt32
  f : UInt32
  g : UInt32
  h : UInt32
  deriving DecidableEq, Repr

namespace HashWords

def add (x y : HashWords) : HashWords :=
  ⟨x.a + y.a, x.b + y.b, x.c + y.c, x.d + y.d, x.e + y.e, x.f + y.f, x.g + y.g, x.h + y.h⟩

def toList (x : HashWords) : List UInt32 := [x.a, x.b, x.c, x.d, x.e, x.f, x.g, x.h]

end HashWords

open BlockBuffer

/-! `tforce.cpp` -/

namespace Sha256Impl

def K : List UInt32 := [
  0x428a2f98, 0x71374491, 0xb5c0fbcf, 0xe9b5dba5,
  0x3956c25b, 0x59f111f1, 0x923f82a4, 0xab1c5ed5,
  0xd807aa98, 0x12835b01, 0x243185be, 0x550c7dc3,
  0x72be5d74, 0x80deb1fe, 0x9bdc06a7, 0xc19bf174,
  0xe49b69c1, 0xefbe4786, 0x0fc19dc6, 0x240ca1cc,
  0x2de92c6f, 0x4a7484aa, 0x5cb0a9dc, 0x76f988da,
  0x983e5152, 0xa831c66d, 0xb00327c8, 0xbf597fc7,
  0xc6e00bf3, 0xd5a79147, 0x06ca6351, 0x14292967,
  0x27b70a85, 0x2e1b2138, 0x4d2c6dfc, 0x53380d13,
  0x650a7354, 0x766a0abb, 0x81c2c92e, 0x92722c85,
  0xa2bfe8a1, 0xa81a664b, 0xc24b8b70, 0xc76c51a3,
  0xd192e819, 0xd6990624, 0xf40e3585, 0x106aa070,
  0x19a4c116, 0x1e376c08, 0x2748774c, 0x34b0bcb5,
  0x391c0cb3, 0x4ed8aa4a, 0x5b9cca4f, 0x682e6ff3,
  0x748f82ee, 0x78a5636f, 0x84c87814, 0x8cc70208,
  0x90befffa, 0xa4506ceb, 0xbef9a3f7, 0xc67178f2]

def rotr (x n : UInt32) : UInt32 := (x >>> n) ||| (x <<< (32 - n))

def ch (e f g : UInt32) : UInt32 := (e &&& f) ^^^ (~~~e &&& g)

def maj (a b c : UInt32) : UInt32 := (a &&& b) ^^^ (a &&& c) ^^^ (b &&& c)

def sig0 (a : UInt32) : UInt32 := rotr a 2 ^^^ rotr a 13 ^^^ rotr a 22

def sig1 (e : UInt32) : UInt32 := rotr e 6 ^^^ rotr e 11 ^^^ rotr e 25

def gam0 (x : UInt32) : UInt32 := rotr x 7 ^^^ rotr x 18 ^^^ (x >>> 3)

def gam1 (x : UInt32) : UInt32 := rotr x 17 ^^^ rotr x 19 ^^^ (x >>> 10)

def initial : HashWords :=
  ⟨0x6a09e667, 0xbb67ae85, 0x3c6ef372, 0xa54ff53a, 0x510e527f, 0x9b05688c, 0x1f83d9ab, 0x5be0cd19⟩

/-- The words `w[16]` to `w[63]`, each after those before it. -/
def schedule (w : List UInt32) : List UInt32 :=
  (List.range' 16 48).foldl (fun w i => w ++
    [gam1 (w.getD (i - 2) 0) + w.getD (i - 7) 0 + gam0 (w.getD (i - 15) 0) + w.getD (i - 16) 0]) w

def round (w : List UInt32) (x : HashWords) (i : Nat) : HashWords :=
  let t1 := x.h + sig1 x.e + ch x.e x.f x.g + K.getD i 0 + w.getD i 0
  let t2 := sig0 x.a + maj x.a x.b x.c
  ⟨t1 + t2, x.a, x.b, x.c, x.d + t1, x.e, x.f, x.g⟩

def block (buf : List UInt8) (h : HashWords) (off : Nat) : Option HashWords := do
  let w ← (List.range 16).mapM fun i => readWord buf (off + 4 * i)
  return h.add ((List.range 64).foldl (round (schedule w)) h)

def bytes (word : UInt32) : List UInt8 :=
  [(word >>> 24).toUInt8, (word >>> 16).toUInt8, (word >>> 8).toUInt8, word.toUInt8]

def sha256 (msg : List UInt8) : Option (List UInt8) := do
  let len := msg.length
  let bitLen := UInt64.ofNat len * 8
  let padded := (len + 9 + 63) / 64 * 64
  let buf ← store (List.replicate 128 0) 0 msg
  let buf ← write buf len 0x80
  let buf ← store buf (padded - 8)
    ((List.range 8).map fun i => (bitLen >>> UInt64.ofNat (56 - 8 * i)).toUInt8)
  -- `padded` is a multiple of 64, so the offsets below it are these.
  let h ← ((List.range (padded / 64)).map (64 * ·)).foldlM (block buf) initial
  return h.toList.flatMap bytes

end Sha256Impl

/-! `brute_force_gpu.cu` -/

namespace GpuSha256

def K256 : List UInt32 := [
  0x428a2f98, 0x71374491, 0xb5c0fbcf, 0xe9b5dba5,
  0x3956c25b, 0x59f111f1, 0x923f82a4, 0xab1c5ed5,
  0xd807aa98, 0x12835b01, 0x243185be, 0x550c7dc3,
  0x72be5d74, 0x80deb1fe, 0x9bdc06a7, 0xc19bf174,
  0xe49b69c1, 0xefbe4786, 0x0fc19dc6, 0x240ca1cc,
  0x2de92c6f, 0x4a7484aa, 0x5cb0a9dc, 0x76f988da,
  0x983e5152, 0xa831c66d, 0xb00327c8, 0xbf597fc7,
  0xc6e00bf3, 0xd5a79147, 0x06ca6351, 0x14292967,
  0x27b70a85, 0x2e1b2138, 0x4d2c6dfc, 0x53380d13,
  0x650a7354, 0x766a0abb, 0x81c2c92e, 0x92722c85,
  0xa2bfe8a1, 0xa81a664b, 0xc24b8b70, 0xc76c51a3,
  0xd192e819, 0xd6990624, 0xf40e3585, 0x106aa070,
  0x19a4c116, 0x1e376c08, 0x2748774c, 0x34b0bcb5,
  0x391c0cb3, 0x4ed8aa4a, 0x5b9cca4f, 0x682e6ff3,
  0x748f82ee, 0x78a5636f, 0x84c87814, 0x8cc70208,
  0x90befffa, 0xa4506ceb, 0xbef9a3f7, 0xc67178f2]

def rotr32 (x n : UInt32) : UInt32 := (x >>> n) ||| (x <<< (32 - n))

def ch (e f g : UInt32) : UInt32 := (e &&& f) ^^^ (~~~e &&& g)

def maj (a b c : UInt32) : UInt32 := (a &&& b) ^^^ (a &&& c) ^^^ (b &&& c)

/-- The macro `SIG0`; `sig0` in small letters is another one. -/
def upperSig0 (a : UInt32) : UInt32 := rotr32 a 2 ^^^ rotr32 a 13 ^^^ rotr32 a 22

def upperSig1 (e : UInt32) : UInt32 := rotr32 e 6 ^^^ rotr32 e 11 ^^^ rotr32 e 25

def sig0 (x : UInt32) : UInt32 := rotr32 x 7 ^^^ rotr32 x 18 ^^^ (x >>> 3)

def sig1 (x : UInt32) : UInt32 := rotr32 x 17 ^^^ rotr32 x 19 ^^^ (x >>> 10)

def initial : HashWords :=
  ⟨0x6a09e667, 0xbb67ae85, 0x3c6ef372, 0xa54ff53a, 0x510e527f, 0x9b05688c, 0x1f83d9ab, 0x5be0cd19⟩

def schedule (w : List UInt32) : List UInt32 :=
  (List.range' 16 48).foldl (fun w i => w ++
    [sig1 (w.getD (i - 2) 0) + w.getD (i - 7) 0 + sig0 (w.getD (i - 15) 0) + w.getD (i - 16) 0]) w

def round (w : List UInt32) (x : HashWords) (i : Nat) : HashWords :=
  let t1 := x.h + upperSig1 x.e + ch x.e x.f x.g + K256.getD i 0 + w.getD i 0
  let t2 := upperSig0 x.a + maj x.a x.b x.c
  ⟨t1 + t2, x.a, x.b, x.c, x.d + t1, x.e, x.f, x.g⟩

def block (buf : List UInt8) (hash : HashWords) (blk : Nat) : Option HashWords := do
  let w ← (List.range 16).mapM fun i => readWord buf (blk * 64 + i * 4)
  return hash.add ((List.range 64).foldl (round (schedule w)) hash)

def dSha256 (msg : List UInt8) : Option HashWords := do
  let len := msg.length
  let buf ← store (List.replicate 128 0) 0 msg
  let buf ← write buf len 0x80
  let bitlen := UInt64.ofNat len * 8
  let lengthBytes := (List.range 8).map fun i => (bitlen >>> UInt64.ofNat (8 * i)).toUInt8
  let (totalBlocks, last) := if len < 56 then (1, 63) else (2, 127)
  let buf ← storeDown buf last lengthBytes
  (List.range totalBlocks).foldlM (block buf) initial

end GpuSha256

end CudaOpenMp
