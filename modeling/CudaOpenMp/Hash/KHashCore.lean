import CudaOpenMp.Cipher.Charset
import CudaOpenMp.Library.Interleaving
import CudaOpenMp.Library.ListHeap

/-!
Executable models of the hash in `hash_cpu.cpp` and of the kernel in `hash.cu`, which gives
each thread a slice of one large array. Every access to device memory is an action of its
own.
-/

namespace CudaOpenMp.KHash

open Interleaving

/-- `MEM_SIZE` and `ROUNDS`; the first is a power of two that fits in 64 bits. -/
structure Config where
  exponent : Nat
  exponent_lt : exponent < 64
  rounds : Nat
  rounds_lt : rounds < 2 ^ 31

def Config.memSize (cfg : Config) : UInt64 := UInt64.ofNat (2 ^ cfg.exponent)

def m1 : UInt64 := 6364136223846793005

def a1 : UInt64 := 1442695040888963407

def m2 : UInt64 := 2654435761

def numCoords : Nat := 100

abbrev Memory := UInt64 → UInt64

def Memory.write (mem : Memory) (i value : UInt64) : Memory := Function.update mem i value

/-! `cpu_k_hash`, with the number of iterations left in each loop. -/

def fillLoop : Nat → UInt64 → Memory → Memory
  | 0, _, mem => mem
  | left + 1, i, mem => fillLoop left (i + 1) (mem.write i (mem (i - 1) * m1 + a1))

def mixLoop (memSize : UInt64) : Nat → Nat → UInt64 → Memory → UInt64
  | 0, _, state, _ => state
  | left + 1, r, state, mem =>
      let idx := state % memSize
      let state := state ^^^ mem idx
      let state := state * m2 + UInt64.ofNat r
      mixLoop memSize left (r + 1) state (mem.write idx state)

def shuffleLoop : Nat → UInt64 → List Nat → List Nat
  | 0, _, coords => coords
  | i + 1, s, coords =>
      let s := s * m1 + 1
      let j := (s % UInt64.ofNat (i + 1 + 1)).toNat
      shuffleLoop i s (ListHeap.swap coords (i + 1) j)

def shuffle (state : UInt64) : List Nat := shuffleLoop (numCoords - 1) state (List.range numCoords)

/-- The final `coords`; `garbage` is what `new` returns. -/
def cpuKHash (cfg : Config) (garbage : Memory) (seed : UInt64) : List Nat :=
  let mem := garbage.write 0 seed
  let mem := fillLoop (cfg.memSize.toNat - 1) 1 mem
  shuffle (mixLoop cfg.memSize cfg.rounds 0 seed mem)

/-! `k_hash_kernel`. -/

/-- The words of `d_big_mem` are found by their distance in bytes from its start. -/
structure Device where
  bigMem : Memory
  results : Int → Int

inductive Stage where
  | enter
  | first (seed : UInt64)
  | fillRead (seed i : UInt64)
  | fillWrite (seed i value : UInt64)
  | mixRead (r : Nat) (state : UInt64)
  | mixWrite (r : Nat) (idx state : UInt64)
  | copy (i : Nat) (coords : List Nat)
  | done

/-- The distance of `my_mem[i]` from `d_big_mem`; addresses wrap at `2 ^ 64` bytes. -/
def slot (cfg : Config) (tid : Nat) (i : UInt64) : UInt64 := 8 * (UInt64.ofNat tid * cfg.memSize + i)

/-- The size that `main` hands to `cudaMalloc` for `d_big_mem`. -/
def allocated (cfg : Config) (n : Nat) : UInt64 := UInt64.ofNat n * cfg.memSize * 8

def step (cfg : Config) (n : Nat) (seeds : Nat → UInt64) (tid : Nat) (g : Device) :
    Stage → Option (Device × Stage)
  | .enter => if n ≤ tid then some (g, .done) else some (g, .first (seeds tid))
  | .first seed => some ({ g with bigMem := g.bigMem.write (slot cfg tid 0) seed }, .fillRead seed 1)
  | .fillRead seed i =>
      if i < cfg.memSize then
        some (g, .fillWrite seed i (g.bigMem (slot cfg tid (i - 1)) * m1 + a1))
      else some (g, .mixRead 0 seed)
  | .fillWrite seed i value =>
      some ({ g with bigMem := g.bigMem.write (slot cfg tid i) value }, .fillRead seed (i + 1))
  | .mixRead r state =>
      if r < cfg.rounds then
        let idx := state &&& (cfg.memSize - 1)
        let state := state ^^^ g.bigMem (slot cfg tid idx)
        some (g, .mixWrite r idx (state * m2 + UInt64.ofNat r))
      else some (g, .copy 0 (shuffle state))
  | .mixWrite r idx state =>
      some ({ g with bigMem := g.bigMem.write (slot cfg tid idx) state }, .mixRead (r + 1) state)
  | .copy i coords =>
      if i < 78 then do
        let row ← int32 (tid * 78)
        let place ← int32 (row + i)
        let coord ← coords[i]?
        return ({ g with results := Function.update g.results place coord }, .copy (i + 1) coords)
      else some (g, .done)
  | .done => none

/-- Where in `d_big_mem` the next action of a thread reads or writes a word. -/
def touched (cfg : Config) (tid : Nat) : Stage → Option UInt64
  | .first _ => some (slot cfg tid 0)
  | .fillRead _ i => if i < cfg.memSize then some (slot cfg tid (i - 1)) else none
  | .fillWrite _ i _ => some (slot cfg tid i)
  | .mixRead r state =>
      if r < cfg.rounds then some (slot cfg tid (state &&& (cfg.memSize - 1))) else none
  | .mixWrite _ idx _ => some (slot cfg tid idx)
  | .enter | .copy _ _ | .done => none

def threads : Nat := 256

def blocks (n : Nat) : Nat := (n + threads - 1) / threads

abbrev Place (n : Nat) := Fin (blocks n) × Fin threads

def Place.tid {n : Nat} (place : Place n) : Nat := place.1 * threads + place.2

def act (cfg : Config) {n : Nat} (seeds : Nat → UInt64) : Action (Place n) Device Stage :=
  fun place g t g' t' => step cfg n seeds (Place.tid place) g t = some (g', t')

def launch (n : Nat) (g : Device) : State (Place n) Device Stage := ⟨g, fun _ => .enter⟩

end CudaOpenMp.KHash
