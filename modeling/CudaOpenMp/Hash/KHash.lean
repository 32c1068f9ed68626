import CudaOpenMp.Hash.KHashCore
import Mathlib.Data.Fintype.Prod

/-!
Each thread of the kernel computes what the sequential hash computes from its seed, as
long as the slices together are no larger than the address space.
-/

namespace CudaOpenMp.KHash

open Interleaving

variable (cfg : Config)

@[simp] theorem Config.memSize_toNat : cfg.memSize.toNat = 2 ^ cfg.exponent := by
  rw [Config.memSize, UInt64.toNat_ofNat']
  exact Nat.mod_eq_of_lt (Nat.pow_lt_pow_right (by decide) cfg.exponent_lt)

theorem Config.memSize_pos : 0 < cfg.memSize.toNat := by
  rw [cfg.memSize_toNat]
  exact Nat.two_pow_pos _

theorem Config.memSize_le : cfg.memSize.toNat ≤ 2 ^ 63 := by
  rw [cfg.memSize_toNat]
  exact Nat.pow_le_pow_right (by decide) (Nat.le_of_lt_succ cfg.exponent_lt)

theorem Config.mask_eq_mod (x : UInt64) : x &&& (cfg.memSize - 1) = x % cfg.memSize := by
  have positive := cfg.memSize_pos
  have one : (1 : UInt64) ≤ cfg.memSize := UInt64.le_iff_toNat_le.mpr positive
  have mask : (cfg.memSize - 1).toNat = 2 ^ cfg.exponent - 1 := by
    rw [UInt64.toNat_sub_of_le _ _ one, cfg.memSize_toNat]
    rfl
  apply UInt64.toNat_inj.mp
  rw [UInt64.toNat_and, mask, Nat.and_two_pow_sub_one_eq_mod, UInt64.toNat_mod, cfg.memSize_toNat]

theorem Config.mod_lt (x : UInt64) : (x % cfg.memSize).toNat < cfg.memSize.toNat := by
  rw [UInt64.toNat_mod]
  exact Nat.mod_lt _ cfg.memSize_pos

def fillValue (seed : UInt64) : Nat → UInt64
  | 0 => seed
  | i + 1 => fillValue seed i * m1 + a1

def mixState (seed : UInt64) : Nat → UInt64 × (Nat → UInt64)
  | 0 => (seed, fillValue seed)
  | r + 1 =>
      let (state, mem) := mixState seed r
      let idx := (state % cfg.memSize).toNat
      let next := (state ^^^ mem idx) * m2 + UInt64.ofNat r
      (next, Function.update mem idx next)

theorem mixState_zero (seed : UInt64) : mixState cfg seed 0 = (seed, fillValue seed) := rfl

def coordsOf (seed : UInt64) : List Nat := shuffle (mixState cfg seed cfg.rounds).1

/-- A memory holds the given values at the indices below a bound. -/
def Filled (mem : Memory) (values : Nat → UInt64) (bound : Nat) : Prop :=
  ∀ j : UInt64, j.toNat < bound → mem j = values j.toNat

theorem Filled.push {mem : Memory} {values : Nat → UInt64} {i : UInt64}
    (filled : Filled mem values i.toNat) : Filled (mem.write i (values i.toNat)) values (i.toNat + 1) := by
  intro j below
  by_cases same : j = i
  · rw [same, Memory.write, Function.update_self]
  · have other : j.toNat ≠ i.toNat := fun equal => same (UInt64.toNat_inj.mp equal)
    rw [Memory.write, Function.update_of_ne same]
    exact filled j (by omega)

theorem Filled.write {mem : Memory} {values : Nat → UInt64} {bound : Nat}
    (filled : Filled mem values bound) (i value : UInt64) :
    Filled (mem.write i value) (Function.update values i.toNat value) bound := by
  intro j below
  by_cases same : j = i
  · rw [same, Memory.write, Function.update_self, Function.update_self]
  · have other : j.toNat ≠ i.toNat := fun equal => same (UInt64.toNat_inj.mp equal)
    rw [Memory.write, Function.update_of_ne same, Function.update_of_ne other]
    exact filled j below

theorem fill_next {mem : Memory} {seed i : UInt64} (positive : 1 ≤ i.toNat)
    (filled : Filled mem (fillValue seed) i.toNat) :
    mem (i - 1) * m1 + a1 = fillValue seed i.toNat := by
  have previous : (i - 1).toNat = i.toNat - 1 :=
    UInt64.toNat_sub_of_le _ _ (UInt64.le_iff_toNat_le.mpr positive)
  obtain ⟨k, next⟩ : ∃ k, i.toNat = k + 1 := ⟨i.toNat - 1, by omega⟩
  rw [filled (i - 1) (by omega), previous, next]
  rfl

theorem mix_next {mem : Memory} {seed : UInt64} {r : Nat}
    (filled : Filled mem (mixState cfg seed r).2 cfg.memSize.toNat) :
    ((mixState cfg seed r).1 ^^^ mem ((mixState cfg seed r).1 % cfg.memSize)) * m2 + UInt64.ofNat r =
      (mixState cfg seed (r + 1)).1 := by
  rw [filled _ (cfg.mod_lt _)]
  rfl

theorem mixState_write {mem : Memory} {seed : UInt64} {r : Nat}
    (filled : Filled mem (mixState cfg seed r).2 cfg.memSize.toNat) :
    Filled (mem.write ((mixState cfg seed r).1 % cfg.memSize) (mixState cfg seed (r + 1)).1)
      (mixState cfg seed (r + 1)).2 cfg.memSize.toNat :=
  filled.write _ _

theorem fillLoop_filled {left : Nat} {i seed : UInt64} {mem : Memory} (positive : 1 ≤ i.toNat)
    (size : i.toNat + left = cfg.memSize.toNat) (filled : Filled mem (fillValue seed) i.toNat) :
    Filled (fillLoop left i mem) (fillValue seed) cfg.memSize.toNat := by
  induction left generalizing i mem with
  | zero =>
      rw [Nat.add_zero] at size
      rw [← size]
      exact filled
  | succ left ih =>
      have bound := cfg.memSize_le
      have next : (i + 1).toNat = i.toNat + 1 := toNat_succ (by omega)
      rw [fillLoop, fill_next positive filled]
      apply ih
      · omega
      · omega
      · rw [next]
        exact filled.push

theorem mixLoop_eq {left r : Nat} {seed : UInt64} {mem : Memory}
    (filled : Filled mem (mixState cfg seed r).2 cfg.memSize.toNat) :
    mixLoop cfg.memSize left r (mixState cfg seed r).1 mem = (mixState cfg seed (r + left)).1 := by
  induction left generalizing r mem with
  | zero => rfl
  | succ left ih =>
      simp only [mixLoop, mix_next cfg filled]
      rw [ih (mixState_write cfg filled), Nat.add_right_comm, Nat.add_assoc]

theorem cpuKHash_eq (garbage : Memory) (seed : UInt64) :
    cpuKHash cfg garbage seed = coordsOf cfg seed := by
  have positive := cfg.memSize_pos
  have start : Filled (garbage.write 0 seed) (fillValue seed) (1 : UInt64).toNat := by
    intro j below
    have zero : j = 0 := UInt64.toNat_inj.mp (Nat.lt_one_iff.mp below)
    rw [zero, Memory.write, Function.update_self]
    rfl
  have filled := @fillLoop_filled cfg (cfg.memSize.toNat - 1) 1 seed _ (Nat.le_refl 1)
    (by change 1 + (cfg.memSize.toNat - 1) = _; omega) start
  have mixed := @mixLoop_eq cfg cfg.rounds 0 seed _ filled
  rw [Nat.zero_add] at mixed
  simp only [cpuKHash, coordsOf]
  rw [← mixed]
  rfl

theorem shuffleLoop_perm (i : Nat) (s : UInt64) (coords : List Nat) :
    (shuffleLoop i s coords).Perm coords := by
  induction i generalizing s coords with
  | zero => exact List.Perm.refl _
  | succ i ih => exact (ih _ _).trans (ListHeap.swap_perm coords _ _)

theorem coordsOf_perm (seed : UInt64) : (coordsOf cfg seed).Perm (List.range 100) :=
  shuffleLoop_perm _ _ _

def slice (tid : Nat) (g : Device) : Memory := fun j => g.bigMem (slot cfg tid j)

theorem slice_apply (tid : Nat) (g : Device) (j : UInt64) :
    slice cfg tid g j = g.bigMem (slot cfg tid j) := rfl

section
variable {cfg} {n : Nat} (room : 8 * (n * cfg.memSize.toNat) ≤ 2 ^ 64)
include room

theorem slot_toNat {tid : Nat} (below : tid < n) {i : UInt64} (inside : i.toNat < cfg.memSize.toNat) :
    (slot cfg tid i).toNat = 8 * (tid * cfg.memSize.toNat + i.toNat) := by
  have positive := cfg.memSize_pos
  have next : (tid + 1) * cfg.memSize.toNat ≤ n * cfg.memSize.toNat := Nat.mul_le_mul_right _ below
  rw [Nat.succ_mul] at next
  have few : tid ≤ tid * cfg.memSize.toNat := Nat.le_mul_of_pos_right tid positive
  have index : (UInt64.ofNat tid).toNat = tid :=
    UInt64.toNat_ofNat_of_lt' (show tid < 2 ^ 64 by omega)
  have start : tid * cfg.memSize.toNat % 2 ^ 64 = tid * cfg.memSize.toNat :=
    Nat.mod_eq_of_lt (by omega)
  have element : (tid * cfg.memSize.toNat + i.toNat) % 2 ^ 64 = tid * cfg.memSize.toNat + i.toNat :=
    Nat.mod_eq_of_lt (by omega)
  rw [slot, UInt64.toNat_mul, UInt64.toNat_add, UInt64.toNat_mul, index, start, element]
  exact Nat.mod_eq_of_lt (by change 8 * _ < _; omega)

theorem slot_inj {tid : Nat} (below : tid < n) {i j : UInt64} (inside : i.toNat < cfg.memSize.toNat)
    (otherInside : j.toNat < cfg.memSize.toNat) (same : slot cfg tid i = slot cfg tid j) : i = j := by
  have places := congrArg UInt64.toNat same
  rw [slot_toNat room below inside, slot_toNat room below otherInside] at places
  exact UInt64.toNat_inj.mp (by omega)

theorem slice_write {tid : Nat} (below : tid < n) (g : Device) {i : UInt64}
    (inside : i.toNat < cfg.memSize.toNat) (value : UInt64) {j : UInt64}
    (otherInside : j.toNat < cfg.memSize.toNat) :
    slice cfg tid { g with bigMem := g.bigMem.write (slot cfg tid i) value } j =
      (slice cfg tid g).write i value j := by
  by_cases same : j = i
  · simp [slice, Memory.write, same]
  · have apart : slot cfg tid j ≠ slot cfg tid i := fun equal =>
      same (slot_inj room below otherInside inside equal)
    simp [slice, Memory.write, same, apart]

theorem slot_apart {tid other : Nat} (below : tid < n) (otherBelow : other < n)
    (different : tid ≠ other) {i j : UInt64} (inside : i.toNat < cfg.memSize.toNat)
    (otherInside : j.toNat < cfg.memSize.toNat) : slot cfg tid i ≠ slot cfg other j := by
  intro same
  have places := congrArg UInt64.toNat same
  rw [slot_toNat room below inside, slot_toNat room otherBelow otherInside] at places
  rcases Nat.lt_or_gt_of_ne different with earlier | later
  · have gap := Nat.mul_le_mul_right cfg.memSize.toNat earlier
    rw [Nat.succ_mul] at gap
    omega
  · have gap := Nat.mul_le_mul_right cfg.memSize.toNat later
    rw [Nat.succ_mul] at gap
    omega

end

/-! What a thread knows at each place, in terms of its slice and its row. -/

def rowHolds (cfg : Config) (seed : UInt64) (tid : Nat) (results : Int → Int) (bound : Nat) : Prop :=
  ∀ k < bound, results (tid * 78 + k : Nat) = ((coordsOf cfg seed).getD k 0 : Nat)

def Stage.Holds (n tid : Nat) (seed : UInt64) (g : Device) : Stage → Prop
  | .enter => True
  | .first value => tid < n ∧ value = seed
  | .fillRead value i => tid < n ∧ value = seed ∧ 1 ≤ i.toNat ∧ i.toNat ≤ cfg.memSize.toNat ∧
      Filled (slice cfg tid g) (fillValue seed) i.toNat
  | .fillWrite value i next => tid < n ∧ value = seed ∧ 1 ≤ i.toNat ∧ i.toNat < cfg.memSize.toNat ∧
      next = fillValue seed i.toNat ∧ Filled (slice cfg tid g) (fillValue seed) i.toNat
  | .mixRead r state => tid < n ∧ r ≤ cfg.rounds ∧ state = (mixState cfg seed r).1 ∧
      Filled (slice cfg tid g) (mixState cfg seed r).2 cfg.memSize.toNat
  | .mixWrite r idx state => tid < n ∧ r < cfg.rounds ∧
      idx = (mixState cfg seed r).1 % cfg.memSize ∧ state = (mixState cfg seed (r + 1)).1 ∧
      Filled (slice cfg tid g) (mixState cfg seed r).2 cfg.memSize.toNat
  | .copy i coords => tid < n ∧ i ≤ 78 ∧ coords = coordsOf cfg seed ∧
      rowHolds cfg seed tid g.results i
  | .done => tid < n → rowHolds cfg seed tid g.results 78

/-- The row of another thread and the other slices stay as they are. -/
structure Frame (n tid : Nat) (g g' : Device) : Prop where
  slices : ∀ other, other < n → other ≠ tid → ∀ j : UInt64, j.toNat < cfg.memSize.toNat →
    slice cfg other g' j = slice cfg other g j
  rows : ∀ other, other ≠ tid → ∀ k < 78,
    g'.results (other * 78 + k : Nat) = g.results (other * 78 + k : Nat)

theorem Frame.same (n tid : Nat) (g : Device) : Frame cfg n tid g g :=
  ⟨fun _ _ _ _ _ => rfl, fun _ _ _ _ => rfl⟩

theorem Frame.write {n tid : Nat} (room : 8 * (n * cfg.memSize.toNat) ≤ 2 ^ 64) (below : tid < n)
    (g : Device) {i : UInt64} (inside : i.toNat < cfg.memSize.toNat) (value : UInt64) :
    Frame cfg n tid g { g with bigMem := g.bigMem.write (slot cfg tid i) value } := by
  refine ⟨?_, fun _ _ _ _ => rfl⟩
  intro other otherBelow different j otherInside
  have apart := slot_apart room otherBelow below different otherInside inside
  simp [slice, Memory.write, apart]

theorem Filled.congr {mem other : Memory} {values : Nat → UInt64} {bound : Nat}
    (filled : Filled mem values bound) (same : ∀ j : UInt64, j.toNat < bound → other j = mem j) :
    Filled other values bound := by
  intro j below
  rw [same j below]
  exact filled j below

theorem Frame.holds {n tid other : Nat} {g g' : Device} {seed : UInt64} {t : Stage}
    (frame : Frame cfg n tid g g') (different : other ≠ tid)
    (held : t.Holds cfg n other seed g) : t.Holds cfg n other seed g' := by
  have row {bound : Nat} (small : bound ≤ 78) (rows : rowHolds cfg seed other g.results bound) :
      rowHolds cfg seed other g'.results bound := by
    intro k below
    rw [frame.rows other different k (by omega)]
    exact rows k below
  cases t with
  | enter => trivial
  | first value => exact held
  | fillRead value i =>
      obtain ⟨below, same, low, high, filled⟩ := held
      exact ⟨below, same, low, high,
        filled.congr fun j inside => frame.slices other below different j (by omega)⟩
  | fillWrite value i next =>
      obtain ⟨below, same, low, high, known, filled⟩ := held
      exact ⟨below, same, low, high, known,
        filled.congr fun j inside => frame.slices other below different j (by omega)⟩
  | mixRead r state =>
      obtain ⟨below, few, known, filled⟩ := held
      exact ⟨below, few, known, filled.congr (frame.slices other below different)⟩
  | mixWrite r idx state =>
      obtain ⟨below, few, place, known, filled⟩ := held
      exact ⟨below, few, place, known, filled.congr (frame.slices other below different)⟩
  | copy i coords =>
      obtain ⟨below, few, known, rows⟩ := held
      exact ⟨below, few, known, row few rows⟩
  | done => exact fun below => row (Nat.le_refl 78) (held below)

theorem coordsOf_getElem? (seed : UInt64) {k : Nat} (bound : k < 100) :
    (coordsOf cfg seed)[k]? = some ((coordsOf cfg seed).getD k 0) := by
  have size := (coordsOf_perm cfg seed).length_eq
  rw [List.length_range] at size
  have inside : k < (coordsOf cfg seed).length := by omega
  rw [List.getD_eq_getElem?_getD, List.getElem?_eq_getElem inside, Option.getD_some]

def Device.writeRow (g : Device) (tid i coord : Nat) : Device :=
  ⟨g.bigMem, Function.update g.results (tid * 78 + i : Nat) coord⟩

theorem rowHolds_write {n tid i : Nat} {g : Device} {seed : UInt64}
    (row : rowHolds cfg seed tid g.results i) (more : i < 78) :
    rowHolds cfg seed tid (g.writeRow tid i ((coordsOf cfg seed).getD i 0)).results (i + 1) ∧
      Frame cfg n tid g (g.writeRow tid i ((coordsOf cfg seed).getD i 0)) := by
  constructor
  · intro k small
    by_cases last : k = i
    · simp only [last, Device.writeRow, Function.update_self]
    · have apart : ((tid * 78 + k : Nat) : Int) ≠ ((tid * 78 + i : Nat) : Int) := by omega
      simp only [Device.writeRow, Function.update_of_ne apart]
      exact row k (by omega)
  · refine ⟨fun _ _ _ _ _ => rfl, ?_⟩
    intro other different k small
    have apart : ((other * 78 + k : Nat) : Int) ≠ ((tid * 78 + i : Nat) : Int) := by omega
    exact Function.update_of_ne apart _ _

theorem step_copy {n : Nat} (rows : 78 * n < 2 ^ 31) (seeds : Nat → UInt64) {tid i : Nat}
    (g : Device) (below : tid < n) (more : i < 78) (seed : UInt64) :
    step cfg n seeds tid g (.copy i (coordsOf cfg seed)) =
      some (g.writeRow tid i ((coordsOf cfg seed).getD i 0), .copy (i + 1) (coordsOf cfg seed)) := by
  have row : int32 ((tid : Int) * 78) = some ((tid * 78 : Nat) : Int) := by
    rw [← int32_natCast (show tid * 78 < 2 ^ 31 by omega)]
    simp
  have place : int32 (((tid * 78 : Nat) : Int) + (i : Int)) = some ((tid * 78 + i : Nat) : Int) := by
    rw [← int32_natCast (show tid * 78 + i < 2 ^ 31 by omega)]
    simp
  simp only [step, if_pos more, row, place, coordsOf_getElem? cfg seed (show i < 100 by omega),
    Option.bind_eq_bind, Option.bind_some, Option.pure_def, Device.writeRow]

theorem step_holds {n : Nat} (room : 8 * (n * cfg.memSize.toNat) ≤ 2 ^ 64) (rows : 78 * n < 2 ^ 31)
    {seeds : Nat → UInt64} {tid : Nat} {g g' : Device} {t t' : Stage}
    (acted : step cfg n seeds tid g t = some (g', t')) (held : t.Holds cfg n tid (seeds tid) g) :
    t'.Holds cfg n tid (seeds tid) g' ∧ Frame cfg n tid g g' := by
  have memBound := cfg.memSize_le
  have memPos := cfg.memSize_pos
  cases t with
  | enter =>
      simp only [step] at acted
      split at acted
      · next beyond =>
        cases acted
        exact ⟨fun below => absurd below (Nat.not_lt.mpr beyond), Frame.same cfg n tid g⟩
      · next within =>
        cases acted
        exact ⟨⟨Nat.lt_of_not_le within, rfl⟩, Frame.same cfg n tid g⟩
  | first value =>
      obtain ⟨below, rfl⟩ := held
      simp only [step] at acted
      cases acted
      have zeroInside : (0 : UInt64).toNat < cfg.memSize.toNat := memPos
      refine ⟨⟨below, rfl, Nat.le_refl 1, memPos, ?_⟩, Frame.write cfg room below g zeroInside _⟩
      intro j inside
      rw [slice_write room below g zeroInside _ (by change j.toNat < 1 at inside; omega)]
      have zero : j = 0 := UInt64.toNat_inj.mp (Nat.lt_one_iff.mp inside)
      rw [zero, Memory.write, Function.update_self]
      rfl
  | fillRead value i =>
      obtain ⟨below, rfl, low, high, filled⟩ := held
      simp only [step, UInt64.lt_iff_toNat_lt] at acted
      split at acted
      · next inside =>
        cases acted
        have next := fill_next low filled
        rw [slice_apply] at next
        exact ⟨⟨below, rfl, low, inside, next, filled⟩, Frame.same cfg n tid g⟩
      · next outside =>
        cases acted
        have whole : i.toNat = cfg.memSize.toNat := by omega
        rw [whole] at filled
        refine ⟨⟨below, Nat.zero_le _, ?_, ?_⟩, Frame.same cfg n tid g⟩
        · rw [mixState_zero]
        · rw [mixState_zero]
          exact filled
  | fillWrite value i next =>
      obtain ⟨below, rfl, low, high, rfl, filled⟩ := held
      simp only [step] at acted
      cases acted
      have after : (i + 1).toNat = i.toNat + 1 := toNat_succ (by omega)
      refine ⟨⟨below, rfl, by omega, by omega, ?_⟩, Frame.write cfg room below g high _⟩
      rw [after]
      exact filled.push.congr fun j inside => slice_write room below g high _ (by omega)
  | mixRead r state =>
      obtain ⟨below, few, rfl, filled⟩ := held
      simp only [step, cfg.mask_eq_mod] at acted
      split at acted
      · next more =>
        cases acted
        have next := mix_next cfg filled
        rw [slice_apply] at next
        exact ⟨⟨below, more, rfl, next, filled⟩, Frame.same cfg n tid g⟩
      · next beyond =>
        cases acted
        have last : r = cfg.rounds := by omega
        refine ⟨⟨below, Nat.zero_le _, by rw [last, coordsOf], ?_⟩, Frame.same cfg n tid g⟩
        intro k none
        omega
  | mixWrite r idx state =>
      obtain ⟨below, more, rfl, rfl, filled⟩ := held
      simp only [step] at acted
      cases acted
      refine ⟨⟨below, more, rfl, ?_⟩, Frame.write cfg room below g (cfg.mod_lt _) _⟩
      exact (mixState_write cfg filled).congr fun j inside =>
        slice_write room below g (cfg.mod_lt _) _ inside
  | copy i coords =>
      obtain ⟨below, few, known, done⟩ := held
      rw [known] at acted
      by_cases more : i < 78
      · rw [step_copy cfg rows seeds g below more] at acted
        cases acted
        obtain ⟨longer, frame⟩ := @rowHolds_write cfg n tid i g (seeds tid) done more
        exact ⟨⟨below, more, rfl, longer⟩, frame⟩
      · have whole : i = 78 := by omega
        simp only [step, if_neg more] at acted
        cases acted
        rw [whole] at done
        exact ⟨fun _ => done, Frame.same cfg n tid g⟩
  | done => cases acted

/-! Every order of the threads. -/

theorem tid_inj {n : Nat} {first second : Place n} (same : Place.tid first = Place.tid second) :
    first = second := by
  have low := first.2.isLt
  have otherLow := second.2.isLt
  simp only [Place.tid, threads] at same low otherLow
  have block : first.1.val = second.1.val := by omega
  have thread : first.2.val = second.2.val := by omega
  exact Prod.ext (Fin.ext block) (Fin.ext thread)

section
variable {cfg} {n : Nat} (room : 8 * (n * cfg.memSize.toNat) ≤ 2 ^ 64) (rows : 78 * n < 2 ^ 31)
  {seeds : Nat → UInt64}
include room rows

theorem stable : Stable (act cfg seeds) fun (place : Place n) g t =>
    t.Holds cfg n (Place.tid place) (seeds (Place.tid place)) g where
  own := fun _ _ _ _ _ acted held => (step_holds cfg room rows acted held).1
  others := by
    intro place other g t g' t' m different acted held otherHeld
    have apart : Place.tid other ≠ Place.tid place := fun same =>
      different (tid_inj same.symm)
    exact (step_holds cfg room rows acted held).2.holds cfg apart otherHeld

theorem run_holds {g : Device} {s : State (Place n) Device Stage}
    (run : Run (act cfg seeds) (launch n g) s) (place : Place n) :
    (s.locals place).Holds cfg n (Place.tid place) (seeds (Place.tid place)) s.shared :=
  (stable room rows).run run (fun _ => trivial) place

end

theorem touched_inside {cfg : Config} {n tid : Nat} (room : 8 * (n * cfg.memSize.toNat) ≤ 2 ^ 64)
    {seed : UInt64} {g : Device} {t : Stage} (held : t.Holds cfg n tid seed g) {a : UInt64}
    (touches : touched cfg tid t = some a) :
    8 * (tid * cfg.memSize.toNat) ≤ a.toNat ∧
      a.toNat + 8 ≤ 8 * ((tid + 1) * cfg.memSize.toNat) := by
  have inside {i : UInt64} (below : tid < n) (small : i.toNat < cfg.memSize.toNat)
      (found : slot cfg tid i = a) : 8 * (tid * cfg.memSize.toNat) ≤ a.toNat ∧
      a.toNat + 8 ≤ 8 * ((tid + 1) * cfg.memSize.toNat) := by
    rw [← found, slot_toNat room below small, Nat.succ_mul tid]
    omega
  cases t with
  | enter => cases touches
  | first value =>
      have zeroInside : (0 : UInt64).toNat < cfg.memSize.toNat := cfg.memSize_pos
      exact inside held.1 zeroInside (Option.some.inj touches)
  | fillRead value i =>
      obtain ⟨below, _, low, high, _⟩ := held
      simp only [touched] at touches
      split at touches
      · next more =>
        have previous : (i - 1).toNat = i.toNat - 1 :=
          UInt64.toNat_sub_of_le _ _ (UInt64.le_iff_toNat_le.mpr low)
        exact inside below (by rw [previous]; omega) (Option.some.inj touches)
      · cases touches
  | fillWrite value i next => exact inside held.1 held.2.2.2.1 (Option.some.inj touches)
  | mixRead r state =>
      simp only [touched, cfg.mask_eq_mod] at touches
      split at touches
      · exact inside held.1 (cfg.mod_lt _) (Option.some.inj touches)
      · cases touches
  | mixWrite r idx state =>
      obtain ⟨below, _, rfl, _⟩ := held
      exact inside below (cfg.mod_lt _) (Option.some.inj touches)
  | copy i coords => cases touches
  | done => cases touches

theorem exists_place {n tid : Nat} (below : tid < n) : ∃ place : Place n, Place.tid place = tid := by
  have block : tid / threads < blocks n := by
    simp only [threads, blocks]
    omega
  exact ⟨(⟨_, block⟩, ⟨_, Nat.mod_lt tid (by decide)⟩), Nat.div_add_mod' tid threads⟩

def row (g : Device) (tid : Nat) : List Int := (List.range 78).map fun k => g.results (tid * 78 + k : Nat)

theorem map_getD_range (coords : List Nat) {count : Nat} (enough : count ≤ coords.length) :
    (List.range count).map (fun k => coords.getD k 0) = coords.take count := by
  apply List.ext_getElem
  · simp [enough]
  · intro k low high
    have inside : k < coords.length := by
      rw [List.length_take] at high
      omega
    simp [List.getD_eq_getElem?_getD, List.getElem?_eq_getElem inside]

theorem row_eq {tid : Nat} {seed : UInt64} {g : Device} (held : rowHolds cfg seed tid g.results 78) :
    row g tid = ((coordsOf cfg seed).take 78).map Int.ofNat := by
  have size := (coordsOf_perm cfg seed).length_eq
  rw [List.length_range] at size
  rw [← map_getD_range _ (by omega), row, List.map_map]
  apply List.map_congr_left
  intro k member
  exact held k (List.mem_range.mp member)

/-- Each thread stays in its slice, and its row is what the sequential hash puts first. -/
theorem kernel_eq_cpuKHash (cfg : Config) {n : Nat} (room : 8 * (n * cfg.memSize.toNat) ≤ 2 ^ 64)
    (rows : 78 * n < 2 ^ 31) {seeds : Nat → UInt64} {g : Device}
    {s : State (Place n) Device Stage} (run : Run (act cfg seeds) (launch n g) s) :
    (∀ (place : Place n) (a : UInt64), touched cfg (Place.tid place) (s.locals place) = some a →
      8 * (Place.tid place * cfg.memSize.toNat) ≤ a.toNat ∧
        a.toNat + 8 ≤ 8 * ((Place.tid place + 1) * cfg.memSize.toNat)) ∧
      ((∀ place, s.locals place = .done) → ∀ tid < n,
        (∀ garbage, row s.shared tid =
          ((cpuKHash cfg garbage (seeds tid)).take 78).map Int.ofNat) ∧
        (row s.shared tid).Nodup ∧ ∀ coord ∈ row s.shared tid, 0 ≤ coord ∧ coord ≤ 99) := by
  constructor
  · intro place a touches
    exact touched_inside room (run_holds room rows run place) touches
  · intro done tid below
    obtain ⟨place, rfl⟩ := exists_place below
    have held := run_holds room rows run place
    rw [done place] at held
    have whole := row_eq cfg (held below)
    have perm := coordsOf_perm cfg (seeds (Place.tid place))
    have distinct := perm.symm.nodup List.nodup_range
    refine ⟨fun garbage => by rw [cpuKHash_eq, whole], ?_, ?_⟩
    · rw [whole]
      exact (distinct.sublist (List.take_sublist 78 _)).map fun _ _ => Int.ofNat.inj
    · intro coord member
      rw [whole] at member
      obtain ⟨value, listed, rfl⟩ := List.mem_map.mp member
      have small := List.mem_range.mp (perm.subset (List.mem_of_mem_take listed))
      simp only [Int.ofNat_eq_natCast]
      omega

/-! A schedule that lets every thread finish. -/

def Stage.rank (cfg : Config) : Stage → Nat
  | .enter => 2 * cfg.memSize.toNat + 2 * cfg.rounds + 85
  | .first _ => 2 * cfg.memSize.toNat + 2 * cfg.rounds + 84
  | .fillRead _ i => 2 * (cfg.memSize.toNat - i.toNat) + 2 * cfg.rounds + 83
  | .fillWrite _ i _ => 2 * (cfg.memSize.toNat - i.toNat) + 2 * cfg.rounds + 82
  | .mixRead r _ => 2 * (cfg.rounds - r) + 81
  | .mixWrite r _ _ => 2 * (cfg.rounds - r) + 80
  | .copy i _ => 79 - i
  | .done => 0

theorem step_enabled {n tid : Nat} (rows : 78 * n < 2 ^ 31) {seeds : Nat → UInt64} {g : Device}
    {t : Stage} (held : t.Holds cfg n tid (seeds tid) g) :
    t = .done ∨ ∃ g' t', step cfg n seeds tid g t = some (g', t') ∧ t'.rank cfg < t.rank cfg := by
  have memBound := cfg.memSize_le
  cases t with
  | enter =>
      right
      by_cases beyond : n ≤ tid
      · exact ⟨g, .done, by simp [step, beyond], by simp [Stage.rank]⟩
      · exact ⟨g, .first (seeds tid), by simp [step, beyond], by simp [Stage.rank]⟩
  | first value =>
      right
      refine ⟨_, _, rfl, ?_⟩
      simp only [Stage.rank, UInt64.toNat_one]
      omega
  | fillRead value i =>
      right
      by_cases more : i < cfg.memSize
      · exact ⟨_, _, if_pos more, by simp [Stage.rank]⟩
      · exact ⟨_, _, if_neg more, by simp only [Stage.rank]; omega⟩
  | fillWrite value i next =>
      right
      have high := held.2.2.2.1
      have after : (i + 1).toNat = i.toNat + 1 := toNat_succ (by omega)
      refine ⟨_, _, rfl, ?_⟩
      simp only [Stage.rank, after]
      omega
  | mixRead r state =>
      right
      by_cases more : r < cfg.rounds
      · exact ⟨_, _, if_pos more, by simp [Stage.rank]⟩
      · exact ⟨_, _, if_neg more, by simp only [Stage.rank]; omega⟩
  | mixWrite r idx state =>
      right
      have more := held.2.1
      refine ⟨_, _, rfl, ?_⟩
      simp only [Stage.rank]
      omega
  | copy i coords =>
      obtain ⟨below, few, known, _⟩ := held
      right
      by_cases more : i < 78
      · rw [known]
        refine ⟨_, _, step_copy cfg rows seeds g below more (seeds tid), ?_⟩
        simp only [Stage.rank]
        omega
      · exact ⟨_, _, if_neg more, by simp only [Stage.rank]; omega⟩
  | done => exact Or.inl rfl

theorem solo {n : Nat} (room : 8 * (n * cfg.memSize.toNat) ≤ 2 ^ 64) (rows : 78 * n < 2 ^ 31)
    (seeds : Nat → UInt64) : Solo (act cfg seeds) (fun t => t = .done) (fun _ : Place n => .enter)
      (fun _ => True)
      (fun place g t => t.Holds cfg n (Place.tid place) (seeds (Place.tid place)) g)
      (fun _ _ t => t.rank cfg) where
  enter := fun _ _ _ => trivial
  move := by
    intro place g t held
    rcases step_enabled cfg rows held with done | ⟨g', t', acted, lower⟩
    · exact Or.inl ⟨done, trivial⟩
    · exact Or.inr ⟨g', t', acted, (step_holds cfg room rows acted held).1, lower⟩

theorem exists_done {n : Nat} (room : 8 * (n * cfg.memSize.toNat) ≤ 2 ^ 64) (rows : 78 * n < 2 ^ 31)
    (seeds : Nat → UInt64) (g : Device) :
    ∃ s, Run (act cfg seeds) (launch n g) s ∧ ∀ place, s.locals place = .done :=
  (solo cfg room rows seeds).exists_done trivial

def smallConfig : Config := ⟨4, by decide, 8, by decide⟩

theorem kernel_eq_cpuKHash_three :
    ∃ s : State (Place 3) Device Stage, ∀ tid < 3,
      (∀ garbage, row s.shared tid =
        ((cpuKHash smallConfig garbage (UInt64.ofNat tid)).take 78).map Int.ofNat) ∧
        (row s.shared tid).Nodup ∧ ∀ coord ∈ row s.shared tid, 0 ≤ coord ∧ coord ≤ 99 := by
  have room : 8 * (3 * smallConfig.memSize.toNat) ≤ 2 ^ 64 := by
    rw [smallConfig.memSize_toNat]
    decide
  obtain ⟨s, run, done⟩ := exists_done smallConfig room (by decide) UInt64.ofNat ⟨fun _ => 7, fun _ => 0⟩
  exact ⟨s, (kernel_eq_cpuKHash smallConfig room (by decide) run).2 done⟩

def hugeConfig : Config := ⟨37, by decide, 0, by decide⟩

/-- Slices of `2 ^ 40` bytes for `2 ^ 24 + 1` threads: `main` asks for `2 ^ 40` bytes in all, and
the last thread starts where the first does. -/
theorem slices_overlap :
    78 * (2 ^ 24 + 1) < 2 ^ 31 ∧ allocated hugeConfig (2 ^ 24 + 1) = 2 ^ 40 ∧
      ∃ s, Run (act hugeConfig UInt64.ofNat) (launch (2 ^ 24 + 1) ⟨fun _ => 0, fun _ => 0⟩) s ∧
      ∃ first last : Place (2 ^ 24 + 1), Place.tid first = 0 ∧ Place.tid last = 2 ^ 24 ∧
        touched hugeConfig (Place.tid first) (s.locals first) = some 0 ∧
        touched hugeConfig (Place.tid last) (s.locals last) = some 0 := by
  obtain ⟨first, firstTid⟩ := exists_place (show 0 < 2 ^ 24 + 1 by decide)
  obtain ⟨last, lastTid⟩ := exists_place (show 2 ^ 24 < 2 ^ 24 + 1 by decide)
  have apart : first ≠ last := by
    rintro rfl
    rw [firstTid] at lastTid
    cases lastTid
  have enters (place : Place (2 ^ 24 + 1)) (g : Device) : act hugeConfig UInt64.ofNat place g .enter g
      (.first (UInt64.ofNat (Place.tid place))) ∨ 2 ^ 24 + 1 ≤ Place.tid place := by
    by_cases beyond : 2 ^ 24 + 1 ≤ Place.tid place
    · exact Or.inr beyond
    · exact Or.inl (if_neg beyond)
  have firstEnters := (enters first ⟨fun _ => 0, fun _ => 0⟩).resolve_right (by omega)
  have lastEnters := (enters last ⟨fun _ => 0, fun _ => 0⟩).resolve_right (by omega)
  have start : Run (act hugeConfig UInt64.ofNat) (launch (2 ^ 24 + 1) ⟨fun _ => 0, fun _ => 0⟩) _ :=
    .single (.turn first firstEnters)
  have both := start.tail (.turn last (by
    simp only [launch, Function.update_of_ne (Ne.symm apart)]
    exact lastEnters))
  refine ⟨by decide, by decide, _, both, first, last, firstTid, lastTid, ?_, ?_⟩
  · simp only [Function.update_of_ne apart, Function.update_self, touched, firstTid]
    decide
  · simp only [Function.update_self, touched, lastTid]
    decide

end CudaOpenMp.KHash
