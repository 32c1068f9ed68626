import CudaOpenMp.Library.Tiling
import CudaOpenMp.Vector.ReduceNeighboredCore
import Mathlib.Data.Fintype.Prod
import Mathlib.Data.Nat.Factorization.Basic

/-!
The runs of `reduceNeighbored`. No run waits at a barrier for ever, and the blocks keep to their
parts of the array when they are powers of two and fill it; the results are then the sums of the
parts.
-/

namespace CudaOpenMp.ReduceNeighbored

open Interleaving Tiling

section
variable {n blockDim : Nat} {M : Type}

/-- Where a thread can be that has arrived at a number of barriers. -/
def Stage.At (blockDim tid arrived : Nat) : Stage M → Prop
  | .start => arrived = 0
  | .loop stride => stride = 2 ^ arrived
  | .add stride _ => stride = 2 ^ arrived ∧ tid % (2 * stride) = 0
  | .sync stride => stride = 2 ^ arrived
  | .wait stride => stride * 2 = 2 ^ arrived
  | .write => blockDim ≤ 2 ^ arrived ∧ tid = 0
  | .done => blockDim ≤ 2 ^ arrived

/-- The rounds for which a thread has checked whether it has to add. -/
def Stage.begun (arrived : Nat) : Stage M → Nat
  | .add .. => arrived + 1
  | .sync _ => arrived + 1
  | _ => arrived

structure Controlled (t : Thread n blockDim) (g : Device n blockDim M) (l : Stage M) : Prop where
  place : if g.barrier.returned t then l = .done ∧ n ≤ cell t t.2
    else l.At blockDim t.2 (g.barrier.arrived t)
  rounds : ∀ r < l.begun (g.barrier.arrived t), 2 ^ r < blockDim
  loads : ∀ r < l.begun (g.barrier.arrived t), t.2.val % (2 * 2 ^ r) = 0 →
    (t.1, cell t (t.2 + 2 ^ r)) ∈ g.touched

variable {t : Thread n blockDim} {g g' : Device n blockDim M} {l l' : Stage M}

theorem Controlled.running (controlled : Controlled t g l) (going : l ≠ .done) :
    g.barrier.returned t = false ∧ l.At blockDim t.2 (g.barrier.arrived t) := by
  have place := controlled.place
  split at place
  · exact absurd place.1 going
  · next still => exact ⟨Bool.eq_false_iff.mpr still, place⟩

theorem Controlled.place_of {arrived : Nat} (running : g.barrier.returned t = false)
    (same : g.barrier.arrived t = arrived) (here : l.At blockDim t.2 arrived) :
    if g.barrier.returned t then l = .done ∧ n ≤ cell t t.2
      else l.At blockDim t.2 (g.barrier.arrived t) := by
  rw [running, same]
  exact here

theorem Controlled.keep (controlled : Controlled t g l)
    (place : if g'.barrier.returned t then l' = .done ∧ n ≤ cell t t.2
      else l'.At blockDim t.2 (g'.barrier.arrived t))
    (same : l'.begun (g'.barrier.arrived t) = l.begun (g.barrier.arrived t))
    (grows : g.touched ⊆ g'.touched) : Controlled t g' l' where
  place := place
  rounds := by
    rw [same]
    exact controlled.rounds
  loads := by
    rw [same]
    intro r earlier active
    exact grows (controlled.loads r earlier active)

theorem Controlled.check {stride : Nat} (controlled : Controlled t g (.loop stride))
    (barrier : g'.barrier = g.barrier) (below : stride < blockDim)
    (here : l'.At blockDim t.2 (g.barrier.arrived t))
    (next : l'.begun (g.barrier.arrived t) = g.barrier.arrived t + 1)
    (grows : g.touched ⊆ g'.touched)
    (loaded : t.2.val % (2 * stride) = 0 → (t.1, cell t (t.2 + stride)) ∈ g'.touched) :
    Controlled t g' l' := by
  obtain ⟨running, doubled⟩ := controlled.running nofun
  have power : stride = 2 ^ g.barrier.arrived t := doubled
  refine ⟨?_, ?_, ?_⟩
  · rw [barrier]
    exact Controlled.place_of running rfl here
  · intro r begun
    rw [barrier, next] at begun
    rcases Nat.lt_succ_iff_lt_or_eq.mp begun with earlier | rfl
    · exact controlled.rounds r earlier
    · rwa [← power]
  · intro r begun active
    rw [barrier, next] at begun
    rcases Nat.lt_succ_iff_lt_or_eq.mp begun with earlier | rfl
    · exact grows (controlled.loads r earlier active)
    · rw [← power] at active ⊢
      exact loaded active

theorem launch_controlled (idata odata : Nat → M) (t : Thread n blockDim) :
    Controlled t (launch idata odata).shared ((launch idata odata).locals t) where
  place := rfl
  rounds := fun r begun => absurd begun (Nat.not_lt_zero r)
  loads := fun r begun => absurd begun (Nat.not_lt_zero r)

theorem Controlled.through {u : Thread n blockDim} (controlled : Controlled t g l)
    (done : Controlled u g .done) :
    g.barrier.returned u = true ∨ g.barrier.arrived t ≤ g.barrier.arrived u := by
  have place := done.place
  split at place
  · next early => exact Or.inl early
  · refine Or.inr (Nat.le_of_not_lt fun later => ?_)
    have begun : g.barrier.arrived u < l.begun (g.barrier.arrived t) := by
      cases l <;> simp only [Stage.begun] <;> omega
    have below := controlled.rounds _ begun
    have past : blockDim ≤ 2 ^ g.barrier.arrived u := place
    omega

variable [AddCommMonoid M]

theorem Controlled.own (controlled : Controlled t g l) (acted : Act t g l g' l') :
    Controlled t g' l' := by
  cases acted with
  | leave past =>
      refine controlled.keep ?_ rfl (List.Subset.refl _)
      rw [Barrier.leave_returned_self]
      exact ⟨rfl, past⟩
  | enter _ =>
      obtain ⟨running, first⟩ := controlled.running nofun
      exact controlled.keep (Controlled.place_of running first rfl) rfl (List.Subset.refl _)
  | load below active =>
      obtain ⟨-, power⟩ := controlled.running nofun
      exact controlled.check rfl below ⟨power, active⟩ rfl
        (List.subset_cons_of_subset _ (List.subset_cons_self ..)) fun _ => by simp
  | pass below idle =>
      obtain ⟨-, power⟩ := controlled.running nofun
      exact controlled.check rfl below power rfl (List.Subset.refl _) fun active =>
        absurd active idle
  | add =>
      obtain ⟨running, power, -⟩ := controlled.running nofun
      exact controlled.keep (Controlled.place_of running rfl power) rfl (List.Subset.refl _)
  | @sync stride =>
      obtain ⟨running, power⟩ := controlled.running nofun
      have doubled : stride * 2 = 2 ^ (g.barrier.arrived t + 1) := by
        rw [Nat.pow_succ, show stride = _ from power]
      exact controlled.keep (Controlled.place_of running Barrier.arrive_arrived_self doubled)
        Barrier.arrive_arrived_self (List.Subset.refl _)
  | wait _ =>
      obtain ⟨running, power⟩ := controlled.running nofun
      exact controlled.keep (Controlled.place_of running rfl power) rfl (List.Subset.refl _)
  | exit past =>
      obtain ⟨running, power⟩ := controlled.running nofun
      rw [show _ = 2 ^ _ from power] at past
      by_cases first : t.2.val = 0
      · rw [if_pos first]
        exact controlled.keep (Controlled.place_of running rfl ⟨past, first⟩) rfl
          (List.Subset.refl _)
      · rw [if_neg first]
        exact controlled.keep (Controlled.place_of running rfl past) rfl (List.Subset.refl _)
  | write =>
      obtain ⟨running, past, -⟩ := controlled.running nofun
      exact controlled.keep (Controlled.place_of running rfl past) rfl (List.subset_cons_self ..)

theorem Act.others (acted : Act t g l g' l') : (∀ u ≠ t,
    g'.barrier.returned u = g.barrier.returned u ∧ g'.barrier.arrived u = g.barrier.arrived u) ∧
      g.touched ⊆ g'.touched := by
  cases acted with
  | leave _ => exact ⟨fun u other => ⟨Barrier.leave_returned_of_ne other, rfl⟩, List.Subset.refl _⟩
  | load _ _ => exact ⟨fun _ _ => ⟨rfl, rfl⟩, fun _ member => by simp [member]⟩
  | sync => exact ⟨fun u other => ⟨rfl, Barrier.arrive_arrived_of_ne other⟩, List.Subset.refl _⟩
  | write => exact ⟨fun _ _ => ⟨rfl, rfl⟩, List.subset_cons_self ..⟩
  | enter _ | pass _ _ | add | wait _ | exit _ => exact ⟨fun _ _ => ⟨rfl, rfl⟩, List.Subset.refl _⟩

theorem controlled_stable : Stable (@Act n blockDim M _) Controlled where
  own := fun _ _ _ _ _ acted controlled => controlled.own acted
  others := by
    intro t u g l g' l' m other acted _ controlled
    obtain ⟨barrier, grows⟩ := acted.others
    obtain ⟨returned, arrived⟩ := barrier u other.symm
    apply controlled.keep
    · rw [returned, arrived]
      exact controlled.place
    · rw [arrived]
    · exact grows

/-! No block waits for ever. -/

def Stage.weight : Stage M → Nat
  | .start => 6
  | .loop _ => 5
  | .add .. => 4
  | .sync _ => 3
  | .wait _ => 6
  | .write => 1
  | .done => 0

def rank (t : Thread n blockDim) (g : Device n blockDim M) (l : Stage M) : Nat :=
  8 * (blockDim + 1 - g.barrier.arrived t) + l.weight

theorem Controlled.rank_lt (controlled : Controlled t g l) (acted : Act t g l g' l') :
    rank t g' l' < rank t g l := by
  cases acted with
  | leave _ | enter _ | load _ _ | pass _ _ | add | wait _ | write => simp [rank, Stage.weight]
  | sync =>
      have below := controlled.rounds (g.barrier.arrived t) (Nat.lt_succ_self _)
      have larger := Nat.lt_two_pow_self (n := g.barrier.arrived t)
      simp only [rank, Stage.weight, Barrier.arrive_arrived_self]
      omega
  | exit _ => split <;> simp [rank, Stage.weight]

theorem Controlled.exists_act (controlled : Controlled t g l) (going : l ≠ .done)
    (moving : ∀ stride, l ≠ .wait stride) : ∃ g' l', Act t g l g' l' := by
  cases l with
  | start =>
      by_cases inside : cell t t.2 < n
      · exact ⟨_, _, .enter inside⟩
      · exact ⟨_, _, .leave (Nat.le_of_not_lt inside)⟩
  | loop stride =>
      by_cases below : stride < blockDim
      · by_cases active : t.2 % (2 * stride) = 0
        · exact ⟨_, _, .load below active⟩
        · exact ⟨_, _, .pass below active⟩
      · exact ⟨_, _, .exit (Nat.le_of_not_lt below)⟩
  | add stride sum => exact ⟨_, _, .add⟩
  | sync stride => exact ⟨_, _, .sync⟩
  | wait stride => exact absurd rfl (moving stride)
  | write => exact ⟨_, _, .write⟩
  | done => exact absurd rfl going

variable {s : State (Thread n blockDim) (Device n blockDim M) (Stage M)}

def Waits (s : State (Thread n blockDim) (Device n blockDim M) (Stage M))
    (t : Thread n blockDim) : Prop := ∃ stride, s.locals t = .wait stride

theorem exists_act (controlled : ∀ t, Controlled t s.shared (s.locals t)) :
    Finished s ∨ ∃ t g l, Act t s.shared (s.locals t) g l := by
  by_cases moving : ∃ t, s.locals t ≠ .done ∧ ¬Waits s t
  · obtain ⟨t, going, free⟩ := moving
    exact Or.inr ⟨t, (controlled t).exists_act going fun stride here => free ⟨stride, here⟩⟩
  have still (t : Thread n blockDim) : s.locals t = .done ∨ Waits s t := by
    by_contra neither
    rw [not_or] at neither
    exact moving ⟨t, neither⟩
  by_cases held : ∃ t, Waits s t
  · obtain ⟨t, waits⟩ := held
    have first : ∃ u, Waits s u ∧ s.shared.barrier.Open Prod.fst u := by
      apply Barrier.exists_open waits
      intro t u _ _
      rcases still u with through | waitsToo
      · have ended := controlled u
        rw [through] at ended
        exact Or.inr ((controlled t).through ended)
      · exact Or.inl waitsToo
    obtain ⟨last, ⟨stride, here⟩, free⟩ := first
    refine Or.inr ⟨last, s.shared, .loop (stride * 2), ?_⟩
    rw [here]
    exact .wait free
  · exact Or.inl fun t => (still t).resolve_right fun waits => held ⟨t, waits⟩

theorem launch_run_controlled {idata odata : Nat → M} (run : Run Act (launch idata odata) s)
    (t : Thread n blockDim) : Controlled t s.shared (s.locals t) :=
  controlled_stable.run run (launch_controlled idata odata) t

/-- Every run can be carried on until all threads are through. -/
theorem exists_run_finished {idata odata : Nat → M} (run : Run Act (launch idata odata) s) :
    ∃ s', Run Act (launch idata odata) s' ∧ Run Act s s' ∧ Finished s' := by
  have go (s : State (Thread n blockDim) (Device n blockDim M) (Stage M))
      (controlled : ∀ t, Controlled t s.shared (s.locals t)) : Finished s ∨
      ∃ s', Step Act s s' ∧ (∀ t, Controlled t s'.shared (s'.locals t)) ∧
        ∑ t, rank t s'.shared (s'.locals t) < ∑ t, rank t s.shared (s.locals t) := by
    rcases exists_act controlled with finished | ⟨t, g, l, acted⟩
    · exact Or.inl finished
    · have move : Step Act s ⟨g, Function.update s.locals t l⟩ := .turn t acted
      refine Or.inr ⟨_, move, controlled_stable.step move controlled, ?_⟩
      apply sum_rank_lt rank ((controlled t).rank_lt acted)
      intro u other
      rw [rank, rank, (acted.others.1 u other).2]
  obtain ⟨s', rest, finished, -⟩ := exists_finished rank go (launch_run_controlled run)
  exact ⟨s', run.trans rest, rest, finished⟩

end

section
variable {n blockDim : Nat} {M : Type}
  {s : State (Thread n blockDim) (Device n blockDim M) (Stage M)}

theorem mem_touched (controlled : ∀ t, Controlled t s.shared (s.locals t)) (finished : Finished s)
    {t : Thread n blockDim} (inside : cell t t.2 < n) {r : Nat} (round : 2 ^ r < blockDim)
    (active : t.2.val % (2 * 2 ^ r) = 0) : (t.1, cell t (t.2 + 2 ^ r)) ∈ s.shared.touched := by
  have own := controlled t
  rw [finished t] at own
  have place := own.place
  split at place
  · omega
  · have past : blockDim ≤ 2 ^ s.shared.barrier.arrived t := place
    exact own.loads r ((Nat.pow_lt_pow_iff_right (by omega)).mp (round.trans_le past)) active

theorem lt_gridDim_iff (positive : 0 < blockDim) {block : Nat} :
    block < gridDim n blockDim ↔ block * blockDim < n := by
  rw [gridDim, Nat.lt_iff_add_one_le, Nat.le_div_iff_mul_le positive, Nat.succ_mul]
  omega

theorem not_safe_of_part (controlled : ∀ t, Controlled t s.shared (s.locals t))
    (finished : Finished s) {block size j m : Nat} (odd : size = 2 ^ j * (2 * m + 1))
    (within : size ≤ blockDim) (smaller : 2 ^ j < blockDim) (inside : block * blockDim + size ≤ n)
    (last : size = blockDim ∨ block * blockDim + size = n) : ¬Safe s.shared := by
  intro safe
  have positive := Nat.two_pow_pos j
  have split : size = 2 ^ j * (2 * m) + 2 ^ j := by rw [odd, Nat.mul_add, Nat.mul_one]
  have launched : block < gridDim n blockDim := (lt_gridDim_iff (by omega)).mpr (by omega)
  let t : Thread n blockDim := (⟨block, launched⟩, ⟨2 ^ j * (2 * m), by omega⟩)
  have active : t.2.val % (2 * 2 ^ j) = 0 := by
    change 2 ^ j * (2 * m) % (2 * 2 ^ j) = 0
    rw [← Nat.mul_assoc, Nat.mul_comm (2 ^ j), Nat.mul_mod_right]
  have running : cell t t.2 < n := by
    change block * blockDim + 2 ^ j * (2 * m) < n
    omega
  obtain ⟨-, own, array⟩ := safe _ (mem_touched controlled finished running smaller active)
  have own : block * blockDim + (2 ^ j * (2 * m) + 2 ^ j) < block * blockDim + blockDim := by
    rw [← Nat.succ_mul]
    exact own
  have array : block * blockDim + (2 ^ j * (2 * m) + 2 ^ j) < n := array
  omega

theorem exists_two_pow_mul_odd {size : Nat} (positive : 0 < size) :
    ∃ j m, size = 2 ^ j * (2 * m + 1) := by
  obtain ⟨j, k, ⟨m, rfl⟩, split⟩ := Nat.exists_eq_two_pow_mul_odd (Nat.ne_of_gt positive)
  exact ⟨j, m, split⟩

theorem fits_of_safe (controlled : ∀ t, Controlled t s.shared (s.locals t)) (finished : Finished s)
    (positive : 1 ≤ blockDim) (nonempty : 1 ≤ n) (safe : Safe s.shared) :
    (∃ k, blockDim = 2 ^ k) ∧ blockDim ∣ n := by
  have divides : blockDim ∣ n := by
    by_contra partly
    have rest : 0 < n % blockDim :=
      Nat.pos_of_ne_zero fun zero => partly (Nat.dvd_of_mod_eq_zero zero)
    have short := Nat.mod_lt n positive
    have whole := Nat.div_add_mod' n blockDim
    obtain ⟨j, m, odd⟩ := exists_two_pow_mul_odd rest
    have small : 2 ^ j ≤ n % blockDim := by
      rw [odd]
      exact Nat.le_mul_of_pos_right _ (Nat.succ_pos _)
    exact not_safe_of_part controlled finished odd (by omega) (by omega) (by omega) (Or.inr whole) safe
  refine ⟨?_, divides⟩
  by_contra other
  obtain ⟨j, m, odd⟩ := exists_two_pow_mul_odd positive
  have full := Nat.le_of_dvd nonempty divides
  have smaller : 2 ^ j < blockDim := by
    apply Nat.lt_of_le_of_ne
    · rw [odd]
      exact Nat.le_mul_of_pos_right _ (Nat.succ_pos _)
    · exact fun same => other ⟨j, same.symm⟩
  have first : 0 * blockDim + blockDim ≤ n := by rwa [Nat.zero_mul, Nat.zero_add]
  exact not_safe_of_part controlled finished odd (Nat.le_refl _) smaller first (Or.inl rfl) safe

end

/-! The values of a part after some rounds. -/

section
variable {M : Type} [AddCommMonoid M] {values : Nat → M}

def rounds (values : Nat → M) : Nat → Nat → M
  | 0, i => values i
  | r + 1, i =>
      if i % (2 * 2 ^ r) = 0 then rounds values r i + rounds values r (i + 2 ^ r)
      else rounds values r i

theorem rounds_idle {r i : Nat} (idle : i % (2 * 2 ^ r) ≠ 0) {k : Nat} (later : r ≤ k) :
    rounds values k i = rounds values r i := by
  induction k, later using Nat.le_induction with
  | base => rfl
  | succ k later ih =>
      have multiple : 2 * 2 ^ r ∣ 2 * 2 ^ k := Nat.mul_dvd_mul_left 2 (Nat.pow_dvd_pow 2 later)
      rw [rounds, if_neg, ih]
      intro active
      exact idle (Nat.mod_eq_zero_of_dvd (multiple.trans (Nat.dvd_of_mod_eq_zero active)))

theorem rounds_sum {r i : Nat} (multiple : 2 ^ r ∣ i) :
    rounds values r i = ∑ j ∈ Finset.range (2 ^ r), values (i + j) := by
  induction r generalizing i with
  | zero => simp [rounds]
  | succ r ih =>
      have double : 2 ^ (r + 1) = 2 * 2 ^ r := by omega
      rw [double] at multiple ⊢
      have half : 2 ^ r ∣ i := (Nat.dvd_mul_left ..).trans multiple
      have upper : 2 ^ r ∣ i + 2 ^ r := Nat.dvd_add half (Nat.dvd_refl _)
      rw [rounds, if_pos (Nat.mod_eq_zero_of_dvd multiple), ih half, ih upper, Nat.two_mul,
        Finset.sum_range_add]
      simp only [Nat.add_assoc]

end

/-! Blocks that are powers of two and fill the array. -/

section
variable {n blockDim : Nat} {M : Type} {input : Nat → M}
  {s s' : State (Thread n blockDim) (Device n blockDim M) (Stage M)} {t u : Thread n blockDim}
  {g g' : Device n blockDim M} {l l' m : Stage M}

structure Fits (n blockDim : Nat) : Prop where
  power : ∃ k, blockDim = 2 ^ k
  divides : blockDim ∣ n

theorem Fits.positive (fits : Fits n blockDim) : 0 < blockDim := by
  obtain ⟨k, rfl⟩ := fits.power
  exact Nat.two_pow_pos k

theorem Fits.gridDim_mul (fits : Fits n blockDim) : gridDim n blockDim * blockDim = n := by
  obtain ⟨blocks, rfl⟩ := fits.divides
  have all : (blockDim * blocks + blockDim - 1) / blockDim = blocks := by
    apply Nat.div_eq_of_lt_le
    · rw [Nat.mul_comm]
      have := fits.positive
      omega
    · rw [Nat.succ_mul, Nat.mul_comm]
      have := fits.positive
      omega
  rw [gridDim, all, Nat.mul_comm]

theorem Fits.cell_lt (fits : Fits n blockDim) {offset : Nat} (inside : offset < blockDim) :
    cell t offset < n := by
  calc cell t offset < t.1 * blockDim + blockDim := Nat.add_lt_add_left inside _
    _ = (t.1 + 1) * blockDim := (Nat.succ_mul ..).symm
    _ ≤ gridDim n blockDim * blockDim := Nat.mul_le_mul_right _ t.1.isLt
    _ = n := fits.gridDim_mul

theorem Fits.partner_lt (fits : Fits n blockDim) {i r : Nat} (inside : i < blockDim)
    (round : 2 ^ r < blockDim) (active : i % (2 * 2 ^ r) = 0) : i + 2 ^ r < blockDim := by
  obtain ⟨k, rfl⟩ := fits.power
  have below : r + 1 ≤ k := (Nat.pow_lt_pow_iff_right (by omega)).mp round
  obtain ⟨parts, whole⟩ := Nat.pow_dvd_pow 2 below
  obtain ⟨part, rfl⟩ := Nat.dvd_of_mod_eq_zero active
  have double : 2 ^ (r + 1) = 2 * 2 ^ r := by omega
  rw [double] at whole
  have earlier : part < parts := Nat.lt_of_mul_lt_mul_left (whole ▸ inside)
  have next : 2 * 2 ^ r * (part + 1) ≤ 2 ^ k := by
    rw [whole]
    exact Nat.mul_le_mul_left _ earlier
  have positive := Nat.two_pow_pos r
  rw [Nat.mul_succ] at next
  omega

theorem Fits.running (fits : Fits n blockDim) (controlled : Controlled t g l) :
    g.barrier.returned t = false := by
  have place := controlled.place
  split at place
  · exact absurd place.2 (Nat.not_le_of_lt (fits.cell_lt t.2.isLt))
  · next still => exact Bool.eq_false_iff.mpr still

theorem cell_inj (same : cell t t.2 = cell u u.2) : t = u := by
  have block : t.1.val = u.1.val := by
    have := congrArg (· / blockDim) same
    simpa [cell, Nat.mul_comm _ blockDim, Nat.mul_add_div (Nat.zero_lt_of_lt t.2.isLt),
      Nat.div_eq_of_lt t.2.isLt, Nat.div_eq_of_lt u.2.isLt] using this
  rw [cell, cell, block, Nat.add_left_cancel_iff] at same
  exact Prod.ext (Fin.ext block) (Fin.ext same)

theorem Fits.safe_cons (fits : Fits n blockDim) {offset : Nat} (inside : offset < blockDim)
    {touched : List (Fin (gridDim n blockDim) × Nat)}
    (safe : ∀ access ∈ touched, access.1 * blockDim ≤ access.2 ∧
      access.2 < (access.1 + 1) * blockDim ∧ access.2 < n) :
    ∀ access ∈ (t.1, cell t offset) :: touched, access.1 * blockDim ≤ access.2 ∧
      access.2 < (access.1 + 1) * blockDim ∧ access.2 < n := by
  intro access member
  rcases List.mem_cons.mp member with rfl | earlier
  · refine ⟨Nat.le_add_right .., ?_, fits.cell_lt inside⟩
    rw [Nat.succ_mul]
    exact Nat.add_lt_add_left inside _
  · exact safe access earlier

def Stage.written (arrived : Nat) : Stage M → Nat
  | .sync _ => arrived + 1
  | _ => arrived

theorem Stage.le_written (arrived : Nat) : arrived ≤ l.written arrived := by
  cases l <;> simp [Stage.written]

def part (input : Nat → M) (t : Thread n blockDim) (offset : Nat) : M := input (cell t offset)

variable [AddCommMonoid M]

structure Exact (input : Nat → M) (t : Thread n blockDim) (g : Device n blockDim M)
    (l : Stage M) : Prop where
  value : g.idata (cell t t.2) = rounds (part input t) (l.written (g.barrier.arrived t)) t.2
  sum : ∀ stride sum, l = .add stride sum →
    sum = rounds (part input t) (g.barrier.arrived t + 1) t.2
  level : (∀ stride, l ≠ .wait stride) →
    ∀ u, u.1 = t.1 → g.barrier.arrived t ≤ g.barrier.arrived u
  result : t.2.val = 0 → l = .done → g.odata t.1 = ∑ i ∈ Finset.range blockDim, part input t i

/-- The cell that a thread adds has the same value from the round before until its next change,
and no round changes it any more. -/
theorem Exact.partner (fits : Fits n blockDim) {r : Nat} (round : 2 ^ r < blockDim)
    (active : t.2.val % (2 * 2 ^ r) = 0)
    (values : ∀ u : Thread n blockDim, u.1 = t.1 → ∃ k, r ≤ k ∧
      g.idata (cell u u.2) = rounds (part input u) k u.2) :
    g.idata (cell t (t.2 + 2 ^ r)) = rounds (part input t) r (t.2 + 2 ^ r) := by
  have inside := fits.partner_lt t.2.isLt round active
  obtain ⟨k, later, value⟩ := values (t.1, ⟨t.2 + 2 ^ r, inside⟩) rfl
  have idle : (t.2.val + 2 ^ r) % (2 * 2 ^ r) ≠ 0 := by
    have positive := Nat.two_pow_pos r
    rw [Nat.add_mod, active, Nat.zero_add, Nat.mod_mod, Nat.mod_eq_of_lt (by omega)]
    exact Nat.ne_of_gt positive
  exact value.trans (rounds_idle idle later)

theorem Fits.last_round (fits : Fits n blockDim) {r : Nat} (before : ∀ k < r, 2 ^ k < blockDim)
    (past : blockDim ≤ 2 ^ r) : 2 ^ r = blockDim := by
  obtain ⟨k, rfl⟩ := fits.power
  have least : r ≤ k := by
    by_contra more
    exact Nat.lt_irrefl _ (before k (Nat.lt_of_not_le more))
  exact Nat.le_antisymm (Nat.pow_le_pow_right (by omega) least) past

theorem Exact.own (exact : Exact input t g l) (fits : Fits n blockDim)
    (controlled : Controlled t g l)
    (running : ∀ u, g.barrier.returned u = false)
    (values : ∀ u : Thread n blockDim, ∃ k, g.barrier.arrived u ≤ k ∧
      g.idata (cell u u.2) = rounds (part input u) k u.2)
    (acted : Act t g l g' l') : Exact input t g' l' := by
  obtain ⟨value, sum, level, result⟩ := exact
  cases acted with
  | leave past => exact absurd past (Nat.not_le_of_lt (fits.cell_lt t.2.isLt))
  | enter _ => exact ⟨value, nofun, fun _ => level nofun, nofun⟩
  | @load stride below active =>
      obtain ⟨-, power⟩ := controlled.running nofun
      obtain rfl : stride = 2 ^ g.barrier.arrived t := power
      refine ⟨value, ?_, fun _ => level nofun, nofun⟩
      rintro _ _ ⟨⟩
      have partner := Exact.partner fits below active fun u same => by
        obtain ⟨k, later, stored⟩ := values u
        exact ⟨k, (level nofun u same).trans later, stored⟩
      rw [partner, value, rounds, if_pos active]
      rfl
  | @pass stride below idle =>
      obtain ⟨-, power⟩ := controlled.running nofun
      obtain rfl : stride = 2 ^ g.barrier.arrived t := power
      refine ⟨?_, nofun, fun _ => level nofun, nofun⟩
      rw [value, Stage.written, rounds, if_neg idle]
      rfl
  | @add stride stored =>
      refine ⟨?_, nofun, fun _ => level nofun, nofun⟩
      rw [sum stride stored rfl]
      exact Function.update_self ..
  | @sync stride =>
      refine ⟨?_, nofun, fun free => absurd rfl (free stride), nofun⟩
      have next : (g.barrier.arrive t).arrived t = g.barrier.arrived t + 1 :=
        Barrier.arrive_arrived_self
      exact value.trans (congrArg (rounds (part input t) · t.2) next.symm)
  | wait free =>
      refine ⟨value, nofun, ?_, nofun⟩
      intro _ u same
      exact (free u same).resolve_left (Bool.eq_false_iff.mp (running u))
  | exit past =>
      split
      · exact ⟨value, nofun, fun _ => level nofun, nofun⟩
      · next other => exact ⟨value, nofun, fun _ => level nofun, fun first => absurd first other⟩
  | write =>
      obtain ⟨-, past, first⟩ := controlled.running nofun
      have whole : 2 ^ g.barrier.arrived t = blockDim := fits.last_round controlled.rounds past
      refine ⟨value, nofun, fun _ => level nofun, ?_⟩
      intro _ _
      rw [first] at value
      have total := @rounds_sum M _ (part input t) _ 0 (Nat.dvd_zero (2 ^ g.barrier.arrived t))
      simp only [whole, Nat.zero_add] at total
      rw [← total]
      exact (Function.update_self ..).trans value

theorem Act.values (acted : Act t g l g' l') (other : u ≠ t) :
    g'.idata (cell u u.2) = g.idata (cell u u.2) := by
  cases acted with
  | add => exact Function.update_of_ne (fun same => other (cell_inj same)) ..
  | leave _ | enter _ | load _ _ | pass _ _ | sync | wait _ | exit _ | write => rfl

theorem Act.level (acted : Act t g l g' l') : g.barrier.arrived u ≤ g'.barrier.arrived u := by
  cases acted with
  | sync => exact Barrier.arrived_le_arrive
  | leave _ | enter _ | load _ _ | pass _ _ | add | wait _ | exit _ | write => exact Nat.le_refl _

theorem Exact.other (exact : Exact input u g m) (other : u ≠ t) (controlled : Controlled t g l)
    (acted : Act t g l g' l') : Exact input u g' m := by
  have arrived := (acted.others.1 u other).2
  refine ⟨?_, ?_, ?_, ?_⟩
  · rw [arrived, acted.values other]
    exact exact.value
  · rw [arrived]
    exact exact.sum
  · intro free v same
    rw [arrived]
    exact (exact.level free v same).trans acted.level
  · intro first done
    rw [← exact.result first done]
    cases acted with
    | write =>
        obtain ⟨-, -, zero⟩ := controlled.running nofun
        apply Function.update_of_ne
        intro same
        exact other (Prod.ext (Fin.ext same) (Fin.ext (first.trans zero.symm)))
    | leave _ | enter _ | load _ _ | pass _ _ | add | sync | wait _ | exit _ => rfl

theorem Act.safe (acted : Act t g l g' l') (fits : Fits n blockDim) (controlled : Controlled t g l)
    (safe : Safe g) : Safe g' := by
  cases acted with
  | @load stride below active =>
      obtain ⟨-, power⟩ := controlled.running nofun
      obtain rfl : stride = 2 ^ g.barrier.arrived t := power
      have partner := fits.partner_lt t.2.isLt below active
      exact fits.safe_cons t.2.isLt (fits.safe_cons partner safe)
  | write => exact fits.safe_cons fits.positive safe
  | leave _ | enter _ | pass _ _ | add | sync | wait _ | exit _ => exact safe

structure Tracks (input : Nat → M)
    (s : State (Thread n blockDim) (Device n blockDim M) (Stage M)) : Prop where
  controlled : ∀ t, Controlled t s.shared (s.locals t)
  exact : ∀ t, Exact input t s.shared (s.locals t)
  safe : Safe s.shared

theorem Tracks.step (tracks : Tracks input s) (fits : Fits n blockDim) (move : Step Act s s') :
    Tracks input s' := by
  refine ⟨controlled_stable.step move tracks.controlled, ?_, ?_⟩
  · cases move with
    | turn t acted =>
        intro u
        by_cases same : u = t
        · subst same
          simp only [Function.update_self]
          apply (tracks.exact u).own fits (tracks.controlled u) _ _ acted
          · exact fun v => fits.running (tracks.controlled v)
          · exact fun v => ⟨_, Stage.le_written _, (tracks.exact v).value⟩
        · simp only [Function.update_of_ne same]
          exact (tracks.exact u).other same (tracks.controlled t) acted
  · cases move with
    | turn _ acted => exact acted.safe fits (tracks.controlled _) tracks.safe

theorem launch_tracks (odata : Nat → M) :
    Tracks input (@launch n blockDim M input odata) where
  controlled := launch_controlled input odata
  exact := fun _ => ⟨rfl, nofun, fun _ _ _ => Nat.le_refl _, nofun⟩
  safe := nofun

theorem Tracks.sum (tracks : Tracks input s) (fits : Fits n blockDim) (finished : Finished s) :
    gpuSum n blockDim s.shared.odata = ∑ i ∈ Finset.range n, input i := by
  have block (i : Nat) (launched : i < gridDim n blockDim) :
      s.shared.odata i = ∑ j ∈ Finset.range blockDim, input (i * blockDim + j) :=
    (tracks.exact (⟨i, launched⟩, ⟨0, fits.positive⟩)).result rfl (finished _)
  rw [gpuSum, foldl_add, zero_add,
    Finset.sum_congr rfl fun i member => block i (Finset.mem_range.mp member), ← sum_tiles,
    fits.gridDim_mul]

/-- All runs keep to the parts of their blocks and end with the sum exactly when the block size
is a power of two and divides the length. -/
theorem runs_iff (positive : 1 ≤ blockDim) (nonempty : 1 ≤ n) (input odata : Nat → M) :
    (∀ s, Run Act (@launch n blockDim M input odata) s → Safe s.shared ∧
        (Finished s → gpuSum n blockDim s.shared.odata = ∑ i ∈ Finset.range n, input i)) ↔
      (∃ k, blockDim = 2 ^ k) ∧ blockDim ∣ n := by
  constructor
  · intro good
    obtain ⟨s, run, -, finished⟩ := exists_run_finished (.refl : Run Act (launch input odata) _)
    exact fits_of_safe (launch_run_controlled run) finished positive nonempty (good s run).1
  · rintro ⟨power, divides⟩ s run
    have fits : Fits n blockDim := ⟨power, divides⟩
    have tracks := run.invariant (launch_tracks odata) fun _ _ move held => held.step fits move
    exact ⟨tracks.safe, tracks.sum fits⟩

end

theorem runs_iff_eight :
    (∀ s, Run Act (@launch 8 4 Int (fun i => i) fun _ => 0) s → Safe s.shared ∧
        (Finished s → gpuSum 8 4 s.shared.odata = ∑ i ∈ Finset.range 8, (i : Int))) ↔
      (∃ k, 4 = 2 ^ k) ∧ 4 ∣ 8 :=
  runs_iff (show 1 ≤ 4 by omega) (show 1 ≤ 8 by omega) (fun i => (i : Int)) fun _ => 0

/-- With the length of `main` and 384 threads in each block, some blocks use cells of the next
one. -/
theorem next_block_touched :
    ∃ s, Run Act (@launch (2 ^ 24) 384 Int (fun _ => 1) fun _ => 0) s ∧ ¬Safe s.shared := by
  obtain ⟨s, run, -, finished⟩ := exists_run_finished
    (.refl : Run Act (@launch (2 ^ 24) 384 Int (fun _ => 1) fun _ => 0) _)
  refine ⟨s, run, ?_⟩
  intro safe
  obtain ⟨⟨k, power⟩, -⟩ := fits_of_safe (launch_run_controlled run) finished
    (show 1 ≤ 384 by omega) (show 1 ≤ 2 ^ 24 by omega) safe
  have coprime : Nat.Coprime 3 (2 ^ k) := Nat.Coprime.pow_right k (by decide)
  rw [← power] at coprime
  exact absurd coprime (by decide)

end CudaOpenMp.ReduceNeighbored
