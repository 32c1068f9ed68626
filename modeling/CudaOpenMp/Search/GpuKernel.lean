import CudaOpenMp.Library.Interleaving
import CudaOpenMp.Search.KeySpace
import Mathlib.Data.Fintype.Prod
import Mathlib.Data.Set.Function

/-!
The search kernel of `brute_force_gpu.cu` and the host code around it, with
`d_encrypt_matches` as a parameter. Threads race for a flag and one of them then stores
its index in a second word.
-/

namespace CudaOpenMp.GpuSearch

open Interleaving KeySpace

def totalKeys : UInt32 := 1727604

def threads : UInt32 := 256

def blocks : UInt32 := (totalKeys + threads - 1) / threads

/-- The cells that are written, the terminator included, and the length of the key. -/
structure CString where
  cells : List Char
  klen : Nat

def CString.text (s : CString) : List Char := s.cells.take s.klen

def kernelKey (idx : UInt32) : CString :=
  let l1 : UInt32 := 36
  let l2 : UInt32 := 36 * 36
  let l3 : UInt32 := 36 * 36 * 36
  let digit (d : UInt32) : Char := chr d.toNat
  if idx < l1 then ⟨[digit idx, '\x00'], 1⟩
  else if idx < l1 + l2 then
    let i := idx - l1
    ⟨[digit (i / 36), digit (i % 36), '\x00'], 2⟩
  else if idx < l1 + l2 + l3 then
    let i := idx - (l1 + l2)
    ⟨[digit (i / (36 * 36)), digit (i / 36 % 36), digit (i % 36), '\x00'], 3⟩
  else
    let i := idx - (l1 + l2 + l3)
    ⟨[digit (i / (36 * 36 * 36)), digit (i / (36 * 36) % 36), digit (i / 36 % 36),
      digit (i % 36), '\x00'], 4⟩

def decodeKey (idx : UInt32) : CString :=
  let l1 : UInt32 := 36
  let l2 : UInt32 := 36 * 36
  let l3 : UInt32 := 36 * 36 * 36
  let digit (d : UInt32) : Char := chr d.toNat
  if idx < l1 then ⟨[digit idx, '\x00'], 1⟩
  else if idx < l1 + l2 then
    let idx := idx - l1
    ⟨[digit (idx / 36), digit (idx % 36), '\x00'], 2⟩
  else if idx < l1 + l2 + l3 then
    let idx := idx - (l1 + l2)
    ⟨[digit (idx / (36 * 36)), digit (idx / 36 % 36), digit (idx % 36), '\x00'], 3⟩
  else
    let idx := idx - (l1 + l2 + l3)
    ⟨[digit (idx / (36 * 36 * 36)), digit (idx / (36 * 36) % 36), digit (idx / 36 % 36),
      digit (idx % 36), '\x00'], 4⟩

structure Memory where
  foundFlag : UInt32
  foundKeyIdx : UInt32

inductive Stage where
  | check
  | swap
  | store
  | done
  deriving DecidableEq, Repr

structure Thread where
  idx : UInt32
  stage : Stage

/-- One access of a thread to the device memory, or its work before the first one. -/
def step (isMatch : List Char → Bool) (g : Memory) (t : Thread) : Option (Memory × Thread) :=
  match t.stage with
  | .check =>
      if totalKeys ≤ t.idx then some (g, { t with stage := .done })
      else some (g, { t with stage := if isMatch (kernelKey t.idx).text then .swap else .done })
  | .swap =>
      if g.foundFlag = 0 then some ({ g with foundFlag := 1 }, { t with stage := .store })
      else some (g, { t with stage := .done })
  | .store => some ({ g with foundKeyIdx := t.idx }, { t with stage := .done })
  | .done => none

abbrev Place := Fin blocks.toNat × Fin threads.toNat

def act (isMatch : List Char → Bool) : Action Place Memory Thread :=
  fun _ g t g' t' => step isMatch g t = some (g', t')

def linearIdx (place : Place) : UInt32 :=
  UInt32.ofNat place.1 * threads + UInt32.ofNat place.2

def launch : State Place Memory Thread := ⟨⟨0, 0⟩, fun place => ⟨linearIdx place, .check⟩⟩

/-! The two decoders agree, and number the keys of length 1 to 4. -/

theorem kernelKey_eq_decodeKey (idx : UInt32) : kernelKey idx = decodeKey idx := rfl

theorem key_one {n : Nat} (bound : n < 36) : key 1 n = [chr n] := by
  simp [key, Radix.lowDigits, Nat.mod_eq_of_lt bound]

theorem key_two {n : Nat} (bound : n < 36 * 36) : key 2 n = [chr (n / 36), chr (n % 36)] := by
  have high : n / 36 % 36 = n / 36 := by omega
  simp [key, Radix.lowDigits, high]

theorem key_three {n : Nat} (bound : n < 36 * 36 * 36) :
    key 3 n = [chr (n / (36 * 36)), chr (n / 36 % 36), chr (n % 36)] := by
  have high : n / 36 / 36 % 36 = n / (36 * 36) := by omega
  simp [key, Radix.lowDigits, high]

theorem key_four {n : Nat} (bound : n < 36 * 36 * 36 * 36) :
    key 4 n = [chr (n / (36 * 36 * 36)), chr (n / (36 * 36) % 36), chr (n / 36 % 36),
      chr (n % 36)] := by
  have high : n / 36 / 36 / 36 % 36 = n / (36 * 36 * 36) := by omega
  have middle : n / 36 / 36 % 36 = n / (36 * 36) % 36 := by omega
  simp [key, Radix.lowDigits, high, middle]

def offset (length : Nat) : Nat := ((List.range' 1 (length - 1)).map fun l => 36 ^ l).sum

theorem decodeKey_text {idx : UInt32} (below : idx < totalKeys) :
    ∃ length, 1 ≤ length ∧ length ≤ 4 ∧ offset length ≤ idx.toNat ∧
      idx.toNat < offset length + 36 ^ length ∧
      (decodeKey idx).text = key length (idx.toNat - offset length) := by
  have bound : idx.toNat < 1727604 := UInt32.lt_iff_toNat_lt.mp below
  have cut (place : UInt32) (outside : ¬idx < place) :
      (idx - place).toNat = idx.toNat - place.toNat ∧ place.toNat ≤ idx.toNat := by
    have above : place ≤ idx := UInt32.not_lt.mp outside
    exact ⟨UInt32.toNat_sub_of_le _ _ above, UInt32.le_iff_toNat_le.mp above⟩
  by_cases one : idx < 36
  · have short : idx.toNat < 36 := UInt32.lt_iff_toNat_lt.mp one
    refine ⟨1, by decide, by decide, Nat.zero_le _, by simpa [offset] using short, ?_⟩
    simp only [decodeKey, one, if_true, CString.text]
    exact (key_one short).symm
  by_cases two : idx < 36 + 36 * 36
  · have short : idx.toNat < 1332 := UInt32.lt_iff_toNat_lt.mp two
    obtain ⟨rest, above⟩ := cut 36 one
    change (idx - 36).toNat = idx.toNat - 36 at rest
    change 36 ≤ idx.toNat at above
    refine ⟨2, by decide, by decide, above, short, ?_⟩
    simp only [decodeKey, one, two, if_true, if_false, CString.text]
    change _ = key 2 (idx.toNat - 36)
    rw [key_two (by omega), ← rest]
    rfl
  by_cases three : idx < 36 + 36 * 36 + 36 * 36 * 36
  · have short : idx.toNat < 47988 := UInt32.lt_iff_toNat_lt.mp three
    obtain ⟨rest, above⟩ := cut (36 + 36 * 36) two
    change (idx - (36 + 36 * 36)).toNat = idx.toNat - 1332 at rest
    change 1332 ≤ idx.toNat at above
    refine ⟨3, by decide, by decide, above, short, ?_⟩
    simp only [decodeKey, one, two, three, if_true, if_false, CString.text]
    change _ = key 3 (idx.toNat - 1332)
    rw [key_three (by omega), ← rest]
    rfl
  · obtain ⟨rest, above⟩ := cut (36 + 36 * 36 + 36 * 36 * 36) three
    change (idx - (36 + 36 * 36 + 36 * 36 * 36)).toNat = idx.toNat - 47988 at rest
    change 47988 ≤ idx.toNat at above
    refine ⟨4, by decide, by decide, above, bound, ?_⟩
    simp only [decodeKey, one, two, three, if_false, CString.text]
    change _ = key 4 (idx.toNat - 47988)
    rw [key_four (by omega), ← rest]
    rfl

def Candidate (text : List Char) : Prop := OverCharset text ∧ 1 ≤ text.length ∧ text.length ≤ 4

theorem decodeKey_candidate {idx : UInt32} (below : idx < totalKeys) :
    Candidate (decodeKey idx).text := by
  obtain ⟨length, lower, upper, _, _, text⟩ := decodeKey_text below
  rw [text]
  exact ⟨key_over _ _, by rwa [key_length], by rwa [key_length]⟩

theorem decodeKey_inj {first second : UInt32} (firstBelow : first < totalKeys)
    (secondBelow : second < totalKeys)
    (same : (decodeKey first).text = (decodeKey second).text) : first = second := by
  obtain ⟨length, _, _, lower, upper, text⟩ := decodeKey_text firstBelow
  obtain ⟨other, _, _, otherLower, otherUpper, otherText⟩ := decodeKey_text secondBelow
  rw [text, otherText] at same
  have sizes := congrArg List.length same
  rw [key_length, key_length] at sizes
  subst other
  have numbers := key_inj (by omega) (by omega) same
  apply UInt32.toNat_inj.mp
  omega

theorem offset_values : offset 1 = 0 ∧ offset 2 = 36 ∧ offset 3 = 1332 ∧ offset 4 = 47988 := by
  refine ⟨rfl, rfl, rfl, rfl⟩

theorem offset_next {length : Nat} (lower : 1 ≤ length) {other : Nat} (later : length < other)
    (upper : other ≤ 4) : offset length + 36 ^ length ≤ offset other := by
  obtain ⟨one, two, three, four⟩ := offset_values
  have first : length = 1 ∨ length = 2 ∨ length = 3 := by omega
  have second : other = 2 ∨ other = 3 ∨ other = 4 := by omega
  rcases first with rfl | rfl | rfl <;> rcases second with rfl | rfl | rfl <;>
    simp only [one, two, three, four, Nat.reducePow] <;> omega

theorem offset_last {length : Nat} (lower : 1 ≤ length) (upper : length ≤ 4) :
    offset length + 36 ^ length ≤ 1727604 := by
  obtain ⟨one, two, three, four⟩ := offset_values
  have range : length = 1 ∨ length = 2 ∨ length = 3 ∨ length = 4 := by omega
  rcases range with rfl | rfl | rfl | rfl <;>
    simp only [one, two, three, four, Nat.reducePow] <;> omega

theorem exists_index {text : List Char} (candidate : Candidate text) :
    ∃ idx < totalKeys, (decodeKey idx).text = text := by
  obtain ⟨inCharset, lower, upper⟩ := candidate
  obtain ⟨number, bound, spelled⟩ := exists_number inCharset
  have room := offset_last lower upper
  have index : (UInt32.ofNat (offset text.length + number)).toNat = offset text.length + number :=
    UInt32.toNat_ofNat_of_lt' (show offset text.length + number < 2 ^ 32 by omega)
  have below : UInt32.ofNat (offset text.length + number) < totalKeys := by
    rw [UInt32.lt_iff_toNat_lt, index]
    change _ < 1727604
    omega
  refine ⟨_, below, ?_⟩
  obtain ⟨length, first, last, start, stop, decoded⟩ := decodeKey_text below
  rw [index] at start stop decoded
  -- The ranges of the lengths do not overlap.
  have same : length = text.length := by
    rcases Nat.lt_trichotomy length text.length with shorter | same | longer
    · have gap := offset_next first shorter upper
      omega
    · exact same
    · have gap := offset_next lower longer last
      omega
  rw [decoded, same, Nat.add_sub_cancel_left, spelled]

theorem decodeKey_bijOn :
    Set.BijOn (fun idx => (decodeKey idx).text) {idx | idx < totalKeys} {text | Candidate text} :=
  ⟨fun _ below => decodeKey_candidate below,
    fun _ firstBelow _ secondBelow same => decodeKey_inj firstBelow secondBelow same,
    fun _ candidate => exists_index candidate⟩

/-! The race for the flag. -/

theorem linearIdx_toNat (place : Place) :
    (linearIdx place).toNat = place.1.val * 256 + place.2.val := by
  have block : place.1.val < 6749 := place.1.isLt
  have thread : place.2.val < 256 := place.2.isLt
  have outer : (UInt32.ofNat place.1).toNat = place.1.val :=
    UInt32.toNat_ofNat_of_lt' (show place.1.val < 2 ^ 32 by omega)
  have inner : (UInt32.ofNat place.2).toNat = place.2.val :=
    UInt32.toNat_ofNat_of_lt' (show place.2.val < 2 ^ 32 by omega)
  rw [linearIdx, UInt32.toNat_add, UInt32.toNat_mul, outer, inner]
  change (place.1.val * 256 % 2 ^ 32 + place.2.val) % 2 ^ 32 = _
  omega

theorem exists_place {idx : UInt32} (below : idx < totalKeys) :
    ∃ place, linearIdx place = idx := by
  have bound : idx.toNat < 1727604 := UInt32.lt_iff_toNat_lt.mp below
  have block : idx.toNat / 256 < blocks.toNat := by
    change _ < 6749
    omega
  have thread : idx.toNat % 256 < threads.toNat := Nat.mod_lt _ (by decide)
  refine ⟨(⟨_, block⟩, ⟨_, thread⟩), ?_⟩
  apply UInt32.toNat_inj.mp
  rw [linearIdx_toNat]
  exact Nat.div_add_mod' _ _

variable (isMatch : List Char → Bool)

def Hit (idx : UInt32) : Prop := idx < totalKeys ∧ isMatch (decodeKey idx).text = true

/-- What a thread knows: only a hit makes it try for the flag, and it leaves a hit behind
only when the flag is up. -/
structure Knows (place : Place) (g : Memory) (t : Thread) : Prop where
  idx : t.idx = linearIdx place
  flag : g.foundFlag = 0 ∨ g.foundFlag = 1
  hit : t.stage = .swap ∨ t.stage = .store → Hit isMatch t.idx
  raised : t.stage = .store → g.foundFlag = 1
  left : t.stage = .done → g.foundFlag = 1 ∨ ¬Hit isMatch t.idx

theorem step_flag {g g' : Memory} {t t' : Thread} (acted : step isMatch g t = some (g', t'))
    (flag : g.foundFlag = 0 ∨ g.foundFlag = 1) :
    (g'.foundFlag = 0 ∨ g'.foundFlag = 1) ∧ (g.foundFlag = 1 → g'.foundFlag = 1) := by
  simp only [step] at acted
  split at acted
  · split at acted <;> cases acted <;> exact ⟨flag, id⟩
  · split at acted <;> cases acted
    · exact ⟨Or.inr rfl, fun _ => rfl⟩
    · exact ⟨flag, id⟩
  · cases acted
    exact ⟨flag, id⟩
  · cases acted

theorem knows_stable : Stable (act isMatch) (Knows isMatch) where
  own := by
    rintro place g t g' t' acted ⟨idx, flag, hit, raised, left⟩
    have flags := step_flag isMatch acted flag
    cases stage : t.stage with
    | check =>
        simp only [act, step, stage] at acted
        split at acted
        · next beyond =>
          cases acted
          refine ⟨idx, flag, by simp, by simp, ?_⟩
          rintro -
          exact Or.inr fun hit => absurd hit.1 (UInt32.not_lt.mpr beyond)
        · next within =>
          cases acted
          have below := UInt32.not_le.mp within
          by_cases matched : isMatch (kernelKey t.idx).text = true
          · rw [if_pos matched]
            rw [kernelKey_eq_decodeKey] at matched
            exact ⟨idx, flag, fun _ => ⟨below, matched⟩, by simp, by simp⟩
          · rw [if_neg matched]
            rw [kernelKey_eq_decodeKey] at matched
            exact ⟨idx, flag, by simp, by simp, fun _ => Or.inr fun hit => matched hit.2⟩
    | swap =>
        have found := hit (Or.inl stage)
        simp only [act, step, stage] at acted
        split at acted
        · cases acted
          exact ⟨idx, flags.1, fun _ => found, fun _ => rfl, by simp⟩
        · next taken =>
          cases acted
          have up := flag.resolve_left taken
          exact ⟨idx, flag, by simp, by simp, fun _ => Or.inl up⟩
    | store =>
        have up := raised stage
        simp only [act, step, stage] at acted
        cases acted
        exact ⟨idx, flag, by simp, by simp, fun _ => Or.inl up⟩
    | done => simp [act, step, stage] at acted
  others := by
    rintro place other g t g' t' m different acted ⟨_, flag, _⟩ ⟨idx, _, hit, raised, left⟩
    obtain ⟨flagAfter, stays⟩ := step_flag isMatch acted flag
    refine ⟨idx, flagAfter, hit, fun stage => stays (raised stage), ?_⟩
    intro stage
    rcases left stage with up | missed
    · exact Or.inl (stays up)
    · exact Or.inr missed

/-- While the flag is up, a hit is stored or about to be. -/
def Recorded (s : State Place Memory Thread) : Prop :=
  s.shared.foundFlag = 1 →
    Hit isMatch s.shared.foundKeyIdx ∨ ∃ place, (s.locals place).stage = .store

theorem launch_knows (place : Place) :
    Knows isMatch place launch.shared (launch.locals place) := by
  refine ⟨rfl, Or.inl rfl, ?_, ?_, ?_⟩ <;> simp [launch]

theorem step_recorded {s t : State Place Memory Thread} (move : Step (act isMatch) s t)
    (knows : ∀ place, Knows isMatch place s.shared (s.locals place))
    (recorded : Recorded isMatch s) : Recorded isMatch t := by
  cases move with
  | turn place acted =>
      rename_i shared thread
      intro up
      -- A thread that was about to store stays so until it acts itself.
      have keeps (waiting : ∃ other, (s.locals other).stage = .store)
          (elsewhere : (s.locals place).stage ≠ .store) :
          ∃ other, (Function.update s.locals place thread other).stage = .store := by
        obtain ⟨other, about⟩ := waiting
        have different : other ≠ place := by
          rintro rfl
          exact elsewhere about
        exact ⟨other, by rw [Function.update_of_ne different]; exact about⟩
      cases stage : (s.locals place).stage with
      | check =>
          have same : shared = s.shared := by
            simp only [act, step, stage] at acted
            split at acted <;> cases acted <;> rfl
          subst same
          exact (recorded up).imp id fun waiting => keeps waiting (by simp [stage])
      | swap =>
          simp only [act, step, stage] at acted
          split at acted
          · cases acted
            exact Or.inr ⟨place, by simp only [Function.update_self]⟩
          · cases acted
            exact (recorded up).imp id fun waiting => keeps waiting (by simp [stage])
      | store =>
          have found := (knows place).hit (Or.inr stage)
          simp only [act, step, stage] at acted
          cases acted
          exact Or.inl found
      | done => simp [act, step, stage] at acted

section
variable {isMatch} {s : State Place Memory Thread} (run : Run (act isMatch) launch s)
include run

theorem run_knows (place : Place) : Knows isMatch place s.shared (s.locals place) :=
  (knows_stable isMatch).run run (launch_knows isMatch) place

theorem run_recorded : Recorded isMatch s := by
  induction run with
  | refl =>
      intro up
      simp [launch] at up
  | tail path move ih => exact step_recorded isMatch move (run_knows path) ih

end

/-- When all threads of the launch are done, the flag tells whether some key matches and the
index spells such a key; the indices number the keys. -/
theorem kernel_finds {isMatch : List Char → Bool} {s : State Place Memory Thread}
    (run : Run (act isMatch) launch s) (done : ∀ place, (s.locals place).stage = .done) :
    (s.shared.foundFlag = 1 ↔ ∃ text, Candidate text ∧ isMatch text = true) ∧
      (s.shared.foundFlag ≠ 1 → s.shared.foundFlag = 0) ∧
      (s.shared.foundFlag = 1 → Candidate (decodeKey s.shared.foundKeyIdx).text ∧
        isMatch (decodeKey s.shared.foundKeyIdx).text = true) ∧
      Set.BijOn (fun idx => (decodeKey idx).text) {idx | idx < totalKeys}
        {text | Candidate text} := by
  have recorded : s.shared.foundFlag = 1 → Hit isMatch s.shared.foundKeyIdx := by
    intro up
    rcases run_recorded run up with found | ⟨place, about⟩
    · exact found
    · rw [done place] at about
      cases about
  have spelled (up : s.shared.foundFlag = 1) : Candidate (decodeKey s.shared.foundKeyIdx).text ∧
      isMatch (decodeKey s.shared.foundKeyIdx).text = true :=
    ⟨decodeKey_candidate (recorded up).1, (recorded up).2⟩
  refine ⟨⟨fun up => ⟨_, spelled up⟩, ?_⟩, ?_, spelled, decodeKey_bijOn⟩
  · rintro ⟨text, candidate, matched⟩
    obtain ⟨idx, below, rfl⟩ := exists_index candidate
    obtain ⟨place, same⟩ := exists_place below
    have knows := run_knows run place
    have hit : Hit isMatch (s.locals place).idx := by
      rw [knows.idx, same]
      exact ⟨below, matched⟩
    exact (knows.left (done place)).resolve_right fun missed => missed hit
  · have place : Place := (⟨0, by decide⟩, ⟨0, by decide⟩)
    exact (run_knows run place).flag.resolve_right

def Stage.rank : Stage → Nat
  | .check => 3
  | .swap => 2
  | .store => 1
  | .done => 0

theorem solo : Solo (act isMatch) (fun t => t.stage = .done) launch.locals (fun _ => True)
    (fun _ _ _ => True) (fun _ _ t => t.stage.rank) where
  enter := fun _ _ _ => trivial
  move := by
    intro place g t _
    cases stage : t.stage with
    | check =>
        right
        by_cases beyond : totalKeys ≤ t.idx
        · exact ⟨g, { t with stage := .done }, by simp [act, step, stage, beyond], trivial,
            by simp [Stage.rank]⟩
        · refine ⟨g, { t with stage := if isMatch (kernelKey t.idx).text then .swap else .done },
            by simp [act, step, stage, beyond], trivial, ?_⟩
          by_cases matched : isMatch (kernelKey t.idx).text = true <;> simp [matched, Stage.rank]
    | swap =>
        right
        by_cases down : g.foundFlag = 0
        · exact ⟨{ g with foundFlag := 1 }, { t with stage := .store },
            by simp [act, step, stage, down], trivial, by simp [Stage.rank]⟩
        · exact ⟨g, { t with stage := .done }, by simp [act, step, stage, down], trivial,
            by simp [Stage.rank]⟩
    | store =>
        right
        exact ⟨{ g with foundKeyIdx := t.idx }, { t with stage := .done },
          by simp [act, step, stage], trivial, by simp [Stage.rank]⟩
    | done => exact Or.inl ⟨rfl, trivial⟩

theorem exists_done : ∃ s, Run (act isMatch) launch s ∧ ∀ place, (s.locals place).stage = .done :=
  (solo isMatch).exists_done trivial

theorem kernel_finds_zz : ∃ s : State Place Memory Thread,
    (s.shared.foundFlag = 1 ↔
      ∃ text, Candidate text ∧ decide (text = ['z', 'z'] ∨ text = ['0']) = true) ∧
      (s.shared.foundFlag ≠ 1 → s.shared.foundFlag = 0) ∧
      (s.shared.foundFlag = 1 → Candidate (decodeKey s.shared.foundKeyIdx).text ∧
        decide ((decodeKey s.shared.foundKeyIdx).text = ['z', 'z'] ∨
          (decodeKey s.shared.foundKeyIdx).text = ['0']) = true) ∧
      Set.BijOn (fun idx => (decodeKey idx).text) {idx | idx < totalKeys}
        {text | Candidate text} := by
  obtain ⟨s, run, done⟩ := exists_done fun text => decide (text = ['z', 'z'] ∨ text = ['0'])
  exact ⟨s, kernel_finds run done⟩

end CudaOpenMp.GpuSearch
