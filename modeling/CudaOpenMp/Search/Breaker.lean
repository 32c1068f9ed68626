import CudaOpenMp.Cipher.Breaker
import CudaOpenMp.Library.Stores
import Mathlib.Data.Fintype.Prod
import Mathlib.Data.List.FinRange

/-!
The kernel of `cipher_breaker.cu` and its `main`. The threads exchange a flag, and the one that
finds it down stores its key and its text. The copy that should clear the flag is given the wrong
direction, so the flag starts with whatever its memory held.
-/

namespace CudaOpenMp.Breaker

open Interleaving Stores

def totalKeys : Nat := 1679616

def threadsPerBlock : Nat := 256

def blocksPerGrid : Nat := (totalKeys + threadsPerBlock - 1) / threadsPerBlock

inductive Cell where
  | key (i : Fin 4)
  | pt (i : Fin 12)
  deriving DecidableEq, Repr

abbrev Results := Memory fun _ : Cell => UInt8

structure Device where
  found : Int32
  results : Results

/-- The device memory, and for each character the thread that stored it last. -/
structure Traced extends Device where
  storedBy : Cell → Option Nat

def resultStores (k1 : Key) (plaintext : Text) : List (Assign fun _ : Cell => UInt8) :=
  ((List.finRange 4).map fun i => assign (.key i) fun _ => k1 i) ++
    (List.finRange 12).map fun i => assign (.pt i) fun _ => plaintext i

inductive Stage where
  | check
  | exchange (k1 : Key) (plaintext : Text)
  | store (todo : List (Assign fun _ : Cell => UInt8))

structure Thread where
  idx : Nat
  stage : Stage

def Thread.done (t : Thread) : Prop := t.stage = .store []

/-- What a thread computes before it touches the flag: its key and text, if they match. -/
def candidate (c2 : Text) (idx : Nat) : Option (Key × Text) :=
  if idx ≥ totalKeys then none
  else match decrypt c2 (keyOf idx) with
    | some plaintext => if StartsWithBook plaintext then some (keyOf idx, plaintext) else none
    | none => none

def Traced.store (g : Traced) (idx : Nat) (a : Assign fun _ : Cell => UInt8) : Traced :=
  { g with results := a.run g.results, storedBy := Function.update g.storedBy a.loc (some idx) }

/-- One access of a thread to the device memory, or its work before the first one. -/
def step (c2 : Text) (g : Traced) (t : Thread) : Option (Traced × Thread) :=
  match t.stage with
  | .check =>
      match candidate c2 t.idx with
      | some (k1, plaintext) => some (g, { t with stage := .exchange k1 plaintext })
      | none => some (g, { t with stage := .store [] })
  | .exchange k1 plaintext =>
      let after := { g with found := 1 }
      if g.found = 0 then some (after, { t with stage := .store (resultStores k1 plaintext) })
      else some (after, { t with stage := .store [] })
  | .store [] => none
  | .store (a :: todo) =>
      some (g.store t.idx a, { t with stage := .store todo })

abbrev Place := Fin blocksPerGrid × Fin threadsPerBlock

def act (c2 : Text) : Action Place Traced Thread := fun _ g t g' t' => step c2 g t = some (g', t')

def linearIdx (place : Place) : Nat := place.1 * threadsPerBlock + place.2

def bruteForceCipher (g : Device) : State Place Traced Thread :=
  ⟨⟨g, fun _ => none⟩, fun place => ⟨linearIdx place, .check⟩⟩

inductive Side where
  | host
  | device
  deriving DecidableEq, Repr

structure Buffer (α : Type) where
  side : Side
  content : α

inductive Kind where
  | hostToDevice
  | deviceToHost
  deriving DecidableEq, Repr

def Kind.fits (kind : Kind) (dst src : Side) : Prop :=
  match kind with
  | .hostToDevice => dst = .device ∧ src = .host
  | .deviceToHost => dst = .host ∧ src = .device

instance (kind : Kind) (dst src : Side) : Decidable (kind.fits dst src) :=
  match kind with
  | .hostToDevice => inferInstanceAs (Decidable (_ ∧ _))
  | .deviceToHost => inferInstanceAs (Decidable (_ ∧ _))

def cudaMemcpy {α : Type} (dst src : Buffer α) (kind : Kind) : α :=
  if kind.fits dst.side src.side then src.content else dst.content

/-- The variables of `main` that the results are copied to, and the threads they come from. -/
structure Host where
  found : Int32
  results : Results
  storedBy : Cell → Option Nat

/-- The contents of the memory that `cudaMalloc` hands out. -/
structure Malloc where
  c2 : Text
  device : Device

/-- The copy of `h_found`, which is 0, to the device. -/
def copyFound (before : Device) : Device :=
  { before with found := cudaMemcpy ⟨.device, before.found⟩ ⟨.host, 0⟩ .deviceToHost }

def readBack (after : Traced) : Host :=
  let found := cudaMemcpy ⟨.host, 0⟩ ⟨.device, after.found⟩ .deviceToHost
  let results : Results × (Cell → Option Nat) := (fun _ => 0, fun _ => none)
  if found ≠ 0 then
    let (results, storedBy) :=
      cudaMemcpy ⟨.host, results⟩ ⟨.device, (after.results, after.storedBy)⟩ .deviceToHost
    ⟨found, results, storedBy⟩
  else ⟨found, results.1, results.2⟩

def Main (c2 : Text) (memory : Malloc) (host : Host) : Prop :=
  let input := cudaMemcpy ⟨.device, memory.c2⟩ ⟨.host, c2⟩ .hostToDevice
  ∃ s, Run (act input) (bruteForceCipher (copyFound memory.device)) s ∧
    (∀ place, (s.locals place).done) ∧ host = readBack s.shared

/-! The keys that match. -/

/-- A key over the alphabet with an invertible matrix, and the text that it gives. -/
structure Breaks (c2 : Text) (key : Key) (pt : Text) : Prop where
  alphabet : ∀ i, InAlphabet (key i)
  invertible : Int.gcd (determinant (mat key)) 36 = 1
  decrypted : decrypt c2 key = some pt
  book : StartsWithBook pt

variable {c2 : Text}

theorem candidate_eq_some {idx : Nat} {k1 : Key} {plaintext : Text} :
    candidate c2 idx = some (k1, plaintext) ↔ idx < totalKeys ∧ k1 = keyOf idx ∧
      decrypt c2 (keyOf idx) = some plaintext ∧ StartsWithBook plaintext := by
  rw [candidate]
  split
  · next beyond => simp [Nat.not_lt.mpr beyond]
  · next within =>
    have below := Nat.not_le.mp within
    split
    · next plain found =>
      rw [found]
      by_cases book : StartsWithBook plain
      · rw [if_pos book]
        constructor
        · intro same
          cases same
          exact ⟨below, rfl, rfl, book⟩
        · rintro ⟨_, rfl, same, _⟩
          rw [Option.some.inj same]
      · rw [if_neg book]
        constructor
        · intro same
          cases same
        · rintro ⟨_, _, same, other⟩
          exact absurd (Option.some.inj same ▸ other) book
    · next found => simp [found]

theorem exists_linearIdx {idx : Nat} (below : idx < totalKeys) : ∃ place, linearIdx place = idx := by
  have block : idx / threadsPerBlock < blocksPerGrid := by
    change idx < 1679616 at below
    change idx / 256 < 6561
    omega
  exact ⟨(⟨_, block⟩, ⟨_, Nat.mod_lt idx (by decide)⟩), Nat.div_add_mod' idx threadsPerBlock⟩

theorem breaks_iff {key : Key} {pt : Text} :
    Breaks c2 key pt ↔ ∃ place, candidate c2 (linearIdx place) = some (key, pt) := by
  constructor
  · rintro ⟨alphabet, _, decrypted, book⟩
    obtain ⟨idx, below, rfl⟩ := exists_keyOf alphabet
    obtain ⟨place, rfl⟩ := exists_linearIdx below
    exact ⟨place, candidate_eq_some.mpr ⟨below, rfl, decrypted, book⟩⟩
  · rintro ⟨place, found⟩
    obtain ⟨_, rfl, decrypted, book⟩ := candidate_eq_some.mp found
    refine ⟨keyOf_alphabet _, ?_, decrypted, book⟩
    rw [← invMat_isSome, ← Option.isSome_map, Option.isSome_iff_exists]
    exact ⟨_, decrypted⟩

/-! The race for the flag. -/

def written (key : Key) (pt : Text) : Results
  | .key i => key i
  | .pt i => pt i

theorem resultStores_loc (key : Key) (pt : Text) (cell : Cell) :
    ∃ a ∈ resultStores key pt, a.loc = cell := by
  cases cell with
  | key i => exact ⟨_, List.mem_append_left _ (List.mem_map_of_mem (List.mem_finRange i)), rfl⟩
  | pt i => exact ⟨_, List.mem_append_right _ (List.mem_map_of_mem (List.mem_finRange i)), rfl⟩

theorem resultStores_settles (key : Key) (pt : Text) (start : Results) :
    Settles (fun _ : Unit => resultStores key pt) start (written key pt) where
  value := by
    intro _ a member m _
    rcases List.mem_append.mp member with first | second
    · obtain ⟨i, _, rfl⟩ := List.mem_map.mp first
      exact Or.inl rfl
    · obtain ⟨i, _, rfl⟩ := List.mem_map.mp second
      exact Or.inl rfl
  rest := by
    intro cell free
    obtain ⟨a, member, place⟩ := resultStores_loc key pt cell
    exact (free ⟨(), a, member, place⟩).elim

inductive Moved (c2 : Text) (g : Traced) (t : Thread) : Traced → Thread → Prop
  | hit {k1 : Key} {plaintext : Text} : t.stage = .check →
      candidate c2 t.idx = some (k1, plaintext) →
      Moved c2 g t g { t with stage := .exchange k1 plaintext }
  | miss : t.stage = .check → candidate c2 t.idx = none →
      Moved c2 g t g { t with stage := .store [] }
  | won {k1 : Key} {plaintext : Text} : t.stage = .exchange k1 plaintext → g.found = 0 →
      Moved c2 g t { g with found := 1 } { t with stage := .store (resultStores k1 plaintext) }
  | lost {k1 : Key} {plaintext : Text} : t.stage = .exchange k1 plaintext → g.found ≠ 0 →
      Moved c2 g t { g with found := 1 } { t with stage := .store [] }
  | stored {a : Assign fun _ : Cell => UInt8} {todo : List (Assign fun _ : Cell => UInt8)} :
      t.stage = .store (a :: todo) →
      Moved c2 g t (g.store t.idx a) { t with stage := .store todo }

theorem moved {i : Place} {g g' : Traced} {t t' : Thread} (acted : act c2 i g t g' t') :
    Moved c2 g t g' t' := by
  simp only [act, step] at acted
  split at acted
  · next stage =>
    split at acted
    · next found =>
      cases acted
      exact .hit stage found
    · next none =>
      cases acted
      exact .miss stage none
  · next stage =>
    split at acted
    · next down =>
      cases acted
      exact .won stage down
    · next up =>
      cases acted
      exact .lost stage up
  · cases acted
  · next stage =>
    cases acted
    exact .stored stage

/-- A thread past the check has a match of its own, or has seen the flag up. -/
structure Knows (c2 : Text) (place : Place) (g : Traced) (t : Thread) : Prop where
  idx : t.idx = linearIdx place
  pending : ∀ k1 plaintext, t.stage = .exchange k1 plaintext →
    candidate c2 (linearIdx place) = some (k1, plaintext)
  left : ∀ todo, t.stage = .store todo → g.found ≠ 0 ∨ candidate c2 (linearIdx place) = none

theorem Moved.found {g g' : Traced} {t t' : Thread} (move : Moved c2 g t g' t') :
    (g'.found = g.found ∨ g'.found = 1) ∧ (g.found ≠ 0 → g'.found ≠ 0) := by
  have one : (1 : Int32) ≠ 0 := by decide
  cases move with
  | hit => exact ⟨Or.inl rfl, id⟩
  | miss => exact ⟨Or.inl rfl, id⟩
  | won => exact ⟨Or.inr rfl, fun _ => one⟩
  | lost => exact ⟨Or.inr rfl, fun _ => one⟩
  | stored => exact ⟨Or.inl rfl, id⟩

theorem knows_stable : Stable (act c2) (Knows c2) where
  own := by
    rintro place g t g' t' acted ⟨idx, pending, left⟩
    have one : (1 : Int32) ≠ 0 := by decide
    cases moved acted with
    | hit stage found =>
        refine ⟨idx, ?_, by simp⟩
        rintro k1 plaintext same
        cases same
        rw [← idx]
        exact found
    | miss stage none =>
        rw [idx] at none
        exact ⟨idx, by simp, fun _ _ => Or.inr none⟩
    | won stage down => exact ⟨idx, by simp, fun _ _ => Or.inl one⟩
    | lost stage up => exact ⟨idx, by simp, fun _ _ => Or.inl one⟩
    | stored stage => exact ⟨idx, by simp, fun _ _ => left _ stage⟩
  others := by
    rintro place other g t g' t' m different acted _ ⟨idx, pending, left⟩
    refine ⟨idx, pending, ?_⟩
    intro todo stage
    exact (left todo stage).imp (moved acted).found.2 id

def Thread.Idle (t : Thread) : Prop := ∀ todo, t.stage = .store todo → todo = []

/-- Nobody stores, or one thread does that found the flag down. -/
inductive Phase (c2 : Text) (start : Device) (s : State Place Traced Thread) : Prop
  | untouched : s.shared.results = start.results → s.shared.storedBy = (fun _ => none) →
      (s.shared.found = start.found ∨ start.found ≠ 0 ∧ s.shared.found ≠ 0) →
      (∀ place, (s.locals place).Idle) → Phase c2 start s
  | taken (winner : Place) (key : Key) (pt : Text) (todo : List (Assign fun _ : Cell => UInt8)) :
      start.found = 0 → s.shared.found ≠ 0 → candidate c2 (linearIdx winner) = some (key, pt) →
      (s.locals winner).stage = .store todo → exec todo s.shared.results = written key pt →
      (∀ cell, (∃ a ∈ todo, a.loc = cell) ∨ s.shared.storedBy cell = some (linearIdx winner)) →
      (∀ place, place ≠ winner → (s.locals place).Idle) → Phase c2 start s

theorem idle_update {s : State Place Traced Thread} {place other : Place} {t : Thread}
    (idle : t.Idle) (rest : other ≠ place → (s.locals other).Idle) :
    (Function.update s.locals place t other).Idle := by
  by_cases same : other = place
  · subst other
    rwa [Function.update_self]
  · rw [Function.update_of_ne same]
    exact rest same

theorem exchange_idle (t : Thread) (k1 : Key) (plaintext : Text) :
    Thread.Idle { t with stage := .exchange k1 plaintext } := by
  rintro todo same
  cases same

theorem store_nil_idle (t : Thread) : Thread.Idle { t with stage := .store [] } := by
  rintro todo same
  cases same
  rfl

theorem Phase.pass {start : Device} {s : State Place Traced Thread} {place : Place} {g' : Traced}
    {t' : Thread} (phase : Phase c2 start s) (same : g'.results = s.shared.results)
    (sameBy : g'.storedBy = s.shared.storedBy)
    (found : g'.found = s.shared.found ∨ s.shared.found ≠ 0 ∧ g'.found ≠ 0) (idle : t'.Idle)
    (before : ∀ todo, (s.locals place).stage ≠ .store todo) :
    Phase c2 start ⟨g', Function.update s.locals place t'⟩ := by
  cases phase with
  | untouched results nobody flag quiet =>
      refine .untouched (same.trans results) (sameBy.trans nobody) ?_ fun other => idle_update idle fun _ => quiet other
      rcases found with kept | ⟨up, still⟩
      · simp only [kept]
        exact flag
      · refine Or.inr ⟨?_, still⟩
        rcases flag with first | ⟨raised, _⟩
        · rwa [first] at up
        · exact raised
  | taken winner key pt todo down up matched stage progress stores quiet =>
      have different : winner ≠ place := by
        rintro rfl
        exact before _ stage
      refine .taken winner key pt todo down ?_ matched ?_ ?_ ?_ fun other apart =>
        idle_update idle fun _ => quiet other apart
      · rcases found with kept | ⟨_, still⟩
        · rwa [kept]
        · exact still
      · simp only [Function.update_of_ne different]
        exact stage
      · rwa [same]
      · rwa [sameBy]

theorem stored_place {g : Traced} {idx : Nat} (a : Assign fun _ : Cell => UInt8)
    (todo : List (Assign fun _ : Cell => UInt8)) {cell : Cell}
    (stores : (∃ b ∈ a :: todo, b.loc = cell) ∨ g.storedBy cell = some idx) :
    (∃ b ∈ todo, b.loc = cell) ∨ (g.store idx a).storedBy cell = some idx := by
  by_cases here : a.loc = cell
  · subst here
    exact Or.inr (Function.update_self _ _ _)
  · have kept : (g.store idx a).storedBy cell = g.storedBy cell :=
      Function.update_of_ne (Ne.symm here) _ _
    rw [kept]
    rcases stores with ⟨b, member, place⟩ | known
    · rcases List.mem_cons.mp member with rfl | later
      · exact absurd place here
      · exact Or.inl ⟨b, later, place⟩
    · exact Or.inr known

theorem Phase.step {start : Device} {s t : State Place Traced Thread}
    (move : Step (act c2) s t) (knows : ∀ place, Knows c2 place s.shared (s.locals place))
    (phase : Phase c2 start s) : Phase c2 start t := by
  cases move with
  | turn place acted =>
      have one : (1 : Int32) ≠ 0 := by decide
      cases moved acted with
      | hit stage found =>
          exact phase.pass rfl rfl (Or.inl rfl) (exchange_idle _ _ _) (by simp [stage])
      | miss stage none =>
          exact phase.pass rfl rfl (Or.inl rfl) (store_nil_idle _) (by simp [stage])
      | lost stage up =>
          exact phase.pass rfl rfl (Or.inr ⟨up, one⟩) (store_nil_idle _) (by simp [stage])
      | @won k1 plaintext stage down =>
          cases phase with
          | untouched results nobody flag quiet =>
              have initial : start.found = 0 := by
                rcases flag with same | ⟨_, up⟩
                · rw [← same, down]
                · exact absurd down up
              refine .taken place k1 plaintext _ initial one ((knows place).pending _ _ stage) ?_
                (resultStores_settles k1 plaintext _).exec
                (fun cell => Or.inl (resultStores_loc k1 plaintext cell)) ?_
              · simp only [Function.update_self]
              · intro other apart
                simp only [Function.update_of_ne apart]
                exact quiet other
          | taken _ _ _ _ _ up => exact absurd down up
      | @stored a todo stage =>
          cases phase with
          | untouched _ _ _ quiet => cases quiet place _ stage
          | taken winner key pt before down up matched waiting progress stores quiet =>
              have same : place = winner := by
                by_contra apart
                cases quiet place apart _ stage
              subst winner
              rw [stage] at waiting
              cases waiting
              refine .taken place key pt todo down up matched ?_ progress ?_ ?_
              · simp only [Function.update_self]
              · intro cell
                rw [← (knows place).idx]
                exact stored_place a todo (by rw [(knows place).idx]; exact stores cell)
              · intro other apart
                simp only [Function.update_of_ne apart]
                exact quiet other apart

theorem run_knows {start : Device} {s : State Place Traced Thread}
    (run : Run (act c2) (bruteForceCipher start) s) :
    ∀ place, Knows c2 place s.shared (s.locals place) := by
  apply knows_stable.run run
  intro place
  refine ⟨rfl, ?_, ?_⟩ <;> simp [bruteForceCipher]

theorem run_phase {start : Device} {s : State Place Traced Thread}
    (run : Run (act c2) (bruteForceCipher start) s) : Phase c2 start s := by
  induction run with
  | refl =>
      refine .untouched rfl rfl (Or.inl rfl) ?_
      intro place todo stage
      cases stage
  | tail path move ih => exact ih.step move (run_knows path)

/-! What `main` reads back. -/

def Results.key (results : Results) : Key := fun i => results (.key i)

def Results.pt (results : Results) : Text := fun i => results (.pt i)

/-- The flag tells whether some key matches, and the results are such a key and its text, all
stored by one thread. -/
def Correct (c2 : Text) (host : Host) : Prop :=
  (host.found ≠ 0 ↔ ∃ key pt, Breaks c2 key pt) ∧
    (host.found ≠ 0 → Breaks c2 host.results.key host.results.pt ∧
      ∃ idx, ∀ cell, host.storedBy cell = some idx)

theorem copyFound_eq (before : Device) : copyFound before = before := rfl

theorem readBack_found (after : Traced) : (readBack after).found = after.found := by
  by_cases down : after.found = 0 <;> simp [readBack, cudaMemcpy, Kind.fits, down]

theorem readBack_results {after : Traced} (up : after.found ≠ 0) :
    (readBack after).results = after.results ∧ (readBack after).storedBy = after.storedBy := by
  simp [readBack, cudaMemcpy, Kind.fits, up]

theorem run_raised {start : Device} {s : State Place Traced Thread}
    (run : Run (act c2) (bruteForceCipher start) s) (raised : start.found ≠ 0) :
    s.shared.found ≠ 0 ∧ s.shared.results = start.results ∧
      s.shared.storedBy = fun _ => none := by
  cases run_phase run with
  | untouched results nobody flag _ =>
      refine ⟨?_, results, nobody⟩
      rcases flag with same | ⟨_, up⟩
      · rwa [same]
      · exact up
  | taken _ _ _ _ down => exact absurd down raised

theorem run_cleared {start : Device} {s : State Place Traced Thread}
    (run : Run (act c2) (bruteForceCipher start) s) (done : ∀ place, (s.locals place).done)
    (down : start.found = 0) :
    (s.shared.found ≠ 0 ↔ ∃ key pt, Breaks c2 key pt) ∧
      (s.shared.found ≠ 0 → Breaks c2 s.shared.results.key s.shared.results.pt ∧
        ∃ idx, ∀ cell, s.shared.storedBy cell = some idx) := by
  cases run_phase run with
  | untouched results nobody flag quiet =>
      have still : s.shared.found = 0 := by
        rcases flag with same | ⟨up, _⟩
        · rw [same, down]
        · exact absurd down up
      refine ⟨⟨fun up => absurd still up, ?_⟩, fun up => absurd still up⟩
      rintro ⟨key, pt, breaks⟩
      obtain ⟨place, matched⟩ := breaks_iff.mp breaks
      rcases (run_knows run place).left [] (done place) with up | none
      · exact up
      · rw [matched] at none
        cases none
  | taken winner key pt todo _ up matched stage progress stores _ =>
      have ended := done winner
      rw [Thread.done, stage, Stage.store.injEq] at ended
      subst ended
      have stored : s.shared.results = written key pt := progress
      have breaks : Breaks c2 key pt := breaks_iff.mpr ⟨winner, matched⟩
      have one : ∀ cell, s.shared.storedBy cell = some (linearIdx winner) := by
        intro cell
        rcases stores cell with ⟨a, member, _⟩ | known
        · cases member
        · exact known
      rw [stored]
      exact ⟨⟨fun _ => ⟨key, pt, breaks⟩, fun _ => up⟩, fun _ => ⟨breaks, _, one⟩⟩

/-- What `main` reads back is right exactly when the flag happens to start down. -/
theorem main_correct_iff {memory : Malloc} {host : Host} (main : Main c2 memory host) :
    Correct c2 host ↔ memory.device.found = 0 := by
  obtain ⟨s, run, done, rfl⟩ := main
  rw [copyFound_eq] at run
  constructor
  · rintro ⟨_, answer⟩
    by_contra raised
    obtain ⟨up, _, nobody⟩ := run_raised run raised
    rw [readBack_found] at answer
    obtain ⟨_, idx, stored⟩ := answer up
    rw [(readBack_results up).2, nobody] at stored
    cases stored (.key 0)
  · intro down
    obtain ⟨found, answer⟩ := run_cleared run done down
    refine ⟨by rwa [readBack_found], ?_⟩
    intro up
    rw [readBack_found] at up
    rw [(readBack_results up).1, (readBack_results up).2]
    exact answer up

def Stage.rank : Stage → Nat
  | .check => 18
  | .exchange _ _ => 17
  | .store todo => todo.length

theorem solo_done (start : Device) : Solo (act c2) Thread.done (bruteForceCipher start).locals
    (fun _ => True) (fun _ _ _ => True) (fun _ _ t => t.stage.rank) where
  enter := fun _ _ _ => trivial
  move := by
    rintro place g ⟨idx, stage⟩ -
    cases stage with
    | check =>
        right
        cases found : candidate c2 idx with
        | some pair =>
            obtain ⟨k1, plaintext⟩ := pair
            exact ⟨g, ⟨idx, .exchange k1 plaintext⟩, by simp [act, step, found], trivial,
              by simp [Stage.rank]⟩
        | none => exact ⟨g, ⟨idx, .store []⟩, by simp [act, step, found], trivial,
            by simp [Stage.rank]⟩
    | exchange k1 plaintext =>
        right
        by_cases down : g.found = 0
        · exact ⟨{ g with found := 1 }, ⟨idx, .store (resultStores k1 plaintext)⟩,
            by simp [act, step, down], trivial, by simp [Stage.rank, resultStores]⟩
        · exact ⟨{ g with found := 1 }, ⟨idx, .store []⟩, by simp [act, step, down], trivial,
            by simp [Stage.rank]⟩
    | store todo =>
        cases todo with
        | nil => exact Or.inl ⟨rfl, trivial⟩
        | cons a todo =>
            right
            exact ⟨g.store idx a, ⟨idx, .store todo⟩, rfl, trivial,
              by simp [Stage.rank]⟩

theorem exists_main (c2 : Text) (memory : Malloc) : ∃ host, Main c2 memory host := by
  obtain ⟨s, run, done⟩ := (@solo_done c2 (copyFound memory.device)).exists_done trivial
  exact ⟨_, s, run, done, rfl⟩

/-- The ciphertext in `main`. -/
def c2Input : Text := fun i => ("ryryrxwyxtxr".toList.getD i ' ').toUInt8

def allocated (found : Int32) : Malloc := ⟨fun _ => 0, found, fun _ => 0⟩

theorem main_correct_iff_c2Input : ∃ host, Main c2Input (allocated 0) host ∧
    (Correct c2Input host ↔ (allocated 0).device.found = 0) := by
  obtain ⟨host, main⟩ := exists_main c2Input (allocated 0)
  exact ⟨host, main, main_correct_iff main⟩

/-- With a flag that starts up, zeros are printed as the key. -/
theorem c2Input_fails : ∃ host, Main c2Input (allocated 1) host ∧ host.found ≠ 0 ∧
    ¬Correct c2Input host := by
  obtain ⟨host, s, run, done, rfl⟩ := exists_main c2Input (allocated 1)
  have raised : (allocated 1).device.found ≠ 0 := by decide
  obtain ⟨up, kept, _⟩ := run_raised run raised
  refine ⟨_, ⟨s, run, done, rfl⟩, by rwa [readBack_found], ?_⟩
  rintro ⟨_, answer⟩
  rw [readBack_found, (readBack_results up).1, kept] at answer
  exact absurd ((answer up).1.alphabet 0) (by decide)

end CudaOpenMp.Breaker
