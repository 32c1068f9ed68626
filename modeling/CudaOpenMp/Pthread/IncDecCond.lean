import CudaOpenMp.Pthread.IncDec

/-!
The counters of `inc_dec_cond.c` and `inc_dec_mutex.c`, which print what they have counted to. The
thread that counts down says so when the count is zero; in `inc_dec_cond.c` it then waits, and gives
the mutex back when it is woken.
-/

namespace CudaOpenMp.IncDecCond

open Interleaving Sections
open IncDec (Party Cond)

/-- The count is printed as a signed number. -/
inductive Line where
  | minus (count : Int32)
  | plus (count : Int32)
  | zero
deriving DecidableEq

def decrementCount : Section UInt32 Line Cond where
  test count := 0 < count
  body := [.assign (· - 1), .printf fun count => .minus count.toInt32]
  otherwise := [.printf fun _ => .zero]
  ending := .wait false .countNonzero

def incrementCount : Section UInt32 Line Cond where
  test _ := true
  body := [.signal (· == 0) .countNonzero, .assign (· + 1),
    .printf fun count => .plus count.toInt32]
  otherwise := []
  ending := .unlock

def incDecCond : Party → Section UInt32 Line Cond
  | .decrement => decrementCount
  | .increment => incrementCount

/-! `inc_dec_mutex.c` -/

def decrementCountMutex : Section UInt32 Line Cond where
  test count := 0 < count
  body := [.assign (· - 1), .printf fun count => .minus count.toInt32]
  otherwise := [.printf fun _ => .zero]
  ending := .unlock

def incrementCountMutex : Section UInt32 Line Cond where
  test _ := true
  body := [.assign (· + 1), .printf fun count => .plus count.toInt32]
  otherwise := []
  ending := .unlock

def incDecMutex : Party → Section UInt32 Line Cond
  | .decrement => decrementCountMutex
  | .increment => incrementCountMutex

def counter : UInt32 → Line → Option UInt32
  | count, .minus n => if count ≠ 0 ∧ n = (count - 1).toInt32 then some (count - 1) else none
  | count, .plus n => if n = (count + 1).toInt32 then some (count + 1) else none
  | count, .zero => if count = 0 then some count else none

def Line.isZero : Line → Bool
  | .zero => true
  | .minus _ | .plus _ => false

theorem incDecCond_alone : Alone incDecCond := by
  intro i j c first second
  cases i <;> cases j <;> simp_all [incDecCond, incrementCount, Ending.cond]

theorem incDecMutex_never (i : Party) : (incDecMutex i).ending = .unlock := by
  cases i <;> rfl

theorem decrement_go {count : UInt32} (nonzero : count ≠ 0) :
    (incDecCond .decrement).branch count = (decrementCount.body, .unlock) := by
  have positive : 0 < count := UInt32.pos_iff_ne_zero.mpr nonzero
  simp [incDecCond, decrementCount, Section.branch, positive]

theorem mutex_go {count : UInt32} (nonzero : count ≠ 0) :
    (incDecMutex .decrement).branch count = (decrementCountMutex.body, .unlock) := by
  have positive : 0 < count := UInt32.pos_iff_ne_zero.mpr nonzero
  simp [incDecMutex, decrementCountMutex, Section.branch, positive]

/-- The thread that counts down sleeps exactly when it has printed the last line, about zero. -/
structure Waits (a : Atomic Party UInt32) (m : UInt32 × Bool) : Prop where
  data : a.data = m.1
  increment : a.parked .increment = false
  decrement : a.parked .decrement = m.2
  zero : m.2 = true → m.1 = 0

theorem Waits.minus {a : Atomic Party UInt32} {count : UInt32} {refused : Bool}
    (waits : Waits a (count, refused)) (nonzero : count ≠ 0) :
    Waits (turn incDecCond a .decrement) (count - 1, false) := by
  obtain ⟨rfl, increment, _, _⟩ := waits
  have work := decrement_go nonzero
  refine ⟨?_, turn_awake (by decide) increment, ?_, nofun⟩
  · rw [turn_data, work]
    rfl
  · rw [turn_self, work]
    rfl

theorem Waits.refuse {a : Atomic Party UInt32} {refused : Bool} (waits : Waits a (0, refused)) :
    Waits (turn incDecCond a .decrement) (0, true) := by
  obtain ⟨data, increment, _, _⟩ := waits
  have data : a.data = 0 := data
  refine ⟨?_, turn_awake (by decide) increment, ?_, fun _ => rfl⟩
  · rw [turn_data, data]
    rfl
  · rw [turn_self, data]
    rfl

theorem Waits.plus {a : Atomic Party UInt32} {count : UInt32} {refused : Bool}
    (waits : Waits a (count, refused)) :
    Waits (turn incDecCond a .increment) (count + 1, false) := by
  obtain ⟨rfl, increment, decrement, zero⟩ := waits
  refine ⟨rfl, turn_self Party.increment, ?_, nofun⟩
  by_cases none : a.data = 0
  · apply turn_called (by decide)
    have work : signals ((incDecCond .increment).branch a.data).1 a.data = [.countNonzero] := by
      simp [incDecCond, incrementCount, Section.branch, signals, none]
    rw [work]
    rfl
  · apply turn_awake (by decide)
    rw [decrement]
    exact Bool.eq_false_iff.mpr fun parked => none (zero parked)

theorem incDecCond_recognizes (spurious : Bool) :
    Recognizes incDecCond spurious (patient spurious Line.isZero counter) Waits where
  turn := by
    rintro a ⟨count, refused⟩ i waits allowed
    obtain rfl := waits.data
    cases i with
    | decrement =>
        by_cases zero : a.data = 0
        · have quiet : ¬(spurious = false ∧ refused = true ∧ Line.zero.isZero = true) := by
            rintro ⟨genuine, parked, _⟩
            rw [genuine, waits.decrement] at allowed
            rcases allowed with ⟨⟨⟩⟩ | up
            rw [parked] at up
            cases up
          rw [zero] at waits ⊢
          exact Or.inr ⟨.zero, (0, true), rfl, patient_eq_some.mpr ⟨quiet, rfl, rfl⟩, waits.refuse⟩
        · refine Or.inr ⟨.minus (a.data - 1).toInt32, (a.data - 1, false), ?_, ?_, waits.minus zero⟩
          · rw [decrement_go zero]
            rfl
          · exact patient_of_go rfl (if_pos ⟨zero, rfl⟩)
    | increment =>
        refine Or.inr ⟨.plus (a.data + 1).toInt32, (a.data + 1, false), rfl, ?_, waits.plus⟩
        exact patient_of_go rfl (if_pos rfl)
  line := by
    rintro a ⟨count, refused⟩ line ⟨count', refused'⟩ waits reads
    obtain rfl := waits.data
    obtain ⟨quiet, read, _⟩ := patient_eq_some.mp reads
    cases line with
    | minus n =>
        obtain ⟨⟨nonzero, rfl⟩, rfl⟩ : (a.data ≠ 0 ∧ n = (a.data - 1).toInt32) ∧
            a.data - 1 = count' := by simpa [counter] using read
        have up : a.parked .decrement = false := by
          rw [waits.decrement]
          exact Bool.eq_false_iff.mpr fun parked => nonzero (waits.zero parked)
        refine ⟨[.decrement], ⟨Or.inr up, trivial⟩, ?_⟩
        rw [transcript, decrement_go nonzero]
        rfl
    | plus n =>
        obtain ⟨rfl, rfl⟩ : n = (a.data + 1).toInt32 ∧ a.data + 1 = count' := by
          simpa [counter] using read
        exact ⟨[.increment], ⟨Or.inr waits.increment, trivial⟩, rfl⟩
    | zero =>
        obtain ⟨zero, _⟩ : a.data = 0 ∧ a.data = count' := by simpa [counter] using read
        have allowed : spurious = true ∨ a.parked .decrement = false := by
          rw [waits.decrement]
          cases genuine : spurious with
          | true => exact Or.inl rfl
          | false => exact Or.inr (Bool.eq_false_iff.mpr fun refused => quiet ⟨genuine, refused, rfl⟩)
        refine ⟨[.decrement], ⟨allowed, trivial⟩, ?_⟩
        rw [transcript, zero]
        rfl

theorem incDecMutex_recognizes (spurious : Bool) :
    Recognizes incDecMutex spurious counter
      (fun a count => a.data = count ∧ ∀ i, a.parked i = false) where
  turn := by
    rintro a _ i ⟨rfl, up⟩ _
    have still := turn_never (i := i) incDecMutex_never up
    cases i with
    | decrement =>
        by_cases zero : a.data = 0
        · refine Or.inr ⟨.zero, a.data, by rw [zero]; rfl, if_pos zero, ?_, still⟩
          rw [turn_data, zero]
          rfl
        · refine Or.inr ⟨.minus (a.data - 1).toInt32, a.data - 1, ?_, if_pos ⟨zero, rfl⟩, ?_, still⟩
          · rw [mutex_go zero]
            rfl
          · rw [turn_data, mutex_go zero]
            rfl
    | increment =>
        exact Or.inr ⟨.plus (a.data + 1).toInt32, a.data + 1, rfl, if_pos rfl, rfl, still⟩
  line := by
    rintro a _ line count' ⟨rfl, up⟩ read
    cases line with
    | minus n =>
        obtain ⟨⟨nonzero, rfl⟩, rfl⟩ : (a.data ≠ 0 ∧ n = (a.data - 1).toInt32) ∧
            a.data - 1 = count' := by simpa [counter] using read
        refine ⟨[.decrement], ⟨Or.inr (up _), trivial⟩, ?_⟩
        rw [transcript, mutex_go nonzero]
        rfl
    | plus n =>
        obtain ⟨rfl, rfl⟩ : n = (a.data + 1).toInt32 ∧ a.data + 1 = count' := by
          simpa [counter] using read
        exact ⟨[.increment], ⟨Or.inr (up _), trivial⟩, rfl⟩
    | zero =>
        obtain ⟨zero, _⟩ : a.data = 0 ∧ a.data = count' := by simpa [counter] using read
        refine ⟨[.decrement], ⟨Or.inr (up _), trivial⟩, ?_⟩
        rw [transcript, zero]
        rfl

/-- Both programs can go on in exactly the ways in which a counter can be told of. With the
condition, and as long as no thread wakes up by itself, the line about zero does not come twice in
a row; that is all the condition takes away. -/
theorem incDecCond_prints (spurious : Bool) :
    Prints incDecMutex spurious 0 (Accepts counter 0) ∧
      Prints incDecCond spurious 0 fun w => Accepts counter 0 w ∧
        (spurious = false → w.IsChain fun x y => ¬(x = .zero ∧ y = .zero)) := by
  constructor
  · exact (incDecMutex_recognizes spurious).prints (alone_never incDecMutex_never) ⟨rfl, fun _ => rfl⟩
      fun _ => Iff.rfl
  · refine (incDecCond_recognizes spurious).prints incDecCond_alone (m := (0, false))
      ⟨rfl, rfl, rfl, nofun⟩ fun w => ?_
    rw [accepts_patient]
    have same (x y : Line) : (x.isZero = true → y.isZero = false) ↔ ¬(x = .zero ∧ y = .zero) := by
      cases x <;> cases y <;> simp [Line.isZero]
    simp only [same]

end CudaOpenMp.IncDecCond
