import Mathlib.Data.List.Count
import CudaOpenMp.Library.CriticalSections

/-!
The counters of `inc_dec.c` and `inc_dec2.c`: one thread counts up and one counts down.
-/

namespace CudaOpenMp.IncDec

open Interleaving Sections

inductive Party where
  | decrement
  | increment
deriving DecidableEq

inductive Cond where
  | countNonzero
deriving DecidableEq

/-- `-`, `+` and `?`. -/
inductive Line where
  | minus
  | plus
  | query
deriving DecidableEq

/-! `inc_dec.c`: the thread that counts down waits while the count is zero. -/

def decrementCount : Section UInt32 Line Cond where
  test count := !(count == 0)
  body := [.assign (· - 1), .printf fun _ => .minus]
  otherwise := []
  ending := .wait true .countNonzero

def incrementCount : Section UInt32 Line Cond where
  test _ := true
  body := [.signal (· == 0) .countNonzero, .assign (· + 1), .printf fun _ => .plus]
  otherwise := []
  ending := .unlock

def incDec : Party → Section UInt32 Line Cond
  | .decrement => decrementCount
  | .increment => incrementCount

/-! `inc_dec2.c`, and `dotprod_mutex.c` with the same text: there is no condition. -/

def decrementCount2 : Section UInt32 Line Cond where
  test count := 1 ≤ count
  body := [.assign (· - 1), .printf fun _ => .minus]
  otherwise := [.printf fun _ => .query]
  ending := .unlock

def incrementCount2 : Section UInt32 Line Cond where
  test _ := true
  body := [.assign (· + 1), .printf fun _ => .plus]
  otherwise := []
  ending := .unlock

def incDec2 : Party → Section UInt32 Line Cond
  | .decrement => decrementCount2
  | .increment => incrementCount2

/-- A counter modulo `2 ^ 32` as the lines tell of it. -/
def counter (asks : Bool) : UInt32 → Line → Option UInt32
  | count, .minus => if count = 0 then none else some (count - 1)
  | count, .plus => some (count + 1)
  | count, .query => if asks = true ∧ count = 0 then some count else none

theorem incDec_alone : Alone incDec := by
  intro i j c first second
  cases i <;> cases j <;> simp_all [incDec, incrementCount, Ending.cond]

theorem incDec2_never (i : Party) : (incDec2 i).ending = .unlock := by
  cases i <;> rfl

/-- The thread that counts down sleeps only while the count is zero. -/
structure Waits (a : Atomic Party UInt32) (count : UInt32) : Prop where
  data : a.data = count
  increment : a.parked .increment = false
  decrement : a.parked .decrement = true → count = 0

theorem decrement_branch {count : UInt32} (nonzero : count ≠ 0) :
    (incDec .decrement).branch count = (decrementCount.body, .unlock) := by
  simp [incDec, decrementCount, Section.branch, nonzero]

theorem Waits.minus {a : Atomic Party UInt32} {count : UInt32} (waits : Waits a count)
    (nonzero : count ≠ 0) : Waits (turn incDec a .decrement) (count - 1) := by
  obtain ⟨rfl, increment, _⟩ := waits
  have work := decrement_branch nonzero
  refine ⟨?_, turn_awake nofun increment, ?_⟩
  · rw [turn_data, work]
    rfl
  · rw [turn_self, work]
    exact nofun

theorem Waits.plus {a : Atomic Party UInt32} {count : UInt32} (waits : Waits a count) :
    Waits (turn incDec a .increment) (count + 1) := by
  obtain ⟨rfl, increment, decrement⟩ := waits
  refine ⟨rfl, turn_self Party.increment, ?_⟩
  suffices awake : (turn incDec a .increment).parked .decrement = false by simp [awake]
  by_cases zero : a.data = 0
  · apply turn_called (by decide)
    have work : signals ((incDec .increment).branch a.data).1 a.data = [.countNonzero] := by
      simp [incDec, incrementCount, Section.branch, signals, zero]
    rw [work]
    rfl
  · apply turn_awake (by decide)
    exact Bool.eq_false_iff.mpr fun parked => zero (decrement parked)

theorem incDec_recognizes (spurious : Bool) :
    Recognizes incDec spurious (counter false) Waits where
  turn := by
    intro a count i waits _
    obtain rfl := waits.data
    cases i with
    | decrement =>
        by_cases zero : a.data = 0
        · have work : (incDec .decrement).branch a.data = ([], decrementCount.ending) := by
            rw [zero]
            rfl
          refine Or.inl ⟨by rw [work]; rfl, ?_, turn_awake nofun waits.increment, fun _ => zero⟩
          rw [turn_data, work]
          rfl
        · refine Or.inr ⟨.minus, a.data - 1, ?_, if_neg zero, waits.minus zero⟩
          rw [decrement_branch zero]
          rfl
    | increment => exact Or.inr ⟨.plus, a.data + 1, rfl, rfl, waits.plus⟩
  line := by
    intro a count line m' waits reads
    obtain rfl := waits.data
    cases line with
    | minus =>
        have nonzero : a.data ≠ 0 := fun zero => by simp [counter, zero] at reads
        have up : a.parked .decrement = false :=
          Bool.eq_false_iff.mpr fun parked => nonzero (waits.decrement parked)
        refine ⟨[.decrement], ⟨Or.inr up, trivial⟩, ?_⟩
        rw [transcript, decrement_branch nonzero]
        rfl
    | plus => exact ⟨[.increment], ⟨Or.inr waits.increment, trivial⟩, rfl⟩
    | query => cases reads

theorem one_le_iff (count : UInt32) : 1 ≤ count ↔ count ≠ 0 := by
  rw [UInt32.le_iff_toNat_le, ne_eq, ← UInt32.toNat_inj]
  exact Nat.one_le_iff_ne_zero

theorem decrement2_go {count : UInt32} (nonzero : count ≠ 0) :
    (incDec2 .decrement).branch count = (decrementCount2.body, .unlock) := by
  simp [incDec2, decrementCount2, Section.branch, one_le_iff, nonzero]

theorem incDec2_recognizes (spurious : Bool) :
    Recognizes incDec2 spurious (counter true)
      (fun a count => a.data = count ∧ ∀ i, a.parked i = false) where
  turn := by
    rintro a _ i ⟨rfl, up⟩ _
    have still := turn_never (i := i) incDec2_never up
    cases i with
    | decrement =>
        by_cases zero : a.data = 0
        · refine Or.inr ⟨.query, a.data, by rw [zero]; rfl, if_pos ⟨rfl, zero⟩, ?_, still⟩
          rw [turn_data, zero]
          rfl
        · refine Or.inr ⟨.minus, a.data - 1, ?_, if_neg zero, ?_, still⟩
          · rw [decrement2_go zero]
            rfl
          · rw [turn_data, decrement2_go zero]
            rfl
    | increment => exact Or.inr ⟨.plus, a.data + 1, rfl, rfl, rfl, still⟩
  line := by
    rintro a _ line m' ⟨rfl, up⟩ reads
    cases line with
    | minus =>
        have nonzero : a.data ≠ 0 := fun zero => by simp [counter, zero] at reads
        refine ⟨[.decrement], ⟨Or.inr (up _), trivial⟩, ?_⟩
        rw [transcript, decrement2_go nonzero]
        rfl
    | plus => exact ⟨[.increment], ⟨Or.inr (up _), trivial⟩, rfl⟩
    | query =>
        have zero : a.data = 0 := by
          by_contra nonzero
          simp [counter, nonzero] at reads
        refine ⟨[.decrement], ⟨Or.inr (up _), trivial⟩, ?_⟩
        rw [transcript, zero]
        rfl

/-- What may come after these lines. -/
def Fits (asks : Bool) (v : List Line) : Line → Prop
  | .minus => v.count .plus % 2 ^ 32 ≠ v.count .minus % 2 ^ 32
  | .plus => True
  | .query => asks = true ∧ v.count .plus % 2 ^ 32 = v.count .minus % 2 ^ 32

def total (count : UInt32) (v : List Line) : UInt32 :=
  count + UInt32.ofNat (v.count .plus) - UInt32.ofNat (v.count .minus)

theorem total_nil (count : UInt32) : total count [] = count := by
  simp [total]

theorem total_cons {asks : Bool} {count count' : UInt32} {line : Line}
    (reads : counter asks count line = some count') (v : List Line) :
    total count' v = total count (line :: v) := by
  cases line with
  | minus =>
      obtain ⟨_, rfl⟩ : count ≠ 0 ∧ count - 1 = count' := by simpa [counter] using reads
      simp only [total, List.count_cons_self, List.count_cons_of_ne (show Line.minus ≠ .plus by decide),
        UInt32.ofNat_add]
      grind
  | plus =>
      obtain rfl : count + 1 = count' := Option.some.inj reads
      simp only [total, List.count_cons_self, List.count_cons_of_ne (show Line.plus ≠ .minus by decide),
        UInt32.ofNat_add]
      grind
  | query =>
      obtain ⟨_, rfl⟩ : (asks = true ∧ count = 0) ∧ count = count' := by
        simpa [counter] using reads
      simp only [total, List.count_cons_of_ne (show Line.query ≠ .minus by decide),
        List.count_cons_of_ne (show Line.query ≠ .plus by decide)]

theorem accepts_counter (asks : Bool) (count : UInt32) (w : List Line) :
    Accepts (counter asks) count w ↔
      ∀ v line, v ++ [line] <+: w → (counter asks (total count v) line).isSome := by
  induction w generalizing count with
  | nil => simp [Accepts]
  | cons first w ih =>
      cases reads : counter asks count first with
      | none =>
          refine iff_of_false (by simp [Accepts, reads]) fun all => ?_
          have start := all [] first (by simp)
          rw [total_nil, reads] at start
          cases start
      | some middle =>
          have onward : Accepts (counter asks) count (first :: w) ↔
              Accepts (counter asks) middle w := by
            simp [Accepts, reads]
          rw [onward, ih]
          constructor
          · intro all v line part
            cases v with
            | nil =>
                obtain ⟨rfl, _⟩ := List.cons_prefix_cons.mp part
                rw [total_nil, reads]
                rfl
            | cons second v =>
                obtain ⟨rfl, rest⟩ := List.cons_prefix_cons.mp part
                rw [← total_cons reads]
                exact all v line rest
          · intro all v line part
            rw [total_cons reads]
            exact all (first :: v) line (List.cons_prefix_cons.mpr ⟨rfl, part⟩)

theorem total_eq_zero (v : List Line) :
    total 0 v = 0 ↔ v.count .plus % 2 ^ 32 = v.count .minus % 2 ^ 32 := by
  have cancel (x y : UInt32) : 0 + x - y = 0 ↔ x = y := by grind
  rw [total, cancel, ← UInt32.toNat_inj]
  rfl

theorem counter_isSome (asks : Bool) (v : List Line) (line : Line) :
    (counter asks (total 0 v) line).isSome ↔ Fits asks v line := by
  cases line with
  | minus =>
      rw [Fits, ne_eq, ← total_eq_zero, counter]
      split <;> simp_all
  | plus => simp [counter, Fits]
  | query =>
      rw [Fits, ← total_eq_zero, counter]
      split <;> simp_all

/-- Whatever has been printed, the two threads can go on with every text in which `-` comes only
where the numbers of `+` and `-` before it differ modulo `2 ^ 32`, and `?` only where they agree;
and with no other text. In `inc_dec.c` there is no `?`, and no wake-up is lost. -/
theorem incDec_prints (spurious : Bool) :
    Prints incDec spurious 0 (fun w => ∀ v line, v ++ [line] <+: w → Fits false v line) ∧
      Prints incDec2 spurious 0 fun w => ∀ v line, v ++ [line] <+: w → Fits true v line := by
  have reads (asks : Bool) (w : List Line) : Accepts (counter asks) 0 w ↔
      ∀ v line, v ++ [line] <+: w → Fits asks v line := by
    rw [accepts_counter]
    exact forall₂_congr fun v line => imp_congr_right fun _ => counter_isSome asks v line
  constructor
  · exact (incDec_recognizes spurious).prints incDec_alone ⟨rfl, rfl, nofun⟩ (reads false)
  · exact (incDec2_recognizes spurious).prints (alone_never incDec2_never) ⟨rfl, fun _ => rfl⟩ (reads true)

end CudaOpenMp.IncDec
