import Mathlib.Logic.Function.Basic

/-!
A lock that one writer or several readers hold. A thread can have taken it several times for
reading.
-/

structure RwLock (ι : Type) where
  writer : Option ι
  readers : ι → Nat

namespace RwLock

variable {ι : Type} {lock : RwLock ι} {i j : ι}

def free : RwLock ι := ⟨none, fun _ => 0⟩

def wrlock (lock : RwLock ι) (i : ι) : RwLock ι := { lock with writer := some i }

def Holds (lock : RwLock ι) (i : ι) : Prop := lock.writer = some i ∨ 0 < lock.readers i

/-- A writer holds the lock alone. -/
def Exclusive (lock : RwLock ι) : Prop := lock.writer ≠ none → ∀ i, lock.readers i = 0

theorem wrlock_writer_of_ne (idle : lock.writer = none) (other : j ≠ i) :
    (lock.wrlock i).writer = some j ↔ lock.writer = some j := by
  simp [wrlock, idle, Ne.symm other]

theorem Exclusive.wrlock (idle : ∀ i, lock.readers i = 0) : (lock.wrlock i).Exclusive :=
  fun _ => idle

variable [DecidableEq ι]

def rdlock (lock : RwLock ι) (i : ι) : RwLock ι :=
  { lock with readers := Function.update lock.readers i (lock.readers i + 1) }

def unlock (lock : RwLock ι) (i : ι) : RwLock ι :=
  if lock.writer = some i then { lock with writer := none }
  else { lock with readers := Function.update lock.readers i (lock.readers i - 1) }

theorem unlock_of_writer (held : lock.writer = some i) :
    lock.unlock i = { lock with writer := none } := if_pos held

theorem unlock_of_reader (other : lock.writer ≠ some i) :
    lock.unlock i = { lock with readers := Function.update lock.readers i (lock.readers i - 1) } :=
  if_neg other

theorem rdlock_readers_of_ne (other : j ≠ i) : (lock.rdlock i).readers j = lock.readers j :=
  Function.update_of_ne other ..

theorem unlock_readers_of_ne (other : j ≠ i) : (lock.unlock i).readers j = lock.readers j := by
  rw [unlock]
  split
  · rfl
  · exact Function.update_of_ne other ..

theorem unlock_writer_of_ne (other : j ≠ i) :
    (lock.unlock i).writer = some j ↔ lock.writer = some j := by
  rw [unlock]
  split
  · next held => simp [held, Ne.symm other]
  · rfl

theorem Exclusive.rdlock (idle : lock.writer = none) : (lock.rdlock i).Exclusive :=
  fun held => (held idle).elim

theorem Exclusive.unlock (exclusive : lock.Exclusive) : (lock.unlock i).Exclusive := by
  rw [RwLock.unlock]
  split
  · exact fun held => (held rfl).elim
  · intro held j
    have none := exclusive held
    by_cases same : j = i
    · simp [same, none i]
    · simp [same, none j]

end RwLock
