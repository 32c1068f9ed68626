import Mathlib.Data.List.Basic
import Mathlib.Tactic.Common

/-!
The filter `cpp_volume.cpp`, which amplifies a stream of samples in chunks. A read that the stream
cannot fill sets its failure state and ends the loop, so the samples behind the last whole chunk
are lost. What is done to one sample is a parameter.
-/

namespace CudaOpenMp.Volume

variable {Sample : Type} (amplify : Sample → Sample)

def chunkSize : Nat := 4096

/-- The loop over the first `size` samples, of which each is changed in place. -/
def processVolumeCPU (data : List Sample) (size : Nat) : List Sample :=
  (List.range size).foldl (fun data i => data.modify i amplify) data

structure Stream (Sample : Type) where
  rest : List Sample
  failed : Bool

/-- `cin.read`, which stores what there is and fails if that is too little. -/
def read (stdin : Stream Sample) (buffer : List Sample) (count : Nat) :
    Stream Sample × List Sample :=
  if stdin.failed then (stdin, buffer)
  else
    let taken := stdin.rest.take count
    (⟨stdin.rest.drop count, decide (taken.length < count)⟩, taken ++ buffer.drop taken.length)

theorem read_shorter {stdin : Stream Sample} {buffer : List Sample} {count : Nat}
    (positive : 0 < count) (succeeded : (read stdin buffer count).1.failed = false) :
    (read stdin buffer count).1.rest.length < stdin.rest.length := by
  rw [read] at succeeded ⊢
  split at succeeded
  · next failed =>
    rw [failed] at succeeded
    cases succeeded
  · next good =>
    rw [decide_eq_false_iff_not, List.length_take] at succeeded
    rw [if_neg good, List.length_drop]
    omega

def volumeLoop (stdin : Stream Sample) (buffer : List Sample) : List Sample :=
  let result := read stdin buffer chunkSize
  if _ : result.1.failed = false then
    let louder := processVolumeCPU amplify result.2 chunkSize
    louder.take chunkSize ++ volumeLoop result.1 louder
  else []
termination_by stdin.rest.length
decreasing_by exact read_shorter (by decide) (by assumption)

/-- What is written for a stream of samples; the vector is filled with zeros when it is made. -/
def main (zero : Sample) (samples : List Sample) : List Sample :=
  volumeLoop amplify ⟨samples, false⟩ (List.replicate chunkSize zero)

theorem processVolumeCPU_getElem? (data : List Sample) (size j : Nat) :
    (processVolumeCPU amplify data size)[j]? =
      if j < size then data[j]?.map amplify else data[j]? := by
  induction size with
  | zero => rfl
  | succ size ih =>
      have step : processVolumeCPU amplify data (size + 1) =
          (processVolumeCPU amplify data size).modify size amplify := by
        rw [processVolumeCPU, List.range_succ, List.foldl_append]
        rfl
      rw [step]
      by_cases here : size = j
      · subst here
        rw [List.getElem?_modify_eq, ih, if_neg (Nat.lt_irrefl size), if_pos (Nat.lt_succ_self size)]
        rfl
      · rw [List.getElem?_modify_ne _ _ here, ih]
        by_cases before : j < size
        · rw [if_pos before, if_pos (by omega)]
        · rw [if_neg before, if_neg (by omega)]

theorem processVolumeCPU_take (data : List Sample) (size : Nat) :
    (processVolumeCPU amplify data size).take size = (data.take size).map amplify := by
  apply List.ext_getElem?
  intro j
  rw [List.getElem?_take, List.getElem?_map, List.getElem?_take]
  split
  · next inside => rw [processVolumeCPU_getElem?, if_pos inside]
  · rfl

/-- A chunk that the stream can fill is read, changed and written; a shorter one ends the loop. -/
theorem volumeLoop_eq (samples buffer : List Sample) :
    (chunkSize ≤ samples.length → ∃ louder, volumeLoop amplify ⟨samples, false⟩ buffer =
      (samples.take chunkSize).map amplify ++
        volumeLoop amplify ⟨samples.drop chunkSize, false⟩ louder) ∧
    (samples.length < chunkSize → volumeLoop amplify ⟨samples, false⟩ buffer = []) := by
  have taken : (samples.take chunkSize).length = min chunkSize samples.length := List.length_take
  constructor
  · intro whole
    have size : (samples.take chunkSize).length = chunkSize := by omega
    have filled : read ⟨samples, false⟩ buffer chunkSize =
        (⟨samples.drop chunkSize, false⟩, samples.take chunkSize ++ buffer.drop chunkSize) := by
      simp only [read, size, Bool.false_eq_true, if_false, Nat.lt_irrefl, decide_false]
    refine ⟨processVolumeCPU amplify (samples.take chunkSize ++ buffer.drop chunkSize) chunkSize, ?_⟩
    rw [volumeLoop]
    simp only [filled, dif_pos, processVolumeCPU_take]
    rw [List.take_append_of_le_length (by omega), List.take_take, Nat.min_self]
  · intro short
    have failed : (read ⟨samples, false⟩ buffer chunkSize).1.failed = true := by
      simp only [read, Bool.false_eq_true, if_false]
      exact decide_eq_true (by omega)
    rw [volumeLoop]
    simp only [failed, Bool.true_eq_false, dif_neg, not_false_eq_true]

/-! The stream. -/

theorem volumeLoop_chunks (chunks : Nat) {samples : List Sample} (buffer : List Sample)
    (count : samples.length / chunkSize = chunks) :
    volumeLoop amplify ⟨samples, false⟩ buffer =
      (samples.take (chunks * chunkSize)).map amplify := by
  have positive : 0 < chunkSize := by decide
  induction chunks generalizing samples buffer with
  | zero =>
      have short := (Nat.div_eq_zero_iff_lt positive).mp count
      rw [(volumeLoop_eq amplify samples buffer).2 short, Nat.zero_mul, List.take_zero, List.map_nil]
  | succ chunks ih =>
      have whole : chunkSize ≤ samples.length := by
        by_contra short
        rw [Nat.div_eq_of_lt (Nat.not_le.mp short)] at count
        cases count
      obtain ⟨louder, step⟩ := (volumeLoop_eq amplify samples buffer).1 whole
      have later : (samples.drop chunkSize).length / chunkSize = chunks := by
        have split : samples.length = (samples.drop chunkSize).length + chunkSize := by
          rw [List.length_drop]
          omega
        rw [split, Nat.add_div_right _ positive] at count
        omega
      rw [step, ih louder later, ← List.map_append, Nat.succ_mul, Nat.add_comm, List.take_add]

theorem main_eq (zero : Sample) (samples : List Sample) :
    main amplify zero samples =
      (samples.take (samples.length / chunkSize * chunkSize)).map amplify :=
  volumeLoop_chunks amplify _ _ rfl

/-- Every sample is written exactly if the chunks come out even. -/
theorem main_complete_iff (zero : Sample) (samples : List Sample) :
    main amplify zero samples = samples.map amplify ↔ chunkSize ∣ samples.length := by
  rw [main_eq]
  constructor
  · intro complete
    have sizes := congrArg List.length complete
    have below := Nat.div_mul_le_self samples.length chunkSize
    rw [List.length_map, List.length_map, List.length_take, Nat.min_eq_left below] at sizes
    exact ⟨samples.length / chunkSize, by rw [Nat.mul_comm]; exact sizes.symm⟩
  · intro even
    rw [Nat.div_mul_cancel even, List.take_length]

theorem one_sample_lost : main (fun sample : Int => max (-1) (min 1 (10 * sample))) 0 [1] = [] ∧
    main (fun sample : Int => max (-1) (min 1 (10 * sample))) 0 [1] ≠
      [1].map fun sample : Int => max (-1) (min 1 (10 * sample)) := by
  have lost : main (fun sample : Int => max (-1) (min 1 (10 * sample))) 0 [1] = [] := by
    rw [main_eq]
    rfl
  exact ⟨lost, by rw [lost]; decide⟩

end CudaOpenMp.Volume
