import CudaOpenMp.Cipher.Agreement
import CudaOpenMp.Search.Tlforce

/-!
What `tlforce.cpp` finds, with its own `encrypt` in the place of the test: the keys for which the
script `encode.py` prints the target.
-/

namespace CudaOpenMp.TlforceSearch

open Interleaving KeySpace

/-- `encrypt(PLAINTEXT, key) == TARGET` -/
def matchesTarget (sha : Sha256) (plaintext target key : List Char) : Bool :=
  Tlforce.encrypt sha plaintext key == some target

section
variable {sha : Sha256} {plaintext : List Char} (textOver : OverCharset plaintext)
  (short : plaintext.length ≤ 97612891) (typed : plaintext ≠ [])
include textOver short typed

theorem encrypt_eq_main {key : List Char} (keyOver : OverCharset key) (lower : 1 ≤ key.length)
    (upper : key.length ≤ 4) :
    ∃ bits, Tlforce.encrypt sha plaintext key = some bits ∧ Encode.main sha key plaintext = some bits := by
  have range : Tlforce.InRange sha key plaintext := .of_short keyOver (by omega) textOver short
  obtain ⟨keyIndices, textIndices, keySpelled, textSpelled, keySmall, textSmall, encrypted⟩ :=
    range.exists_indices
  have keyTyped : key ≠ [] := List.length_pos_iff.mp lower
  refine ⟨_, encrypted, ?_⟩
  rw [Encode.main, Encode.prompt_overCharset keyOver, Encode.prompt_overCharset textOver,
    if_neg keyTyped, if_neg typed, keySpelled, textSpelled, Encode.mainFlow_eq sha keySmall textSmall]

/-- Every test that a worker makes is defined, and once all workers are joined the results are the
keys that the script encodes the text to the target with, each of them once. -/
theorem results_encode {target : List Char} {nthreads : UInt32} (positive : 1 ≤ nthreads)
    {f : Forked (jobs nthreads).length Shared Worker}
    (run : Run (matchesTarget sha plaintext target) (start nthreads) f)
    (joined : f.joined = (jobs nthreads).length) :
    (∀ key ∈ candidates, (Tlforce.encrypt sha plaintext key).isSome) ∧
      f.state.shared.results.Nodup ∧
      ∀ key, key ∈ f.state.shared.results ↔ OverCharset key ∧ 1 ≤ key.length ∧ key.length ≤ 4 ∧
        Encode.main sha key plaintext = some target := by
  have found := run_results_done positive run joined
  refine ⟨?_, found.nodup_iff.mpr (candidates_nodup.filter _), ?_⟩
  · intro key listed
    obtain ⟨keyOver, lower, upper⟩ := mem_candidates.mp listed
    obtain ⟨bits, encrypted, _⟩ := encrypt_eq_main textOver short typed keyOver lower upper
    rw [encrypted]
    rfl
  · intro key
    rw [found.mem_iff, List.mem_filter, mem_candidates, and_assoc, and_assoc]
    refine and_congr_right fun keyOver => and_congr_right fun lower => and_congr_right fun upper => ?_
    obtain ⟨bits, encrypted, printed⟩ := encrypt_eq_main textOver short typed keyOver lower upper
    rw [matchesTarget, encrypted, printed, beq_iff_eq]

end

theorem results_encode_book : ∃ target, ∃ f : Forked (jobs 2).length Shared Worker,
    Encode.main zeroHash ['k', 'e', 'y'] ['b', 'o', 'o', 'k'] = some target ∧
      ['k', 'e', 'y'] ∈ f.state.shared.results ∧
      ∀ key, key ∈ f.state.shared.results ↔ OverCharset key ∧ 1 ≤ key.length ∧ key.length ≤ 4 ∧
        Encode.main zeroHash key ['b', 'o', 'o', 'k'] = some target := by
  have keyOver : OverCharset ['k', 'e', 'y'] := by decide
  obtain ⟨target, _, printed⟩ := @encrypt_eq_main zeroHash ['b', 'o', 'o', 'k'] (by decide)
    (by decide) (by decide) ['k', 'e', 'y'] keyOver (by decide) (by decide)
  obtain ⟨f, run, joined⟩ := exists_joined (matchesTarget zeroHash ['b', 'o', 'o', 'k'] target)
    (show (1 : UInt32) ≤ 2 by decide)
  have ⟨_, _, members⟩ :=
    results_encode (by decide) (by decide) (by decide) (by decide) run joined
  exact ⟨target, f, printed, (members _).mpr ⟨keyOver, by decide, by decide, printed⟩, members⟩

end CudaOpenMp.TlforceSearch
