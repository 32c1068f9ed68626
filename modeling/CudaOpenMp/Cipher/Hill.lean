import CudaOpenMp.Cipher.Breaker
import Mathlib.Data.Set.Function
import Mathlib.Data.ZMod.Basic
import Mathlib.Tactic.LinearCombination

/-!
What `bruteForceCipher` computes for one key is a bijection of the texts over the alphabet when the
matrix of the key has an inverse. Its inverse shifts, mixes pairs with the matrix, and reverses.
-/

namespace CudaOpenMp.Breaker

def value (c : UInt8) : ZMod 36 := (getAVal c : Int)

theorem cast_emod (v : Int) : ((v % 36 : Int) : ZMod 36) = v := ZMod.intCast_mod v 36

theorem cast_tmod (v : Int) : ((v.tmod 36 : Int) : ZMod 36) = v := by
  have modulus : ((36 : Int) : ZMod 36) = 0 := rfl
  rw [Int.tmod_def, Int.cast_sub, Int.cast_mul, modulus, zero_mul, sub_zero]

theorem value_getAChar (v : Int) : value (getAChar v) = v := by
  rw [value, ← getAChar_emod, getAVal_getAChar (by omega) (by omega), cast_emod]

theorem value_inj {c d : UInt8} (cAlphabet : InAlphabet c) (dAlphabet : InAlphabet d)
    (same : value c = value d) : c = d := by
  have cRange := getAVal_range c
  have dRange := getAVal_range d
  have congruent := (ZMod.intCast_eq_intCast_iff' (getAVal c) (getAVal d) 36).mp same
  have equal : getAVal c = getAVal d := by omega
  rw [← getAChar_getAVal cAlphabet, equal, getAChar_getAVal dAlphabet]

/-- The entries are left negative by the remainders of C, and are still right modulo 36. -/
theorem invMat_spec {m inv : Matrix (Fin 2) (Fin 2) Int} (inverse : invMat m = some inv) :
    ∃ e : ZMod 36, ((m 0 0 : ZMod 36) * m 1 1 - m 0 1 * m 1 0) * e = 1 ∧
      (inv 0 0 : ZMod 36) = m 1 1 * e ∧ (inv 0 1 : ZMod 36) = -m 0 1 * e ∧
      (inv 1 0 : ZMod 36) = -m 1 0 * e ∧ (inv 1 1 : ZMod 36) = m 0 0 * e := by
  rw [invMat] at inverse
  simp only [tmod_add_tmod _ (by decide : (0 : Int) < 36), Option.ite_none_left_eq_some,
    Option.some.injEq] at inverse
  obtain ⟨found, rfl⟩ := inverse
  have cases := modInverse_cases (a := determinant m % 36) (by decide : (1 : Int) < 36)
  rcases cases with ⟨missing, _⟩ | ⟨_, one, _⟩
  · exact absurd missing found
  · generalize modInverse (determinant m % 36) 36 = e at one
    have product := congrArg (fun v : Int => (v : ZMod 36)) one
    simp only [cast_emod, Int.cast_mul, Int.cast_one, determinant, Int.cast_sub] at product
    exact ⟨e, product, by simp [cast_tmod], by simp [cast_tmod], by simp [cast_tmod],
      by simp [cast_tmod]⟩

theorem exists_place (i : Fin 12) : ∃ pair part, place pair part = i :=
  ⟨⟨i / 2, by omega⟩, ⟨i % 2, by omega⟩, Fin.ext (by simp only [place]; omega)⟩

theorem reversed_reversed (text : Text) : reversed (reversed text) = text := by
  funext i
  exact congrArg text (Fin.ext (by simp only; omega))

def Over (text : Text) : Prop := ∀ i, InAlphabet (text i)

theorem over_reversed {text : Text} (spelled : Over text) : Over (reversed text) :=
  fun _ => spelled _

theorem text_ext {first second : Text} (firstOver : Over first) (secondOver : Over second)
    (same : ∀ pair part, value (first (place pair part)) = value (second (place pair part))) :
    first = second := by
  funext i
  obtain ⟨pair, part, rfl⟩ := exists_place i
  exact value_inj (firstOver _) (secondOver _) (same pair part)

theorem encrypt_over (k1 : Key) (pt : Text) : Over (encrypt k1 pt) := fun _ => getAChar_alphabet _

theorem pair_place (pair : Fin 6) (part : Fin 2) :
    (⟨(place pair part).val / 2, by omega⟩ : Fin 6) = pair ∧
      (⟨(place pair part).val % 2, by omega⟩ : Fin 2) = part := by
  constructor <;> apply Fin.ext <;> simp only [place] <;> omega

theorem value_encrypt (k1 : Key) (pt : Text) (pair : Fin 6) (part : Fin 2) :
    value (reversed (encrypt k1 pt) (place pair part)) =
      mat k1 part 0 * (value (pt (place pair 0)) + value (k1 (Fin.ofNat 4 (place pair 0)))) +
        mat k1 part 1 * (value (pt (place pair 1)) + value (k1 (Fin.ofNat 4 (place pair 1)))) := by
  rw [encrypt, reversed_reversed, (pair_place pair part).1, (pair_place pair part).2, value_getAChar,
    mixed, cast_emod]
  simp only [Int.cast_add, Int.cast_mul, shifted, cast_emod, value]

theorem plainChar_eq (inv : Matrix (Fin 2) (Fin 2) Int) (k1 : Key) (c1 : Text) (pair : Fin 6)
    (part : Fin 2) : plainChar inv k1 c1 pair part = getAChar (plainIndex inv k1 c1 pair part) := rfl

theorem hillIndex_range (inv : Matrix (Fin 2) (Fin 2) Int) (c1 : Text) (pair : Fin 6)
    (part : Fin 2) : 0 ≤ hillIndex inv c1 pair part ∧ hillIndex inv c1 pair part < 36 := by
  rw [hillIndex, tmod_add_tmod _ (by decide : (0 : Int) < 36)]
  omega

theorem plainIndex_range (inv : Matrix (Fin 2) (Fin 2) Int) (k1 : Key) (c1 : Text) (pair : Fin 6)
    (part : Fin 2) : 0 ≤ plainIndex inv k1 c1 pair part ∧ plainIndex inv k1 c1 pair part < 36 := by
  have hill := hillIndex_range inv c1 pair part
  have keyRange := getAVal_range (k1 (Fin.ofNat 4 (place pair part)))
  rw [plainIndex, Int.tmod_eq_emod_of_nonneg (by omega)]
  omega

theorem decrypt_eq {k1 : Key} {inv : Matrix (Fin 2) (Fin 2) Int} (inverse : invMat (mat k1) = some inv)
    (c2 : Text) : decrypt c2 k1 = some (plaintext inv k1 c2) := by
  rw [decrypt, inverse]
  rfl

theorem plaintext_over (inv : Matrix (Fin 2) (Fin 2) Int) (k1 : Key) (c2 : Text) :
    Over (plaintext inv k1 c2) := fun _ => getAChar_alphabet _

theorem value_plaintext (inv : Matrix (Fin 2) (Fin 2) Int) (k1 : Key) (c2 : Text) (pair : Fin 6)
    (part : Fin 2) :
    value (plaintext inv k1 c2 (place pair part)) =
      inv part 0 * value (reversed c2 (place pair 0)) +
        inv part 1 * value (reversed c2 (place pair 1)) -
          value (k1 (Fin.ofNat 4 (place pair part))) := by
  have modulus : ((36 : Int) : ZMod 36) = 0 := rfl
  rw [plaintext, (pair_place pair part).1, (pair_place pair part).2, plainChar_eq, value_getAChar,
    plainIndex, cast_tmod, hillIndex, Int.cast_add, Int.cast_sub, cast_tmod, Int.cast_add, cast_tmod]
  simp only [Int.cast_add, Int.cast_mul, modulus, add_zero, value]

/-! The two maps undo each other. -/

section
variable {k1 : Key} {inv : Matrix (Fin 2) (Fin 2) Int} (inverse : invMat (mat k1) = some inv)
include inverse

theorem encrypt_plaintext {c2 : Text} (spelled : Over c2) :
    encrypt k1 (plaintext inv k1 c2) = c2 := by
  obtain ⟨e, one, first, second, third, fourth⟩ := invMat_spec inverse
  have turned : reversed (encrypt k1 (plaintext inv k1 c2)) = reversed c2 := by
    apply text_ext (over_reversed (encrypt_over _ _)) (over_reversed spelled)
    intro pair part
    rw [value_encrypt, value_plaintext, value_plaintext]
    fin_cases part
    · simp only [Fin.zero_eta, first, second, third, fourth]
      linear_combination value (reversed c2 (place pair 0)) * one
    · simp only [Fin.mk_one, first, second, third, fourth]
      linear_combination value (reversed c2 (place pair 1)) * one
  rw [← reversed_reversed (encrypt k1 (plaintext inv k1 c2)), turned, reversed_reversed]

theorem plaintext_encrypt {pt : Text} (spelled : Over pt) :
    plaintext inv k1 (encrypt k1 pt) = pt := by
  obtain ⟨e, one, first, second, third, fourth⟩ := invMat_spec inverse
  apply text_ext (plaintext_over _ _ _) spelled
  intro pair part
  rw [value_plaintext, value_encrypt, value_encrypt]
  fin_cases part
  · simp only [Fin.zero_eta, first, second]
    linear_combination
      (value (pt (place pair 0)) + value (k1 (Fin.ofNat 4 (place pair 0)))) * one
  · simp only [Fin.mk_one, third, fourth]
    linear_combination
      (value (pt (place pair 1)) + value (k1 (Fin.ofNat 4 (place pair 1)))) * one

end

/-- For a key whose matrix has an inverse, what the thread computes is a bijection of the texts over
the alphabet, and all its indices into the table are in range. -/
theorem decrypt_bijective {k1 : Key} (coprime : Int.gcd (determinant (mat k1)) 36 = 1) :
    ∃ inv, invMat (mat k1) = some inv ∧
      (∀ c2, decrypt c2 k1 = some (plaintext inv k1 c2)) ∧
      Set.BijOn (plaintext inv k1) {text | Over text} {text | Over text} ∧
      Set.InvOn (encrypt k1) (plaintext inv k1) {text | Over text} {text | Over text} ∧
      (∀ c, 0 ≤ getAVal c ∧ getAVal c < 36) ∧
      ∀ c1 pair part, (0 ≤ hillIndex inv c1 pair part ∧ hillIndex inv c1 pair part < 36) ∧
        (0 ≤ plainIndex inv k1 c1 pair part ∧ plainIndex inv k1 c1 pair part < 36) ∧
        plainChar inv k1 c1 pair part = getAChar (plainIndex inv k1 c1 pair part) := by
  obtain ⟨inv, inverse⟩ := Option.isSome_iff_exists.mp ((invMat_isSome (mat k1)).mpr coprime)
  have undone : Set.InvOn (encrypt k1) (plaintext inv k1) {text | Over text} {text | Over text} :=
    ⟨fun _ spelled => encrypt_plaintext inverse spelled,
      fun _ spelled => plaintext_encrypt inverse spelled⟩
  refine ⟨inv, inverse, decrypt_eq inverse, ?_, undone, getAVal_range, ?_⟩
  · exact undone.bijOn (fun c2 _ => plaintext_over inv k1 c2) fun pt _ => encrypt_over k1 pt
  · intro c1 pair part
    exact ⟨hillIndex_range inv c1 pair part, plainIndex_range inv k1 c1 pair part,
      plainChar_eq inv k1 c1 pair part⟩

theorem decrypt_bijective_aaaa : ∃ inv, invMat (mat fun _ => 97) = some inv ∧
    Set.BijOn (plaintext inv fun _ => 97) {text | Over text} {text | Over text} := by
  obtain ⟨inv, inverse, _, bijective, _⟩ := @decrypt_bijective (fun _ => 97) (by decide)
  exact ⟨inv, inverse, bijective⟩

end CudaOpenMp.Breaker
