import Mathlib.Data.Fin.VecNotation
import Mathlib.Data.Int.GCD
import Mathlib.Data.Int.ModEq
import Mathlib.LinearAlgebra.Matrix.Notation
import Mathlib.RingTheory.Coprime.Lemmas
import Mathlib.Tactic.FinCases

/-!
The cipher that a thread of `cipher_breaker.cu` undoes: a key of four characters selects one of
six matrices and shifts the pairs of characters that the matrix has mixed.
-/

namespace CudaOpenMp.Breaker

abbrev Key := Fin 4 → UInt8

abbrev Text := Fin 12 → UInt8

def getAChar (v : Int) : UInt8 :=
  let v := (v.tmod 36 + 36).tmod 36
  if v < 26 then UInt8.ofInt ('a'.toNat + v) else UInt8.ofInt ('0'.toNat + (v - 26))

def getAVal (c : UInt8) : Int :=
  if 'a'.toUInt8 ≤ c ∧ c ≤ 'z'.toUInt8 then c.toNat - 'a'.toNat
  else if '0'.toUInt8 ≤ c ∧ c ≤ '9'.toUInt8 then c.toNat - '0'.toNat + 26
  else 0

def modInverse (a m : Int) : Int :=
  let a := (a.tmod m + m).tmod m
  match (List.range' 1 (m.toNat - 1)).find? fun x : Nat => (a * x).tmod m == 1 with
  | some x => x
  | none => -1

def keyOf (idx : Nat) : Key :=
  ![getAChar (idx / 36 / 36 / 36 % 36 : Nat), getAChar (idx / 36 / 36 % 36 : Nat),
    getAChar (idx / 36 % 36 : Nat), getAChar (idx % 36 : Nat)]

def HILL : Fin 6 → Matrix (Fin 2) (Fin 2) Int :=
  ![!![1, 2; 3, 5], !![5, 6; 17, 3], !![3, 5; 1, 2], !![7, 8; 11, 11], !![5, 4; 3, 7],
    !![9, 4; 5, 7]]

def mSum (k1 : Key) : Int := ((List.finRange 4).map fun i => getAVal (k1 i)).sum

def mat (k1 : Key) : Matrix (Fin 2) (Fin 2) Int := HILL (Fin.ofNat 6 (mSum k1).toNat)

def determinant (mat : Matrix (Fin 2) (Fin 2) Int) : Int :=
  mat 0 0 * mat 1 1 - mat 0 1 * mat 1 0

def invMat (mat : Matrix (Fin 2) (Fin 2) Int) : Option (Matrix (Fin 2) (Fin 2) Int) :=
  let det := (determinant mat).tmod 36
  let det := (det + 36).tmod 36
  let detInv := modInverse det 36
  if detInv = -1 then none
  else some !![(mat 1 1 * detInv).tmod 36, (-mat 0 1 * detInv).tmod 36;
    (-mat 1 0 * detInv).tmod 36, (mat 0 0 * detInv).tmod 36]

def plainChar (inv : Matrix (Fin 2) (Fin 2) Int) (k1 : Key) (c1 : Text) (pair : Fin 6)
    (part : Fin 2) : UInt8 :=
  let cVal1 := getAVal (c1 ⟨2 * pair, by omega⟩)
  let cVal2 := getAVal (c1 ⟨2 * pair + 1, by omega⟩)
  let pHill := (inv part 0 * cVal1 + inv part 1 * cVal2).tmod 36
  let pHill := (pHill + 36).tmod 36
  let kVal := getAVal (k1 (Fin.ofNat 4 (2 * pair + part)))
  getAChar ((pHill - kVal + 36).tmod 36)

/-- The text that a thread makes of the ciphertext, unless the matrix has no inverse. -/
def decrypt (c2 : Text) (k1 : Key) : Option Text :=
  (invMat (mat k1)).map fun inv i =>
    plainChar inv k1 (fun j => c2 ⟨11 - j, by omega⟩) ⟨i / 2, by omega⟩ ⟨i % 2, by omega⟩

def StartsWithBook (pt : Text) : Prop :=
  pt 0 = 'b'.toUInt8 ∧ pt 1 = 'o'.toUInt8 ∧ pt 2 = 'o'.toUInt8 ∧ pt 3 = 'k'.toUInt8

instance (pt : Text) : Decidable (StartsWithBook pt) := inferInstanceAs (Decidable (_ ∧ _))

def place (pair : Fin 6) (part : Fin 2) : Fin 12 := ⟨2 * pair + part, by omega⟩

def reversed (text : Text) : Text := fun i => text ⟨11 - i, by omega⟩

def shifted (k1 : Key) (pt : Text) (i : Fin 12) : Int :=
  (getAVal (pt i) + getAVal (k1 (Fin.ofNat 4 i))) % 36

def mixed (k1 : Key) (pt : Text) (pair : Fin 6) (part : Fin 2) : Int :=
  (mat k1 part 0 * shifted k1 pt (place pair 0) + mat k1 part 1 * shifted k1 pt (place pair 1)) % 36

def encrypt (k1 : Key) (pt : Text) : Text :=
  reversed fun i => getAChar (mixed k1 pt ⟨i / 2, by omega⟩ ⟨i % 2, by omega⟩)

/-- `p_hill1` or `p_hill2` after the correction. -/
def hillIndex (inv : Matrix (Fin 2) (Fin 2) Int) (c1 : Text) (pair : Fin 6) (part : Fin 2) : Int :=
  ((inv part 0 * getAVal (c1 (place pair 0)) + inv part 1 * getAVal (c1 (place pair 1))).tmod 36 +
    36).tmod 36

/-- `p_orig1` or `p_orig2`. -/
def plainIndex (inv : Matrix (Fin 2) (Fin 2) Int) (k1 : Key) (c1 : Text) (pair : Fin 6)
    (part : Fin 2) : Int :=
  (hillIndex inv c1 pair part - getAVal (k1 (Fin.ofNat 4 (place pair part))) + 36).tmod 36

def plaintext (inv : Matrix (Fin 2) (Fin 2) Int) (k1 : Key) (c2 : Text) : Text := fun i =>
  plainChar inv k1 (reversed c2) ⟨i / 2, by omega⟩ ⟨i % 2, by omega⟩

/-! Remainders, characters and inverses. -/

theorem tmod_add_tmod (a : Int) {m : Int} (positive : 0 < m) : (a.tmod m + m).tmod m = a % m := by
  have low := Int.lt_tmod_of_pos a positive
  rw [Int.tmod_eq_emod_of_nonneg (by omega), Int.add_emod_right]
  calc a.tmod m % m = (a.tmod m + m * a.tdiv m) % m := (Int.add_mul_emod_self_left ..).symm
    _ = a % m := by rw [Int.tmod_add_mul_tdiv]

def InAlphabet (c : UInt8) : Prop :=
  ('a'.toUInt8 ≤ c ∧ c ≤ 'z'.toUInt8) ∨ '0'.toUInt8 ≤ c ∧ c ≤ '9'.toUInt8

instance (c : UInt8) : Decidable (InAlphabet c) := inferInstanceAs (Decidable (_ ∨ _))

theorem getAChar_emod (v : Int) : getAChar (v % 36) = getAChar v := by
  simp only [getAChar, tmod_add_tmod _ (by decide : (0 : Int) < 36), Int.emod_emod]

theorem table_index (n : Fin 36) : InAlphabet (getAChar n) ∧ getAVal (getAChar n) = n := by
  revert n
  decide

theorem table_byte (n : Fin 256) : (0 ≤ getAVal (UInt8.ofNat n) ∧ getAVal (UInt8.ofNat n) < 36) ∧
    (InAlphabet (UInt8.ofNat n) → getAChar (getAVal (UInt8.ofNat n)) = UInt8.ofNat n) := by
  revert n
  decide +kernel

theorem getAVal_getAChar {v : Int} (lower : 0 ≤ v) (upper : v < 36) : getAVal (getAChar v) = v := by
  obtain ⟨n, rfl⟩ := Int.eq_ofNat_of_zero_le lower
  exact (table_index ⟨n, by omega⟩).2

theorem getAChar_alphabet (v : Int) : InAlphabet (getAChar v) := by
  have lower : 0 ≤ v % 36 := by omega
  obtain ⟨n, remainder⟩ := Int.eq_ofNat_of_zero_le lower
  rw [← getAChar_emod, remainder]
  exact (table_index ⟨n, by omega⟩).1

theorem getAVal_range (c : UInt8) : 0 ≤ getAVal c ∧ getAVal c < 36 := by
  have byte := (table_byte ⟨c.toNat, c.toNat_lt⟩).1
  rwa [UInt8.ofNat_toNat] at byte

theorem getAChar_getAVal {c : UInt8} (alphabet : InAlphabet c) : getAChar (getAVal c) = c := by
  have byte := (table_byte ⟨c.toNat, c.toNat_lt⟩).2
  rw [UInt8.ofNat_toNat] at byte
  exact byte alphabet

theorem keyOf_alphabet (idx : Nat) (i : Fin 4) : InAlphabet (keyOf idx i) := by
  fin_cases i <;> exact getAChar_alphabet _

theorem exists_keyOf {key : Key} (alphabet : ∀ i, InAlphabet (key i)) :
    ∃ idx < 36 ^ 4, keyOf idx = key := by
  have digit (i : Fin 4) : ∃ n < 36, getAChar (n : Nat) = key i := by
    obtain ⟨lower, upper⟩ := getAVal_range (key i)
    obtain ⟨n, value⟩ := Int.eq_ofNat_of_zero_le lower
    refine ⟨n, by omega, ?_⟩
    rw [← getAChar_getAVal (alphabet i), value]
  choose n small spelled using digit
  have := small 0
  have := small 1
  have := small 2
  have := small 3
  refine ⟨((n 0 * 36 + n 1) * 36 + n 2) * 36 + n 3, by omega, ?_⟩
  have first : (((n 0 * 36 + n 1) * 36 + n 2) * 36 + n 3) / 36 / 36 / 36 % 36 = n 0 := by omega
  have second : (((n 0 * 36 + n 1) * 36 + n 2) * 36 + n 3) / 36 / 36 % 36 = n 1 := by omega
  have third : (((n 0 * 36 + n 1) * 36 + n 2) * 36 + n 3) / 36 % 36 = n 2 := by omega
  have fourth : (((n 0 * 36 + n 1) * 36 + n 2) * 36 + n 3) % 36 = n 3 := by omega
  funext i
  rw [keyOf, first, second, third, fourth]
  fin_cases i <;> exact spelled _

theorem keyOf_injOn : Set.InjOn keyOf {idx | idx < 36 ^ 4} := by
  intro idx below idx' below' same
  have digit (i : Fin 4) : getAVal (keyOf idx i) = getAVal (keyOf idx' i) := by rw [same]
  have first := digit 0
  have second := digit 1
  have third := digit 2
  have fourth := digit 3
  simp only [keyOf, Matrix.cons_val] at first second third fourth
  rw [getAVal_getAChar (by omega) (by omega), getAVal_getAChar (by omega) (by omega)]
    at first second third fourth
  rw [Set.mem_ofPred_eq] at below below'
  omega

theorem keyOf_bijOn : Set.BijOn keyOf {idx | idx < 36 ^ 4} {key | ∀ i, InAlphabet (key i)} :=
  ⟨fun idx _ => keyOf_alphabet idx, keyOf_injOn, fun _ alphabet => exists_keyOf alphabet⟩

theorem exists_inverse {a m : Int} (large : 1 < m) (coprime : Int.gcd a m = 1) :
    ∃ x : Nat, (1 ≤ x ∧ x < m.toNat) ∧ a * x % m = 1 := by
  obtain ⟨b, remainder⟩ := Int.eq_ofNat_of_zero_le (Int.emod_nonneg a (by omega : m ≠ 0))
  obtain ⟨n, modulus⟩ := Int.eq_ofNat_of_zero_le (by omega : 0 ≤ m)
  subst modulus
  have same : Nat.Coprime b n := by
    rw [← Int.gcd_emod, remainder] at coprime
    exact coprime
  obtain ⟨x, small, inverse⟩ := Nat.exists_mul_mod_eq_one_of_coprime same (by omega)
  have one : (b * x : Int) % n = 1 := by exact_mod_cast inverse
  refine ⟨x, ⟨Nat.pos_of_ne_zero ?_, by omega⟩, ?_⟩
  · rintro rfl
    simp at inverse
  · have same : a % n * x % n = a * x % n := (Int.mod_modEq a n).mul_right x
    rw [← same, remainder, one]

theorem gcd_of_inverse {a b m : Int} (inverse : a * b % m = 1) : Int.gcd a m = 1 := by
  have step : b * a + m * -(a * b / m) = 1 := by
    rw [← inverse, Int.emod_def]
    ring
  exact Int.isCoprime_iff_gcd_eq_one.mp ⟨b, -(a * b / m), by rw [← step]; ring⟩

theorem modInverse_cases {a m : Int} (large : 1 < m) :
    (modInverse a m = -1 ∧ Int.gcd a m ≠ 1) ∨
      (0 < modInverse a m ∧ a * modInverse a m % m = 1 ∧ Int.gcd a m = 1) := by
  have reduced (x : Nat) : ((a % m * x).tmod m == 1) = true ↔ a * x % m = 1 := by
    have nonneg : 0 ≤ a % m * x := Int.mul_nonneg (Int.emod_nonneg a (by omega)) (Int.natCast_nonneg x)
    rw [beq_iff_eq, Int.tmod_eq_emod_of_nonneg nonneg]
    have same : a % m * x % m = a * x % m := (Int.mod_modEq a m).mul_right x
    rw [same]
  rw [modInverse, tmod_add_tmod a (by omega)]
  split
  · next x found =>
    have satisfied := List.find?_some found
    have inverse := (reduced x).mp satisfied
    have positive := (List.mem_range'_1.mp (List.mem_of_find?_eq_some found)).1
    exact Or.inr ⟨by omega, inverse, gcd_of_inverse inverse⟩
  · next none =>
    refine Or.inl ⟨rfl, ?_⟩
    intro coprime
    obtain ⟨x, range, inverse⟩ := exists_inverse large coprime
    apply List.find?_eq_none.mp none x (List.mem_range'_1.mpr (by omega))
    exact (reduced x).mpr inverse

theorem invMat_isSome (mat : Matrix (Fin 2) (Fin 2) Int) :
    (invMat mat).isSome ↔ Int.gcd (determinant mat) 36 = 1 := by
  rw [invMat]
  simp only [tmod_add_tmod _ (by decide : (0 : Int) < 36)]
  have cases := modInverse_cases (a := determinant mat % 36) (by decide : (1 : Int) < 36)
  rw [Int.gcd_emod] at cases
  rcases cases with ⟨missing, apart⟩ | ⟨positive, _, coprime⟩
  · simp [missing, apart]
  · rw [if_neg (by omega)]
    simp [coprime]

end CudaOpenMp.Breaker
