import CudaOpenMp.Cipher.Scheme
import CudaOpenMp.Cipher.TlforceCore

/-! The four-word seed: its residue modulo 997, its decimal string and its update. -/

namespace CudaOpenMp.Tlforce

theorem p64_toNat : p64.toNat = 961 := by decide +kernel

theorem mul_mod_toNat {a b : UInt64} (aBound : a.toNat < 997) (bBound : b.toNat < 997) :
    (a * b % 997).toNat = a.toNat * b.toNat % 997 := by
  have product : a.toNat * b.toNat < 997 * 997 := Nat.mul_lt_mul'' aBound bBound
  have small : a.toNat * b.toNat < 2 ^ 64 := by omega
  rw [UInt64.toNat_mod, UInt64.toNat_mul, Nat.mod_eq_of_lt small]
  rfl

theorem mod_toNat (a : UInt64) : (a % 997).toNat = a.toNat % 997 := by
  rw [UInt64.toNat_mod]
  rfl

theorem mod_toNat_lt (a : UInt64) : (a % 997).toNat < 997 := by
  rw [mod_toNat]
  exact Nat.mod_lt _ (by decide)

theorem p128_toNat : p128.toNat = 299 := by
  have bound : p64.toNat < 997 := by rw [p64_toNat]; decide
  rw [p128, mul_mod_toNat bound bound, p64_toNat]

theorem p192_toNat : p192.toNat = 203 := by
  have bound : p64.toNat < 997 := by rw [p64_toNat]; decide
  have square : p128.toNat < 997 := by rw [p128_toNat]; decide
  rw [p192, mul_mod_toNat square bound, p128_toNat, p64_toNat]

theorem weighted_toNat (a : UInt64) {power : UInt64} {weight : Nat}
    (known : power.toNat = weight % 997) :
    (a % 997 * power % 997).toNat = a.toNat * weight % 997 := by
  have bound : power.toNat < 997 := by
    rw [known]
    exact Nat.mod_lt _ (by decide)
  rw [mul_mod_toNat (mod_toNat_lt a) bound, mod_toNat, known, ← Nat.mul_mod]

theorem seedMod_toNat (seed : Uint256) : (seedMod seed).toNat = seed.value % 997 := by
  have top : (seed.hi2 % 997 * p192 % 997).toNat = seed.hi2.toNat * 2 ^ 192 % 997 :=
    weighted_toNat seed.hi2 (by rw [p192_toNat]; norm_num)
  have next : (seed.hi1 % 997 * p128 % 997).toNat = seed.hi1.toNat * 2 ^ 128 % 997 :=
    weighted_toNat seed.hi1 (by rw [p128_toNat]; norm_num)
  have third : (seed.lo1 % 997 * p64 % 997).toNat = seed.lo1.toNat * 2 ^ 64 % 997 :=
    weighted_toNat seed.lo1 (by rw [p64_toNat]; norm_num)
  have last := mod_toNat seed.lo0
  -- Four residues below 997 add up without wrapping.
  have sum (a b c d : Nat) : ((a % 997 + b % 997) % 2 ^ 64 + c % 997) % 2 ^ 64 + d % 997 =
      a % 997 + b % 997 + c % 997 + d % 997 := by omega
  have small (a b c d : Nat) : (a % 997 + b % 997 + c % 997 + d % 997) % 2 ^ 64 =
      a % 997 + b % 997 + c % 997 + d % 997 := by omega
  have gathered (a b c d : Nat) :
      (a % 997 + b % 997 + c % 997 + d % 997) % 997 = (a + b + c + d) % 997 := by omega
  have flat : seed.value = seed.hi2.toNat * 2 ^ 192 + seed.hi1.toNat * 2 ^ 128 +
      seed.lo1.toNat * 2 ^ 64 + seed.lo0.toNat := by
    rw [Uint256.value]
    ring
  rw [seedMod, mod_toNat, UInt64.toNat_add, UInt64.toNat_add, UInt64.toNat_add, top, next, third,
    last, sum, small, gathered, flat]

theorem computeScores_toNat (seed : Uint256) {c : Nat} (bound : c < 36) :
    ((computeScores seed).getD c 0).toNat = Scheme.leafScore seed.value c := by
  have index : (UInt64.ofNat (c + 1)).toNat = c + 1 := by
    rw [UInt64.toNat_ofNat_of_lt']
    exact Nat.lt_of_le_of_lt bound (by decide)
  have residue : (seedMod seed).toNat < 997 := by
    rw [seedMod_toNat]
    exact Nat.mod_lt _ (by decide)
  have product : (UInt64.ofNat (c + 1) * seedMod seed % 997).toNat =
      (c + 1) * (seed.value % 997) % 997 := by
    rw [mul_mod_toNat (by omega) residue, index, seedMod_toNat]
  have small : ((UInt64.ofNat (c + 1) * seedMod seed % 997).toNat + 17) < 2 ^ 64 := by
    rw [product]
    omega
  have entry : (computeScores seed).getD c 0 =
      (UInt64.ofNat (c + 1) * seedMod seed % 997 + 17) % 997 := by
    simp [computeScores, List.getD_eq_getElem?_getD, bound]
  rw [entry, mod_toNat, UInt64.toNat_add]
  change ((UInt64.ofNat (c + 1) * seedMod seed % 997).toNat + 17) % 2 ^ 64 % 997 = _
  rw [Nat.mod_eq_of_lt small, product, Nat.mod_add_mod, Scheme.leafScore, Nat.add_mod,
    Nat.mul_mod_mod, ← Nat.add_mod]

theorem foldl_word (bytes : List UInt8) (v : UInt64)
    (room : (v.toNat + 1) * 256 ^ bytes.length ≤ 2 ^ 64) :
    (bytes.foldl (fun (v : UInt64) (b : UInt8) => (v <<< 8) ||| b.toUInt64) v).toNat =
      v.toNat * 256 ^ bytes.length + BigEndian.value bytes := by
  induction bytes generalizing v with
  | nil => simp [BigEndian.value]
  | cons b rest ih =>
      have byte : b.toNat < 2 ^ 8 := b.toNat_lt
      have power : 0 < 256 ^ rest.length := Nat.pow_pos (by decide)
      rw [List.length_cons, Nat.pow_succ, Nat.mul_comm (256 ^ rest.length), ← Nat.mul_assoc] at room
      have fits : (v.toNat + 1) * 256 ≤ 2 ^ 64 :=
        Nat.le_trans (Nat.le_mul_of_pos_right _ power) room
      have shifted : ((v <<< 8) ||| b.toUInt64).toNat = v.toNat * 256 + b.toNat := by
        rw [UInt64.toNat_or, UInt64.toNat_shiftLeft, UInt8.toNat_toUInt64]
        change v.toNat <<< 8 % 2 ^ 64 ||| b.toNat = _
        rw [Nat.mod_eq_of_lt (by rw [Nat.shiftLeft_eq]; omega), ← Nat.shiftLeft_add_eq_or_of_lt byte,
          Nat.shiftLeft_eq]
      have next : (v.toNat * 256 + b.toNat + 1) * 256 ^ rest.length ≤ 2 ^ 64 :=
        Nat.le_trans (Nat.mul_le_mul_right _ (by omega)) room
      rw [List.foldl_cons, ih _ (by rwa [shifted]), shifted, BigEndian.value_cons, List.length_cons]
      ring

theorem readWord_toNat (digest : List UInt8) (offset : Nat) :
    (readWord digest offset).toNat = BigEndian.value ((digest.drop offset).take 8) := by
  have size : ((digest.drop offset).take 8).length ≤ 8 := by simp
  rw [readWord, foldl_word]
  · simp
  · change (0 + 1) * 256 ^ ((digest.drop offset).take 8).length ≤ 256 ^ 8
    rw [Nat.zero_add, Nat.one_mul]
    exact Nat.pow_le_pow_right (by decide) size

theorem fromDigest_value {digest : List UInt8} (size : digest.length = 32) :
    (Uint256.fromDigest digest).value = BigEndian.value digest := by
  have cut (first : Nat) (bound : first + 8 ≤ 32) : BigEndian.value (digest.take (first + 8)) =
      BigEndian.value (digest.take first) * 2 ^ 64 +
        BigEndian.value ((digest.drop first).take 8) := by
    rw [List.take_add, BigEndian.value_append, List.length_take, List.length_drop, size,
      Nat.min_eq_left (by omega)]
    rfl
  have whole : digest.take 32 = digest := List.take_of_length_le (by omega)
  have first := cut 0 (by decide)
  have second := cut 8 (by decide)
  have third := cut 16 (by decide)
  have fourth := cut 24 (by decide)
  rw [whole] at fourth
  simp only [List.take_zero, Nat.zero_add] at first second third
  simp only [Uint256.value, Uint256.fromDigest, readWord_toNat]
  rw [fourth, third, second, first]
  simp [BigEndian.value]

theorem xor_low (high low c : Nat) (lowBound : low < 2 ^ 64) (cBound : c < 2 ^ 64) :
    (high * 2 ^ 64 + low) ^^^ c = high * 2 ^ 64 + (low ^^^ c) := by
  have quotient : (high * 2 ^ 64 + low) / 2 ^ 64 = high := by omega
  have remainder : (high * 2 ^ 64 + low) % 2 ^ 64 = low := by omega
  rw [← Nat.div_add_mod ((high * 2 ^ 64 + low) ^^^ c) (2 ^ 64), Nat.xor_div_two_pow,
    Nat.xor_mod_two_pow, quotient, remainder, Nat.div_eq_of_lt cBound, Nat.mod_eq_of_lt cBound,
    Nat.xor_zero, Nat.mul_comm]

theorem unsignedChar_chr : ∀ {c : Nat}, c < 36 → (unsignedChar (chr c)).toNat = ord c := by
  decide

theorem value_xor (seed : Uint256) {c : Nat} (bound : c < 36) :
    ({ seed with lo0 := seed.lo0 ^^^ unsignedChar (chr c) } : Uint256).value =
      seed.value ^^^ ord c := by
  have small : ord c < 2 ^ 64 := Nat.lt_trans (ord_lt bound) (by decide)
  simp only [Uint256.value, UInt64.toNat_xor, unsignedChar_chr bound]
  exact (xor_low _ _ _ seed.lo0.toNat_lt small).symm

theorem value_lt (seed : Uint256) : seed.value < 2 ^ 256 := by
  have top := seed.hi2.toNat_lt
  have next := seed.hi1.toNat_lt
  have third := seed.lo1.toNat_lt
  have last := seed.lo0.toNat_lt
  simp only [Uint256.value]
  omega

theorem wordBytes_value (v : UInt64) : BigEndian.value (wordBytes v) = v.toNat := by
  have byte (shift : UInt64) (small : shift.toNat < 64) :
      ((v >>> shift) &&& 0xFF).toUInt8.toNat = v.toNat / 2 ^ shift.toNat % 256 := by
    rw [UInt64.toNat_toUInt8, UInt64.toNat_and, UInt64.toNat_shiftRight, Nat.mod_eq_of_lt small,
      Nat.shiftRight_eq_div_pow]
    change (_ &&& 2 ^ 8 - 1) % 2 ^ 8 = _
    rw [Nat.and_two_pow_sub_one_eq_mod, Nat.mod_mod]
  have bound := v.toNat_lt
  simp only [wordBytes, List.map_cons, List.map_nil, BigEndian.value, List.foldl_cons,
    List.foldl_nil]
  rw [byte 56 (by decide), byte 48 (by decide), byte 40 (by decide), byte 32 (by decide),
    byte 24 (by decide), byte 16 (by decide), byte 8 (by decide), byte 0 (by decide)]
  change ((((((((0 * 256 + v.toNat / 2 ^ 56 % 256) * 256 + v.toNat / 2 ^ 48 % 256) * 256 +
    v.toNat / 2 ^ 40 % 256) * 256 + v.toNat / 2 ^ 32 % 256) * 256 + v.toNat / 2 ^ 24 % 256) * 256 +
    v.toNat / 2 ^ 16 % 256) * 256 + v.toNat / 2 ^ 8 % 256) * 256 + v.toNat / 2 ^ 0 % 256) = _
  have top : 0 * 256 + v.toNat / 2 ^ 56 % 256 = v.toNat / 2 ^ 56 := by omega
  -- Each byte joins those above it.
  have joins (k : Nat) : v.toNat / 2 ^ (k + 8) * 256 + v.toNat / 2 ^ k % 256 = v.toNat / 2 ^ k := by
    rw [Nat.pow_add, ← Nat.div_div_eq_div_mul]
    exact Nat.div_add_mod' _ _
  rw [top, joins 48, joins 40, joins 32, joins 24, joins 16, joins 8, joins 0, Nat.pow_zero,
    Nat.div_one]

@[simp] theorem wordBytes_length (v : UInt64) : (wordBytes v).length = 8 := rfl

theorem bignum_value (temp : Uint256) : BigEndian.value (bignum temp) = temp.value := by
  simp only [bignum, List.flatMap_cons, List.flatMap_nil, List.append_nil, BigEndian.value_append,
    wordBytes_value, List.length_append, wordBytes_length, Uint256.value]
  ring

theorem isZero_iff (bytes : List UInt8) : isZero bytes = true ↔ BigEndian.value bytes = 0 := by
  rw [BigEndian.value_eq_zero_iff]
  simp [isZero]

theorem divmod10_eq (bytes : List UInt8) {rem : UInt32} (small : rem.toNat < 10) :
    (divmod10 rem bytes).1.map UInt8.toNat =
        (Numeral.divide 256 10 rem.toNat (bytes.map UInt8.toNat)).1 ∧
      (divmod10 rem bytes).2.toNat =
        (Numeral.divide 256 10 rem.toNat (bytes.map UInt8.toNat)).2 := by
  induction bytes generalizing rem with
  | nil => exact ⟨rfl, rfl⟩
  | cons b rest ih =>
      have byte := b.toNat_lt
      have current : (rem * 256 + b.toUInt32).toNat = rem.toNat * 256 + b.toNat := by
        rw [UInt32.toNat_add, UInt32.toNat_mul, UInt8.toNat_toUInt32]
        change (rem.toNat * 256 % 2 ^ 32 + b.toNat) % 2 ^ 32 = _
        omega
      have remainder : ((rem * 256 + b.toUInt32) % 10).toNat = (rem.toNat * 256 + b.toNat) % 10 := by
        rw [UInt32.toNat_mod, current]
        rfl
      have quotient : ((rem * 256 + b.toUInt32) / 10).toUInt8.toNat =
          (rem.toNat * 256 + b.toNat) / 10 := by
        rw [UInt32.toNat_toUInt8, UInt32.toNat_div, current]
        change (rem.toNat * 256 + b.toNat) / 10 % 2 ^ 8 = _
        omega
      have tail := ih (show ((rem * 256 + b.toUInt32) % 10).toNat < 10 by rw [remainder]; omega)
      rw [remainder] at tail
      simp only [divmod10, List.map_cons, quotient, Numeral.divide, tail.1, tail.2, and_self]

theorem divmod10_spec (bytes : List UInt8) :
    BigEndian.value (divmod10 0 bytes).1 = BigEndian.value bytes / 10 ∧
      (divmod10 0 bytes).2.toNat = BigEndian.value bytes % 10 := by
  obtain ⟨quotient, last⟩ := divmod10_eq bytes (show (0 : UInt32).toNat < 10 by decide)
  have divided := Numeral.divide_start (show 0 < 10 by decide) 256 (bytes.map UInt8.toNat)
  rw [BigEndian.value_eq, BigEndian.value_eq, quotient, last]
  exact divided

theorem decimal_digit {d : Nat} (small : d < 10) : Scheme.decimal d = [48 + d.toUInt8] := by
  have char : ∀ d < 10, (Nat.digitChar d).toNat.toUInt8 = 48 + d.toUInt8 := by decide
  rw [Scheme.decimal, Nat.toDigits_of_lt_base small, List.map_singleton, char d small]

theorem decimal_step {v : Nat} (large : 10 ≤ v) :
    Scheme.decimal v = Scheme.decimal (v / 10) ++ [48 + (v % 10).toUInt8] := by
  have char : ∀ d < 10, (Nat.digitChar d).toNat.toUInt8 = 48 + d.toUInt8 := by decide
  rw [Scheme.decimal, Nat.toDigits_of_base_le (by decide) large, List.map_append,
    List.map_singleton, char _ (Nat.mod_lt v (by decide))]
  rfl

theorem digitLoop_spec (room : Nat) (bytes : List UInt8)
    (bound : BigEndian.value bytes < 10 ^ room) :
    ∃ digits, digitLoop room bytes = some digits ∧
      (0 < BigEndian.value bytes →
        digits.reverse.map (fun d => 48 + d) = Scheme.decimal (BigEndian.value bytes)) := by
  induction room generalizing bytes with
  | zero =>
      have zero : BigEndian.value bytes = 0 := by simpa using bound
      refine ⟨[], ?_, fun positive => by omega⟩
      rw [digitLoop, if_pos ((isZero_iff bytes).mpr zero)]
  | succ room ih =>
      rw [digitLoop]
      by_cases zero : isZero bytes = true
      · rw [if_pos zero]
        have none := (isZero_iff bytes).mp zero
        exact ⟨[], rfl, fun positive => by omega⟩
      · rw [if_neg zero]
        have nonzero : BigEndian.value bytes ≠ 0 := fun none => zero ((isZero_iff bytes).mpr none)
        obtain ⟨quotient, last⟩ := divmod10_spec bytes
        have lastByte : (divmod10 0 bytes).2.toUInt8 = (BigEndian.value bytes % 10).toUInt8 := by
          rw [← last]
          rfl
        obtain ⟨digits, found, spelled⟩ := ih (divmod10 0 bytes).1 (by
          rw [quotient]
          exact Nat.div_lt_of_lt_mul (by rwa [Nat.mul_comm, ← Nat.pow_succ]))
        refine ⟨(divmod10 0 bytes).2.toUInt8 :: digits, by simp [found], ?_⟩
        intro _
        rw [List.reverse_cons, List.map_append, List.map_singleton, lastByte]
        by_cases more : 10 ≤ BigEndian.value bytes
        · rw [decimal_step more, spelled (by omega), quotient]
        · have single : digits = [] := by
            cases room with
            | zero =>
                rw [digitLoop] at found
                split at found
                · simpa [eq_comm] using found
                · simp at found
            | succ room =>
                rw [digitLoop, if_pos ((isZero_iff _).mpr (by omega))] at found
                simpa [eq_comm] using found
          rw [single, decimal_digit (by omega), Nat.mod_eq_of_lt (by omega)]
          rfl

theorem decStr_eq (temp : Uint256) : decStr temp = some (Scheme.decimal temp.value) := by
  have value := bignum_value temp
  rw [decStr]
  by_cases zero : isZero (bignum temp) = true
  · have none : temp.value = 0 := by rw [← value, (isZero_iff _).mp zero]
    simp only [zero, if_true, none, decimal_digit (show 0 < 10 by decide)]
    rfl
  · have nonzero : BigEndian.value (bignum temp) ≠ 0 := fun none => zero ((isZero_iff _).mpr none)
    obtain ⟨digits, found, spelled⟩ := digitLoop_spec 80 (bignum temp) (by
      rw [value]
      exact Nat.lt_trans (value_lt temp) (by decide))
    rw [if_neg zero, found, ← value, ← spelled (Nat.pos_of_ne_zero nonzero)]
    rfl

theorem updateSeed_value (sha : Sha256) (seed : Uint256) {c : Nat} (bound : c < 36) :
    ∃ next, updateSeed sha seed (chr c) = some next ∧
      next.value = Scheme.update sha seed.value c := by
  refine ⟨Uint256.fromDigest (sha (Scheme.decimal (seed.value ^^^ ord c))).toList, ?_, ?_⟩
  · simp only [updateSeed, decStr_eq, value_xor seed bound, Option.bind_eq_bind, Option.bind_some,
      Option.pure_def]
  · rw [fromDigest_value (by simp), Scheme.update]

end CudaOpenMp.Tlforce
