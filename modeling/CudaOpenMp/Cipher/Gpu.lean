import CudaOpenMp.Cipher.GpuTree
import CudaOpenMp.Cipher.Tlforce

/-!
The device encoder against `score_tree_encode` on the host. The device keeps half of every
hash, so the two agree for every hash function on texts of at most one character only.
-/

namespace CudaOpenMp.Gpu

theorem divideByTen_eq (v : List UInt32) {rem : UInt64} (small : rem.toNat < 10) :
    (divideByTen rem v).1.map UInt32.toNat =
        (Numeral.divide (2 ^ 32) 10 rem.toNat (v.map UInt32.toNat)).1 ∧
      (divideByTen rem v).2.toNat =
        (Numeral.divide (2 ^ 32) 10 rem.toNat (v.map UInt32.toNat)).2 := by
  induction v generalizing rem with
  | nil => exact ⟨rfl, rfl⟩
  | cons word rest ih =>
      have bound := word.toNat_lt
      have current : (rem * 0x100000000 + word.toUInt64).toNat = rem.toNat * 2 ^ 32 + word.toNat := by
        rw [UInt64.toNat_add, UInt64.toNat_mul, UInt32.toNat_toUInt64]
        change (rem.toNat * 2 ^ 32 % 2 ^ 64 + word.toNat) % 2 ^ 64 = _
        omega
      have remainder : ((rem * 0x100000000 + word.toUInt64) % 10).toNat =
          (rem.toNat * 2 ^ 32 + word.toNat) % 10 := by
        rw [UInt64.toNat_mod, current]
        rfl
      have quotient : ((rem * 0x100000000 + word.toUInt64) / 10).toUInt32.toNat =
          (rem.toNat * 2 ^ 32 + word.toNat) / 10 := by
        rw [UInt64.toNat_toUInt32, UInt64.toNat_div, current]
        change (rem.toNat * 2 ^ 32 + word.toNat) / 10 % 2 ^ 32 = _
        omega
      have tail := ih (show ((rem * 0x100000000 + word.toUInt64) % 10).toNat < 10 by
        rw [remainder]; omega)
      rw [remainder] at tail
      simp only [divideByTen, List.map_cons, quotient, Numeral.divide, tail.1, tail.2, and_self]

theorem exists_digitLoop (room : Nat) (v : List UInt32)
    (bound : Numeral.value (2 ^ 32) (v.map UInt32.toNat) < 10 ^ room) :
    ∃ digits, digitLoop room v = some digits := by
  have zero (words : List UInt32)
      (none : Numeral.value (2 ^ 32) (words.map UInt32.toNat) = 0) :
      words.all (· == 0) = true := by
    rw [Numeral.value_eq_zero_iff (by decide)] at none
    rw [List.all_eq_true]
    intro word member
    have same := none word.toNat (List.mem_map_of_mem member)
    rw [beq_iff_eq, ← UInt32.toNat_inj, same]
    rfl
  induction room generalizing v with
  | zero => exact ⟨[], by rw [digitLoop, if_pos (zero v (by simpa using bound))]⟩
  | succ room ih =>
      rw [digitLoop]
      by_cases none : v.all (· == 0) = true
      · exact ⟨[], by rw [if_pos none]⟩
      · rw [if_neg none]
        obtain ⟨quotient, _⟩ := divideByTen_eq v (show (0 : UInt64).toNat < 10 by decide)
        have divided := (Numeral.divide_start (show 0 < 10 by decide) (2 ^ 32)
          (v.map UInt32.toNat)).1
        have smaller : Numeral.value (2 ^ 32) ((divideByTen 0 v).1.map UInt32.toNat) <
            10 ^ room := by
          rw [quotient]
          change Numeral.value (2 ^ 32) (Numeral.divide (2 ^ 32) 10 0 (v.map UInt32.toNat)).1 < _
          rw [divided]
          exact Nat.div_lt_of_lt_mul (by rwa [Nat.mul_comm, ← Nat.pow_succ])
        obtain ⟨digits, found⟩ := ih _ smaller
        refine ⟨(48 + (divideByTen 0 v).2.toUInt8) :: digits, ?_⟩
        simp only [found, Option.map_some]

theorem exists_dUpdateSeed (sha : Sha256) (seed : Seed128) (ch : Char) :
    ∃ tmp : List UInt8,
      dUpdateSeed sha seed ch = some (Seed128.fromHash (sha tmp.reverse).toList) := by
  generalize words : [(seed.hi >>> 32).toUInt32, (seed.hi &&& 0xFFFFFFFF).toUInt32,
    ((seed.lo ^^^ ch.toNat.toUInt8.toUInt64) >>> 32).toUInt32,
    ((seed.lo ^^^ ch.toNat.toUInt8.toUInt64) &&& 0xFFFFFFFF).toUInt32] = v
  have size : v.length = 4 := by rw [← words]; rfl
  have bound : Numeral.value (2 ^ 32) (v.map UInt32.toNat) < 10 ^ 39 := by
    have small := @Numeral.value_lt (2 ^ 32) (v.map UInt32.toNat) (by
      intro d member
      obtain ⟨word, _, rfl⟩ := List.mem_map.mp member
      exact word.toNat_lt)
    rw [List.length_map, size] at small
    exact Nat.lt_trans small (by decide)
  obtain ⟨digits, found⟩ := exists_digitLoop 39 v bound
  simp only [dUpdateSeed, words]
  by_cases none : v.all (· == 0) = true
  · exact ⟨[48], by rw [if_pos none]; rfl⟩
  · exact ⟨digits, by rw [if_neg none, found]; rfl⟩

theorem addChars_eq {start : Nat} (codes : List Nat) (startBound : start ≤ 2147483647) :
    addChars start codes =
      if start + codes.sum ≤ 2147483647 then some ((start + codes.sum : Nat) : Int) else none := by
  induction codes generalizing start with
  | nil =>
      rw [List.sum_nil, Nat.add_zero, if_pos startBound]
      rfl
  | cons code rest ih =>
      rw [addChars, List.foldlM_cons, List.sum_cons, ← Nat.add_assoc, ← Int.natCast_add]
      by_cases fits : start + code ≤ 2147483647
      · rw [int32_of_range (Int.natCast_nonneg _) (by omega), Option.bind_eq_bind, Option.bind_some]
        exact ih fits
      · have overflow : int32 ((start + code : Nat) : Int) = none := by
          rw [int32, if_neg (by omega)]
        rw [overflow, if_neg (by omega)]
        rfl

theorem seedInit_eq {key : List Nat} {roundNum : Nat} (small : ∀ i ∈ key, i < 36)
    (rounds : roundNum = 1 ∨ roundNum = 2) :
    seedInit (key.map chr) roundNum =
      if Scheme.initialSeed key roundNum ≤ 2147483647 then
        some ((Scheme.initialSeed key roundNum : Nat) : Int)
      else none := by
  have byte : ∀ c < 36, (chr c).toNat.toUInt8.toNat = ord c := by decide
  have codes : (key.map chr).map (fun c => c.toNat.toUInt8.toNat) = key.map ord := by
    rw [List.map_map]
    apply List.map_congr_left
    intro i member
    exact byte i (small i member)
  have suffix : addChars 0 (suffixCodes roundNum) = some ((82 + (47 + roundNum) : Nat) : Int) := by
    rcases rounds with rfl | rfl
    · decide
    · decide
  have keySum := addChars_eq (key.map ord) (show 0 ≤ 2147483647 by decide)
  rw [Nat.zero_add] at keySum
  rw [seedInit, codes]
  change (addChars ((0 : Nat) : Int) (key.map ord)).bind _ = _
  rw [keySum, Scheme.initialSeed]
  by_cases keyFits : (key.map ord).sum ≤ 2147483647
  · rw [if_pos keyFits, Option.bind_some, Option.bind_eq_bind, suffix, Option.bind_some,
      ← Int.natCast_add]
    by_cases sumFits : (key.map ord).sum + (82 + (47 + roundNum)) ≤ 2147483647
    · rw [int32_of_range (Int.natCast_nonneg _) (by omega), Option.bind_some]
      by_cases fits : (key.map ord).sum + (82 + (47 + roundNum)) + 1 ≤ 2147483647
      · rw [if_pos fits, int32_of_range (by omega) (by omega)]
        rfl
      · rw [if_neg fits, int32, if_neg (by omega)]
    · have overflow : int32 (((key.map ord).sum + (82 + (47 + roundNum)) : Nat) : Int) = none := by
        rw [int32, if_neg (by omega)]
      rw [overflow, if_neg (by omega)]
      rfl
  · rw [if_neg keyFits, if_neg (by omega)]
    rfl

theorem dCharToIdx_chr : ∀ {c : Nat}, c < 36 → dCharToIdx (chr c) = c := by
  decide

theorem spelled_bits (seed c : Nat) :
    (Scheme.code seed c).map (fun b => Char.ofNat (48 + b)) = (Scheme.code seed c).map chr := by
  have bit : ∀ b < 2, Char.ofNat (48 + b) = chr b := by decide
  apply List.map_congr_left
  intro b member
  exact bit b (Scheme.code_bits seed c b member)

theorem encodeLoop_cons (sha : Sha256) (maxOut : Int) (seed : Seed128) (totalBits : Int)
    {c : Nat} (bound : c < 36) (rest : List Char) :
    ∃ tmp : List UInt8, encodeLoop sha maxOut seed totalBits (chr c :: rest) =
      match int32 (totalBits + (Scheme.code seed.value c).length) with
      | none => .undefined
      | some sum =>
          if maxOut < sum then .full
          else (encodeLoop sha maxOut (Seed128.fromHash (sha tmp.reverse).toList) sum rest).after
            ((Scheme.code seed.value c).map chr) := by
  obtain ⟨tmp, updated⟩ := exists_dUpdateSeed sha seed (chr c)
  refine ⟨tmp, ?_⟩
  cases sum : int32 (totalBits + (Scheme.code seed.value c).length) with
  | none => simp only [encodeLoop, dCharToIdx_chr bound, dGetCode_eq seed bound, sum]
  | some total =>
      simp only [encodeLoop, dCharToIdx_chr bound, dGetCode_eq seed bound, updated, spelled_bits, sum]

theorem encodeLoop_ne_full (sha : Sha256) (seed : Seed128) (totalBits : Int) {text : List Nat}
    (small : ∀ c ∈ text, c < 36) :
    encodeLoop sha 2147483647 seed totalBits (text.map chr) ≠ .full := by
  induction text generalizing seed totalBits with
  | nil => simp [encodeLoop]
  | cons c rest ih =>
      obtain ⟨tmp, step⟩ := encodeLoop_cons sha 2147483647 seed totalBits (small c (by simp))
        (rest.map chr)
      rw [List.map_cons, step]
      cases sum : int32 (totalBits + (Scheme.code seed.value c).length) with
      | none => simp
      | some total =>
          have range : total ≤ 2147483647 := by
            simp only [int32, Option.ite_none_right_eq_some, Option.some.injEq] at sum
            omega
          have later := ih (Seed128.fromHash (sha tmp.reverse).toList) total
            fun d member => small d (by simp [member])
          simp only [if_neg (show ¬(2147483647 : Int) < total by omega)]
          cases tail : encodeLoop sha 2147483647 (Seed128.fromHash (sha tmp.reverse).toList) total
            (rest.map chr) with
          | undefined => simp [Outcome.after]
          | full => exact absurd tail later
          | written bits => simp [Outcome.after]

/-! Agreement with the host for every hash function and every buffer size. -/

/-- Whenever the device does not return -1, it has written the bits the host computes. -/
def Agrees (key text : List Char) (roundNum : Nat) : Prop :=
  ∀ (sha : Sha256) (maxOut : Int), maxOut ≤ 2147483647 →
    match dScoreTreeEncode sha text key roundNum maxOut with
    | .undefined => False
    | .full => True
    | .written bits => Tlforce.scoreTreeEncode sha text key roundNum = some bits

def threeHash : Sha256 := fun _ => (Vector.replicate 32 0).set 31 3

theorem update_threeHash (seed c : Nat) : Scheme.update threeHash seed c = 3 := by
  change BigEndian.value ((Vector.replicate 32 0).set 31 3 : Vector UInt8 32).toList = 3
  decide

theorem fromHash_threeHash (tmp : List UInt8) :
    Seed128.fromHash (threeHash tmp).toList = ⟨0, 0⟩ := by
  change Seed128.fromHash ((Vector.replicate 32 0).set 31 3 : Vector UInt8 32).toList = _
  decide

theorem codes_apart : ∀ c < 36, ¬Scheme.code 0 c <+: Scheme.code 3 c ∧
    ¬Scheme.code 3 c <+: Scheme.code 0 c := by
  decide +kernel

theorem codes_differ {c : Nat} (bound : c < 36) (first second : List Char) :
    (Scheme.code 0 c).map chr ++ first ≠ (Scheme.code 3 c).map chr ++ second := by
  intro same
  have small (seed : Nat) : ∀ b ∈ Scheme.code seed c, b < 36 := fun b member =>
    Nat.lt_of_lt_of_le (Scheme.code_bits seed c b member) (by decide)
  have back (a b : Nat) (longer : (Scheme.code a c).map chr <+: (Scheme.code b c).map chr) :
      Scheme.code a c <+: Scheme.code b c := by
    have taken := List.prefix_iff_eq_take.mp longer
    rw [List.length_map, ← List.map_take] at taken
    have equal := map_chr_inj (small a)
      (fun d member => small b d (List.mem_of_mem_take member)) taken
    exact List.prefix_iff_eq_take.mpr equal
  have left : (Scheme.code 0 c).map chr <+: (Scheme.code 3 c).map chr ++ second :=
    same ▸ List.prefix_append _ _
  rcases List.prefix_or_prefix_of_prefix left (List.prefix_append _ _) with shorter | longer
  · exact (codes_apart c bound).1 (back 0 3 shorter)
  · exact (codes_apart c bound).2 (back 3 0 longer)

theorem Outcome.after_after (first second : List Char) (rest : Outcome) :
    (rest.after second).after first = rest.after (first ++ second) := by
  cases rest with
  | undefined => rfl
  | full => rfl
  | written bits => simp [Outcome.after]

theorem encodeLoop_pair {maxOut : Int} (room : 44 ≤ maxOut) (seed : Seed128) {c d : Nat}
    (cBound : c < 36) (dBound : d < 36) (rest : List Char) :
    ∃ total : Int, encodeLoop threeHash maxOut seed 0 (chr c :: chr d :: rest) =
      (encodeLoop threeHash maxOut ⟨0, 0⟩ total rest).after
        ((Scheme.code seed.value c).map chr ++ (Scheme.code 0 d).map chr) := by
  have cShort := (Scheme.code_length_bounds seed.value cBound).2
  have dShort := (Scheme.code_length_bounds 0 dBound).2
  obtain ⟨tmp, first⟩ := encodeLoop_cons threeHash maxOut seed 0 cBound (chr d :: rest)
  obtain ⟨tmpToo, second⟩ := encodeLoop_cons threeHash maxOut ⟨0, 0⟩
    (0 + (Scheme.code seed.value c).length) dBound rest
  have zero : (Seed128.mk 0 0).value = 0 := rfl
  have firstSum := @int32_of_range (0 + (Scheme.code seed.value c).length) (by omega) (by omega)
  have secondSum := @int32_of_range
    (0 + (Scheme.code seed.value c).length + (Scheme.code 0 d).length) (by omega) (by omega)
  simp only [firstSum, fromHash_threeHash] at first
  simp only [zero, secondSum, fromHash_threeHash] at second
  rw [if_neg (by omega)] at first second
  rw [first, second, Outcome.after_after]
  exact ⟨_, rfl⟩

theorem start_value {seed : Nat} (bound : seed ≤ 2147483647) :
    (Seed128.mk 0 (UInt64.ofInt seed)).value = seed := by
  have word : (UInt64.ofInt (seed : Int)).toNat = seed := by
    have reduced : ((seed : Int) % 2 ^ 64).toNat = seed := by omega
    rw [UInt64.ofInt, reduced]
    exact UInt64.toNat_ofNat_of_lt' (Nat.lt_of_le_of_lt bound (by decide))
  rw [Seed128.value, word]
  simp

theorem initialSeed_light {key : List Nat} {roundNum : Nat}
    (fits : Scheme.initialSeed key roundNum ≤ 2147483647) : (key.map ord).sum < 2 ^ 32 := by
  rw [Scheme.initialSeed] at fits
  omega

theorem pair_differs {key rest : List Nat} {c d roundNum : Nat}
    (keySmall : ∀ i ∈ key, i < 36) (textSmall : ∀ e ∈ c :: d :: rest, e < 36)
    (rounds : roundNum = 1 ∨ roundNum = 2)
    (fits : Scheme.initialSeed key roundNum ≤ 2147483647) {maxOut : Int} (room : 44 ≤ maxOut)
    {bits : List Char} (written : dScoreTreeEncode threeHash ((c :: d :: rest).map chr)
      (key.map chr) roundNum maxOut = .written bits) :
    Tlforce.scoreTreeEncode threeHash ((c :: d :: rest).map chr) (key.map chr) roundNum ≠
      some bits := by
  have cBound := textSmall c (by simp)
  have dBound := textSmall d (by simp)
  obtain ⟨total, pair⟩ := encodeLoop_pair room
    ⟨0, UInt64.ofInt (Scheme.initialSeed key roundNum : Nat)⟩ cBound dBound (rest.map chr)
  rw [start_value fits] at pair
  rw [dScoreTreeEncode, seedInit_eq keySmall rounds, if_pos fits] at written
  simp only [List.map_cons, pair] at written
  rw [Tlforce.scoreTreeEncode_eq threeHash keySmall (initialSeed_light fits) textSmall rounds]
  intro same
  rw [Option.some.injEq] at same
  cases tail : encodeLoop threeHash maxOut ⟨0, 0⟩ total (rest.map chr) with
  | undefined => simp [tail, Outcome.after] at written
  | full => simp [tail, Outcome.after] at written
  | written more =>
      rw [tail, Outcome.after, Outcome.written.injEq] at written
      rw [← written] at same
      simp only [Scheme.encode, update_threeHash, List.map_append, List.append_assoc,
        List.append_cancel_left_eq] at same
      exact codes_differ dBound more _ same.symm

theorem dScoreTreeEncode_short (sha : Sha256) {key : List Nat} {text : List Nat} {roundNum : Nat}
    (keySmall : ∀ i ∈ key, i < 36) (textSmall : ∀ c ∈ text, c < 36)
    (rounds : roundNum = 1 ∨ roundNum = 2) (short : text.length ≤ 1)
    (fits : Scheme.initialSeed key roundNum ≤ 2147483647) (maxOut : Int) :
    dScoreTreeEncode sha (text.map chr) (key.map chr) roundNum maxOut = .full ∨
      dScoreTreeEncode sha (text.map chr) (key.map chr) roundNum maxOut = .written
        ((Scheme.encode (Scheme.update sha) (Scheme.initialSeed key roundNum) text).map chr) := by
  simp only [dScoreTreeEncode, seedInit_eq keySmall rounds, if_pos fits]
  cases text with
  | nil => exact Or.inr rfl
  | cons c rest =>
      have last : rest = [] := by
        rw [List.length_cons] at short
        exact List.length_eq_zero_iff.mp (by omega)
      subst rest
      have cBound := textSmall c (by simp)
      have bounds := Scheme.code_length_bounds (Scheme.initialSeed key roundNum) cBound
      obtain ⟨tmp, step⟩ := encodeLoop_cons sha maxOut
        ⟨0, UInt64.ofInt (Scheme.initialSeed key roundNum : Nat)⟩ 0 cBound []
      rw [start_value fits] at step
      rw [List.map_cons, List.map_nil, step, int32_of_range (by omega) (by omega)]
      by_cases small : maxOut < 0 + (Scheme.code (Scheme.initialSeed key roundNum) c).length
      · exact Or.inl (if_pos small)
      · right
        simp only [if_neg small, encodeLoop, Outcome.after, Scheme.encode, List.append_nil]

/-- The device agrees with the host exactly on texts of at most one character. -/
theorem agrees_iff {key text : List Char} {roundNum : Nat} (keyOver : OverCharset key)
    (textOver : OverCharset text) (rounds : roundNum = 1 ∨ roundNum = 2) :
    Agrees key text roundNum ↔
      text.length ≤ 1 ∧ (key.map Char.toNat).sum + (82 + (47 + roundNum)) + 1 ≤ 2147483647 := by
  obtain ⟨keyIndices, keySmall, rfl⟩ := keyOver.exists_indices
  obtain ⟨textIndices, textSmall, rfl⟩ := textOver.exists_indices
  have keySum : ((keyIndices.map chr).map Char.toNat).sum = (keyIndices.map ord).sum := by
    rw [List.map_map]
    congr 1
    apply List.map_congr_left
    intro i member
    exact chr_toNat (keySmall i member)
  rw [keySum, ← Scheme.initialSeed, List.length_map]
  constructor
  · intro agrees
    have fits : Scheme.initialSeed keyIndices roundNum ≤ 2147483647 := by
      by_contra tooLarge
      have result := agrees threeHash 0 (by decide)
      simp only [dScoreTreeEncode, seedInit_eq keySmall rounds, if_neg tooLarge] at result
    refine ⟨?_, fits⟩
    by_contra long
    rcases textIndices with _ | ⟨c, _ | ⟨d, rest⟩⟩
    · simp at long
    · simp at long
    · have result := agrees threeHash 2147483647 (Int.le_refl _)
      have notFull : dScoreTreeEncode threeHash ((c :: d :: rest).map chr)
          (keyIndices.map chr) roundNum 2147483647 ≠ .full := by
        simp only [dScoreTreeEncode, seedInit_eq keySmall rounds, if_pos fits]
        exact encodeLoop_ne_full _ _ _ textSmall
      split at result
      · exact result
      · rename_i full
        exact notFull full
      · rename_i bits written
        exact pair_differs keySmall textSmall rounds fits (by decide) written result
  · rintro ⟨short, fits⟩ sha maxOut _
    have host := Tlforce.scoreTreeEncode_eq sha keySmall (initialSeed_light fits) textSmall rounds
    rcases dScoreTreeEncode_short sha keySmall textSmall rounds short fits maxOut with full | written
    · rw [full]
      trivial
    · rw [written]
      exact host

theorem agrees_iff_a : Agrees ['a'] ['a'] 1 ↔
    ['a'].length ≤ 1 ∧ (['a'].map Char.toNat).sum + (82 + (47 + 1)) + 1 ≤ 2147483647 :=
  agrees_iff (by decide) (by decide) (Or.inl rfl)

theorem two_zeros_differ :
    ∃ bits, dScoreTreeEncode threeHash ['0', '0'] ['0'] 1 512 = .written bits ∧
      Tlforce.scoreTreeEncode threeHash ['0', '0'] ['0'] 1 ≠ some bits := by
  have keySmall : ∀ i ∈ [0], i < 36 := by decide
  have textSmall : ∀ e ∈ [0, 0], e < 36 := by decide
  have fits : Scheme.initialSeed [0] 1 ≤ 2147483647 := by decide
  obtain ⟨total, pair⟩ := @encodeLoop_pair 512 (by decide)
    ⟨0, UInt64.ofInt (Scheme.initialSeed [0] 1 : Nat)⟩ 0 0 (by decide) (by decide) []
  have written : ∃ bits, dScoreTreeEncode threeHash ([0, 0].map chr) ([0].map chr) 1 512 =
      .written bits := by
    rw [dScoreTreeEncode, seedInit_eq keySmall (Or.inl rfl), if_pos fits]
    exact ⟨_, pair⟩
  obtain ⟨bits, found⟩ := written
  exact ⟨bits, found, pair_differs keySmall textSmall (Or.inl rfl) fits (by decide) found⟩

end CudaOpenMp.Gpu
