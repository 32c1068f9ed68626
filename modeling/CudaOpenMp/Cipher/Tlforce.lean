import CudaOpenMp.Cipher.TlforcePool

/-! `tlforce.cpp` follows the cipher's description while its signed counters have room. -/

namespace CudaOpenMp.Tlforce

theorem charToIdx_chr : ∀ {c : Nat}, c < 36 → charToIdx (chr c) = c := by
  decide

theorem charWord_chr : ∀ {c : Nat}, c < 36 → (UInt64.ofInt (charToIdx (chr c))).toNat = c := by
  decide

theorem idxToChar_eq {i : Nat} (bound : i < 36) : idxToChar i = some (chr i) := charset_get bound

theorem keyToSeedMaster_toNat {key : List Nat} (small : ∀ i ∈ key, i < 36)
    (short : key.length ≤ 12) :
    (keyToSeedMaster (key.map chr)).toNat = Scheme.seedMaster key := by
  have folded (start : UInt64) (digits : List Nat) (bounded : ∀ i ∈ digits, i < 36) :
      ((digits.map chr).foldl (fun seed c => seed * 36 + UInt64.ofInt (charToIdx c)) start).toNat =
        digits.foldl (fun seed i => seed * 36 + i) start.toNat % 2 ^ 64 := by
    induction digits generalizing start with
    | nil => exact (Nat.mod_eq_of_lt start.toNat_lt).symm
    | cons i rest ih =>
        have digit := charWord_chr (bounded i (by simp))
        rw [List.map_cons, List.foldl_cons, List.foldl_cons,
          ih _ fun j member => bounded j (by simp [member])]
        apply Scheme.foldl_mod
        rw [UInt64.toNat_add, UInt64.toNat_mul, digit]
        change (start.toNat * 36 % 2 ^ 64 + i) % 2 ^ 64 % 2 ^ 64 = _
        omega
  have bound : Scheme.seedMaster key < 2 ^ 64 := calc
    Scheme.seedMaster key < 36 ^ key.length := Scheme.seedMaster_lt small
    _ ≤ 36 ^ 12 := Nat.pow_le_pow_right (by decide) short
    _ < 2 ^ 64 := by decide
  rw [keyToSeedMaster, folded 0 key small]
  exact Nat.mod_eq_of_lt bound

theorem lcgNext_toNat (state : UInt32) : (lcgNext state).toNat = Scheme.lcg state.toNat := by
  have bound := state.toNat_lt
  rw [lcgNext, UInt64.toNat_toUInt32, UInt64.toNat_add, UInt64.toNat_mul, UInt32.toNat_toUInt64]
  change (state.toNat * 1664525 % 2 ^ 64 + 1013904223) % 2 ^ 64 % 2 ^ 32 = _
  rw [Scheme.lcg]
  omega

theorem shuffleLoop_eq {count : Nat} (bound : count ≤ 36) (state : UInt32) (deck : List Nat) :
    shuffleLoop count state deck = Scheme.shuffleFrom count state.toNat deck := by
  induction count generalizing state deck with
  | zero => rfl
  | succ i ih =>
      have size : (UInt32.ofNat (i + 1)).toNat = i + 1 :=
        UInt32.toNat_ofNat_of_lt' (Nat.lt_of_le_of_lt bound (by decide))
      simp only [shuffleLoop, Scheme.shuffleFrom]
      rw [ih (by omega), UInt32.toNat_mod, size, lcgNext_toNat]

theorem low32_toNat (seed : UInt64) : (seed &&& 0xFFFFFFFF).toUInt32.toNat = seed.toNat % 2 ^ 32 := by
  rw [UInt64.toNat_toUInt32, UInt64.toNat_and]
  change (seed.toNat &&& 2 ^ 32 - 1) % 2 ^ 32 = _
  rw [Nat.and_two_pow_sub_one_eq_mod, Nat.mod_mod]

theorem fisherYatesShuffle_eq (seed : UInt64) :
    fisherYatesShuffle seed = Scheme.shuffle seed.toNat := by
  rw [fisherYatesShuffle, shuffleLoop_eq (Nat.le_refl 36), low32_toNat, Scheme.shuffle]

theorem shuffle_mod (seed : Nat) : Scheme.shuffle (seed % 2 ^ 32) = Scheme.shuffle seed := by
  rw [Scheme.shuffle, Nat.mod_mod, ← Scheme.shuffle]

theorem xor32_toNat (a b : UInt64) : (xor32 a b).toNat = (a.toNat ^^^ b.toNat) % 2 ^ 32 := by
  rw [xor32, low32_toNat, UInt64.toNat_xor]

theorem masked_toNat (factor : Nat) {roundNum : Nat} (factorBound : factor < 2 ^ 16)
    (roundBound : roundNum ≤ 2) :
    (UInt64.ofNat factor * UInt64.ofNat roundNum).toNat = factor * roundNum := by
  have product : factor * roundNum ≤ 2 ^ 16 * 2 := Nat.mul_le_mul (by omega) roundBound
  have factorWord : factor < UInt64.size := Nat.lt_trans factorBound (by decide)
  have roundWord : roundNum < UInt64.size := Nat.lt_of_le_of_lt roundBound (by decide)
  rw [UInt64.toNat_mul, UInt64.toNat_ofNat_of_lt' factorWord, UInt64.toNat_ofNat_of_lt' roundWord]
  exact Nat.mod_eq_of_lt (by omega)

theorem deck_eq (master : UInt64) (factor : Nat) {roundNum : Nat} (factorBound : factor < 2 ^ 16)
    (roundBound : roundNum ≤ 2) :
    fisherYatesShuffle (xor32 master (UInt64.ofNat factor * UInt64.ofNat roundNum)).toUInt64 =
      Scheme.shuffle (master.toNat ^^^ factor * roundNum) := by
  rw [fisherYatesShuffle_eq, UInt32.toNat_toUInt64, xor32_toNat,
    masked_toNat factor factorBound roundBound, shuffle_mod]

theorem tmod_natCast (value : Nat) : (value : Int).tmod 36 = ((value % 36 : Nat) : Int) := by
  rw [Int.tmod_eq_emod_of_nonneg (Int.natCast_nonneg value)]
  omega

theorem pokerLoop_eq {deckA deckB : List Nat} (permA : deckA.Perm (List.range 36))
    (permB : deckB.Perm (List.range 36)) {i prev : Nat} {text : List Nat}
    (small : ∀ c ∈ text, c < 36) (prevBound : prev < 36) (room : i + text.length ≤ 2147483612) :
    pokerLoop deckA deckB i prev (text.map chr) =
      some ((Scheme.substitute deckA deckB i prev text).map chr) := by
  induction text generalizing i prev with
  | nil => rfl
  | cons c rest ih =>
      rw [List.length_cons] at room
      have cBound := small c (by simp)
      have sum : int32 (i + 1 + prev) = some ((i + 1 + prev : Nat) : Int) :=
        int32_of_range (by omega) (by omega)
      have offset : (charToIdx (chr c) + ((i + 1 + prev : Nat) : Int).tmod 36).tmod 36 =
          (((c + (i + 1 + prev) % 36) % 36 : Nat) : Int) := by
        rw [charToIdx_chr cBound, tmod_natCast, ← Int.natCast_add, tmod_natCast]
      have indexBound : (c + (i + 1 + prev) % 36) % 36 < 36 := Nat.mod_lt _ (by decide)
      have deckPerm : (if i % 2 = 0 then deckA else deckB).Perm (List.range 36) := by
        split
        · exact permA
        · exact permB
      have outBound := Scheme.perm_getD_lt deckPerm indexBound
      have found := Scheme.perm_getElem? deckPerm indexBound
      have tail := @ih (i + 1) _ (fun d member => small d (by simp [member])) outBound (by omega)
      simp only [List.map_cons, pokerLoop, sum, Option.bind_eq_bind, Option.bind_some, offset,
        Int.toNat_natCast, found, idxToChar_eq outBound, tail, Option.pure_def,
        Scheme.substitute]
      rw [if_neg (by omega)]

theorem pokerSubstitute_eq (master : UInt64) {roundNum : Nat} (roundBound : roundNum ≤ 2)
    {text : List Nat} (small : ∀ c ∈ text, c < 36) (room : text.length ≤ 2147483612) :
    pokerSubstitute (text.map chr) master roundNum =
      some ((Scheme.substitute (Scheme.shuffle (master.toNat ^^^ 0x1111 * roundNum))
        (Scheme.shuffle (master.toNat ^^^ 0x2222 * roundNum)) 0 (master.toNat % 36) text).map chr) := by
  have size : (narrow (text.map chr).length).toNat = text.length := by
    rw [List.length_map, narrow_of_lt (by omega), Int.toNat_natCast]
  have start : (master % 36).toNat = master.toNat % 36 := UInt64.toNat_mod _ _
  have deckA := deck_eq master 0x1111 (by decide) roundBound
  have deckB := deck_eq master 0x2222 (by decide) roundBound
  have whole : (text.map chr).take text.length = text.map chr := List.take_of_length_le (by simp)
  simp only [pokerSubstitute, size, start, whole]
  rw [show (0x1111 : UInt64) = UInt64.ofNat 0x1111 from rfl,
    show (0x2222 : UInt64) = UInt64.ofNat 0x2222 from rfl, deckA, deckB,
    pokerLoop_eq (Scheme.shuffle_perm _) (Scheme.shuffle_perm _) small
      (Nat.mod_lt _ (by decide)) (by omega)]
  simp

theorem randomKeys_eq (count : Nat) (state : UInt32) :
    randomKeys count state = Scheme.sortKeys count state.toNat := by
  induction count generalizing state with
  | zero => rfl
  | succ count ih =>
      simp only [randomKeys, Scheme.sortKeys, ih, UInt32.toNat_mod, lcgNext_toNat]
      rfl

theorem permute_eq (master : UInt64) {pid : Nat} (pidBound : pid ≤ 2) {text : List Char}
    (room : text.length < 2147483648) :
    permute text master pid = some (Scheme.permute (master.toNat ^^^ 0x3333 * pid) text) := by
  have keys : randomKeys text.length (xor32 master (UInt64.ofNat pid * 0x3333)) =
      Scheme.sortKeys text.length ((master.toNat ^^^ 0x3333 * pid) % 2 ^ 32) := by
    have mask := masked_toNat 0x3333 (by decide) pidBound
    rw [randomKeys_eq, xor32_toNat, UInt64.mul_comm,
      show (0x3333 : UInt64) = UInt64.ofNat 0x3333 from rfl, mask]
  have sorted : (List.range text.length).mergeSort (fun a b =>
      !decide ((randomKeys text.length (xor32 master (UInt64.ofNat pid * 0x3333))).getD b 0 <
        (randomKeys text.length (xor32 master (UInt64.ofNat pid * 0x3333))).getD a 0)) =
      Scheme.order (Scheme.sortKeys text.length ((master.toNat ^^^ 0x3333 * pid) % 2 ^ 32)) := by
    rw [keys, Scheme.order, Scheme.sortKeys_length]
    congr 1
    funext a b
    rw [← decide_not]
    exact decide_eq_decide.mpr Nat.not_lt
  have inside : ∀ i ∈ Scheme.order (Scheme.sortKeys text.length
      ((master.toNat ^^^ 0x3333 * pid) % 2 ^ 32)), i < text.length := by
    intro i member
    simpa using (Scheme.keyed_order_perm text.length _).subset member
  simp only [permute, narrow_of_lt room, Int.toNat_natCast]
  rw [if_neg (by omega), sorted, Scheme.mapM_getElem? text inside, Scheme.permute]

theorem encodeLoop_eq (sha : Sha256) (seed : Uint256) {text : List Nat}
    (small : ∀ c ∈ text, c < 36) :
    encodeLoop sha seed (text.map chr) =
      some ((Scheme.encode (Scheme.update sha) seed.value text).map chr) := by
  induction text generalizing seed with
  | nil => rfl
  | cons c rest ih =>
      have cBound := small c (by simp)
      obtain ⟨root, atRoot, code⟩ := genCodeFor_build seed cBound
      obtain ⟨next, updated, value⟩ := updateSeed_value sha seed cBound
      have tail := ih next fun d member => small d (by simp [member])
      simp only [List.map_cons, encodeLoop, atRoot, Option.bind_eq_bind, Option.bind_some, updated,
        tail, charToIdx_chr cBound, code, value, Scheme.encode, List.map_append, Option.pure_def]

theorem ord_sum_lt {key : List Nat} (small : ∀ i ∈ key, i < 36) (short : key.length ≤ 12) :
    (key.map ord).sum < 2 ^ 32 := by
  have each (digits : List Nat) (bounded : ∀ i ∈ digits, i < 36) :
      (digits.map ord).sum ≤ 127 * digits.length := by
    induction digits with
    | nil => simp
    | cons i rest ih =>
        have head := ord_lt (bounded i (by simp))
        have tail := ih fun j member => bounded j (by simp [member])
        simp only [List.map_cons, List.sum_cons, List.length_cons]
        omega
  have total := each key small
  omega

theorem seedInit_toNat {key : List Nat} {roundNum : Nat} (small : ∀ i ∈ key, i < 36)
    (light : (key.map ord).sum < 2 ^ 32) (rounds : roundNum = 1 ∨ roundNum = 2) :
    (seedInit (key.map chr) roundNum).toNat = Scheme.initialSeed key roundNum := by
  have folded (start : UInt64) (digits : List Nat) (bounded : ∀ i ∈ digits, i < 36) :
      ((digits.map chr).foldl (fun seed c => seed + unsignedChar c) start).toNat =
        (start.toNat + (digits.map ord).sum) % 2 ^ 64 := by
    induction digits generalizing start with
    | nil => exact (Nat.mod_eq_of_lt start.toNat_lt).symm
    | cons i rest ih =>
        rw [List.map_cons, List.foldl_cons, ih _ fun j member => bounded j (by simp [member]),
          UInt64.toNat_add, unsignedChar_chr (bounded i (by simp)), List.map_cons, List.sum_cons]
        omega
  have keySum := folded 1 key small
  have suffix (seed : UInt64) (bound : seed.toNat < 2 ^ 33) :
      (('R' :: (toString ((roundNum : Int) - 1)).toList).foldl
        (fun seed c => seed + unsignedChar c) seed).toNat = seed.toNat + 82 + (47 + roundNum) := by
    rcases rounds with rfl | rfl
    · change (seed + 82 + 48).toNat = _
      rw [UInt64.toNat_add, UInt64.toNat_add]
      change ((seed.toNat + 82) % 2 ^ 64 + 48) % 2 ^ 64 = _
      omega
    · change (seed + 82 + 49).toNat = _
      rw [UInt64.toNat_add, UInt64.toNat_add]
      change ((seed.toNat + 82) % 2 ^ 64 + 49) % 2 ^ 64 = _
      omega
  have one : (1 : UInt64).toNat = 1 := rfl
  rw [one, Nat.mod_eq_of_lt (by omega)] at keySum
  rw [seedInit, suffix _ (by omega), keySum, Scheme.initialSeed]
  omega

theorem scoreTreeEncode_eq (sha : Sha256) {key text : List Nat} {roundNum : Nat}
    (keySmall : ∀ i ∈ key, i < 36) (light : (key.map ord).sum < 2 ^ 32)
    (textSmall : ∀ c ∈ text, c < 36) (rounds : roundNum = 1 ∨ roundNum = 2) :
    scoreTreeEncode sha (text.map chr) (key.map chr) roundNum =
      some ((Scheme.encode (Scheme.update sha) (Scheme.initialSeed key roundNum) text).map chr) := by
  have seed : (Uint256.mk 0 0 0 (seedInit (key.map chr) roundNum)).value =
      Scheme.initialSeed key roundNum := by
    rw [← seedInit_toNat keySmall light rounds]
    simp [Uint256.value]
  rw [scoreTreeEncode, encodeLoop_eq sha _ textSmall, seed]

theorem round_eq (sha : Sha256) {key text : List Nat} {roundNum : Nat}
    (keySmall : ∀ i ∈ key, i < 36) (short : key.length ≤ 12) (textSmall : ∀ c ∈ text, c < 36)
    (rounds : roundNum = 1 ∨ roundNum = 2) (room : text.length ≤ 2147483612) :
    round sha (text.map chr) (key.map chr) roundNum =
      some ((Scheme.round sha key roundNum text).map chr) := by
  have roundBound : roundNum ≤ 2 := by omega
  have master := keyToSeedMaster_toNat keySmall short
  have substituted := pokerSubstitute_eq (keyToSeedMaster (key.map chr)) roundBound textSmall room
  simp only [round, substituted, Option.bind_eq_bind, Option.bind_some]
  rw [permute_eq _ roundBound (by simp; omega), Option.bind_some, Scheme.permute_map,
    scoreTreeEncode_eq sha keySmall (ord_sum_lt keySmall short) (Scheme.round_text_lt _ _ _ _ _)
      rounds, master, Scheme.round]

theorem encrypt_eq (sha : Sha256) {key text : List Nat} (keySmall : ∀ i ∈ key, i < 36)
    (short : key.length ≤ 12) (textSmall : ∀ c ∈ text, c < 36)
    (room : text.length ≤ 2147483612)
    (bitsRoom : (Scheme.round sha key 1 text).length ≤ 2147483612) :
    encrypt sha (text.map chr) (key.map chr) = some ((Scheme.encrypt sha key text).map chr) := by
  rw [encrypt, round_eq sha keySmall short textSmall (Or.inl rfl) room, Option.bind_eq_bind,
    Option.bind_some, round_eq sha keySmall short (Scheme.round_bits _ _ _ _) (Or.inr rfl) bitsRoom,
    Scheme.encrypt]

end CudaOpenMp.Tlforce
