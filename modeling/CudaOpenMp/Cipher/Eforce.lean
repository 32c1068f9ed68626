import CudaOpenMp.Cipher.EforceCore
import CudaOpenMp.Cipher.Tlforce

/-!
The second round of `eforce.cpp` sorts the bits of the first one in buffers made for four
characters. Four characters always encode to more bits than that.
-/

namespace CudaOpenMp.Eforce

/-! The first round works as in `tlforce.cpp`. -/

theorem pokerSub_eq (sm : UInt64) {rnd : Nat} (rounds : rnd ≤ 2) {text : List Nat}
    (small : ∀ c ∈ text, c < 36) (room : text.length ≤ 2147483612) {outSize : Nat}
    (fits : text.length ≤ outSize) :
    pokerSub (text.map chr) sm rnd outSize =
      .ok ((Scheme.substitute (Scheme.shuffle (sm.toNat ^^^ 0x1111 * rnd))
        (Scheme.shuffle (sm.toNat ^^^ 0x2222 * rnd)) 0 (sm.toNat % 36) text).map chr) := by
  have start : (sm % 36).toNat = sm.toNat % 36 := UInt64.toNat_mod _ _
  have deckA : fisherYatesShuffle (xor32 sm (0x1111 * UInt64.ofNat rnd)).toUInt64 =
      Scheme.shuffle (sm.toNat ^^^ 0x1111 * rnd) :=
    Tlforce.deck_eq sm 0x1111 (by decide) rounds
  have deckB : fisherYatesShuffle (xor32 sm (0x2222 * UInt64.ofNat rnd)).toUInt64 =
      Scheme.shuffle (sm.toNat ^^^ 0x2222 * rnd) :=
    Tlforce.deck_eq sm 0x2222 (by decide) rounds
  simp only [pokerSub, start, deckA, deckB, List.length_map]
  rw [if_neg (by omega), Tlforce.pokerLoop_eq (Scheme.shuffle_perm _) (Scheme.shuffle_perm _) small
    (Nat.mod_lt _ (by decide)) (by omega), defined]

theorem fillRandoms_ok (left i : Nat) (state : UInt32) (fits : i + left ≤ ptLen) :
    fillRandoms left i state = .ok (Scheme.sortKeys left state.toNat) := by
  induction left generalizing i state with
  | zero => rfl
  | succ left ih =>
      have next : (lcgNext state).toNat = Scheme.lcg state.toNat := Tlforce.lcgNext_toNat state
      have key : (lcgNext state % 10000).toNat = Scheme.lcg state.toNat % 10000 := by
        rw [UInt32.toNat_mod, next]
        rfl
      rw [fillRandoms, if_neg (by omega)]
      simp only [ih (i + 1) (lcgNext state) (by omega), next, key, Scheme.sortKeys]
      rfl

theorem fillRandoms_outOfBounds (left i : Nat) (state : UInt32) (start : i ≤ ptLen)
    (beyond : ptLen < i + left) : fillRandoms left i state = .error (.outOfBounds .randoms ptLen) := by
  induction left generalizing i state with
  | zero => omega
  | succ left ih =>
      rw [fillRandoms]
      by_cases full : ptLen ≤ i
      · have last : i = ptLen := by omega
        rw [if_pos full, last]
      · simp only [if_neg full, ih (i + 1) (lcgNext state) (by omega) (by omega)]
        rfl

theorem doPermute_outOfBounds {text : List Char} (sm : UInt64) (pid outSize : Nat)
    (long : ptLen < text.length) :
    doPermute text sm pid outSize = .error (.outOfBounds .randoms ptLen) := by
  rw [doPermute, fillRandoms_outOfBounds text.length 0 _ (Nat.zero_le _) (by omega)]
  rfl

theorem doPermute_ok (sm : UInt64) {pid : Nat} (rounds : pid ≤ 2) {text : List Char}
    (short : text.length ≤ ptLen) {outSize : Nat} (fits : text.length ≤ outSize) :
    doPermute text sm pid outSize = .ok (Scheme.permute (sm.toNat ^^^ 0x3333 * pid) text) := by
  have small : text.length < 2147483648 := Nat.lt_of_le_of_lt short (by decide)
  have whole := Tlforce.permute_eq sm rounds small
  simp only [Tlforce.permute, narrow_of_lt small, Int.toNat_natCast, Tlforce.randomKeys_eq] at whole
  rw [if_neg (by omega)] at whole
  rw [doPermute, fillRandoms_ok text.length 0 _ (by omega)]
  change (if ptLen < text.length then _ else if outSize < text.length then _ else _) = _
  rw [if_neg (by omega), if_neg (by omega)]
  change defined (List.mapM _ _) = _
  rw [show xor32 = Tlforce.xor32 from rfl, whole, defined]

theorem getCode_eq (seed : U256) {c : Nat} (bound : c < 36) :
    getCode (build (computeScores seed)) c = some ((Scheme.code seed.value c).map chr) := by
  obtain ⟨root, only, inside, sound, shape⟩ := Tlforce.HuffPool.build_spec seed
  have height := Scheme.codeTree_height seed.value
  obtain ⟨bits, found⟩ := Scheme.exists_code seed.value bound
  have long := (Scheme.code_length_bounds seed.value bound).1
  have heap : (build (computeScores seed)).heap = [root] := only
  rw [getCode, heap]
  change Tlforce.dfs (Tlforce.HuffPool.build (Tlforce.computeScores seed)).nodes c 37 [] root = _
  rw [Tlforce.dfs_spec sound c 37 [] inside (by rw [shape]; omega), shape]
  simp only [Scheme.code, found, Option.getD_some, List.length_map] at long
  cases bits with
  | nil => simp at long
  | cons b rest => simp [Scheme.code, found]

theorem encodeLoop_eq (sha : Sha256) (seed : U256) {text : List Nat}
    (small : ∀ c ∈ text, c < 36) :
    encodeLoop sha seed (text.map chr) =
      some ((Scheme.encode (Scheme.update sha) seed.value text).map chr) := by
  induction text generalizing seed with
  | nil => rfl
  | cons c rest ih =>
      have cBound := small c (by simp)
      obtain ⟨next, updated, value⟩ := Tlforce.updateSeed_value sha seed cBound
      have tail := ih next fun d member => small d (by simp [member])
      simp only [List.map_cons, encodeLoop, Tlforce.charToIdx_chr cBound, getCode_eq seed cBound,
        updateSeed, updated, tail, value, Scheme.encode, List.map_append, Option.bind_eq_bind,
        Option.bind_some, Option.pure_def]

theorem scoreEncode_eq (sha : Sha256) {text : List Nat} (small : ∀ c ∈ text, c < 36)
    (key : List Char) (rnd : Nat) :
    ∃ bits : List Nat, scoreEncode sha (text.map chr) key rnd = .ok (bits.map chr) ∧
      (∀ b ∈ bits, b < 36) ∧ 2 * text.length ≤ bits.length ∧ bits.length ≤ 22 * text.length := by
  have bounds := Scheme.encode_length_bounds (Scheme.update sha)
    (Tlforce.Uint256.mk 0 0 0 (Tlforce.seedInit key rnd)).value small
  refine ⟨_, ?_, ?_, bounds.1, bounds.2⟩
  · rw [scoreEncode, encodeLoop_eq sha _ small, defined]
  · intro b member
    exact Nat.lt_of_lt_of_le (Scheme.encode_bits _ _ _ b member) (by decide)

theorem firstRound_ok (sha : Sha256) {pt : List Nat} (small : ∀ c ∈ pt, c < 36)
    (size : pt.length = 4) (key : List Char) (sm : UInt64) :
    ∃ t1 t2 : List Char, ∃ bits : List Nat, pokerSub (pt.map chr) sm 1 ptLen = .ok t1 ∧
      doPermute t1 sm 1 ptLen = .ok t2 ∧ scoreEncode sha t2 key 1 = .ok (bits.map chr) ∧
      (∀ b ∈ bits, b < 36) ∧ 8 ≤ bits.length ∧ bits.length ≤ 88 := by
  have substituted := pokerSub_eq sm (show 1 ≤ 2 by decide) small (by omega)
    (show pt.length ≤ ptLen by rw [size]; decide)
  have t1Small := Scheme.substitute_lt (Scheme.shuffle_perm (sm.toNat ^^^ 0x1111 * 1))
    (Scheme.shuffle_perm (sm.toNat ^^^ 0x2222 * 1)) 0 (sm.toNat % 36) pt
  generalize t1Eq : Scheme.substitute (Scheme.shuffle (sm.toNat ^^^ 0x1111 * 1))
    (Scheme.shuffle (sm.toNat ^^^ 0x2222 * 1)) 0 (sm.toNat % 36) pt = t1 at substituted t1Small
  have t1Length : t1.length = 4 := by rw [← t1Eq, Scheme.substitute_length, size]
  have t1Size : (t1.map chr).length = ptLen := by rw [List.length_map, t1Length, ptLen]
  have permuted := doPermute_ok sm (show 1 ≤ 2 by decide) (Nat.le_of_eq t1Size)
    (Nat.le_of_eq t1Size)
  have perm := Scheme.permute_perm (sm.toNat ^^^ 0x3333 * 1) t1
  rw [Scheme.permute_map] at permuted
  obtain ⟨bits, encoded, bitsSmall, long, short⟩ := scoreEncode_eq sha
    (fun c member => t1Small c (perm.subset member)) key 1
  rw [perm.length_eq, t1Length] at long short
  exact ⟨_, _, bits, substituted, permuted, encoded, bitsSmall, long, short⟩

theorem encrypt_fault (sha : Sha256) {pt : List Char} (inCharset : OverCharset pt)
    (size : pt.length = 4) (key : List Char) :
    encrypt sha pt key (keyToSeedMaster key) = .error (.outOfBounds .randoms 4) := by
  obtain ⟨text, textSmall, rfl⟩ := inCharset.exists_indices
  rw [List.length_map] at size
  obtain ⟨t1, t2, bits, poker1, permute1, encode1, bitsSmall, long, short⟩ :=
    firstRound_ok sha textSmall size key (keyToSeedMaster key)
  have poker2 := pokerSub_eq (keyToSeedMaster key) (Nat.le_refl 2) bitsSmall (by omega)
    (show bits.length ≤ (bits.map chr).length by rw [List.length_map])
  have permute2 := fun t3 : List Char => @doPermute_outOfBounds t3 (keyToSeedMaster key) 2
    (bits.map chr).length
  simp only [encrypt, poker1, permute1, encode1, poker2, bind, Except.bind]
  rw [permute2 _ (by simp [ptLen]; omega)]
  rfl

/-- The encryption of four characters never gets past the second rearrangement. -/
theorem encrypt_outOfBounds (sha : Sha256) {pt key : List Char} (ptOver : OverCharset pt)
    (ptSize : pt.length = 4) (_keyOver : OverCharset key) (_keySize : key.length = 4) :
    encrypt sha pt key (keyToSeedMaster key) = .error (.outOfBounds .randoms 4) ∧
      ¬∃ bits, encrypt sha pt key (keyToSeedMaster key) = .ok bits ∧
        Tlforce.encrypt sha pt key = some bits := by
  have fault := encrypt_fault sha ptOver ptSize key
  constructor
  · exact fault
  · rintro ⟨bits, finished, _⟩
    rw [fault] at finished
    cases finished

theorem encrypt_outOfBounds_book :
    encrypt zeroHash ['b', 'o', 'o', 'k'] ['4', 'z', '1', 'j']
      (keyToSeedMaster ['4', 'z', '1', 'j']) = .error (.outOfBounds .randoms 4) ∧
      ¬∃ bits, encrypt zeroHash ['b', 'o', 'o', 'k'] ['4', 'z', '1', 'j']
        (keyToSeedMaster ['4', 'z', '1', 'j']) = .ok bits ∧
        Tlforce.encrypt zeroHash ['b', 'o', 'o', 'k'] ['4', 'z', '1', 'j'] = some bits :=
  encrypt_outOfBounds zeroHash (by decide) rfl (by decide) rfl

theorem encrypt_wlaq_fault :
    OverCharset ['w', 'l', 'a', 'q'] ∧ OverCharset ['0', '0', '0', '0'] ∧
      encrypt zeroHash ['w', 'l', 'a', 'q'] ['0', '0', '0', '0']
        (keyToSeedMaster ['0', '0', '0', '0']) = .error (.outOfBounds .randoms 4) :=
  ⟨by decide, by decide, encrypt_fault zeroHash (by decide) rfl _⟩

end CudaOpenMp.Eforce
