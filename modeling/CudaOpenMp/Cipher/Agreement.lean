import CudaOpenMp.Cipher.Encode
import CudaOpenMp.Cipher.GpuSteps
import CudaOpenMp.Cipher.Tlforce
import CudaOpenMp.Cipher.Treeforce

/-!
The programs against each other. The heap and the two queues give every character the same
code word. The C++ cipher computes what the script it was ported from computes, and is
injective, as long as it can count the characters of a text in a signed 32-bit integer. The device
substitutes and permutes as the C++ cipher does.
-/

namespace CudaOpenMp.Tlforce

theorem encodeCharFast_eq_genCodeFor {seed : Treeforce.Seed256} {wide : Uint256}
    (same : seed.value = wide.value) {c : Char} (member : c ∈ charset) :
    ∃ root, (HuffPool.build (computeScores wide)).heap[0]? = some root ∧
      Treeforce.encodeCharFast seed c =
        some (genCodeFor (HuffPool.build (computeScores wide)) root (charToIdx c)) ∧
      Old.encodeCharFast seed c =
        some (genCodeFor (HuffPool.build (computeScores wide)) root (charToIdx c)) := by
  obtain ⟨i, bound, rfl⟩ := exists_chr member
  obtain ⟨root, first, heapCode⟩ := genCodeFor_build wide bound
  have queueCode : Treeforce.encodeCharFast seed (chr i) =
      some (genCodeFor (HuffPool.build (computeScores wide)) root (charToIdx (chr i))) := by
    rw [Treeforce.encodeCharFast_eq seed bound, charToIdx_chr bound, heapCode, same]
  exact ⟨root, first, queueCode, queueCode⟩

def smallSeed : Treeforce.Seed256 := ⟨#v[0, 0, 0, 0, 0, 0, 0, 300]⟩

theorem encodeCharFast_eq_genCodeFor_z :
    ∃ root, (HuffPool.build (computeScores ⟨0, 0, 0, 300⟩)).heap[0]? = some root ∧
      Treeforce.encodeCharFast smallSeed 'z' =
        some (genCodeFor (HuffPool.build (computeScores ⟨0, 0, 0, 300⟩)) root (charToIdx 'z')) ∧
      Old.encodeCharFast smallSeed 'z' =
        some (genCodeFor (HuffPool.build (computeScores ⟨0, 0, 0, 300⟩)) root (charToIdx 'z')) :=
  encodeCharFast_eq_genCodeFor (by decide) (by decide)

/-- A key of at most twelve characters, and a text that `int` counters can walk in both rounds. -/
structure InRange (sha : Sha256) (key plaintext : List Char) : Prop where
  keyOver : OverCharset key
  keyShort : key.length ≤ 12
  textOver : OverCharset plaintext
  textRoom : plaintext.length ≤ 2147483612
  bitsRoom : ∀ bits, round sha plaintext key 1 = some bits → bits.length ≤ 2147483612

theorem InRange.exists_indices {sha : Sha256} {key plaintext : List Char}
    (range : InRange sha key plaintext) :
    ∃ keyIndices textIndices : List Nat, key = keyIndices.map chr ∧
      plaintext = textIndices.map chr ∧ (∀ i ∈ keyIndices, i < 36) ∧
      (∀ i ∈ textIndices, i < 36) ∧ encrypt sha plaintext key =
        some ((Scheme.encrypt sha keyIndices textIndices).map chr) := by
  obtain ⟨keyIndices, keySmall, rfl⟩ := range.keyOver.exists_indices
  obtain ⟨textIndices, textSmall, rfl⟩ := range.textOver.exists_indices
  have short := range.keyShort
  have room := range.textRoom
  rw [List.length_map] at short room
  have bits := range.bitsRoom _ (round_eq sha keySmall short textSmall (Or.inl rfl) room)
  rw [List.length_map] at bits
  exact ⟨keyIndices, textIndices, rfl, rfl, keySmall, textSmall,
    encrypt_eq sha keySmall short textSmall room bits⟩

theorem InRange.of_short {sha : Sha256} {key plaintext : List Char} (keyOver : OverCharset key)
    (keyShort : key.length ≤ 12) (textOver : OverCharset plaintext)
    (short : plaintext.length ≤ 97612891) : InRange sha key plaintext := by
  refine ⟨keyOver, keyShort, textOver, by omega, ?_⟩
  intro bits encoded
  obtain ⟨keyIndices, keySmall, rfl⟩ := keyOver.exists_indices
  obtain ⟨textIndices, textSmall, rfl⟩ := textOver.exists_indices
  rw [List.length_map] at keyShort short
  rw [round_eq sha keySmall keyShort textSmall (Or.inl rfl) (by omega), Option.some.injEq] at encoded
  have bound := (Scheme.round_length_bounds sha keyIndices 1 textIndices).2
  rw [← encoded, List.length_map]
  omega

theorem encrypt_eq_mainFlow {sha : Sha256} {key plaintext : List Char}
    (range : InRange sha key plaintext) :
    ∃ bits, encrypt sha plaintext key = some bits ∧
      Encode.mainFlow sha key plaintext = some bits ∧
      (key ≠ [] → plaintext ≠ [] → Encode.main sha key plaintext = some bits) := by
  have keyOver := range.keyOver
  have textOver := range.textOver
  obtain ⟨keyIndices, textIndices, keySpelled, textSpelled, keySmall, textSmall, encrypted⟩ :=
    range.exists_indices
  have flow : Encode.mainFlow sha key plaintext =
      some ((Scheme.encrypt sha keyIndices textIndices).map chr) := by
    rw [keySpelled, textSpelled, Encode.mainFlow_eq sha keySmall textSmall]
  refine ⟨_, encrypted, flow, ?_⟩
  intro keyTyped textTyped
  rw [Encode.main, Encode.prompt_overCharset keyOver, Encode.prompt_overCharset textOver,
    if_neg keyTyped, if_neg textTyped, flow]

theorem book_inRange : InRange zeroHash ['w', 'l', 'a', 'q'] ['b', 'o', 'o', 'k'] :=
  InRange.of_short (by decide) (by decide) (by decide) (by decide)

theorem encrypt_eq_mainFlow_book :
    ∃ bits, encrypt zeroHash ['b', 'o', 'o', 'k'] ['w', 'l', 'a', 'q'] = some bits ∧
      Encode.mainFlow zeroHash ['w', 'l', 'a', 'q'] ['b', 'o', 'o', 'k'] = some bits ∧
      Encode.main zeroHash ['w', 'l', 'a', 'q'] ['b', 'o', 'o', 'k'] = some bits := by
  obtain ⟨bits, encrypted, flow, typed⟩ := encrypt_eq_mainFlow book_inRange
  exact ⟨bits, encrypted, flow, typed (by decide) (by decide)⟩

theorem encrypt_injective {sha : Sha256} {key first second : List Char}
    (firstRange : InRange sha key first) (secondRange : InRange sha key second)
    (different : first ≠ second) : encrypt sha first key ≠ encrypt sha second key := by
  intro same
  obtain ⟨keyIndices, firstIndices, keySpelled, rfl, keySmall, firstSmall, firstBits⟩ :=
    firstRange.exists_indices
  obtain ⟨otherIndices, secondIndices, keyAgain, rfl, otherSmall, secondSmall, secondBits⟩ :=
    secondRange.exists_indices
  have keys := map_chr_inj keySmall otherSmall (keySpelled.symm.trans keyAgain)
  rw [firstBits, secondBits, Option.some.injEq, ← keys] at same
  -- Both bit strings are spelled with the digits 0 and 1.
  have bits := map_chr_inj (Scheme.round_bits _ _ _ _) (Scheme.round_bits _ _ _ _) same
  exact different (by rw [Scheme.encrypt_inj firstSmall secondSmall bits])

theorem encrypt_injective_book :
    encrypt zeroHash ['b', 'o', 'o', 'k'] ['w', 'l', 'a', 'q'] ≠
      encrypt zeroHash ['c', 'o', 'o', 'k', '0'] ['w', 'l', 'a', 'q'] :=
  encrypt_injective book_inRange
    (InRange.of_short (by decide) (by decide) (by decide) (by decide)) (by decide)

/-! The steps of the device, with seeds of 32 bits and a sort by shifting. -/

theorem device_steps_eq {key text : List Char} (keyOver : OverCharset key)
    (keyShort : key.length ≤ 4) (textOver : OverCharset text) {roundNum size : Nat}
    (roundBound : roundNum ≤ 2) (small : text.length ≤ size) (fits : text.length ≤ 512) :
    ∃ substituted permuted,
      GpuMatches.dPokerSubstitute text text.length (GpuMatches.dKeyToSeed key) roundNum =
        some substituted ∧
      GpuMatches.permuteWith size substituted text.length (GpuMatches.dKeyToSeed key) roundNum =
        some permuted ∧
      pokerSubstitute text (keyToSeedMaster key) roundNum = some substituted ∧
      permute substituted (keyToSeedMaster key) roundNum = some permuted := by
  obtain ⟨keyIndices, keySmall, rfl⟩ := keyOver.exists_indices
  obtain ⟨textIndices, textSmall, rfl⟩ := textOver.exists_indices
  rw [List.length_map] at keyShort small fits ⊢
  have deviceSeed := GpuMatches.dKeyToSeed_toNat keySmall keyShort
  have hostSeed := keyToSeedMaster_toNat keySmall (show keyIndices.length ≤ 12 by omega)
  have device := GpuMatches.dPokerSubstitute_eq textSmall fits
    (GpuMatches.dKeyToSeed (keyIndices.map chr)) roundBound
  have host := pokerSubstitute_eq (keyToSeedMaster (keyIndices.map chr)) roundBound textSmall
    (by omega)
  rw [deviceSeed] at device
  rw [hostSeed] at host
  have length := Scheme.substitute_length
    (Scheme.shuffle (Scheme.seedMaster keyIndices ^^^ 0x1111 * roundNum))
    (Scheme.shuffle (Scheme.seedMaster keyIndices ^^^ 0x2222 * roundNum)) 0
    (Scheme.seedMaster keyIndices % 36) textIndices
  generalize Scheme.substitute _ _ _ _ _ = substituted at device host length
  rw [← length] at small fits
  have devicePermuted := @GpuMatches.permuteWith_eq (substituted.map chr) size (by simpa using small)
    (by simpa using fits) (GpuMatches.dKeyToSeed (keyIndices.map chr)) roundNum roundBound
  have hostPermuted := @permute_eq (keyToSeedMaster (keyIndices.map chr)) roundNum roundBound
    (substituted.map chr) (by simp; omega)
  rw [List.length_map, length, deviceSeed] at devicePermuted
  rw [hostSeed] at hostPermuted
  exact ⟨_, _, device, devicePermuted, host, hostPermuted⟩

theorem device_rounds_eq {key text : List Char} (keyOver : OverCharset key)
    (keyShort : key.length ≤ 4) (textOver : OverCharset text) :
    (text.length ≤ 512 → ∃ substituted permuted,
      GpuMatches.dPokerSubstitute text text.length (GpuMatches.dKeyToSeed key) 2 =
        some substituted ∧
      GpuMatches.permuteBits substituted text.length (GpuMatches.dKeyToSeed key) = some permuted ∧
      pokerSubstitute text (keyToSeedMaster key) 2 = some substituted ∧
      permute substituted (keyToSeedMaster key) 2 = some permuted) ∧
    (text.length ≤ 4 → ∃ substituted permuted,
      GpuMatches.dPokerSubstitute text text.length (GpuMatches.dKeyToSeed key) 1 =
        some substituted ∧
      GpuMatches.dPermute substituted text.length (GpuMatches.dKeyToSeed key) 1 = some permuted ∧
      pokerSubstitute text (keyToSeedMaster key) 1 = some substituted ∧
      permute substituted (keyToSeedMaster key) 1 = some permuted) := by
  constructor
  · intro fits
    exact device_steps_eq keyOver keyShort textOver (Nat.le_refl 2) fits fits
  · intro fits
    exact device_steps_eq keyOver keyShort textOver (by decide) fits (by omega)

theorem device_rounds_eq_book :
    (∃ substituted permuted,
      GpuMatches.dPokerSubstitute (List.replicate 500 '1') 500
        (GpuMatches.dKeyToSeed ['w', 'l', 'a', 'q']) 2 = some substituted ∧
      GpuMatches.permuteBits substituted 500 (GpuMatches.dKeyToSeed ['w', 'l', 'a', 'q']) =
        some permuted ∧
      pokerSubstitute (List.replicate 500 '1') (keyToSeedMaster ['w', 'l', 'a', 'q']) 2 =
        some substituted ∧
      permute substituted (keyToSeedMaster ['w', 'l', 'a', 'q']) 2 = some permuted) ∧
    ∃ substituted permuted,
      GpuMatches.dPokerSubstitute ['b', 'o', 'o', 'k'] 4
        (GpuMatches.dKeyToSeed ['w', 'l', 'a', 'q']) 1 = some substituted ∧
      GpuMatches.dPermute substituted 4 (GpuMatches.dKeyToSeed ['w', 'l', 'a', 'q']) 1 =
        some permuted ∧
      pokerSubstitute ['b', 'o', 'o', 'k'] (keyToSeedMaster ['w', 'l', 'a', 'q']) 1 =
        some substituted ∧
      permute substituted (keyToSeedMaster ['w', 'l', 'a', 'q']) 1 = some permuted := by
  have ones : OverCharset (List.replicate 500 '1') := by
    intro c member
    rw [List.eq_of_mem_replicate member]
    decide
  have count : (List.replicate 500 '1').length = 500 := List.length_replicate
  have long := (@device_rounds_eq ['w', 'l', 'a', 'q'] _ (by decide) (by decide) ones).1
    (by rw [count]; decide)
  rw [count] at long
  constructor
  · exact long
  · exact (device_rounds_eq (by decide) (by decide) (by decide)).2 (by decide)

/-! A text whose size narrows to zero is read as the empty text. -/

theorem round_of_narrow_zero (sha : Sha256) {text : List Char} (key : List Char) (roundNum : Nat)
    (lost : narrow text.length = 0) : round sha text key roundNum = some [] := by
  have size : ([] ++ List.replicate (text.length - 0) ' ').length = text.length := by simp
  simp only [round, pokerSubstitute, List.take_zero, pokerLoop, Option.bind_eq_bind,
    Option.bind_some, Option.pure_def, permute, size, lost, Int.lt_irrefl, if_false,
    Int.toNat_zero, List.range_zero, List.mergeSort_nil, List.mapM_nil, scoreTreeEncode, encodeLoop]

theorem encrypt_of_narrow_zero (sha : Sha256) {text : List Char} (key : List Char)
    (lost : narrow text.length = 0) : encrypt sha text key = some [] := by
  rw [encrypt, round_of_narrow_zero sha key 1 lost, Option.bind_eq_bind, Option.bind_some,
    round_of_narrow_zero sha key 2 rfl]

theorem mainFlow_ne_nil (sha : Sha256) {key text : List Char} (keyOver : OverCharset key)
    (textOver : OverCharset text) (inhabited : text ≠ []) :
    Encode.mainFlow sha key text ≠ some [] := by
  obtain ⟨keyIndices, keySmall, rfl⟩ := keyOver.exists_indices
  obtain ⟨textIndices, textSmall, rfl⟩ := textOver.exists_indices
  rw [Encode.mainFlow_eq sha keySmall textSmall]
  intro empty
  rw [Option.some.injEq, List.map_eq_nil_iff] at empty
  have first := (Scheme.round_length_bounds sha keyIndices 1 textIndices).1
  have second := (Scheme.round_length_bounds sha keyIndices 2
    (Scheme.round sha keyIndices 1 textIndices)).1
  rw [Scheme.encrypt] at empty
  rw [empty, List.length_nil] at second
  have none : textIndices = [] := List.length_eq_zero_iff.mp (by omega)
  exact inhabited (by rw [none]; rfl)

def longText : List Char := List.replicate (2 ^ 32) '0'

theorem longText_over : OverCharset longText := by
  intro c member
  rw [List.eq_of_mem_replicate member]
  decide

theorem longText_lost : narrow longText.length = 0 := by
  rw [longText, List.length_replicate]
  decide

theorem longText_ne_nil : longText ≠ [] := by
  intro empty
  have size := congrArg List.length empty
  rw [longText, List.length_replicate, List.length_nil] at size
  simp at size

/-- Four gigabytes of zeros are lost, and an empty prompt makes the script use its default. -/
theorem encrypt_ne_mainFlow :
    Tlforce.encrypt zeroHash longText [] ≠ Encode.mainFlow zeroHash [] longText ∧
      Tlforce.encrypt zeroHash [] [] ≠ Encode.main zeroHash [] [] := by
  constructor
  · rw [encrypt_of_narrow_zero zeroHash [] longText_lost]
    exact (mainFlow_ne_nil zeroHash (by decide) longText_over longText_ne_nil).symm
  · rw [encrypt_of_narrow_zero zeroHash [] rfl]
    exact (mainFlow_ne_nil zeroHash (by decide) (by decide) (by decide)).symm

theorem encrypt_collision :
    OverCharset longText ∧ longText ≠ [] ∧
      Tlforce.encrypt zeroHash longText [] = Tlforce.encrypt zeroHash [] [] := by
  refine ⟨longText_over, longText_ne_nil, ?_⟩
  rw [encrypt_of_narrow_zero zeroHash [] longText_lost, encrypt_of_narrow_zero zeroHash [] rfl]

end CudaOpenMp.Tlforce
