import CudaOpenMp.Cipher.Tforce
import CudaOpenMp.Search.Old
import CudaOpenMp.Search.Tforce
import CudaOpenMp.Search.Treeforce2

/-!
What `tforce.cpp` finds. The comparison that stops at the first wrong bit accepts a rearrangement
exactly when its whole bit string is the target, so the search reports a key exactly when one of
the 24 rearrangements of the substituted text is encoded to the target.
-/

namespace CudaOpenMp.Tforce

open GpuMatches (append_eq)
open TreeforceSearch (allPerms allPerms_places shuffleDeck_perm)

def update (seed : UInt32) (c : Char) : UInt32 := (shaUpdate seed c).getD 0

theorem shaUpdate_eq (seed : UInt32) (c : Char) : shaUpdate seed c = some (update seed c) := by
  have four (a b c d : UInt8) : [a, b, c, d].length ≤ 119 := by simp
  obtain ⟨words, hashed⟩ := exists_hashBlocks (four
    ((seed ^^^ c.toNat.toUInt8.toUInt32) >>> 24).toUInt8
    ((seed ^^^ c.toNat.toUInt8.toUInt32) >>> 16).toUInt8
    ((seed ^^^ c.toNat.toUInt8.toUInt32) >>> 8).toUInt8 (seed ^^^ c.toNat.toUInt8.toUInt32).toUInt8)
  obtain ⟨word, read⟩ := @BlockBuffer.exists_readWord
    (words.toList.flatMap Sha256Impl.bytes) 0 (by simp [HashWords.toList, Sha256Impl.bytes])
  have found : shaUpdate seed c = some word := by
    rw [shaUpdate, Sha256Impl.sha256_eq (four _ _ _ _), hashed]
    exact read
  rw [update, found, Option.getD_some]

def encode : UInt32 → List Nat → List Bool
  | _, [] => []
  | seed, c :: rest => code seed c ++ encode (update seed (chr c)) rest

def bitChar (b : Bool) : Char := if b then '1' else '0'

/-- The bit string that the whole text has under a key. -/
def bitString (key text : List Char) : List Char :=
  (encode (seedBase key) (text.map label)).map bitChar

theorem encode_inj (seed : UInt32) {first second : List Nat} (firstSmall : ∀ c ∈ first, c < 36)
    (secondSmall : ∀ c ∈ second, c < 36) (same : encode seed first = encode seed second) :
    first = second := by
  induction first generalizing seed second with
  | nil =>
      cases second with
      | nil => rfl
      | cons d others =>
          have empty := (List.append_eq_nil_iff.mp same.symm).1
          exact absurd empty (code_spec seed (secondSmall d List.mem_cons_self)).2.1
  | cons c rest ih =>
      have cCode := code_spec seed (firstSmall c List.mem_cons_self)
      cases second with
      | nil => exact absurd (List.append_eq_nil_iff.mp same).1 cCode.2.1
      | cons d others =>
          have dCode := code_spec seed (secondSmall d List.mem_cons_self)
          obtain ⟨rfl, tail⟩ := HuffmanTree.Tree.code_append_inj cCode.1 dCode.1 same
          rw [ih _ (fun e member => firstSmall e (List.mem_cons_of_mem _ member))
            (fun e member => secondSmall e (List.mem_cons_of_mem _ member)) tail]

theorem bitChar_inj {first second : Bool} (same : bitChar first = bitChar second) :
    first = second := by
  revert same
  revert first second
  decide

theorem map_label_chr {indices : List Nat} (small : ∀ c ∈ indices, c < 36) :
    (indices.map chr).map label = indices := by
  have each : indices.map (label ∘ chr) = indices.map id :=
    List.map_congr_left fun c member => label_chr (small c member)
  rw [List.map_map, each, List.map_id]

theorem bitString_inj (key : List Char) {first second : List Char} (firstOver : OverCharset first)
    (secondOver : OverCharset second) (same : bitString key first = bitString key second) :
    first = second := by
  have labels (text : List Char) (inCharset : OverCharset text) :
      (∀ c ∈ text.map label, c < 36) ∧ (text.map label).map chr = text := by
    obtain ⟨indices, small, rfl⟩ := inCharset.exists_indices
    rw [map_label_chr small]
    exact ⟨small, rfl⟩
  have bits := List.map_injective_iff.mpr (fun _ _ => bitChar_inj) same
  have indices := encode_inj _ (labels first firstOver).1 (labels second secondOver).1 bits
  rw [← (labels first firstOver).2, indices, (labels second secondOver).2]

/-! The comparison. -/

theorem compareCode_eq {target : List Char} {pos : Nat} {bits : List Bool} (short : bits.length ≤ 64)
    (room : pos + bits.length ≤ target.length) {b : Nat} (below : b ≤ bits.length) :
    compareCode target pos (extend 0 bits) bits.length b =
      some (decide ((bits.drop (bits.length - b)).map bitChar <+:
        target.drop (pos + (bits.length - b)))) := by
  induction b with
  | zero => simp [compareCode]
  | succ b ih =>
      have place : bits.length - (b + 1) = bits.length - 1 - b := by omega
      have inside : bits.length - 1 - b < bits.length := by omega
      have readable : pos + (bits.length - 1 - b) < target.length := by omega
      have next : bits.length - 1 - b + 1 = bits.length - b := by omega
      have bit := extend_bit short (show b < bits.length by omega)
      rw [List.getElem?_eq_getElem inside, Option.some.injEq] at bit
      have expected : (if (extend 0 bits >>> UInt64.ofNat b) &&& 1 ≠ 0 then '1' else '0') =
          bitChar bits[bits.length - 1 - b] := if_congr bit rfl rfl
      rw [place, List.drop_eq_getElem_cons inside, List.drop_eq_getElem_cons readable, List.map_cons,
        next, Nat.add_assoc, next]
      rw [compareCode]
      simp only [if_neg (show ¬64 ≤ b by omega), expected, List.getElem?_eq_getElem readable,
        Option.bind_eq_bind, Option.bind_some, Option.pure_def, ih (by omega), List.cons_prefix_cons]
      by_cases same : target[pos + (bits.length - 1 - b)] = bitChar bits[bits.length - 1 - b]
      · simp [same]
      · simp [same, Ne.symm same]

theorem charLoop_spec {target : List Char} (short : target.length ≤ 2147483647) (seed : UInt32)
    {pos : Nat} (start : pos ≤ target.length) {text : List Nat} (small : ∀ c ∈ text, c < 36)
    (light : pos + 35 * text.length ≤ 2147483647) :
    ∃ ok last, charLoop target target.length seed pos (text.map chr) = some (ok, last) ∧
      (ok = true ∧ last = target.length ↔ (encode seed text).map bitChar = target.drop pos) := by
  induction text generalizing seed pos with
  | nil =>
      refine ⟨true, pos, rfl, ?_⟩
      rw [encode, List.map_nil, eq_comm (a := ([] : List Char)), List.drop_eq_nil_iff]
      constructor
      · rintro ⟨_, rfl⟩
        exact Nat.le_refl _
      · intro beyond
        exact ⟨rfl, by omega⟩
  | cons c rest ih =>
      rw [List.length_cons] at light
      have cBound := small c List.mem_cons_self
      obtain ⟨_, _, long⟩ := code_spec seed cBound
      have sum : int32 ((pos : Int) + ((code seed c).length : Nat)) =
          some ((pos + (code seed c).length : Nat) : Int) :=
        int32_of_range (by omega) (by omega)
      rw [List.map_cons, charLoop, encodeCharFast_eq seed cBound, Option.bind_eq_bind,
        Option.bind_some]
      simp only [sum, Option.bind_eq_bind, Option.bind_some, encode, List.map_append]
      by_cases beyond : target.length < pos + (code seed c).length
      · refine ⟨false, pos, if_pos (by omega), ?_⟩
        constructor
        · rintro ⟨impossible, _⟩
          cases impossible
        · intro same
          have lengths := congrArg List.length same
          simp only [List.length_append, List.length_map, List.length_drop] at lengths
          omega
      · have compared := @compareCode_eq target pos (code seed c) (by omega) (by omega) _ (Nat.le_refl _)
        rw [Nat.sub_self, List.drop_zero, Nat.add_zero] at compared
        rw [if_neg (by omega), compared, Option.bind_some]
        by_cases begins : (code seed c).map bitChar <+: target.drop pos
        · obtain ⟨after, split⟩ := begins
          have dropped : target.drop (pos + (code seed c).length) = after := by
            rw [← List.drop_drop, ← split, List.drop_left' (List.length_map _)]
          obtain ⟨ok, last, walked, okIff⟩ := @ih (update seed (chr c)) (pos + (code seed c).length)
            (by omega) (fun d member => small d (List.mem_cons_of_mem _ member)) (by omega)
          refine ⟨ok, last, ?_, okIff.trans ?_⟩
          · rw [if_pos (decide_eq_true ⟨after, split⟩), shaUpdate_eq, Option.bind_some, walked]
          · rw [dropped, ← split, List.append_cancel_left_eq]
        · refine ⟨false, pos, by rw [decide_eq_false begins]; rfl, ?_⟩
          constructor
          · rintro ⟨impossible, _⟩
            cases impossible
          · intro same
            exact absurd (same ▸ List.prefix_append _ _) begins

/-! One key. -/

theorem pokerStep_spec {plaintext : List Char} {dA dB : List Nat} (permA : dA.Perm (List.range 36))
    (permB : dB.Perm (List.range 36)) (s : Nat × List Char) {i : Nat} (inside : i < plaintext.length)
    (known : OverCharset plaintext) (room : s.2.length < 4) (inCharset : OverCharset s.2) :
    ∃ t, pokerStep plaintext dA dB s i = some t ∧ OverCharset t.2 ∧
      t.2.length = s.2.length + 1 := by
  have deckPerm : (if i % 2 = 0 then dA else dB).Perm (List.range 36) := by
    split
    · exact permA
    · exact permB
  obtain ⟨c, small, spelled⟩ := exists_chr (known _ (List.getElem_mem inside))
  have bound : (c + (i + 1 + s.1) % 36) % 36 < 36 := Nat.mod_lt _ (by decide)
  have found := Scheme.perm_getElem? deckPerm bound
  have outBound := Scheme.perm_getD_lt deckPerm bound
  generalize (if i % 2 = 0 then dA else dB).getD ((c + (i + 1 + s.1) % 36) % 36) 0 = oi
    at found outBound
  have place : (idxOf plaintext[i] + ((i + 1 + s.1) % 36 : Nat)).tmod 36 =
      (((c + (i + 1 + s.1) % 36) % 36 : Nat) : Int) := by
    rw [← spelled, idxOf_chr small, ← Int.natCast_add, Int.tmod_eq_emod_of_nonneg (by omega)]
    rfl
  refine ⟨(oi, s.2 ++ [chr oi]), ?_, inCharset.concat (chr_mem outBound), by simp⟩
  simp only [pokerStep, List.getElem?_eq_getElem inside, place, GpuMatches.read,
    if_pos (Int.natCast_nonneg _), Int.toNat_natCast, found, charset_get outBound, append_eq room,
    Option.bind_eq_bind, Option.bind_some, Option.pure_def]

theorem exists_afterPoker {plaintext : List Char} (known : OverCharset plaintext)
    (size : plaintext.length = 4) (key : List Char) :
    ∃ poker, afterPoker plaintext key 4 = some poker ∧ OverCharset poker ∧ poker.length = 4 := by
  let dA := doShuffle (xor32 (keyToSeedMaster key) 0x1111)
  let dB := doShuffle (xor32 (keyToSeedMaster key) 0x2222)
  obtain ⟨t, walked, inCharset, tSize⟩ := @Loops.exists_foldlM _ _ (pokerStep plaintext dA dB)
    (fun k s => OverCharset s.2 ∧ s.2.length = k) (List.range 4) 0
    ((keyToSeedMaster key % 36).toNat, []) ⟨by simp [OverCharset], rfl⟩ (by
      rintro k s i member below ⟨inCharset, count⟩
      have inside : i < plaintext.length := by rw [size]; exact List.mem_range.mp member
      rw [List.length_range] at below
      obtain ⟨t, step, tOver, tSize⟩ := pokerStep_spec (shuffleDeck_perm _) (shuffleDeck_perm _) s
        inside known (by omega) inCharset
      exact ⟨t, step, tOver, by rw [tSize, count]⟩)
  refine ⟨t.2, ?_, inCharset, tSize⟩
  simp only [dA, dB] at walked
  simp only [afterPoker, walked, Option.bind_eq_bind, Option.bind_some, Option.pure_def]

/-- What the search asks of a permutation of the substituted text. -/
def hit (target key poker : List Char) (perm : List Nat) : Bool :=
  (afterPerm 4 poker perm).any fun text => bitString key text == target

section
variable {target poker : List Char} (key : List Char) (pokerOver : OverCharset poker)
  (size : poker.length = 4)
include pokerOver size

theorem exists_afterPerm {perm : List Nat} (member : perm ∈ allPerms) :
    ∃ text, afterPerm 4 poker perm = some text ∧ OverCharset text ∧ text.length = 4 :=
  Treeforce2.exists_arrange pokerOver size member

theorem permLoop_eq (short : target.length ≤ 2147483647) {perms : List (List Nat)}
    (known : ∀ perm ∈ perms, perm ∈ allPerms) :
    permLoop target poker 4 target.length (seedBase key) perms =
      some (perms.find? (hit target key poker)) := by
  induction perms with
  | nil => rfl
  | cons perm rest ih =>
      obtain ⟨text, arranged, textOver, textSize⟩ :=
        exists_afterPerm pokerOver size (known perm List.mem_cons_self)
      obtain ⟨indices, small, rfl⟩ := textOver.exists_indices
      rw [List.length_map] at textSize
      obtain ⟨ok, last, walked, okIff⟩ := @charLoop_spec target short (seedBase key) 0 (Nat.zero_le _)
        indices small (by omega)
      rw [List.drop_zero] at okIff
      have same : (ok && (last : Int) == target.length) = hit target key poker perm := by
        rw [hit, arranged, Option.any_some, bitString, map_label_chr small, Bool.eq_iff_iff, Bool.and_eq_true,
          beq_iff_eq, beq_iff_eq, Int.natCast_inj, okIff]
      rw [permLoop, arranged, Option.bind_eq_bind, Option.bind_some]
      have start : charLoop target target.length (seedBase key) 0 (indices.map chr) = some (ok, last) :=
        walked
      rw [start, Option.bind_eq_bind, Option.bind_some]
      simp only [same, List.find?_cons]
      cases hit target key poker perm with
      | true => rfl
      | false => exact ih fun p later => known p (List.mem_cons_of_mem _ later)

end

/-- `try_key` accesses nothing outside its arrays and returns the first permutation that fits. -/
theorem tryKey_eq {plaintext target : List Char} (known : OverCharset plaintext)
    (size : plaintext.length = 4) (short : target.length ≤ 2147483647) (key : List Char) :
    ∃ poker, afterPoker plaintext key 4 = some poker ∧ OverCharset poker ∧ poker.length = 4 ∧
      tryKey plaintext target 4 target.length key = some (allPerms.find? (hit target key poker)) := by
  obtain ⟨poker, substituted, pokerOver, pokerSize⟩ := exists_afterPoker known size key
  refine ⟨poker, substituted, pokerOver, pokerSize, ?_⟩
  rw [tryKey, substituted, Option.bind_eq_bind, Option.bind_some,
    permLoop_eq key pokerOver pokerSize short fun _ member => member]

/-- The permutation turns the substituted text into one with the target as its bit string. -/
def Encodes (plaintext target key : List Char) (perm : List Nat) : Prop :=
  perm.Perm [0, 1, 2, 3] ∧ ∃ text, (afterPoker plaintext key 4).bind (afterPerm 4 · perm) = some text ∧
    bitString key text = target

theorem encodes_iff {plaintext target key poker : List Char}
    (substituted : afterPoker plaintext key 4 = some poker) (perm : List Nat) :
    Encodes plaintext target key perm ↔ perm ∈ allPerms ∧ hit target key poker perm = true := by
  rw [Encodes, ← Old.mem_allPerms, substituted, Option.bind_some, hit, Option.any_eq_true]
  simp only [beq_iff_eq]

/-- `try_key` as `main` calls it, with the sizes of the two strings as `int`. -/
def attempt (plaintext target key : List Char) : Option (List Nat) :=
  (tryKey plaintext target plaintext.length (narrow target.length) key).join

section
variable {plaintext target : List Char} (known : OverCharset plaintext)
  (size : plaintext.length = 4) (short : target.length ≤ 2147483647)
include known size short

theorem attempt_eq (key : List Char) :
    ∃ poker, afterPoker plaintext key 4 = some poker ∧ OverCharset poker ∧ poker.length = 4 ∧
      tryKey plaintext target plaintext.length (narrow target.length) key =
        some (allPerms.find? (hit target key poker)) := by
  obtain ⟨poker, substituted, pokerOver, pokerSize, tried⟩ := tryKey_eq known size short key
  refine ⟨poker, substituted, pokerOver, pokerSize, ?_⟩
  rw [size, narrow_of_lt (by omega), tried]

theorem attempt_iff (key : List Char) (perm : List Nat) :
    attempt plaintext target key = some perm ↔ Encodes plaintext target key perm ∧
      ∀ other < perm, ¬Encodes plaintext target key other := by
  obtain ⟨poker, substituted, _, _, tried⟩ := attempt_eq known size short key
  have encodes := @encodes_iff plaintext target key poker substituted
  rw [attempt, tried, Option.join_some, List.find?_eq_some_iff_append, encodes]
  constructor
  · rintro ⟨fits, before, after, split, fails⟩
    have rising := Old.allPerms_lexicographic
    rw [split, List.pairwise_append, List.pairwise_cons] at rising
    refine ⟨⟨split ▸ List.mem_append_right _ List.mem_cons_self, fits⟩, ?_⟩
    intro other smaller found
    obtain ⟨listed, otherFits⟩ := (encodes other).mp found
    rw [split] at listed
    rcases List.mem_append.mp listed with earlier | later
    · have fail := fails other earlier
      rw [otherFits] at fail
      cases fail
    · rcases List.mem_cons.mp later with rfl | behind
      · exact absurd smaller (List.lt_irrefl _)
      · exact absurd smaller (List.lt_asymm (rising.2.1.1 other behind))
  · rintro ⟨⟨listed, fits⟩, least⟩
    obtain ⟨before, after, split⟩ := List.append_of_mem listed
    refine ⟨fits, before, after, split, ?_⟩
    intro other earlier
    have rising := Old.allPerms_lexicographic
    rw [split, List.pairwise_append] at rising
    have smaller := rising.2.2 other earlier perm List.mem_cons_self
    have otherListed : other ∈ allPerms := split ▸ List.mem_append_left _ earlier
    have fail := least other smaller
    rw [encodes] at fail
    simpa [otherListed] using fail

theorem exists_text {key : List Char} {perm : List Nat} (found : Encodes plaintext target key perm) :
    ∃ text, ∀ other, Encodes plaintext target key other ↔ other.Perm [0, 1, 2, 3] ∧
      (afterPoker plaintext key 4).bind (afterPerm 4 · other) = some text := by
  obtain ⟨poker, substituted, pokerOver, pokerSize, _⟩ := attempt_eq known size short key
  obtain ⟨arrangement, text, arranged, coded⟩ := found
  refine ⟨text, fun other => ⟨?_, ?_⟩⟩
  · rintro ⟨otherArrangement, otherText, otherArranged, otherCoded⟩
    refine ⟨otherArrangement, ?_⟩
    rw [substituted, Option.bind_some] at arranged otherArranged ⊢
    obtain ⟨first, firstFound, firstOver, _⟩ :=
      exists_afterPerm pokerOver pokerSize (Old.mem_allPerms.mpr arrangement)
    obtain ⟨second, secondFound, secondOver, _⟩ :=
      exists_afterPerm pokerOver pokerSize (Old.mem_allPerms.mpr otherArrangement)
    obtain rfl := Option.some.inj (firstFound.symm.trans arranged)
    obtain rfl := Option.some.inj (secondFound.symm.trans otherArranged)
    rw [bitString_inj key firstOver secondOver (coded.trans otherCoded.symm), secondFound]
  · rintro ⟨otherArrangement, otherArranged⟩
    exact ⟨otherArrangement, text, otherArranged, coded⟩

open TforceSearch in
/-- The program never leaves its arrays, and it reports something exactly when some key and some
rearrangement give the target. A reported permutation is the first one of its key, and the others
that fit spell the same text. -/
theorem search_finds {numThreads : Int32} (positive : 1 ≤ numThreads)
    {f : Interleaving.Forked (jobs numThreads).length (Shared (List Nat)) (Worker (List Nat))}
    (run : Run (attempt plaintext target) (start numThreads) f)
    (joined : f.joined = (jobs numThreads).length) :
    (∀ key, (tryKey plaintext target plaintext.length (narrow target.length) key).isSome) ∧
      (f.state.shared.results ≠ [] ↔ ∃ key perm, OverCharset key ∧ key.length = 4 ∧
        Encodes plaintext target key perm) ∧
      ∀ entry ∈ f.state.shared.results, OverCharset entry.1 ∧ entry.1.length = 4 ∧
        Encodes plaintext target entry.1 entry.2 ∧
        (∀ perm < entry.2, ¬Encodes plaintext target entry.1 perm) ∧
        ∃ text, ∀ perm, Encodes plaintext target entry.1 perm ↔ perm.Perm [0, 1, 2, 3] ∧
          (afterPoker plaintext entry.1 4).bind (afterPerm 4 · perm) = some text := by
  have genuine : ∀ entry ∈ f.state.shared.results, OverCharset entry.1 ∧ entry.1.length = 4 ∧
      attempt plaintext target entry.1 = some entry.2 := by
    intro entry member
    have within := run_results positive run
    have reported := Multiset.subset_of_le within (Multiset.mem_coe.mpr member)
    exact (mem_reports _).mp (Multiset.mem_coe.mp reported)
  refine ⟨?_, ⟨?_, ?_⟩, ?_⟩
  · intro key
    obtain ⟨poker, _, _, _, tried⟩ := attempt_eq known size short key
    rw [tried]
    rfl
  · intro some
    obtain ⟨entry, member⟩ := List.exists_mem_of_ne_nil _ some
    obtain ⟨inCharset, length, outcome⟩ := genuine entry member
    exact ⟨entry.1, entry.2, inCharset, length, ((attempt_iff known size short _ _).mp outcome).1⟩
  · rintro ⟨key, perm, inCharset, length, found⟩ none
    have missed := run_misses positive run joined none inCharset length
    obtain ⟨poker, substituted, _, _, tried⟩ := attempt_eq known size short key
    rw [attempt, tried, Option.join_some, List.find?_eq_none] at missed
    obtain ⟨listed, fits⟩ := (encodes_iff substituted perm).mp found
    exact missed perm listed fits
  · intro entry member
    obtain ⟨inCharset, length, outcome⟩ := genuine entry member
    obtain ⟨found, first⟩ := (attempt_iff known size short _ _).mp outcome
    exact ⟨inCharset, length, found, first, exists_text known size short found⟩

end

def book : List Char := ['b', 'o', 'o', 'k']

def targetCipher : List Char := "011001001011011011000".toList

open TforceSearch in
theorem search_finds_book :
    ∃ f : Interleaving.Forked (jobs 2).length (Shared (List Nat)) (Worker (List Nat)),
      (f.state.shared.results ≠ [] ↔ ∃ key perm, OverCharset key ∧ key.length = 4 ∧
        Encodes book targetCipher key perm) := by
  obtain ⟨f, run, joined⟩ := exists_joined (attempt book targetCipher) (show (1 : Int32) ≤ 2 by decide)
  exact ⟨f, (search_finds (by decide) rfl (by decide) (by decide) run joined).2.1⟩

end CudaOpenMp.Tforce
