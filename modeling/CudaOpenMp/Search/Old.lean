import CudaOpenMp.Search.OldCore
import CudaOpenMp.Search.Treeforce2
import Mathlib.Data.List.Permutation

/-!
The search of `old.cpp` against the whole strings. It compares the second stage code by code and
never builds it, and still finds the permutations whose two stages give the target.
-/

namespace CudaOpenMp.Old

open Treeforce (Seed256)
open TreeforceSearch (allPerms allPerms_places)

theorem exists_encodeCharFast (seed : Seed256) {c : Char} (member : c ∈ charset) :
    ∃ code, encodeCharFast seed c = some code ∧ OverCharset code ∧ code.length ≤ 22 := by
  obtain ⟨i, bound, rfl⟩ := exists_chr member
  refine ⟨_, Treeforce.encodeCharFast_eq seed bound, ?_, ?_⟩
  · apply overCharset_map_chr
    intro b bit
    exact Nat.lt_of_lt_of_le (Scheme.code_bits seed.value i b bit) (by decide)
  · rw [List.length_map]
    exact (Scheme.code_length_bounds seed.value bound).2

theorem exists_huffman (sha : Sha256) (seed : Seed256) {text : List Char}
    (inCharset : OverCharset text) :
    ∃ bits, huffman sha seed text = some bits ∧ OverCharset bits ∧
      bits.length ≤ 22 * text.length := by
  induction text generalizing seed with
  | nil => exact ⟨[], rfl, by simp [OverCharset], by simp⟩
  | cons c rest ih =>
      obtain ⟨code, coded, codeOver, codeShort⟩ := exists_encodeCharFast seed (inCharset c (by simp))
      obtain ⟨bits, tail, bitsOver, bitsShort⟩ :=
        ih (seed.update sha c) fun d member => inCharset d (by simp [member])
      refine ⟨code ++ bits, ?_, codeOver.append bitsOver, ?_⟩
      · simp only [huffman, coded, tail, Option.bind_eq_bind, Option.bind_some, Option.pure_def]
      · rw [List.length_append, List.length_cons]
        omega

/-- Both stages for one permutation of the substituted text. -/
def twoStages (sha : Sha256) (key poker : List Char) (perm : List Nat) : Option (List Char) := do
  let afterPerm ← arrange 4 poker perm
  huffman sha (seedR2 key) (← huffman sha (seedR1 key) afterPerm)

theorem comparesEqual_iff {target code : List Char} {pos : Nat} (inside : pos ≤ target.length) :
    ∃ same, comparesEqual target pos code = some same ∧ (same = true ↔ code <+: target.drop pos) := by
  refine ⟨_, if_neg (by omega), ?_⟩
  rw [beq_iff_eq, List.prefix_iff_eq_take]
  exact eq_comm

/-- The loop gets through with `pos` at the end exactly when the rest of the target begins with the
whole bit string and has the length that `tgt_len` leaves. -/
theorem compareLoop_spec (sha : Sha256) {target : List Char} {tgtLen : Int}
    (inside : tgtLen ≤ target.length) (seed : Seed256) {pos : Nat} (start : pos ≤ target.length)
    {bits whole : List Char} (encoded : huffman sha seed bits = some whole) :
    ∃ ok last, compareLoop sha target tgtLen seed pos bits = some (ok, last) ∧
      (ok = true ∧ (last : Int) = tgtLen ↔
        ((pos + whole.length : Nat) : Int) = tgtLen ∧ whole <+: target.drop pos) := by
  induction bits generalizing seed pos whole with
  | nil =>
      rw [huffman, Option.some.injEq] at encoded
      subst encoded
      exact ⟨true, pos, rfl, by simp⟩
  | cons bit rest ih =>
      rw [huffman] at encoded
      simp only [Option.bind_eq_bind, Option.pure_def, Option.bind_eq_some_iff,
        Option.some.injEq] at encoded
      obtain ⟨code, coded, tail, later, rfl⟩ := encoded
      rw [compareLoop, coded, Option.bind_eq_bind, Option.bind_some, List.length_append]
      by_cases long : tgtLen < (pos + code.length : Nat)
      · refine ⟨false, pos, if_pos long, ?_⟩
        constructor
        · rintro ⟨impossible, _⟩
          cases impossible
        · rintro ⟨size, _⟩
          omega
      · obtain ⟨same, compared, sameIff⟩ := @comparesEqual_iff target code pos start
        rw [if_neg long, compared, Option.bind_eq_bind, Option.bind_some]
        cases same with
        | false =>
            refine ⟨false, pos, rfl, ?_⟩
            constructor
            · rintro ⟨impossible, _⟩
              cases impossible
            · rintro ⟨_, fits⟩
              have first := sameIff.mpr ((List.prefix_append code tail).trans fits)
              cases first
        | true =>
            obtain ⟨after, split⟩ := sameIff.mp rfl
            have dropped : target.drop (pos + code.length) = after := by
              rw [← List.drop_drop, ← split, List.drop_left]
            obtain ⟨ok, last, walked, okIff⟩ :=
              @ih (seed.update sha bit) (pos + code.length) (by omega) tail later
            refine ⟨ok, last, walked, okIff.trans ?_⟩
            rw [dropped, ← split, List.prefix_append_right_inj, Nat.add_assoc]

/-- What the search asks of a permutation: the target begins with both stages, and `tgt_len` is
their length. -/
def hit (sha : Sha256) (target key poker : List Char) (tgtLen : Int) (perm : List Nat) : Bool :=
  (twoStages sha key poker perm).any fun whole =>
    (whole.length : Int) == tgtLen && whole.isPrefixOf target

section
variable (sha : Sha256) {target : List Char} (key : List Char) {poker : List Char} {tgtLen : Int}
  (pokerOver : OverCharset poker) (size : poker.length = 4)
include pokerOver size

theorem exists_twoStages {perm : List Nat} (member : perm ∈ allPerms) :
    ∃ text first whole, arrange 4 poker perm = some text ∧
      huffman sha (seedR1 key) text = some first ∧ huffman sha (seedR2 key) first = some whole ∧
      twoStages sha key poker perm = some whole ∧ whole.length ≤ 1936 := by
  obtain ⟨text, arranged, textOver, textSize⟩ := Treeforce2.exists_arrange pokerOver size member
  obtain ⟨first, encoded, firstOver, firstShort⟩ := exists_huffman sha (seedR1 key) textOver
  obtain ⟨whole, again, _, wholeShort⟩ := exists_huffman sha (seedR2 key) firstOver
  have same : arrange 4 poker perm = some text := arranged
  refine ⟨text, first, whole, same, encoded, again, ?_, by omega⟩
  simp only [twoStages, same, encoded, Option.bind_eq_bind, Option.bind_some, again]

theorem permStep_eq (inside : tgtLen ≤ target.length) (s : List (List Nat) × Bool)
    {perm : List Nat} (member : perm ∈ allPerms) :
    permStep sha target key poker 4 tgtLen s perm =
      some (if hit sha target key poker tgtLen perm then (s.1 ++ [perm], true) else s) := by
  obtain ⟨text, first, whole, arranged, encoded, again, both, _⟩ :=
    exists_twoStages sha key pokerOver size member
  obtain ⟨ok, last, compared, okIff⟩ :=
    @compareLoop_spec sha target tgtLen inside (seedR2 key) 0 (Nat.zero_le _) first whole again
  have same : (ok && (last : Int) == tgtLen) = hit sha target key poker tgtLen perm := by
    rw [Nat.zero_add, List.drop_zero] at okIff
    rw [hit, both, Option.any_some, Bool.eq_iff_iff]
    simpa using okIff
  simp only [permStep, arranged, encoded, compared, same, Option.bind_eq_bind, Option.bind_some,
    Option.pure_def]

theorem permLoop_eq (inside : tgtLen ≤ target.length) {perms : List (List Nat)}
    (known : ∀ perm ∈ perms, perm ∈ allPerms) (s : List (List Nat) × Bool) :
    perms.foldlM (permStep sha target key poker 4 tgtLen) s =
      some (s.1 ++ perms.filter (hit sha target key poker tgtLen),
        s.2 || perms.any (hit sha target key poker tgtLen)) := by
  induction perms generalizing s with
  | nil => simp
  | cons perm rest ih =>
      rw [List.foldlM_cons, permStep_eq sha key pokerOver size inside s (known perm (by simp)),
        Option.bind_eq_bind, Option.bind_some, ih fun p later => known p (by simp [later])]
      cases found : hit sha target key poker tgtLen perm with
      | false => simp [found]
      | true => simp [found]

end

theorem exists_afterPoker {plaintext : List Char} (size : plaintext.length = 4) (key : List Char) :
    ∃ poker, afterPoker plaintext key 4 = some poker ∧ OverCharset poker ∧ poker.length = 4 :=
  Treeforce2.exists_afterPoker size key

theorem tryKey_eq (sha : Sha256) {plaintext target : List Char} (size : plaintext.length = 4)
    (key : List Char) {tgtLen : Int} (inside : tgtLen ≤ target.length) (hitPerms : List (List Nat)) :
    ∃ poker, afterPoker plaintext key 4 = some poker ∧ OverCharset poker ∧ poker.length = 4 ∧
      tryKey sha plaintext target key 4 tgtLen hitPerms =
        some (hitPerms ++ allPerms.filter (hit sha target key poker tgtLen),
          allPerms.any (hit sha target key poker tgtLen)) := by
  obtain ⟨poker, substituted, pokerOver, pokerSize⟩ := exists_afterPoker size key
  refine ⟨poker, substituted, pokerOver, pokerSize, ?_⟩
  rw [tryKey, substituted, Option.bind_eq_bind, Option.bind_some,
    permLoop_eq sha key pokerOver pokerSize inside fun _ member => member, Bool.false_or]

/-! The target, whose size is narrowed to `int`. -/

theorem narrow_le (size : Nat) : narrow size ≤ size := by
  rw [narrow]
  split <;> omega

theorem hit_iff {sha : Sha256} {target key poker : List Char} (pokerOver : OverCharset poker)
    (size : poker.length = 4) (short : target.length < 2 ^ 32) {perm : List Nat}
    (member : perm ∈ allPerms) :
    hit sha target key poker (narrow target.length) perm = true ↔
      twoStages sha key poker perm = some target := by
  obtain ⟨_, _, whole, _, _, _, both, wholeShort⟩ := exists_twoStages sha key pokerOver size member
  have narrowed : (whole.length : Int) = narrow target.length ↔ whole.length = target.length := by
    rw [narrow]
    split <;> omega
  rw [hit, both, Option.any_some, Bool.and_eq_true, beq_iff_eq, narrowed, List.isPrefixOf_iff_prefix,
    Option.some.injEq]
  constructor
  · rintro ⟨length, begins⟩
    exact begins.eq_of_length length
  · rintro rfl
    exact ⟨rfl, List.prefix_refl _⟩

theorem mem_allPerms {perm : List Nat} : perm ∈ allPerms ↔ perm.Perm [0, 1, 2, 3] := by
  have listed : allPerms.Perm ([0, 1, 2, 3] : List Nat).permutations' := by decide
  rw [listed.mem_iff, List.mem_permutations']

theorem allPerms_lexicographic : allPerms.Pairwise (· < ·) := by decide

theorem byteSum_toNat {text : List Char} (bytes : ∀ c ∈ text, c.toNat < 256) (start : UInt64) :
    (text.foldl (fun sum c => sum + c.toNat.toUInt8.toUInt64) start).toNat =
      (start.toNat + (text.map Char.toNat).sum) % 2 ^ 64 := by
  induction text generalizing start with
  | nil => exact (Nat.mod_eq_of_lt start.toNat_lt).symm
  | cons c rest ih =>
      have byte : c.toNat.toUInt8.toUInt64.toNat = c.toNat := by
        rw [UInt8.toNat_toUInt64]
        exact UInt8.toNat_ofNat_of_lt' (bytes c (by simp))
      rw [List.foldl_cons, ih (fun d member => bytes d (by simp [member])), UInt64.toNat_add, byte,
        List.map_cons, List.sum_cons]
      omega

theorem seedOf_value {key suffix : List Char} (keyOver : OverCharset key)
    (suffixBytes : ∀ c ∈ suffix, c.toNat < 256) :
    (seedOf key suffix).value =
      ((key.map Char.toNat).sum + (suffix.map Char.toNat).sum) % 2 ^ 32 := by
  have keyBytes : ∀ c ∈ key, c.toNat < 256 := by
    intro c member
    obtain ⟨i, bound, rfl⟩ := exists_chr (keyOver c member)
    have small := ord_lt bound
    rw [chr_toNat bound]
    omega
  have keySum := byteSum_toNat keyBytes 0
  have seed := byteSum_toNat suffixBytes (keyAsciiSum key)
  rw [← keyAsciiSum, UInt64.toNat_zero, Nat.zero_add] at keySum
  have last (word : UInt32) :
      (⟨#v[0, 0, 0, 0, 0, 0, 0, word]⟩ : Seed256).value = word.toNat := by
    simp [Seed256.value]
  rw [seedOf, last, UInt64.toNat_toUInt32, seed, keySum]
  omega

/-- For every target of less than 4 294 967 296 characters the hits are the permutations whose two
stages give it, in lexicographic order. -/
theorem tryKey_hits (sha : Sha256) {plaintext target key : List Char} (size : plaintext.length = 4)
    (keyOver : OverCharset key) (short : target.length < 2 ^ 32) (hitPerms : List (List Nat)) :
    ∃ poker hits found, afterPoker plaintext key 4 = some poker ∧
      (seedR1 key).value = ((key.map Char.toNat).sum + (82 + 49)) % 2 ^ 32 ∧
      (seedR2 key).value = ((key.map Char.toNat).sum + (82 + 50)) % 2 ^ 32 ∧
      tryKey sha plaintext target key 4 (narrow target.length) hitPerms =
        some (hitPerms ++ hits, found) ∧
      hits.Pairwise (· < ·) ∧
      (∀ perm, perm ∈ hits ↔
        perm.Perm [0, 1, 2, 3] ∧ twoStages sha key poker perm = some target) ∧
      (found = true ↔ ∃ perm, perm ∈ hits) := by
  obtain ⟨poker, substituted, pokerOver, pokerSize, tried⟩ :=
    tryKey_eq sha size key (narrow_le target.length) hitPerms
  refine ⟨poker, _, _, substituted, seedOf_value keyOver (by simp),
    seedOf_value keyOver (by simp), tried, ?_, ?_, ?_⟩
  · exact allPerms_lexicographic.sublist List.filter_sublist
  · intro perm
    rw [List.mem_filter, ← mem_allPerms]
    exact and_congr_right fun member => hit_iff pokerOver pokerSize short member
  · simp only [List.any_eq_true, List.mem_filter]

theorem tryKey_hits_book :
    ∃ poker target hits, afterPoker ['b', 'o', 'o', 'k'] ['w', 'l', 'a', 'q'] 4 = some poker ∧
      twoStages zeroHash ['w', 'l', 'a', 'q'] poker [2, 0, 3, 1] = some target ∧
      tryKey zeroHash ['b', 'o', 'o', 'k'] target ['w', 'l', 'a', 'q'] 4 (narrow target.length) [] =
        some (hits, true) ∧
      [2, 0, 3, 1] ∈ hits := by
  obtain ⟨poker, substituted, pokerOver, pokerSize⟩ :=
    @exists_afterPoker ['b', 'o', 'o', 'k'] rfl ['w', 'l', 'a', 'q']
  obtain ⟨_, _, target, _, _, _, both, short⟩ := exists_twoStages zeroHash ['w', 'l', 'a', 'q']
    pokerOver pokerSize (show [2, 0, 3, 1] ∈ allPerms by decide)
  obtain ⟨same, hits, found, again, _, _, tried, _, members, foundIff⟩ :=
    @tryKey_hits zeroHash ['b', 'o', 'o', 'k'] target ['w', 'l', 'a', 'q'] rfl (by decide)
      (by omega) []
  obtain rfl := Option.some.inj (substituted.symm.trans again)
  have hit : [2, 0, 3, 1] ∈ hits := (members _).mpr ⟨by decide, both⟩
  obtain rfl : found = true := foundIff.mpr ⟨_, hit⟩
  exact ⟨poker, target, hits, substituted, both, tried, hit⟩

/-! A target that is longer than the range of `int`. -/

/-- One true encoding, and behind it 4 294 967 296 zeros that `tgt_len` does not count. -/
def longTarget (plaintext key : List Char) : List Char :=
  ((afterPoker plaintext key 4).bind fun poker => twoStages zeroHash key poker [0, 1, 2, 3]).getD [] ++
    List.replicate (2 ^ 32) '0'

theorem tryKey_longTarget :
    ∃ poker hits found, afterPoker ['b', 'o', 'o', 'k'] ['w', 'l', 'a', 'q'] 4 = some poker ∧
      tryKey zeroHash ['b', 'o', 'o', 'k'] (longTarget ['b', 'o', 'o', 'k'] ['w', 'l', 'a', 'q'])
        ['w', 'l', 'a', 'q'] 4
        (narrow (longTarget ['b', 'o', 'o', 'k'] ['w', 'l', 'a', 'q']).length) [] =
          some (hits, found) ∧
      [0, 1, 2, 3] ∈ hits ∧ twoStages zeroHash ['w', 'l', 'a', 'q'] poker [0, 1, 2, 3] ≠
        some (longTarget ['b', 'o', 'o', 'k'] ['w', 'l', 'a', 'q']) := by
  obtain ⟨poker, substituted, pokerOver, pokerSize, tried⟩ := @tryKey_eq zeroHash
    ['b', 'o', 'o', 'k'] (longTarget ['b', 'o', 'o', 'k'] ['w', 'l', 'a', 'q']) rfl
    ['w', 'l', 'a', 'q'] _ (narrow_le _) []
  have member : [0, 1, 2, 3] ∈ allPerms := mem_allPerms.mpr (List.Perm.refl _)
  obtain ⟨_, _, whole, _, _, _, both, short⟩ :=
    exists_twoStages zeroHash ['w', 'l', 'a', 'q'] pokerOver pokerSize member
  have spelled : longTarget ['b', 'o', 'o', 'k'] ['w', 'l', 'a', 'q'] =
      whole ++ List.replicate (2 ^ 32) '0' := by
    rw [longTarget, substituted, Option.bind_some, both, Option.getD_some]
  have length : (longTarget ['b', 'o', 'o', 'k'] ['w', 'l', 'a', 'q']).length =
      whole.length + 2 ^ 32 := by
    rw [spelled, List.length_append, List.length_replicate]
  refine ⟨poker, _, _, substituted, tried, ?_, ?_⟩
  · rw [List.nil_append, List.mem_filter]
    refine ⟨member, ?_⟩
    have narrowed : (whole.length : Int) = narrow (whole.length + 2 ^ 32) := by
      rw [narrow]
      split <;> omega
    rw [hit, both, Option.any_some, Bool.and_eq_true, beq_iff_eq, List.isPrefixOf_iff_prefix, length,
      spelled]
    exact ⟨narrowed, List.prefix_append _ _⟩
  · rw [both]
    intro same
    have sizes := congrArg List.length (Option.some.inj same)
    omega

end CudaOpenMp.Old
