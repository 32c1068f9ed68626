import CudaOpenMp.Cipher.Treeforce
import CudaOpenMp.Search.Treeforce2Core
import CudaOpenMp.Search.TreeforceStats
import Mathlib.Algebra.BigOperators.Ring.Finset
import Mathlib.Algebra.Order.Group.Int.Sum

/-! No code is as long as the search wants it, so the search finds nothing. -/

namespace CudaOpenMp.Treeforce2

open Treeforce (Seed256 Forest nodeIn items itemLess plant encodeCharFast encodeCharFast_eq
  getMod997_toNat)
open TreeforceSearch (idxOf shuffleDeck shuffleDeck_perm allPerms allPerms_places)

theorem walkLength_eq (s : Forest) (target : Char) (steps curr len : Nat) :
    walkLength s target steps curr len =
      (s.walk target steps curr).map fun code => len + code.length := by
  induction steps generalizing curr len with
  | zero => rfl
  | succ steps ih =>
      have longer (bit : Char) (walked : Option (List Char)) :
          (walked.map fun code => len + 1 + code.length) =
            (walked.map (bit :: ·)).map fun code => len + code.length := by
        cases walked with
        | none => rfl
        | some code =>
            simp only [Option.map_some, List.length_cons, Option.some.injEq]
            omega
      simp only [walkLength, Forest.walk]
      split
      · rfl
      · split
        · rw [ih, longer '0']
        · rw [ih, longer '1']

theorem getCharHuffmanLen_eq (seed : Seed256) (target : Char) :
    getCharHuffmanLen seed target = (encodeCharFast seed target).map List.length := by
  simp only [getCharHuffmanLen, encodeCharFast, Option.bind_eq_bind, Option.map_bind]
  apply Option.bind_congr
  intro forest _
  rw [Function.comp_apply, Option.map_bind]
  apply Option.bind_congr
  intro root _
  rw [Function.comp_apply, walkLength_eq]
  cases forest.walk target forest.tree.length root with
  | none => rfl
  | some code =>
      cases code with
      | nil => rfl
      | cons bit rest => simp

theorem getCharHuffmanLen_chr (seed : Seed256) {c : Nat} (bound : c < 36) :
    getCharHuffmanLen seed (chr c) = some (Scheme.code seed.value c).length := by
  rw [getCharHuffmanLen_eq, encodeCharFast_eq seed bound, Option.map_some, List.length_map]

/-! Why no code is longer than 22 bits. -/

def scores (seed : Seed256) : List Nat := (items seed.getMod997).map fun item => item.1.toNat

theorem scores_eq (seed : Seed256) :
    scores seed = (List.range 36).map (Scheme.leafScore seed.value) := by
  have weights := congrArg (List.map fun x : HuffmanTree.Item Nat => x.weight)
    (Treeforce.items_leaves seed)
  rw [List.map_map, List.map_map] at weights
  exact weights

theorem sum_le_of_distinct {numbers : List Nat} {top : Nat} (unique : numbers.Nodup)
    (small : ∀ x ∈ numbers, x ≤ top) :
    (numbers.sum : Int) ≤ ∑ n ∈ Finset.range numbers.length, ((top : Int) - n) := by
  have distinct : (numbers.map (Nat.cast : Nat → Int)).Nodup := unique.map Nat.cast_injective
  have bounded := @Finset.sum_le_sum_range (numbers.map (Nat.cast : Nat → Int)).toFinset top (by
    intro x member
    obtain ⟨y, listed, rfl⟩ := List.mem_map.mp (List.mem_toFinset.mp member)
    exact Int.ofNat_le.mpr (small y listed))
  rw [List.sum_toFinset _ distinct, List.toFinset_card_of_nodup distinct, List.length_map,
    List.map_id'] at bounded
  rwa [← Nat.cast_list_sum] at bounded

theorem leafScore_inj {seed i j : Nat} (coprime : seed % 997 ≠ 0) (iBound : i < 36) (jBound : j < 36)
    (same : Scheme.leafScore seed i = Scheme.leafScore seed j) : i = j := by
  have prime : Nat.Prime 997 := by norm_num
  have congruent : (i + 1) * seed ≡ (j + 1) * seed [MOD 997] := Nat.ModEq.add_right_cancel' 17 same
  have free : Nat.gcd 997 seed = 1 :=
    (Nat.Prime.coprime_iff_not_dvd prime).mpr (mt Nat.mod_eq_zero_of_dvd coprime)
  have places : i + 1 ≡ j + 1 [MOD 997] := Nat.ModEq.cancel_right_of_coprime free congruent
  have equal := Nat.ModEq.eq_of_lt_of_lt places (by omega) (by omega)
  omega

theorem scores_distinct {seed : Seed256} (coprime : seed.value % 997 ≠ 0) :
    (scores seed).Nodup ∧ (scores seed).sum ≤ 35226 := by
  have unique : (scores seed).Nodup := by
    rw [scores_eq]
    refine List.Nodup.map_on ?_ List.nodup_range
    intro i iMember j jMember same
    exact leafScore_inj coprime (List.mem_range.mp iMember) (List.mem_range.mp jMember) same
  have small : ∀ x ∈ scores seed, x ≤ 996 := by
    rw [scores_eq]
    intro x member
    obtain ⟨c, _, rfl⟩ := List.mem_map.mp member
    exact Nat.le_of_lt_succ (Scheme.leafScore_lt seed.value c)
  have size : (scores seed).length = 36 := by rw [scores_eq]; simp
  have bound := sum_le_of_distinct unique small
  rw [size] at bound
  have total : ∑ n ∈ Finset.range 36, (((996 : Nat) : Int) - n) = 35226 := by decide
  exact ⟨unique, by omega⟩

theorem scores_equal {seed : Seed256} (multiple : seed.value % 997 = 0) :
    ∀ x ∈ scores seed, x = 17 := by
  rw [scores_eq]
  intro x member
  obtain ⟨c, _, rfl⟩ := List.mem_map.mp member
  rw [← Scheme.leafScore_mod, multiple]
  rfl

/-- A leaf at depth `d` forces a total weight of at least the Fibonacci number of `d + 1`. -/
theorem fib_length_le (seed : Seed256) {c : Nat} (bound : c < 36) :
    Nat.fib ((Scheme.code seed.value c).length + 1) ≤ (scores seed).sum := by
  obtain ⟨root, built, same⟩ := Scheme.exists_root seed.value
  have balanced := HuffmanTree.combine_balanced built (Scheme.sortedLeaves_sorted seed.value 36)
    (Scheme.sortedLeaves_fresh seed.value 36) (Scheme.leaves_balanced seed.value)
  have weight := balanced.weights root List.mem_cons_self
  rw [HuffmanTree.combine_weight built, Scheme.sortedLeaves_weight, ← scores_eq] at weight
  obtain ⟨bits, found⟩ := Scheme.exists_code seed.value bound
  have long := (Scheme.code_length_bounds seed.value bound).1
  have short := HuffmanTree.Tree.code_length_le_height found
  simp only [Scheme.code, found, Option.getD_some, List.length_map] at long ⊢
  rw [same] at short
  rcases balanced.grown root List.mem_cons_self with flat | ⟨heavy, _⟩
  · omega
  · rw [weight]
    exact (Nat.fib_mono (by omega)).trans heavy

theorem length_bounds (seed : Seed256) {c : Char} (member : c ∈ charset) :
    ∃ len, getCharHuffmanLen seed c = some len ∧ 1 ≤ len ∧ len ≤ 22 ∧
      Nat.fib (len + 1) ≤ (scores seed).sum := by
  obtain ⟨i, small, rfl⟩ := exists_chr member
  have bounds := Scheme.code_length_bounds seed.value small
  exact ⟨_, getCharHuffmanLen_chr seed small, by omega, bounds.2, fib_length_le seed small⟩

/-! The search. -/

theorem pokerStep_spec {plaintext : List Char} {dA dB : List Nat} (permA : dA.Perm (List.range 36))
    (permB : dB.Perm (List.range 36)) (s : Nat × List Char) {i : Nat} (inside : i < plaintext.length)
    (inCharset : OverCharset s.2) :
    ∃ t, pokerStep plaintext dA dB s i = some t ∧ OverCharset t.2 ∧
      t.2.length = s.2.length + 1 := by
  have deckPerm : (if i % 2 = 0 then dA else dB).Perm (List.range 36) := by
    split
    · exact permA
    · exact permB
  have bound : (idxOf plaintext[i] + (i + 1 + s.1) % 36) % 36 < 36 := Nat.mod_lt _ (by decide)
  have found := Scheme.perm_getElem? deckPerm bound
  have small := Scheme.perm_getD_lt deckPerm bound
  generalize (if i % 2 = 0 then dA else dB).getD ((idxOf plaintext[i] + (i + 1 + s.1) % 36) % 36) 0 = oi
    at found small
  refine ⟨(oi, s.2 ++ [chr oi]), ?_, ?_, by simp⟩
  · simp only [pokerStep, List.getElem?_eq_getElem inside, found, charset_get small,
      Option.bind_eq_bind, Option.bind_some, Option.pure_def]
  · intro c member
    rcases List.mem_append.mp member with old | new
    · exact inCharset c old
    · rw [List.mem_singleton.mp new]
      exact chr_mem small

theorem exists_afterPoker {plaintext : List Char} (size : plaintext.length = 4) (key : List Char) :
    ∃ poker, afterPoker plaintext key = some poker ∧ OverCharset poker ∧ poker.length = 4 := by
  let dA := shuffleDeck (seedMaster key ^^^ 0x1111).toUInt32
  let dB := shuffleDeck (seedMaster key ^^^ 0x2222).toUInt32
  obtain ⟨t, walked, inCharset, tSize⟩ := @Loops.exists_foldlM _ _ (pokerStep plaintext dA dB)
    (fun k s => OverCharset s.2 ∧ s.2.length = k) (List.range 4) 0
    ((seedMaster key % 36).toNat, []) ⟨by simp [OverCharset], rfl⟩ (by
      rintro k s i member _ ⟨inCharset, count⟩
      have inside : i < plaintext.length := by rw [size]; exact List.mem_range.mp member
      obtain ⟨t, step, tOver, tSize⟩ :=
        pokerStep_spec (shuffleDeck_perm _) (shuffleDeck_perm _) s inside inCharset
      exact ⟨t, step, tOver, by rw [tSize, count]⟩)
  refine ⟨t.2, ?_, inCharset, tSize⟩
  simp only [dA, dB] at walked
  simp only [afterPoker, walked, Option.bind_eq_bind, Option.bind_some, Option.pure_def]

theorem exists_arrange {poker : List Char} (inCharset : OverCharset poker) (size : poker.length = 4)
    {perm : List Nat} (member : perm ∈ allPerms) :
    ∃ text, arrange poker perm = some text ∧ OverCharset text ∧ text.length = 4 := by
  obtain ⟨permSize, places⟩ := allPerms_places member
  have inside : ∀ i ∈ List.range 4,
      ∃ c, (do poker[← perm[i]?]?) = some c ∧ c ∈ charset := by
    intro i listed
    have bound : i < perm.length := by rw [permSize]; exact List.mem_range.mp listed
    have placeBound : perm[i] < poker.length := by rw [size]; exact places _ (List.getElem_mem bound)
    exact ⟨poker[perm[i]], by simp [bound, placeBound], inCharset _ (List.getElem_mem placeBound)⟩
  exact Loops.exists_mapM (fun c => c ∈ charset) _ inside

theorem pathLoop_pruned (sha : Sha256) (seed : Seed256) {text : List Char} (inCharset : OverCharset text)
    (inhabited : text ≠ []) : pathLoop sha seed 0 text = some (false, 0) := by
  cases text with
  | nil => exact absurd rfl inhabited
  | cons c rest =>
      obtain ⟨len, measured, _, short, _⟩ := length_bounds seed (inCharset c List.mem_cons_self)
      simp only [pathLoop, measured, Option.bind_eq_bind, Option.bind_some]
      rw [if_pos (by omega)]
      rfl

theorem permLoop_false (sha : Sha256) {poker : List Char} (inCharset : OverCharset poker)
    (size : poker.length = 4) (base : UInt64) (finalLen : Nat) (winPerm : List Nat)
    {perms : List (List Nat)} (known : ∀ perm ∈ perms, perm ∈ allPerms) :
    permLoop sha poker base finalLen winPerm perms = some ⟨false, finalLen, winPerm⟩ := by
  induction perms with
  | nil => rfl
  | cons perm rest ih =>
      obtain ⟨text, arranged, textOver, textSize⟩ :=
        exists_arrange inCharset size (known perm List.mem_cons_self)
      have inhabited : text ≠ [] := by rintro rfl; cases textSize
      change ((arrange poker perm).bind fun afterPerm => (pathLoop sha _ 0 afterPerm).bind fun path =>
        if path.1 && path.2 == 140 then some ⟨true, path.2, perm⟩
        else permLoop sha poker base finalLen winPerm rest) = _
      simp only [arranged, Option.bind_some, pathLoop_pruned sha _ textOver inhabited,
        Bool.false_and, Bool.false_eq_true, if_false]
      exact ih fun p later => known p (List.mem_cons_of_mem perm later)

theorem verifyCombination_false (sha : Sha256) {plaintext : List Char}
    (size : plaintext.length = 4) (key : List Char) (finalLen : Nat) (winPerm : List Nat) :
    verifyCombination sha plaintext key finalLen winPerm = some ⟨false, finalLen, winPerm⟩ := by
  obtain ⟨poker, substituted, inCharset, pokerSize⟩ := exists_afterPoker size key
  rw [verifyCombination, substituted]
  exact permLoop_false sha inCharset pokerSize _ finalLen winPerm fun _ member => member

theorem keyLoop_silent (sha : Sha256) {plaintext : List Char} (size : plaintext.length = 4)
    (printed : List Solution) (indices : List Nat) :
    indices.foldlM (keyStep sha plaintext) printed = some printed := by
  induction indices with
  | nil => rfl
  | cons kIdx rest ih =>
      have step : keyStep sha plaintext printed kIdx = some printed := by
        simp only [keyStep, verifyCombination_false sha size, Option.bind_eq_bind, Option.bind_some,
          Bool.false_eq_true, if_false, Option.pure_def]
      rw [List.foldlM_cons, step, Option.bind_eq_bind, Option.bind_some, ih]

theorem plainStep_silent (sha : Sha256) (totalKeySpace : UInt64) (s : Progress) (pIdx : Nat) :
    plainStep sha totalKeySpace s pIdx = some ⟨s.printed, s.checked + totalKeySpace⟩ := by
  have size : (current (UInt64.ofNat pIdx)).length = 4 := by
    rw [current, KeySpace.fillDigits_chr, KeySpace.key_length]
  rw [plainStep, keyLoop_silent sha size]
  rfl

/-- A worker prints nothing, whatever its share and the hash, and counts all it has checked. -/
theorem threadWorker_silent (sha : Sha256) (startPlainIdx endPlainIdx totalKeySpace : UInt64) :
    threadWorker sha startPlainIdx endPlainIdx totalKeySpace =
      some ⟨[], UInt64.ofNat (endPlainIdx.toNat - startPlainIdx.toNat) * totalKeySpace⟩ := by
  have loop (indices : List Nat) (s : Progress) :
      indices.foldlM (plainStep sha totalKeySpace) s =
        some ⟨s.printed, s.checked + UInt64.ofNat indices.length * totalKeySpace⟩ := by
    induction indices generalizing s with
    | nil => simp
    | cons pIdx rest ih =>
        rw [List.foldlM_cons, plainStep_silent, Option.bind_eq_bind, Option.bind_some, ih]
        simp only [List.length_cons, UInt64.ofNat_add, UInt64.add_mul]
        congr 2
        grind
  rw [threadWorker, loop, List.length_range', UInt64.zero_add]

/-- No code has more than 22 bits, so no plaintext and no key pass the test for 35. -/
theorem search_vacuous (sha : Sha256) :
    (∀ (seed : Seed256), ∀ c ∈ charset, ∃ len, getCharHuffmanLen seed c = some len ∧
      1 ≤ len ∧ len ≤ 22 ∧ Nat.fib (len + 1) ≤ (scores seed).sum) ∧
    (∀ seed : Seed256, (seed.value % 997 ≠ 0 → (scores seed).Nodup ∧ (scores seed).sum ≤ 35226) ∧
      (seed.value % 997 = 0 → ∀ x ∈ scores seed, x = 17)) ∧
    ∀ plaintext key finalLen winPerm, OverCharset plaintext → plaintext.length = 4 →
      OverCharset key → key.length = 4 →
      verifyCombination sha plaintext key finalLen winPerm = some ⟨false, finalLen, winPerm⟩ := by
  refine ⟨fun seed c member => length_bounds seed member,
    fun seed => ⟨scores_distinct, scores_equal⟩, ?_⟩
  intro plaintext key finalLen winPerm _ size _ _
  exact verifyCombination_false sha size key finalLen winPerm

theorem search_vacuous_book :
    verifyCombination zeroHash ['b', 'o', 'o', 'k'] ['w', 'l', 'a', 'q'] 0 [] =
      some ⟨false, 0, []⟩ :=
  (search_vacuous zeroHash).2.2 ['b', 'o', 'o', 'k'] ['w', 'l', 'a', 'q'] 0 [] (by decide) rfl
    (by decide) rfl

end CudaOpenMp.Treeforce2
