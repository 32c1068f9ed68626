import CudaOpenMp.Cipher.Treeforce
import CudaOpenMp.Library.Loops
import CudaOpenMp.Search.TreeforceCore

/-!
The statistics of a list of lengths, however it is cut into parts, and the lengths that one
key gives.
-/

namespace CudaOpenMp.TreeforceSearch

open KeySpace

def Stats.ofList (lens : List Nat) : Stats := lens.foldl Stats.record Stats.empty

theorem foldl_record (lens : List Nat) (s : Stats) :
    lens.foldl Stats.record s =
      ⟨s.count + UInt64.ofNat lens.length, s.totalLen + UInt64.ofNat lens.sum,
        lens.foldl min s.minLen, lens.foldl max s.maxLen,
        lens.foldl (fun t len => Tally.add t len 1) s.lenFreq⟩ := by
  induction lens generalizing s with
  | nil => simp
  | cons len rest ih =>
      have smaller : (if len < s.minLen then len else s.minLen) = min s.minLen len := by
        split <;> omega
      have larger : (if s.maxLen < len then len else s.maxLen) = max s.maxLen len := by
        split <;> omega
      have one : (1 : UInt64) + UInt64.ofNat rest.length = UInt64.ofNat rest.length + 1 :=
        UInt64.add_comm _ _
      simp only [List.foldl_cons, ih, Stats.record, smaller, larger, List.length_cons,
        List.sum_cons, UInt64.ofNat_add, UInt64.add_assoc]
      simp [one]

theorem ofList_eq (lens : List Nat) :
    Stats.ofList lens = ⟨UInt64.ofNat lens.length, UInt64.ofNat lens.sum, lens.foldl min 1000,
      lens.foldl max 0, Tally.count lens⟩ := by
  rw [Stats.ofList, foldl_record]
  simp [Stats.empty, Tally.count]

theorem ofList_append_one (lens : List Nat) (len : Nat) :
    (Stats.ofList lens).record len = Stats.ofList (lens ++ [len]) := by
  simp [Stats.ofList]

theorem foldl_min_le (lens : List Nat) (bound : Nat) : lens.foldl min bound ≤ bound := by
  induction lens generalizing bound with
  | nil => exact Nat.le_refl _
  | cons len rest ih => exact (ih (min bound len)).trans (Nat.min_le_left bound len)

theorem foldl_min_start (lens : List Nat) (first second : Nat) :
    lens.foldl min (min first second) = min first (lens.foldl min second) := by
  induction lens generalizing second with
  | nil => rfl
  | cons len rest ih => rw [List.foldl_cons, Nat.min_assoc, ih, List.foldl_cons]

theorem foldl_max_start (lens : List Nat) (first second : Nat) :
    lens.foldl max (max first second) = max first (lens.foldl max second) := by
  induction lens generalizing second with
  | nil => rfl
  | cons len rest ih => rw [List.foldl_cons, Nat.max_assoc, ih, List.foldl_cons]

theorem merge_ofList (first second : List Nat) :
    (Stats.ofList first).merge (Stats.ofList second) = Stats.ofList (first ++ second) := by
  have least : second.foldl min (first.foldl min 1000) =
      min (first.foldl min 1000) (second.foldl min 1000) := by
    rw [← foldl_min_start, Nat.min_eq_left (foldl_min_le first 1000)]
  have largest : second.foldl max (first.foldl max 0) =
      max (first.foldl max 0) (second.foldl max 0) := by
    rw [← foldl_max_start, Nat.max_zero]
  have smaller (x y : Nat) : (if y < x then y else x) = min x y := by
    split <;> omega
  have larger (x y : Nat) : (if x < y then y else x) = max x y := by
    split <;> omega
  simp only [ofList_eq, Stats.merge, Tally.merge_count, List.length_append, List.sum_append,
    List.foldl_append, UInt64.ofNat_add, least, largest, smaller, larger]

/-! What the fields say of the recorded list. -/

theorem foldl_attained {op : Nat → Nat → Nat} (picks : ∀ x y, op x y = x ∨ op x y = y)
    (list : List Nat) (start : Nat) : list.foldl op start = start ∨ list.foldl op start ∈ list := by
  induction list generalizing start with
  | nil => exact Or.inl rfl
  | cons len rest ih =>
      rw [List.foldl_cons]
      rcases ih (op start len) with stays | belongs
      · rw [stays]
        rcases picks start len with first | second
        · exact Or.inl first
        · exact Or.inr (by rw [second]; exact List.mem_cons_self)
      · exact Or.inr (List.mem_cons_of_mem len belongs)

theorem foldl_mem {op : Nat → Nat → Nat} (picks : ∀ x y, op x y = x ∨ op x y = y) {start : Nat}
    {lens : List Nat} (inhabited : lens ≠ []) (beaten : ∀ len ∈ lens, op start len = len) :
    lens.foldl op start ∈ lens := by
  cases lens with
  | nil => exact absurd rfl inhabited
  | cons len rest =>
      rw [List.foldl_cons, beaten len List.mem_cons_self]
      rcases foldl_attained picks rest len with stays | belongs
      · rw [stays]
        exact List.mem_cons_self
      · exact List.mem_cons_of_mem len belongs

theorem foldl_min_mem {lens : List Nat} {bound : Nat} (inhabited : lens ≠ [])
    (small : ∀ len ∈ lens, len ≤ bound) : lens.foldl min bound ∈ lens :=
  foldl_mem (fun x y => by omega) inhabited fun len member => Nat.min_eq_right (small len member)

theorem foldl_max_mem {lens : List Nat} (inhabited : lens ≠ []) : lens.foldl max 0 ∈ lens :=
  foldl_mem (fun x y => by omega) inhabited fun len _ => Nat.zero_max len

theorem foldl_min_lower {lens : List Nat} (bound : Nat) {len : Nat} (member : len ∈ lens) :
    lens.foldl min bound ≤ len := by
  obtain ⟨front, back, rfl⟩ := List.append_of_mem member
  rw [List.foldl_append, List.foldl_cons]
  exact (foldl_min_le back _).trans (Nat.min_le_right _ _)

theorem foldl_max_upper {lens : List Nat} (bound : Nat) {len : Nat} (member : len ∈ lens) :
    len ≤ lens.foldl max bound := by
  have grows (list : List Nat) (start : Nat) : start ≤ list.foldl max start := by
    induction list generalizing start with
    | nil => exact Nat.le_refl _
    | cons x rest ih => exact (Nat.le_max_left start x).trans (ih (max start x))
  obtain ⟨front, back, rfl⟩ := List.append_of_mem member
  rw [List.foldl_append, List.foldl_cons]
  exact (Nat.le_max_right _ _).trans (grows back _)

def Stats.frequencies (s : Stats) : Nat := (s.lenFreq.toList.map fun entry => entry.2.toNat).sum

def Stats.weighted (s : Stats) : Nat :=
  (s.lenFreq.toList.map fun entry => entry.1 * entry.2.toNat).sum

section
variable {lens : List Nat} (few : lens.length < 2 ^ 64)
include few

theorem ofList_frequencies : (Stats.ofList lens).frequencies = lens.length := by
  have sum := @Tally.sum_toList_count Nat compare _ _ _ (fun _ => 1) lens few
  simp only [Nat.one_mul, List.map_const', List.sum_replicate, smul_eq_mul, Nat.mul_one] at sum
  rw [Stats.frequencies, ofList_eq, sum]

theorem ofList_weighted : (Stats.ofList lens).weighted = lens.sum := by
  have sum := @Tally.sum_toList_count Nat compare _ _ _ id lens few
  simp only [id, List.map_id] at sum
  rw [Stats.weighted, ofList_eq, sum]

theorem ofList_count : (Stats.ofList lens).count.toNat = lens.length := by
  rw [ofList_eq, UInt64.toNat_ofNat']
  exact Nat.mod_eq_of_lt few

end

theorem ofList_minKey {lens : List Nat} (inhabited : lens ≠ []) (small : ∀ len ∈ lens, len ≤ 1000) :
    (Stats.ofList lens).lenFreq.minKey? = some (Stats.ofList lens).minLen := by
  rw [ofList_eq, Std.ExtTreeMap.minKey?_eq_some_iff_mem_and_forall]
  constructor
  · exact Tally.mem_count.mpr (foldl_min_mem inhabited small)
  · intro len member
    rw [Nat.isLE_compare]
    exact foldl_min_lower 1000 (Tally.mem_count.mp member)

theorem ofList_maxKey {lens : List Nat} (inhabited : lens ≠ []) :
    (Stats.ofList lens).lenFreq.maxKey? = some (Stats.ofList lens).maxLen := by
  rw [ofList_eq, Std.ExtTreeMap.maxKey?_eq_some_iff_mem_and_forall]
  constructor
  · exact Tally.mem_count.mpr (foldl_max_mem inhabited)
  · intro len member
    rw [Nat.isLE_compare]
    exact foldl_max_upper 0 (Tally.mem_count.mp member)

/-! The lengths of one key. -/

theorem shuffleLoop_perm (count : Nat) (s : UInt32) (deck : List Nat) :
    (shuffleLoop count s deck).Perm deck := by
  induction count generalizing s deck with
  | zero => exact List.Perm.refl _
  | succ i ih => exact (ih _ _).trans (ListHeap.swap_perm deck _ _)

theorem shuffleDeck_perm (s : UInt32) : (shuffleDeck s).Perm (List.range 36) := shuffleLoop_perm _ _ _

theorem exists_pokerLoop {dA dB : List Nat} (permA : dA.Perm (List.range 36))
    (permB : dB.Perm (List.range 36)) (i prev : Nat) (text : List Char) :
    ∃ out, pokerLoop dA dB i prev text = some out ∧ OverCharset out ∧ out.length = text.length := by
  induction text generalizing i prev with
  | nil => exact ⟨[], rfl, by simp [OverCharset], rfl⟩
  | cons c rest ih =>
      have deckPerm : (if i % 2 = 0 then dA else dB).Perm (List.range 36) := by
        split
        · exact permA
        · exact permB
      have bound : (idxOf c + (i + 1 + prev) % 36) % 36 < 36 := Nat.mod_lt _ (by decide)
      have found := Scheme.perm_getElem? deckPerm bound
      have small := Scheme.perm_getD_lt deckPerm bound
      generalize (if i % 2 = 0 then dA else dB).getD ((idxOf c + (i + 1 + prev) % 36) % 36) 0 = oi
        at found small
      obtain ⟨tail, spelled, inCharset, size⟩ := ih (i + 1) oi
      refine ⟨chr oi :: tail, ?_, ?_, ?_⟩
      · simp only [pokerLoop, found, Option.bind_eq_bind, Option.bind_some, charset_get small,
          spelled, Option.pure_def]
      · intro d member
        rcases List.mem_cons.mp member with rfl | later
        · exact chr_mem small
        · exact inCharset d later
      · rw [List.length_cons, size, List.length_cons]

theorem exists_afterPoker (plaintext key : List Char) :
    ∃ poker, afterPoker plaintext key = some poker ∧ OverCharset poker ∧
      poker.length = plaintext.length :=
  exists_pokerLoop (shuffleDeck_perm _) (shuffleDeck_perm _) _ _ _

theorem exists_codeLengths (sha : Sha256) (seed : Treeforce.Seed256) {text : List Char}
    (inCharset : OverCharset text) :
    ∃ len, codeLengths sha seed text = some len ∧ 2 * text.length ≤ len ∧ len ≤ 22 * text.length := by
  induction text generalizing seed with
  | nil => exact ⟨0, rfl, by simp, by simp⟩
  | cons c rest ih =>
      obtain ⟨i, small, rfl⟩ := exists_chr (inCharset c List.mem_cons_self)
      obtain ⟨tail, measured, low, high⟩ :=
        ih (seed.update sha (chr i)) fun d member => inCharset d (List.mem_cons_of_mem _ member)
      have coded := Treeforce.encodeCharFast_eq seed small
      have bounds := Scheme.code_length_bounds seed.value small
      refine ⟨(Scheme.code seed.value i).length + tail, ?_, ?_, ?_⟩
      · simp only [codeLengths, coded, measured, Option.bind_eq_bind, Option.bind_some,
          Option.pure_def, List.length_map]
      · rw [List.length_cons]
        omega
      · rw [List.length_cons]
        omega

theorem allPerms_length : allPerms.length = 24 := by decide

theorem allPerms_places {perm : List Nat} (member : perm ∈ allPerms) :
    perm.length = 4 ∧ ∀ place ∈ perm, place < 4 := by
  revert perm
  decide

theorem exists_permLength (sha : Sha256) {poker : List Char} (inCharset : OverCharset poker)
    (size : poker.length = 4) (base : UInt64) {perm : List Nat} (member : perm ∈ allPerms) :
    ∃ len, permLength sha poker base perm = some len ∧ 8 ≤ len ∧ len ≤ 88 := by
  obtain ⟨permSize, places⟩ := allPerms_places member
  have inside : ∀ i ∈ List.range poker.length,
      ∃ c, (do let place ← perm[i]?; poker[place]?) = some c ∧ c ∈ charset := by
    intro i member
    have bound : i < perm.length := by
      rw [permSize, ← size]
      exact List.mem_range.mp member
    have placeBound : perm[i] < poker.length := by
      rw [size]
      exact places _ (List.getElem_mem bound)
    exact ⟨poker[perm[i]], by simp [bound, placeBound], inCharset _ (List.getElem_mem placeBound)⟩
  obtain ⟨text, arranged, textOver, textSize⟩ := Loops.exists_mapM (fun c => c ∈ charset) _ inside
  rw [List.length_range, size] at textSize
  obtain ⟨len, measured, low, high⟩ := exists_codeLengths sha
    ⟨#v[0, 0, 0, 0, 0, 0, 0, base.toUInt32]⟩ (show OverCharset text from textOver)
  refine ⟨len, ?_, by omega, by omega⟩
  rw [permLength, arranged]
  exact measured

def permLengths (sha : Sha256) (poker : List Char) (base : UInt64) (perms : List (List Nat)) :
    List Nat :=
  perms.map fun perm => (permLength sha poker base perm).getD 0

def keyLengths (sha : Sha256) (plaintext key : List Char) : List Nat :=
  permLengths sha ((afterPoker plaintext key).getD []) (seedBase key) allPerms

section
variable (sha : Sha256) {plaintext : List Char} (size : plaintext.length = 4)
include size

theorem keyLengths_bounds (key : List Char) :
    (keyLengths sha plaintext key).length = 24 ∧
      ∀ len ∈ keyLengths sha plaintext key, 8 ≤ len ∧ len ≤ 88 := by
  obtain ⟨poker, substituted, inCharset, pokerSize⟩ := exists_afterPoker plaintext key
  refine ⟨by rw [keyLengths, permLengths, List.length_map, allPerms_length], ?_⟩
  intro len member
  rw [keyLengths, substituted, Option.getD_some, permLengths, List.mem_map] at member
  obtain ⟨perm, listed, rfl⟩ := member
  obtain ⟨len, measured, bounds⟩ := exists_permLength sha inCharset (pokerSize.trans size) (seedBase key) listed
  rw [measured]
  exact bounds

theorem permLength_eq {poker key : List Char} (substituted : afterPoker plaintext key = some poker)
    {perm : List Nat} (member : perm ∈ allPerms) :
    permLength sha poker (seedBase key) perm =
      some ((permLength sha poker (seedBase key) perm).getD 0) := by
  obtain ⟨other, again, inCharset, pokerSize⟩ := exists_afterPoker plaintext key
  rw [substituted, Option.some.injEq] at again
  subst other
  obtain ⟨len, measured, _⟩ := exists_permLength sha inCharset (pokerSize.trans size) (seedBase key) member
  rw [measured]
  rfl

theorem measureKey_eq (key : List Char) (lens : List Nat) :
    measureKey sha plaintext key (Stats.ofList lens) =
      some (Stats.ofList (lens ++ keyLengths sha plaintext key)) := by
  obtain ⟨poker, substituted, _⟩ := exists_afterPoker plaintext key
  have loop (perms : List (List Nat)) (known : ∀ perm ∈ perms, perm ∈ allPerms) (lens : List Nat) :
      perms.foldlM (fun (stats : Stats) perm => do
        let len ← permLength sha poker (seedBase key) perm
        return stats.record len) (Stats.ofList lens) =
      some (Stats.ofList (lens ++ permLengths sha poker (seedBase key) perms)) := by
    induction perms generalizing lens with
    | nil => simp [permLengths]
    | cons perm rest ih =>
        have measured := permLength_eq sha size substituted (known perm List.mem_cons_self)
        rw [List.foldlM_cons, measured]
        simp only [Option.bind_eq_bind, Option.bind_some, Option.pure_def, ofList_append_one]
        simp only [Option.pure_def, Option.bind_eq_bind] at ih
        rw [ih (fun p member => known p (List.mem_cons_of_mem perm member))]
        simp [permLengths]
  rw [measureKey, substituted, keyLengths, substituted]
  exact loop allPerms (fun _ member => member) lens

def lengthsOf (sha : Sha256) (plaintext : List Char) (keyLength : Nat) (numbers : List Nat) : List Nat :=
  numbers.flatMap fun number => keyLengths sha plaintext (key keyLength number)

end

end CudaOpenMp.TreeforceSearch
