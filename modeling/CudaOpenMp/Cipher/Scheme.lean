import CudaOpenMp.Cipher.Charset
import CudaOpenMp.Library.Numeral
import CudaOpenMp.Library.HuffmanTree
import CudaOpenMp.Library.ListHeap
import Mathlib.Data.Nat.Prime.Basic
import Mathlib.Tactic.NormNum.Prime
import Mathlib.Tactic.Ring

/-!
The two-round cipher on alphabet indices and natural numbers, without words, buffers or
heaps: a chained substitution through two shuffled decks, a keyed rearrangement and an
adaptive prefix code. The programs are compared with this description.
-/

namespace CudaOpenMp.Scheme

open HuffmanTree

def lcg (state : Nat) : Nat := (state * 1664525 + 1013904223) % 2 ^ 32

def shuffleFrom : Nat → Nat → List Nat → List Nat
  | 0, _, deck => deck
  | i + 1, state, deck => shuffleFrom i (lcg state) (ListHeap.swap deck i (lcg state % (i + 1)))

def shuffle (seed : Nat) : List Nat := shuffleFrom 36 (seed % 2 ^ 32) (List.range 36)

def substitute (deckA deckB : List Nat) : Nat → Nat → List Nat → List Nat
  | _, _, [] => []
  | i, prev, c :: rest =>
      let deck := if i % 2 = 0 then deckA else deckB
      let out := deck.getD ((c + (i + 1 + prev) % 36) % 36) 0
      out :: substitute deckA deckB (i + 1) out rest

def sortKeys : Nat → Nat → List Nat
  | 0, _ => []
  | count + 1, state => lcg state % 10000 :: sortKeys count (lcg state)

/-- Positions in stable order of their sort keys. -/
def order (keys : List Nat) : List Nat :=
  (List.range keys.length).mergeSort fun a b => keys.getD a 0 ≤ keys.getD b 0

def rearrange {α : Type} (positions : List Nat) (text : List α) : List α :=
  positions.filterMap fun i => text[i]?

def permute {α : Type} (seed : Nat) (text : List α) : List α :=
  rearrange (order (sortKeys text.length (seed % 2 ^ 32))) text

def leafScore (seed c : Nat) : Nat := ((c + 1) * seed + 17) % 997

def leafItem (seed c : Nat) : Item Nat := ⟨leafScore seed c, c, .leaf c⟩

def sortedLeaves (seed : Nat) : Nat → List (Item Nat)
  | 0 => []
  | count + 1 => insert (leafItem seed count) (sortedLeaves seed count)

def codeTree (seed : Nat) : HuffmanTree.Tree Nat :=
  match combine 36 (sortedLeaves seed 36) with
  | some root => root.tree
  | none => .leaf 0

def code (seed c : Nat) : List Nat := (((codeTree seed).code c).getD []).map Bool.toNat

def encode (update : Nat → Nat → Nat) : Nat → List Nat → List Nat
  | _, [] => []
  | seed, c :: rest => code seed c ++ encode update (update seed c) rest

def decimal (value : Nat) : List UInt8 := (Nat.toDigits 10 value).map fun c => c.toNat.toUInt8

def update (sha : Sha256) (seed c : Nat) : Nat :=
  BigEndian.value (sha (decimal (seed ^^^ ord c))).toList

def seedMaster (key : List Nat) : Nat := key.foldl (fun seed i => seed * 36 + i) 0

def initialSeed (key : List Nat) (roundNum : Nat) : Nat :=
  (key.map ord).sum + (82 + (47 + roundNum)) + 1

def round (sha : Sha256) (key : List Nat) (roundNum : Nat) (text : List Nat) : List Nat :=
  let master := seedMaster key
  let deckA := shuffle (master ^^^ 0x1111 * roundNum)
  let deckB := shuffle (master ^^^ 0x2222 * roundNum)
  let substituted := substitute deckA deckB 0 (master % 36) text
  encode (update sha) (initialSeed key roundNum)
    (permute (master ^^^ 0x3333 * roundNum) substituted)

def encrypt (sha : Sha256) (key text : List Nat) : List Nat :=
  round sha key 2 (round sha key 1 text)

theorem shuffleFrom_perm (count state : Nat) (deck : List Nat) :
    (shuffleFrom count state deck).Perm deck := by
  induction count generalizing state deck with
  | zero => exact List.Perm.refl _
  | succ i ih => exact (ih _ _).trans (ListHeap.swap_perm deck _ _)

theorem shuffle_perm (seed : Nat) : (shuffle seed).Perm (List.range 36) := shuffleFrom_perm _ _ _

@[simp] theorem shuffle_length (seed : Nat) : (shuffle seed).length = 36 := by
  simpa using (shuffle_perm seed).length_eq

theorem perm_getD_lt {deck : List Nat} (perm : deck.Perm (List.range 36)) {index : Nat}
    (bound : index < 36) : deck.getD index 0 < 36 := by
  have inside : index < deck.length := by simpa using perm.length_eq ▸ bound
  have member : deck[index] ∈ List.range 36 := perm.subset (List.getElem_mem inside)
  simpa [List.getD_eq_getElem?_getD, inside] using member

theorem perm_getElem? {deck : List Nat} (perm : deck.Perm (List.range 36)) {index : Nat}
    (bound : index < 36) : deck[index]? = some (deck.getD index 0) := by
  have inside : index < deck.length := by simpa using perm.length_eq ▸ bound
  simp [List.getD_eq_getElem?_getD, List.getElem?_eq_getElem inside]

theorem perm_getD_inj {deck : List Nat} (perm : deck.Perm (List.range 36)) {i j : Nat}
    (iBound : i < 36) (jBound : j < 36) (same : deck.getD i 0 = deck.getD j 0) : i = j := by
  have size : deck.length = 36 := by simpa using perm.length_eq
  have unique : deck.Nodup := perm.symm.nodup List.nodup_range
  have iInside : i < deck.length := by omega
  have jInside : j < deck.length := by omega
  simp only [List.getD_eq_getElem?_getD, List.getElem?_eq_getElem iInside,
    List.getElem?_eq_getElem jInside, Option.getD_some] at same
  exact (unique.getElem_inj_iff).mp same

@[simp] theorem substitute_length (deckA deckB : List Nat) (i prev : Nat) (text : List Nat) :
    (substitute deckA deckB i prev text).length = text.length := by
  induction text generalizing i prev with
  | nil => rfl
  | cons c rest ih => simp [substitute, ih]

theorem substitute_lt {deckA deckB : List Nat} (permA : deckA.Perm (List.range 36))
    (permB : deckB.Perm (List.range 36)) (i prev : Nat) (text : List Nat) :
    ∀ c ∈ substitute deckA deckB i prev text, c < 36 := by
  induction text generalizing i prev with
  | nil => simp [substitute]
  | cons c rest ih =>
      intro out member
      simp only [substitute, List.mem_cons] at member
      rcases member with first | later
      · have bound : (c + (i + 1 + prev) % 36) % 36 < 36 := Nat.mod_lt _ (by decide)
        rw [first]
        split
        · exact perm_getD_lt permA bound
        · exact perm_getD_lt permB bound
      · exact ih _ _ out later

theorem substitute_inj {deckA deckB : List Nat} (permA : deckA.Perm (List.range 36))
    (permB : deckB.Perm (List.range 36)) (i prev : Nat) {first second : List Nat}
    (firstSmall : ∀ c ∈ first, c < 36) (secondSmall : ∀ c ∈ second, c < 36)
    (same : substitute deckA deckB i prev first = substitute deckA deckB i prev second) :
    first = second := by
  induction first generalizing i prev second with
  | nil =>
      cases second with
      | nil => rfl
      | cons d others => simp [substitute] at same
  | cons c rest ih =>
      cases second with
      | nil => simp [substitute] at same
      | cons d others =>
          simp only [substitute, List.cons.injEq] at same
          obtain ⟨outSame, restSame⟩ := same
          have cBound := firstSmall c (by simp)
          have dBound := secondSmall d (by simp)
          have indexSame : (c + (i + 1 + prev) % 36) % 36 = (d + (i + 1 + prev) % 36) % 36 := by
            have cIndex : (c + (i + 1 + prev) % 36) % 36 < 36 := Nat.mod_lt _ (by decide)
            have dIndex : (d + (i + 1 + prev) % 36) % 36 < 36 := Nat.mod_lt _ (by decide)
            split at outSame
            · exact perm_getD_inj permA cIndex dIndex outSame
            · exact perm_getD_inj permB cIndex dIndex outSame
          have head : c = d := by omega
          rw [← outSame] at restSame
          have tail := ih _ _ (fun x member => firstSmall x (by simp [member]))
            (fun x member => secondSmall x (by simp [member])) restSame
          rw [head, tail]

/-! The rearrangement and the key. -/

@[simp] theorem sortKeys_length (count state : Nat) : (sortKeys count state).length = count := by
  induction count generalizing state with
  | zero => rfl
  | succ count ih => simp [sortKeys, ih]

theorem order_perm (keys : List Nat) : (order keys).Perm (List.range keys.length) :=
  List.mergeSort_perm _ _

theorem rearrange_range {α : Type} (text : List α) :
    rearrange (List.range text.length) text = text := by
  induction text with
  | nil => rfl
  | cons c rest ih =>
      rw [rearrange, List.length_cons, List.range_succ_eq_map, List.filterMap_cons,
        List.filterMap_map]
      simpa [rearrange, Function.comp_def] using ih

theorem mapM_getElem? {α : Type} (text : List α) {positions : List Nat}
    (inside : ∀ i ∈ positions, i < text.length) :
    positions.mapM (fun i => text[i]?) = some (rearrange positions text) := by
  induction positions with
  | nil => rfl
  | cons i rest ih =>
      have bound := inside i (by simp)
      have tail := ih fun j member => inside j (by simp [member])
      simp [rearrange, List.getElem?_eq_getElem bound, tail]

theorem rearrange_perm {α : Type} {positions : List Nat} {text : List α}
    (perm : positions.Perm (List.range text.length)) : (rearrange positions text).Perm text := by
  have moved : (rearrange positions text).Perm (rearrange (List.range text.length) text) :=
    perm.filterMap _
  rwa [rearrange_range] at moved

theorem rearrange_inj {α : Type} {positions : List Nat} {first second : List α}
    (perm : positions.Perm (List.range first.length)) (sameLength : first.length = second.length)
    (same : rearrange positions first = rearrange positions second) : first = second := by
  have pointwise : ∀ (places : List Nat), (∀ i ∈ places, i < first.length) →
      rearrange places first = rearrange places second → ∀ i ∈ places, first[i]? = second[i]? := by
    intro places
    induction places with
    | nil => simp
    | cons place rest ih =>
        intro inside equal i member
        have bound : place < first.length := inside place (by simp)
        have otherBound : place < second.length := by omega
        simp only [rearrange, List.filterMap_cons, List.getElem?_eq_getElem bound,
          List.getElem?_eq_getElem otherBound, List.cons.injEq] at equal
        rcases List.mem_cons.mp member with rfl | later
        · simp [bound, otherBound, equal.1]
        · exact ih (fun j belongs => inside j (by simp [belongs])) equal.2 i later
  apply List.ext_getElem?
  intro i
  by_cases inside : i < first.length
  · have member : i ∈ positions := perm.symm.subset (by simpa using inside)
    exact pointwise positions (fun j belongs => by simpa using perm.subset belongs) same i member
  · rw [List.getElem?_eq_none (by omega), List.getElem?_eq_none (by omega)]

theorem keyed_order_perm (count seed : Nat) :
    (order (sortKeys count (seed % 2 ^ 32))).Perm (List.range count) := by
  have places := order_perm (sortKeys count (seed % 2 ^ 32))
  rwa [sortKeys_length] at places

theorem permute_perm {α : Type} (seed : Nat) (text : List α) : (permute seed text).Perm text :=
  rearrange_perm (keyed_order_perm text.length seed)

@[simp] theorem permute_length {α : Type} (seed : Nat) (text : List α) :
    (permute seed text).length = text.length := (permute_perm seed text).length_eq

theorem permute_map (seed : Nat) (text : List Nat) :
    permute seed (text.map chr) = (permute seed text).map chr := by
  simp only [permute, rearrange, List.length_map, List.map_filterMap,
    List.getElem?_map]

theorem permute_inj {α : Type} {seed : Nat} {first second : List α}
    (sameLength : first.length = second.length) (same : permute seed first = permute seed second) :
    first = second := by
  rw [permute, permute, ← sameLength] at same
  exact rearrange_inj (keyed_order_perm first.length seed) sameLength same

theorem seedMaster_lt {key : List Nat} (small : ∀ i ∈ key, i < 36) :
    seedMaster key < 36 ^ key.length := by
  have folded (start : Nat) (digits : List Nat) (bounded : ∀ i ∈ digits, i < 36) :
      digits.foldl (fun seed i => seed * 36 + i) start < (start + 1) * 36 ^ digits.length := by
    induction digits generalizing start with
    | nil => simp
    | cons i rest ih =>
        have head := bounded i (by simp)
        have tail := ih (start * 36 + i) fun j member => bounded j (by simp [member])
        have step : (start * 36 + i + 1) * 36 ^ rest.length ≤
            (start + 1) * 36 * 36 ^ rest.length := Nat.mul_le_mul_right _ (by omega)
        rw [List.foldl_cons, List.length_cons, Nat.pow_succ, Nat.mul_comm (36 ^ rest.length),
          ← Nat.mul_assoc]
        omega
  have bound := folded 0 key small
  rwa [Nat.zero_add, Nat.one_mul] at bound

theorem foldl_mod {m first second : Nat} (digits : List Nat) (same : first % m = second % m) :
    digits.foldl (fun seed i => seed * 36 + i) first % m =
      digits.foldl (fun seed i => seed * 36 + i) second % m := by
  induction digits generalizing first second with
  | nil => exact same
  | cons i rest ih =>
      rw [List.foldl_cons, List.foldl_cons]
      apply ih
      rw [Nat.add_mod, Nat.mul_mod, same, ← Nat.mul_mod, ← Nat.add_mod]

/-! The code of a text. -/

theorem sortedLeaves_eq (seed count : Nat) :
    sortedLeaves seed count = arranged (leafScore seed) count := by
  induction count with
  | zero => rfl
  | succ count ih => rw [sortedLeaves, arranged, ih, leafItem, numbered]

theorem sortedLeaves_perm (seed count : Nat) :
    (sortedLeaves seed count).Perm ((List.range count).map (leafItem seed)) := by
  rw [sortedLeaves_eq]
  exact arranged_perm (leafScore seed) count

theorem sortedLeaves_fresh (seed count : Nat) : ∀ x ∈ sortedLeaves seed count, x.order < count := by
  rw [sortedLeaves_eq]
  exact arranged_fresh (leafScore seed) count

theorem sortedLeaves_sorted (seed count : Nat) : Sorted (sortedLeaves seed count) := by
  rw [sortedLeaves_eq]
  exact arranged_sorted (leafScore seed) count

theorem leaves_agenda (seed : Nat) :
    Agenda 36 ((List.range 36).map (leafItem seed)) (sortedLeaves seed 36) where
  perm := (sortedLeaves_perm seed 36).symm
  sorted := sortedLeaves_sorted seed 36
  fresh := sortedLeaves_fresh seed 36

theorem exists_root (seed : Nat) :
    ∃ root, combine 36 (sortedLeaves seed 36) = some root ∧ codeTree seed = root.tree := by
  have inhabited : sortedLeaves seed 36 ≠ [] := by
    intro empty
    have size := (sortedLeaves_perm seed 36).length_eq
    simp [empty] at size
  obtain ⟨root, built⟩ := exists_combine 36 (sortedLeaves seed 36) inhabited
  exact ⟨root, built, by rw [codeTree, built]⟩

theorem codeTree_leaves (seed : Nat) : (codeTree seed).leaves.Perm (List.range 36) := by
  obtain ⟨root, built, same⟩ := exists_root seed
  rw [same]
  refine (combine_leaves built).trans ?_
  refine ((sortedLeaves_perm seed 36).flatMap_right _).trans ?_
  rw [List.flatMap_map]
  simp [leafItem, Tree.leaves]

theorem leafScore_mod (seed c : Nat) : leafScore (seed % 997) c = leafScore seed c := by
  simp only [leafScore]
  rw [Nat.add_mod, Nat.mul_mod, Nat.mod_mod, ← Nat.mul_mod, ← Nat.add_mod]

theorem leafScore_lt (seed c : Nat) : leafScore seed c < 997 := Nat.mod_lt _ (by decide)

theorem leafScore_zero_unique {seed i j : Nat} (iBound : i < 36) (below : j < i)
    (iZero : leafScore seed i = 0) (jZero : leafScore seed j = 0) : False := by
  have iDivides : 997 ∣ (i + 1) * seed + 17 := Nat.dvd_of_mod_eq_zero iZero
  have jDivides : 997 ∣ (j + 1) * seed + 17 := Nat.dvd_of_mod_eq_zero jZero
  have prime : Nat.Prime 997 := by norm_num
  have gap : (i + 1) * seed + 17 - ((j + 1) * seed + 17) = (i - j) * seed := by
    rw [Nat.add_sub_add_right, ← Nat.sub_mul]
    congr 1
    omega
  have difference : 997 ∣ (i - j) * seed := gap ▸ Nat.dvd_sub iDivides jDivides
  rcases prime.dvd_mul.mp difference with small | seedDivides
  · have large := Nat.le_of_dvd (by omega) small
    omega
  · have constant : 997 ∣ 17 := (Nat.dvd_add_right (seedDivides.mul_left (j + 1))).mp jDivides
    exact absurd constant (by decide)

theorem leaves_balanced (seed : Nat) : Balanced (leafScore seed) (sortedLeaves seed 36) := by
  have listed : ∀ x ∈ sortedLeaves seed 36, ∃ c < 36, x = leafItem seed c := by
    intro x member
    have found := (sortedLeaves_perm seed 36).subset member
    simp only [List.mem_map, List.mem_range] at found
    obtain ⟨c, bound, rfl⟩ := found
    exact ⟨c, bound, rfl⟩
  refine ⟨?_, ?_, ?_⟩
  · intro x member
    obtain ⟨c, _, rfl⟩ := listed x member
    rfl
  · intro x member
    obtain ⟨c, _, rfl⟩ := listed x member
    exact Or.inl rfl
  · rw [(sortedLeaves_perm seed 36).pairwise_iff (fun apart => apart.symm), List.pairwise_map]
    have rising : (List.range 36).Pairwise fun i j => i < j ∧ j < 36 := by decide
    refine rising.imp ?_
    rintro i j ⟨below, bound⟩
    refine ⟨Nat.zero_le _, Nat.zero_le _, ?_⟩
    by_contra bothZero
    simp only [leafItem] at bothZero
    have iZero : leafScore seed i = 0 := by omega
    have jZero : leafScore seed j = 0 := by omega
    exact leafScore_zero_unique bound below jZero iZero

/-- No leaf carries a third of the total score, for any seed. -/
theorem leafScore_spread (seed : Nat) {c : Nat} (bound : c < 36) :
    3 * leafScore seed c < ((List.range 36).map (leafScore seed)).sum := by
  have front (residue : Nat) : ((List.range 12).map (leafScore residue)).sum ≤
      ((List.range 36).map (leafScore residue)).sum := by
    have pieces : List.range 36 = List.range 12 ++ List.range' 12 24 := rfl
    rw [pieces, List.map_append, List.sum_append]
    exact Nat.le_add_right _ _
  -- For most residues a dozen leaves already outweigh three of the largest possible score.
  have residues : ∀ residue < 997, 3 * 996 < ((List.range 12).map (leafScore residue)).sum ∨
      3 * ((List.range 36).map (leafScore residue)).foldr max 0 <
        ((List.range 36).map (leafScore residue)).sum := by decide +kernel
  have found := residues (seed % 997) (Nat.mod_lt seed (by decide))
  simp only [funext (leafScore_mod seed)] at found
  have largest : ∀ (scores : List Nat), ∀ x ∈ scores, x ≤ scores.foldr max 0 := by
    intro scores
    induction scores with
    | nil => simp
    | cons y rest ih =>
        intro x member
        simp only [List.foldr_cons]
        rcases List.mem_cons.mp member with rfl | later
        · exact Nat.le_max_left _ _
        · exact Nat.le_trans (ih x later) (Nat.le_max_right _ _)
  have below := largest ((List.range 36).map (leafScore seed)) (leafScore seed c)
    (List.mem_map.mpr ⟨c, List.mem_range.mpr bound, rfl⟩)
  have small := leafScore_lt seed c
  have total := front seed
  omega

theorem leaves_weight (seed : Nat) :
    (((List.range 36).map (leafItem seed)).map fun x => x.weight).sum =
      ((List.range 36).map (leafScore seed)).sum := by
  rw [List.map_map]
  rfl

theorem sortedLeaves_weight (seed : Nat) :
    ((sortedLeaves seed 36).map fun x => x.weight).sum =
      ((List.range 36).map (leafScore seed)).sum := by
  rw [((sortedLeaves_perm seed 36).map fun x => x.weight).sum_eq, leaves_weight]

theorem leafScore_sum_le (seed : Nat) :
    ((List.range 36).map (leafScore seed)).sum ≤ 35856 := by
  have each (count : Nat) : ((List.range count).map (leafScore seed)).sum ≤ 996 * count := by
    induction count with
    | zero => simp
    | succ count ih =>
        have last := leafScore_lt seed count
        rw [List.range_succ, List.map_append, List.sum_append]
        simp only [List.map_cons, List.map_nil, List.sum_cons, List.sum_nil]
        omega
  exact each 36

theorem codeTree_height (seed : Nat) : (codeTree seed).height < 23 := by
  obtain ⟨root, built, same⟩ := exists_root seed
  rw [same]
  refine combine_height_lt built (sortedLeaves_sorted seed 36) (sortedLeaves_fresh seed 36)
    (leaves_balanced seed) ?_ (by decide)
  have light := leafScore_sum_le seed
  have fib : Nat.fib 24 = 46368 := by decide +kernel
  rw [combine_weight built, sortedLeaves_weight, fib]
  omega

theorem codeTree_inner_children (seed : Nat) :
    ∃ a b c d, codeTree seed = .node (.node a b) (.node c d) := by
  obtain ⟨root, built, same⟩ := exists_root seed
  rw [same]
  refine combine_inner_children built (sortedLeaves_sorted seed 36) (sortedLeaves_fresh seed 36)
    (leaves_balanced seed) ?_ ?_
  · simp [(sortedLeaves_perm seed 36).length_eq]
  · intro x member label _
    have found := (sortedLeaves_perm seed 36).subset member
    simp only [List.mem_map, List.mem_range] at found
    obtain ⟨c, bound, rfl⟩ := found
    rw [sortedLeaves_weight]
    exact leafScore_spread seed bound

theorem exists_code {c : Nat} (seed : Nat) (bound : c < 36) :
    ∃ bits, (codeTree seed).code c = some bits := by
  apply Tree.exists_code
  exact (codeTree_leaves seed).symm.subset (List.mem_range.mpr bound)

theorem code_length_bounds {c : Nat} (seed : Nat) (bound : c < 36) :
    2 ≤ (code seed c).length ∧ (code seed c).length ≤ 22 := by
  obtain ⟨bits, found⟩ := exists_code seed bound
  have short := Tree.code_length_le_height found
  have height := codeTree_height seed
  obtain ⟨w, x, y, z, shape⟩ := codeTree_inner_children seed
  have long := Tree.two_le_code_length (shape ▸ found)
  simp only [code, found, Option.getD_some, List.length_map]
  omega

theorem code_bits (seed c : Nat) : ∀ b ∈ code seed c, b < 2 := by
  intro b member
  obtain ⟨bit, _, rfl⟩ := List.mem_map.mp member
  exact Bool.toNat_lt bit

theorem code_append_inj {seed c d : Nat} {first second : List Nat} (cBound : c < 36)
    (dBound : d < 36) (same : code seed c ++ first = code seed d ++ second) :
    c = d ∧ first = second := by
  obtain ⟨cBits, cFound⟩ := exists_code seed cBound
  obtain ⟨dBits, dFound⟩ := exists_code seed dBound
  -- Pad the shorter code with bits of the other text to read both as bit strings.
  simp only [code, cFound, dFound, Option.getD_some] at same
  have toBits (bits : List Bool) (rest : List Nat) :
      (bits.map Bool.toNat ++ rest).map (fun n => n == 1) =
        bits ++ rest.map (fun n => n == 1) := by
    rw [List.map_append, List.map_map]
    congr 1
    rw [← List.map_id bits, List.map_map]
    exact List.map_congr_left fun b _ => by cases b <;> rfl
  have bitsSame := congrArg (List.map fun n => n == 1) same
  rw [toBits, toBits] at bitsSame
  have labels := (Tree.code_append_inj cFound dFound bitsSame).1
  subst d
  rw [cFound, Option.some.injEq] at dFound
  subst dBits
  exact ⟨rfl, List.append_cancel_left same⟩

theorem encode_bits (next : Nat → Nat → Nat) (seed : Nat) (text : List Nat) :
    ∀ b ∈ encode next seed text, b < 2 := by
  induction text generalizing seed with
  | nil => simp [encode]
  | cons c rest ih =>
      intro b member
      rcases List.mem_append.mp member with first | later
      · exact code_bits seed c b first
      · exact ih _ b later

theorem encode_length_bounds (next : Nat → Nat → Nat) (seed : Nat) {text : List Nat}
    (small : ∀ c ∈ text, c < 36) :
    2 * text.length ≤ (encode next seed text).length ∧
      (encode next seed text).length ≤ 22 * text.length := by
  induction text generalizing seed with
  | nil => simp [encode]
  | cons c rest ih =>
      have head := code_length_bounds seed (small c (by simp))
      have tail := ih (next seed c) fun d member => small d (by simp [member])
      simp only [encode, List.length_append, List.length_cons]
      omega

theorem encode_inj {next : Nat → Nat → Nat} {seed : Nat} {first second : List Nat}
    (firstSmall : ∀ c ∈ first, c < 36) (secondSmall : ∀ c ∈ second, c < 36)
    (same : encode next seed first = encode next seed second) : first = second := by
  induction first generalizing seed second with
  | nil =>
      have long := (encode_length_bounds next seed secondSmall).1
      rw [← same] at long
      simp only [encode, List.length_nil] at long
      exact (List.length_eq_zero_iff.mp (by omega)).symm
  | cons c rest ih =>
      cases second with
      | nil =>
          have long := (encode_length_bounds next seed firstSmall).1
          rw [same] at long
          simp [encode] at long
      | cons d others =>
          simp only [encode] at same
          obtain ⟨rfl, tails⟩ := code_append_inj (firstSmall c (by simp))
            (secondSmall d (by simp)) same
          rw [ih (fun x member => firstSmall x (by simp [member]))
            (fun x member => secondSmall x (by simp [member])) tails]

/-! One round and the whole cipher. -/

theorem round_text_lt (seed a b start : Nat) (text : List Nat) :
    ∀ c ∈ permute seed (substitute (shuffle a) (shuffle b) 0 start text), c < 36 := by
  intro c member
  exact substitute_lt (shuffle_perm a) (shuffle_perm b) 0 start text c
    ((permute_perm seed _).subset member)

theorem round_bits (sha : Sha256) (key : List Nat) (roundNum : Nat) (text : List Nat) :
    ∀ b ∈ round sha key roundNum text, b < 36 := fun b member =>
  Nat.lt_of_lt_of_le (encode_bits _ _ _ b member) (by decide)

theorem round_length_bounds (sha : Sha256) (key : List Nat) (roundNum : Nat) (text : List Nat) :
    2 * text.length ≤ (round sha key roundNum text).length ∧
      (round sha key roundNum text).length ≤ 22 * text.length := by
  have bounds := encode_length_bounds (update sha) (initialSeed key roundNum)
    (round_text_lt (seedMaster key ^^^ 0x3333 * roundNum) (seedMaster key ^^^ 0x1111 * roundNum)
      (seedMaster key ^^^ 0x2222 * roundNum) (seedMaster key % 36) text)
  simpa [round] using bounds

theorem round_inj {sha : Sha256} {key : List Nat} {roundNum : Nat} {first second : List Nat}
    (firstSmall : ∀ c ∈ first, c < 36) (secondSmall : ∀ c ∈ second, c < 36)
    (same : round sha key roundNum first = round sha key roundNum second) : first = second := by
  have permuted := encode_inj (round_text_lt _ _ _ _ _) (round_text_lt _ _ _ _ _) same
  have sizes := congrArg List.length permuted
  simp only [permute_length, substitute_length] at sizes
  exact substitute_inj (shuffle_perm _) (shuffle_perm _) 0 _ firstSmall secondSmall
    (permute_inj (by simpa using sizes) permuted)

theorem encrypt_inj {sha : Sha256} {key first second : List Nat}
    (firstSmall : ∀ c ∈ first, c < 36) (secondSmall : ∀ c ∈ second, c < 36)
    (same : encrypt sha key first = encrypt sha key second) : first = second :=
  round_inj firstSmall secondSmall
    (round_inj (round_bits _ _ _ _) (round_bits _ _ _ _) same)

end CudaOpenMp.Scheme
