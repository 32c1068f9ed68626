import CudaOpenMp.Library.HuffmanTree
import Mathlib.InformationTheory.Coding.KraftMcMillan
import Mathlib.Tactic.Linarith
import Mathlib.Tactic.LinearCombination
import Mathlib.Tactic.Ring

/-!
Merging the two lightest items first is optimal. The exchange argument is on the lengths alone: no
assignment of lengths with a Kraft sum of at most one costs less, so no prefix-free code does.
-/

namespace HuffmanTree

variable {α : Type}

noncomputable def kraft (lens : List Nat) : ℝ := (lens.map fun len => (1 / 2 : ℝ) ^ len).sum

@[simp] theorem kraft_nil : kraft [] = 0 := rfl

@[simp] theorem kraft_cons (len : Nat) (lens : List Nat) :
    kraft (len :: lens) = (1 / 2) ^ len + kraft lens := by
  simp [kraft]

theorem kraft_perm {first second : List Nat} (perm : first.Perm second) :
    kraft first = kraft second := (perm.map _).sum_eq

theorem kraft_nonneg (lens : List Nat) : 0 ≤ kraft lens := by
  induction lens with
  | nil => exact le_refl 0
  | cons len rest ih =>
      have positive : (0 : ℝ) < (1 / 2) ^ len := by positivity
      rw [kraft_cons]
      linarith

/-- In units of the longest word the sum is a natural number. -/
theorem exists_units {lens : List Nat} {top : Nat} (short : ∀ len ∈ lens, len ≤ top) :
    ∃ units : Nat, kraft lens = units * (1 / 2) ^ top := by
  induction lens with
  | nil => exact ⟨0, by simp⟩
  | cons len rest ih =>
      obtain ⟨units, same⟩ := ih fun other member => short other (List.mem_cons_of_mem len member)
      obtain ⟨more, rfl⟩ := Nat.exists_eq_add_of_le (short len List.mem_cons_self)
      refine ⟨2 ^ more + units, ?_⟩
      have halved : (2 : ℝ) ^ more * (1 / 2) ^ more = 1 := by rw [← mul_pow]; norm_num
      rw [kraft_cons, same, pow_add]
      push_cast
      linear_combination -(1 / 2 : ℝ) ^ len * halved

/-- The longest word can be cut to the length of the second longest one. -/
theorem kraft_shorten {longest second : Nat} {rest : List Nat} (below : second ≤ longest)
    (short : ∀ len ∈ rest, len ≤ second) (bound : kraft (longest :: second :: rest) ≤ 1) :
    kraft (second :: second :: rest) ≤ 1 := by
  obtain ⟨units, same⟩ := @exists_units (second :: rest) second (by
    intro len member
    rcases List.mem_cons.mp member with rfl | later
    · exact Nat.le_refl _
    · exact short len later)
  have positive : (0 : ℝ) < (1 / 2) ^ second := by positivity
  have whole : (2 : ℝ) ^ second * (1 / 2) ^ second = 1 := by rw [← mul_pow]; norm_num
  have smaller : (units : ℝ) < 2 ^ second := by
    have extra : (0 : ℝ) < (1 / 2) ^ longest := by positivity
    rw [kraft_cons, same] at bound
    by_contra large
    have product := mul_le_mul_of_nonneg_right (not_lt.mp large) positive.le
    linarith
  have room : (units : ℝ) + 1 ≤ 2 ^ second := by exact_mod_cast smaller
  have product := mul_le_mul_of_nonneg_right room positive.le
  rw [kraft_cons, same]
  linarith

theorem kraft_join (len : Nat) (rest : List Nat) :
    kraft ((len + 1) :: (len + 1) :: rest) = kraft (len :: rest) := by
  simp only [kraft_cons, pow_succ]
  ring

def total (pairs : List (Item α × Nat)) : Nat := (pairs.map fun p => p.1.weight * p.2).sum

@[simp] theorem total_nil : total ([] : List (Item α × Nat)) = 0 := rfl

@[simp] theorem total_cons (p : Item α × Nat) (pairs : List (Item α × Nat)) :
    total (p :: pairs) = p.1.weight * p.2 + total pairs := by
  simp [total]

theorem total_perm {first second : List (Item α × Nat)} (perm : first.Perm second) :
    total first = total second := (perm.map _).sum_eq

theorem exchange_le {light heavy short long : Nat} (weights : light ≤ heavy) (lens : short ≤ long) :
    light * long + heavy * short ≤ light * short + heavy * long := by
  obtain ⟨extra, rfl⟩ := Nat.exists_eq_add_of_le weights
  obtain ⟨more, rfl⟩ := Nat.exists_eq_add_of_le lens
  ring_nf
  omega

/-- The lightest item can be given the longest word. -/
theorem exists_longest_first {x : Item α} (len : Nat) {others : List (Item α × Nat)}
    (lightest : ∀ p ∈ others, x.weight ≤ p.1.weight) :
    ∃ (longest : Nat) (after : List (Item α × Nat)), after.map Prod.fst = others.map Prod.fst ∧
      (∀ p ∈ after, p.2 ≤ longest) ∧
      (longest :: after.map Prod.snd).Perm (len :: others.map Prod.snd) ∧
      x.weight * longest + total after ≤ x.weight * len + total others := by
  induction others with
  | nil => exact ⟨len, [], rfl, by simp, List.Perm.refl _, Nat.le_refl _⟩
  | cons p rest ih =>
      obtain ⟨longest, after, same, bound, perm, cheaper⟩ :=
        ih fun q member => lightest q (List.mem_cons_of_mem p member)
      by_cases below : p.2 ≤ longest
      · refine ⟨longest, p :: after, by simp [same], ?_, ?_, by simp only [total_cons]; omega⟩
        · intro q member
          rcases List.mem_cons.mp member with rfl | later
          · exact below
          · exact bound q later
        · exact ((List.Perm.swap _ _ _).trans (perm.cons p.2)).trans (List.Perm.swap _ _ _)
      · refine ⟨p.2, (p.1, longest) :: after, by simp [same], ?_, ?_, ?_⟩
        · intro q member
          rcases List.mem_cons.mp member with rfl | later
          · exact Nat.le_of_not_le below
          · exact (bound q later).trans (Nat.le_of_not_le below)
        · exact (perm.cons p.2).trans (List.Perm.swap _ _ _)
        · have swapped := exchange_le (lightest p List.mem_cons_self) (Nat.le_of_not_le below)
          simp only [total_cons]
          omega

/-! The cost of a tree. -/

def Tree.cost (leafWeight : α → Nat) : Tree α → Nat
  | leaf _ => 0
  | node left right =>
      left.cost leafWeight + right.cost leafWeight +
        (left.weight leafWeight + right.weight leafWeight)

theorem exists_pairing {β : Type} {f : β → α} {list : List β} {x : α} {rest : List α}
    (perm : (list.map f).Perm (x :: rest)) :
    ∃ (y : β) (others : List β), f y = x ∧ list.Perm (y :: others) ∧ (others.map f).Perm rest := by
  obtain ⟨y, member, same⟩ := List.mem_map.mp (perm.symm.subset List.mem_cons_self)
  obtain ⟨front, back, rfl⟩ := List.append_of_mem member
  refine ⟨y, front ++ back, same, List.perm_middle, ?_⟩
  have moved := ((List.perm_middle.map f).symm.trans perm)
  rw [List.map_cons, same] at moved
  exact moved.cons_inv

/-- The words of a round: the two lightest items share the greatest length, and their join gets one
bit less. -/
theorem exists_joined_words {next : Nat} {a b : Item α} {rest : List (Item α)}
    (sorted : Sorted (a :: b :: rest)) {pairs : List (Item α × Nat)}
    (perm : (pairs.map Prod.fst).Perm (a :: b :: rest)) (bound : kraft (pairs.map Prod.snd) ≤ 1) :
    ∃ joined : List (Item α × Nat), (joined.map Prod.fst).Perm (a.join next b :: rest) ∧
      kraft (joined.map Prod.snd) ≤ 1 ∧ total joined + (a.weight + b.weight) ≤ total pairs := by
  obtain ⟨⟨x, lenA⟩, othersA, rfl, partsA, namesA⟩ := exists_pairing perm
  obtain ⟨⟨y, lenB⟩, othersB, rfl, partsB, namesB⟩ := exists_pairing namesA
  simp only [Sorted, List.pairwise_cons] at sorted
  obtain ⟨aBefore, bBefore, _⟩ := sorted
  have split : pairs.Perm ((x, lenA) :: (y, lenB) :: othersB) := partsA.trans (partsB.cons _)
  obtain ⟨longest, after, sameA, boundA, permA, cheaperA⟩ :=
    @exists_longest_first _ x lenA ((y, lenB) :: othersB) (by
      intro p member
      have listed : p.1 ∈ y :: rest :=
        namesA.subset (List.mem_map_of_mem (partsB.symm.subset member))
      exact (aBefore p.1 listed).weight_le)
  cases after with
  | nil => simp at sameA
  | cons q afterB =>
      obtain ⟨sameB, namesAfter⟩ := List.cons.inj sameA
      obtain ⟨second, final, sameF, boundF, permF, cheaperF⟩ :=
        @exists_longest_first _ y q.2 afterB (by
          intro p member
          have listed : p.1 ∈ rest := namesB.subset (namesAfter ▸ List.mem_map_of_mem member)
          exact (bBefore p.1 listed).weight_le)
      have below : second ≤ longest := by
        rcases List.mem_cons.mp (permF.subset List.mem_cons_self) with first | later
        · rw [first]
          exact boundA q List.mem_cons_self
        · obtain ⟨p, member, same⟩ := List.mem_map.mp later
          rw [← same]
          exact boundA p (List.mem_cons_of_mem q member)
      have lens : (longest :: second :: final.map Prod.snd).Perm (pairs.map Prod.snd) :=
        ((permF.cons longest).trans permA).trans (split.map Prod.snd).symm
      have shortened : kraft (second :: second :: final.map Prod.snd) ≤ 1 := by
        refine kraft_shorten below ?_ (by rwa [kraft_perm lens])
        intro len member
        obtain ⟨p, listed, rfl⟩ := List.mem_map.mp member
        exact boundF p listed
      cases second with
      | zero =>
          have rest := kraft_nonneg (final.map Prod.snd)
          simp only [kraft_cons, pow_zero] at shortened
          linarith
      | succ len =>
          rw [kraft_join] at shortened
          refine ⟨(x.join next y, len) :: final, ?_, shortened, ?_⟩
          · rw [List.map_cons, sameF, namesAfter]
            exact namesB.cons _
          · have cost := total_perm split
            have cut := Nat.mul_le_mul_left x.weight below
            have joined : (x.weight + y.weight) * len + (x.weight + y.weight) =
                x.weight * (len + 1) + y.weight * (len + 1) := by ring
            simp only [total_cons, sameB, Item.join] at cost cheaperA cheaperF ⊢
            omega

/-- The built tree costs no more than the items with any words of a Kraft sum of at most one. -/
theorem combine_cost_le {leafWeight : α → Nat} {next : Nat} {items : List (Item α)} {root : Item α}
    (built : combine next items = some root) (sorted : Sorted items)
    (fresh : ∀ x ∈ items, x.order < next)
    (weights : ∀ x ∈ items, x.weight = x.tree.weight leafWeight) {pairs : List (Item α × Nat)}
    (perm : (pairs.map Prod.fst).Perm items) (bound : kraft (pairs.map Prod.snd) ≤ 1) :
    root.tree.cost leafWeight ≤ (items.map fun x => x.tree.cost leafWeight).sum + total pairs := by
  revert weights perm bound pairs
  apply @combine_rounds _ root (fun _ items => (∀ x ∈ items, x.weight = x.tree.weight leafWeight) →
      ∀ {pairs : List (Item α × Nat)}, (pairs.map Prod.fst).Perm items →
        kraft (pairs.map Prod.snd) ≤ 1 →
        root.tree.cost leafWeight ≤
          (items.map fun x => x.tree.cost leafWeight).sum + total pairs)
    _ _ next items built sorted fresh
  · intro next weights pairs perm bound
    simp
  · intro next a b rest sorted _ ih weights pairs perm bound
    obtain ⟨joined, names, kraftBound, cheaper⟩ := @exists_joined_words _ next _ _ _ sorted _ perm bound
    have inserted := insert_perm (a.join next b) rest
    have aWeight := weights a (by simp)
    have bWeight := weights b (by simp)
    have shorter := ih
      (by
        intro x member
        rcases List.mem_cons.mp (inserted.subset member) with rfl | later
        · simp only [Item.join, Tree.weight, aWeight, bWeight]
        · exact weights x (by simp [later]))
      (names.trans inserted.symm) kraftBound
    rw [(inserted.map _).sum_eq] at shorter
    simp only [List.map_cons, List.sum_cons, Item.join, Tree.cost] at shorter ⊢
    omega

/-! The words of a tree. -/

theorem Tree.height_lt (tree : Tree α) : tree.height < tree.leaves.length := by
  induction tree with
  | leaf _ => simp [height, leaves]
  | node left right ihLeft ihRight =>
      simp only [height, leaves, List.length_append]
      omega

theorem Tree.weight_eq (leafWeight : α → Nat) (tree : Tree α) :
    tree.weight leafWeight = (tree.leaves.map leafWeight).sum := by
  induction tree with
  | leaf _ => simp [weight, leaves]
  | node left right ihLeft ihRight => simp [weight, leaves, ihLeft, ihRight]

def Tree.codeLength [DecidableEq α] (tree : Tree α) (label : α) : Nat :=
  ((tree.code label).getD []).length

theorem Tree.cost_eq [DecidableEq α] (leafWeight : α → Nat) {tree : Tree α}
    (unique : tree.leaves.Nodup) :
    tree.cost leafWeight =
      (tree.leaves.map fun label => leafWeight label * tree.codeLength label).sum := by
  induction tree with
  | leaf label => simp [cost, leaves, codeLength, code]
  | node left right ihLeft ihRight =>
      obtain ⟨leftUnique, rightUnique, apart⟩ := List.nodup_append.mp unique
      have onLeft : (left.leaves.map fun label =>
          leafWeight label * (node left right).codeLength label) =
            left.leaves.map fun label => leafWeight label * left.codeLength label + leafWeight label := by
        apply List.map_congr_left
        intro label member
        obtain ⟨bits, found⟩ := exists_code member
        simp [codeLength, code, found, Nat.mul_add]
      have onRight : (right.leaves.map fun label =>
          leafWeight label * (node left right).codeLength label) =
            right.leaves.map fun label =>
              leafWeight label * right.codeLength label + leafWeight label := by
        apply List.map_congr_left
        intro label member
        obtain ⟨bits, found⟩ := exists_code member
        have missing : left.code label = none := by
          rw [← Option.not_isSome_iff_eq_none, code_isSome_iff]
          exact fun inLeft => apart label inLeft label member rfl
        simp [codeLength, code, found, missing, Nat.mul_add]
      rw [cost, leaves, List.map_append, List.sum_append, onLeft, onRight, List.sum_map_add,
        List.sum_map_add, ihLeft leftUnique, ihRight rightUnique, weight_eq, weight_eq]
      omega

theorem Tree.code_ne_nil [DecidableEq α] {tree : Tree α} {label : α} {bits : List Bool}
    (several : 2 ≤ tree.leaves.length) (found : tree.code label = some bits) : bits ≠ [] := by
  cases tree with
  | leaf other => simp [leaves] at several
  | node left right =>
      simp only [code] at found
      split at found
      · rw [← Option.some.inj found]
        exact List.cons_ne_nil _ _
      · obtain ⟨path, _, rfl⟩ := Option.map_eq_some_iff.mp found
        exact List.cons_ne_nil _ _

/-- No word of a label begins the word of another one. -/
def PrefixFree {β : Type} (words : α → List β) (labels : List α) : Prop :=
  ∀ x ∈ labels, ∀ y ∈ labels, words x <+: words y → x = y

theorem PrefixFree.ne_nil {β : Type} {words : α → List β} {labels : List α}
    (free : PrefixFree words labels) (unique : labels.Nodup) (several : 2 ≤ labels.length) :
    ∀ x ∈ labels, words x ≠ [] := by
  intro x member empty
  have all : ∀ y ∈ labels, y = x := fun y other =>
    (free x member y other (by rw [empty]; exact List.nil_prefix)).symm
  have equal := List.eq_replicate_of_mem all
  rw [equal, List.nodup_replicate] at unique
  omega

theorem PrefixFree.uniquelyDecodable {β : Type} {words : α → List β} {labels : List α}
    (free : PrefixFree words labels) (unique : labels.Nodup) (several : 2 ≤ labels.length) :
    InformationTheory.UniquelyDecodable {word | word ∈ labels.map words} := by
  have inhabited : ∀ word ∈ labels.map words, word ≠ [] := by
    intro word member
    obtain ⟨x, listed, rfl⟩ := List.mem_map.mp member
    exact free.ne_nil unique several x listed
  intro first
  induction first with
  | nil =>
      intro second _ known same
      cases second with
      | nil => rfl
      | cons word rest =>
          have empty := (List.append_eq_nil_iff.mp same.symm).1
          exact absurd empty (inhabited word (known word List.mem_cons_self))
  | cons word rest ih =>
      intro second knownFirst known same
      have wordKnown := knownFirst word List.mem_cons_self
      cases second with
      | nil => exact absurd (List.append_eq_nil_iff.mp same).1 (inhabited word wordKnown)
      | cons other more =>
          have otherKnown := known other List.mem_cons_self
          have equal : word = other := by
            obtain ⟨x, xListed, rfl⟩ := List.mem_map.mp wordKnown
            obtain ⟨y, yListed, rfl⟩ := List.mem_map.mp otherKnown
            have start : words x <+: (words y :: more).flatten := same ▸ List.prefix_append _ _
            rcases List.prefix_or_prefix_of_prefix start (List.prefix_append _ _) with less | less
            · rw [free x xListed y yListed less]
            · rw [free y yListed x xListed less]
          subst equal
          rw [ih more (fun w member => knownFirst w (List.mem_cons_of_mem _ member))
            (fun w member => known w (List.mem_cons_of_mem _ member))
            (List.append_cancel_left same)]

theorem kraft_of_prefixFree {words : α → List Bool} {labels : List α}
    (free : PrefixFree words labels) (unique : labels.Nodup) (several : 2 ≤ labels.length) :
    kraft (labels.map fun x => (words x).length) ≤ 1 := by
  have distinct : (labels.map words).Nodup := by
    refine List.Nodup.map_on ?_ unique
    intro x xListed y yListed same
    exact free x xListed y yListed (same ▸ List.prefix_refl _)
  have decodable : InformationTheory.UniquelyDecodable ((labels.map words).toFinset : Set (List Bool)) := by
    have whole := free.uniquelyDecodable unique several
    simpa using whole
  have bound := InformationTheory.kraft_mcmillan_inequality decodable
  rw [List.sum_toFinset _ distinct, List.map_map] at bound
  simpa [kraft, Function.comp_def] using bound

/-- The codes of the built tree cost no more than any prefix-free words for its labels. -/
theorem combine_optimal [DecidableEq α] {leafWeight order : α → Nat} {next : Nat}
    {items : List (Item α)} {root : Item α} {labels : List α} (built : combine next items = some root)
    (agenda : Agenda next (labels.map fun x => ⟨leafWeight x, order x, .leaf x⟩) items)
    (unique : labels.Nodup) (several : 2 ≤ labels.length) {words : α → List Bool}
    (free : PrefixFree words labels) :
    (labels.map fun x => leafWeight x * root.tree.codeLength x).sum ≤
      (labels.map fun x => leafWeight x * (words x).length).sum := by
  have leaves : root.tree.leaves.Perm labels := by
    refine (combine_leaves built).trans ((agenda.perm.symm.flatMap_right _).trans ?_)
    simp [List.flatMap_map, Tree.leaves]
  have listed : ∀ x ∈ items, ∃ label, x = ⟨leafWeight label, order label, .leaf label⟩ := by
    intro x member
    obtain ⟨label, _, rfl⟩ := List.mem_map.mp (agenda.perm.symm.subset member)
    exact ⟨label, rfl⟩
  have flat : (items.map fun x => x.tree.cost leafWeight).sum = 0 := by
    rw [List.sum_eq_zero_iff]
    intro cost member
    obtain ⟨x, inItems, rfl⟩ := List.mem_map.mp member
    obtain ⟨label, rfl⟩ := listed x inItems
    rfl
  have bound := @combine_cost_le α leafWeight next items root built agenda.sorted agenda.fresh
    (by
      intro x member
      obtain ⟨label, rfl⟩ := listed x member
      rfl)
    (labels.map fun x => (⟨leafWeight x, order x, .leaf x⟩, (words x).length))
    (by
      rw [List.map_map]
      exact agenda.perm)
    (by
      rw [List.map_map]
      exact kraft_of_prefixFree free unique several)
  rw [flat, Nat.zero_add, total, List.map_map, Tree.cost_eq leafWeight (leaves.symm.nodup unique),
    (leaves.map _).sum_eq] at bound
  exact bound

end HuffmanTree
