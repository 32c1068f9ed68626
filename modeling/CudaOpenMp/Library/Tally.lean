import Mathlib.Algebra.BigOperators.Group.Finset.Basic
import Mathlib.Algebra.Group.Action.Defs
import Mathlib.Algebra.GroupWithZero.Nat
import Mathlib.Data.List.Dedup

/-!
Tables that count how often each key occurs, with 64-bit counts. Counting a list in two
parts and merging the tables is counting it in one.
-/

namespace Tally

variable {κ : Type} {cmp : κ → κ → Ordering} [Std.TransCmp cmp]

abbrev Table (κ : Type) (cmp : κ → κ → Ordering) := Std.ExtTreeMap κ UInt64 cmp

def add (t : Table κ cmp) (key : κ) (amount : UInt64) : Table κ cmp :=
  t.alter key fun old => some (old.getD 0 + amount)

def count (keys : List κ) : Table κ cmp := keys.foldl (fun t key => add t key 1) ∅

def merge (t other : Table κ cmp) : Table κ cmp :=
  other.foldl (fun t key amount => add t key amount) t

theorem toList_distinct (t : Table κ cmp) : t.toList.Pairwise fun a b => a.1 ≠ b.1 := by
  apply t.distinct_keys_toList.imp
  intro a b apart same
  exact apart (by rw [same]; exact Std.ReflCmp.compare_self)

section
variable [Std.LawfulEqCmp cmp] [DecidableEq κ]

theorem getElem?_add (t : Table κ cmp) (key other : κ) (amount : UInt64) :
    (add t key amount)[other]? =
      if key = other then some (t[other]?.getD 0 + amount) else t[other]? := by
  rw [add, Std.ExtTreeMap.getElem?_alter]
  by_cases same : key = other
  · subst other
    simp
  · rw [if_neg same, if_neg (mt Std.LawfulEqCmp.eq_of_compare same)]

theorem getElem?_foldl_add (keys : List κ) (t : Table κ cmp) (key : κ) :
    (keys.foldl (fun t key => add t key 1) t)[key]? =
      if keys.count key = 0 then t[key]?
      else some (t[key]?.getD 0 + UInt64.ofNat (keys.count key)) := by
  induction keys generalizing t with
  | nil => simp
  | cons first rest ih =>
      rw [List.foldl_cons, ih, getElem?_add, List.count_cons]
      by_cases same : first = key
      · subst key
        by_cases last : rest.count first = 0
        · simp [last]
        · have turn : UInt64.ofNat (rest.count first) + 1 = 1 + UInt64.ofNat (rest.count first) :=
            UInt64.add_comm _ _
          simp [last, UInt64.ofNat_add, UInt64.add_assoc, turn]
      · simp [same]

theorem getElem?_count (keys : List κ) (key : κ) :
    (count keys : Table κ cmp)[key]? =
      if keys.count key = 0 then none else some (UInt64.ofNat (keys.count key)) := by
  rw [count, getElem?_foldl_add]
  simp

theorem getElem?_foldl_entries (entries : List (κ × UInt64)) (t : Table κ cmp)
    (distinct : entries.Pairwise fun a b => a.1 ≠ b.1) (key : κ) :
    (∀ amount, (key, amount) ∈ entries →
      (entries.foldl (fun t e => add t e.1 e.2) t)[key]? = some (t[key]?.getD 0 + amount)) ∧
      ((∀ amount, (key, amount) ∉ entries) →
        (entries.foldl (fun t e => add t e.1 e.2) t)[key]? = t[key]?) := by
  induction entries generalizing t with
  | nil => simp
  | cons first rest ih =>
      obtain ⟨apart, later⟩ := List.pairwise_cons.mp distinct
      obtain ⟨present, absent⟩ := ih (add t first.1 first.2) later
      simp only [List.foldl_cons]
      constructor
      · intro amount member
        rcases List.mem_cons.mp member with rfl | inRest
        · rw [absent fun other belongs => apart _ belongs rfl, getElem?_add, if_pos rfl]
        · rw [present amount inRest, getElem?_add, if_neg (apart _ inRest)]
      · intro missing
        have other : first.1 ≠ key := by
          rintro rfl
          exact missing first.2 (by simp)
        rw [absent fun amount belongs => missing amount (List.mem_cons_of_mem _ belongs),
          getElem?_add, if_neg other]

theorem getElem?_merge (t other : Table κ cmp) (key : κ) :
    (merge t other)[key]? =
      match other[key]? with
      | none => t[key]?
      | some amount => some (t[key]?.getD 0 + amount) := by
  rw [merge, Std.ExtTreeMap.foldl_eq_foldl_toList]
  obtain ⟨present, absent⟩ := getElem?_foldl_entries other.toList t (toList_distinct other) key
  cases found : other[key]? with
  | none =>
      apply absent
      intro amount member
      rw [Std.ExtTreeMap.mem_toList_iff_getElem?_eq_some, found] at member
      cases member
  | some amount => exact present amount (Std.ExtTreeMap.mem_toList_iff_getElem?_eq_some.mpr found)

theorem merge_count (first second : List κ) :
    merge (count first : Table κ cmp) (count second) = count (first ++ second) := by
  apply Std.ExtTreeMap.ext_getElem?
  intro key
  rw [getElem?_merge]
  simp only [getElem?_count, List.count_append]
  by_cases inFirst : first.count key = 0 <;> by_cases inSecond : second.count key = 0 <;>
    simp [inFirst, inSecond, UInt64.ofNat_add]

theorem mem_count {keys : List κ} {key : κ} : key ∈ (count keys : Table κ cmp) ↔ key ∈ keys := by
  rw [Std.ExtTreeMap.mem_iff_isSome_getElem?, getElem?_count, ← List.count_pos_iff]
  by_cases absent : keys.count key = 0
  · simp [absent]
  · simp [absent, Nat.pos_of_ne_zero absent]

theorem toList_count_perm (keys : List κ) :
    (count keys : Table κ cmp).toList.Perm
      (keys.dedup.map fun key => (key, UInt64.ofNat (keys.count key))) := by
  have distinct : (count keys : Table κ cmp).toList.Nodup :=
    (toList_distinct _).imp fun apart same => apart (by rw [same])
  have once : (keys.dedup.map fun key => (key, UInt64.ofNat (keys.count key))).Nodup :=
    (List.nodup_dedup keys).map fun a b same => congrArg Prod.fst same
  apply (List.perm_ext_iff_of_nodup distinct once).mpr
  rintro ⟨key, amount⟩
  rw [Std.ExtTreeMap.mem_toList_iff_getElem?_eq_some, getElem?_count]
  simp only [List.mem_map, List.mem_dedup, Prod.mk.injEq]
  constructor
  · intro found
    split at found
    · cases found
    · next present =>
      refine ⟨key, List.count_pos_iff.mp (Nat.pos_of_ne_zero present), rfl, ?_⟩
      exact Option.some.inj found
  · rintro ⟨other, member, rfl, rfl⟩
    rw [if_neg (Nat.ne_of_gt (List.count_pos_iff.mpr member))]

theorem sum_toList_count (weight : κ → Nat) {keys : List κ} (few : keys.length < 2 ^ 64) :
    ((count keys : Table κ cmp).toList.map fun entry => weight entry.1 * entry.2.toNat).sum =
      (keys.map weight).sum := by
  have exactly (key : κ) : (UInt64.ofNat (keys.count key)).toNat = keys.count key :=
    UInt64.toNat_ofNat_of_lt' (Nat.lt_of_le_of_lt List.count_le_length few)
  rw [((toList_count_perm keys).map _).sum_eq, List.map_map, Finset.sum_list_map_count keys weight]
  simp only [Function.comp_def, exactly, smul_eq_mul]
  rw [Finset.sum, List.toFinset_val, Multiset.map_coe, Multiset.sum_coe]
  simp only [Nat.mul_comm]

end

end Tally
