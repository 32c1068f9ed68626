import CudaOpenMp.Library.CInt
import Mathlib.Data.List.Basic
import Mathlib.Tactic.Common

/-! What the key-search programs share: the alphabet and byte strings. -/

namespace CudaOpenMp

def charset : List Char :=
  ['0', '1', '2', '3', '4', '5', '6', '7', '8', '9', 'a', 'b', 'c', 'd', 'e', 'f', 'g', 'h',
    'i', 'j', 'k', 'l', 'm', 'n', 'o', 'p', 'q', 'r', 's', 't', 'u', 'v', 'w', 'x', 'y', 'z']

def OverCharset (text : List Char) : Prop := ∀ c ∈ text, c ∈ charset

instance (text : List Char) : Decidable (OverCharset text) :=
  List.decidableBAll (fun c => c ∈ charset) text

/-- Any function from byte strings to 32 bytes, in place of SHA-256. -/
abbrev Sha256 := List UInt8 → Vector UInt8 32

def zeroHash : Sha256 := fun _ => Vector.replicate 32 0

/-! Characters of the alphabet and their indices. -/

def chr (index : Nat) : Char := charset.getD index ' '

def ord (index : Nat) : Nat := if index < 10 then 48 + index else 87 + index

@[simp] theorem charset_length : charset.length = 36 := rfl

theorem charset_get {index : Nat} (bound : index < 36) : charset[index]? = some (chr index) := by
  have inside : index < charset.length := bound
  simp [chr, List.getD_eq_getElem?_getD, List.getElem?_eq_getElem inside]

theorem chr_mem {index : Nat} (bound : index < 36) : chr index ∈ charset :=
  List.mem_of_getElem? (charset_get bound)

theorem exists_chr {c : Char} (member : c ∈ charset) : ∃ index < 36, chr index = c := by
  obtain ⟨index, bound, found⟩ := List.mem_iff_getElem.mp member
  refine ⟨index, bound, ?_⟩
  simp [chr, List.getD_eq_getElem?_getD, List.getElem?_eq_getElem bound, found]

theorem chr_toNat : ∀ {index : Nat}, index < 36 → (chr index).toNat = ord index := by
  decide

theorem chr_inj : ∀ {first : Nat}, first < 36 → ∀ {second : Nat}, second < 36 →
    chr first = chr second → first = second := by
  decide

theorem ord_lt {index : Nat} (bound : index < 36) : ord index < 128 := by
  simp only [ord]
  split <;> omega

/-- The position of a character in the alphabet, 36 for any other character. -/
def label (c : Char) : Nat := charset.idxOf c

theorem label_chr : ∀ {index : Nat}, index < 36 → label (chr index) = index := by
  decide

theorem chr_label {c : Char} (known : label c < 36) : chr (label c) = c := by
  have bound : charset.idxOf c < charset.length := known
  have found : charset[label c]? = some c := by
    simp only [label, List.getElem?_eq_getElem bound, List.getElem_idxOf]
  rw [charset_get known, Option.some.injEq] at found
  exact found

theorem OverCharset.append {first second : List Char} (firstOver : OverCharset first)
    (secondOver : OverCharset second) : OverCharset (first ++ second) :=
  List.forall_mem_append.mpr ⟨firstOver, secondOver⟩

theorem OverCharset.concat {text : List Char} {c : Char} (inCharset : OverCharset text)
    (known : c ∈ charset) : OverCharset (text ++ [c]) :=
  inCharset.append (List.forall_mem_singleton.mpr known)

theorem OverCharset.exists_indices {text : List Char} (inCharset : OverCharset text) :
    ∃ indices : List Nat, (∀ i ∈ indices, i < 36) ∧ text = indices.map chr := by
  induction text with
  | nil => exact ⟨[], by simp, rfl⟩
  | cons c rest ih =>
      obtain ⟨index, bound, rfl⟩ := exists_chr (inCharset c (by simp))
      obtain ⟨indices, small, rfl⟩ := ih fun d member => inCharset d (by simp [member])
      exact ⟨index :: indices, by simpa using ⟨bound, small⟩, rfl⟩

theorem overCharset_map_chr {indices : List Nat} (small : ∀ i ∈ indices, i < 36) :
    OverCharset (indices.map chr) := by
  intro c member
  obtain ⟨index, belongs, rfl⟩ := List.mem_map.mp member
  exact chr_mem (small index belongs)

theorem map_chr_inj {first second : List Nat} (firstSmall : ∀ i ∈ first, i < 36)
    (secondSmall : ∀ i ∈ second, i < 36) (same : first.map chr = second.map chr) :
    first = second := by
  induction first generalizing second with
  | nil => simpa [eq_comm] using same
  | cons i rest ih =>
      cases second with
      | nil => simp at same
      | cons j others =>
          simp only [List.map_cons, List.cons.injEq] at same
          have head := chr_inj (firstSmall i (by simp)) (secondSmall j (by simp)) same.1
          have tail := ih (fun k member => firstSmall k (by simp [member]))
            (fun k member => secondSmall k (by simp [member])) same.2
          rw [head, tail]

end CudaOpenMp
