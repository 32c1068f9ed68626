import CudaOpenMp.Cipher.Gpu
import CudaOpenMp.Cipher.GpuMatchesCore
import CudaOpenMp.Library.Loops
import CudaOpenMp.Library.StableSort

/-!
The substitution and the permutation of `d_encrypt_matches`. The loop that sorts by shifting is
stable, so both steps do what the host does with seeds of 64 bits and `std::stable_sort`.
-/

namespace CudaOpenMp.GpuMatches

open Gpu (dCharToIdx dCharToIdx_chr)
open StableSort

theorem append_eq {α : Type} {size : Nat} {buf : List α} (room : buf.length < size) (v : α) :
    append size buf v = some (buf ++ [v]) := if_pos room

theorem append_all {α : Type} {size : Nat} {list : List α} (room : list.length ≤ size) :
    list.foldlM (append size) [] = some list := by
  have filled := @Loops.foldlM_append _ _ (append size) id list [] size (by simpa)
    fun buf x _ space => append_eq space x
  rwa [List.map_id, List.nil_append] at filled

theorem write_eq {α : Type} {buf : List α} {i : Nat} (inside : i < buf.length) (v : α) :
    write buf i v = some (buf.set i v) := if_pos inside

theorem swapCells_eq {α : Type} {buf : List α} {i j : Nat} (iInside : i < buf.length)
    (jInside : j < buf.length) : swapCells buf i j = some (ListHeap.swap buf i j) := by
  rw [swapCells, List.getElem?_eq_getElem iInside, List.getElem?_eq_getElem jInside,
    ListHeap.swap_eq_set iInside jInside]
  simp only [Option.bind_eq_bind, Option.bind_some, write_eq iInside]
  exact write_eq (by simpa using jInside) _

/-! The decks and the substitution. -/

theorem dLcgNext_toNat (state : UInt32) : (dLcgNext state).toNat = Scheme.lcg state.toNat := by
  rw [dLcgNext, UInt32.toNat_add, UInt32.toNat_mul]
  change (state.toNat * 1664525 % 2 ^ 32 + 1013904223) % 2 ^ 32 = _
  rw [Scheme.lcg]
  omega

theorem dKeyToSeed_toNat {key : List Nat} (small : ∀ i ∈ key, i < 36) (short : key.length ≤ 4) :
    (dKeyToSeed (key.map chr)).toNat = Scheme.seedMaster key := by
  have digitWord : ∀ i < 36, (UInt32.ofInt (dCharToIdx (chr i))).toNat = i := by decide
  have folded (start : UInt32) (digits : List Nat) (bounded : ∀ i ∈ digits, i < 36) :
      ((digits.map chr).foldl (fun seed c => seed * 36 + UInt32.ofInt (dCharToIdx c)) start).toNat =
        digits.foldl (fun seed i => seed * 36 + i) start.toNat % 2 ^ 32 := by
    induction digits generalizing start with
    | nil => exact (Nat.mod_eq_of_lt start.toNat_lt).symm
    | cons i rest ih =>
        rw [List.map_cons, List.foldl_cons, List.foldl_cons,
          ih _ fun j member => bounded j (by simp [member])]
        apply Scheme.foldl_mod
        rw [UInt32.toNat_add, UInt32.toNat_mul, digitWord i (bounded i (by simp))]
        change (start.toNat * 36 % 2 ^ 32 + i) % 2 ^ 32 % 2 ^ 32 = _
        omega
  have bound : Scheme.seedMaster key < 2 ^ 32 := calc
    Scheme.seedMaster key < 36 ^ key.length := Scheme.seedMaster_lt small
    _ ≤ 36 ^ 4 := Nat.pow_le_pow_right (by decide) short
    _ < 2 ^ 32 := by decide
  rw [dKeyToSeed, folded 0 key small]
  exact Nat.mod_eq_of_lt bound

theorem shuffleLoop_eq {count : Nat} (bound : count ≤ 36) {deck : List Nat}
    (size : deck.length = 36) (state : UInt32) :
    shuffleLoop count state deck = some (Scheme.shuffleFrom count state.toNat deck) := by
  induction count generalizing deck state with
  | zero => rfl
  | succ i ih =>
      have index : (UInt32.ofNat (i + 1)).toNat = i + 1 :=
        UInt32.toNat_ofNat_of_lt' (Nat.lt_of_le_of_lt bound (by decide))
      have place : (dLcgNext state % UInt32.ofNat (i + 1)).toNat =
          Scheme.lcg state.toNat % (i + 1) := by
        rw [UInt32.toNat_mod, index, dLcgNext_toNat]
      have inside : Scheme.lcg state.toNat % (i + 1) < deck.length := by
        have below := Nat.mod_lt (Scheme.lcg state.toNat) (show i + 1 > 0 by omega)
        omega
      simp only [shuffleLoop, place, swapCells_eq (show i < deck.length by omega) inside,
        Option.bind_eq_bind, Option.bind_some]
      rw [ih (by omega) (by rw [ListHeap.swap_length, size]), dLcgNext_toNat, Scheme.shuffleFrom]

theorem dFisherYates_eq (seed : UInt32) :
    dFisherYates seed = some (Scheme.shuffle seed.toNat) := by
  rw [dFisherYates, shuffleLoop_eq (Nat.le_refl 36) (by simp), Scheme.shuffle,
    Nat.mod_eq_of_lt seed.toNat_lt]

theorem masked_toNat (seed : UInt32) {factor roundNum : Nat} (factorBound : factor < 2 ^ 16)
    (roundBound : roundNum ≤ 2) :
    (seed ^^^ UInt32.ofNat factor * UInt32.ofNat roundNum).toNat =
      seed.toNat ^^^ factor * roundNum := by
  have product : factor * roundNum ≤ 2 ^ 16 * 2 := Nat.mul_le_mul (by omega) roundBound
  have factorWord : factor < UInt32.size := Nat.lt_trans factorBound (by decide)
  have roundWord : roundNum < UInt32.size := Nat.lt_of_le_of_lt roundBound (by decide)
  rw [UInt32.toNat_xor, UInt32.toNat_mul, UInt32.toNat_ofNat_of_lt' factorWord,
    UInt32.toNat_ofNat_of_lt' roundWord, Nat.mod_eq_of_lt (by omega)]

theorem dFisherYates_masked (seed : UInt32) {factor roundNum : Nat} (factorBound : factor < 2 ^ 16)
    (roundBound : roundNum ≤ 2) :
    dFisherYates (seed ^^^ UInt32.ofNat factor * UInt32.ofNat roundNum) =
      some (Scheme.shuffle (seed.toNat ^^^ factor * roundNum)) := by
  rw [dFisherYates_eq, masked_toNat seed factorBound roundBound]

theorem pokerStep_eq {input : List Char} {deckA deckB : List Nat}
    (permA : deckA.Perm (List.range 36)) (permB : deckB.Perm (List.range 36)) {i c : Nat}
    (taken : input[i]? = some (chr c)) (small : c < 36) {prev : Nat} {out : List Char}
    (room : out.length < 512) :
    pokerStep input deckA deckB (prev, out) i =
      let next := (if i % 2 = 0 then deckA else deckB).getD ((c + (i + 1 + prev) % 36) % 36) 0
      some (next, out ++ [chr next]) := by
  have deckPerm : (if i % 2 = 0 then deckA else deckB).Perm (List.range 36) := by
    split
    · exact permA
    · exact permB
  have place : ((c : Int) + ((i + 1 + prev) % 36 : Nat)).tmod 36 =
      ((c + (i + 1 + prev) % 36) % 36 : Nat) := by
    rw [Int.tmod_eq_emod_of_nonneg (by omega)]
    omega
  have bound : (c + (i + 1 + prev) % 36) % 36 < 36 := Nat.mod_lt _ (by decide)
  have outSmall := Scheme.perm_getD_lt deckPerm bound
  have found : read (if i % 2 = 0 then deckA else deckB)
      ((c + (i + 1 + prev) % 36) % 36 : Nat) =
        some ((if i % 2 = 0 then deckA else deckB).getD ((c + (i + 1 + prev) % 36) % 36) 0) := by
    rw [read, if_pos (Int.natCast_nonneg _), Int.toNat_natCast,
      Scheme.perm_getElem? deckPerm bound]
  simp only [pokerStep, taken, dCharToIdx_chr small, Option.bind_eq_bind, Option.bind_some, place,
    found, charset_get outSmall, append_eq room, Option.pure_def]

theorem pokerLoop_eq {input : List Char} {deckA deckB : List Nat}
    (permA : deckA.Perm (List.range 36)) (permB : deckB.Perm (List.range 36)) {i : Nat}
    {text : List Nat} (left : input.drop i = text.map chr) (small : ∀ c ∈ text, c < 36)
    (prev : Nat) {out : List Char} (room : out.length + text.length ≤ 512) :
    ∃ last, (List.range' i text.length).foldlM (pokerStep input deckA deckB) (prev, out) =
      some (last, out ++ (Scheme.substitute deckA deckB i prev text).map chr) := by
  induction text generalizing i prev out with
  | nil => exact ⟨prev, by simp [Scheme.substitute]⟩
  | cons c rest ih =>
      rw [List.map_cons] at left
      rw [List.length_cons] at room
      have taken : input[i]? = some (chr c) := by
        have first : (input.drop i)[0]? = some (chr c) := by rw [left]; rfl
        rwa [List.getElem?_drop, Nat.add_zero] at first
      have later : input.drop (i + 1) = rest.map chr := by
        rw [← List.drop_drop, left, List.drop_one, List.tail_cons]
      obtain ⟨last, walked⟩ := @ih (i + 1) later (fun d member => small d (by simp [member]))
        ((if i % 2 = 0 then deckA else deckB).getD ((c + (i + 1 + prev) % 36) % 36) 0)
        (out ++ [chr ((if i % 2 = 0 then deckA else deckB).getD
          ((c + (i + 1 + prev) % 36) % 36) 0)]) (by simp; omega)
      refine ⟨last, ?_⟩
      rw [List.length_cons, List.range'_succ, List.foldlM_cons,
        pokerStep_eq permA permB taken (small c (by simp)) (by omega), Option.bind_eq_bind,
        Option.bind_some, walked]
      simp [Scheme.substitute]

theorem dPokerSubstitute_eq {text : List Nat} (small : ∀ c ∈ text, c < 36)
    (fits : text.length ≤ 512) (seedMaster : UInt32) {roundNum : Nat} (roundBound : roundNum ≤ 2) :
    dPokerSubstitute (text.map chr) text.length seedMaster roundNum =
      some ((Scheme.substitute (Scheme.shuffle (seedMaster.toNat ^^^ 0x1111 * roundNum))
        (Scheme.shuffle (seedMaster.toNat ^^^ 0x2222 * roundNum)) 0 (seedMaster.toNat % 36)
          text).map chr) := by
  have deckA : dFisherYates (seedMaster ^^^ 0x1111 * UInt32.ofNat roundNum) =
      some (Scheme.shuffle (seedMaster.toNat ^^^ 0x1111 * roundNum)) :=
    dFisherYates_masked seedMaster (show 0x1111 < 2 ^ 16 by decide) roundBound
  have deckB : dFisherYates (seedMaster ^^^ 0x2222 * UInt32.ofNat roundNum) =
      some (Scheme.shuffle (seedMaster.toNat ^^^ 0x2222 * roundNum)) :=
    dFisherYates_masked seedMaster (show 0x2222 < 2 ^ 16 by decide) roundBound
  have start : (seedMaster % 36).toNat = seedMaster.toNat % 36 := UInt32.toNat_mod _ _
  obtain ⟨last, walked⟩ := @pokerLoop_eq (text.map chr) _ _
    (Scheme.shuffle_perm (seedMaster.toNat ^^^ 0x1111 * roundNum))
    (Scheme.shuffle_perm (seedMaster.toNat ^^^ 0x2222 * roundNum)) 0 text List.drop_zero small
    (seedMaster.toNat % 36) [] (by simpa using fits)
  rw [dPokerSubstitute, deckA, Option.bind_eq_bind, Option.bind_some, deckB, Option.bind_eq_bind,
    Option.bind_some, start, List.range_eq_range', walked]
  rfl

/-! The permutation. -/

theorem randomStep_eq {size : Nat} {buf : List Nat} (room : buf.length < size) (state : UInt32) :
    randomStep size (state, buf) =
      some (dLcgNext state, buf ++ [Scheme.lcg state.toNat % 10000]) := by
  have drawn : (dLcgNext state % 10000).toNat = Scheme.lcg state.toNat % 10000 := by
    rw [UInt32.toNat_mod, dLcgNext_toNat]
    rfl
  simp only [randomStep, drawn, append_eq room, Option.bind_eq_bind, Option.bind_some,
    Option.pure_def]

theorem randomLoop_eq {size : Nat} {rounds buf : List Nat} (state : UInt32)
    (room : buf.length + rounds.length ≤ size) :
    ∃ last, rounds.foldlM (fun s _ => randomStep size s) (state, buf) =
      some (last, buf ++ Scheme.sortKeys rounds.length state.toNat) := by
  induction rounds generalizing state buf with
  | nil => exact ⟨state, by simp [Scheme.sortKeys]⟩
  | cons i rest ih =>
      rw [List.length_cons] at room
      obtain ⟨last, walked⟩ := @ih (buf ++ [Scheme.lcg state.toNat % 10000]) (dLcgNext state)
        (by simp; omega)
      refine ⟨last, ?_⟩
      rw [List.foldlM_cons, randomStep_eq (by omega), Option.bind_eq_bind, Option.bind_some, walked]
      simp [Scheme.sortKeys, dLcgNext_toNat]

theorem insertLoop_eq {randoms front : List Nat} (ki x : Nat) (tail : List Nat)
    (known : ∀ a ∈ front, a < randoms.length) :
    insertLoop randoms ki (randoms.getD ki 0) front.length (front ++ x :: tail) =
      some (insertBehind (fun a => randoms.getD a 0) front ki ++ tail) := by
  induction front using List.reverseRecOn generalizing x tail with
  | nil => rfl
  | append_singleton front a ih =>
      have aKnown : a < randoms.length := known a (by simp)
      have held : (front ++ [a] ++ x :: tail)[front.length]? = some a := by simp
      have written (v : Nat) : write (front ++ [a] ++ x :: tail) (front.length + 1) v =
          some (front ++ a :: v :: tail) := by
        rw [write_eq (by simp)]
        simp
      have compared : randoms[a]? = some (randoms.getD a 0) := by
        rw [List.getD_eq_getElem _ _ aKnown, List.getElem?_eq_getElem aKnown]
      rw [List.length_append, List.length_singleton, insertLoop, held]
      simp only [compared, Option.bind_eq_bind, Option.bind_some]
      by_cases larger : randoms.getD ki 0 < randoms.getD a 0
      · rw [if_pos larger, written, Option.bind_some,
          ih a (a :: tail) fun b member => known b (by simp [member]),
          insertBehind_concat_of_lt front larger]
        simp
      · rw [if_neg larger, written, insertBehind_concat_of_not_lt front larger]
        simp

theorem insertLoops_eq {randoms : List Nat} (count : Nat) {i : Nat}
    (inside : i + count ≤ randoms.length) :
    (List.range' i count).foldlM (insertStep randoms)
        (insertionSort (fun a => randoms.getD a 0) i ++ List.range' i count) =
      some (insertionSort (fun a => randoms.getD a 0) (i + count)) := by
  induction count generalizing i with
  | zero => simp
  | succ count ih =>
      have perm := insertionSort_perm (fun a => randoms.getD a 0) i
      have size : (insertionSort (fun a => randoms.getD a 0) i).length = i := by
        rw [perm.length_eq, List.length_range]
      have known : ∀ a ∈ insertionSort (fun a => randoms.getD a 0) i, a < randoms.length := by
        intro a member
        have small := List.mem_range.mp (perm.subset member)
        omega
      have next := insertLoop_eq i i (List.range' (i + 1) count) known
      rw [size] at next
      have step : insertStep randoms (insertionSort (fun a => randoms.getD a 0) i ++
          List.range' i (count + 1)) i = some (insertionSort (fun a => randoms.getD a 0) (i + 1) ++
            List.range' (i + 1) count) := by
        have held : (insertionSort (fun a => randoms.getD a 0) i ++
            i :: List.range' (i + 1) count)[i]? = some i := by
          rw [List.getElem?_append_right (by omega), size, Nat.sub_self]
          rfl
        have drawn : randoms[i]? = some (randoms.getD i 0) := by
          rw [List.getD_eq_getElem _ _ (show i < randoms.length by omega),
            List.getElem?_eq_getElem (show i < randoms.length by omega)]
        rw [List.range'_succ, insertStep, held, Option.bind_eq_bind, Option.bind_some, drawn,
          Option.bind_some, next]
        rfl
      rw [List.range'_succ, List.foldlM_cons, ← List.range'_succ, step, Option.bind_eq_bind,
        Option.bind_some, ih (by omega), Nat.add_right_comm, Nat.add_assoc]

theorem sortedIdx_eq (randoms : List Nat) :
    (List.range' 1 (randoms.length - 1)).foldlM (insertStep randoms) (List.range randoms.length) =
      some (Scheme.order randoms) := by
  rw [Scheme.order, ← insertionSort_eq]
  cases size : randoms.length with
  | zero => rfl
  | succ rest =>
      have sorted := insertLoops_eq rest (show 1 + rest ≤ randoms.length by omega)
      rw [show insertionSort (fun a => randoms.getD a 0) 1 = [0] from rfl] at sorted
      rw [Nat.add_sub_cancel, List.range_eq_range', List.range'_succ, Nat.add_comm rest 1]
      exact sorted

theorem permuteWith_eq {input : List Char} {size : Nat} (small : input.length ≤ size)
    (fits : input.length ≤ 512) (seedMaster : UInt32) {pid : Nat} (pidBound : pid ≤ 2) :
    permuteWith size input input.length seedMaster pid =
      some (Scheme.permute (seedMaster.toNat ^^^ 0x3333 * pid) input) := by
  have seed : (seedMaster ^^^ UInt32.ofNat pid * 0x3333).toNat =
      (seedMaster.toNat ^^^ 0x3333 * pid) % 2 ^ 32 := by
    rw [UInt32.mul_comm, show (0x3333 : UInt32) = UInt32.ofNat 0x3333 from rfl,
      ← masked_toNat seedMaster (by decide) pidBound, Nat.mod_eq_of_lt (UInt32.toNat_lt _)]
  obtain ⟨last, drawn⟩ := @randomLoop_eq size (List.range input.length) []
    (seedMaster ^^^ UInt32.ofNat pid * 0x3333) (by simpa using small)
  rw [seed, List.nil_append, List.length_range] at drawn
  have numbered := @append_all _ size (List.range input.length) (by simpa)
  have sorted := sortedIdx_eq
    (Scheme.sortKeys input.length ((seedMaster.toNat ^^^ 0x3333 * pid) % 2 ^ 32))
  rw [Scheme.sortKeys_length] at sorted
  have perm := Scheme.keyed_order_perm input.length (seedMaster.toNat ^^^ 0x3333 * pid)
  simp only [permuteWith, drawn, numbered, sorted, Option.bind_eq_bind, Option.bind_some,
    Scheme.permute]
  generalize Scheme.order (Scheme.sortKeys input.length
    ((seedMaster.toNat ^^^ 0x3333 * pid) % 2 ^ 32)) = order at perm
  have places : order.length = input.length := by rw [perm.length_eq, List.length_range]
  have gathered := @Loops.foldlM_append _ _
    (fun out i => (order[i]?).bind fun j => (input[j]?).bind fun c => append 512 out c)
    (fun i => input.getD (order.getD i 0) '0') (List.range input.length) [] 512 (by simpa)
    (by
      intro out i member room
      have inside : i < order.length := by rw [places]; exact List.mem_range.mp member
      have place : order[i] < input.length :=
        List.mem_range.mp (perm.subset (List.getElem_mem inside))
      simp [inside, place, append_eq room])
  have picked : Scheme.rearrange order input = order.map fun j => input.getD j '0' := by
    rw [Scheme.rearrange, ← List.filterMap_eq_map]
    apply List.filterMap_congr
    intro j listed
    have place : j < input.length := List.mem_range.mp (perm.subset listed)
    simp [place]
  rw [gathered, List.nil_append, picked]
  congr 1
  apply List.ext_getElem (by simp [places])
  intro i _ inside
  rw [List.length_map] at inside
  simp [inside]

end CudaOpenMp.GpuMatches
