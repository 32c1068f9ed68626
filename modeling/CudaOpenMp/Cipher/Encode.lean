import CudaOpenMp.Cipher.EncodeCore
import CudaOpenMp.Cipher.Scheme

/-! `encode.py` follows the cipher's description for keys and texts of every length. -/

namespace CudaOpenMp.Encode

open HuffmanTree

theorem charToIdx_chr : ∀ {c : Nat}, c < 36 → charToIdx (chr c) = some c := by
  decide

theorem low32 (value : Nat) : value &&& 0xFFFFFFFF = value % 2 ^ 32 :=
  Nat.and_two_pow_sub_one_eq_mod value 32

theorem keyToSeedMaster_eq {key : List Nat} (small : ∀ i ∈ key, i < 36) :
    keyToSeedMaster (key.map chr) = some (Scheme.seedMaster key) := by
  have folded (start : Nat) (digits : List Nat) (bounded : ∀ i ∈ digits, i < 36) :
      (digits.map chr).foldlM (fun seed c => (charToIdx c).map fun i => seed * 36 + i) start =
        some (digits.foldl (fun seed i => seed * 36 + i) start) := by
    induction digits generalizing start with
    | nil => rfl
    | cons i rest ih =>
        have tail := ih (start * 36 + i) fun j member => bounded j (by simp [member])
        simpa [charToIdx_chr (bounded i (by simp))] using tail
  exact folded 0 key small

theorem lcgNext_eq (state : Nat) : lcgNext state = Scheme.lcg state := low32 _

theorem shuffleLoop_eq (count state : Nat) (deck : List Nat) :
    shuffleLoop count state deck = Scheme.shuffleFrom count state deck := by
  induction count generalizing state deck with
  | zero => rfl
  | succ i ih => simp only [shuffleLoop, Scheme.shuffleFrom, ih, lcgNext_eq]

theorem fisherYatesShuffle_xor32 (master mask : Nat) :
    fisherYatesShuffle (xor32 master mask) = Scheme.shuffle (master ^^^ mask) := by
  rw [fisherYatesShuffle, xor32, low32, low32, Nat.mod_mod, shuffleLoop_eq, Scheme.shuffle]

def tree : Node → HuffmanTree.Tree Nat
  | .leaf _ _ ch => .leaf (label ch)
  | .inner _ _ left right => .node (tree left) (tree right)

def item (node : Node) : Item Nat := ⟨node.score, node.counter, tree node⟩

theorem less_iff (x y : Node) : x.less y = true ↔ (item x).Before (item y) := by
  simp only [Node.less, item, Item.Before, Bool.or_eq_true, Bool.and_eq_true, decide_eq_true_eq,
    beq_iff_eq]

theorem least_spec (x : Node) (rest : List Node) :
    ∀ y ∈ x :: rest, ¬(item y).Before (item (least x rest).1) := by
  induction rest generalizing x with
  | nil =>
      intro y member before
      rw [List.mem_singleton.mp member] at before
      exact before.asymm before
  | cons z rest ih =>
      simp only [least]
      split
      · rename_i below
        have before := (less_iff z x).mp below
        intro y member
        rcases List.mem_cons.mp member with rfl | later
        · exact Item.not_before_trans before.asymm (ih z z (by simp))
        · exact ih z y later
      · rename_i notBelow
        have notBefore := mt (less_iff z x).mpr notBelow
        intro y member
        rcases List.mem_cons.mp member with rfl | later
        · exact ih y y (by simp)
        · rcases List.mem_cons.mp later with rfl | last
          · exact Item.not_before_trans notBefore (ih x x (by simp))
          · exact ih x y (by simp [last])

theorem exists_heappop {heap : List Node} (inhabited : 0 < heap.length) :
    ∃ top rest, heappop heap = some (top, rest) ∧ ∀ y ∈ rest, ¬(item y).Before (item top) := by
  cases heap with
  | nil => simp at inhabited
  | cons x others =>
      refine ⟨(least x others).1, (least x others).2, rfl, ?_⟩
      intro y member
      exact least_spec x others y ((least_perm x others).subset (by simp [member]))

theorem mergeOnce_spec (counter : Nat) {heap : List Node} (several : 1 < heap.length) :
    ∃ merged, mergeOnce counter heap = some merged ∧
      MergeStep counter (heap.map item) (merged.map item) := by
  obtain ⟨first, afterFirst, popped, firstLeast⟩ :=
    exists_heappop (show 0 < heap.length by omega)
  have parts := heappop_perm popped
  have size := parts.length_eq
  rw [List.length_cons] at size
  obtain ⟨second, afterSecond, poppedToo, secondLeast⟩ :=
    exists_heappop (show 0 < afterFirst.length by omega)
  have partsToo := heappop_perm poppedToo
  refine ⟨heappush afterSecond (.inner (first.score + second.score) counter first second),
    by simp only [mergeOnce, popped, poppedToo], item first, item second, afterSecond.map item,
    ?_, ?_, ?_, ?_⟩
  · exact (parts.symm.trans (partsToo.symm.cons first)).map item
  · intro x member
    have listed : x ∈ (second :: afterSecond).map item := by simpa using member
    obtain ⟨y, belongs, rfl⟩ := List.mem_map.mp listed
    exact firstLeast y (partsToo.subset belongs)
  · intro x member
    obtain ⟨y, belongs, rfl⟩ := List.mem_map.mp member
    exact secondLeast y belongs
  · rw [heappush, List.map_append]
    exact List.perm_append_singleton _ _

theorem mergeLoop_spec {counter : Nat} {heap : List Node} {items : List (Item Nat)}
    (agenda : Agenda counter (heap.map item) items) (inhabited : 0 < heap.length) :
    ∃ root, mergeLoop counter heap = [root] ∧ combine counter items = some (item root) := by
  induction size : heap.length using Nat.strongRecOn generalizing counter heap items with
  | ind size ih =>
      rw [mergeLoop]
      by_cases several : 1 < heap.length
      · rw [if_pos several]
        obtain ⟨merged, found, step⟩ := mergeOnce_spec counter several
        have shrinks := mergeOnce_length found
        obtain ⟨remaining, mergedAgenda, _, same⟩ := agenda.step step
        split
        · rename_i other foundToo
          rw [found, Option.some.injEq] at foundToo
          subst other
          rw [same]
          exact ih merged.length (by omega) mergedAgenda (by omega) rfl
        · rename_i stuck
          simp [found] at stuck
      · rw [if_neg several]
        obtain ⟨root, rfl⟩ := List.length_eq_one_iff.mp (show heap.length = 1 by omega)
        exact ⟨root, rfl, agenda.finish⟩

theorem computeScores_eq (seed : Nat) :
    computeScores seed = (List.range' 0 36).map fun i => (chr i, Scheme.leafScore seed i) := by
  have indexed : charset.zipIdx = (List.range' 0 36).map fun i => (chr i, i) := by decide
  rw [computeScores, indexed, List.map_map]
  rfl

theorem pushLeaves_eq (score : Nat → Nat) (counter count : Nat) (heap : List Node) :
    pushLeaves counter ((List.range' counter count).map fun i => (chr i, score i)) heap =
      heap ++ (List.range' counter count).map fun i => Node.leaf (score i) i (chr i) := by
  induction count generalizing counter heap with
  | zero => simp [pushLeaves]
  | succ count ih =>
      rw [List.range'_succ, List.map_cons, pushLeaves, ih, heappush, List.append_assoc,
        List.map_cons, List.singleton_append]

theorem leaves_content (seed : Nat) :
    (pushLeaves 0 (computeScores seed) []).map item =
      (List.range 36).map (Scheme.leafItem seed) := by
  rw [computeScores_eq, pushLeaves_eq, List.nil_append, List.map_map, List.range_eq_range']
  apply List.map_congr_left
  intro c member
  have bound : c < 36 := by simpa using member
  simp only [Function.comp_apply, item, Node.score, Node.counter, tree, label_chr bound,
    Scheme.leafItem]

theorem buildHuffmanRoot_spec (seed : Nat) :
    ∃ root, buildHuffmanRoot (computeScores seed) = some root ∧
      tree root = Scheme.codeTree seed := by
  have agenda := Scheme.leaves_agenda seed
  rw [← leaves_content] at agenda
  have count : (computeScores seed).length = 36 := by simp [computeScores_eq]
  have inhabited : 0 < (pushLeaves 0 (computeScores seed) []).length := by
    have size := congrArg List.length (leaves_content seed)
    simp only [List.length_map, List.length_range] at size
    omega
  obtain ⟨root, only, combined⟩ := mergeLoop_spec agenda inhabited
  obtain ⟨top, found, same⟩ := Scheme.exists_root seed
  rw [found, Option.some.injEq] at combined
  refine ⟨root, ?_, ?_⟩
  · rw [buildHuffmanRoot, count, only]
    rfl
  · rw [same, combined, item]

theorem lookup_entry {V : Type} (entry : Char × V) (rest : Dict V) (target : Char) :
    List.lookup target (entry :: rest) =
      if target = entry.1 then some entry.2 else rest.lookup target := by
  obtain ⟨c, v⟩ := entry
  by_cases here : target = c
  · rw [List.lookup_cons, if_pos here, here, beq_self_eq_true]
  · rw [List.lookup_cons, if_neg here, beq_eq_false_iff_ne.mpr here]

theorem lookup_setItem {V : Type} (dict : Dict V) (c target : Char) (v : V) :
    (setItem dict c v).lookup target = if target = c then some v else dict.lookup target := by
  induction dict with
  | nil => rw [setItem, lookup_entry]
  | cons entry rest ih =>
      rw [setItem, lookup_entry entry]
      by_cases here : entry.1 = c
      · rw [if_pos here, lookup_entry, here]
        split <;> rfl
      · rw [if_neg here, lookup_entry, ih]
        by_cases first : target = entry.1
        · have other : target ≠ c := fun same => here (first.symm.trans same)
          rw [if_pos first, if_neg other, if_pos first]
        · rw [if_neg first, if_neg first]

theorem genCodes_lookup {node : Node} (known : ∀ i ∈ (tree node).leaves, i < 36)
    (unique : (tree node).leaves.Nodup) {c : Nat} (bound : c < 36) (path : List Char)
    (codes : Dict (List Char)) :
    (genCodes node path codes).lookup (chr c) =
      match (tree node).code c with
      | some bits =>
          some (if path.isEmpty && bits.isEmpty then ['0'] else path ++ bits.map fun b => chr b.toNat)
      | none => codes.lookup (chr c) := by
  induction node generalizing path codes with
  | leaf score counter ch =>
      have inside : label ch < 36 := known (label ch) (by simp [tree, Tree.leaves])
      simp only [genCodes, lookup_setItem, tree, Tree.code]
      by_cases same : label ch = c
      · have found : chr c = ch := by rw [← same, chr_label inside]
        rw [if_pos found, if_pos same]
        cases path with
        | nil => rfl
        | cons d rest => simp
      · have different : chr c ≠ ch := fun found => same (by rw [← found, label_chr bound])
        rw [if_neg different, if_neg same]
  | inner score counter left right ihLeft ihRight =>
      simp only [tree, Tree.leaves, List.mem_append] at known
      simp only [tree, Tree.leaves, List.nodup_append] at unique
      obtain ⟨leftUnique, rightUnique, apart⟩ := unique
      have onLeft := ihLeft (fun i member => known i (Or.inl member)) leftUnique
      have onRight := ihRight (fun i member => known i (Or.inr member)) rightUnique
      simp only [genCodes, tree, Tree.code, onRight, onLeft]
      cases found : (tree left).code c with
      | some bits =>
          -- A label of the left subtree is not written again by the right one.
          have member := (Tree.code_isSome_iff c (tree left)).mp (by rw [found]; rfl)
          have missing : (tree right).code c = none := by
            by_contra present
            have again := (Tree.code_isSome_iff c (tree right)).mp
              (Option.isSome_iff_ne_none.mpr present)
            exact apart c member c again rfl
          rw [missing]
          simp [chr]
          rfl
      | none =>
          cases (tree right).code c with
          | some bits =>
              simp [chr]
              rfl
          | none => rfl

theorem codes_lookup (seed : Nat) {c : Nat} (bound : c < 36) :
    ∃ root, buildHuffmanRoot (computeScores seed) = some root ∧
      (genCodes root [] []).lookup (chr c) = some ((Scheme.code seed c).map chr) := by
  obtain ⟨root, built, shape⟩ := buildHuffmanRoot_spec seed
  obtain ⟨bits, found⟩ := Scheme.exists_code seed bound
  have long := (Scheme.code_length_bounds seed bound).1
  have leaves := Scheme.codeTree_leaves seed
  refine ⟨root, built, ?_⟩
  rw [genCodes_lookup (by rw [shape]; intro i member; simpa using leaves.subset member)
    (by rw [shape]; exact leaves.symm.nodup List.nodup_range) bound, shape, found]
  simp only [Scheme.code, found, Option.getD_some, List.length_map] at long
  cases bits with
  | nil => simp at long
  | cons b rest => simp [Scheme.code, found]

theorem intBase16_hexdigest (digest : List UInt8) :
    intBase16 (hexdigest digest) = BigEndian.value digest := by
  have digit : ∀ d < 16, hexValue (Nat.digitChar d) = d := by decide
  have folded (start : Nat) : (hexdigest digest).foldl (fun v c => v * 16 + hexValue c) start =
      digest.foldl (fun v b => v * 256 + b.toNat) start := by
    induction digest generalizing start with
    | nil => rfl
    | cons b rest ih =>
        have byte := b.toNat_lt
        have high := digit (b.toNat / 16) (by omega)
        have low := digit (b.toNat % 16) (Nat.mod_lt _ (by decide))
        have tail := ih (start * 256 + b.toNat)
        rw [hexdigest] at tail
        rw [hexdigest, List.flatMap_cons, List.foldl_append, List.foldl_cons, List.foldl_cons,
          List.foldl_nil, high, low, List.foldl_cons, ← tail]
        congr 1
        omega
  exact folded 0

theorem updateSeed_eq (sha : Sha256) (seed : Nat) {c : Nat} (bound : c < 36) :
    updateSeed sha seed (chr c) = Scheme.update sha seed c := by
  have digits (value : Nat) : (Nat.repr value).toList = Nat.toDigits 10 value := by
    simp [Nat.repr]
  simp only [updateSeed, intBase16_hexdigest, chr_toNat bound, digits, Scheme.update,
    Scheme.decimal]

theorem pokerLoop_eq {deckA deckB : List Nat} (permA : deckA.Perm (List.range 36))
    (permB : deckB.Perm (List.range 36)) (i prev : Nat) {text : List Nat}
    (small : ∀ c ∈ text, c < 36) :
    pokerLoop deckA deckB i prev (text.map chr) =
      some ((Scheme.substitute deckA deckB i prev text).map chr) := by
  induction text generalizing i prev with
  | nil => rfl
  | cons c rest ih =>
      have cBound := small c (by simp)
      have deckPerm : (if i % 2 = 0 then deckA else deckB).Perm (List.range 36) := by
        split
        · exact permA
        · exact permB
      have indexBound : (c + (i + 1 + prev) % 36) % 36 < 36 := Nat.mod_lt _ (by decide)
      have outBound := Scheme.perm_getD_lt deckPerm indexBound
      have found := Scheme.perm_getElem? deckPerm indexBound
      have out := charset_get outBound
      have tail := ih (i + 1) ((if i % 2 = 0 then deckA else deckB).getD
        ((c + (i + 1 + prev) % 36) % 36) 0) fun d member => small d (by simp [member])
      simp only [List.map_cons, pokerLoop, charToIdx_chr cBound, Option.bind_eq_bind,
        Option.bind_some, found, idxToChar, out, tail, Option.pure_def, Scheme.substitute]

theorem randomKeys_eq (count state : Nat) : randomKeys count state = Scheme.sortKeys count state := by
  induction count generalizing state with
  | zero => rfl
  | succ count ih => simp only [randomKeys, Scheme.sortKeys, ih, lcgNext_eq]

theorem permute_eq {key : List Nat} (keySmall : ∀ i ∈ key, i < 36) (pid : Nat)
    (text : List Char) :
    permute text (key.map chr) pid =
      some (Scheme.permute (Scheme.seedMaster key ^^^ 0x3333 * pid) text) := by
  have inside : ∀ i ∈ Scheme.order (Scheme.sortKeys text.length
      ((Scheme.seedMaster key ^^^ 0x3333 * pid) % 2 ^ 32)), i < text.length := by
    intro i member
    simpa using (Scheme.keyed_order_perm text.length _).subset member
  simp only [permute, keyToSeedMaster_eq keySmall, Option.bind_eq_bind, Option.bind_some, xor32,
    low32, Nat.mod_mod, randomKeys_eq, Nat.mul_comm pid]
  have order := Scheme.mapM_getElem? text inside
  rw [Scheme.order, Scheme.sortKeys_length] at order
  rw [order, Scheme.permute, Scheme.order, Scheme.sortKeys_length]

theorem encodeLoop_eq (sha : Sha256) (seed : Nat) {text : List Nat} (small : ∀ c ∈ text, c < 36) :
    encodeLoop sha seed (text.map chr) =
      some ((Scheme.encode (Scheme.update sha) seed text).map chr) := by
  induction text generalizing seed with
  | nil => rfl
  | cons c rest ih =>
      have cBound := small c (by simp)
      obtain ⟨root, built, code⟩ := codes_lookup seed cBound
      have tail := ih (Scheme.update sha seed c) fun d member => small d (by simp [member])
      simp only [List.map_cons, encodeLoop, built, Option.bind_eq_bind, Option.bind_some, code,
        updateSeed_eq sha seed cBound, tail, Scheme.encode, List.map_append, Option.pure_def]

theorem round_eq (sha : Sha256) {key text : List Nat} {roundNum : Nat}
    (keySmall : ∀ i ∈ key, i < 36) (textSmall : ∀ c ∈ text, c < 36)
    (rounds : roundNum = 1 ∨ roundNum = 2) :
    round sha (text.map chr) (key.map chr) roundNum =
      some ((Scheme.round sha key roundNum text).map chr) := by
  have substituted := pokerLoop_eq
    (Scheme.shuffle_perm (Scheme.seedMaster key ^^^ 0x1111 * roundNum))
    (Scheme.shuffle_perm (Scheme.seedMaster key ^^^ 0x2222 * roundNum)) 0
    (Scheme.seedMaster key % 36) textSmall
  have keySum : ((key.map chr).map Char.toNat).sum = (key.map ord).sum := by
    rw [List.map_map]
    congr 1
    apply List.map_congr_left
    intro i member
    exact chr_toNat (keySmall i member)
  have suffixSum : ((('R' :: (toString ((roundNum : Int) - 1)).toList).map Char.toNat).sum) =
      82 + (47 + roundNum) := by
    rcases rounds with rfl | rfl
    · decide
    · decide
  simp only [round, pokerSubstitute, keyToSeedMaster_eq keySmall, Option.bind_eq_bind,
    Option.bind_some, fisherYatesShuffle_xor32, substituted, permute_eq keySmall]
  rw [Scheme.permute_map, scoreTreeEncode, keySum, suffixSum,
    encodeLoop_eq sha _ (Scheme.round_text_lt _ _ _ _ _), Scheme.round, Scheme.initialSeed]

theorem mainFlow_eq (sha : Sha256) {key text : List Nat} (keySmall : ∀ i ∈ key, i < 36)
    (textSmall : ∀ c ∈ text, c < 36) :
    mainFlow sha (key.map chr) (text.map chr) = some ((Scheme.encrypt sha key text).map chr) := by
  rw [mainFlow, round_eq sha keySmall textSmall (Or.inl rfl), Option.bind_eq_bind,
    Option.bind_some, round_eq sha keySmall (Scheme.round_bits _ _ _ _) (Or.inr rfl),
    Scheme.encrypt]

theorem isSpace_chr : ∀ {c : Nat}, c < 36 → isSpace (chr c) = false := by
  decide

theorem strip_overCharset {line : List Char} (inCharset : OverCharset line) : strip line = line := by
  have kept (text : List Char) (overText : OverCharset text) : text.dropWhile isSpace = text := by
    cases text with
    | nil => rfl
    | cons c rest =>
        obtain ⟨index, bound, rfl⟩ := exists_chr (overText c (by simp))
        simp [isSpace_chr bound]
  have reversed : OverCharset line.reverse := fun c member => inCharset c (by simpa using member)
  rw [strip, kept line inCharset, kept line.reverse reversed, List.reverse_reverse]

theorem prompt_overCharset {line : List Char} (inCharset : OverCharset line) (fallback : List Char) :
    prompt line fallback = if line = [] then fallback else line := by
  simp only [prompt, strip_overCharset inCharset, List.isEmpty_iff]

end CudaOpenMp.Encode
