import CudaOpenMp.Cipher.GpuSteps
import CudaOpenMp.Library.Loops
import Mathlib.Algebra.Order.BigOperators.Group.List

/-!
Every access in `d_encrypt_matches` is inside its array: the codes have at most 22 bits, so the
first bit string has at most 88 and the second at most 1936.
-/

namespace CudaOpenMp.GpuMatches

open Gpu (Seed128 HuffNode HeapElem elemLess Builder dCharToIdx dCharToIdx_chr nodeAt tree Sound
  tree_leaf tree_branch seedInit_eq start_value exists_dUpdateSeed)
open HuffmanTree (Tree)

theorem exists_dPokerSubstitute {input : List Char} {n : Nat} (inCharset : OverCharset input)
    (size : input.length = n) (fits : n ≤ 512) (seedMaster : UInt32) {roundNum : Nat}
    (roundBound : roundNum ≤ 2) :
    ∃ out, dPokerSubstitute input n seedMaster roundNum = some out ∧ OverCharset out ∧
      out.length = n := by
  subst size
  obtain ⟨text, small, rfl⟩ := inCharset.exists_indices
  rw [List.length_map] at fits ⊢
  refine ⟨_, dPokerSubstitute_eq small fits seedMaster roundBound, ?_, by simp⟩
  exact overCharset_map_chr (Scheme.substitute_lt (Scheme.shuffle_perm _) (Scheme.shuffle_perm _) _ _ _)

theorem exists_permuteWith {input : List Char} {n size : Nat} (inCharset : OverCharset input)
    (length : input.length = n) (small : n ≤ size) (fits : n ≤ 512) (seedMaster : UInt32)
    {pid : Nat} (pidBound : pid ≤ 2) :
    ∃ out, permuteWith size input n seedMaster pid = some out ∧ OverCharset out ∧
      out.length = n := by
  subst length
  refine ⟨_, permuteWith_eq small fits seedMaster pidBound, ?_, by simp⟩
  intro c member
  exact inCharset c ((Scheme.permute_perm _ _).subset member)

theorem lessAt_eq {heap : List HeapElem} {i j : Nat} (iInside : i < heap.length)
    (jInside : j < heap.length) :
    ListHeap.lessAt elemLess heap i j = elemLess heap[i] heap[j] := by
  rw [ListHeap.lessAt, List.getElem?_eq_getElem iInside, List.getElem?_eq_getElem jInside]

theorem siftUp_eq {heap : List HeapElem} {i : Nat} (inside : i < heap.length) :
    siftUp heap i = some (ListHeap.siftUp elemLess heap i) := by
  induction i using Nat.strongRecOn generalizing heap with
  | ind i ih =>
      rw [siftUp, ListHeap.siftUp]
      split
      · rfl
      · rename_i inner
        have parent : (i - 1) / 2 < heap.length := by omega
        simp only [List.getElem?_eq_getElem inside, List.getElem?_eq_getElem parent,
          Option.bind_eq_bind, Option.bind_some, lessAt_eq inside parent]
        split
        · rw [swapCells_eq inside parent, Option.bind_some]
          exact ih ((i - 1) / 2) (by omega) (by rwa [ListHeap.swap_length])
        · rfl

theorem heapPush_eq {heap : List HeapElem} (room : heap.length < 128) (e : HeapElem) :
    heapPush heap e = some (ListHeap.push elemLess heap e) := by
  rw [heapPush, append_eq room, Option.bind_eq_bind, Option.bind_some, ListHeap.push]
  exact siftUp_eq (by simp)

theorem smaller_eq {heap : List HeapElem} {j best : Nat} (below : best < j) :
    smaller heap j best =
      some (if j < heap.length && ListHeap.lessAt elemLess heap j best then j else best) := by
  rw [smaller]
  by_cases inside : j < heap.length
  · rw [if_pos inside, lessAt_eq inside (by omega), List.getElem?_eq_getElem inside,
      List.getElem?_eq_getElem (by omega)]
    simp [inside]
  · simp [inside]

theorem siftDown_eq {heap : List HeapElem} {rounds i : Nat} (inside : i ≤ heap.length)
    (enough : heap.length < i + rounds) :
    siftDown rounds heap i = some (ListHeap.siftDown elemLess heap i) := by
  induction rounds generalizing heap i with
  | zero => omega
  | succ rounds ih =>
      have second (best : Nat) (isChild : best = i ∨ best = 2 * i + 1) :=
        @smaller_eq heap (2 * i + 2) best (by omega)
      have chosen : (do smaller heap (2 * i + 2) (← smaller heap (2 * i + 1) i)) =
          some (ListHeap.smallest elemLess heap i) := by
        rw [smaller_eq (by omega), Option.bind_eq_bind, Option.bind_some, second _ (by split <;> simp)]
        rfl
      rw [ListHeap.siftDown, siftDown, ← bind_assoc, chosen, Option.bind_eq_bind, Option.bind_some]
      by_cases stop : ListHeap.smallest elemLess heap i = i
      · rw [if_pos stop, if_pos stop]
        rfl
      · have place := (ListHeap.smallest_cases elemLess heap i).resolve_left stop
        rw [if_neg stop, if_neg stop, swapCells_eq (by omega) place.2]
        exact ih (by rw [ListHeap.swap_length]; omega) (by rw [ListHeap.swap_length]; omega)

theorem heapPop_eq {heap : List HeapElem} (inhabited : 0 < heap.length) :
    heapPop heap = ListHeap.pop elemLess heap := by
  have top : heap[0]? = heap.head? := List.head?_eq_getElem?.symm
  have last : heap[heap.length - 1]? = heap.getLast? := List.getLast?_eq_getElem?.symm
  have sifted (v : HeapElem) : siftDown heap.length (heap.set 0 v).dropLast 0 =
      some (ListHeap.siftDown elemLess (heap.set 0 v).dropLast 0) :=
    siftDown_eq (Nat.zero_le _) (by simp; omega)
  rw [heapPop, ListHeap.pop, top, last]
  cases heap.head? with
  | none => rfl
  | some x =>
      cases heap.getLast? with
      | none => rfl
      | some y => simp [write_eq inhabited, sifted]

theorem getElem?_node {nodes : List HuffNode} {idx : Nat} (bound : idx < nodes.length) :
    nodes[idx]? = some (nodeAt nodes idx) := by
  simp [nodeAt, bound]

theorem read_node {nodes : List HuffNode} {idx : Nat} (bound : idx < nodes.length) :
    read nodes (idx : Int) = some (nodeAt nodes idx) := by
  rw [read, if_pos (Int.natCast_nonneg idx), Int.toNat_natCast, getElem?_node bound]

theorem add_eq {builder : Builder} (nodesRoom : builder.nodes.length < 128)
    (heapRoom : builder.heap.length < 128) (score ch left right : Int) :
    add builder score ch left right = some (builder.add score ch left right) := by
  simp only [add, append_eq nodesRoom, heapPush_eq heapRoom, Option.bind_eq_bind,
    Option.bind_some, Option.pure_def, Builder.add]

theorem mergeOnce_eq {builder : Builder} (ready : builder.Ready) (several : 1 < builder.heap.length)
    (nodesRoom : builder.nodes.length < 128) (heapRoom : builder.heap.length < 128) :
    mergeOnce builder = builder.mergeOnce := by
  obtain ⟨a, afterA, popA⟩ := ListHeap.exists_pop elemLess (show 0 < builder.heap.length by omega)
  have sizeA := ListHeap.pop_length popA
  obtain ⟨b, afterB, popB⟩ := ListHeap.exists_pop elemLess (show 0 < afterA.length by omega)
  have sizeB := ListHeap.pop_length popB
  obtain ⟨queueA, _, aMember⟩ := ready.queue.pop popA
  obtain ⟨_, _, bMember⟩ := queueA.pop popB
  have aLinked := ready.linked a aMember
  have bLinked := ready.linked b ((ListHeap.pop_perm popA).subset (by simp [bMember]))
  have aRead := read_node aLinked.bound
  have bRead := read_node bLinked.bound
  rw [Int.toNat_of_nonneg aLinked.index] at aRead
  rw [Int.toNat_of_nonneg bLinked.index] at bRead
  simp only [mergeOnce, Builder.mergeOnce, heapPop_eq (show 0 < builder.heap.length by omega), popA,
    heapPop_eq (show 0 < afterA.length by omega), popB, aRead, bRead, Option.bind_eq_bind,
    Option.bind_some, Option.pure_def]
  refine Option.bind_congr fun sc _ => ?_
  exact @add_eq ⟨builder.nodes, afterB⟩ nodesRoom (show afterB.length < 128 by omega) _ _ _ _

theorem mergeLoop_eq {builder : Builder} (rounds : Nat) (ready : builder.Ready)
    (room : builder.nodes.length + builder.heap.length ≤ 72)
    (light : (builder.content.map fun x => x.weight).sum < 2 ^ 31) :
    mergeLoop rounds builder = builder.mergeLoop rounds := by
  induction rounds generalizing builder with
  | zero => rfl
  | succ rounds ih =>
      rw [mergeLoop, Builder.mergeLoop]
      split
      · rename_i several
        obtain ⟨merged, found, mergedReady, grown, step⟩ :=
          Builder.mergeOnce_spec ready several light
        have shrunk : merged.heap.length + 1 = builder.heap.length := by
          obtain ⟨x, y, rest, parts, _, _, joined⟩ := step
          have before := parts.length_eq
          have after := joined.length_eq
          simp only [Builder.content, List.length_map, List.length_cons] at before after
          omega
        rw [mergeOnce_eq ready several (by omega) (by omega), found, Option.bind_eq_bind,
          Option.bind_some, Option.bind_some]
        exact ih mergedReady (by omega) (by rwa [step.sum_eq])
      · rfl

theorem leaves_eq (seed : Seed128) {count : Nat} (bound : count ≤ 36) :
    (List.range count).foldlM (addLeaf seed) ⟨[], []⟩ =
      some ((List.range count).foldl (Builder.addLeaf seed) ⟨[], []⟩) := by
  induction count with
  | zero => rfl
  | succ count ih =>
      obtain ⟨builder, built, _, size, content⟩ := Builder.leaves_spec seed (show count ≤ 36 by omega)
      have heapSize := content.length_eq
      simp only [Builder.content, List.length_map, List.length_range] at heapSize
      rw [List.range_succ, List.foldlM_append, ih (by omega), List.foldl_append, built,
        Option.bind_eq_bind, Option.bind_some, List.foldlM_cons, addLeaf, add_eq (by omega) (by omega)]
      rfl

/-- The tree is built without leaving an array. -/
theorem dBuildHuffman_eq (seed : Seed128) : dBuildHuffman seed = Gpu.dBuildHuffman seed := by
  obtain ⟨builder, built, ready, size, content⟩ := Builder.leaves_spec seed (Nat.le_refl 36)
  have heapSize := content.length_eq
  simp only [Builder.content, List.length_map, List.length_range] at heapSize
  have leaves := Scheme.leaves_agenda seed.value
  have agenda : HuffmanTree.Agenda builder.nodes.length builder.content
      (Scheme.sortedLeaves seed.value 36) :=
    ⟨content.trans leaves.perm, leaves.sorted, by rw [size]; exact leaves.fresh⟩
  have light : (builder.content.map fun x => x.weight).sum < 2 ^ 31 := by
    rw [(content.map fun x => x.weight).sum_eq, Scheme.leaves_weight]
    exact Nat.lt_of_le_of_lt (Scheme.leafScore_sum_le seed.value) (by decide)
  obtain ⟨merged, root, found, only, _⟩ :=
    Builder.mergeLoop_spec 36 ready agenda (by omega) (by omega) light
  rw [dBuildHuffman, Gpu.dBuildHuffman, leaves_eq seed (Nat.le_refl 36), built, Option.bind_eq_bind,
    Option.bind_some, mergeLoop_eq 36 ready (by omega) light, found, Option.bind_some,
    heapPop_eq (by simp [only])]
  rfl

/-! The codes and the encoder. -/

theorem pushChild_eq {s : Search} {fr : Frame} (child : Nat) (bit : Nat)
    (deep : fr.bits.length < 23) (space : s.stk.length < 128) :
    pushChild s fr child bit = some ⟨⟨child, fr.bits ++ [bit]⟩ :: s.stk, s.dropped⟩ := by
  rw [pushChild, if_neg (by omega), if_pos deep, append_eq (by omega), Option.bind_eq_bind,
    Option.bind_some, if_pos space]

theorem codeLoop_searches (nodes : List HuffNode) (target dropped : Nat) :
    Gpu.Searches nodes target (fun idx bits => (⟨idx, bits⟩ : Frame))
      (fun code => some (code, dropped)) fun pops stk => codeLoop nodes target pops ⟨stk, dropped⟩ where
  leaf := by
    intro idx bound outer bits stk pops short
    rw [codeLoop, read_node bound, Option.bind_eq_bind, Option.bind_some, if_pos outer]
    by_cases found : (nodeAt nodes idx).ch = target
    · have fits : (if bits.isEmpty then [0] else bits).length ≤ 24 := by
        split
        · decide
        · omega
      rw [if_pos found, if_pos found, append_all fits]
      rfl
    · rw [if_neg found, if_neg found]
  inner := by
    intro idx bound inner left right onLeft onRight bits stk pops deep room
    rw [codeLoop, read_node bound, Option.bind_eq_bind, Option.bind_some,
      if_neg (not_not.mpr inner), onRight, onLeft, pushChild_eq right 1 deep (by simp only; omega),
      Option.bind_eq_bind, Option.bind_some, pushChild_eq left 0 deep (by simpa using room),
      Option.bind_some]

/-- The node that the bits lead to, when every node before it is an inner one. -/
def follow (nodes : List HuffNode) : Int → List Nat → Option HuffNode
  | idx, [] => read nodes idx
  | idx, b :: rest =>
      (read nodes idx).bind fun nd =>
        if nd.ch = -1 then follow nodes (if b = 0 then nd.left else nd.right) rest else none

theorem follow_code {nodes : List HuffNode} (sound : Sound nodes) {target idx : Nat}
    (bound : idx < nodes.length) {bits : List Bool} (coded : (tree nodes idx).code target = some bits) :
    ∃ nd, follow nodes idx (bits.map Bool.toNat) = some nd ∧ nd.ch = target := by
  induction idx using Nat.strongRecOn generalizing bits with
  | ind idx ih =>
      have here := read_node bound
      rcases sound idx bound with labelled | ⟨inner, left, right, onLeft, onRight, leftBound, rightBound⟩
      · rw [tree_leaf labelled, Tree.code, Option.ite_none_right_eq_some] at coded
        obtain ⟨label, empty⟩ := coded
        rw [← Option.some.inj empty]
        exact ⟨nodeAt nodes idx, here, by omega⟩
      · rw [tree_branch inner onLeft onRight leftBound rightBound, Tree.code] at coded
        cases inLeft : (tree nodes left).code target with
        | some more =>
            rw [inLeft] at coded
            obtain ⟨nd, reached, label⟩ := ih left leftBound (by omega) inLeft
            refine ⟨nd, ?_, label⟩
            rw [← Option.some.inj coded]
            simp [follow, here, inner, onLeft, reached]
        | none =>
            rw [inLeft] at coded
            obtain ⟨more, inRight, rfl⟩ := Option.map_eq_some_iff.mp coded
            obtain ⟨nd, reached, label⟩ := ih right rightBound (by omega) inRight
            refine ⟨nd, ?_, label⟩
            simp [follow, here, inner, onRight, reached]

/-- A call that dropped no child and returned the whole path to the leaf of the character. -/
structure CodeCall.Complete (call : CodeCall) : Prop where
  dropped : call.dropped = 0
  inhabited : call.code ≠ []
  path : ∃ nd, follow call.nodes call.root call.code = some nd ∧ nd.ch = call.charIdx
  isChar : 0 ≤ call.charIdx ∧ call.charIdx < 36

theorem dGetCode_spec (seed : Seed128) {c : Nat} (small : c < 36) :
    ∃ nodes root, dBuildHuffman seed = some (nodes, root) ∧
      dGetCode nodes root c = some (Scheme.code seed.value c, 0) ∧
      CodeCall.Complete ⟨nodes, root, c, Scheme.code seed.value c, 0⟩ := by
  obtain ⟨nodes, root, built, sound, inside, shape⟩ := Gpu.dBuildHuffman_spec seed
  have height := Scheme.codeTree_height seed.value
  have size := Tree.size_eq (Scheme.codeTree seed.value)
  rw [(Scheme.codeTree_leaves seed.value).length_eq, List.length_range] at size
  obtain ⟨bits, found⟩ := Scheme.exists_code seed.value small
  have long := (Scheme.code_length_bounds seed.value small).1
  have code : Scheme.code seed.value c = bits.map Bool.toNat := by
    rw [Scheme.code, found, Option.getD_some]
  rw [code] at long ⊢
  have inhabited : bits.isEmpty = false := by
    cases bits with
    | nil => simp at long
    | cons b rest => rfl
  have searched := (codeLoop_searches nodes c 0).spec sound inside [] [] 57
    (by rw [shape]; simp only [List.length_nil]; omega)
    (by rw [shape]; simp only [List.length_nil]; omega)
  rw [shape, found, show (Scheme.codeTree seed.value).size + 57 = 128 by omega] at searched
  obtain ⟨nd, reached, label⟩ := @follow_code nodes sound c root inside bits (by rw [shape, found])
  refine ⟨nodes, root, by rw [dBuildHuffman_eq, built], ?_, rfl, ?_, ⟨nd, reached, label⟩,
    Int.natCast_nonneg c, Int.ofNat_lt.mpr small⟩
  · rw [dGetCode, searched]
    simp [inhabited]
  · intro empty
    have none : bits.map Bool.toNat = [] := empty
    rw [none] at long
    simp at long

structure Encoded.Fits (enc : Encoded) (bits count : Nat) : Prop where
  returned : enc.returned = enc.outBits.length
  inCharset : OverCharset enc.outBits
  short : enc.outBits.length ≤ bits
  complete : ∀ call ∈ enc.calls, call.Complete
  count : enc.calls.length = count

theorem encodeLoop_step {sha : Sha256} {text : List Char} {size ci root dropped : Nat}
    {maxOut sum : Int} {rest code : List Nat} {seed next : Seed128} {out wider : List Char}
    {calls : List CodeCall} {nodes : List HuffNode} {c : Char}
    (built : dBuildHuffman seed = some (nodes, root)) (taken : text[ci]? = some c)
    (coded : dGetCode nodes root (dCharToIdx c) = some (code, dropped))
    (total : int32 (out.length + code.length) = some sum) (room : sum ≤ maxOut)
    (written : code.foldlM (fun out b => append size out (Char.ofNat (48 + b))) out = some wider)
    (updated : Gpu.dUpdateSeed sha seed c = some next) :
    encodeLoop sha text size maxOut (ci :: rest) seed out calls =
      encodeLoop sha text size maxOut rest next wider
        (calls ++ [⟨nodes, root, dCharToIdx c, code, dropped⟩]) := by
  rw [encodeLoop, built, Option.bind_eq_bind, Option.bind_some, taken]
  simp only [Option.bind_eq_bind, Option.bind_some, coded, total]
  rw [if_neg (by omega), written, Option.bind_some, updated, Option.bind_some]

theorem encodeLoop_cons (sha : Sha256) {text : List Char} (inCharset : OverCharset text) {size ci : Nat}
    (inside : ci < text.length) (rest : List Nat) (seed : Seed128) {out : List Char}
    (room : out.length + 22 ≤ size) (small : size ≤ 4096) (calls : List CodeCall) :
    ∃ bits call next, encodeLoop sha text size size (ci :: rest) seed out calls =
        encodeLoop sha text size size rest next (out ++ bits) (calls ++ [call]) ∧
      call.Complete ∧ OverCharset bits ∧ bits.length ≤ 22 := by
  obtain ⟨c, cSmall, spelled⟩ := exists_chr (inCharset _ (List.getElem_mem inside))
  obtain ⟨nodes, root, built, coded, complete⟩ := dGetCode_spec seed cSmall
  obtain ⟨tmp, updated⟩ := exists_dUpdateSeed sha seed (chr c)
  have bounds := (Scheme.code_length_bounds seed.value cSmall).2
  have bits := Scheme.code_bits seed.value c
  have spelling := Gpu.spelled_bits seed.value c
  generalize Scheme.code seed.value c = code at coded complete bounds bits spelling
  generalize Seed128.fromHash (sha tmp.reverse).toList = next at updated
  have sum : int32 ((out.length : Int) + code.length) = some ((out.length : Int) + code.length) :=
    int32_of_range (by omega) (by omega)
  have written : code.foldlM (fun out b => append size out (Char.ofNat (48 + b))) out =
      some (out ++ code.map chr) := by
    rw [← spelling]
    exact Loops.foldlM_append (show out.length + code.length ≤ size by omega)
      fun buf b _ space => append_eq space _
  have taken : text[ci]? = some (chr c) := by rw [List.getElem?_eq_getElem inside, spelled]
  rw [← dCharToIdx_chr cSmall] at coded complete
  refine ⟨code.map chr, _, next,
    encodeLoop_step built taken coded sum (by omega) written updated, complete, ?_,
    by rwa [List.length_map]⟩
  exact overCharset_map_chr fun b member => Nat.lt_of_lt_of_le (bits b member) (by decide)

theorem exists_encodeLoop (sha : Sha256) {text : List Char} (inCharset : OverCharset text) {size : Nat}
    (small : size ≤ 4096) {places : List Nat} (inside : ∀ ci ∈ places, ci < text.length)
    (seed : Seed128) {out : List Char} (outOver : OverCharset out)
    (room : out.length + 22 * places.length ≤ size) {calls : List CodeCall}
    (complete : ∀ call ∈ calls, call.Complete) :
    ∃ enc, encodeLoop sha text size size places seed out calls = some enc ∧
      enc.Fits (out.length + 22 * places.length) (calls.length + places.length) := by
  induction places generalizing seed out calls with
  | nil => exact ⟨⟨out.length, out, calls⟩, rfl, rfl, outOver, Nat.le_refl _, complete, rfl⟩
  | cons ci rest ih =>
      rw [List.length_cons] at room ⊢
      obtain ⟨bits, call, next, step, done, bitsOver, bitsShort⟩ :=
        encodeLoop_cons sha inCharset (inside ci List.mem_cons_self) rest seed
          (show out.length + 22 ≤ size by omega) small calls
      obtain ⟨enc, encoded, fits⟩ := @ih (fun i later => inside i (List.mem_cons_of_mem ci later)) next
        (out ++ bits) (outOver.append bitsOver) (by rw [List.length_append]; omega) (calls ++ [call])
        (List.forall_mem_append.mpr ⟨complete, List.forall_mem_singleton.mpr done⟩)
      have short := fits.short
      have count := fits.count
      rw [List.length_append] at short count
      rw [List.length_singleton] at count
      exact ⟨enc, step.trans encoded, fits.returned, fits.inCharset, by omega, fits.complete, by omega⟩

theorem exists_dScoreTreeEncode (sha : Sha256) {text key : List Char} (inCharset : OverCharset text)
    (keyOver : OverCharset key) (keyShort : key.length ≤ 4) {n roundNum size : Nat}
    {maxOut : Int} (length : text.length = n) (rounds : roundNum = 1 ∨ roundNum = 2)
    (room : 22 * n ≤ size) (small : size ≤ 4096) (limit : maxOut = size) :
    ∃ enc, dScoreTreeEncode sha text n key roundNum size maxOut = some enc ∧
      enc.Fits (22 * n) n := by
  obtain ⟨indices, known, rfl⟩ := keyOver.exists_indices
  have light := List.sum_le_card_nsmul (indices.map ord) 128 (by
    intro x member
    obtain ⟨i, listed, rfl⟩ := List.mem_map.mp member
    exact Nat.le_of_lt (ord_lt (known i listed)))
  rw [List.length_map, smul_eq_mul] at light
  rw [List.length_map] at keyShort
  have fits : Scheme.initialSeed indices roundNum ≤ 2147483647 := by
    rw [Scheme.initialSeed]
    omega
  obtain ⟨enc, encoded, enough⟩ := @exists_encodeLoop sha text inCharset size small (List.range n)
    (fun ci member => by rw [length]; exact List.mem_range.mp member)
    ⟨0, UInt64.ofInt (Scheme.initialSeed indices roundNum : Nat)⟩ [] (by simp [OverCharset])
    (by simpa using room) [] (by simp)
  refine ⟨enc, ?_, by simpa using enough⟩
  rw [limit, dScoreTreeEncode, seedInit_eq known rounds, if_pos fits]
  exact encoded

/-! The whole function. -/

theorem exists_compareLoop {bits2 : List Char} (target : Vector Char 120) {places : List Nat}
    (inside : ∀ i ∈ places, i < 119 ∧ i < bits2.length) :
    ∃ same, compareLoop bits2 target places = some same := by
  induction places with
  | nil => exact ⟨true, rfl⟩
  | cons i rest ih =>
      obtain ⟨small, bound⟩ := inside i List.mem_cons_self
      obtain ⟨same, compared⟩ := ih fun j later => inside j (List.mem_cons_of_mem i later)
      have known : i < target.toList.length := by simp; omega
      rw [compareLoop, List.getElem?_eq_getElem bound, List.getElem?_eq_getElem known]
      simp only [Option.bind_eq_bind, Option.bind_some]
      split
      · exact ⟨false, rfl⟩
      · exact ⟨same, compared⟩

theorem dEncryptMatches_eq {sha : Sha256} {target : Vector Char 120}
    {key poker text poker2 text2 : List Char} {first second : Encoded}
    (substituted : dPokerSubstitute dPlain 4 (dKeyToSeed key) 1 = some poker)
    (permuted : dPermute poker 4 (dKeyToSeed key) 1 = some text)
    (encoded : dScoreTreeEncode sha text 4 key 1 512 512 = some first)
    (len1 : first.returned = first.outBits.length)
    (substituted2 : dPokerSubstitute first.outBits first.outBits.length (dKeyToSeed key) 2 =
      some poker2)
    (permuted2 : permuteBits poker2 first.outBits.length (dKeyToSeed key) = some text2)
    (encoded2 : dScoreTreeEncode sha text2 first.outBits.length key 2 (512 * 8) (512 * 8) =
      some second)
    (len2 : second.returned = second.outBits.length) :
    dEncryptMatches sha target key =
      if second.returned ≠ 119 then
        some ⟨false, [first.returned, second.returned], first.calls ++ second.calls⟩
      else (compareLoop second.outBits target (List.range 119)).map fun isMatch =>
        ⟨isMatch, [first.returned, second.returned], first.calls ++ second.calls⟩ := by
  have nonneg : ¬first.returned < 0 := by omega
  have nonneg2 : ¬second.returned < 0 := by omega
  have count : first.returned.toNat = first.outBits.length := by omega
  rw [dEncryptMatches, substituted, Option.bind_eq_bind, Option.bind_some, permuted,
    Option.bind_eq_bind, Option.bind_some, encoded, Option.bind_eq_bind, Option.bind_some,
    if_neg nonneg, count]
  dsimp only
  rw [substituted2, Option.bind_some, permuted2, Option.bind_some, encoded2, Option.bind_some,
    if_neg nonneg2]
  split
  · rfl
  · cases compareLoop second.outBits target (List.range 119) <;> rfl

/-- For every key and hash no access leaves its array, no child is dropped, every code is a whole
path and no encoder gives up. -/
theorem encrypt_inside (sha : Sha256) (target : Vector Char 120) {key : List Char}
    (inCharset : OverCharset key) (size : 1 ≤ key.length ∧ key.length ≤ 4) :
    ∃ (outcome : Outcome) (len1 len2 : Nat), dEncryptMatches sha target key = some outcome ∧
      outcome.returned = [(len1 : Int), (len2 : Int)] ∧ len1 ≤ 88 ∧ len2 ≤ 1936 ∧
      outcome.calls.length = 4 + len1 ∧ ∀ call ∈ outcome.calls, call.Complete := by
  obtain ⟨poker, substituted, pokerOver, pokerSize⟩ := @exists_dPokerSubstitute dPlain 4 (by decide)
    rfl (by decide) (dKeyToSeed key) 1 (by decide)
  obtain ⟨text, permuted, textOver, textSize⟩ := @exists_permuteWith poker 4 4 pokerOver pokerSize
    (Nat.le_refl 4) (by decide) (dKeyToSeed key) 1 (by decide)
  obtain ⟨first, encoded, fits⟩ := @exists_dScoreTreeEncode sha text key textOver inCharset size.2 4 1 512 512
    textSize (Or.inl rfl) (by decide) (by decide) rfl
  have short := fits.short
  obtain ⟨poker2, substituted2, poker2Over, poker2Size⟩ := @exists_dPokerSubstitute first.outBits
    first.outBits.length fits.inCharset rfl (by omega) (dKeyToSeed key) 2 (Nat.le_refl 2)
  obtain ⟨text2, permuted2, text2Over, text2Size⟩ := @exists_permuteWith poker2 _ 512 poker2Over
    poker2Size (by omega) (by omega) (dKeyToSeed key) 2 (Nat.le_refl 2)
  obtain ⟨second, encoded2, fits2⟩ := @exists_dScoreTreeEncode sha text2 key text2Over inCharset size.2 _ 2
    (512 * 8) (512 * 8) text2Size (Or.inr rfl) (by omega) (by decide) rfl
  have short2 := fits2.short
  have all : ∀ call ∈ first.calls ++ second.calls, call.Complete :=
    List.forall_mem_append.mpr ⟨fits.complete, fits2.complete⟩
  have count : (first.calls ++ second.calls).length = 4 + first.outBits.length := by
    rw [List.length_append, fits.count, fits2.count]
  have run (isMatch : Bool) (same : dEncryptMatches sha target key =
      some ⟨isMatch, [first.returned, second.returned], first.calls ++ second.calls⟩) :
      ∃ (outcome : Outcome) (len1 len2 : Nat), dEncryptMatches sha target key = some outcome ∧
        outcome.returned = [(len1 : Int), (len2 : Int)] ∧ len1 ≤ 88 ∧ len2 ≤ 1936 ∧
        outcome.calls.length = 4 + len1 ∧ ∀ call ∈ outcome.calls, call.Complete :=
    ⟨_, first.outBits.length, second.outBits.length, same, by rw [fits.returned, fits2.returned],
      by omega, by omega, count, all⟩
  have shape := @dEncryptMatches_eq sha target key poker text poker2 text2 first second substituted
    permuted encoded fits.returned substituted2 permuted2 encoded2 fits2.returned
  by_cases long : second.returned ≠ 119
  · exact run false (by rw [shape, if_pos long])
  · have size2 : second.outBits.length = 119 := by
      have exact119 := not_not.mp long
      rw [fits2.returned] at exact119
      omega
    obtain ⟨same, compared⟩ := @exists_compareLoop second.outBits target (List.range 119)
      fun i member => by
        have bound := List.mem_range.mp member
        exact ⟨bound, by omega⟩
    exact run same (by rw [shape, if_neg long, compared]; rfl)

theorem encrypt_inside_wlaq :
    ∃ (outcome : Outcome) (len1 len2 : Nat),
      dEncryptMatches zeroHash (Vector.replicate 120 '0') ['w', 'l', 'a', 'q'] = some outcome ∧
      outcome.returned = [(len1 : Int), (len2 : Int)] ∧ len1 ≤ 88 ∧ len2 ≤ 1936 ∧
      outcome.calls.length = 4 + len1 ∧ ∀ call ∈ outcome.calls, call.Complete :=
  encrypt_inside zeroHash _ (by decide) (by decide)

end CudaOpenMp.GpuMatches
