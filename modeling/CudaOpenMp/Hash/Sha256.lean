import CudaOpenMp.Hash.Sha256Core
import CudaOpenMp.Library.Loops
import Mathlib.Tactic.Common

/-!
The two SHA-256 functions fill their blocks in different orders and at different times, but with
the same bytes.
-/

namespace CudaOpenMp

namespace BlockBuffer

theorem write_eq (front back : List UInt8) (old v : UInt8) :
    write (front ++ old :: back) front.length v = some (front ++ v :: back) := by
  have inside : front.length < (front ++ old :: back).length := by simp
  rw [write, if_pos inside, List.set_append_right _ _ (Nat.le_refl _), Nat.sub_self, List.set_cons_zero]

theorem store_eq {front old bytes : List UInt8} (back : List UInt8)
    (size : old.length = bytes.length) :
    store (front ++ (old ++ back)) front.length bytes = some (front ++ (bytes ++ back)) := by
  induction bytes generalizing front old with
  | nil => rw [List.length_eq_zero_iff.mp size, store]
  | cons v rest ih =>
      cases old with
      | nil => cases size
      | cons o more =>
          have tail := @ih (front ++ [v]) more (by simpa using size)
          simp only [List.append_assoc, List.singleton_append, List.length_append,
            List.length_singleton] at tail
          rw [store, List.cons_append, write_eq, Option.bind_eq_bind, Option.bind_some, tail,
            List.cons_append]

theorem storeDown_eq {front old bytes : List UInt8} (back : List UInt8) {i : Nat}
    (size : old.length = bytes.length) (last : i + 1 = front.length + bytes.length) :
    storeDown (front ++ (old ++ back)) i bytes = some (front ++ (bytes.reverse ++ back)) := by
  induction bytes generalizing old back i with
  | nil => rw [List.length_eq_zero_iff.mp size, storeDown, List.reverse_nil]
  | cons v rest ih =>
      obtain ⟨more, o, rfl⟩ : ∃ more o, old = more ++ [o] :=
        ⟨old.dropLast, old.getLast (by rintro rfl; cases size), (List.dropLast_append_getLast _).symm⟩
      have sameSize : more.length = rest.length := by simpa using size
      obtain rfl : i = (front ++ more).length := by simp at last ⊢; omega
      have written : write (front ++ ((more ++ [o]) ++ back)) (front ++ more).length v =
          some (front ++ (more ++ (v :: back))) := by
        simpa using write_eq (front ++ more) back o v
      rw [storeDown, written, Option.bind_eq_bind, Option.bind_some, List.reverse_cons,
        List.append_assoc, List.singleton_append]
      cases rest with
      | nil => rw [List.length_eq_zero_iff.mp sameSize, storeDown, List.reverse_nil]
      | cons _ _ => exact ih (v :: back) sameSize (by simp at last sameSize ⊢; omega)

theorem exists_readWord {buf : List UInt8} {i : Nat} (room : i + 3 < buf.length) :
    ∃ word, readWord buf i = some word := by
  have h0 : i < buf.length := by omega
  have h1 : i + 1 < buf.length := by omega
  have h2 : i + 2 < buf.length := by omega
  rw [← Option.isSome_iff_exists]
  simp [readWord, h0, h1, h2, room]

/-- The message, the byte `0x80` and zeros to the end of the buffer. -/
def marked (msg : List UInt8) : List UInt8 := msg ++ 0x80 :: List.replicate (127 - msg.length) 0

theorem mark_eq {msg : List UInt8} (short : msg.length ≤ 127) :
    (do write (← store (List.replicate 128 0) 0 msg) msg.length 0x80) = some (marked msg) := by
  have split : List.replicate 128 (0 : UInt8) =
      List.replicate msg.length 0 ++ 0 :: List.replicate (127 - msg.length) 0 := by
    rw [← List.replicate_succ, ← List.replicate_add]
    congr 1
    omega
  have stored := @store_eq [] (List.replicate msg.length 0) msg
    (0 :: List.replicate (127 - msg.length) 0) List.length_replicate
  rw [List.nil_append, List.nil_append, List.length_nil, ← split] at stored
  rw [stored, Option.bind_eq_bind, Option.bind_some, write_eq, marked]

/-- The marked message with eight bytes of its zeros replaced. -/
def padded (msg bytes : List UInt8) (size : Nat) : List UInt8 :=
  (msg ++ 0x80 :: List.replicate (size - 9 - msg.length) 0) ++ (bytes ++ List.replicate (128 - size) 0)

theorem marked_split {msg : List UInt8} {size : Nat} (room : msg.length + 9 ≤ size)
    (fits : size ≤ 128) :
    marked msg = padded msg (List.replicate 8 0) size := by
  have zeros : List.replicate (127 - msg.length) (0 : UInt8) =
      List.replicate (size - 9 - msg.length) 0 ++
        (List.replicate 8 0 ++ List.replicate (128 - size) 0) := by
    rw [← List.replicate_add, ← List.replicate_add]
    congr 1
    omega
  rw [marked, zeros, padded, List.append_assoc, List.cons_append]

end BlockBuffer

open BlockBuffer

namespace Sha256Impl

theorem exists_block {buf : List UInt8} {off : Nat} (room : off + 64 ≤ buf.length)
    (h : HashWords) : ∃ next, block buf h off = some next := by
  obtain ⟨w, words, _⟩ := @Loops.exists_mapM _ _ (fun _ => True)
    (fun i => readWord buf (off + 4 * i)) (List.range 16) (by
      intro i member
      have bound := List.mem_range.mp member
      obtain ⟨word, found⟩ := exists_readWord (show off + 4 * i + 3 < buf.length by omega)
      exact ⟨word, found, trivial⟩)
  exact ⟨_, by rw [block, words]; rfl⟩

end Sha256Impl

namespace GpuSha256

theorem round_eq : round = Sha256Impl.round := rfl

theorem schedule_eq : schedule = Sha256Impl.schedule := rfl

theorem block_eq (buf : List UInt8) (hash : HashWords) (blk : Nat) :
    block buf hash blk = Sha256Impl.block buf hash (64 * blk) := by
  have index : ∀ i, blk * 64 + i * 4 = 64 * blk + 4 * i := fun i => by omega
  simp only [block, Sha256Impl.block, index, round_eq, schedule_eq]

end GpuSha256

/-! The two functions -/

def paddedSize (len : Nat) : Nat := if len < 56 then 64 else 128

def lengthBytes (len : Nat) : List UInt8 :=
  (List.range 8).map fun i => ((UInt64.ofNat len * 8) >>> UInt64.ofNat (56 - 8 * i)).toUInt8

def blocks (msg : List UInt8) : List UInt8 :=
  padded msg (lengthBytes msg.length) (paddedSize msg.length)

theorem blocks_length {msg : List UInt8} (short : msg.length ≤ 119) : (blocks msg).length = 128 := by
  unfold blocks padded lengthBytes paddedSize
  split <;> simp <;> omega

/-- The hash both functions compute: one block or two of the common buffer. -/
def hashBlocks (msg : List UInt8) : Option HashWords :=
  (List.range (paddedSize msg.length / 64)).foldlM
    (fun h blk => Sha256Impl.block (blocks msg) h (64 * blk)) Sha256Impl.initial

theorem exists_hashBlocks {msg : List UInt8} (short : msg.length ≤ 119) :
    ∃ words, hashBlocks msg = some words := by
  obtain ⟨words, hashed, _⟩ := @Loops.exists_foldlM _ _
    (fun h blk => Sha256Impl.block (blocks msg) h (64 * blk)) (fun _ _ => True)
    (List.range (paddedSize msg.length / 64)) 0 Sha256Impl.initial trivial (by
      intro k h blk member _ _
      have bound := List.mem_range.mp member
      have room : 64 * blk + 64 ≤ (blocks msg).length := by
        rw [blocks_length short]
        unfold paddedSize at bound
        split at bound <;> omega
      obtain ⟨next, mixed⟩ := Sha256Impl.exists_block room h
      exact ⟨next, mixed, trivial⟩)
  exact ⟨words, hashed⟩

theorem paddedSize_room {len : Nat} (short : len ≤ 119) :
    len + 9 ≤ paddedSize len ∧ paddedSize len ≤ 128 := by
  unfold paddedSize
  split <;> omega

theorem paddedSize_eq {len : Nat} (short : len ≤ 119) :
    (len + 9 + 63) / 64 * 64 = paddedSize len := by
  unfold paddedSize
  split <;> omega

theorem Sha256Impl.sha256_eq {msg : List UInt8} (short : msg.length ≤ 119) :
    sha256 msg = (hashBlocks msg).map fun h => h.toList.flatMap bytes := by
  obtain ⟨room, fits⟩ := paddedSize_room short
  have zeros := marked_split room fits
  have marking := mark_eq (show msg.length ≤ 127 by omega)
  have position : paddedSize msg.length - 8 =
      (msg ++ 0x80 :: List.replicate (paddedSize msg.length - 9 - msg.length) 0).length := by
    simp
    omega
  have filled : store (marked msg) (paddedSize msg.length - 8) (lengthBytes msg.length) =
      some (blocks msg) := by
    rw [zeros, position, blocks, padded, padded]
    exact store_eq _ rfl
  rw [Option.bind_eq_bind] at marking
  rw [sha256]
  simp only [paddedSize_eq short, Option.bind_eq_bind, ← Option.bind_assoc, marking]
  simp only [Option.bind_some]
  change ((store (marked msg) (paddedSize msg.length - 8) (lengthBytes msg.length)).bind _).bind _ = _
  rw [filled, Option.bind_some, List.foldlM_map]
  change (hashBlocks msg).bind _ = _
  cases hashBlocks msg <;> rfl

theorem GpuSha256.dSha256_eq {msg : List UInt8} (short : msg.length ≤ 119) :
    dSha256 msg = hashBlocks msg := by
  obtain ⟨room, fits⟩ := paddedSize_room short
  have zeros := marked_split room fits
  have marking := mark_eq (show msg.length ≤ 127 by omega)
  have position : (paddedSize msg.length - 1) + 1 =
      (msg ++ 0x80 :: List.replicate (paddedSize msg.length - 9 - msg.length) 0).length +
        ((lengthBytes msg.length).reverse).length := by
    simp [lengthBytes]
    omega
  have filled : storeDown (marked msg) (paddedSize msg.length - 1) (lengthBytes msg.length).reverse =
      some (blocks msg) := by
    have down := storeDown_eq (List.replicate (128 - paddedSize msg.length) 0)
      (List.length_replicate (n := 8) (a := (0 : UInt8))) position
    rw [List.reverse_reverse] at down
    rw [zeros, blocks, padded, padded]
    exact down
  have choice : (if msg.length < 56 then (1, 63) else (2, 127)) =
      (paddedSize msg.length / 64, paddedSize msg.length - 1) := by
    unfold paddedSize
    split <;> rfl
  rw [Option.bind_eq_bind] at marking
  rw [dSha256]
  simp only [choice, Option.bind_eq_bind, ← Option.bind_assoc, marking]
  simp only [Option.bind_some]
  change (storeDown (marked msg) (paddedSize msg.length - 1) (lengthBytes msg.length).reverse).bind _ = _
  rw [filled, Option.bind_some]
  rw [show block (blocks msg) = fun h blk => Sha256Impl.block (blocks msg) h (64 * blk) from
    funext₂ (block_eq (blocks msg))]
  rfl

/-- A message of at most 119 bytes has the same digest on both sides, and no access leaves the
buffer. -/
theorem digests_agree (msg : List UInt8) (short : msg.length ≤ 119) :
    ∃ words, GpuSha256.dSha256 msg = some words ∧
      Sha256Impl.sha256 msg = some (words.toList.flatMap Sha256Impl.bytes) := by
  obtain ⟨words, computed⟩ := exists_hashBlocks short
  refine ⟨words, ?_, ?_⟩
  · rw [GpuSha256.dSha256_eq short, computed]
  · rw [Sha256Impl.sha256_eq short, computed, Option.map_some]

theorem digests_agree_abc : [(97 : UInt8), 98, 99].length ≤ 119 ∧
    ∃ words, GpuSha256.dSha256 [97, 98, 99] = some words ∧
      Sha256Impl.sha256 [97, 98, 99] = some (words.toList.flatMap Sha256Impl.bytes) :=
  ⟨by decide, digests_agree [97, 98, 99] (by decide)⟩

example : GpuSha256.dSha256 [97, 98, 99] = some ⟨0xba7816bf, 0x8f01cfea, 0x414140de, 0x5dae2223,
    0xb00361a3, 0x96177a9c, 0xb410ff61, 0xf20015ad⟩ := by
  decide +kernel

end CudaOpenMp
