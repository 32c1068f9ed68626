import CudaOpenMp.Library.Raster
import CudaOpenMp.Library.CInt
import CudaOpenMp.Library.Stores
import Mathlib.Data.Fintype.Prod
import Mathlib.Data.List.GetD
import Mathlib.Tactic.FinCases

/-!
The green-screen filters `cuda_volume.cu` and `cuda_volume2.cu`. Both copy frames from the
standard input to the device and back, one at a time or in batches. Whether one byte exceeds
another times `1.1f` is a parameter.
-/

namespace CudaOpenMp.ChromaKey

open Rasters Stores

def batchSize : Nat := 4

/-- A byte of the frames on the device, or a local variable of a thread. -/
inductive Cell (ι : Type) where
  | frame (index : Nat)
  | channel (thread : ι) (c : Fin 3)
  deriving DecidableEq

abbrev Statement (ι : Type) := Assign fun _ : Cell ι => UInt8

abbrev Bytes := Nat → UInt8

section
variable (above : UInt8 → UInt8 → Bool)

def isGreen (r g b : UInt8) : Bool := g > 100 && above g r && above g b

variable (bg : Bytes) {ι : Type} (thread : ι)

def loadByte (pixel : Nat) (c : Fin 3) : Statement ι :=
  assign (.channel thread c) fun m => m (.frame (pixel + c))

def storeByte (pixel background : Nat) (c : Fin 3) : Statement ι :=
  ⟨.frame (pixel + c), fun m =>
    if isGreen above (m (.channel thread 0)) (m (.channel thread 1)) (m (.channel thread 2)) then
      some (bg (background + c))
    else none⟩

def keyPixel (pixel background : Nat) : List (Statement ι) :=
  [loadByte thread pixel 0, loadByte thread pixel 1, loadByte thread pixel 2,
    storeByte above bg thread pixel background 0, storeByte above bg thread pixel background 1,
    storeByte above bg thread pixel background 2]

variable (w h : Nat)

abbrev Single := Place (gridSize w h (16, 16)) (16, 16)

abbrev Multi := Place (gridSize w h (16, 16)) (16, 16) × Fin batchSize

def singleSpot (place : Single w h) : Option (Nat × Nat) :=
  let (x, y) := place.pixel
  if x < w ∧ y < h then some ((y * w + x) * 3, (y * w + x) * 3) else none

def multiSpot (place : Multi w h) : Option (Nat × Nat) :=
  let (x, y) := place.1.pixel
  let frameOffset := place.2 * w * h * 3
  if x < w ∧ y < h then some (frameOffset + (y * w + x) * 3, (y * w + x) * 3) else none

def chromaKeyKernel (place : Single w h) : List (Statement (Single w h)) :=
  match singleSpot w h place with
  | some (pixel, background) => keyPixel above bg place pixel background
  | none => []

def chromaKeyMultiKernel (place : Multi w h) : List (Statement (Multi w h)) :=
  match multiSpot w h place with
  | some (pixel, background) => keyPixel above bg place pixel background
  | none => []

end

/-- A launch on frames that are copied to the device before and back afterwards. -/
def OnDevice {ι : Type} [DecidableEq ι] (kernel : ι → List (Statement ι)) (before after : Bytes) :
    Prop :=
  ∃ start final : Memory fun _ : Cell ι => UInt8, (∀ index, start (.frame index) = before index) ∧
    Launch kernel start final ∧ ∀ index, after index = final (.frame index)

def fread (buffer : Bytes) (chunk : List UInt8) : Bytes := fun index => chunk.getD index (buffer index)

def fwrite (size : Nat) (buffer : Bytes) : List UInt8 := (List.range size).map buffer

/-- The loop with a buffer of `size` bytes: the rest of the input, and what is written for it. -/
inductive Loop (size : Nat) (device : Bytes → Bytes → Prop) :
    Bytes → List UInt8 → List UInt8 → Prop
  | stop {buffer : Bytes} {stdin : List UInt8} :
      ¬(stdin.take size).length > 0 → Loop size device buffer stdin []
  | more {buffer frames : Bytes} {stdin stdout : List UInt8} :
      (stdin.take size).length > 0 → device (fread buffer (stdin.take size)) frames →
      Loop size device frames (stdin.drop size) stdout →
      Loop size device buffer stdin (fwrite size frames ++ stdout)

def frameBytes (w h : Nat) : Option Nat := do
  let area ← int32 (w * h)
  let bytes ← int32 (area * 3)
  return bytes.toNat

/-- `batch_bytes` is a `size_t`, but `new` gets a product of ints. -/
def batchBytes (w h : Nat) : Option Nat := do
  let frame ← frameBytes w h
  let _ ← int32 (frame * batchSize)
  return frame * batchSize

/-- What a program writes; it has no defined behaviour when the size of its buffer overflows. -/
inductive Writes (device : Bytes → Bytes → Prop) (buffer : Bytes) (stdin : List UInt8) :
    Option Nat → Option (List UInt8) → Prop
  | overflow : Writes device buffer stdin none none
  | run {size : Nat} {stdout : List UInt8} : Loop size device buffer stdin stdout →
      Writes device buffer stdin (some size) (some stdout)

section
variable (above : UInt8 → UInt8 → Bool) (bg : Bytes) (w h : Nat) (buffer : Bytes)
  (stdin : List UInt8)

def SingleMain : Option (List UInt8) → Prop :=
  Writes (OnDevice (chromaKeyKernel above bg w h)) buffer stdin (frameBytes w h)

def BatchMain : Option (List UInt8) → Prop :=
  Writes (OnDevice (chromaKeyMultiKernel above bg w h)) buffer stdin (batchBytes w h)

end

/-! What a launch does to the frames. -/

section
variable (above : UInt8 → UInt8 → Bool) (bg : Bytes)

def keyed (size : Nat) (frames : Bytes) (index : Nat) : UInt8 :=
  let pixel := index / 3 * 3
  if isGreen above (frames pixel) (frames (pixel + 1)) (frames (pixel + 2)) then bg (index % size)
  else frames index

variable {above bg} {ι : Type}

theorem keyPixel_exec [DecidableEq ι] (thread : ι) (pixel background : Nat)
    (start : Memory fun _ : Cell ι => UInt8) (c : Fin 3) :
    exec (keyPixel above bg thread pixel background) start (.frame (pixel + c)) =
      if isGreen above (start (.frame pixel)) (start (.frame (pixel + 1)))
          (start (.frame (pixel + 2))) then bg (background + c)
      else start (.frame (pixel + c)) := by
  by_cases green : isGreen above (start (.frame pixel)) (start (.frame (pixel + 1)))
      (start (.frame (pixel + 2)))
  · fin_cases c <;> simp [keyPixel, exec, Assign.run, loadByte, storeByte, assign, green]
  · fin_cases c <;> simp [keyPixel, exec, Assign.run, loadByte, storeByte, assign, green]

/-- Threads that share out the pixels of `total` bytes, with `size` bytes in a frame. -/
structure Covers (size total : Nat) (spot : ι → Option (Nat × Nat)) : Prop where
  valid : ∀ i p q, spot i = some (p, q) → 3 ∣ p ∧ p < total ∧ q = p % size
  apart : ∀ i j p q r, spot i = some (p, q) → spot j = some (p, r) → i = j
  all : ∀ p, 3 ∣ p → p < total → ∃ i q, spot i = some (p, q)

def program (above : UInt8 → UInt8 → Bool) (bg : Bytes) (spot : ι → Option (Nat × Nat)) (i : ι) :
    List (Statement ι) :=
  match spot i with
  | some (pixel, background) => keyPixel above bg i pixel background
  | none => []

def Owns (spot : ι → Option (Nat × Nat)) (i : ι) : Cell ι → Prop
  | .frame index => ∃ p q, spot i = some (p, q) ∧ p ≤ index ∧ index < p + 3
  | .channel thread _ => thread = i

theorem mem_keyPixel {thread : ι} {pixel background : Nat} {a : Statement ι} :
    a ∈ keyPixel above bg thread pixel background ↔ ∃ c, a = loadByte thread pixel c ∨
      a = storeByte above bg thread pixel background c := by
  simp only [keyPixel, List.mem_cons, List.not_mem_nil, or_false]
  constructor
  · rintro (rfl | rfl | rfl | rfl | rfl | rfl)
    · exact ⟨0, Or.inl rfl⟩
    · exact ⟨1, Or.inl rfl⟩
    · exact ⟨2, Or.inl rfl⟩
    · exact ⟨0, Or.inr rfl⟩
    · exact ⟨1, Or.inr rfl⟩
    · exact ⟨2, Or.inr rfl⟩
  · rintro ⟨c, rfl | rfl⟩ <;> fin_cases c <;> simp

variable {spot : ι → Option (Nat × Nat)} {size total : Nat}

theorem program_owned (covers : Covers size total spot) :
    Owned (program above bg spot) (Owns spot) where
  apart := by
    intro i j cell first second
    cases cell with
    | frame index =>
        obtain ⟨p, q, here, lower, upper⟩ := first
        obtain ⟨r, t, there, below, beyond⟩ := second
        have same : p = r := by
          have := (covers.valid i p q here).1
          have := (covers.valid j r t there).1
          omega
        subst same
        exact covers.apart i j p q t here there
    | channel thread c => exact first.symm.trans second
  writes := by
    intro i a member
    rw [program] at member
    split at member
    · next p q here =>
      obtain ⟨c, rfl | rfl⟩ := mem_keyPixel.mp member
      · exact rfl
      · exact ⟨p, q, here, Nat.le_add_right p c, Nat.add_lt_add_left c.isLt p⟩
    · cases member
  reads := by
    intro i a member m m' agree
    rw [program] at member
    split at member
    · next p q here =>
      obtain ⟨c, rfl | rfl⟩ := mem_keyPixel.mp member
      · have own : Owns spot i (.frame (p + c)) :=
          ⟨p, q, here, Nat.le_add_right p c, Nat.add_lt_add_left c.isLt p⟩
        simp only [loadByte, assign, agree _ (Or.inl own)]
      · have own (channel : Fin 3) : Owns spot i (.channel i channel) := rfl
        simp only [storeByte, agree _ (Or.inl (own _))]
    · cases member

theorem mod_pixel (index : Nat) (rgb : 3 ∣ size) :
    index % size = index / 3 * 3 % size + index % 3 := by
  obtain ⟨pixels, rfl⟩ := rgb
  rw [Nat.mod_mul, Nat.mul_comm 3 pixels, Nat.mul_mod_mul_right, Nat.mul_comm 3, Nat.add_comm]

theorem onDevice_eq [DecidableEq ι] (covers : Covers size total spot) (rgb : 3 ∣ size)
    {before after : Bytes} (run : OnDevice (program above bg spot) before after) {index : Nat}
    (below : index < total) : after index = keyed above bg size before index := by
  obtain ⟨start, final, copied, launch, back⟩ := run
  obtain ⟨i, q, here⟩ := covers.all (index / 3 * 3) (Nat.dvd_mul_left 3 _) (by omega)
  have whole : index / 3 * 3 + index % 3 = index := Nat.div_add_mod' index 3
  have channel := @keyPixel_exec above bg ι _ i (index / 3 * 3) q start
    ⟨index % 3, Nat.mod_lt index (by decide)⟩
  have owns : Owns spot i (.frame index) := ⟨_, q, here, by omega, by omega⟩
  have mine := ((program_owned covers).launch launch).1 i _ owns
  simp only [program, here] at mine
  rw [whole] at channel
  rw [back, mine, channel, keyed, (covers.valid i _ q here).2.2, ← mod_pixel index rgb]
  simp only [copied]

theorem exists_onDevice [DecidableEq ι] [Fintype ι] (kernel : ι → List (Statement ι))
    (before : Bytes) : ∃ after, OnDevice kernel before after := by
  let start : Memory fun _ : Cell ι => UInt8 := fun cell =>
    match cell with
    | .frame index => before index
    | .channel _ _ => 0
  obtain ⟨final, launch⟩ := exists_launch kernel start
  exact ⟨fun index => final (.frame index), start, final, fun _ => rfl, launch, fun _ => rfl⟩

end

/-! The threads of the two launches. -/

section
variable {w h : Nat}

theorem pixel_lt {p : Pixel} (inside : Inside w h p) : cell w p * 3 < w * h * 3 :=
  Nat.mul_lt_mul_of_pos_right (cell_lt inside) (by decide)

theorem exists_single {index : Nat} (below : index < w * h) :
    ∃ place : Single w h, Inside w h place.pixel ∧ cell w place.pixel = index := by
  obtain ⟨pixel, inside, same⟩ := exists_pixel below
  obtain ⟨place, rfl⟩ : ∃ place : Single w h, place.pixel = pixel :=
    exists_place ⟨by decide, by decide⟩ inside
  exact ⟨place, inside, same⟩

theorem singleSpot_eq {place : Single w h} {p q : Nat} (here : singleSpot w h place = some (p, q)) :
    Inside w h place.pixel ∧ p = cell w place.pixel * 3 ∧ q = cell w place.pixel * 3 := by
  simp only [singleSpot] at here
  split at here
  · next inside =>
    cases here
    exact ⟨inside, rfl, rfl⟩
  · cases here

theorem single_covers : Covers (w * h * 3) (w * h * 3) (singleSpot w h) where
  valid := by
    intro place p q here
    obtain ⟨inside, rfl, rfl⟩ := singleSpot_eq here
    exact ⟨Nat.dvd_mul_left 3 _, pixel_lt inside, (Nat.mod_eq_of_lt (pixel_lt inside)).symm⟩
  apart := by
    intro i j p q r first second
    obtain ⟨insideFirst, rfl, -⟩ := singleSpot_eq first
    obtain ⟨insideSecond, same, -⟩ := singleSpot_eq second
    exact pixel_inj (cell_inj insideFirst insideSecond (by omega))
  all := by
    rintro p ⟨index, rfl⟩ below
    obtain ⟨place, inside, rfl⟩ := exists_single (by omega : index < w * h)
    refine ⟨place, cell w place.pixel * 3, ?_⟩
    simp only [singleSpot, Nat.mul_comm 3]
    exact if_pos inside

theorem multiSpot_eq {place : Multi w h} {p q : Nat} (here : multiSpot w h place = some (p, q)) :
    Inside w h place.1.pixel ∧ p = place.2 * (w * h * 3) + cell w place.1.pixel * 3 ∧
      q = cell w place.1.pixel * 3 := by
  simp only [multiSpot] at here
  split at here
  · next inside =>
    cases here
    exact ⟨inside, by simp only [cell, Nat.mul_assoc], rfl⟩
  · cases here

theorem multi_covers : Covers (w * h * 3) (w * h * 3 * batchSize) (multiSpot w h) where
  valid := by
    intro place p q here
    obtain ⟨inside, rfl, rfl⟩ := multiSpot_eq here
    have below := pixel_lt inside
    have whole := Nat.mul_le_mul_right (w * h * 3) (Nat.succ_le_of_lt place.2.isLt)
    rw [Nat.succ_mul, Nat.mul_comm batchSize] at whole
    refine ⟨Nat.dvd_add (Dvd.dvd.mul_left (Nat.dvd_mul_left 3 _) _) (Nat.dvd_mul_left 3 _), by omega, ?_⟩
    rw [Nat.mul_add_mod_self_right, Nat.mod_eq_of_lt below]
  apart := by
    intro i j p q r first second
    obtain ⟨insideFirst, rfl, -⟩ := multiSpot_eq first
    obtain ⟨insideSecond, same, -⟩ := multiSpot_eq second
    have below := pixel_lt insideFirst
    have remainders := congrArg (· % (w * h * 3)) same
    simp only [Nat.mul_add_mod_self_right, Nat.mod_eq_of_lt (pixel_lt insideFirst),
      Nat.mod_eq_of_lt (pixel_lt insideSecond)] at remainders
    have frames : i.2.val = j.2.val :=
      Nat.eq_of_mul_eq_mul_right (by omega : 0 < w * h * 3) (by omega)
    exact Prod.ext (pixel_inj (cell_inj insideFirst insideSecond (by omega))) (Fin.ext frames)
  all := by
    intro p rgb below
    have positive : 0 < w * h * 3 := Nat.pos_of_ne_zero fun zero => by simp [zero] at below
    have split := Nat.div_add_mod p (w * h * 3)
    have small := Nat.mod_lt p positive
    obtain ⟨index, index_eq⟩ : 3 ∣ p % (w * h * 3) :=
      (Nat.dvd_mod_iff (Nat.dvd_mul_left 3 _)).mpr rgb
    obtain ⟨place, inside, rfl⟩ := exists_single (by omega : index < w * h)
    refine ⟨(place, ⟨p / (w * h * 3), Nat.div_lt_of_lt_mul below⟩), cell w place.pixel * 3, ?_⟩
    have offset : p / (w * h * 3) * w * h * 3 + (place.pixel.2 * w + place.pixel.1) * 3 = p := by
      have rest : (place.pixel.2 * w + place.pixel.1) * 3 = p % (w * h * 3) := by
        rw [index_eq, Nat.mul_comm 3, cell]
      rw [rest, Nat.mul_assoc _ w, Nat.mul_assoc _ (w * h), Nat.mul_comm (p / (w * h * 3)), split]
    simp only [multiSpot, offset]
    exact if_pos inside

end

/-! The streams. -/

section
variable (above : UInt8 → UInt8 → Bool) (bg : Bytes) (size : Nat)

def keyStream (stream : List UInt8) : List UInt8 :=
  (List.range stream.length).map (keyed above bg size fun index => stream.getD index 0)

variable {above bg size}

theorem keyStream_append {first second : List UInt8} (rgb : 3 ∣ size) (whole : size ∣ first.length) :
    keyStream above bg size (first ++ second) =
      keyStream above bg size first ++ keyStream above bg size second := by
  have pixels : 3 ∣ first.length := rgb.trans whole
  rw [keyStream, List.length_append, List.range_add, List.map_append, List.map_map]
  congr 1
  · apply List.map_congr_left
    intro index member
    have below := List.mem_range.mp member
    simp only [keyed]
    rw [List.getD_append _ _ _ _ (by omega), List.getD_append _ _ _ _ (by omega),
      List.getD_append _ _ _ _ (by omega), List.getD_append _ _ _ _ below]
  · apply List.map_congr_left
    intro index _
    have pixel : (first.length + index) / 3 * 3 = first.length + index / 3 * 3 := by omega
    have background : (first.length + index) % size = index % size := by
      obtain ⟨frames, same⟩ := whole
      rw [same, Nat.mul_add_mod]
    have shifted (offset : Nat) :
        (first ++ second).getD (first.length + offset) 0 = second.getD offset 0 := by
      rw [List.getD_append_right _ _ _ _ (Nat.le_add_right _ _), Nat.add_sub_cancel_left]
    simp only [Function.comp, keyed, pixel, background, shifted, Nat.add_assoc]

variable {total : Nat} {device : Bytes → Bytes → Prop}

theorem Loop.keyStream (rgb : 3 ∣ size) (whole : size ∣ total) (positive : 0 < total)
    (filters : ∀ before after, device before after →
      ∀ index < total, after index = keyed above bg size before index)
    {buffer : Bytes} {stdin stdout : List UInt8} (loop : Loop total device buffer stdin stdout)
    (full : total ∣ stdin.length) : stdout = ChromaKey.keyStream above bg size stdin := by
  induction loop with
  | stop empty =>
      rename_i stdin
      have none : stdin = [] := by
        apply List.eq_nil_of_length_eq_zero
        rw [List.length_take] at empty
        omega
      rw [none]
      rfl
  | more some run _ ih =>
      rename_i buffer frames stdin stdout _
      have room : total ≤ stdin.length := by
        rw [List.length_take] at some
        exact Nat.le_of_dvd (by omega) full
      have chunk : (stdin.take total).length = total := List.length_take_of_le room
      have rest := ih (by rw [List.length_drop]; exact Nat.dvd_sub full (Nat.dvd_refl _))
      have pixels : 3 ∣ total := rgb.trans whole
      have filtered : fwrite total frames = ChromaKey.keyStream above bg size (stdin.take total) := by
        rw [fwrite, ChromaKey.keyStream, chunk]
        apply List.map_congr_left
        intro index member
        have below := List.mem_range.mp member
        have read {offset : Nat} (inside : offset < total) :
            fread buffer (stdin.take total) offset = (stdin.take total).getD offset 0 := by
          rw [fread, List.getD_eq_getElem _ _ (by omega), List.getD_eq_getElem _ _ (by omega)]
        rw [filters _ _ run index below]
        simp only [keyed]
        rw [read (by omega), read (by omega), read (by omega), read below]
      have pieces := @keyStream_append above bg size (stdin.take total) (stdin.drop total) rgb
        (by rw [chunk]; exact whole)
      rw [List.take_append_drop] at pieces
      rw [filtered, rest, pieces]

theorem Loop.dvd_length {buffer : Bytes} {stdin stdout : List UInt8}
    (loop : Loop total device buffer stdin stdout) : total ∣ stdout.length := by
  induction loop with
  | stop _ => exact Nat.dvd_zero total
  | more _ _ _ ih =>
      rw [List.length_append, fwrite, List.length_map, List.length_range]
      exact Nat.dvd_add (Nat.dvd_refl total) ih

theorem exists_loop (runs : ∀ before, ∃ after, device before after) (buffer : Bytes)
    (stdin : List UInt8) : ∃ stdout, Loop total device buffer stdin stdout := by
  induction left : stdin.length using Nat.strong_induction_on generalizing buffer stdin with
  | _ remaining ih =>
      by_cases some : (stdin.take total).length > 0
      · obtain ⟨frames, run⟩ := runs (fread buffer (stdin.take total))
        have less : (stdin.drop total).length < remaining := by
          rw [List.length_take] at some
          rw [List.length_drop]
          omega
        obtain ⟨stdout, loop⟩ := ih _ less frames (stdin.drop total) rfl
        exact ⟨_, .more some run loop⟩
      · exact ⟨[], .stop some⟩

end

section
variable {above : UInt8 → UInt8 → Bool} {bg : Bytes} {w h : Nat}

theorem single_filters (before after : Bytes) (run : OnDevice (chromaKeyKernel above bg w h) before after) :
    ∀ index < w * h * 3, after index = keyed above bg (w * h * 3) before index :=
  fun _ below => onDevice_eq single_covers (Nat.dvd_mul_left 3 _) run below

theorem multi_filters (before after : Bytes)
    (run : OnDevice (chromaKeyMultiKernel above bg w h) before after) :
    ∀ index < w * h * 3 * batchSize, after index = keyed above bg (w * h * 3) before index :=
  fun _ below => onDevice_eq multi_covers (Nat.dvd_mul_left 3 _) run below

theorem frameBytes_eq (w h : Nat) :
    frameBytes w h = if w * h * 3 ≤ 2147483647 then some (w * h * 3) else none := by
  have area : (w : Int) * h = ((w * h : Nat) : Int) := (Nat.cast_mul w h).symm
  rw [frameBytes, area]
  by_cases fits : w * h * 3 ≤ 2147483647
  · have small := @int32_of_range ((w * h : Nat) : Int) (by omega) (by omega)
    have bytes := @int32_of_range ((w * h : Nat) * 3 : Int) (by omega) (by omega)
    simp only [small, bytes, Option.bind_eq_bind, Option.bind_some, Option.pure_def, if_pos fits]
    rfl
  · rw [if_neg fits]
    by_cases middle : w * h ≤ 2147483647
    · have small := @int32_of_range ((w * h : Nat) : Int) (by omega) (by omega)
      have large : int32 ((w * h : Nat) * 3 : Int) = none := if_neg (by omega)
      simp only [small, large, Option.bind_eq_bind, Option.bind_some, Option.bind_none]
    · have large : int32 ((w * h : Nat) : Int) = none := if_neg (by omega)
      simp only [large, Option.bind_eq_bind, Option.bind_none]

theorem batchBytes_eq (w h : Nat) : batchBytes w h =
    if w * h * 3 * batchSize ≤ 2147483647 then some (w * h * 3 * batchSize) else none := by
  rw [batchBytes, frameBytes_eq, batchSize]
  by_cases fits : w * h * 3 * 4 ≤ 2147483647
  · have bytes := @int32_of_range ((w * h * 3 : Nat) * (4 : Nat) : Int) (by omega) (by omega)
    have frame : w * h * 3 ≤ 2147483647 := by omega
    simp only [if_pos frame, if_pos fits, Option.bind_eq_bind, Option.bind_some, bytes,
      Option.pure_def]
  · rw [if_neg fits]
    by_cases frame : w * h * 3 ≤ 2147483647
    · have large : int32 ((w * h * 3 : Nat) * (4 : Nat) : Int) = none := if_neg (by omega)
      simp only [if_pos frame, Option.bind_eq_bind, Option.bind_some, large, Option.bind_none]
    · simp only [if_neg frame, Option.bind_eq_bind, Option.bind_none]

/-- The loops of the two programs write the same exactly when the last batch is full. -/
theorem loops_agree_iff {k : Nat} {stdin single batch : List UInt8} {hFrame hBatch : Bytes}
    (whole : stdin.length = k * (w * h * 3))
    (first : Loop (w * h * 3) (OnDevice (chromaKeyKernel above bg w h)) hFrame stdin single)
    (second : Loop (w * h * 3 * batchSize) (OnDevice (chromaKeyMultiKernel above bg w h)) hBatch
      stdin batch) :
    batch = single ↔ w * h * 3 = 0 ∨ batchSize ∣ k := by
  rcases Nat.eq_zero_or_pos (w * h * 3) with zero | positive
  · have nothing {total : Nat} {device : Bytes → Bytes → Prop} {buffer : Bytes}
        {stdout : List UInt8} (loop : Loop total device buffer stdin stdout) : stdout = [] := by
      cases loop with
      | stop _ => rfl
      | more some _ _ =>
          rw [List.length_take, whole, zero] at some
          omega
    rw [nothing first, nothing second]
    exact ⟨fun _ => Or.inl zero, fun _ => rfl⟩
  · have filtered := first.keyStream (Nat.dvd_mul_left 3 _) (Nat.dvd_refl _) positive
      single_filters ⟨k, by rw [whole, Nat.mul_comm]⟩
    have size : single.length = k * (w * h * 3) := by
      rw [filtered, keyStream, List.length_map, List.length_range, whole]
    constructor
    · rintro rfl
      have full := second.dvd_length
      rw [size, Nat.mul_comm (w * h * 3)] at full
      exact Or.inr (Nat.dvd_of_mul_dvd_mul_right positive full)
    · rintro (zero | ⟨batches, rfl⟩)
      · omega
      · have full : w * h * 3 * batchSize ∣ stdin.length :=
          ⟨batches, by rw [whole, Nat.mul_comm, ← Nat.mul_assoc]⟩
        rw [filtered]
        exact second.keyStream (Nat.dvd_mul_left 3 _) ⟨batchSize, rfl⟩
          (Nat.mul_pos positive (by decide)) multi_filters full

/-- The batch program writes the frames that the other one writes exactly when the size of a batch
is an `int` and the last batch is full. -/
theorem outputs_agree_iff {k : Nat} {stdin : List UInt8} {single batch : Option (List UInt8)}
    {hFrame hBatch : Bytes} (whole : stdin.length = k * (w * h * 3))
    (first : SingleMain above bg w h hFrame stdin single)
    (second : BatchMain above bg w h hBatch stdin batch) :
    (∃ frames, single = some frames ∧ batch = some frames) ↔
      w * h * 3 * batchSize ≤ 2147483647 ∧ (w * h * 3 = 0 ∨ batchSize ∣ k) := by
  rw [SingleMain, frameBytes_eq] at first
  rw [BatchMain, batchBytes_eq] at second
  by_cases fits : w * h * 3 * batchSize ≤ 2147483647
  · have frame : w * h * 3 ≤ 2147483647 := by
      rw [batchSize] at fits
      omega
    rw [if_pos frame] at first
    rw [if_pos fits] at second
    obtain _ | @⟨_, written, loop⟩ := first
    obtain _ | @⟨_, filtered, batches⟩ := second
    rw [← loops_agree_iff whole loop batches]
    constructor
    · rintro ⟨frames, same, filteredSame⟩
      exact ⟨fits, (Option.some.inj filteredSame).trans (Option.some.inj same).symm⟩
    · rintro ⟨_, rfl⟩
      exact ⟨_, rfl, rfl⟩
  · rw [if_neg fits] at second
    cases second
    constructor
    · rintro ⟨_, _, same⟩
      cases same
    · rintro ⟨small, _⟩
      exact absurd small fits

theorem exists_writes {device : Bytes → Bytes → Prop} (runs : ∀ before, ∃ after, device before after)
    (buffer : Bytes) (stdin : List UInt8) (size : Option Nat) :
    ∃ stdout, Writes device buffer stdin size stdout := by
  cases size with
  | none => exact ⟨none, .overflow⟩
  | some size =>
      obtain ⟨stdout, loop⟩ := @exists_loop size device runs buffer stdin
      exact ⟨some stdout, .run loop⟩

theorem exists_mains (above : UInt8 → UInt8 → Bool) (bg : Bytes) (w h : Nat)
    (hFrame hBatch : Bytes) (stdin : List UInt8) : ∃ single batch,
      SingleMain above bg w h hFrame stdin single ∧ BatchMain above bg w h hBatch stdin batch := by
  obtain ⟨single, first⟩ : ∃ single, SingleMain above bg w h hFrame stdin single :=
    exists_writes (exists_onDevice (chromaKeyKernel above bg w h)) hFrame stdin _
  obtain ⟨batch, second⟩ : ∃ batch, BatchMain above bg w h hBatch stdin batch :=
    exists_writes (exists_onDevice (chromaKeyMultiKernel above bg w h)) hBatch stdin _
  exact ⟨single, batch, first, second⟩

end

/-- `g > r * 1.1f`, which rounds to an integer exactly when ten divides `r`. -/
def aboveTenth (g r : UInt8) : Bool := 11 * r.toNat < 10 * g.toNat

theorem outputs_agree_iff_frames : ∃ single batch,
    SingleMain aboveTenth (fun _ => 50) 1 1 (fun _ => 0) (List.replicate 12 7) single ∧
    BatchMain aboveTenth (fun _ => 50) 1 1 (fun _ => 0) (List.replicate 12 7) batch ∧
    ((∃ frames, single = some frames ∧ batch = some frames) ↔
      1 * 1 * 3 * batchSize ≤ 2147483647 ∧ (1 * 1 * 3 = 0 ∨ batchSize ∣ 4)) := by
  obtain ⟨single, batch, first, second⟩ :=
    exists_mains aboveTenth (fun _ => 50) 1 1 (fun _ => 0) (fun _ => 0) (List.replicate 12 7)
  exact ⟨single, batch, first, second, outputs_agree_iff rfl first second⟩

theorem last_batch_differs : ∃ single batch,
    SingleMain aboveTenth (fun _ => 50) 1 1 (fun _ => 0) [7, 7, 7] (some single) ∧
    BatchMain aboveTenth (fun _ => 50) 1 1 (fun _ => 0) [7, 7, 7] (some batch) ∧
      batch ≠ single := by
  obtain ⟨single, first⟩ := exists_loop (exists_onDevice
    (chromaKeyKernel aboveTenth (fun _ => 50) 1 1)) (fun _ => 0) [7, 7, 7]
  obtain ⟨batch, second⟩ := exists_loop (exists_onDevice
    (chromaKeyMultiKernel aboveTenth (fun _ => 50) 1 1)) (fun _ => 0) [7, 7, 7]
  refine ⟨single, batch, .run first, .run second, ?_⟩
  intro same
  have agree := (loops_agree_iff (show [(7 : UInt8), 7, 7].length = 1 * (1 * 1 * 3) from rfl)
    first second).mp same
  revert agree
  decide

end CudaOpenMp.ChromaKey
