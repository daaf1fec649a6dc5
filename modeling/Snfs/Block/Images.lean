import Snfs.Block.Geometry
import Snfs.Library.Words

/-!
Images of devices in files: `block_store` writes the structure as it lies in
memory over the start of a file, and `block_load` reads the block size, the number
of blocks and the blocks back. The two system calls may transfer fewer bytes than
asked for, or fail; the comparisons take what they return modulo 2^32.
-/

namespace Snfs

/-- What the calls of `read` on a file transfer, from the count and the bytes that are left;
`none` is a call that returns -1. -/
structure Reads where
  transfer : Nat → Nat → Option Nat
  le_count : ∀ {count left k}, transfer count left = some k → k ≤ count
  le_left : ∀ {count left k}, transfer count left = some k → k ≤ left

structure Writes where
  transfer : Nat → Option Nat
  le_count : ∀ {count k}, transfer count = some k → k ≤ count

def statusOf : Option Nat → Nat
  | none => 2 ^ 32 - 1
  | some k => u32 k

def Reads.Full (rd : Reads) : Prop :=
  ∀ count left, count ≤ left → rd.transfer count left = some count

def Reads.all : Reads where
  transfer count left := some (min count left)
  le_count h := by cases h; exact Nat.min_le_left _ _
  le_left h := by cases h; exact Nat.min_le_right _ _

def Writes.all : Writes where
  transfer count := some count
  le_count h := by cases h; exact Nat.le_refl _

def blocksImage {sz : Nat} (bks : Blocks sz) (size : Nat) : List UInt8 :=
  (wordBytes sz ++ (wordBytes bks.numBlocks ++ (List.range size).map bks.blocks)).take size

/-- `block_store`: what it returns and the file after it. `none` is a file that cannot be
opened; one that does not exist yet is empty. -/
def blockStore {sz : Nat} (wr : Writes) (bks : Blocks sz) :
    Option (List UInt8) → Int × Option (List UInt8)
  | none => (-1, none)
  | some old =>
    let size := u32 (blocksHeader + u32 (sz * bks.numBlocks))
    let written := (wr.transfer size).getD 0
    (if statusOf (wr.transfer size) ≠ size then -1 else 0,
      some ((blocksImage bks size).take written ++ old.drop written))

def sizeWord (file : List UInt8) : Nat := wordOf (file.take 4)

def numWord (file : List UInt8) : Nat := wordOf ((file.drop 4).take 4)

/-- `block_load`, with what the memory that `malloc` returns holds; `none` is `NULL`, and for
the file one that is not given or cannot be opened. -/
def blockLoad (rd : Reads) (fresh : Nat → UInt8) :
    Option (List UInt8) → Option ((sz : Nat) × Blocks sz)
  | none => none
  | some file =>
    if statusOf (rd.transfer 4 file.length) ≠ 4 then none
    else if statusOf (rd.transfer 4 (file.length - 4)) ≠ 4 then none
    else
      let size := u32 (numWord file * sizeWord file)
      let status := rd.transfer size (file.length - 8)
      if statusOf status ≠ size then none
      else some ⟨sizeWord file,
        { numBlocks := numWord file
          blocks := fun k => if k < status.getD 0 then file.getD (8 + k) 0 else fresh k }⟩

/-- The three calls of `read` return what `block_load` asks them for. -/
def ReadsThrough (rd : Reads) (file : List UInt8) : Prop :=
  statusOf (rd.transfer 4 file.length) = 4 ∧ statusOf (rd.transfer 4 (file.length - 4)) = 4 ∧
    statusOf (rd.transfer (u32 (numWord file * sizeWord file)) (file.length - 8)) =
      u32 (numWord file * sizeWord file)

theorem transfer_of_status {x : Option Nat} {size : Nat} (status : statusOf x = size)
    (le : ∀ k, x = some k → k ≤ size) (small : size < 2 ^ 32 - 1) : x = some size := by
  cases x with
  | none => exact absurd status (Nat.ne_of_gt small)
  | some k =>
      rw [statusOf, u32_of_lt (Nat.lt_of_le_of_lt (le k rfl) (by omega))] at status
      rw [status]

theorem blockLoad_eq_some_iff {rd : Reads} {fresh : Nat → UInt8} {file : List UInt8}
    {d : (sz : Nat) × Blocks sz} :
    blockLoad rd fresh (some file) = some d ↔ ReadsThrough rd file ∧
      d = ⟨sizeWord file, numWord file, fun k =>
        if k < (rd.transfer (u32 (numWord file * sizeWord file)) (file.length - 8)).getD 0
        then file.getD (8 + k) 0 else fresh k⟩ := by
  rw [blockLoad, ReadsThrough]
  by_cases first : statusOf (rd.transfer 4 file.length) = 4
  · by_cases second : statusOf (rd.transfer 4 (file.length - 4)) = 4
    · by_cases third : statusOf (rd.transfer (u32 (numWord file * sizeWord file))
          (file.length - 8)) = u32 (numWord file * sizeWord file)
      · simp only [first, second, third, ne_eq, not_true_eq_false, if_false, true_and,
          Option.some.injEq, eq_comm]
      · simp [first, second, third]
    · simp [first, second]
  · simp [first]

section RoundTrip
variable {sz : Nat} {bks : Blocks sz}

private theorem blocksImage_eq {size : Nat} (le : 8 ≤ size) :
    blocksImage bks size =
      wordBytes sz ++ (wordBytes bks.numBlocks ++ (List.range (size - 8)).map bks.blocks) := by
  have len : (wordBytes sz ++ wordBytes bks.numBlocks).length = 8 := rfl
  rw [blocksImage, ← List.append_assoc, List.take_append, len, List.take_of_length_le (by omega),
    ← List.map_take, List.take_range, Nat.min_eq_left (by omega), List.append_assoc]

private theorem length_blocksImage {size : Nat} (le : 8 ≤ size) :
    (blocksImage bks size).length = size := by
  rw [blocksImage_eq le]
  simp only [List.length_append, Buf.length_wordBytes, List.length_map, List.length_range]
  omega

private theorem stored_file {wr : Writes} (fits : 8 + sz * bks.numBlocks < 2 ^ 31)
    {before after : Option (List UInt8)} (stored : blockStore wr bks before = (0, after)) :
    ∃ tail, after = some (wordBytes sz ++ (wordBytes bks.numBlocks ++
      ((List.range (sz * bks.numBlocks)).map bks.blocks ++ tail))) := by
  cases before with
  | none =>
      have returned : (-1 : Int) = 0 := congrArg Prod.fst stored
      exact absurd returned (by decide)
  | some old =>
      have product : u32 (sz * bks.numBlocks) = sz * bks.numBlocks := u32_of_lt (by omega)
      have size : u32 (8 + u32 (sz * bks.numBlocks)) = 8 + sz * bks.numBlocks := by
        rw [product, u32_of_lt (by omega)]
      simp only [blockStore, blocksHeader, size, Prod.mk.injEq] at stored
      obtain ⟨returned, rfl⟩ := stored
      split at returned
      · exact absurd returned (by decide)
      · rename_i status
        have all := transfer_of_status (Decidable.not_not.mp status)
          (fun k => wr.le_count) (by omega)
        refine ⟨old.drop (8 + sz * bks.numBlocks), ?_⟩
        rw [all, Option.getD_some,
          List.take_of_length_le (Nat.le_of_eq (length_blocksImage (by omega))),
          blocksImage_eq (by omega), Nat.add_sub_cancel_left]
        simp only [List.append_assoc]

private theorem getD_behind_header (a b : Nat) (rest : List UInt8) (k : Nat) :
    (wordBytes a ++ (wordBytes b ++ rest)).getD (8 + k) 0 = rest.getD k 0 := by
  have header : (wordBytes a ++ wordBytes b).length = 8 := rfl
  rw [← List.append_assoc, List.getD_append_right _ _ _ _ (Nat.le_add_right 8 k), header,
    Nat.add_sub_cancel_left]

/-- An image that begins with a device is loaded as that device. -/
theorem load_image {rd : Reads} (full : rd.Full) (fits : 8 + sz * bks.numBlocks < 2 ^ 31)
    (some_block : 0 < bks.numBlocks) (some_byte : 0 < sz) (tail : List UInt8)
    (fresh : Nat → UInt8) :
    ∃ copy : Blocks sz, blockLoad rd fresh (some (wordBytes sz ++ (wordBytes bks.numBlocks ++
        ((List.range (sz * bks.numBlocks)).map bks.blocks ++ tail)))) = some ⟨sz, copy⟩ ∧
      copy.numBlocks = bks.numBlocks ∧
      ∀ k, k < sz * bks.numBlocks → copy.blocks k = bks.blocks k := by
  have sz_le := Nat.le_mul_of_pos_right sz some_block
  have num_le := Nat.le_mul_of_pos_left bks.numBlocks some_byte
  generalize image : wordBytes sz ++ (wordBytes bks.numBlocks ++
    ((List.range (sz * bks.numBlocks)).map bks.blocks ++ tail)) = file
  have size : sizeWord file = sz := by
    rw [sizeWord, ← image, List.take_left' (Buf.length_wordBytes sz), wordOf_wordBytes (by omega)]
  have num : numWord file = bks.numBlocks := by
    rw [numWord, ← image, List.drop_left' (Buf.length_wordBytes sz),
      List.take_left' (Buf.length_wordBytes _), wordOf_wordBytes (by omega)]
  have product : u32 (numWord file * sizeWord file) = sz * bks.numBlocks := by
    rw [size, num, Nat.mul_comm, u32_of_lt (by omega)]
  have length : 8 + sz * bks.numBlocks ≤ file.length := by
    rw [← image]
    simp only [List.length_append, Buf.length_wordBytes, List.length_map, List.length_range]
    omega
  have body := full (sz * bks.numBlocks) (file.length - 8) (by omega)
  have through : ReadsThrough rd file := by
    refine ⟨?_, ?_, ?_⟩
    · rw [full 4 _ (by omega)]
      rfl
    · rw [full 4 _ (by omega)]
      rfl
    · rw [product, body, statusOf, u32_of_lt (by omega)]
  have loaded : blockLoad rd fresh (some file) = some _ :=
    blockLoad_eq_some_iff.mpr ⟨through, rfl⟩
  rw [product, body, size, num] at loaded
  refine ⟨_, loaded, rfl, fun k hk => ?_⟩
  change (if k < sz * bks.numBlocks then file.getD (8 + k) 0 else fresh k) = _
  rw [if_pos hk, ← image, getD_behind_header, List.getD_append _ _ _ _ (by simpa using hk),
    List.getD_eq_getElem _ _ (by simpa using hk), List.getElem_map, List.getElem_range]

end RoundTrip

/-- What `block_store` has stored, whatever the file held before, `block_load` returns. -/
theorem block_load_undoes_store {rd : Reads} (full : rd.Full) {sz : Nat} {bks new : Blocks sz}
    (made : blockNew bks.numBlocks sz = some new)
    (fits : blocksHeader + sz * bks.numBlocks < 2 ^ 31) {wr : Writes}
    {before after : Option (List UInt8)} (stored : blockStore wr bks before = (0, after))
    (fresh : Nat → UInt8) :
    ∃ copy : Blocks sz, blockLoad rd fresh after = some ⟨sz, copy⟩ ∧
      copy.numBlocks = bks.numBlocks ∧ ∀ b, blockRead copy b = blockRead bks b := by
  obtain ⟨_, some_block, some_byte⟩ := numBlocks_new made
  obtain ⟨tail, rfl⟩ := stored_file fits stored
  obtain ⟨copy, loaded, num, bytes⟩ := load_image full fits some_block some_byte tail fresh
  refine ⟨copy, loaded, num, fun b => ?_⟩
  rw [blockRead, blockRead, num]
  split
  · rfl
  · rename_i inside
    have le := Blocks.end_le (Nat.not_le.mp inside) sz
    rw [Nat.mul_comm bks.numBlocks] at le
    refine congrArg some (funext fun i => bytes _ ?_)
    have := i.isLt
    rw [u32_of_lt (by omega)]
    omega

theorem Reads.all_full : Reads.all.Full := fun _ _ le => congrArg some (Nat.min_eq_left le)

/-- Two bytes stored over a file of twenty. -/
theorem block_load_undoes_store_over_longer :
    ∃ (after : Option (List UInt8)) (copy : Blocks 2),
      blockStore Writes.all (⟨1, fun _ => 7⟩ : Blocks 2) (some (List.replicate 20 9)) =
        (0, after) ∧
      blockLoad Reads.all (fun _ => 0) after = some ⟨2, copy⟩ ∧
      ∀ b, blockRead copy b = blockRead ⟨1, fun _ => 7⟩ b := by
  have stored : blockStore Writes.all (⟨1, fun _ => 7⟩ : Blocks 2) (some (List.replicate 20 9)) =
      (0, some ([2, 0, 0, 0, 1, 0, 0, 0, 7, 7] ++ List.replicate 10 9)) := by decide
  obtain ⟨copy, loaded, _, same⟩ :=
    block_load_undoes_store Reads.all_full rfl (by decide) stored fun _ => 0
  exact ⟨_, copy, stored, loaded, same⟩

structure HoldsImage (file : List UInt8) (d : (sz : Nat) × Blocks sz) : Prop where
  header : 8 ≤ file.length
  size_pos : 0 < sizeWord file
  num_pos : 0 < numWord file
  complete : sizeWord file * numWord file ≤ file.length - 8
  size_eq : d.1 = sizeWord file
  num_eq : d.2.numBlocks = numWord file
  inside : ∀ b, b < d.2.numBlocks → d.2.Inside b
  bytes : ∀ b, b < d.2.numBlocks → ∀ i, d.2.content b i = file.getD (8 + b * d.1 + i.val) 0

def SoundHeader (file : List UInt8) : Prop :=
  0 < sizeWord file ∧ 0 < numWord file ∧ blocksHeader + sizeWord file * numWord file < 2 ^ 32

private theorem four_le_of_status {rd : Reads} {left : Nat}
    (status : statusOf (rd.transfer 4 left) = 4) :
    4 ≤ left :=
  rd.le_left (transfer_of_status status (fun _ => rd.le_count) (by decide))

private theorem holdsImage_of_sound {rd : Reads} {file : List UInt8}
    (through : ReadsThrough rd file)
    (sound : SoundHeader file) {fresh : Nat → UInt8} {d : (sz : Nat) × Blocks sz}
    (loaded : blockLoad rd fresh (some file) = some d) : HoldsImage file d := by
  obtain ⟨size_pos, num_pos, fits⟩ := sound
  obtain ⟨-, rfl⟩ := blockLoad_eq_some_iff.mp loaded
  rw [Nat.mul_comm] at fits
  have whole : u32 (numWord file * sizeWord file) = numWord file * sizeWord file :=
    u32_of_lt (by omega)
  have body := through.2.2
  rw [whole] at body
  have small : 8 + numWord file * sizeWord file < 2 ^ 32 := fits
  have all := transfer_of_status body (fun _ => rd.le_count) (by omega)
  have left := four_le_of_status through.2.1
  refine ⟨by omega, size_pos, num_pos, ?_, rfl, rfl, fun b => Blocks.inside_of_fits fits,
    fun b hb i => ?_⟩
  · rw [Nat.mul_comm]
    exact rd.le_left all
  · have le : b * sizeWord file + sizeWord file ≤ numWord file * sizeWord file :=
      Blocks.end_le hb _
    have hi : i.val < sizeWord file := i.isLt
    change (if u32 (b * sizeWord file) + i.val < _ then _ else _) = _
    rw [whole, all, Option.getD_some, u32_of_lt (x := b * sizeWord file) (by omega),
      if_pos (by omega), Nat.add_assoc]

theorem HoldsImage.sound {file : List UInt8} {d : (sz : Nat) × Blocks sz}
    (image : HoldsImage file d) : SoundHeader file := by
  refine ⟨image.size_pos, image.num_pos, ?_⟩
  obtain ⟨sz, bks⟩ := d
  have size : sz = sizeWord file := image.size_eq
  have num : bks.numBlocks = numWord file := image.num_eq
  subst size
  by_contra wraps
  rw [Nat.mul_comm, ← num, Nat.not_lt] at wraps
  obtain ⟨b, hb, outside⟩ :=
    Blocks.outside_of_wrapped (num ▸ image.num_pos) image.size_pos wraps
  exact outside (image.inside b hb)

/-- `block_load` accepts a file only when the file holds the image of the device it returns,
exactly when its calls of `read` do not all return what it asks for or the header names
a device that fits the address space. -/
theorem load_accepts_only_images_iff (rd : Reads) (file : List UInt8) :
    (∀ fresh d, blockLoad rd fresh (some file) = some d → HoldsImage file d) ↔
      (ReadsThrough rd file → SoundHeader file) := by
  refine ⟨fun accepts through => ?_, fun sound fresh d loaded => ?_⟩
  · exact (accepts (fun _ => 0) _ (blockLoad_eq_some_iff.mpr ⟨through, rfl⟩)).sound
  · have through := (blockLoad_eq_some_iff.mp loaded).1
    exact holdsImage_of_sound through (sound through) loaded

/-- Eight bytes are accepted as a device of blocks of no bytes when they are zero, and as one of
65536 blocks of 65536 bytes when both words are 65536. -/
theorem header_alone_is_accepted :
    (∃ d, blockLoad Reads.all (fun _ => 0) (some (List.replicate 8 0)) = some d ∧ d.1 = 0) ∧
      ∃ d, blockLoad Reads.all (fun _ => 0) (some [0, 0, 1, 0, 0, 0, 1, 0]) = some d ∧
        d.1 = 2 ^ 16 ∧ d.2.numBlocks = 2 ^ 16 ∧ ¬ d.2.Inside 0 ∧
        ¬ HoldsImage [0, 0, 1, 0, 0, 0, 1, 0] d := by
  refine ⟨⟨_, rfl, rfl⟩, _, rfl, rfl, rfl, ?_, fun image => ?_⟩
  · unfold Blocks.Inside
    decide
  · exact absurd image.complete (by decide)

end Snfs
