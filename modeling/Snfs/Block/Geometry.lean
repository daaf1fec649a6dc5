import Snfs.Block

/-!
The geometries of a device. `block_new` allocates the header of the structure and
the product of its two arguments, and `block_read` and `block_write` address a
block at the product of its number and the block size; the program is built for
32-bit addresses, so each product and each sum is taken modulo 2^32. The device is
an array of blocks when none of them wraps, and is none otherwise.
-/

namespace Snfs

abbrev blocksHeader : Nat := 8

def blocksStorage (numBlocks sz : Nat) : Nat := u32 (blocksHeader + u32 (numBlocks * sz))

def blockWriteStatus {sz : Nat} (bks : Blocks sz) (blockNo : Nat) : Int :=
  if bks.numBlocks ≤ blockNo then -1 else 0

namespace Blocks

variable {sz : Nat}

/-- The bytes of the block lie in the storage of the device. -/
def Inside (bks : Blocks sz) (b : Nat) : Prop :=
  blocksHeader + u32 (b * sz) + sz ≤ blocksStorage bks.numBlocks sz

structure IsArray (bks : Blocks sz) : Prop where
  inside : ∀ b, b < bks.numBlocks → bks.Inside b
  written : ∀ b block, b < bks.numBlocks →
    blockWriteStatus bks b = 0 ∧ blockRead (blockWrite bks b block) b = some block
  apart : ∀ b b' block, b < bks.numBlocks → b' < bks.numBlocks → b' ≠ b →
    blockRead (blockWrite bks b block) b' = blockRead bks b'
  refused : ∀ b block, bks.numBlocks ≤ b →
    blockRead bks b = none ∧ blockWriteStatus bks b = -1 ∧ blockWrite bks b block = bks

theorem refuses (bks : Blocks sz) {b : Nat} (block : Buf sz) (h : bks.numBlocks ≤ b) :
    blockRead bks b = none ∧ blockWriteStatus bks b = -1 ∧ blockWrite bks b block = bks :=
  ⟨if_pos h, if_pos h, if_pos h⟩

private theorem read_write {bks : Blocks sz} (h : bks.Unwrapped) {b : Nat} (hb : b < bks.numBlocks)
    (block : Buf sz) {b' : Nat} (hb' : b' < bks.numBlocks) :
    blockRead (blockWrite bks b block) b' = some (if b' = b then block else bks.content b') := by
  rw [read_of_lt (by rwa [numBlocks_write]), content_write h hb block hb']

theorem end_le {numBlocks b : Nat} (h : b < numBlocks) (sz : Nat) :
    b * sz + sz ≤ numBlocks * sz := by
  have := Nat.mul_le_mul_right sz (Nat.succ_le_of_lt h)
  rwa [Nat.succ_mul] at this

theorem inside_of_fits {bks : Blocks sz} (fits : blocksHeader + bks.numBlocks * sz < 2 ^ 32)
    {b : Nat} (h : b < bks.numBlocks) : bks.Inside b := by
  have whole : bks.Unwrapped := by
    rw [Unwrapped]
    omega
  have le := end_le h sz
  rw [Inside, blocksStorage, whole.offset h, u32_of_lt whole, u32_of_lt fits]
  omega

private theorem isArray_of_fits {bks : Blocks sz}
    (fits : blocksHeader + bks.numBlocks * sz < 2 ^ 32) :
    bks.IsArray where
  inside _ h := inside_of_fits fits h
  written b block h := by
    refine ⟨if_neg (Nat.not_le.mpr h), ?_⟩
    rw [read_write (by rw [Unwrapped]; omega) h block h, if_pos rfl]
  apart b b' block h h' ne := by
    rw [read_write (by rw [Unwrapped]; omega) h block h', if_neg ne, read_of_lt h']
  refused _ block h := bks.refuses block h

/-- Where the storage wraps, the first block that reaches 2^32 lies beyond it. -/
theorem outside_of_wrapped {bks : Blocks sz} (some_block : 0 < bks.numBlocks) (some_byte : 0 < sz)
    (wraps : 2 ^ 32 ≤ blocksHeader + bks.numBlocks * sz) :
    ∃ b, b < bks.numBlocks ∧ ¬ bks.Inside b := by
  have storage : blocksStorage bks.numBlocks sz < 2 ^ 32 := Nat.mod_lt _ (by decide)
  by_cases product : bks.numBlocks * sz < 2 ^ 32
  · -- the header alone no longer fits
    refine ⟨0, some_block, ?_⟩
    have short : blocksStorage bks.numBlocks sz < blocksHeader := by
      rw [blocksStorage, u32_of_lt product, u32]
      omega
    rw [Inside]
    omega
  · refine ⟨(2 ^ 32 - 1) / sz, ?_, ?_⟩
    · rw [Nat.div_lt_iff_lt_mul some_byte]
      omega
    · have low : (2 ^ 32 - 1) / sz * sz < 2 ^ 32 :=
        Nat.lt_of_le_of_lt (Nat.div_mul_le_self _ _) (by decide)
      have high : 2 ^ 32 ≤ (2 ^ 32 - 1) / sz * sz + sz := by
        have := Nat.lt_div_mul_add (a := 2 ^ 32 - 1) some_byte
        omega
      rw [Inside, u32_of_lt low]
      omega

end Blocks

variable {numBlocks sz : Nat} {bks : Blocks sz}

theorem numBlocks_new (made : blockNew numBlocks sz = some bks) :
    bks.numBlocks = numBlocks ∧ 0 < numBlocks ∧ 0 < sz := by
  rw [blockNew] at made
  split at made
  · cases made
  · rename_i product
    cases made
    refine ⟨rfl, Nat.pos_of_ne_zero ?_, Nat.pos_of_ne_zero ?_⟩
    · rintro rfl
      exact product (by rw [Nat.zero_mul]; rfl)
    · rintro rfl
      exact product rfl

/-- A device that `block_new` returns is an array of blocks, whatever it holds, exactly when
its header and its blocks together take less than 2^32 bytes. -/
theorem device_is_array_iff (made : blockNew numBlocks sz = some bks) :
    (∀ contents : Nat → UInt8, { bks with blocks := contents : Blocks sz }.IsArray) ↔
      blocksHeader + numBlocks * sz < 2 ^ 32 := by
  obtain ⟨rfl, some_block, some_byte⟩ := numBlocks_new made
  refine ⟨fun array => ?_, fun fits contents => Blocks.isArray_of_fits fits⟩
  by_contra wraps
  obtain ⟨b, hb, outside⟩ := Blocks.outside_of_wrapped some_block some_byte (Nat.not_lt.mp wraps)
  exact outside ((array bks.blocks).inside b hb)

theorem device_is_array_iff_ten_blocks :
    blockNew 10 512 = some ⟨10, fun _ => 0⟩ ∧ ∀ contents : Nat → UInt8,
      (⟨10, contents⟩ : Blocks 512).IsArray :=
  have made : blockNew 10 512 = some ⟨10, fun _ => 0⟩ := rfl
  ⟨made, (device_is_array_iff made).mpr (by decide)⟩

/-- `block_new(2147483649, 2)` allocates 10 bytes: block 1 lies outside them, and block
2147483648 is block 0. -/
theorem wrapped_device_shares_blocks :
    ∃ bks : Blocks 2, blockNew (2 ^ 31 + 1) 2 = some bks ∧ ¬ bks.Inside 1 ∧
      blockRead (blockWrite bks (2 ^ 31) fun _ => 1) 0 ≠ blockRead bks 0 ∧ ¬ bks.IsArray := by
  have outside : ¬ (⟨2 ^ 31 + 1, fun _ => 0⟩ : Blocks 2).Inside 1 := by
    unfold Blocks.Inside
    decide
  refine ⟨⟨2 ^ 31 + 1, fun _ => 0⟩, rfl, outside, fun same => ?_,
    fun array => outside (array.inside 1 (by decide))⟩
  have byte := congrFun (Option.some.inj same) (0 : Fin 2)
  exact absurd byte (by decide)

end Snfs
