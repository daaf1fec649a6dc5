import Snfs.Library.Buffer

/-!
The storage layer, `snfs_server/block.c`. A device is one run of bytes that
holds `num_blocks` blocks of `block_size` bytes each; sizes and offsets are
products of 32-bit unsigned numbers. The block size is a parameter of the type
so that a block read from a device has its length in its type.
-/

namespace Snfs

def u32 (x : Nat) : Nat := x % 2 ^ 32

theorem u32_of_lt {x : Nat} (h : x < 2 ^ 32) : u32 x = x := Nat.mod_eq_of_lt h

structure Blocks (blockSize : Nat) where
  numBlocks : Nat
  blocks : Nat → UInt8

variable {sz : Nat}

def blockNew (numBlocks sz : Nat) : Option (Blocks sz) :=
  if u32 (numBlocks * sz) = 0 then none
  else some { numBlocks := numBlocks, blocks := fun _ => 0 }

/-- The bytes that `block_read` copies out for a block number below `num_blocks`. -/
def Blocks.content (bks : Blocks sz) (blockNo : Nat) : Buf sz :=
  fun i => bks.blocks (u32 (blockNo * sz) + i)

/-- `none` is the return value -1. -/
def blockRead (bks : Blocks sz) (blockNo : Nat) : Option (Buf sz) :=
  if bks.numBlocks ≤ blockNo then none else some (bks.content blockNo)

def blockWrite (bks : Blocks sz) (blockNo : Nat) (block : Buf sz) : Blocks sz :=
  if bks.numBlocks ≤ blockNo then bks
  else
    let start := u32 (blockNo * sz)
    { bks with blocks := fun k => if start ≤ k ∧ k < start + sz then block.get (k - start)
                                  else bks.blocks k }

namespace Blocks

/-- No product of a block number of the device with the block size wraps. -/
def Unwrapped (bks : Blocks sz) : Prop := bks.numBlocks * sz < 2 ^ 32

@[simp] theorem numBlocks_write (bks : Blocks sz) (b : Nat) (block : Buf sz) :
    (blockWrite bks b block).numBlocks = bks.numBlocks := by
  unfold blockWrite
  split <;> rfl

theorem Unwrapped.write {bks : Blocks sz} (h : bks.Unwrapped) (b : Nat) (block : Buf sz) :
    (blockWrite bks b block).Unwrapped := by
  simpa [Unwrapped] using h

theorem read_of_lt {bks : Blocks sz} {b : Nat} (h : b < bks.numBlocks) :
    blockRead bks b = some (bks.content b) := by
  simp [blockRead, Nat.not_le.mpr h]

theorem Unwrapped.offset {bks : Blocks sz} (h : bks.Unwrapped) {b : Nat}
    (hb : b < bks.numBlocks) : u32 (b * sz) = b * sz := by
  apply u32_of_lt
  have := Nat.mul_le_mul_right sz (Nat.le_of_lt hb)
  unfold Unwrapped at h
  omega

theorem content_write {bks : Blocks sz} (h : bks.Unwrapped) {b : Nat} (hb : b < bks.numBlocks)
    (block : Buf sz) {b' : Nat} (hb' : b' < bks.numBlocks) :
    (blockWrite bks b block).content b' = if b' = b then block else bks.content b' := by
  funext i
  have hi := i.isLt
  simp only [content, blockWrite, Nat.not_le.mpr hb, ite_false, h.offset hb, h.offset hb']
  by_cases same : b' = b
  · subst same
    rw [if_pos ⟨by omega, by omega⟩, if_pos rfl, Nat.add_sub_cancel_left]
    exact Buf.get_of_lt block hi
  · have apart : ¬ (b * sz ≤ b' * sz + i.val ∧ b' * sz + i.val < b * sz + sz) := by
      rcases Nat.lt_or_gt_of_ne same with lt | gt
      · have := Nat.mul_le_mul_right sz (Nat.succ_le_of_lt lt)
        rw [Nat.succ_mul] at this
        omega
      · have := Nat.mul_le_mul_right sz (Nat.succ_le_of_lt gt)
        rw [Nat.succ_mul] at this
        omega
    rw [if_neg apart, if_neg same, content, h.offset hb']

end Blocks

end Snfs
