import Snfs.Fs.Contents
import Snfs.Fs.Integrity
import Snfs.Fs.Marks

/-!
What a successful `fs_write` leaves in the copy of the inode that it was given,
be it a slot of the inode cache or the table entry, and in the blocks: the bytes
are placed into the content, new blocks are zero behind them, and no other block
changes. Whether a later call sees this copy is another question.
-/

namespace Snfs

open Slots Runs

/-- The content of a block: that of the cache entry for it, else the device's. A cleared entry
names block 0, which is never cached. -/
def logical (fs : Fs) (b : Nat) : Block := if b = 0 then fs.blocks.content 0 else fs.lblk b

/-- A copy `c` of a file's inode becomes `c'` when `data` goes to position `pos` of its content. -/
structure Spliced (fs fs' : Fs) (c c' : Inode) (pos : Nat) (data : List UInt8) : Prop where
  size : c'.size = max c.size (pos + data.length)
  content : bytesAt fs'.lblk c' 0 c'.size = overwrite (bytesAt fs.lblk c 0 c.size) pos data
  padding : ∀ q, 512 * c.used ≤ q → q < 512 * c'.used → pos + data.length ≤ q →
    fileByte fs'.lblk c' q = 0
  old : ∀ i, i < c.used → c'.blocks i = c.blocks i
  kept : ∀ b, bmapIsset fs.blkBmap b = true → bmapIsset fs'.blkBmap b = true
  marked : ∀ b, (bmapIsset fs.blkBmap b = false ∧ bmapIsset fs'.blkBmap b = true) ↔
    ∃ i, c.used ≤ i ∧ i < c'.used ∧ c'.blocks i = b
  other : ∀ b, b < fs.numBlocks → (∀ i, i < c'.used → c'.blocks i ≠ b) →
    logical fs' b = logical fs b

variable {own : Ledger} {top : Nat} {fs fs' : Fs}

/-- No block below 10 is cached under its own number. -/
theorem Inv.logical_low (h : Inv own top fs) {b : Nat} (low : b < 10) :
    logical fs b = fs.blocks.content b := by
  rw [logical]
  split
  · rename_i zero
    rw [zero]
  · rename_i pos
    refine Table.view_of_absent (fun s key => ?_) _
    rcases h.blocks.slot s with ⟨cleared, -⟩ | ⟨a, i, given, -⟩
    · exact pos (key.symm.trans cleared)
    · have data := (h.owned_range given).1
      omega

theorem Inv.logical_data {b : Nat} (data : 10 ≤ b) : logical fs b = fs.lblk b :=
  if_neg (by omega)

/-- An inode that is opened through the table has no copy that could be written back over it. -/
theorem openInode_table {a b : Nat} (opened : openInode fs a = some (.table b, fs')) :
    b = a ∧ ∀ s, (fs'.inodeCache s).key = a → (fs'.inodeCache s).dirty = false := by
  cases opened_of_open opened with
  | table absent =>
      refine ⟨rfl, fun s key => ?_⟩
      by_cases same : s = oldest fun i => (fs.inodeCache i).lastAccess
      · rw [same, addInodeToCache, addInodeAt_self]
      · rw [addInodeToCache, addInodeAt_other _ same] at key
        exact absurd key (absent s)

/-- Step 5 of `fs_write` sets the size in the copy that the pointer leads to. -/
theorem deref_writeSize {file : Nat} {p : InodePtr} (size : Nat)
    (clean : ∀ b, p = .table b → ∀ s, (fs.inodeCache s).key = b → (fs.inodeCache s).dirty = false) :
    (writeSize fs file p size).deref p = { fs.deref p with size := size } := by
  cases p with
  | cached s =>
      rw [writeSize]
      dsimp only
      rw [deref_markDirty, deref_assign_self]
  | table b =>
      have entry : (Fs.assign fs (.table b) { fs.deref (.table b) with size := size }).inodeTab b =
          { fs.deref (.table b) with size := size } :=
        deref_assign_self fs (.table b) _
      have left (v : Fin inodeCacheSize) (tab : Nat → Inode) :
          Table.evict tab (fs.inodeCache v) b = tab b := by
        by_cases key : (fs.inodeCache v).key = b
        · rw [Table.evict_of_clean _ (clean b rfl v key)]
        · exact Table.evict_of_ne _ key
      exact (left _ _).trans entry

/-- What step 4 of `fs_write` stored, read through the copy with its new size. -/
theorem Stored.spliced {own' : Ledger} {p : InodePtr} {file pos : Nat} {data : List UInt8}
    {fs₁ fs₂ : Fs} (stored : Stored own own' top p file pos data fs₁ fs₂) (h : Inv own top fs)
    (lt : file < top) (h₁ : Inv own top fs₁) (quiet₁ : Quiet top fs fs₁)
    (copy : fs₁.deref p = fs.seen file) (le : pos ≤ (fs.seen file).size)
    (inv' : Inv own' top fs') (quiet : Quiet top fs₂ fs') (bmap : fs'.blkBmap = fs₂.blkBmap)
    (kept : ∀ b, bmapIsset fs.blkBmap b = true → bmapIsset fs'.blkBmap b = true) :
    Spliced fs fs' (fs.seen file)
      { fs₂.deref p with size := max (fs.seen file).size (pos + data.length) } pos data where
  size := rfl
  content := stored.bytesAt h lt quiet₁ copy le quiet.lblk (.refl _)
  old i hi := by
    rw [← copy] at hi ⊢
    exact stored.old i hi
  kept := kept
  padding q new inside behind := by
    -- the block of a byte behind the old blocks was free, so it held zeros
    have reached : 512 * (q / 512) < max (fs.seen file).size (pos + data.length) :=
      Inode.lt_used.mp (Nat.div_lt_of_lt_mul inside)
    have there : 512 * (q / 512) < pos + data.length := by
      have used : (fs.seen file).size ≤ 512 * (fs.seen file).used :=
        offsetToBlocks_le.mp (Nat.le_refl _)
      omega
    have given : own' ((fs₂.deref p).blocks (q / 512)) = some (file, q / 512) :=
      stored.given _ (by rw [copy]; omega)
    have clear := stored.fresh (q / 512) (by rw [copy]; omega) there
    obtain ⟨low, bound⟩ := stored.inv.owned_range given
    have zero := h₁.lblk_free (by rw [← stored.frame.numBlocks]; exact bound) clear
    have byte := stored.bytes q given
    rw [if_neg (by omega)] at byte
    simp only [fileByte, blockSize] at byte ⊢
    rw [quiet.lblk _ low bound, byte, zero, Buf.get_zero]
  marked b := by
    rw [bmap]
    constructor
    · rintro ⟨clear, set⟩
      rcases stored.marks b set with old | ⟨i, new, there, same⟩
      · rw [quiet₁.blkBmap, clear] at old
        cases old
      · rw [copy] at new
        exact ⟨i, new, Inode.lt_used.mpr (by dsimp only; omega), same⟩
    · rintro ⟨i, new, inside, rfl⟩
      have there : 512 * i < max (fs.seen file).size (pos + data.length) := Inode.lt_used.mp inside
      have given : own' ((fs₂.deref p).blocks i) = some (file, i) :=
        stored.given i (by rw [copy]; exact there)
      have added : 512 * i < pos + data.length := by
        have used : (fs.seen file).size ≤ 512 * (fs.seen file).used :=
          offsetToBlocks_le.mp (Nat.le_refl _)
        omega
      have clear := stored.fresh i (by rw [copy]; exact new) added
      rw [quiet₁.blkBmap] at clear
      exact ⟨clear, (stored.inv.ledger.given _ _ _ given).2.2.1⟩
  other b inside apart := by
    by_cases low : b < 10
    · rw [inv'.logical_low low, h.logical_low low, quiet.low b low, stored.frame.low b low,
        quiet₁.low b low]
    · have data : 10 ≤ b := by omega
      have bound₁ : b < fs₁.numBlocks := by rwa [quiet₁.numBlocks]
      have bound₂ : b < fs₂.numBlocks := by rwa [stored.frame.numBlocks]
      rw [Inv.logical_data data, Inv.logical_data data, quiet.lblk b data bound₂,
        stored.other b data bound₁ (fun i first last same => ?_), quiet₁.lblk b data inside]
      exact apart i (Inode.lt_used.mpr (by dsimp only; omega)) same.symm

/-- A write that returns 0 splices its bytes into the copy of the inode that it opened, and that is
all it does to the blocks. -/
theorem Inv.fsWrite_splices (h : Inv own top fs) (small : fs.numBlocks ≤ bmapBits)
    {file offset : Nat} {data : List UInt8} (short : data.length ≤ 1024)
    (result : fsWrite fs file offset data = (true, fs')) :
    ∃ p fs₁, Snfs.openInode fs file = some (p, fs₁) ∧ fs₁.deref p = fs.seen file ∧
      Spliced fs fs' (fs.seen file) (fs'.deref p) (min offset (fs.seen file).size) data := by
  have kept (b : Nat) (set : bmapIsset fs.blkBmap b = true) : bmapIsset fs'.blkBmap b = true := by
    have kept := (MarksKept.fsWrite fs file offset data).blkBmap b set
    rwa [result] at kept
  have ends := h.fsWrite_ends file offset short (room_of_le small _)
  rw [result] at ends
  cases ends with
  | @inside p fs₁ _ opened _ le stored _ =>
      obtain ⟨lt, h₁, quiet₁, -, copy, -⟩ := h.openInode opened
      refine ⟨p, fs₁, opened, copy, ?_⟩
      have spliced := stored.spliced h lt h₁ quiet₁ copy (Nat.min_le_right _ _) stored.inv
        (.refl top fs') rfl kept
      rw [Nat.max_eq_left le] at spliced
      rwa [show { fs'.deref p with size := (fs.seen file).size } = fs'.deref p by
        rw [← copy, ← stored.size]] at spliced
  | @extended p fs₁ fs₂ own' opened grows stored =>
      obtain ⟨lt, h₁, quiet₁, ptr, copy, -⟩ := h.openInode opened
      refine ⟨p, fs₁, opened, copy, ?_⟩
      have ptr₂ := stored.only.ptrTo ptr
      have isFile := (stored.frame.type file).trans ((quiet₁.type file).trans grows.isFile)
      obtain ⟨inv', quiet⟩ := stored.inv.writeSize lt ptr₂ isFile grows.fits
        fun i hi => stored.given i (by omega)
      have spliced := stored.spliced h lt h₁ quiet₁ copy (Nat.min_le_right _ _) inv' quiet
        (by cases p <;> rfl) kept
      rw [Nat.max_eq_right (Nat.le_of_lt grows.grows)] at spliced
      rwa [deref_writeSize]
      intro b table s key
      rw [table] at opened stored
      obtain ⟨rfl, clean⟩ := openInode_table opened
      have same := stored.only.slot s (by simp)
      rw [same] at key ⊢
      exact clean s key

variable {num : Nat} {clock : Nat → Int} {trace : List (FsOp × FsResult)}

/-- In every state that a run reaches. -/
theorem fsWrite_splices_bytes (least : 10 ≤ num) (small : num ≤ 4096)
    (run : FsRun num clock trace fs) {file offset : Nat} {data : List UInt8}
    (short : data.length ≤ 1024) (result : fsWrite fs file offset data = (true, fs')) :
    ∃ p fs₁, openInode fs file = some (p, fs₁) ∧ fs₁.deref p = fs.seen file ∧
      Spliced fs fs' (fs.seen file) (fs'.deref p) (min offset (fs.seen file).size) data := by
  obtain ⟨own, top, inv, size⟩ := run.inv least small
  exact inv.fsWrite_splices (size ▸ small) short result

/-- The last hundred bytes of a file of 600 are overwritten, and it grows by a block. -/
theorem fsWrite_splices_bytes_two_blocks :
    ∃ trace fs fs', fsAfter 16 (fun _ => 1) [.create 1 [102], .getAttrs 2,
        .write 2 0 (List.replicate 600 7)] = some (trace, fs) ∧
      fsWrite fs 2 500 (List.replicate 700 1) = (true, fs') ∧
      ∃ p fs₁, openInode fs 2 = some (p, fs₁) ∧ fs₁.deref p = fs.seen 2 ∧
        Spliced fs fs' (fs.seen 2) (fs'.deref p) (min 500 (fs.seen 2).size)
          (List.replicate 700 1) := by
  have facts : (fsAfter 16 (fun _ => 1) [.create 1 [102], .getAttrs 2,
      .write 2 0 (List.replicate 600 7)]).map (fun r =>
        (fsWrite r.2 2 500 (List.replicate 700 1)).1) = some true := by decide +kernel
  obtain ⟨⟨trace, fs⟩, calls, done⟩ := Option.map_eq_some_iff.mp facts
  have short {n : Nat} (few : n ≤ 1024) (b : UInt8) : (List.replicate n b).length ≤ 1024 := by
    rwa [List.length_replicate]
  have run := FsRun.of_calls calls (by
    simp only [List.mem_cons, List.not_mem_nil, or_false, forall_eq_or_imp, forall_eq, FsOp.Fits]
    exact ⟨by decide, trivial, short (by decide) 7⟩)
  have result : fsWrite fs 2 500 (List.replicate 700 1) =
      (true, (fsWrite fs 2 500 (List.replicate 700 1)).2) := Prod.ext done rfl
  exact ⟨trace, fs, _, calls, result,
    fsWrite_splices_bytes (by decide) (by decide) run (short (by decide) 1) result⟩

end Snfs
