import Snfs.Fs.Integrity

/-!
The bounds that `fs_read`, `fs_write` and `fs_copy` do not check. The checked
operations do what the code does and give no value at all where the code would
index `blocks` with 10 or more, where `offset + count` would wrap, or where
`fs_read` would take its branch for indirect blocks. In every state that a run
reaches they give what the code gives.
-/

namespace Snfs

open Slots

def Inode.block? (inode : Inode) (i : Nat) : Option Nat :=
  if i < inodeNumBlks then some (inode.blocks i) else none

def Inode.setBlock? (inode : Inode) (i b : Nat) : Option Inode :=
  if i < inodeNumBlks then some (inode.setBlock i b) else none

def add? (x y : Nat) : Option Nat := if x + y < 2 ^ 32 then some (x + y) else none

theorem Inode.block?_of_lt {inode : Inode} {i : Nat} (h : i < 10) :
    inode.block? i = some (inode.blocks i) :=
  if_pos h

theorem Inode.setBlock?_of_lt {inode : Inode} {i : Nat} (h : i < 10) (b : Nat) :
    inode.setBlock? i b = some (inode.setBlock i b) :=
  if_pos h

def readLoopChecked (ifile : InodePtr) (offset max blksUsed : Nat) :
    (fuel iblock : Nat) → (buffer : List UInt8) → Fs → Option (Option (List UInt8) × Fs)
  | 0, _, buffer, fs => some (some buffer, fs)
  | fuel + 1, iblock, buffer, fs =>
    let pos := buffer.length
    if pos < max ∧ iblock < blksUsed then
      ((fs.deref ifile).block? iblock).bind fun blockNum =>
        match fetchBlock fs blockNum with
        | none => some (none, fs)
        | some (data, fs) =>
          let start := if pos = 0 then offset % blockSize else 0
          let num := min (blockSize - start) (max - pos)
          readLoopChecked ifile offset max blksUsed fuel (iblock + 1)
            (buffer ++ data.slice start num) fs
    else some (some buffer, fs)

def fsReadChecked (fs : Fs) (file offset count : Nat) : Option (Option (List UInt8) × Fs) :=
  if itabSize ≤ file then some (none, fs)
  else
    match openInode fs file with
    | none => some (none, fs)
    | some (ifile, fs) =>
      let inode := fs.deref ifile
      if inode.type ≠ .file then some (none, fs)
      else if inode.size ≤ offset then some (some [], fs)
      else
        let iblock := offset / blockSize
        readLoopChecked ifile offset (asCount (min count (inode.size - offset))) inode.used
          (inode.used - iblock) iblock [] fs

def writeAllocChecked (ifile : InodePtr) : (n i : Nat) → Fs → Option (Bool × Fs)
  | 0, _, fs => some (true, fs)
  | n + 1, i, fs =>
    match fsiBmapFindFree fs.blkBmap fs.numBlocks with
    | none => some (false, fs)
    | some blockNum =>
      let fs := { fs with blkBmap := bmapSet fs.blkBmap blockNum }
      ((fs.deref ifile).setBlock? i blockNum).bind fun inode =>
        writeAllocChecked ifile n (i + 1)
          (addBlockToCache (fs.assign ifile inode) blockNum .zero true)

def writeLoopChecked (ifile : InodePtr) :
    (fuel iblock start : Nat) → (rest : List UInt8) → Fs → Option (Bool × Fs)
  | 0, _, _, _, fs => some (true, fs)
  | fuel + 1, iblock, start, rest, fs =>
    if rest = [] then some (true, fs)
    else
      let toWrite := min (blockSize - start) rest.length
      ((fs.deref ifile).block? iblock).bind fun blockNum =>
        match writeBlock fs blockNum start (rest.take toWrite) with
        | none => some (false, fs)
        | some fs => writeLoopChecked ifile fuel (iblock + 1) 0 (rest.drop toWrite) fs

def fsWriteChecked (fs : Fs) (file offset : Nat) (data : List UInt8) : Option (Bool × Fs) :=
  if itabSize ≤ file then some (false, fs)
  else
    match openInode fs file with
    | none => some (false, fs)
    | some (ifile, fs) =>
      let inode := fs.deref ifile
      if inode.type ≠ .file then some (false, fs)
      else
        let offset := min offset inode.size
        let blksUsed := inode.used
        (add? offset data.length).bind fun size =>
          let blksReq := max (offsetToBlocks size) blksUsed - blksUsed
          if inodeNumBlks - blksUsed < blksReq then some (false, fs)
          else
            (writeAllocChecked ifile blksReq blksUsed fs).bind fun
              | (false, fs) => some (false, fs)
              | (true, fs) =>
                let fs := if 0 < blksReq then fs.markDirty ifile else fs
                (writeLoopChecked ifile data.length (offset / blockSize) (offset % blockSize) data
                    fs).bind fun
                  | (false, fs) => some (false, fs)
                  | (true, fs) =>
                    if (fs.deref ifile).size < size then some (true, writeSize fs file ifile size)
                    else some (true, fs)

def copyBlocksChecked (src new : InodePtr) : (n i : Nat) → Fs → Option (Bool × Fs)
  | 0, _, fs => some (true, fs)
  | n + 1, i, fs =>
    ((fs.deref src).block? i).bind fun srcBlock =>
      match fsiBmapFindFree fs.blkBmap fs.numBlocks with
      | none => some (false, fs)
      | some newBlock =>
        let fs := { fs with blkBmap := bmapSet fs.blkBmap newBlock }
        ((fs.deref new).setBlock? i newBlock).bind fun inode =>
          let fs := fs.assign new inode
          match fetchBlock fs srcBlock with
          | none => some (false, fs)
          | some (data, fs) =>
            copyBlocksChecked src new n (i + 1) (addBlockToCache fs newBlock data true)

def copyInodeChecked (fs : Fs) (srcInode newInode : Nat) : Option (Bool × Fs) :=
  let (src, fs) := pinInode fs srcInode false
  let (new, fs) := pinInode fs newInode true
  (copyBlocksChecked src new (fs.deref src).used 0 fs).map fun
    | (false, fs) => (false, fs)
    | (true, fs) =>
      let fs := fs.assign new
        { fs.deref new with size := (fs.deref src).size, type := .file }
      match new with
      | .table _ => (true, fs)
      | .cached s => (true, if (fs.inodeCache s).dirty then fsiStoreFsdata fs else fs)

/-- The outer `none` is a failed check, the inner one a call of `exit`. -/
def fsCopyChecked (fs : Fs) (srcJunk dirJunk : Nat) (srcpath tgtpath : CString) :
    Option (Option (Bool × Fs)) :=
  match copyPaths fs srcJunk dirJunk srcpath tgtpath with
  | none => some none
  | some (none, fs) => some (some (false, fs))
  | some (some (srcInode, dirInode, targetName), fs) =>
    match fsCreate fs dirInode targetName with
    | (none, fs) => some (some (false, fs))
    | (some newInode, fs) => (copyInodeChecked fs srcInode newInode).map some

/-- One call with the checks; the other operations have none. -/
def fsStepChecked (fs : Fs) : FsOp → Option (Option (FsResult × Fs))
  | .read file offset count =>
      (fsReadChecked fs file offset count).map fun (bytes, fs) => some (.data bytes, fs)
  | .write file offset data =>
      (fsWriteChecked fs file offset data).map fun (ok, fs) => some (.written ok, fs)
  | .copy srcJunk dirJunk srcpath tgtpath =>
      (fsCopyChecked fs srcJunk dirJunk srcpath tgtpath).map fun copied =>
        copied.map fun (ok, fs) => (.copied ok, fs)
  | op => some (fsStep fs op)

private theorem readLoopChecked_eq (ifile : InodePtr) (offset max : Nat) {blksUsed : Nat}
    (bound : blksUsed ≤ 10) (fuel iblock : Nat) (buffer : List UInt8) (fs : Fs) :
    readLoopChecked ifile offset max blksUsed fuel iblock buffer fs =
      some (readLoop ifile offset max blksUsed fuel iblock buffer fs) := by
  induction fuel generalizing iblock buffer fs with
  | zero => rfl
  | succ fuel ih =>
      rw [readLoopChecked, readLoop]
      dsimp only
      split
      · rename_i more
        have inside : iblock < 10 := Nat.lt_of_lt_of_le more.2 bound
        rw [Inode.block?_of_lt inside, Option.bind_some,
          if_neg (Nat.not_le.mpr (show iblock < inodeNumBlks from inside))]
        cases fetchBlock fs ((fs.deref ifile).blocks iblock) with
        | none => rfl
        | some fetched => exact ih _ _ _
      · rfl

private theorem writeAllocChecked_eq (ifile : InodePtr) {n i : Nat} (bound : i + n ≤ 10) (fs : Fs) :
    writeAllocChecked ifile n i fs = some (writeAlloc ifile n i fs) := by
  induction n generalizing i fs with
  | zero => rfl
  | succ n ih =>
      rw [writeAllocChecked, writeAlloc]
      cases fsiBmapFindFree fs.blkBmap fs.numBlocks with
      | none => rfl
      | some b =>
          dsimp only
          rw [Inode.setBlock?_of_lt (by omega)]
          exact ih (by omega) _

private theorem writeLoopChecked_eq (ifile : InodePtr) {fuel iblock start : Nat} {rest : List UInt8}
    (bound : 512 * iblock + start + rest.length ≤ 5120) (fs : Fs) :
    writeLoopChecked ifile fuel iblock start rest fs =
      some (writeLoop ifile fuel iblock start rest fs) := by
  induction fuel generalizing iblock start rest fs with
  | zero => rfl
  | succ fuel ih =>
      rw [writeLoopChecked, writeLoop]
      split
      · rfl
      · rename_i more
        have left : 0 < rest.length := List.length_pos_iff.mpr more
        dsimp only
        rw [Inode.block?_of_lt (by omega), Option.bind_some]
        cases writeBlock fs ((fs.deref ifile).blocks iblock) start
            (rest.take (min (blockSize - start) rest.length)) with
        | none => rfl
        | some fs₁ =>
            refine ih ?_ fs₁
            simp only [List.length_drop, blockSize]
            omega

private theorem copyBlocksChecked_eq (src new : InodePtr) {n i : Nat} (bound : i + n ≤ 10)
    (fs : Fs) :
    copyBlocksChecked src new n i fs = some (copyBlocks src new n i fs) := by
  induction n generalizing i fs with
  | zero => rfl
  | succ n ih =>
      rw [copyBlocksChecked, copyBlocks, Inode.block?_of_lt (by omega)]
      dsimp only [Option.bind_some]
      cases fsiBmapFindFree fs.blkBmap fs.numBlocks with
      | none => rfl
      | some b =>
          dsimp only
          rw [Inode.setBlock?_of_lt (by omega), Option.bind_some]
          cases fetchBlock (Fs.assign { fs with blkBmap := bmapSet fs.blkBmap b } new
              ((Fs.deref { fs with blkBmap := bmapSet fs.blkBmap b } new).setBlock i b))
              ((fs.deref src).blocks i) with
          | none => rfl
          | some fetched => exact ih (by omega) _

variable {own : Ledger} {top : Nat} {fs : Fs}

theorem Inv.deref_size (h : Inv own top fs) {p : InodePtr} (inside : ∀ a, p = .table a → a < top) :
    (fs.deref p).size ≤ 5120 := by
  cases p with
  | cached s => exact (h.inodes.cached s).size_le
  | table a => exact (h.inodes.table a (inside a rfl)).size_le

theorem Inode.used_le_of_size {inode : Inode} (small : inode.size ≤ 5120) : inode.used ≤ 10 :=
  offsetToBlocks_le.mpr small

theorem Inv.fsReadChecked (h : Inv own top fs) (file offset count : Nat) :
    fsReadChecked fs file offset count = some (fsRead fs file offset count) := by
  rw [Snfs.fsReadChecked, fsRead]
  split
  · rfl
  cases opened : Snfs.openInode fs file with
  | none => rfl
  | some pair =>
      obtain ⟨lt, -, -, -, copy, -⟩ := h.openInode opened
      have small : (pair.2.deref pair.1).size ≤ 5120 := copy ▸ (h.owned_seen lt).size_le
      dsimp only
      split
      · rfl
      split
      · rfl
      exact readLoopChecked_eq _ _ _ (Inode.used_le_of_size small) _ _ _ _

theorem Inv.fsWriteChecked (h : Inv own top fs) (file offset : Nat) {data : List UInt8}
    (short : data.length ≤ 1024) :
    fsWriteChecked fs file offset data = some (fsWrite fs file offset data) := by
  rw [Snfs.fsWriteChecked, fsWrite]
  split
  · rfl
  cases opened : Snfs.openInode fs file with
  | none => rfl
  | some pair =>
      obtain ⟨p, fs₁⟩ := pair
      obtain ⟨lt, -, -, -, copy, -⟩ := h.openInode opened
      have small : (fs₁.deref p).size ≤ 5120 := copy ▸ (h.owned_seen lt).size_le
      have used := Inode.used_le_of_size small
      dsimp only
      split
      · rfl
      -- the position is at most the size, so the end of the write is far below 2^32
      have unwrapped : min offset (fs₁.deref p).size + data.length < 2 ^ 32 := by omega
      rw [add?, if_pos unwrapped, Option.bind_some, u32_of_lt unwrapped]
      split
      · rfl
      rename_i fits
      simp only [inodeNumBlks] at fits
      have blocks : offsetToBlocks (min offset (fs₁.deref p).size + data.length) ≤ 10 := by omega
      have bound := offsetToBlocks_le.mp blocks
      rw [writeAllocChecked_eq p (by omega), Option.bind_some]
      cases Snfs.writeAlloc p (max (offsetToBlocks (min offset (fs₁.deref p).size + data.length))
          (fs₁.deref p).used - (fs₁.deref p).used) (fs₁.deref p).used fs₁ with
      | mk done fs₂ =>
          cases done with
          | false => rfl
          | true =>
              dsimp only
              rw [writeLoopChecked_eq p (by simp only [blockSize]; omega), Option.bind_some]
              cases Snfs.writeLoop p data.length (min offset (fs₁.deref p).size / blockSize)
                  (min offset (fs₁.deref p).size % blockSize) data
                  (if 0 < max (offsetToBlocks (min offset (fs₁.deref p).size + data.length))
                    (fs₁.deref p).used - (fs₁.deref p).used then fs₂.markDirty p else fs₂) with
              | mk done fs₃ =>
                  cases done with
                  | false => rfl
                  | true =>
                      dsimp only
                      split <;> rfl

theorem Inv.copyInodeChecked (h : Inv own top fs) {src new : Nat} (hsrc : src < top)
    (hnew : new < top) (isNew : (fs.inodeTab new).type = .file) :
    copyInodeChecked fs src new = some (Snfs.copyInode fs src new) := by
  obtain ⟨h₁, quiet₁, -, -⟩ := h.pinInode hsrc (d := false) (by simp)
  obtain ⟨h₂, -, -, -⟩ := h₁.pinInode hnew (d := true) fun _ => (quiet₁.type new).trans isNew
  have inside (a : Nat) (table : (Snfs.pinInode fs src false).1 = .table a) : a < top := by
    rw [Snfs.pinInode] at table
    split at table
    · cases table
    · cases table
      exact hsrc
  rw [Snfs.copyInodeChecked, Snfs.copyInode]
  dsimp only
  rw [copyBlocksChecked_eq _ _ (by
    rw [Nat.zero_add]
    exact Inode.used_le_of_size (h₂.deref_size inside))]
  generalize Snfs.copyBlocks _ _ _ _ _ = copied
  obtain ⟨ok, fs'⟩ := copied
  cases ok with
  | false => rfl
  | true => rfl

theorem Inv.fsCopyChecked (h : Inv own top fs) (srcJunk dirJunk : Nat) (srcpath : CString)
    {tgtpath : CString} (noZero : (0 : UInt8) ∉ tgtpath) (room : Room fs 1) :
    fsCopyChecked fs srcJunk dirJunk srcpath tgtpath =
      some (fsCopy fs srcJunk dirJunk srcpath tgtpath) := by
  rw [Snfs.fsCopyChecked, fsCopy]
  cases paths : Snfs.copyPaths fs srcJunk dirJunk srcpath tgtpath with
  | none => rfl
  | some result =>
      obtain ⟨found, fs₁⟩ := result
      obtain ⟨h₁, quiet, named⟩ := h.copyPaths paths
      cases found with
      | none => rfl
      | some found =>
          obtain ⟨src, dir, name⟩ := found
          obtain ⟨hsrc, -, _, split⟩ := named src dir name rfl
          dsimp only
          obtain ⟨fs₂, create, -⟩ | ⟨own', fs₂, create, made⟩ :=
            h₁.fsMake .file (.inr rfl) dir (fun zero => noZero (mem_of_splitLast split zero))
              (room.congr quiet.numBlocks quiet.blkBmap)
          · rw [fsCreate, create]
          · rw [fsCreate, create]
            dsimp only
            rw [made.inv.copyInodeChecked (Nat.lt_succ_of_lt hsrc) (Nat.lt_succ_self top) (by
              rw [made.tab_new]
              rfl)]
            rfl

variable {num : Nat} {clock : Nat → Int} {trace : List (FsOp × FsResult)}

/-- In every state that a run reaches the inode copies are no larger than ten blocks, and the next
call passes the checks. -/
theorem sizes_and_indices_in_range (data : 10 ≤ num) (small : num ≤ 4096)
    (run : FsRun num clock trace fs) :
    (∀ a, bmapIsset fs.inodeBmap a = true → (fs.inodeTab a).size ≤ 5120) ∧
    (∀ s, (fs.inodeCache s).val.size ≤ 5120) ∧
    ∀ op, op.Fits → fsStepChecked fs op = some (fsStep fs op) := by
  obtain ⟨own, top, inv, size⟩ := run.inv data small
  refine ⟨fun a used => (inv.inodes.table a (inv.lt_top used)).size_le,
    fun s => (inv.inodes.cached s).size_le, fun op fits => ?_⟩
  cases op with
  | read file offset count =>
      rw [fsStepChecked, inv.fsReadChecked]
      rfl
  | write file offset data =>
      rw [fsStepChecked, inv.fsWriteChecked file offset fits]
      rfl
  | copy srcJunk dirJunk srcpath tgtpath =>
      rw [fsStepChecked, inv.fsCopyChecked srcJunk dirJunk srcpath fits.2.1
        (room_of_le (size ▸ small) 1)]
      rfl
  | lookup _ | getAttrs _ | create _ _ | mkdir _ _ | readdir _ _ => rfl

/-- A file of one byte, and a write of 1024 bytes far behind its end. -/
theorem sizes_and_indices_in_range_append :
    ∃ trace fs, fsAfter 16 (fun _ => 1) [.create 1 [102], .write 2 0 [7]] = some (trace, fs) ∧
      fsStepChecked fs (.write 2 (2 ^ 32 - 1) (List.replicate 1024 0)) =
        some (fsStep fs (.write 2 (2 ^ 32 - 1) (List.replicate 1024 0))) := by
  have made : (fsAfter 16 (fun _ => 1) [.create 1 [102], .write 2 0 [7]]).isSome = true := by
    decide +kernel
  obtain ⟨⟨trace, fs⟩, calls⟩ := Option.isSome_iff_exists.mp made
  have run := FsRun.of_calls calls (by simp [FsOp.Fits])
  exact ⟨trace, fs, calls, (sizes_and_indices_in_range (by decide) (by decide) run).2.2 _
    List.length_replicate.le⟩

end Snfs
