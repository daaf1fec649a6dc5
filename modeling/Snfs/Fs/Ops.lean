import Snfs.Fs.Cache

/-!
The interface functions of `snfs_server/fs.c`. A function that returns 0 or -1
gives `some` of its outputs or `none`. The calls of a process end when it calls
`exit`, which `fs_get_attrs` does on an inode that is neither a directory nor a
file.
-/

namespace Snfs

structure FileAttrs where
  inodeid : Nat
  type : Itype
  size : Nat
  numEntries : Int
deriving DecidableEq, Repr

structure FileName where
  name : CString
  type : Itype
deriving DecidableEq, Repr

/-- `fs_get_attrs`. The outer `none` is the call of `exit(-1)`. -/
def fsGetAttrs (fs : Fs) (file : Nat) : Option (Option FileAttrs × Fs) :=
  if itabSize ≤ file then some (none, fs)
  else
    match openInode fs file with
    | none => some (none, fs)
    | some (ptr, fs) =>
      let inode := fs.deref ptr
      match inode.type with
      | .dir => some (some ⟨file, .dir, inode.size, (inode.size / dentrySize : Nat)⟩, fs)
      | .file => some (some ⟨file, .file, inode.size, -1⟩, fs)
      | _ => none

abbrev slash : UInt8 := 47

/-- The tokens that repeated `strtok(_, "/")` gives: the nonempty runs between slashes. -/
def components (path : CString) : List CString := (path.splitOn slash).filter (· != [])

/-- The walk of `fs_lookup` over the tokens, with `*fileid` as it is left in `id`. -/
def lookupFrom : (dir : Nat) → (id : Option Nat) → List CString → Fs → (Int × Option Nat) × Fs
  | _, id, [], fs => ((1, id), fs)
  | dir, id, token :: rest, fs =>
    if !bmapIsset fs.inodeBmap dir then ((-1, id), fs)
    else if (fs.inodeTab dir).type ≠ .dir then ((-1, id), fs)
    else
      match fsiDirSearch fs dir token with
      | (none, fs) => ((0, id), fs)
      | (some fid, fs) => lookupFrom fid (some fid) rest fs

/-- `fs_lookup`: the return value and what it stored in `*fileid`, nothing when the path has no
component. -/
def fsLookup (fs : Fs) (file : CString) : (Int × Option Nat) × Fs :=
  if file.head? ≠ some slash then ((-1, none), fs)
  else lookupFrom 1 none (components file) fs

def asCount (x : Nat) : Nat := if x < 2 ^ 31 then x else 0

/-- The block loop of `fs_read`; `pos` is the length of what is in the buffer, and
`fuel ≥ blksUsed - iblock`. -/
def readLoop (ifile : InodePtr) (offset max blksUsed : Nat) :
    (fuel iblock : Nat) → (buffer : List UInt8) → Fs → Option (List UInt8) × Fs
  | 0, _, buffer, fs => (some buffer, fs)
  | fuel + 1, iblock, buffer, fs =>
    let pos := buffer.length
    if pos < max ∧ iblock < blksUsed then
      if inodeNumBlks ≤ iblock then (none, fs)
      else
        match fetchBlock fs ((fs.deref ifile).blocks iblock) with
        | none => (none, fs)
        | some (data, fs) =>
          let start := if pos = 0 then offset % blockSize else 0
          let num := min (blockSize - start) (max - pos)
          readLoop ifile offset max blksUsed fuel (iblock + 1) (buffer ++ data.slice start num) fs
    else (some buffer, fs)

/-- `fs_read`; the outputs are the `*nread` bytes of the buffer. -/
def fsRead (fs : Fs) (file offset count : Nat) : Option (List UInt8) × Fs :=
  if itabSize ≤ file then (none, fs)
  else
    match openInode fs file with
    | none => (none, fs)
    | some (ifile, fs) =>
      let inode := fs.deref ifile
      if inode.type ≠ .file then (none, fs)
      else if inode.size ≤ offset then (some [], fs)
      else
        let iblock := offset / blockSize
        readLoop ifile offset (asCount (min count (inode.size - offset))) inode.used
          (inode.used - iblock) iblock [] fs

/-- Step 3 of `fs_write`: `n` new blocks from index `i` on. -/
def writeAlloc (ifile : InodePtr) : (n i : Nat) → Fs → Bool × Fs
  | 0, _, fs => (true, fs)
  | n + 1, i, fs =>
    match fsiBmapFindFree fs.blkBmap fs.numBlocks with
    | none => (false, fs)
    | some blockNum =>
      let fs := { fs with blkBmap := bmapSet fs.blkBmap blockNum }
      let fs := fs.assign ifile ((fs.deref ifile).setBlock i blockNum)
      writeAlloc ifile n (i + 1) (addBlockToCache fs blockNum .zero true)

/-- One round of step 4 of `fs_write`: `chunk` goes into the block at `start`. `none` is a failed
`block_read`. -/
def writeBlock (fs : Fs) (blockNum start : Nat) (chunk : List UInt8) : Option Fs :=
  match findBlockInCache fs blockNum with
  | some (s, fs) =>
    let data := (fs.blockCache s).val.splice start chunk
    some (({ fs with blockCache := fs.blockCache.write s data true } : Fs).touchBlock s)
  | none =>
    match blockRead fs.blocks blockNum with
    | none => none
    | some data => some (addBlockToCache fs blockNum (data.splice start chunk) true)

/-- Step 4 of `fs_write`, with `rest` still to be written, the first round at `start` and
`fuel ≥ rest.length`. -/
def writeLoop (ifile : InodePtr) :
    (fuel iblock start : Nat) → (rest : List UInt8) → Fs → Bool × Fs
  | 0, _, _, _, fs => (true, fs)
  | fuel + 1, iblock, start, rest, fs =>
    if rest = [] then (true, fs)
    else
      let toWrite := min (blockSize - start) rest.length
      match writeBlock fs ((fs.deref ifile).blocks iblock) start (rest.take toWrite) with
      | none => (false, fs)
      | some fs => writeLoop ifile fuel (iblock + 1) 0 (rest.drop toWrite) fs

/-- Step 5 of `fs_write`: a larger size, and for an inode that was not cached a second copy in
the cache. -/
def writeSize (fs : Fs) (file : Nat) (ifile : InodePtr) (size : Nat) : Fs :=
  let fs := (fs.assign ifile { fs.deref ifile with size := size }).markDirty ifile
  match ifile with
  | .cached _ => fs
  | .table _ => addInodeToCache fs file true

/-- `fs_write` of the `count` bytes `data`; `true` is the return value 0, `false` is -1. -/
def fsWrite (fs : Fs) (file offset : Nat) (data : List UInt8) : Bool × Fs :=
  if itabSize ≤ file then (false, fs)
  else
    match openInode fs file with
    | none => (false, fs)
    | some (ifile, fs) =>
      let inode := fs.deref ifile
      if inode.type ≠ .file then (false, fs)
      else
        let offset := min offset inode.size
        let blksUsed := inode.used
        let blksReq := max (offsetToBlocks (u32 (offset + data.length))) blksUsed - blksUsed
        if inodeNumBlks - blksUsed < blksReq then (false, fs)
        else
          match writeAlloc ifile blksReq blksUsed fs with
          | (false, fs) => (false, fs)
          | (true, fs) =>
            let fs := if 0 < blksReq then fs.markDirty ifile else fs
            match writeLoop ifile data.length (offset / blockSize) (offset % blockSize) data fs with
            | (false, fs) => (false, fs)
            | (true, fs) =>
              let size := u32 (offset + data.length)
              if (fs.deref ifile).size < size then (true, writeSize fs file ifile size)
              else (true, fs)

/-- The block that a directory of full pages gets for its next entry, marked in the bitmap.
`none` is a full device. -/
def growDir (fs : Fs) (idir : Inode) : Option (Inode × Block) :=
  if idir.size % blockSize = 0 then
    (fsiBmapFindFree fs.blkBmap fs.numBlocks).map fun fblock =>
      (idir.setBlock (idir.size / blockSize) fblock, bmapSet fs.blkBmap fblock)
  else some (idir, fs.blkBmap)

/-- The new entry on the directory's last page, the larger directory, the new inode, and the
metadata stored on the device. -/
def addEntry (type : Itype) (fs : Fs) (dir : Nat) (idir : Inode) (blkBmap : Block)
    (file : CString) (finode : Nat) : Fs :=
  let blockNum := idir.blocks (idir.size / blockSize)
  let page := (blockRead fs.blocks blockNum).getD .zero
  let page := setEntry page (idir.size % blockSize / dentrySize) file finode
  let tab := Function.update fs.inodeTab dir { idir with size := u32 (idir.size + dentrySize) }
  fsiStoreFsdata
    { fs with
      blocks := blockWrite fs.blocks blockNum page
      blkBmap := blkBmap
      inodeBmap := bmapSet fs.inodeBmap finode
      inodeTab := Function.update tab finode (fsiInodeInit type) }

/-- `fs_create` and `fs_mkdir` share all of their code but the type of the new inode. -/
def fsMake (type : Itype) (fs : Fs) (dir : Nat) (file : CString) : Option Nat × Fs :=
  if itabSize ≤ dir then (none, fs)
  else if file.length = 0 ∨ fsMaxFnameSz < file.length + 1 then (none, fs)
  else if !bmapIsset fs.inodeBmap dir then (none, fs)
  else if (fs.inodeTab dir).type ≠ .dir then (none, fs)
  else
    match fsiDirSearch fs dir file with
    | (some _, fs) => (none, fs)
    | (none, fs) =>
      match fsiBmapFindFree fs.inodeBmap itabSize with
      | none => (none, fs)
      | some finode =>
        match growDir fs (fs.inodeTab dir) with
        | none => (none, fs)
        | some (idir, blkBmap) =>
          (some finode, addEntry type fs dir idir blkBmap file finode)

def fsCreate : Fs → Nat → CString → Option Nat × Fs := fsMake .file

def fsMkdir : Fs → Nat → CString → Option Nat × Fs := fsMake .dir

def entryType (fs : Fs) (id : Nat) : Itype × Fs :=
  match findInodeInCache fs id with
  | some s => ((fs.inodeCache s).val.type, fs.touchInode s)
  | none =>
    if id < itabSize ∧ bmapIsset fs.inodeBmap id then ((fs.inodeTab id).type, fs)
    else (.unknown, fs)

def listEntries (page : Block) : (n i : Nat) → Fs → List FileName × Fs
  | 0, _, fs => ([], fs)
  | n + 1, i, fs =>
    let (type, fs) := entryType fs (entryInodeid page i)
    let (rest, fs) := listEntries page n (i + 1) fs
    (⟨entryName page i, type⟩ :: rest, fs)

def listPages (dir : Nat) (idir : InodePtr) :
    (fuel iblock num : Nat) → Fs → Option (List FileName) × Fs
  | 0, _, _, fs => (some [], fs)
  | fuel + 1, iblock, num, fs =>
    if num = 0 then (some [], fs)
    else
      match loadDirPage fs dir ((fs.deref idir).blocks iblock) with
      | none => (none, fs)
      | some (page, fs) =>
        let (names, fs) := listEntries page (min dirPageEntries num) 0 fs
        let (rest, fs) := listPages dir idir fuel (iblock + 1) (num - dirPageEntries) fs
        (rest.map (names ++ ·), fs)

def fsReaddir (fs : Fs) (dir : Nat) (maxentries : Int) : Option (List FileName) × Fs :=
  if itabSize ≤ dir ∨ maxentries < 0 then (none, fs)
  else
    match openInode fs dir with
    | none => (none, fs)
    | some (idir, fs) =>
      if (fs.deref idir).type ≠ .dir then (none, fs)
      else
        let num := min ((fs.deref idir).size / dentrySize) maxentries.toNat
        listPages dir idir num 0 num fs

/-- Step 6 of `fs_copy`: `n` blocks from index `i` on. -/
def copyBlocks (src new : InodePtr) : (n i : Nat) → Fs → Bool × Fs
  | 0, _, fs => (true, fs)
  | n + 1, i, fs =>
    let srcBlock := (fs.deref src).blocks i
    match fsiBmapFindFree fs.blkBmap fs.numBlocks with
    | none => (false, fs)
    | some newBlock =>
      let fs := { fs with blkBmap := bmapSet fs.blkBmap newBlock }
      let fs := fs.assign new ((fs.deref new).setBlock i newBlock)
      match fetchBlock fs srcBlock with
      | none => (false, fs)
      | some (data, fs) => copyBlocks src new n (i + 1) (addBlockToCache fs newBlock data true)

/-- Step 5 of `fs_copy` for one inode; `dirty` is the flag of the copy it caches. -/
def pinInode (fs : Fs) (ino : Nat) (dirty : Bool) : InodePtr × Fs :=
  match findInodeInCache fs ino with
  | some s => (.cached s, fs.touchInode s)
  | none => (.table ino, addInodeToCache fs ino dirty)

/-- Steps 5 to 8 of `fs_copy`; `true` is the return value 0, `false` is -1. -/
def copyInode (fs : Fs) (srcInode newInode : Nat) : Bool × Fs :=
  let (src, fs) := pinInode fs srcInode false
  let (new, fs) := pinInode fs newInode true
  match copyBlocks src new (fs.deref src).used 0 fs with
  | (false, fs) => (false, fs)
  | (true, fs) =>
    let fs := fs.assign new
      { fs.deref new with size := (fs.deref src).size, type := .file }
    match new with
    | .table _ => (true, fs)
    | .cached s => (true, if (fs.inodeCache s).dirty then fsiStoreFsdata fs else fs)

/-- The part of a path before its last slash and the part after it; `none` without a slash. -/
def splitLast (path : CString) : Option (CString × CString) :=
  if slash ∈ path then
    let name := (path.reverse.takeWhile (· != slash)).reverse
    some (path.take (path.length - name.length - 1), name)
  else none

/-- Steps 1 to 3 of `fs_copy`: the source, and the directory and the name for the new file. The
outer `none` is a call of `exit`, the inner one the return value -1. The numbers `srcJunk` and
`dirJunk` are what the variables `src_inode` and `dir_inode` hold before `fs_lookup`, which leaves
them alone for a path without components. -/
def copyPaths (fs : Fs) (srcJunk dirJunk : Nat) (srcpath tgtpath : CString) :
    Option (Option (Nat × Nat × CString) × Fs) :=
  let ((found, srcId), fs) := fsLookup fs srcpath
  if found ≤ 0 then some (none, fs)
  else
    let srcInode := srcId.getD srcJunk
    match fsGetAttrs fs srcInode with
    | none => none
    | some (none, fs) => some (none, fs)
    | some (some attrs, fs) =>
      if attrs.type ≠ .file then some (none, fs)
      else
        match splitLast tgtpath with
        | none => some (none, fs)
        | some (targetDir, targetName) =>
          let ((found, dirId), fs) := fsLookup fs targetDir
          if found ≤ 0 then some (none, fs)
          else some (some (srcInode, dirId.getD dirJunk, targetName), fs)

/-- `fs_copy`; `none` is a call of `exit`. -/
def fsCopy (fs : Fs) (srcJunk dirJunk : Nat) (srcpath tgtpath : CString) : Option (Bool × Fs) :=
  match copyPaths fs srcJunk dirJunk srcpath tgtpath with
  | none => none
  | some (none, fs) => some (false, fs)
  | some (some (srcInode, dirInode, targetName), fs) =>
    match fsCreate fs dirInode targetName with
    | (none, fs) => some (false, fs)
    | (some newInode, fs) => some (copyInode fs srcInode newInode)

end Snfs
