import Snfs.Fs.State

/-!
The caches of `snfs_server/fs.c`: lookup and insertion in the block cache and
in the inode cache, the pages of the directory cache, and the pointers into
`inode_tab` or into an inode cache slot that the operations keep.
-/

namespace Snfs

open Slots

namespace Fs

def touchBlock (fs : Fs) (s : Fin blockCacheSize) : Fs :=
  { fs.tick with blockCache := fs.blockCache.touch s fs.now }

def touchInode (fs : Fs) (s : Fin inodeCacheSize) : Fs :=
  { fs.tick with inodeCache := fs.inodeCache.touch s fs.now }

def touchDir (fs : Fs) (s : Fin dirCacheSize) : Fs :=
  { fs.tick with
    dirCache := Function.update fs.dirCache s { fs.dirCache s with lastAccess := fs.now } }

end Fs

def findBlockInCache (fs : Fs) (blockNum : Nat) : Option (Fin blockCacheSize × Fs) :=
  (fs.blockCache.find? blockNum).map fun s => (s, fs.touchBlock s)

def addBlockAt (fs : Fs) (lru : Fin blockCacheSize) (blockNum : Nat) (data : Block)
    (dirty : Bool) : Fs :=
  let victim := fs.blockCache lru
  { fs.tick with
    blocks := if victim.dirty then blockWrite fs.blocks victim.key victim.val else fs.blocks
    blockCache := fs.blockCache.place lru blockNum data dirty fs.now }

def addBlockToCache (fs : Fs) (blockNum : Nat) (data : Block) (dirty : Bool) : Fs :=
  addBlockAt fs (oldest fun i => (fs.blockCache i).lastAccess) blockNum data dirty

/-- The block as `fs_read` and `fs_copy` obtain it: from the cache, else from the device and
then cached clean. `none` is a failed `block_read`. -/
def fetchBlock (fs : Fs) (blockNum : Nat) : Option (Block × Fs) :=
  match findBlockInCache fs blockNum with
  | some (s, fs) => some ((fs.blockCache s).val, fs.touchBlock s)
  | none =>
    match blockRead fs.blocks blockNum with
    | none => none
    | some data => some (data, addBlockToCache fs blockNum data false)

def findInodeInCache (fs : Fs) (inodeNum : Nat) : Option (Fin inodeCacheSize) :=
  fs.inodeCache.find? inodeNum

def addInodeAt (fs : Fs) (lru : Fin inodeCacheSize) (inodeNum : Nat) (dirty : Bool) : Fs :=
  let tab := Table.evict fs.inodeTab (fs.inodeCache lru)
  { fs.tick with
    inodeTab := tab
    inodeCache := fs.inodeCache.place lru inodeNum (tab inodeNum) dirty fs.now }

/-- `add_inode_to_cache`, whose `inode` argument is `&fs->inode_tab[inode_num]` in every call. -/
def addInodeToCache (fs : Fs) (inodeNum : Nat) (dirty : Bool) : Fs :=
  addInodeAt fs (oldest fun i => (fs.inodeCache i).lastAccess) inodeNum dirty

/-- An `fs_inode_t*`: into a slot of the inode cache or into the table. -/
inductive InodePtr where
  | cached (slot : Fin inodeCacheSize)
  | table (ino : Nat)

namespace Fs

def deref (fs : Fs) : InodePtr → Inode
  | .cached s => (fs.inodeCache s).val
  | .table a => fs.inodeTab a

def assign (fs : Fs) : InodePtr → Inode → Fs
  | .cached s, inode =>
      { fs with inodeCache := fs.inodeCache.write s inode (fs.inodeCache s).dirty }
  | .table a, inode => { fs with inodeTab := Function.update fs.inodeTab a inode }

/-- `cached_inode->dirty = 1` after a lookup that found the inode; after one that did not, the
code assigns the table entry to itself. -/
def markDirty (fs : Fs) : InodePtr → Fs
  | .cached s => { fs with inodeCache := fs.inodeCache.write s (fs.inodeCache s).val true }
  | .table _ => fs

end Fs

/-- How `fs_get_attrs`, `fs_read`, `fs_write` and `fs_readdir` obtain an inode: the first cached
copy, else the table entry of an inode in use, of which a clean copy is then cached. -/
def openInode (fs : Fs) (ino : Nat) : Option (InodePtr × Fs) :=
  match findInodeInCache fs ino with
  | some s => some (.cached s, fs.touchInode s)
  | none =>
    if bmapIsset fs.inodeBmap ino then
      some (.table ino, addInodeToCache fs ino false)
    else none

inductive Opened (fs : Fs) (ino : Nat) : InodePtr → Fs → Prop where
  | cached {s : Fin inodeCacheSize} (found : fs.inodeCache.find? ino = some s) :
      Opened fs ino (.cached s) (fs.touchInode s)
  | table (absent : fs.inodeCache.Absent ino) (inUse : bmapIsset fs.inodeBmap ino = true) :
      Opened fs ino (.table ino) (addInodeToCache fs ino false)

theorem opened_of_open {fs fs' : Fs} {ino : Nat} {p : InodePtr}
    (opened : openInode fs ino = some (p, fs')) : Opened fs ino p fs' := by
  rw [openInode] at opened
  split at opened
  · rename_i s found
    cases opened
    exact .cached found
  · rename_i missed
    split at opened
    · rename_i inUse
      cases opened
      exact .table (Table.absent_of_find missed) inUse
    · cases opened

def findDirSlot (fs : Fs) (p : DirCacheEntry → Bool) : Option (Fin dirCacheSize) :=
  Fin.find? fun i => p (fs.dirCache i)

def addDirAt (fs : Fs) (lru : Fin dirCacheSize) (dir blockNum : Nat) (page : Block) : Fs :=
  { fs.tick with
    dirCache := Function.update fs.dirCache lru ⟨dir, blockNum, page, fs.now⟩ }

/-- A page of a directory as `fsi_dir_search` and `fs_readdir` obtain it: from the entry for
this directory and block, else from the device, in place of the entry used least recently.
`none` is a failed `block_read`. -/
def loadDirPage (fs : Fs) (dir blockNum : Nat) : Option (Block × Fs) :=
  match findDirSlot fs fun e => e.dirNum == dir && e.blockNum == blockNum with
  | some s => some ((fs.dirCache s).entries, fs.touchDir s)
  | none =>
    match blockRead fs.blocks blockNum with
    | none => none
    | some page =>
        some (page, addDirAt fs (oldest fun i => (fs.dirCache i).lastAccess) dir blockNum page)

def findInPage (page : Block) (limit : Nat) (file : CString) : Option Nat :=
  (List.range limit).find? fun j => entryName page j == file

/-- The entry found is copied into the first empty entry of the slot that the first lookup of
`fsi_dir_search` found, if it found one. -/
def patchCached (fs : Fs) (cachedDir : Option (Fin dirCacheSize)) (page : Block) (i : Nat) : Fs :=
  match cachedDir with
  | none => fs
  | some s =>
    let e := fs.dirCache s
    match (List.range dirPageEntries).find? fun j => e.entries.get (dentrySize * j) == 0 with
    | none => fs
    | some j =>
        { fs with
          dirCache := Function.update fs.dirCache s
            { e with entries := copyEntry e.entries j page i } }

/-- The page loop of `fsi_dir_search`, with `num` entries left and `fuel ≥ num`. -/
def searchPages (dir : Nat) (file : CString) (cachedDir : Option (Fin dirCacheSize)) :
    (fuel iblock num : Nat) → Fs → Option Nat × Fs
  | 0, _, _, fs => (none, fs)
  | fuel + 1, iblock, num, fs =>
    if num = 0 then (none, fs)
    else
      match loadDirPage fs dir ((fs.inodeTab dir).blocks iblock) with
      | none => (none, fs)
      | some (page, fs) =>
        match findInPage page (min dirPageEntries num) file with
        | some i => (some (entryInodeid page i), patchCached fs cachedDir page i)
        | none => searchPages dir file cachedDir fuel (iblock + 1) (num - dirPageEntries) fs

/-- `fsi_dir_search`: the inode id of the name, or `none` for the return value -1. The flag
`cache_updated` of the code decides nothing and is left out. -/
def fsiDirSearch (fs : Fs) (dir : Nat) (file : CString) : Option Nat × Fs :=
  let num := (fs.inodeTab dir).size / dentrySize
  match findDirSlot fs fun e => e.dirNum == dir with
  | none => searchPages dir file none num 0 num fs
  | some s =>
    let fs := fs.touchDir s
    match findInPage (fs.dirCache s).entries dirPageEntries file with
    | some j => (some (entryInodeid (fs.dirCache s).entries j), fs)
    | none => searchPages dir file (some s) num 0 num fs

end Snfs
