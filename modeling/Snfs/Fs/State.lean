import Snfs.Block
import Snfs.Library.Slots

/-!
The data of the file system layer, `snfs_server/fs.c`: inodes, directory pages,
the three caches and the structure `fs_t`, with the bitmap macros and the
functions that store the metadata on the device and load it back.

Arrays that the code scans are tables of slots; arrays that it addresses by a
number held in other data (`inode_tab`, an inode's `blocks`) are functions of
that number. Sizes and block numbers are natural numbers, reduced modulo 2^32
where the code adds them. `clock` holds the values that the calls of
`time(NULL)` will return, in order.
-/

namespace Snfs

open Slots

abbrev blockSize : Nat := 512
abbrev inodeNumBlks : Nat := 10
abbrev itabNumBlks : Nat := 8
abbrev itabSize : Nat := 64
abbrev fsMaxFnameSz : Nat := 14
abbrev dentrySize : Nat := 16
abbrev dirPageEntries : Nat := 32
abbrev maxPathNameSize : Nat := 200

abbrev blockCacheSize : Nat := 10
abbrev inodeCacheSize : Nat := 4
abbrev dirCacheSize : Nat := 4

abbrev bmapBits : Nat := 8 * blockSize

abbrev Block : Type := Buf blockSize

/-- A C string: its bytes before the terminating zero. -/
abbrev CString : Type := List UInt8

/-- `fs_itype_t`. Cleared memory holds neither of its two values; `unknown` is `FS_UNKNOWN`. -/
inductive Itype where
  | clear
  | dir
  | file
  | unknown
deriving DecidableEq, Repr

def Itype.code : Itype → Nat
  | .clear => 0
  | .dir => 1
  | .file => 2
  | .unknown => 2 ^ 32 - 1

def Itype.ofCode : Nat → Itype
  | 0 => .clear
  | 1 => .dir
  | 2 => .file
  | _ => .unknown

structure Inode where
  type : Itype
  size : Nat
  blocks : Nat → Nat
  reserved : Nat → Nat

def fsiInodeInit (type : Itype) : Inode :=
  { type := type, size := 0, blocks := fun _ => 0, reserved := fun _ => 0 }

def offsetToBlocks (pos : Nat) : Nat := pos / blockSize + if pos % blockSize > 0 then 1 else 0

def Inode.used (inode : Inode) : Nat := offsetToBlocks inode.size

def Inode.setBlock (inode : Inode) (i b : Nat) : Inode :=
  { inode with blocks := Function.update inode.blocks i b }

def entryName (page : Block) (j : Nat) : CString := page.cstr (dentrySize * j) fsMaxFnameSz

def entryInodeid (page : Block) (j : Nat) : Nat :=
  (page.get (dentrySize * j + 14)).toNat + 256 * (page.get (dentrySize * j + 15)).toNat

def setEntry (page : Block) (j : Nat) (name : CString) (id : Nat) : Block :=
  (page.splice (dentrySize * j) (name ++ [0])).splice (dentrySize * j + 14)
    [UInt8.ofNat id, UInt8.ofNat (id / 256)]

def copyEntry (dst : Block) (j : Nat) (src : Block) (i : Nat) : Block :=
  dst.splice (dentrySize * j) (src.slice (dentrySize * i) dentrySize)

structure DirCacheEntry where
  dirNum : Nat
  blockNum : Nat
  entries : Block
  lastAccess : Int

/-- `fs_t`. In a `block_cache_entry_t` the key is `block_num` and the value `data`, in an
`inode_cache_entry_t` the key is `inode_num` and the value `inode`. -/
structure Fs where
  blocks : Blocks blockSize
  inodeBmap : Block
  blkBmap : Block
  inodeTab : Nat → Inode
  blockCache : Table blockCacheSize Nat Block
  inodeCache : Table inodeCacheSize Nat Inode
  dirCache : Fin dirCacheSize → DirCacheEntry
  clock : Nat → Int

namespace Fs

def now (fs : Fs) : Int := fs.clock 0

def tick (fs : Fs) : Fs := { fs with clock := fun k => fs.clock (k + 1) }

def numBlocks (fs : Fs) : Nat := fs.blocks.numBlocks

end Fs

def bmapSet (bmap : Block) (num : Nat) : Block := bmap.setBit num

def bmapIsset (bmap : Block) (num : Nat) : Bool := bmap.bit num

/-- `none` is the return value 0. -/
def fsiBmapFindFree (bmap : Block) (size : Nat) : Option Nat :=
  (List.range size).find? fun i => !bmapIsset bmap i

/-- Word `w` of an inode as it lies in memory: type, size, ten blocks, four reserved words. -/
def inodeWord (inode : Inode) (w : Nat) : Nat :=
  if w = 0 then inode.type.code
  else if w = 1 then inode.size
  else if w < 12 then inode.blocks (w - 2)
  else inode.reserved (w - 12)

/-- Byte `k` of `inode_tab` as it lies in memory; an inode takes 64 bytes. -/
def inodeTabByte (tab : Nat → Inode) (k : Nat) : UInt8 :=
  UInt8.ofNat (inodeWord (tab (k / 64)) (k % 64 / 4) / 256 ^ (k % 4))

def inodeTabBlock (tab : Nat → Inode) (i : Nat) : Block :=
  fun j => inodeTabByte tab (i * blockSize + j.val)

def storeInodeTab (tab : Nat → Inode) : Nat → Blocks blockSize → Blocks blockSize
  | 0, bks => bks
  | i + 1, bks => blockWrite (storeInodeTab tab i bks) (i + 2) (inodeTabBlock tab i)

def fsiStoreFsdata (fs : Fs) : Fs :=
  let bks := blockWrite fs.blocks 0 fs.blkBmap
  let bks := blockWrite bks 1 fs.inodeBmap
  { fs with blocks := storeInodeTab fs.inodeTab itabNumBlks bks }

/-- Word `w` of inode `a` in the image of `inode_tab` on blocks 2 to 9. -/
def loadWord (bks : Blocks blockSize) (a w : Nat) : Nat :=
  let byte (k : Nat) : Nat :=
    let pos := 64 * a + 4 * w + k
    ((bks.content (pos / blockSize + 2)).get (pos % blockSize)).toNat
  byte 0 + 256 * byte 1 + 256 ^ 2 * byte 2 + 256 ^ 3 * byte 3

def loadInode (bks : Blocks blockSize) (a : Nat) : Inode :=
  { type := Itype.ofCode (loadWord bks a 0)
    size := loadWord bks a 1
    blocks := fun i => loadWord bks a (i + 2)
    reserved := fun i => loadWord bks a (i + 12) }

/-- The metadata of a device with at least the ten metadata blocks. -/
def fsiLoadFsdata (fs : Fs) : Fs :=
  { fs with
    blkBmap := fs.blocks.content 0
    inodeBmap := fs.blocks.content 1
    inodeTab := loadInode fs.blocks }

/-- `fs_new` on a device of at least ten blocks; the memory that `malloc` returns is then
overwritten in full, by the cleared caches and the loaded metadata. -/
def fsNew (numBlocks : Nat) (clock : Nat → Int) : Option Fs :=
  (blockNew numBlocks blockSize).map fun bks => fsiLoadFsdata
    { blocks := bks
      inodeBmap := .zero
      blkBmap := .zero
      inodeTab := fun _ => fsiInodeInit .clear
      blockCache := fun _ => ⟨0, .zero, false, 0⟩
      inodeCache := fun _ => ⟨0, fsiInodeInit .clear, false, 0⟩
      dirCache := fun _ => ⟨0, 0, .zero, 0⟩
      clock := clock }

def eraseBlocks : Nat → Blocks blockSize → Blocks blockSize
  | 0, bks => bks
  | i + 1, bks => blockWrite (eraseBlocks i bks) i .zero

def reserveBlocks : Nat → Block → Block
  | 0, bmap => bmap
  | i + 1, bmap => bmapSet (reserveBlocks i bmap) i

/-- `fs_format`, which returns 0. Blocks 0 and 1 hold the bitmaps, blocks 2 to 9 the inode
table; inode 0 is never used and inode 1 is the root. -/
def fsFormat (fs : Fs) : Fs :=
  fsiStoreFsdata
    { fs with
      blocks := eraseBlocks fs.numBlocks fs.blocks
      blkBmap := reserveBlocks (itabNumBlks + 2) fs.blkBmap
      inodeBmap := bmapSet (bmapSet fs.inodeBmap 0) 1
      inodeTab := Function.update fs.inodeTab 1 (fsiInodeInit .dir) }

end Snfs
