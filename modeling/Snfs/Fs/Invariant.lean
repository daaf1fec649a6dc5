import Snfs.Fs.Layout

/-!
The invariant of the file system layer. It holds after every operation, stale
inode copies and all, and has four parts: which inode each data block was given
to, what the inode copies may hold, what the block cache may hold, and what the
directory pages on the device say.

The ledger is ghost state: it remembers the inode and the index for which each
data block was allocated. A block is never given twice, so the ledger keeps every
copy of every inode, fresh or stale, apart from every other inode.
-/

namespace Snfs

open Slots

abbrev Ledger : Type := Nat → Option (Nat × Nat)

def Ledger.Le (own own' : Ledger) : Prop := ∀ b x, own b = some x → own' b = some x

def Ledger.give (own : Ledger) (b a i : Nat) : Ledger := Function.update own b (some (a, i))

theorem Ledger.Le.refl (own : Ledger) : own.Le own := fun _ _ h => h

theorem Ledger.Le.trans {own own' own'' : Ledger} (h : own.Le own') (h' : own'.Le own'') :
    own.Le own'' :=
  fun b x hb => h' b x (h b x hb)

theorem Ledger.le_give {own : Ledger} {b : Nat} (fresh : own b = none) (a i : Nat) :
    own.Le (own.give b a i) := by
  intro c x hc
  have ne : c ≠ b := by
    rintro rfl
    rw [fresh] at hc
    cases hc
  rwa [give, Function.update_of_ne ne]

@[simp] theorem Ledger.give_self (own : Ledger) (b a i : Nat) : own.give b a i b = some (a, i) := by
  simp [give]

/-- A copy of inode `a`: it is no larger than its ten blocks, the blocks that its size takes up
are there, and every block number in it was given to `a` at that index. -/
structure OwnedInode (own : Ledger) (a : Nat) (c : Inode) : Prop where
  size_le : c.size ≤ 5120
  mapped : ∀ i, i < c.used → c.blocks i ≠ 0
  owned : ∀ i, i < inodeNumBlks → c.blocks i ≠ 0 → own (c.blocks i) = some (a, i)

namespace OwnedInode

variable {own own' : Ledger} {a : Nat} {c : Inode}

theorem mono (h : OwnedInode own a c) (le : own.Le own') : OwnedInode own' a c :=
  ⟨h.size_le, h.mapped, fun i hi hb => le _ _ (h.owned i hi hb)⟩

theorem used_le (h : OwnedInode own a c) : c.used ≤ inodeNumBlks :=
  offsetToBlocks_le.mpr h.size_le

theorem owned_used (h : OwnedInode own a c) {i : Nat} (hi : i < c.used) :
    own (c.blocks i) = some (a, i) :=
  h.owned i (Nat.lt_of_lt_of_le hi h.used_le) (h.mapped i hi)

theorem init (own : Ledger) (a : Nat) (type : Itype) : OwnedInode own a (fsiInodeInit type) :=
  ⟨Nat.zero_le _, fun i hi => absurd hi (by simp), fun _ _ hb => absurd rfl hb⟩

theorem setBlock (h : OwnedInode own a c) {i b : Nat} (given : own b = some (a, i)) (hb : b ≠ 0) :
    OwnedInode own a (c.setBlock i b) := by
  refine ⟨h.size_le, ?_, ?_⟩
  · intro j hj
    rw [Inode.setBlock_blocks]
    split
    · exact hb
    · exact h.mapped j hj
  · intro j hj
    rw [Inode.setBlock_blocks]
    split
    · rename_i same
      intro _
      rw [same, given]
    · exact h.owned j hj

theorem withSize (h : OwnedInode own a c) {size : Nat} (le : size ≤ 5120)
    (there : ∀ i, i < offsetToBlocks size → c.blocks i ≠ 0) :
    OwnedInode own a { c with size := size } :=
  ⟨le, there, h.owned⟩

end OwnedInode

structure LedgerOk (own : Ledger) (fs : Fs) : Prop where
  data : 10 ≤ fs.numBlocks
  unwrapped : fs.blocks.Unwrapped
  reserved : ∀ b, b < 10 → bmapIsset fs.blkBmap b = true
  given : ∀ b a i, own b = some (a, i) →
    10 ≤ b ∧ b < fs.numBlocks ∧ bmapIsset fs.blkBmap b = true ∧ bmapIsset fs.inodeBmap a = true

/-- The inodes in use are those below `top`. A cached copy belongs to one of them and has its
type; only copies of files are dirty. -/
structure InodesOk (own : Ledger) (top : Nat) (fs : Fs) : Prop where
  two_le : 2 ≤ top
  le_size : top ≤ itabSize
  inUse : ∀ a, bmapIsset fs.inodeBmap a = decide (a < top)
  zero : (fs.inodeTab 0).type = .clear
  root : (fs.inodeTab 1).type = .dir
  kind : ∀ a, 1 ≤ a → a < top → (fs.inodeTab a).type = .dir ∨ (fs.inodeTab a).type = .file
  table : ∀ a, a < top → OwnedInode own a (fs.inodeTab a)
  key_lt : ∀ s, (fs.inodeCache s).key < top
  cached : ∀ s, OwnedInode own (fs.inodeCache s).key (fs.inodeCache s).val
  cachedType : ∀ s, (fs.inodeCache s).val.type = (fs.inodeTab (fs.inodeCache s).key).type
  dirtyFile : ∀ s, (fs.inodeCache s).dirty = true →
    (fs.inodeTab (fs.inodeCache s).key).type = .file

def FileBlock (own : Ledger) (tab : Nat → Inode) (b : Nat) : Prop :=
  ∃ a i, own b = some (a, i) ∧ (tab a).type = .file

/-- Every slot of the block cache still claims block 0 or holds a file's block. -/
structure BlocksOk (own : Ledger) (fs : Fs) : Prop where
  single : ∀ b, 10 ≤ b → fs.blockCache.Single b
  clean : ∀ b, 10 ≤ b → b < fs.numBlocks → fs.blockCache.Clean Eq fs.blocks.content b
  slot : ∀ s, ((fs.blockCache s).key = 0 ∧ (fs.blockCache s).dirty = false) ∨
    FileBlock own fs.inodeTab (fs.blockCache s).key
  fresh : ∀ b, 10 ≤ b → b < fs.numBlocks → bmapIsset fs.blkBmap b = false →
    fs.blocks.content b = .zero

def IsDir (fs : Fs) (d : Nat) : Prop :=
  bmapIsset fs.inodeBmap d = true ∧ (fs.inodeTab d).type = .dir

instance (fs : Fs) (d : Nat) : Decidable (IsDir fs d) := inferInstanceAs (Decidable (_ ∧ _))

def numEntries (fs : Fs) (d : Nat) : Nat := (fs.inodeTab d).size / dentrySize

def entryPage (fs : Fs) (d k : Nat) : Block :=
  fs.blocks.content ((fs.inodeTab d).blocks (k / dirPageEntries))

def entryAt (fs : Fs) (d k : Nat) : CString × Nat :=
  (entryName (entryPage fs d k) (k % dirPageEntries),
    entryInodeid (entryPage fs d k) (k % dirPageEntries))

def dirEntries (fs : Fs) (d : Nat) : List (CString × Nat) :=
  (List.range (numEntries fs d)).map (entryAt fs d)

def childIds (fs : Fs) (d : Nat) : List Nat :=
  if (fs.inodeTab d).type = .dir then (dirEntries fs d).map Prod.snd else []

/-- The entries of all directories together name each inode from 2 on once; a new inode has a
larger number than its directory. What lies behind the last entry of a page is zero. -/
structure TreeOk (top : Nat) (fs : Fs) : Prop where
  aligned : ∀ d, d < top → (fs.inodeTab d).type = .dir → (fs.inodeTab d).size % dentrySize = 0
  order : ∀ d a, d < top → a ∈ childIds fs d → d < a
  children : ((List.range top).flatMap (childIds fs)).Perm (List.range' 2 (top - 2))
  tail : ∀ d i t, d < top → (fs.inodeTab d).type = .dir → i < (fs.inodeTab d).used →
    t < blockSize → (fs.inodeTab d).size ≤ blockSize * i + t →
      (fs.blocks.content ((fs.inodeTab d).blocks i)).get t = 0

structure Inv (own : Ledger) (top : Nat) (fs : Fs) : Prop where
  ledger : LedgerOk own fs
  inodes : InodesOk own top fs
  blocks : BlocksOk own fs
  tree : TreeOk top fs

theorem LedgerOk.unowned {own : Ledger} {fs : Fs} (h : LedgerOk own fs) {b : Nat}
    (clear : bmapIsset fs.blkBmap b = false) : own b = none := by
  cases given : own b with
  | none => rfl
  | some x =>
      obtain ⟨a, i⟩ := x
      have set := (h.given b a i given).2.2.1
      rw [clear] at set
      cases set

theorem LedgerOk.free_data {own : Ledger} {fs : Fs} (h : LedgerOk own fs) {b : Nat}
    (clear : bmapIsset fs.blkBmap b = false) : 10 ≤ b := by
  by_contra low
  have set := h.reserved b (Nat.not_le.mp low)
  rw [clear] at set
  cases set

theorem FileBlock.mono {own own' : Ledger} {tab tab' : Nat → Inode} {b : Nat}
    (h : FileBlock own tab b) (le : own.Le own')
    (types : ∀ a, (tab a).type = .file → (tab' a).type = .file) : FileBlock own' tab' b := by
  obtain ⟨a, i, given, file⟩ := h
  exact ⟨a, i, le _ _ given, types a file⟩

/-- The content that the operations see at a block: the cached one, else the device's. -/
def Fs.lblk (fs : Fs) (b : Nat) : Block := fs.blockCache.view fs.blocks.content b

section Inv
variable {own : Ledger} {top : Nat} {fs : Fs}

theorem Inv.top_pos (h : Inv own top fs) : 0 < top := by
  have := h.inodes.two_le
  omega

theorem Inv.lt_top (h : Inv own top fs) {a : Nat} (set : bmapIsset fs.inodeBmap a = true) :
    a < top := by
  rw [h.inodes.inUse] at set
  exact of_decide_eq_true set

theorem Inv.isDir_iff (h : Inv own top fs) {d : Nat} :
    IsDir fs d ↔ d < top ∧ (fs.inodeTab d).type = .dir := by
  rw [IsDir, h.inodes.inUse, decide_eq_true_iff]

/-- The root is inode 1, and no directory has number 0. -/
theorem Inv.dir_ne_zero (h : Inv own top fs) (isDir : IsDir fs d) : d ≠ 0 := by
  rintro rfl
  exact absurd (isDir.2.symm.trans h.inodes.zero) (by decide)

theorem Inv.owned_range (h : Inv own top fs) {b a i : Nat} (given : own b = some (a, i)) :
    10 ≤ b ∧ b < fs.numBlocks :=
  ⟨(h.ledger.given b a i given).1, (h.ledger.given b a i given).2.1⟩

theorem Inv.owner_lt (h : Inv own top fs) {b a i : Nat} (given : own b = some (a, i)) : a < top :=
  h.lt_top (h.ledger.given b a i given).2.2.2

theorem Inv.slot_data (h : Inv own top fs) {s : Fin blockCacheSize}
    (dirty : (fs.blockCache s).dirty = true) :
    FileBlock own fs.inodeTab (fs.blockCache s).key := by
  rcases h.blocks.slot s with ⟨-, clean⟩ | file
  · rw [clean] at dirty
    cases dirty
  · exact file

theorem Inv.slot_file (h : Inv own top fs) {s : Fin blockCacheSize}
    (data : 10 ≤ (fs.blockCache s).key) : FileBlock own fs.inodeTab (fs.blockCache s).key := by
  rcases h.blocks.slot s with ⟨zero, -⟩ | file
  · omega
  · exact file

/-- Blocks that were given to a directory are not in the block cache. -/
theorem Inv.dir_absent (h : Inv own top fs) {b d i : Nat} (given : own b = some (d, i))
    (dir : (fs.inodeTab d).type = .dir) : fs.blockCache.Absent b := by
  intro s hs
  have data := (h.owned_range given).1
  obtain ⟨a, j, given', file⟩ := h.slot_file (s := s) (by omega)
  rw [hs, given] at given'
  cases given'
  rw [dir] at file
  cases file

theorem Inv.free_absent (h : Inv own top fs) {b : Nat}
    (clear : bmapIsset fs.blkBmap b = false) : fs.blockCache.Absent b := by
  intro s hs
  have data := h.ledger.free_data clear
  obtain ⟨a, j, given, -⟩ := h.slot_file (s := s) (by omega)
  rw [hs, h.ledger.unowned clear] at given
  cases given

theorem Inv.lblk_free (h : Inv own top fs) {b : Nat} (hb : b < fs.numBlocks)
    (clear : bmapIsset fs.blkBmap b = false) : fs.lblk b = .zero := by
  rw [Fs.lblk, Table.view_of_absent (h.free_absent clear)]
  exact h.blocks.fresh b (h.ledger.free_data clear) hb clear

theorem Inv.dir_owned (h : Inv own top fs) {d i : Nat} (hd : d < top)
    (hi : i < (fs.inodeTab d).used) : own ((fs.inodeTab d).blocks i) = some (d, i) :=
  (h.inodes.table d hd).owned_used hi

end Inv

/-- What every operation but a creation keeps of the directories: their inodes in the table,
their pages on the device, and the type of every inode. -/
structure DirFrame (top : Nat) (fs fs' : Fs) : Prop where
  type : ∀ a, (fs'.inodeTab a).type = (fs.inodeTab a).type
  dir : ∀ d, (fs.inodeTab d).type = .dir → fs'.inodeTab d = fs.inodeTab d
  page : ∀ d i, d < top → (fs.inodeTab d).type = .dir → i < (fs.inodeTab d).used →
    fs'.blocks.content ((fs.inodeTab d).blocks i) = fs.blocks.content ((fs.inodeTab d).blocks i)

namespace DirFrame

variable {top : Nat} {fs fs' fs'' : Fs}

theorem trans (h : DirFrame top fs fs') (h' : DirFrame top fs' fs'') : DirFrame top fs fs'' := by
  refine ⟨fun a => (h'.type a).trans (h.type a), ?_, ?_⟩
  · intro d dir
    exact (h'.dir d ((h.type d).trans dir)).trans (h.dir d dir)
  · intro d i hd dir hi
    have same := h.dir d dir
    rw [← h.page d i hd dir hi, ← same]
    exact h'.page d i hd ((h.type d).trans dir) (same ▸ hi)

theorem entryAt (h : DirFrame top fs fs') {d k : Nat} (hd : d < top)
    (dir : (fs.inodeTab d).type = .dir) (hk : k < numEntries fs d) :
    entryAt fs' d k = entryAt fs d k := by
  have inside : k / dirPageEntries < (fs.inodeTab d).used := by
    simp only [numEntries, dentrySize] at hk
    rw [Inode.lt_used]
    simp only [dirPageEntries]
    omega
  simp only [Snfs.entryAt, entryPage, h.dir d dir, h.page d _ hd dir inside]

theorem dirEntries (h : DirFrame top fs fs') {d : Nat} (hd : d < top)
    (dir : (fs.inodeTab d).type = .dir) : dirEntries fs' d = dirEntries fs d := by
  have count : numEntries fs' d = numEntries fs d := by rw [numEntries, numEntries, h.dir d dir]
  rw [Snfs.dirEntries, Snfs.dirEntries, count]
  exact List.map_congr_left fun k hk => h.entryAt hd dir (List.mem_range.mp hk)

theorem childIds (h : DirFrame top fs fs') {d : Nat} (hd : d < top) :
    childIds fs' d = childIds fs d := by
  rw [Snfs.childIds, Snfs.childIds, h.type]
  split
  · rename_i dir
    rw [h.dirEntries hd dir]
  · rfl

theorem tree (h : DirFrame top fs fs') (ok : TreeOk top fs) : TreeOk top fs' := by
  refine ⟨?_, ?_, ?_, ?_⟩
  · intro d hd dir
    rw [h.type] at dir
    rw [h.dir d dir]
    exact ok.aligned d hd dir
  · intro d a hd ha
    rw [h.childIds hd] at ha
    exact ok.order d a hd ha
  · have same : (List.range top).flatMap (Snfs.childIds fs') =
        (List.range top).flatMap (Snfs.childIds fs) :=
      List.flatMap_congr fun d hd => h.childIds (List.mem_range.mp hd)
    rw [same]
    exact ok.children
  · intro d i t hd dir
    rw [h.type] at dir
    rw [h.dir d dir]
    intro hi ht behind
    rw [h.page d i hd dir hi]
    exact ok.tail d i t hd dir hi ht behind

end DirFrame

end Snfs
