import Snfs.Fs.Invariant

/-!
What the single accesses to the caches, the bitmaps and the inodes preserve. An
operation is a sequence of these accesses; its own lemma only has to supply what
each of them asks for.
-/

namespace Snfs

open Slots

/-- The frame of every operation but a creation. -/
structure Frame (top : Nat) (fs fs' : Fs) : Prop extends DirFrame top fs fs' where
  inodeBmap : fs'.inodeBmap = fs.inodeBmap
  numBlocks : fs'.numBlocks = fs.numBlocks
  low : ∀ b, b < 10 → fs'.blocks.content b = fs.blocks.content b

/-- The frame of an operation that only reads: no block is marked and no block's content
changes. -/
structure Quiet (top : Nat) (fs fs' : Fs) : Prop extends Frame top fs fs' where
  blkBmap : fs'.blkBmap = fs.blkBmap
  lblk : ∀ b, 10 ≤ b → b < fs.numBlocks → fs'.lblk b = fs.lblk b

theorem Frame.of_eq (top : Nat) {fs fs' : Fs} (tab : fs'.inodeTab = fs.inodeTab)
    (bmap : fs'.inodeBmap = fs.inodeBmap) (blocks : fs'.blocks = fs.blocks) : Frame top fs fs' := by
  refine ⟨⟨fun a => ?_, fun d _ => ?_, fun d i _ _ _ => ?_⟩, bmap, ?_, fun b _ => ?_⟩
  · rw [tab]
  · rw [tab]
  · rw [blocks]
  · rw [Fs.numBlocks, Fs.numBlocks, blocks]
  · rw [blocks]

theorem Frame.refl (top : Nat) (fs : Fs) : Frame top fs fs := .of_eq top rfl rfl rfl

theorem Frame.trans {top : Nat} {fs fs' fs'' : Fs} (h : Frame top fs fs')
    (h' : Frame top fs' fs'') : Frame top fs fs'' :=
  ⟨h.toDirFrame.trans h'.toDirFrame, h'.inodeBmap.trans h.inodeBmap,
    h'.numBlocks.trans h.numBlocks, fun b lt => (h'.low b lt).trans (h.low b lt)⟩

theorem Quiet.refl (top : Nat) (fs : Fs) : Quiet top fs fs :=
  ⟨.refl top fs, rfl, fun _ _ _ => rfl⟩

theorem Quiet.trans {top : Nat} {fs fs' fs'' : Fs} (h : Quiet top fs fs')
    (h' : Quiet top fs' fs'') : Quiet top fs fs'' := by
  refine ⟨h.toFrame.trans h'.toFrame, h'.blkBmap.trans h.blkBmap, ?_⟩
  intro b data hb
  rw [h'.lblk b data (h.numBlocks ▸ hb), h.lblk b data hb]

/-- Only the directory cache and the clock differ. -/
def SameButDirs (fs fs' : Fs) : Prop :=
  fs' = { fs with dirCache := fs'.dirCache, clock := fs'.clock }

theorem SameButDirs.refl (fs : Fs) : SameButDirs fs fs := rfl

theorem SameButDirs.trans {fs fs' fs'' : Fs} (h : SameButDirs fs fs')
    (h' : SameButDirs fs' fs'') : SameButDirs fs fs'' := by
  unfold SameButDirs at *
  rw [h', h]

variable {own : Ledger} {top : Nat} {fs fs' : Fs}

theorem SameButDirs.inv (same : SameButDirs fs fs') (h : Inv own top fs) : Inv own top fs' := by
  rw [same]
  exact ⟨⟨h.ledger.data, h.ledger.unwrapped, h.ledger.reserved, h.ledger.given⟩,
    ⟨h.inodes.two_le, h.inodes.le_size, h.inodes.inUse, h.inodes.zero, h.inodes.root,
      h.inodes.kind, h.inodes.table, h.inodes.key_lt, h.inodes.cached, h.inodes.cachedType,
      h.inodes.dirtyFile⟩,
    ⟨h.blocks.single, h.blocks.clean, h.blocks.slot, h.blocks.fresh⟩,
    ⟨h.tree.aligned, h.tree.order, h.tree.children, h.tree.tail⟩⟩

theorem SameButDirs.quiet (same : SameButDirs fs fs') (top : Nat) : Quiet top fs fs' := by
  rw [same]
  exact ⟨.of_eq _ rfl rfl rfl, rfl, fun _ _ _ => rfl⟩

theorem Inv.touchBlock (h : Inv own top fs) (s : Fin blockCacheSize) :
    Inv own top (fs.touchBlock s) where
  ledger := ⟨h.ledger.data, h.ledger.unwrapped, h.ledger.reserved, h.ledger.given⟩
  inodes := ⟨h.inodes.two_le, h.inodes.le_size, h.inodes.inUse, h.inodes.zero, h.inodes.root,
    h.inodes.kind, h.inodes.table, h.inodes.key_lt, h.inodes.cached, h.inodes.cachedType,
    h.inodes.dirtyFile⟩
  blocks := by
    refine ⟨fun b hb => (h.blocks.single b hb).congr fun i => ?_,
      fun b data hb => (h.blocks.clean b data hb).congr (fun i => ?_) (fun i => ?_) fun i => ?_,
      fun i => ?_, h.blocks.fresh⟩
    · exact Table.touch_key _ _ _ i
    · exact Table.touch_key _ _ _ i
    · exact Table.touch_dirty _ _ _ i
    · exact Table.touch_val _ _ _ i
    · have held := h.blocks.slot i
      rw [← Table.touch_key fs.blockCache s fs.now i, ← Table.touch_dirty fs.blockCache s fs.now i]
        at held
      exact held
  tree := ⟨h.tree.aligned, h.tree.order, h.tree.children, h.tree.tail⟩

@[simp] theorem lblk_touchBlock (fs : Fs) (s : Fin blockCacheSize) (b : Nat) :
    (fs.touchBlock s).lblk b = fs.lblk b :=
  Table.view_congr (Table.touch_key _ _ _) (Table.touch_val _ _ _) _ _

theorem quiet_touchBlock (top : Nat) (fs : Fs) (s : Fin blockCacheSize) :
    Quiet top fs (fs.touchBlock s) :=
  ⟨.of_eq _ rfl rfl rfl, rfl,
    fun b _ _ => lblk_touchBlock fs s b⟩

theorem Inv.touchInode (h : Inv own top fs) (s : Fin inodeCacheSize) :
    Inv own top (fs.touchInode s) where
  ledger := ⟨h.ledger.data, h.ledger.unwrapped, h.ledger.reserved, h.ledger.given⟩
  inodes := by
    refine ⟨h.inodes.two_le, h.inodes.le_size, h.inodes.inUse, h.inodes.zero, h.inodes.root,
      h.inodes.kind, h.inodes.table, fun i => ?_, fun i => ?_, fun i => ?_, fun i => ?_⟩
    all_goals
      simp only [Fs.touchInode, Table.touch_key, Table.touch_val, Table.touch_dirty]
    · exact h.inodes.key_lt i
    · exact h.inodes.cached i
    · exact h.inodes.cachedType i
    · exact h.inodes.dirtyFile i
  blocks := ⟨h.blocks.single, h.blocks.clean, h.blocks.slot, h.blocks.fresh⟩
  tree := ⟨h.tree.aligned, h.tree.order, h.tree.children, h.tree.tail⟩

theorem quiet_touchInode (top : Nat) (fs : Fs) (s : Fin inodeCacheSize) :
    Quiet top fs (fs.touchInode s) :=
  ⟨.of_eq _ rfl rfl rfl, rfl, fun _ _ _ => rfl⟩

@[simp] theorem numBlocks_addBlockAt (fs : Fs) (v : Fin blockCacheSize) (b : Nat) (data : Block)
    (d : Bool) : (addBlockAt fs v b data d).numBlocks = fs.numBlocks := by
  simp only [addBlockAt, Fs.numBlocks]
  split <;> simp

/-- The block cache stands for the data blocks: no block is cached twice, a clean slot agrees with
the device and a dirty slot can be written back. -/
structure BlockCacheSound (fs : Fs) : Prop where
  unwrapped : fs.blocks.Unwrapped
  single : ∀ b, 10 ≤ b → fs.blockCache.Single b
  clean : ∀ b, 10 ≤ b → b < fs.numBlocks → fs.blockCache.Clean Eq fs.blocks.content b
  dirty : ∀ s, (fs.blockCache s).dirty = true →
    10 ≤ (fs.blockCache s).key ∧ (fs.blockCache s).key < fs.numBlocks

theorem content_addBlockAt (unwrapped : fs.blocks.Unwrapped) (v : Fin blockCacheSize) (b : Nat)
    (data : Block) (d : Bool) {c : Nat} (hc : c < fs.numBlocks) :
    (addBlockAt fs v b data d).blocks.content c =
      Table.evict fs.blocks.content (fs.blockCache v) c := by
  simp only [addBlockAt, Table.evict]
  cases dirty : (fs.blockCache v).dirty with
  | false => rfl
  | true =>
      simp only [if_true]
      by_cases inside : (fs.blockCache v).key < fs.numBlocks
      · rw [Blocks.content_write unwrapped inside _ hc, Function.update_apply]
      · have refused : blockWrite fs.blocks (fs.blockCache v).key (fs.blockCache v).val = fs.blocks :=
          if_pos (Nat.not_lt.mp inside)
        rw [refused, Function.update_of_ne (by omega)]

/-- An insertion leaves the content of every other block alone, whichever slot it replaces. -/
theorem lblk_addBlockAt_other (unwrapped : fs.blocks.Unwrapped) (v : Fin blockCacheSize) {b c : Nat}
    (data : Block) (d : Bool) (inside : c < fs.numBlocks) (single : fs.blockCache.Single c)
    (clean : fs.blockCache.Clean Eq fs.blocks.content c) (ne : c ≠ b) :
    (addBlockAt fs v b data d).lblk c = fs.lblk c := by
  rw [Fs.lblk, Table.view_store_congr _ (content_addBlockAt unwrapped v b data d inside)]
  exact Table.view_place_other (R := Eq) single clean ne v data d _

theorem BlockCacheSound.lblk_addBlockAt_other (h : BlockCacheSound fs) (v : Fin blockCacheSize)
    {b c : Nat} (data : Block) (d : Bool) (hc : 10 ≤ c) (inside : c < fs.numBlocks) (ne : c ≠ b) :
    (addBlockAt fs v b data d).lblk c = fs.lblk c :=
  Snfs.lblk_addBlockAt_other h.unwrapped v data d inside (h.single c hc) (h.clean c hc inside) ne

theorem Inv.cacheSound (h : Inv own top fs) : BlockCacheSound fs := by
  refine ⟨h.ledger.unwrapped, h.blocks.single, h.blocks.clean, fun s dirty => ?_⟩
  obtain ⟨a, i, given, -⟩ := h.slot_data dirty
  exact h.owned_range given

/-- An eviction writes to a file's block, so the blocks of directories and the free blocks stay. -/
theorem Inv.content_addBlockAt_other (h : Inv own top fs) (v : Fin blockCacheSize) (b : Nat)
    (data : Block) (d : Bool) {c : Nat} (hc : c < fs.numBlocks)
    (other : ¬ FileBlock own fs.inodeTab c) :
    (addBlockAt fs v b data d).blocks.content c = fs.blocks.content c := by
  rw [content_addBlockAt h.ledger.unwrapped v b data d hc]
  cases dirty : (fs.blockCache v).dirty with
  | false => rw [Table.evict_of_clean _ dirty]
  | true =>
      apply Table.evict_of_ne
      rintro rfl
      exact other (h.slot_data dirty)

theorem LedgerOk.not_file_of_clear (h : LedgerOk own fs) {b : Nat}
    (clear : bmapIsset fs.blkBmap b = false) : ¬ FileBlock own fs.inodeTab b := by
  rintro ⟨a, i, given, -⟩
  rw [h.unowned clear] at given
  cases given

theorem not_file_of_dir {tab : Nat → Inode} {b d i : Nat} (given : own b = some (d, i))
    (dir : (tab d).type = .dir) : ¬ FileBlock own tab b := by
  rintro ⟨a, j, given', file⟩
  rw [given] at given'
  cases given'
  rw [dir] at file
  cases file

theorem LedgerOk.not_file_of_reserved (h : LedgerOk own fs) {b : Nat} (low : b < 10) :
    ¬ FileBlock own fs.inodeTab b := by
  rintro ⟨a, i, given, -⟩
  have := (h.given b a i given).1
  omega

theorem Inv.frame_addBlockAt (h : Inv own top fs) (v : Fin blockCacheSize) (b : Nat)
    (data : Block) (d : Bool) : Frame top fs (addBlockAt fs v b data d) := by
  refine ⟨⟨fun _ => rfl, fun _ _ => rfl, ?_⟩, rfl, numBlocks_addBlockAt fs v b data d, ?_⟩
  · intro dir i hd isDir hi
    have given := h.dir_owned hd hi
    exact h.content_addBlockAt_other v b data d (h.owned_range given).2
      (not_file_of_dir given isDir)
  · intro c low
    exact h.content_addBlockAt_other v b data d (Nat.lt_of_lt_of_le low h.ledger.data)
      (h.ledger.not_file_of_reserved low)

theorem Inv.lblk_addBlockAt_self (h : Inv own top fs) (v : Fin blockCacheSize) {b : Nat}
    (absent : fs.blockCache.Absent b) (hb : b < fs.numBlocks) (data : Block) (d : Bool) :
    (addBlockAt fs v b data d).lblk b = data := by
  rw [Fs.lblk, Table.view_store_congr _ (content_addBlockAt h.ledger.unwrapped v b data d hb)]
  exact Table.view_place_new absent _ v data d _

/-- A file's block that is not cached may be inserted, clean with the device's content or dirty
with any. -/
theorem Inv.addBlockAt (h : Inv own top fs) (v : Fin blockCacheSize) {b : Nat}
    (file : FileBlock own fs.inodeTab b) (absent : fs.blockCache.Absent b) {data : Block} {d : Bool}
    (agree : d = false → fs.blocks.content b = data) :
    Inv own top (addBlockAt fs v b data d) where
  ledger := by
    refine ⟨?_, ?_, h.ledger.reserved, ?_⟩
    · simpa using h.ledger.data
    · simp only [Snfs.addBlockAt]
      split
      · exact h.ledger.unwrapped.write _ _
      · exact h.ledger.unwrapped
    · intro c a i given
      rw [numBlocks_addBlockAt]
      exact h.ledger.given c a i given
  inodes := ⟨h.inodes.two_le, h.inodes.le_size, h.inodes.inUse, h.inodes.zero, h.inodes.root,
    h.inodes.kind, h.inodes.table, h.inodes.key_lt, h.inodes.cached, h.inodes.cachedType,
    h.inodes.dirtyFile⟩
  blocks := by
    refine ⟨?_, ?_, ?_, ?_⟩
    · intro c hc
      by_cases same : c = b
      · subst same
        exact Table.Single.place_new absent v data d _
      · exact (h.blocks.single c hc).place_other same v data d _
    · intro c hc inside
      rw [numBlocks_addBlockAt] at inside
      have here := content_addBlockAt h.ledger.unwrapped v b data d inside
      by_cases same : c = b
      · subst same
        exact (Table.Clean.place_new absent v _ agree).store_congr here
      · exact ((h.blocks.clean c hc inside).place_other (h.blocks.single c hc) same v data d
          _).store_congr here
    · intro s
      simp only [Snfs.addBlockAt]
      by_cases same : s = v
      · subst same
        rw [Table.place_self]
        exact .inr file
      · rw [Table.place_of_ne _ same]
        exact h.blocks.slot s
    · intro c hc inside clear
      rw [numBlocks_addBlockAt] at inside
      rw [h.content_addBlockAt_other v b data d inside (h.ledger.not_file_of_clear clear)]
      exact h.blocks.fresh c hc inside clear
  tree := (h.frame_addBlockAt v b data d).tree h.tree

theorem addInodeAt_self (fs : Fs) (v : Fin inodeCacheSize) (a : Nat) (d : Bool) :
    (addInodeAt fs v a d).inodeCache v =
      ⟨a, Table.evict fs.inodeTab (fs.inodeCache v) a, d, fs.now⟩ :=
  Table.place_self _ _ _ _ _ _

theorem addInodeAt_other (fs : Fs) {s v : Fin inodeCacheSize} (ne : s ≠ v) (a : Nat) (d : Bool) :
    (addInodeAt fs v a d).inodeCache s = fs.inodeCache s :=
  Table.place_of_ne _ ne _ _ _ _

/-- An eviction from the inode cache rewrites table entries of files only. -/
theorem Inv.evict_inode (h : Inv own top fs) (v : Fin inodeCacheSize) (a : Nat) :
    Table.evict fs.inodeTab (fs.inodeCache v) a = fs.inodeTab a ∨
      (a = (fs.inodeCache v).key ∧ (fs.inodeTab a).type = .file ∧
        Table.evict fs.inodeTab (fs.inodeCache v) a = (fs.inodeCache v).val) := by
  cases dirty : (fs.inodeCache v).dirty with
  | false => exact .inl (by rw [Table.evict_of_clean _ dirty])
  | true =>
      by_cases same : (fs.inodeCache v).key = a
      · subst same
        exact .inr ⟨rfl, h.inodes.dirtyFile v dirty, Table.evict_of_dirty _ dirty⟩
      · exact .inl (Table.evict_of_ne _ same)

theorem Inv.evict_type (h : Inv own top fs) (v : Fin inodeCacheSize) (a : Nat) :
    (Table.evict fs.inodeTab (fs.inodeCache v) a).type = (fs.inodeTab a).type := by
  rcases h.evict_inode v a with same | ⟨rfl, -, val⟩
  · rw [same]
  · rw [val]
    exact h.inodes.cachedType v

theorem Inv.frame_addInodeAt (h : Inv own top fs) (v : Fin inodeCacheSize) (a : Nat) (d : Bool) :
    Quiet top fs (addInodeAt fs v a d) := by
  have dir (e : Nat) (isDir : (fs.inodeTab e).type = .dir) :
      Table.evict fs.inodeTab (fs.inodeCache v) e = fs.inodeTab e := by
    rcases h.evict_inode v e with same | ⟨-, file, -⟩
    · exact same
    · rw [isDir] at file
      cases file
  exact ⟨⟨⟨h.evict_type v, dir, fun _ _ _ _ _ => rfl⟩, rfl, rfl, fun _ _ => rfl⟩, rfl,
    fun _ _ _ => rfl⟩

theorem Inv.addInodeAt (h : Inv own top fs) (v : Fin inodeCacheSize) {a : Nat} (ha : a < top)
    {d : Bool} (file : d = true → (fs.inodeTab a).type = .file) :
    Inv own top (addInodeAt fs v a d) where
  ledger := ⟨h.ledger.data, h.ledger.unwrapped, h.ledger.reserved, h.ledger.given⟩
  inodes := by
    have owned (e : Nat) (he : e < top) :
        OwnedInode own e (Table.evict fs.inodeTab (fs.inodeCache v) e) := by
      rcases h.evict_inode v e with same | ⟨rfl, -, val⟩
      · rw [same]
        exact h.inodes.table e he
      · rw [val]
        exact h.inodes.cached v
    refine ⟨h.inodes.two_le, h.inodes.le_size, h.inodes.inUse, (h.evict_type v 0).trans
      h.inodes.zero, (h.evict_type v 1).trans h.inodes.root, ?_, owned, ?_, ?_, ?_, ?_⟩
    · intro e low he
      have type : ((Snfs.addInodeAt fs v a d).inodeTab e).type = (fs.inodeTab e).type :=
        h.evict_type v e
      rw [type]
      exact h.inodes.kind e low he
    all_goals
      intro s
      simp only [Snfs.addInodeAt]
      by_cases same : s = v
    · rw [same, Table.place_self]
      exact ha
    · rw [Table.place_of_ne _ same]
      exact h.inodes.key_lt s
    · rw [same, Table.place_self]
      exact owned a ha
    · rw [Table.place_of_ne _ same]
      exact h.inodes.cached s
    · rw [same, Table.place_self]
    · rw [Table.place_of_ne _ same]
      exact (h.inodes.cachedType s).trans (h.evict_type v _).symm
    · rw [same, Table.place_self]
      exact fun isDirty => (h.evict_type v a).trans (file isDirty)
    · rw [Table.place_of_ne _ same]
      exact fun isDirty => (h.evict_type v _).trans (h.inodes.dirtyFile s isDirty)
  blocks := by
    refine ⟨h.blocks.single, h.blocks.clean, fun s => ?_, h.blocks.fresh⟩
    exact (h.blocks.slot s).imp_right fun held =>
      held.mono (.refl own) fun e isFile => (h.evict_type v e).trans isFile
  tree := (h.frame_addInodeAt v a d).tree h.tree

def PtrTo (fs : Fs) (p : InodePtr) (a : Nat) : Prop :=
  match p with
  | .cached s => (fs.inodeCache s).key = a
  | .table b => b = a

theorem Inv.owned_deref (h : Inv own top fs) {p : InodePtr} {a : Nat} (ha : a < top)
    (ptr : PtrTo fs p a) : OwnedInode own a (fs.deref p) := by
  cases p with
  | cached s => exact ptr ▸ h.inodes.cached s
  | table b => exact (show b = a from ptr) ▸ h.inodes.table a ha

theorem Inv.type_deref (h : Inv own top fs) {p : InodePtr} {a : Nat} (ptr : PtrTo fs p a) :
    (fs.deref p).type = (fs.inodeTab a).type := by
  cases p with
  | cached s => exact (h.inodes.cachedType s).trans (by rw [show (fs.inodeCache s).key = a from ptr])
  | table b => rw [show b = a from ptr]; rfl

theorem deref_assign_self (fs : Fs) (p : InodePtr) (c : Inode) : (fs.assign p c).deref p = c := by
  cases p with
  | cached s => simp [Fs.assign, Fs.deref, Table.write_val]
  | table b => simp [Fs.assign, Fs.deref]

theorem ptrTo_assign {p q : InodePtr} {a : Nat} (ptr : PtrTo fs q a) (c : Inode) :
    PtrTo (fs.assign p c) q a := by
  cases p with
  | cached s =>
      cases q with
      | cached t => simpa [PtrTo, Fs.assign] using ptr
      | table b => exact ptr
  | table b => exact ptr

theorem frame_assign {p : InodePtr} {a : Nat} (ptr : PtrTo fs p a)
    (file : (fs.inodeTab a).type = .file) {c : Inode} (type : c.type = .file) :
    Quiet top fs (fs.assign p c) := by
  cases p with
  | cached s =>
      exact ⟨.of_eq _ rfl rfl rfl, rfl, fun _ _ _ => rfl⟩
  | table b =>
      have ptr : b = a := ptr
      subst ptr
      refine ⟨⟨⟨fun e => ?_, fun e dir => ?_, fun _ _ _ _ _ => rfl⟩, rfl, rfl, fun _ _ => rfl⟩,
        rfl, fun _ _ _ => rfl⟩
      · by_cases same : e = b
        · subst same
          simp [Fs.assign, type, file]
        · simp [Fs.assign, same]
      · have ne : e ≠ b := by
          rintro rfl
          rw [file] at dir
          cases dir
        simp [Fs.assign, ne]

/-- A copy of a file's inode may be replaced by another inode that owns its blocks. -/
theorem Inv.assign (h : Inv own top fs) {p : InodePtr} {a : Nat} (ha : a < top)
    (ptr : PtrTo fs p a) (file : (fs.inodeTab a).type = .file) {c : Inode}
    (owned : OwnedInode own a c) (type : c.type = .file) : Inv own top (fs.assign p c) := by
  have frame : Quiet top fs (fs.assign p c) := frame_assign ptr file type
  cases p with
  | cached s =>
      have key : (fs.inodeCache s).key = a := ptr
      refine ⟨⟨h.ledger.data, h.ledger.unwrapped, h.ledger.reserved, h.ledger.given⟩, ?_,
        ⟨h.blocks.single, h.blocks.clean, h.blocks.slot, h.blocks.fresh⟩, frame.tree h.tree⟩
      refine ⟨h.inodes.two_le, h.inodes.le_size, h.inodes.inUse, h.inodes.zero, h.inodes.root,
        h.inodes.kind, h.inodes.table, ?_, ?_, ?_, ?_⟩
      all_goals
        intro t
        simp only [Fs.assign, Table.write_key, Table.write_val, Table.write_dirty]
      · exact h.inodes.key_lt t
      all_goals
        by_cases same : t = s
      · rw [if_pos same, same, key]
        exact owned
      · rw [if_neg same]
        exact h.inodes.cached t
      · rw [if_pos same, same, key]
        exact type.trans file.symm
      · rw [if_neg same]
        exact h.inodes.cachedType t
      · rw [same, key]
        exact fun _ => file
      · rw [if_neg same]
        exact h.inodes.dirtyFile t
  | table b =>
      have ptr : b = a := ptr
      subst ptr
      refine ⟨⟨h.ledger.data, h.ledger.unwrapped, h.ledger.reserved, h.ledger.given⟩, ?_, ?_,
        frame.tree h.tree⟩
      · refine ⟨h.inodes.two_le, h.inodes.le_size, h.inodes.inUse, (frame.type 0).trans
          h.inodes.zero, (frame.type 1).trans h.inodes.root, ?_, ?_, h.inodes.key_lt,
          h.inodes.cached, ?_, ?_⟩
        · intro e low he
          rw [frame.type]
          exact h.inodes.kind e low he
        · intro e he
          by_cases same : e = b
          · subst same
            simpa [Fs.assign] using owned
          · simpa [Fs.assign, same] using h.inodes.table e he
        · intro s
          rw [frame.type]
          exact h.inodes.cachedType s
        · intro s isDirty
          rw [frame.type]
          exact h.inodes.dirtyFile s isDirty
      · refine ⟨h.blocks.single, h.blocks.clean, fun s => ?_, h.blocks.fresh⟩
        exact (h.blocks.slot s).imp_right fun held =>
          held.mono (.refl own) fun e isFile => (frame.type e).trans isFile

theorem Inv.markDirty (h : Inv own top fs) {p : InodePtr} {a : Nat} (ptr : PtrTo fs p a)
    (file : (fs.inodeTab a).type = .file) : Inv own top (fs.markDirty p) := by
  cases p with
  | cached s =>
      have key : (fs.inodeCache s).key = a := ptr
      refine ⟨⟨h.ledger.data, h.ledger.unwrapped, h.ledger.reserved, h.ledger.given⟩, ?_,
        ⟨h.blocks.single, h.blocks.clean, h.blocks.slot, h.blocks.fresh⟩,
        ⟨h.tree.aligned, h.tree.order, h.tree.children, h.tree.tail⟩⟩
      refine ⟨h.inodes.two_le, h.inodes.le_size, h.inodes.inUse, h.inodes.zero, h.inodes.root,
        h.inodes.kind, h.inodes.table, ?_, ?_, ?_, ?_⟩
      all_goals
        intro t
        simp only [Fs.markDirty, Table.write_key, Table.write_val, Table.write_dirty]
      · exact h.inodes.key_lt t
      all_goals
        by_cases same : t = s
      · rw [if_pos same, same]
        exact h.inodes.cached s
      · rw [if_neg same]
        exact h.inodes.cached t
      · rw [if_pos same, same]
        exact h.inodes.cachedType s
      · rw [if_neg same]
        exact h.inodes.cachedType t
      · rw [same, key]
        exact fun _ => file
      · rw [if_neg same]
        exact h.inodes.dirtyFile t
  | table b => exact h

theorem quiet_markDirty (top : Nat) (fs : Fs) (p : InodePtr) : Quiet top fs (fs.markDirty p) := by
  cases p with
  | cached s =>
      exact ⟨.of_eq _ rfl rfl rfl, rfl, fun _ _ _ => rfl⟩
  | table b => exact .refl top fs

@[simp] theorem deref_markDirty (fs : Fs) (p q : InodePtr) :
    (fs.markDirty p).deref q = fs.deref q := by
  cases p with
  | cached s =>
      cases q with
      | cached t =>
          by_cases same : t = s <;> simp [Fs.markDirty, Fs.deref, Table.write_val, same]
      | table b => rfl
  | table b => rfl

/-- A free block is marked and entered in the ledger. -/
theorem Inv.give (h : Inv own top fs) {b a : Nat} (ha : a < top)
    (clear : bmapIsset fs.blkBmap b = false)
    (inside : b < fs.numBlocks) (bit : b < bmapBits) (i : Nat) :
    Inv (own.give b a i) top { fs with blkBmap := bmapSet fs.blkBmap b } := by
  have le : own.Le (own.give b a i) := Ledger.le_give (h.ledger.unowned clear) a i
  refine ⟨?_, ?_, ?_, ⟨h.tree.aligned, h.tree.order, h.tree.children, h.tree.tail⟩⟩
  · refine ⟨h.ledger.data, h.ledger.unwrapped,
      fun c low => bmapIsset_set_mono _ (h.ledger.reserved c low), ?_⟩
    intro c e j given
    by_cases same : c = b
    · subst same
      rw [Ledger.give_self] at given
      cases given
      refine ⟨h.ledger.free_data clear, inside, ?_, ?_⟩
      · simp [bmapIsset_set bit]
      · simp [h.inodes.inUse, ha]
    · rw [Ledger.give, Function.update_of_ne same] at given
      obtain ⟨data, lt, set, used⟩ := h.ledger.given c e j given
      exact ⟨data, lt, bmapIsset_set_mono _ set, used⟩
  · exact ⟨h.inodes.two_le, h.inodes.le_size, h.inodes.inUse, h.inodes.zero, h.inodes.root,
      h.inodes.kind, fun e he => (h.inodes.table e he).mono le, h.inodes.key_lt,
      fun s => (h.inodes.cached s).mono le, h.inodes.cachedType, h.inodes.dirtyFile⟩
  · refine ⟨h.blocks.single, h.blocks.clean,
      fun s => (h.blocks.slot s).imp_right fun held => held.mono le fun _ file => file, ?_⟩
    intro c data lt still
    apply h.blocks.fresh c data lt
    cases set : bmapIsset fs.blkBmap c with
    | false => rfl
    | true =>
        have := bmapIsset_set_mono b set
        rw [still] at this
        cases this

theorem Inv.writeSlot (h : Inv own top fs) (s : Fin blockCacheSize)
    (data : 10 ≤ (fs.blockCache s).key) (x : Block) :
    Inv own top { fs with blockCache := fs.blockCache.write s x true } where
  ledger := ⟨h.ledger.data, h.ledger.unwrapped, h.ledger.reserved, h.ledger.given⟩
  inodes := ⟨h.inodes.two_le, h.inodes.le_size, h.inodes.inUse, h.inodes.zero, h.inodes.root,
    h.inodes.kind, h.inodes.table, h.inodes.key_lt, h.inodes.cached, h.inodes.cachedType,
    h.inodes.dirtyFile⟩
  blocks := by
    refine ⟨fun b hb => (h.blocks.single b hb).congr (Table.write_key _ s x true), ?_, ?_,
      h.blocks.fresh⟩
    · intro b hb inside i hi isClean
      simp only [Table.write_key, Table.write_val, Table.write_dirty] at hi isClean ⊢
      by_cases same : i = s
      · simp [same] at isClean
      · rw [if_neg same] at isClean ⊢
        exact h.blocks.clean b hb inside i hi isClean
    · intro i
      simp only [Table.write_key, Table.write_dirty]
      by_cases same : i = s
      · subst same
        exact .inr (h.slot_file data)
      · rw [if_neg same]
        exact h.blocks.slot i
  tree := ⟨h.tree.aligned, h.tree.order, h.tree.children, h.tree.tail⟩

theorem frame_writeSlot (top : Nat) (fs : Fs) (s : Fin blockCacheSize) (x : Block) :
    Frame top fs { fs with blockCache := fs.blockCache.write s x true } :=
  .of_eq _ rfl rfl rfl

end Snfs
