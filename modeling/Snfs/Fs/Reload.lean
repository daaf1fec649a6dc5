import Snfs.Fs.Refinement
import Snfs.Fs.Marks

/-!
What is left of a file system when its memory is lost and `fsi_load_fsdata` reads
the device again. Creations store the metadata and write their page through;
`fs_write` leaves the marks, the inode and the bytes that it changes in memory.
As long as no write stores anything, every file is empty and the device holds
all there is.
-/

namespace Snfs

open Slots Runs

variable {own : Ledger} {top : Nat} {fs fs' : Fs}

/-- `fsi_load_fsdata` into a new `fs_t` on the same device. -/
def reload (fs : Fs) : Fs :=
  fsiLoadFsdata
    { blocks := fs.blocks
      inodeBmap := .zero
      blkBmap := .zero
      inodeTab := fun _ => fsiInodeInit .clear
      blockCache := fun _ => ⟨0, .zero, false, 0⟩
      inodeCache := fun _ => ⟨0, fsiInodeInit .clear, false, 0⟩
      dirCache := fun _ => ⟨0, 0, .zero, 0⟩
      clock := fs.clock }

private theorem content_storeInodeTab_eq {tab : Nat → Inode} {n : Nat} {bks : Blocks blockSize}
    (h : bks.Unwrapped) (room : n + 2 ≤ bks.numBlocks) {b : Nat} (hb : b < bks.numBlocks) :
    (storeInodeTab tab n bks).content b =
      if 2 ≤ b ∧ b < n + 2 then inodeTabBlock tab (b - 2) else bks.content b := by
  induction n with
  | zero =>
      rw [if_neg (by omega)]
      rfl
  | succ n ih =>
      rw [storeInodeTab, Blocks.content_write (unwrapped_storeInodeTab h) (by simp; omega) _
        (by simpa using hb), ih (by omega)]
      by_cases last : b = n + 2
      · rw [if_pos last, if_pos (by omega), last, Nat.add_sub_cancel]
      · rw [if_neg last]
        by_cases before : 2 ≤ b ∧ b < n + 2
        · rw [if_pos before, if_pos (by omega)]
        · rw [if_neg before, if_neg (by omega)]

theorem content_store_low (h : fs.blocks.Unwrapped) (room : 10 ≤ fs.numBlocks) {b : Nat}
    (low : b < 10) :
    (fsiStoreFsdata fs).blocks.content b =
      if b = 0 then fs.blkBmap else if b = 1 then fs.inodeBmap
      else inodeTabBlock fs.inodeTab (b - 2) := by
  have room : 10 ≤ fs.blocks.numBlocks := room
  have first := h.write 0 fs.blkBmap
  have second := first.write 1 fs.inodeBmap
  have size₁ := Blocks.numBlocks_write fs.blocks 0 fs.blkBmap
  have size₂ := Blocks.numBlocks_write (blockWrite fs.blocks 0 fs.blkBmap) 1 fs.inodeBmap
  generalize one : blockWrite fs.blocks 0 fs.blkBmap = bks₁ at first second size₁ size₂
  generalize two : blockWrite bks₁ 1 fs.inodeBmap = bks₂ at second size₂
  have store : (fsiStoreFsdata fs).blocks = storeInodeTab fs.inodeTab itabNumBlks bks₂ := by
    rw [fsiStoreFsdata, one, two]
  rw [store, content_storeInodeTab_eq second (by rw [size₂, size₁]; exact room)
    (by rw [size₂, size₁]; omega)]
  by_cases tab : 2 ≤ b
  · rw [if_pos ⟨tab, low⟩, if_neg (by omega), if_neg (by omega)]
  · rw [if_neg fun here => tab here.1, ← two, Blocks.content_write first (by omega) _ (by omega),
      ← one, Blocks.content_write h (by omega) _ (by omega)]
    by_cases zero : b = 0
    · rw [if_neg (by omega), if_pos zero, if_pos zero]
    · rw [if_pos (by omega), if_neg zero, if_pos (by omega)]

private theorem loadWord_store (h : fs.blocks.Unwrapped) (room : 10 ≤ fs.numBlocks) {a w : Nat}
    (ha : a < itabSize) (hw : w < 16) (small : inodeWord (fs.inodeTab a) w < 2 ^ 32) :
    loadWord (fsiStoreFsdata fs).blocks a w = inodeWord (fs.inodeTab a) w := by
  have ha : a < 64 := ha
  have byte (k : Nat) (hk : k < 4) :
      (((fsiStoreFsdata fs).blocks.content ((64 * a + 4 * w + k) / blockSize + 2)).get
        ((64 * a + 4 * w + k) % blockSize)).toNat =
          inodeWord (fs.inodeTab a) w / 256 ^ k % 256 := by
    have block : (64 * a + 4 * w + k) / 512 < 8 := by omega
    have inside : (64 * a + 4 * w + k) % 512 < 512 := Nat.mod_lt _ (by decide)
    have position : (64 * a + 4 * w + k) / 512 * 512 + (64 * a + 4 * w + k) % 512 =
        64 * a + 4 * w + k := by omega
    simp only [blockSize]
    rw [content_store_low h room (by omega), if_neg (by omega), if_neg (by omega),
      Nat.add_sub_cancel, Buf.get_of_lt _ inside, inodeTabBlock]
    dsimp only
    rw [position, inodeTabByte, show (64 * a + 4 * w + k) / 64 = a by omega,
      show (64 * a + 4 * w + k) % 64 / 4 = w by omega, show (64 * a + 4 * w + k) % 4 = k by omega,
      UInt8.toNat_ofNat']
  rw [loadWord]
  dsimp only
  rw [byte 0 (by decide), byte 1 (by decide), byte 2 (by decide), byte 3 (by decide)]
  omega

/-- What the device has of the metadata: the bitmaps, and every inode in use as far as it goes. -/
structure Synced (top : Nat) (fs : Fs) : Prop where
  blkBmap : fs.blocks.content 0 = fs.blkBmap
  inodeBmap : fs.blocks.content 1 = fs.inodeBmap
  table : ∀ a, 1 ≤ a → a < top → Agree (loadInode fs.blocks a) (fs.inodeTab a)

/-- After `fsi_store_fsdata` the device has all the metadata. -/
theorem Inv.synced_store {s : Fs} (h : Inv own top (fsiStoreFsdata s)) :
    Synced top (fsiStoreFsdata s) := by
  have size := numBlocks_store s
  have unwrapped : s.blocks.Unwrapped := by
    have whole := h.ledger.unwrapped
    rwa [Blocks.Unwrapped, show (fsiStoreFsdata s).blocks.numBlocks = s.blocks.numBlocks from size]
      at whole
  have room : 10 ≤ s.numBlocks := size ▸ h.ledger.data
  have tab : (fsiStoreFsdata s).inodeTab = s.inodeTab := by rw [fsiStoreFsdata]
  refine ⟨?_, ?_, ?_⟩
  · rw [content_store_low unwrapped room (by decide), if_pos rfl, fsiStoreFsdata]
  · rw [content_store_low unwrapped room (by decide), if_neg (by decide), if_pos rfl,
      fsiStoreFsdata]
  · intro a _ lt
    have inside := Nat.lt_of_lt_of_le lt h.inodes.le_size
    have owned := h.inodes.table a lt
    rw [tab] at owned ⊢
    have small := owned.size_le
    have word {w : Nat} (hw : w < 16) (fits : inodeWord (s.inodeTab a) w < 2 ^ 32) :=
      loadWord_store unwrapped room inside hw fits
    have type : inodeWord (s.inodeTab a) 0 < 2 ^ 32 := by
      rw [inodeWord, if_pos rfl]
      cases (s.inodeTab a).type <;> decide
    have sizeWord : inodeWord (s.inodeTab a) 1 = (s.inodeTab a).size := rfl
    have loaded : (loadInode (fsiStoreFsdata s).blocks a).size = (s.inodeTab a).size := by
      have fits : inodeWord (s.inodeTab a) 1 < 2 ^ 32 := by
        rw [sizeWord]
        omega
      exact (word (by decide) fits).trans sizeWord
    refine ⟨?_, loaded, ?_⟩
    · have code : Itype.ofCode (inodeWord (s.inodeTab a) 0) = (s.inodeTab a).type := by
        rw [inodeWord, if_pos rfl]
        cases (s.inodeTab a).type <;> rfl
      exact (congrArg Itype.ofCode (word (by decide) type)).trans code
    · intro i hi
      have hi : i < (s.inodeTab a).used := by rwa [Inode.used, loaded] at hi
      have few : i < 10 := Nat.lt_of_lt_of_le hi owned.used_le
      have blockWord : inodeWord (s.inodeTab a) (i + 2) = (s.inodeTab a).blocks i := by
        rw [inodeWord, if_neg (by omega), if_neg (by omega), if_pos (by omega),
          Nat.add_sub_cancel]
      have block : (s.inodeTab a).blocks i < 2 ^ 32 := by
        have lt := (h.owned_range (owned.owned_used hi)).2
        rw [size] at lt
        have fits : s.blocks.numBlocks * 512 < 2 ^ 32 := unwrapped
        have lt : (s.inodeTab a).blocks i < s.blocks.numBlocks := lt
        omega
      exact (word (by omega) (by rwa [blockWord])).trans blockWord

/-- The inodes are loaded from the first ten blocks. -/
theorem Agree.reload {bks bks' : Blocks blockSize} {a : Nat} {c : Inode}
    (h : Agree (loadInode bks a) c) (few : c.used ≤ inodeNumBlks) (ha : a < itabSize)
    (low : ∀ b, b < 10 → bks'.content b = bks.content b) : Agree (loadInode bks' a) c := by
  have ha : a < 64 := ha
  have word {w : Nat} (hw : w < 16) : loadWord bks' a w = loadWord bks a w := by
    have block (k : Nat) (hk : k < 4) : bks'.content ((64 * a + 4 * w + k) / blockSize + 2) =
        bks.content ((64 * a + 4 * w + k) / blockSize + 2) := by
      apply low
      simp only [blockSize]
      omega
    rw [loadWord, loadWord]
    dsimp only
    rw [block 0 (by decide), block 1 (by decide), block 2 (by decide), block 3 (by decide)]
  have size : (loadInode bks' a).size = (loadInode bks a).size := word (w := 1) (by decide)
  refine ⟨?_, size.trans h.size, ?_⟩
  · exact (congrArg Itype.ofCode (word (w := 0) (by decide))).trans h.type
  · intro i hi
    have hi : i < (loadInode bks a).used := by rwa [Inode.used, size] at hi
    have few : (loadInode bks a).used ≤ 10 := h.used ▸ few
    exact (word (w := i + 2) (by omega)).trans (h.blocks i hi)

structure EmptyFiles (top : Nat) (fs : Fs) : Prop where
  table : ∀ a, a < top → (fs.inodeTab a).type = .file → (fs.inodeTab a).size = 0
  copy : ∀ s, (fs.inodeTab (fs.inodeCache s).key).type = .file → (fs.inodeCache s).val.size = 0

namespace EmptyFiles

theorem of_same (h : EmptyFiles top fs) (same : SameButDirs fs fs') : EmptyFiles top fs' := by
  rw [same]
  exact ⟨h.table, h.copy⟩

private theorem of_inodes (h : EmptyFiles top fs) (same : SameInodes fs fs') :
    EmptyFiles top fs' := by
  refine ⟨?_, ?_⟩
  · rw [same.inodeTab]
    exact h.table
  · rw [same.inodeTab, same.inodeCache]
    exact h.copy

theorem of_browsed (h : EmptyFiles top fs) (browsed : Browsed fs fs') : EmptyFiles top fs' := by
  have tab : fs'.inodeTab = fs.inodeTab := by rw [browsed.rest]
  refine ⟨?_, ?_⟩
  · rw [tab]
    exact h.table
  · intro s
    rw [tab, browsed.key, browsed.val]
    exact h.copy s

theorem seen (h : EmptyFiles top fs) {a : Nat} (lt : a < top)
    (file : (fs.inodeTab a).type = .file) : (fs.seen a).size = 0 := by
  rw [Fs.seen, Table.view]
  split
  · rename_i s found
    have key := Table.key_of_find found
    exact h.copy s (by rwa [key])
  · exact h.table a lt file

theorem addInodeAt (h : EmptyFiles top fs) (ok : Inv own top fs) (v : Fin inodeCacheSize) {a : Nat}
    (ha : a < top) (d : Bool) : EmptyFiles top (addInodeAt fs v a d) := by
  have table (b : Nat) (lt : b < top)
      (file : ((Snfs.addInodeAt fs v a d).inodeTab b).type = .file) :
      ((Snfs.addInodeAt fs v a d).inodeTab b).size = 0 := by
    have old : (fs.inodeTab b).type = .file := (ok.evict_type v b).symm.trans file
    cases ok.evict_inode v b with
    | inl same => exact (congrArg Inode.size same).trans (h.table b lt old)
    | inr back =>
        obtain ⟨key, -, val⟩ := back
        rw [key] at old
        exact (congrArg Inode.size val).trans (h.copy v old)
  refine ⟨table, ?_⟩
  intro s file
  by_cases same : s = v
  · rw [same, addInodeAt_self] at file ⊢
    exact table a ha file
  · rw [addInodeAt_other fs same] at file ⊢
    exact h.copy s ((ok.evict_type v _).symm.trans file)

theorem openInode (h : EmptyFiles top fs) (ok : Inv own top fs) {a : Nat} {p : InodePtr}
    (opened : openInode fs a = some (p, fs')) : EmptyFiles top fs' := by
  have lt := (ok.openInode opened).1
  cases opened_of_open opened with
  | cached => exact h.of_browsed (.touchInode fs _)
  | table => exact h.addInodeAt ok _ lt false

theorem pinInode (h : EmptyFiles top fs) (ok : Inv own top fs) {a : Nat} (lt : a < top) (d : Bool) :
    EmptyFiles top (pinInode fs a d).2 := by
  rw [Snfs.pinInode]
  split
  · exact h.of_browsed (.touchInode fs _)
  · exact h.addInodeAt ok _ lt d

theorem made (h : EmptyFiles top fs) (ok : Inv own top fs) {own' : Ledger} {type : Itype}
    {dir : Nat} {name : CString} (made : Made own own' top type fs dir name fs') :
    EmptyFiles (top + 1) fs' := by
  have other {a : Nat} (file : (fs'.inodeTab a).type = .file) : a ≠ dir := by
    intro here
    rw [here, made.type_dir] at file
    cases file
  refine ⟨?_, ?_⟩
  · intro a lt file
    by_cases new : a = top
    · rw [new, made.tab_new]
      rfl
    · have old : a < top := by omega
      have same := made.tab_other a old (other file)
      rw [same] at file ⊢
      exact h.table a old file
  · intro s file
    have old := ok.inodes.key_lt s
    rw [made.inodeCache] at file ⊢
    rw [made.tab_other _ old (other file)] at file
    exact h.copy s file

/-- What `fs_copy` does after the creation, for a source without bytes. -/
theorem copied (h : EmptyFiles (top + 1) fs) {own own' : Ledger} {src : Nat}
    (ok : Inv own (top + 1) fs) (lt : src < top) (isFile : (fs.inodeTab src).type = .file)
    (absent : fs.inodeCache.Absent top) (isNew : (fs.inodeTab top).type = .file)
    (copied : Copied own own' (top + 1) (.table top)
      (addInodeToCache (Snfs.pinInode fs src false).2 top true) (copyInode fs src top).2) :
    EmptyFiles (top + 1) (copyInode fs src top).2 := by
  have ne : src ≠ top := Nat.ne_of_lt lt
  have pinned := h.pinInode ok (Nat.lt_succ_of_lt lt) false (a := src)
  have ok₁ := (ok.pinInode (Nat.lt_succ_of_lt lt) (d := false) (a := src) (by simp)).1
  have second := pinned.addInodeAt ok₁
    (oldest fun i => ((Snfs.pinInode fs src false).2.inodeCache i).lastAccess)
    (Nat.lt_succ_self top) true
  have size : ((addInodeToCache (Snfs.pinInode fs src false).2 top true).deref
      (Snfs.pinInode fs src false).1).size = 0 := by
    cases deref_pinned absent ne with
    | inl same => rw [same, h.seen (Nat.lt_succ_of_lt lt) isFile]
    | inr same => rw [same, h.table top (Nat.lt_succ_self top) isNew]
  have new : ((copyInode fs src top).2.inodeTab top).size = 0 := by
    rw [copyInode]
    simp only [pinInode_target absent ne, Inode.used, size, show offsetToBlocks 0 = 0 from rfl,
      copyBlocks, Fs.assign, Function.update_self]
  have cache (s : Fin inodeCacheSize) := copied.only.slot s (by simp)
  refine ⟨?_, ?_⟩
  · intro a here file
    by_cases target : a = top
    · rw [target]
      exact new
    · rw [copied.frame.type] at file
      rw [copied.only.entry a (by simp [Ne.symm target])]
      exact second.table a here file
  · intro s file
    rw [cache, copied.frame.type] at file
    rw [cache]
    exact second.copy s file

end EmptyFiles

/-- The call is no `fs_write` that marks a block: it has no bytes, it names no file, or there is no
free block. -/
def StoresNothing (fs : Fs) : FsOp → Prop
  | .write file _ data =>
      data = [] ∨ ¬ (bmapIsset fs.inodeBmap file = true ∧ (fs.inodeTab file).type = .file) ∨
        fsiBmapFindFree fs.blkBmap fs.numBlocks = none
  | _ => True

instance (fs : Fs) : DecidablePred (StoresNothing fs)
  | .write _ _ _ => inferInstanceAs (Decidable (_ ∨ _ ∨ _))
  | .lookup _ | .getAttrs _ | .read _ _ _ | .create _ _ | .mkdir _ _ | .readdir _ _
  | .copy _ _ _ _ => .isTrue trivial

theorem findFree_none_iff {bmap : Block} {size : Nat} :
    fsiBmapFindFree bmap size = none ↔ freeBits bmap size = 0 := by
  rw [← Option.not_isSome_iff_eq_none, freeBits_pos_iff, Nat.pos_iff_ne_zero, not_not]

/-- A write to an empty file marks a block if it has bytes to store and finds one. -/
theorem EmptyFiles.write (empty : EmptyFiles top fs) (h : Inv own top fs) (file offset : Nat)
    {data : List UInt8} (short : data.length ≤ 1024)
    (room : Room fs (demand fs (.write file offset data))) :
    EmptyFiles top (fsWrite fs file offset data).2 ∧
        (fsWrite fs file offset data).2.blkBmap = fs.blkBmap ∧
        StoresNothing fs (.write file offset data) ∨
      (fsWrite fs file offset data).2.blkBmap ≠ fs.blkBmap ∧
        ¬ StoresNothing fs (.write file offset data) := by
  have marks := (MarksKept.fsWrite fs file offset data).blkBmap
  have ends := h.fsWrite_ends file offset short room
  generalize fsWrite fs file offset data = result at marks ends
  have opened {p : InodePtr} {fs₁ : Fs} (opened : Snfs.openInode fs file = some (p, fs₁)) :
      file < top ∧ EmptyFiles top fs₁ ∧ fs₁.blkBmap = fs.blkBmap ∧ fs₁.numBlocks = fs.numBlocks := by
    obtain ⟨lt, -, quiet, -⟩ := h.openInode opened
    exact ⟨lt, empty.openInode h opened, quiet.blkBmap, quiet.numBlocks⟩
  cases ends with
  | unused out =>
      refine .inl ⟨empty, rfl, .inr (.inl ?_)⟩
      intro here
      exact absurd (h.lt_top here.1) (Nat.not_lt.mpr out)
  | @refused p fs₁ open₁ why =>
      obtain ⟨lt, empty₁, bmap, -⟩ := opened open₁
      refine .inl ⟨empty₁, bmap, .inr (.inl ?_)⟩
      intro here
      have none := empty.seen lt here.2
      have why := why here.2
      rw [blocksNeeded, writePos, Inode.used, none, offsetToBlocks_eq, offsetToBlocks_eq] at why
      simp only [inodeNumBlks] at why
      omega
  | @full p fs₁ fs₂ own' open₁ isFile fits few alloc left same =>
      obtain ⟨lt, empty₁, bmap, size⟩ := opened open₁
      have none := empty.seen lt isFile
      rw [blocksNeeded, writePos, Inode.used, none, offsetToBlocks_eq, offsetToBlocks_eq] at few
      by_cases free : freeBits fs.blkBmap fs.numBlocks = 0
      · rw [same free]
        exact .inl ⟨empty₁, bmap, .inr (.inr (findFree_none_iff.mpr free))⟩
      · refine .inr ⟨?_, ?_⟩
        · intro same
          rw [same, alloc.frame.numBlocks, size] at left
          exact free left
        · intro nothing
          cases nothing with
          | inl nil =>
              rw [nil, List.length_nil] at few
              omega
          | inr rest =>
              cases rest with
              | inl other =>
                  have inUse : bmapIsset fs.inodeBmap file = true := by
                    rw [h.inodes.inUse]
                    exact decide_eq_true lt
                  exact other ⟨inUse, isFile⟩
              | inr stop => exact free (findFree_none_iff.mp stop)
  | @inside p fs₁ fs₂ open₁ isFile le stored same =>
      obtain ⟨lt, empty₁, bmap, -⟩ := opened open₁
      have none := empty.seen lt isFile
      rw [none, Nat.le_zero, Nat.add_eq_zero_iff] at le
      refine .inl ⟨empty₁.of_inodes same, ?_, .inl (List.length_eq_zero_iff.mp le.2)⟩
      apply Buf.ext_bit
      intro b _
      rw [Bool.eq_iff_iff]
      refine ⟨?_, marks b⟩
      intro set
      cases stored.marks b set with
      | inl old => rwa [bmap] at old
      | inr new =>
          obtain ⟨i, -, past, -⟩ := new
          rw [le.1, le.2] at past
          omega
  | @extended p fs₁ fs₂ own' open₁ grows stored =>
      obtain ⟨lt, empty₁, bmap, size⟩ := opened open₁
      have none := empty.seen lt grows.isFile
      have copy := (h.openInode open₁).2.2.2.2.1
      have free := stored.free
      have longer := grows.grows
      rw [copy, bmap, size, blocksNeeded, Inode.used, offsetToBlocks_eq, offsetToBlocks_eq] at free
      have bitmap : (writeSize fs₂ file p (writePos (fs.seen file) offset + data.length)).blkBmap =
          fs₂.blkBmap := by
        cases p <;> rfl
      refine .inr ⟨?_, ?_⟩
      · intro same
        rw [← bitmap, same, stored.frame.numBlocks, size] at free
        omega
      · intro nothing
        cases nothing with
        | inl nil =>
            have pos : writePos (fs.seen file) offset ≤ (fs.seen file).size := Nat.min_le_right _ _
            rw [nil, List.length_nil] at longer
            omega
        | inr rest =>
            cases rest with
            | inl other =>
                have inUse : bmapIsset fs.inodeBmap file = true := by
                  rw [h.inodes.inUse]
                  exact decide_eq_true lt
                exact other ⟨inUse, grows.isFile⟩
            | inr stop =>
                rw [findFree_none_iff.mp stop] at free
                omega

theorem EmptyFiles.copyPaths (empty : EmptyFiles top fs) (h : Inv own top fs)
    {srcJunk dirJunk : Nat} {srcpath tgtpath : CString} {paths : Option (Nat × Nat × CString)}
    (result : copyPaths fs srcJunk dirJunk srcpath tgtpath = some (paths, fs')) :
    EmptyFiles top fs' := by
  have kept : Inv own top fs' ∧ EmptyFiles top fs' := by
    refine copyPaths_keeps (P := fun s => Inv own top s ∧ EmptyFiles top s) ?_ ?_ ⟨h, empty⟩ result
    · intro s dir name kept _ _
      have same := fsiDirSearch_same s dir name
      exact ⟨same.inv kept.1, kept.2.of_same same⟩
    · intro s a p s' kept opened
      exact ⟨(kept.1.openInode opened).2.1, kept.2.openInode kept.1 opened⟩
  exact kept.2

theorem EmptyFiles.make (empty : EmptyFiles top fs) (h : Inv own top fs) {type : Itype}
    (kind : type = .dir ∨ type = .file) (dir : Nat) {name : CString} (noZero : (0 : UInt8) ∉ name)
    (room : Room fs 1) :
    ∃ own' top', Inv own' top' (fsMake type fs dir name).2 ∧
      EmptyFiles top' (fsMake type fs dir name).2 := by
  cases h.fsMake type kind dir noZero room with
  | inl failed =>
      obtain ⟨fs₁, result, searched⟩ := failed
      rw [result]
      exact ⟨own, top, searched.same.inv h, empty.of_same searched.same⟩
  | inr added =>
      obtain ⟨own', fs₁, result, made⟩ := added
      rw [result]
      exact ⟨own', top + 1, made.inv, empty.made h made⟩

theorem EmptyFiles.copySource (empty : EmptyFiles top fs) (h : Inv own top fs) (op : FsOp) :
    ∀ c ∈ copySource fs op, c.size = 0 := by
  intro c source
  cases op with
  | copy srcJunk dirJunk srcpath tgtpath =>
      rw [Snfs.copySource] at source
      split at source
      · rename_i src dir name s paths
        cases source
        obtain ⟨-, -, target⟩ := h.copyPaths paths
        obtain ⟨lt, isFile, -⟩ := target src dir name rfl
        exact (empty.copyPaths h paths).seen lt isFile
      · cases source
  | lookup _ => cases source
  | getAttrs _ => cases source
  | read _ _ _ => cases source
  | write _ _ _ => cases source
  | create _ _ => cases source
  | mkdir _ _ => cases source
  | readdir _ _ => cases source

/-- A call that stores nothing leaves every file empty. -/
theorem EmptyFiles.step (empty : EmptyFiles top fs) (h : Inv own top fs) {op : FsOp}
    (within : Within fs op) (nothing : StoresNothing fs op) {res : FsResult}
    (next : fsStep fs op = some (res, fs')) {own' : Ledger} {top' : Nat} (h' : Inv own' top' fs') :
    EmptyFiles top' fs' := by
  obtain ⟨fits, room⟩ := within
  suffices ∃ own' top', Inv own' top' fs' ∧ EmptyFiles top' fs' by
    obtain ⟨own₁, top₁, h₁, empty₁⟩ := this
    rwa [h₁.top_unique h']
  cases op with
  | lookup path =>
      simp only [fsStep] at next
      cases next
      have same := fsLookup_same fs path
      exact ⟨own, top, same.inv h, empty.of_same same⟩
  | getAttrs file =>
      obtain ⟨⟨attrs, fs₁⟩, result, same⟩ := Option.map_eq_some_iff.mp next
      cases same
      have kept := fsGetAttrs_keeps (P := fun s => Inv own top s ∧ EmptyFiles top s)
        (fun s a p s' kept opened =>
          ⟨(kept.1.openInode opened).2.1, kept.2.openInode kept.1 opened⟩) ⟨h, empty⟩ result
      exact ⟨own, top, kept.1, kept.2⟩
  | read file offset count =>
      simp only [fsStep] at next
      cases next
      cases h.fsRead_cases file offset count with
      | inl missed =>
          rw [missed.2]
          exact ⟨own, top, h, empty⟩
      | inr opened =>
          obtain ⟨p, fs₁, opened, ends⟩ := opened
          have h₁ := (h.openInode opened).2.1
          have empty₁ := empty.openInode h opened
          cases ends with
          | inl refused =>
              rw [refused.2]
              exact ⟨own, top, h₁, empty₁⟩
          | inr done =>
              obtain ⟨-, fs₂, result, h₂, -, same⟩ := done
              rw [result]
              exact ⟨own, top, h₂, empty₁.of_inodes same⟩
  | write file offset data =>
      simp only [fsStep] at next
      cases next
      cases empty.write h file offset fits room with
      | inl kept =>
          obtain ⟨own₁, stepped⟩ := h.step_write file offset fits room
          exact ⟨own₁, top, stepped.inv, kept.1⟩
      | inr broken => exact absurd nothing broken.2
  | create dir name =>
      simp only [fsStep] at next
      cases next
      exact empty.make h (.inr rfl) dir fits room
  | mkdir dir name =>
      simp only [fsStep] at next
      cases next
      exact empty.make h (.inl rfl) dir fits room
  | readdir dir maxentries =>
      simp only [fsStep] at next
      cases next
      have h₁ := (h.fsReaddir dir maxentries).1
      cases fsReaddir_state fs dir maxentries with
      | inl same => exact ⟨own, top, h₁, by rwa [same]⟩
      | inr browsed =>
          obtain ⟨p, fs₁, opened, browsed⟩ := browsed
          exact ⟨own, top, h₁, (empty.openInode h opened).of_browsed browsed⟩
  | copy srcJunk dirJunk srcpath tgtpath =>
      obtain ⟨⟨ok, fs₁⟩, result, same⟩ := Option.map_eq_some_iff.mp next
      cases same
      cases h.fsCopy_ends fits.2.1 room result with
      | noPaths paths h₁ _ => exact ⟨own, top, h₁, empty.copyPaths h paths⟩
      | notMade paths h₁ _ create searched =>
          exact ⟨own, top, searched.same.inv h₁, (empty.copyPaths h paths).of_same searched.same⟩
      | @made src dir name fs₁ fs₂ fs₃ _ own₁ own₂ _ paths h₁ _ lt isFile create made pinned _ _ copy
          copied =>
          have empty₂ := (empty.copyPaths h paths).made h₁ made
          have isFile₂ := (made.type_old lt).trans isFile
          have isNew : (fs₂.inodeTab top).type = .file := by
            rw [made.tab_new]
            rfl
          have absent := (made.coherent_new h₁).1
          have loop : Copied own₁ own₂ (top + 1) (.table top)
              (addInodeToCache (Snfs.pinInode fs₂ src false).2 top true) (copyInode fs₂ src top).2 := by
            rw [copy, ← pinned]
            exact copied
          have ended := empty₂.copied made.inv lt isFile₂ absent isNew loop
          rw [copy] at ended
          exact ⟨_, top + 1, copied.inv, ended⟩

/-- The invariant of a run in which no write stores anything. -/
structure OnDevice (top : Nat) (fs : Fs) : Prop where
  synced : Synced top fs
  empty : EmptyFiles top fs

/-- What creates nothing and marks no block leaves the metadata on the device. -/
theorem OnDevice.frame (onDevice : OnDevice top fs) (h : Inv own top fs) (frame : Frame top fs fs')
    (bmap : fs'.blkBmap = fs.blkBmap) (empty' : EmptyFiles top fs') : OnDevice top fs' := by
  refine ⟨⟨?_, ?_, ?_⟩, empty'⟩
  · rw [frame.low 0 (by decide), bmap]
    exact onDevice.synced.blkBmap
  · rw [frame.low 1 (by decide), frame.inodeBmap]
    exact onDevice.synced.inodeBmap
  · intro a pos lt
    have inside := Nat.lt_of_lt_of_le lt h.inodes.le_size
    have loaded := (onDevice.synced.table a pos lt).reload (h.inodes.table a lt).used_le inside
      frame.low
    cases h.inodes.kind a pos lt with
    | inl isDir => rwa [frame.dir a isDir]
    | inr isFile =>
        have isFile' := (frame.type a).trans isFile
        have none := onDevice.empty.table a lt isFile
        have none' := empty'.table a lt isFile'
        refine loaded.trans ⟨(frame.type a).symm, none.trans none'.symm, ?_⟩
        intro i hi
        rw [Inode.lt_used, none] at hi
        omega

theorem OnDevice.make (onDevice : OnDevice top fs) (h : Inv own top fs) {type : Itype}
    (kind : type = .dir ∨ type = .file) (dir : Nat) {name : CString} (noZero : (0 : UInt8) ∉ name)
    (room : Room fs 1) :
    ∃ own' top', Inv own' top' (fsMake type fs dir name).2 ∧
      OnDevice top' (fsMake type fs dir name).2 := by
  obtain ⟨own', top', h', empty'⟩ := onDevice.empty.make h kind dir noZero room
  refine ⟨own', top', h', ?_⟩
  cases fsMake_cases type fs dir name with
  | inl failed =>
      obtain ⟨fs₁, result, searched⟩ := failed
      rw [result] at h' empty' ⊢
      have quiet := searched.same.quiet top
      have same := h.top_congr h' quiet.inodeBmap
      rw [same] at h' empty' ⊢
      exact onDevice.frame h quiet.toFrame quiet.blkBmap empty'
  | inr added =>
      obtain ⟨fs₁, finode, idir, bmap, -, -, -, -, result⟩ := added
      rw [result] at h' empty' ⊢
      refine ⟨?_, empty'⟩
      dsimp only at h' ⊢
      rw [addEntry] at h' ⊢
      exact h'.synced_store

/-- The creation in a call stores the metadata. -/
theorem OnDevice.afterCreate (onDevice : OnDevice top fs) (h : Inv own top fs) {op : FsOp}
    (within : Within fs op) :
    ∃ own' top', Inv own' top' (afterCreate fs op) ∧ OnDevice top' (afterCreate fs op) := by
  obtain ⟨fits, room⟩ := within
  rw [Snfs.afterCreate]
  cases op with
  | create dir name => exact onDevice.make h (.inr rfl) dir fits room
  | mkdir dir name => exact onDevice.make h (.inl rfl) dir fits room
  | copy srcJunk dirJunk srcpath tgtpath =>
      rw [createCall]
      cases paths : Snfs.copyPaths fs srcJunk dirJunk srcpath tgtpath with
      | none => exact ⟨own, top, h, onDevice⟩
      | some pair =>
          obtain ⟨found, s⟩ := pair
          obtain ⟨inv, quiet, target⟩ := h.copyPaths paths
          cases found with
          | none => exact ⟨own, top, h, onDevice⟩
          | some found =>
              obtain ⟨src, dir, name⟩ := found
              obtain ⟨-, -, rest, split⟩ := target src dir name rfl
              have noZero : (0 : UInt8) ∉ name := fun zero => fits.2.1 (mem_of_splitLast split zero)
              have there := onDevice.frame h quiet.toFrame quiet.blkBmap
                (onDevice.empty.copyPaths h paths)
              have room : Room fs (inodeNumBlks + 1) := room
              exact there.make inv (.inr rfl) dir noZero
                ((room.mono (by decide)).congr quiet.numBlocks quiet.blkBmap)
  | lookup _ => exact ⟨own, top, h, onDevice⟩
  | getAttrs _ => exact ⟨own, top, h, onDevice⟩
  | read _ _ _ => exact ⟨own, top, h, onDevice⟩
  | write _ _ _ => exact ⟨own, top, h, onDevice⟩
  | readdir _ _ => exact ⟨own, top, h, onDevice⟩

theorem OnDevice.step (onDevice : OnDevice top fs) (h : Inv own top fs) {op : FsOp}
    (within : Within fs op) (nothing : StoresNothing fs op) {res : FsResult}
    (next : fsStep fs op = some (res, fs')) :
    ∃ own' top', Inv own' top' fs' ∧ OnDevice top' fs' := by
  obtain ⟨own', top', kept⟩ := h.step within.1 within.2 next
  obtain ⟨own₁, top₁, h₁, there⟩ := onDevice.afterCreate h within
  have empty' := onDevice.empty.step h within nothing next kept.inv
  have frame := kept.frame
  have h' := kept.inv
  have same := h₁.top_congr h' frame.inodeBmap
  rw [same] at frame h' empty'
  refine ⟨own', top₁, h', there.frame h₁ frame ?_ empty'⟩
  by_cases write : ∃ file offset data, op = .write file offset data
  · obtain ⟨file, offset, data, rfl⟩ := write
    simp only [fsStep] at next
    cases next
    cases onDevice.empty.write h file offset within.1 within.2 with
    | inl stored => exact stored.2.1
    | inr broken => exact absurd nothing broken.2
  · refine h.step_blkBmap within.1 within.2 next ?_ (onDevice.empty.copySource h op)
    intro file offset data same
    exact write ⟨file, offset, data, same⟩

/-- Reloaded from the device, the file system has the same bitmaps, files and directories. -/
structure Persisted (fs : Fs) : Prop where
  blkBmap : (reload fs).blkBmap = fs.blkBmap
  inodeBmap : (reload fs).inodeBmap = fs.inodeBmap
  files : ∀ a, bmapIsset fs.inodeBmap a = true → (fs.inodeTab a).type = .file →
    ∃ xs, Reports fs a xs ∧ Reports (reload fs) a xs
  dirs : ∀ d, IsDir fs d → IsDir (reload fs) d ∧ dirEntries (reload fs) d = dirEntries fs d

/-- In a file system just loaded a file without a size has no bytes. -/
theorem reload_reports {a : Nat} (pos : 1 ≤ a) (lt : a < itabSize)
    (inUse : bmapIsset (reload fs).inodeBmap a = true)
    (isFile : ((reload fs).inodeTab a).type = .file) (none : ((reload fs).inodeTab a).size = 0) :
    Reports (reload fs) a [] := by
  have absent : (reload fs).inodeCache.Absent a := fun s key => absurd key (Nat.ne_of_lt pos)
  have missed : findInodeInCache (reload fs) a = .none := Table.find_of_absent absent
  have opened : openInode (reload fs) a = some (.table a, addInodeToCache (reload fs) a false) := by
    rw [openInode, missed, if_pos inUse]
  have copy : (addInodeToCache (reload fs) a false).deref (.table a) = (reload fs).inodeTab a :=
    Table.evict_of_ne _ (absent (oldest fun i => ((reload fs).inodeCache i).lastAccess))
  refine ⟨?_, ?_⟩
  · rw [fsGetAttrs, if_neg (Nat.not_le.mpr lt), opened]
    dsimp only
    rw [copy, isFile, none]
    rfl
  · intro offset count
    rw [fsRead, if_neg (Nat.not_le.mpr lt), opened]
    dsimp only
    rw [copy, if_neg (not_not.mpr isFile), if_pos (by rw [none]; exact Nat.zero_le offset),
      List.drop_nil, List.take_nil]

theorem OnDevice.persisted (onDevice : OnDevice top fs) (h : Inv own top fs) : Persisted fs := by
  have table (a : Nat) : (reload fs).inodeTab a = loadInode fs.blocks a := rfl
  have inodeBmap : (reload fs).inodeBmap = fs.inodeBmap := onDevice.synced.inodeBmap
  refine ⟨onDevice.synced.blkBmap, inodeBmap, ?_, ?_⟩
  · intro a inUse isFile
    have lt := h.lt_top inUse
    have pos : 1 ≤ a := by
      by_contra zero
      rw [show a = 0 by omega, h.inodes.zero] at isFile
      cases isFile
    have agree := onDevice.synced.table a pos lt
    refine ⟨[], ?_, ?_⟩
    · have reports := h.reports lt isFile
      rwa [content_empty (onDevice.empty.seen lt isFile)] at reports
    · refine reload_reports pos (Nat.lt_of_lt_of_le lt h.inodes.le_size) (by rwa [inodeBmap]) ?_ ?_
      · rw [table, agree.type, isFile]
      · rw [table, agree.size, onDevice.empty.table a lt isFile]
  · intro d isDir
    obtain ⟨lt, type⟩ := h.isDir_iff.mp isDir
    have agree := onDevice.synced.table d (Nat.pos_of_ne_zero (h.dir_ne_zero isDir)) lt
    refine ⟨⟨by rw [inodeBmap]; exact isDir.1, by rw [table, agree.type, type]⟩, ?_⟩
    have entries : numEntries (reload fs) d = numEntries fs d := by
      rw [numEntries, numEntries, table, agree.size]
    rw [dirEntries, dirEntries, entries]
    apply List.map_congr_left
    intro k hk
    have hk := List.mem_range.mp hk
    have used : k / dirPageEntries < (fs.inodeTab d).used := by
      rw [Inode.lt_used]
      rw [numEntries] at hk
      simp only [dentrySize, dirPageEntries] at hk ⊢
      omega
    have page : entryPage (reload fs) d k = entryPage fs d k := by
      rw [entryPage, entryPage, table, agree.blocks _ (by rwa [agree.used])]
      rfl
    rw [entryAt, entryAt, page]

section Runs
variable {num : Nat} {clock : Nat → Int} {boot s : Fs} {trace : List (FsOp × FsResult)}

private theorem fsBoot_onDevice (data : 10 ≤ num) (unwrapped : num * blockSize < 2 ^ 32)
    (started : fsBoot num clock = some boot) :
    Inv (fun _ => none) 2 boot ∧ OnDevice 2 boot := by
  have formatted := fsBoot_formatted data unwrapped started
  have inv := formatted.inv data
  refine ⟨inv, ?_, ?_, ?_⟩
  · obtain ⟨new, -, same⟩ := Option.map_eq_some_iff.mp started
    rw [fsFormat] at same
    rw [← same] at inv ⊢
    exact inv.synced_store
  · intro a _ _
    rw [formatted.inodeTab, Function.update_apply]
    split <;> rfl
  · intro v _
    rw [formatted.inodeCache]
    rfl

/-- A write that marks a block leaves the mark out of the device. -/
theorem OnDevice.write_not_persisted {own : Ledger} {top : Nat} (onDevice : OnDevice top s)
    (h : Inv own top s) {op : FsOp} (within : Within s op) (stores : ¬ StoresNothing s op)
    {res : FsResult} {s' : Fs} (next : fsStep s op = some (res, s')) : ¬ Persisted s' := by
  obtain ⟨own', top', kept⟩ := h.step within.1 within.2 next
  have low := kept.frame.low 0 (by decide)
  cases op with
  | write file offset data =>
      simp only [fsStep] at next
      cases next
      have same : Snfs.afterCreate s (.write file offset data) = s := rfl
      rw [same, onDevice.synced.blkBmap] at low
      intro persisted
      cases onDevice.empty.write h file offset within.1 within.2 with
      | inl nothing => exact stores nothing.2.2
      | inr marked => exact marked.1 (persisted.blkBmap.symm.trans low)
  | lookup _ | getAttrs _ | read _ _ _ | create _ _ | mkdir _ _ | readdir _ _ | copy _ _ _ _ =>
      exact absurd trivial stores

/-- In a run in which no `fs_write` marks a block the device holds the file system after every
call, and the first `fs_write` that marks one ends that. -/
theorem device_holds_files (data : 10 ≤ num) (unwrapped : num * blockSize < 2 ^ 32)
    (started : fsBoot num clock = some boot)
    (run : Run (Guarded (fun s e => Within s e.1 ∧ StoresNothing s e.1) FsNext) boot trace s) :
    Persisted s ∧ ∀ op res s', Within s op → FsNext s (op, res) s' →
      (Persisted s' ↔ StoresNothing s op) := by
  obtain ⟨inv₀, onDevice₀⟩ := fsBoot_onDevice data unwrapped started
  obtain ⟨own, top, inv, onDevice⟩ := run.invariant
    (I := fun s => ∃ own top, Inv own top s ∧ OnDevice top s) ⟨_, 2, inv₀, onDevice₀⟩
    (by
      rintro s ⟨op, res⟩ s' ⟨own, top, inv, onDevice⟩ ⟨⟨within, nothing⟩, next⟩
      exact onDevice.step inv within nothing next)
  refine ⟨onDevice.persisted inv, fun op res s' within next => ⟨fun persisted => ?_, fun nothing => ?_⟩⟩
  · by_contra stores
    exact onDevice.write_not_persisted inv within stores next persisted
  · obtain ⟨own', top', inv', onDevice'⟩ := onDevice.step inv within nothing next
    exact onDevice'.persisted inv'

end Runs

/-- A directory, a file in it, a write of no bytes and a copy of the file; then a write of one
byte. -/
theorem device_holds_files_until_write :
    ∃ trace s, fsAfter 16 (fun _ => 1) [.mkdir 1 [100], .create 2 [102], .write 3 0 [],
        .copy 0 0 [47, 100, 47, 102] [47, 100, 47, 103]] = some (trace, s) ∧ Persisted s ∧
      ∀ res s', FsNext s (.write 3 0 [7], res) s' → ¬ Persisted s' := by
  have boots : ((fsBoot 16 fun _ => 1).bind fun boot =>
      (execute fsStep boot [.mkdir 1 [100], .create 2 [102], .write 3 0 [],
        .copy 0 0 [47, 100, 47, 102] [47, 100, 47, 103]]).map fun r =>
          (decide (Meets fsStep (fun s op => Within s op ∧ StoresNothing s op) boot
            [.mkdir 1 [100], .create 2 [102], .write 3 0 [],
              .copy 0 0 [47, 100, 47, 102] [47, 100, 47, 103]]),
            decide (Within r.2 (.write 3 0 [7])), decide (StoresNothing r.2 (.write 3 0 [7])))) =
      some (true, true, false) := by decide +kernel
  obtain ⟨boot, started, facts⟩ := Option.bind_eq_some_iff.mp boots
  obtain ⟨⟨trace, s⟩, calls, facts⟩ := Option.map_eq_some_iff.mp facts
  simp only [Prod.mk.injEq] at facts
  obtain ⟨met, within, stores⟩ := facts
  obtain ⟨persisted, iff⟩ := device_holds_files (by decide) (by decide) started
    (run_of_execute calls (of_decide_eq_true met))
  refine ⟨trace, s, by rw [fsAfter, started]; exact calls, persisted, fun res s' next after => ?_⟩
  exact of_decide_eq_false stores ((iff _ res s' (of_decide_eq_true within) next).mp after)

def ReturnsZero : FsResult → Prop
  | .looked code _ => code = 0
  | .attrs attrs => attrs.isSome = true
  | .data bytes => bytes.isSome = true
  | .written ok => ok = true
  | .made id => id.isSome = true
  | .listed entries => entries.isSome = true
  | .copied ok => ok = true

/-- A file is made and one byte is written to it: its block is not marked on the device. -/
theorem device_misses_write :
    ¬ ∀ num clock trace op res s, 10 ≤ num → num * blockSize < 2 ^ 32 →
      FsRun num clock (trace ++ [(op, res)]) s → ReturnsZero res → Persisted s := by
  intro holds
  have facts : (fsAfter 16 (fun _ => 1) [.create 1 [102], .write 2 0 [7]]).map (fun r =>
      (decide (r.1.getLast? = some (.write 2 0 [7], .written true)), bmapIsset r.2.blkBmap 11,
        bmapIsset (reload r.2).blkBmap 11)) = some (true, true, false) := by decide +kernel
  obtain ⟨⟨trace, s⟩, calls, facts⟩ := Option.map_eq_some_iff.mp facts
  simp only [Prod.mk.injEq] at facts
  obtain ⟨last, marked, lost⟩ := facts
  obtain ⟨before, rfl⟩ := List.getLast?_eq_some_iff.mp (of_decide_eq_true last)
  have run := FsRun.of_calls calls (by simp [FsOp.Fits])
  have persisted := holds 16 _ before _ _ s (by decide) (by decide) run rfl
  rw [persisted.blkBmap, marked] at lost
  cases lost

end Snfs
