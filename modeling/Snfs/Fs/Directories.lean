import Snfs.Fs.Steps

/-!
`fsi_dir_search`, which leaves everything but the directory cache alone, and the
creation of an entry: the page it goes to, the inode it names and what it adds to
the directories on the device.
-/

namespace Snfs

open Slots

variable {own : Ledger} {top : Nat} {fs : Fs}

theorem loadDirPage_same {fs fs' : Fs} {dir b : Nat} {page : Block}
    (h : loadDirPage fs dir b = some (page, fs')) : SameButDirs fs fs' := by
  rw [loadDirPage] at h
  split at h
  · cases h
    rfl
  · split at h
    · cases h
    · cases h
      rfl

private theorem patchCached_same (fs : Fs) (cachedDir : Option (Fin dirCacheSize)) (page : Block)
    (i : Nat) : SameButDirs fs (patchCached fs cachedDir page i) := by
  unfold patchCached
  split
  · exact .refl fs
  · dsimp only
    split
    · exact .refl fs
    · rfl

private theorem searchPages_same (dir : Nat) (file : CString)
    (cachedDir : Option (Fin dirCacheSize))
    (fuel iblock num : Nat) (fs : Fs) :
    SameButDirs fs (searchPages dir file cachedDir fuel iblock num fs).2 := by
  induction fuel generalizing iblock num fs with
  | zero => exact .refl fs
  | succ fuel ih =>
      rw [searchPages]
      split
      · exact .refl fs
      · split
        · exact .refl fs
        · rename_i page fs' loaded
          have same := loadDirPage_same loaded
          split
          · exact same.trans (patchCached_same fs' cachedDir page _)
          · exact same.trans (ih _ _ fs')

theorem fsiDirSearch_same (fs : Fs) (dir : Nat) (file : CString) :
    SameButDirs fs (fsiDirSearch fs dir file).2 := by
  rw [fsiDirSearch]
  dsimp only
  split
  · exact searchPages_same dir file none _ 0 _ fs
  · rename_i s _
    have touched : SameButDirs fs (fs.touchDir s) := rfl
    split
    · exact touched
    · exact touched.trans (searchPages_same dir file (some s) _ 0 _ _)

/-- What `fs_create` and `fs_mkdir` check before they search. -/
structure Creatable (fs : Fs) (dir : Nat) (file : CString) : Prop where
  dir_lt : dir < itabSize
  nonempty : file ≠ []
  short : file.length < fsMaxFnameSz
  inUse : bmapIsset fs.inodeBmap dir = true
  isDir : (fs.inodeTab dir).type = .dir

/-- Nothing but a search of the directory has happened, if anything. -/
def Searched (fs : Fs) (dir : Nat) (file : CString) (fs' : Fs) : Prop :=
  fs' = fs ∨ (Creatable fs dir file ∧ fs' = (fsiDirSearch fs dir file).2)

theorem Searched.same {dir : Nat} {file : CString} {fs' : Fs} (h : Searched fs dir file fs') :
    SameButDirs fs fs' := by
  rcases h with rfl | ⟨-, rfl⟩
  · exact .refl fs'
  · exact fsiDirSearch_same fs dir file

/-- A creation gives up before it changes anything outside the directory cache, or the search
misses and the entry is added. -/
theorem fsMake_cases (type : Itype) (fs : Fs) (dir : Nat) (file : CString) :
    (∃ fs₁, fsMake type fs dir file = (none, fs₁) ∧ Searched fs dir file fs₁) ∨
    ∃ fs₁ finode idir blkBmap, Creatable fs dir file ∧ fsiDirSearch fs dir file = (none, fs₁) ∧
      fsiBmapFindFree fs₁.inodeBmap itabSize = some finode ∧
      growDir fs₁ (fs₁.inodeTab dir) = some (idir, blkBmap) ∧
      fsMake type fs dir file = (some finode, addEntry type fs₁ dir idir blkBmap file finode) := by
  by_cases out : itabSize ≤ dir
  · exact .inl ⟨fs, by rw [fsMake, if_pos out], .inl rfl⟩
  by_cases bad : file.length = 0 ∨ fsMaxFnameSz < file.length + 1
  · exact .inl ⟨fs, by rw [fsMake, if_neg out, if_pos bad], .inl rfl⟩
  by_cases unused : (!bmapIsset fs.inodeBmap dir) = true
  · exact .inl ⟨fs, by rw [fsMake, if_neg out, if_neg bad, if_pos unused], .inl rfl⟩
  by_cases other : (fs.inodeTab dir).type ≠ .dir
  · exact .inl ⟨fs, by rw [fsMake, if_neg out, if_neg bad, if_neg unused, if_pos other], .inl rfl⟩
  have ok : Creatable fs dir file := by
    refine ⟨by omega, ?_, ?_, by simpa using unused, by simpa using other⟩
    · rintro rfl
      exact bad (.inl rfl)
    · omega
  rw [fsMake, if_neg out, if_neg bad, if_neg unused, if_neg other]
  cases search : fsiDirSearch fs dir file with
  | mk found fs₁ =>
      have searched : Searched fs dir file fs₁ := .inr ⟨ok, by rw [search]⟩
      cases found with
      | some id => exact .inl ⟨fs₁, rfl, searched⟩
      | none =>
          cases free : fsiBmapFindFree fs₁.inodeBmap itabSize with
          | none =>
              refine .inl ⟨fs₁, ?_, searched⟩
              simp only [free]
          | some finode =>
              cases grow : growDir fs₁ (fs₁.inodeTab dir) with
              | none =>
                  refine .inl ⟨fs₁, ?_, searched⟩
                  simp only [free, grow]
              | some pair =>
                  refine .inr ⟨fs₁, finode, pair.1, pair.2, ok, rfl, free, grow, ?_⟩
                  simp only [free, grow]

/-- `idir` is the directory's inode with a block for its next entry, and what lies there on the
device is zero. -/
structure HasRoom (own : Ledger) (fs : Fs) (dir : Nat) (idir : Inode) : Prop where
  size : idir.size = (fs.inodeTab dir).size
  type : idir.type = .dir
  owned : OwnedInode own dir idir
  old : ∀ i, i < (fs.inodeTab dir).used → idir.blocks i = (fs.inodeTab dir).blocks i
  given : own (idir.blocks (idir.size / 512)) = some (dir, idir.size / 512)
  zero : ∀ t, idir.size % 512 ≤ t → t < 512 →
    (fs.blocks.content (idir.blocks (idir.size / 512))).get t = 0

/-- All directories together hold `top - 2` entries. -/
theorem TreeOk.numEntries_le (h : TreeOk top fs) {d : Nat} (hd : d < top)
    (isDir : (fs.inodeTab d).type = .dir) : numEntries fs d ≤ top - 2 := by
  have member : childIds fs d ∈ (List.range top).map (childIds fs) :=
    List.mem_map.mpr ⟨d, List.mem_range.mpr hd, rfl⟩
  have le := (List.sublist_flatten_of_mem member).length_le
  rw [← List.flatMap_def, h.children.length_eq, List.length_range'] at le
  simpa [childIds, isDir, dirEntries] using le

theorem TreeOk.size_eq (h : TreeOk top fs) {d : Nat} (hd : d < top)
    (isDir : (fs.inodeTab d).type = .dir) : (fs.inodeTab d).size = 16 * numEntries fs d := by
  have aligned := h.aligned d hd isDir
  simp only [numEntries, dentrySize] at aligned ⊢
  omega

theorem Inv.growDir (h : Inv own top fs) {dir : Nat} (hd : dir < top)
    (isDir : (fs.inodeTab dir).type = .dir) {idir : Inode} {blkBmap : Block} (room : Room fs 1)
    (grow : growDir fs (fs.inodeTab dir) = some (idir, blkBmap)) :
    ∃ own', own.Le own' ∧ Inv own' top { fs with blkBmap := blkBmap } ∧
      HasRoom own' { fs with blkBmap := blkBmap } dir idir ∧
      (∀ b, bmapIsset fs.blkBmap b = true → bmapIsset blkBmap b = true) ∧
      ∀ k, Room fs (k + 1) → Room { fs with blkBmap := blkBmap } k := by
  have table := h.inodes.table dir hd
  rw [Snfs.growDir] at grow
  by_cases full : (fs.inodeTab dir).size % blockSize = 0
  · rw [if_pos full] at grow
    cases found : fsiBmapFindFree fs.blkBmap fs.numBlocks with
    | none =>
        rw [found] at grow
        cases grow
    | some b =>
        rw [found] at grow
        cases grow
        obtain ⟨inside, clear, -⟩ := findFree_spec found
        have data := h.ledger.free_data clear
        have le := Ledger.le_give (h.ledger.unowned clear) dir ((fs.inodeTab dir).size / blockSize)
        have here : ((fs.inodeTab dir).setBlock ((fs.inodeTab dir).size / blockSize) b).blocks
            ((fs.inodeTab dir).size / 512) = b := by
          rw [Inode.setBlock_blocks, if_pos rfl]
        refine ⟨own.give b dir ((fs.inodeTab dir).size / blockSize), le,
          h.give hd clear inside (room.found found) _, ⟨rfl, isDir,
          (table.mono le).setBlock (Ledger.give_self own b dir _) (by omega), ?_, ?_, ?_⟩,
          fun _ set => bmapIsset_set_mono _ set,
          fun k more => more.alloc found rfl rfl⟩
        · intro i hi
          have lt := Inode.lt_used.mp hi
          simp only [blockSize] at full lt ⊢
          rw [Inode.setBlock_blocks, if_neg (by omega)]
        · rw [Inode.setBlock_size, here]
          exact Ledger.give_self own b dir _
        · intro t _ ht
          rw [Inode.setBlock_size, here]
          rw [show fs.blocks.content b = .zero from h.blocks.fresh b data inside clear]
          exact Buf.get_zero t
  · rw [if_neg full] at grow
    cases grow
    have last : (fs.inodeTab dir).size / 512 < (fs.inodeTab dir).used := by
      rw [Inode.lt_used]
      simp only [blockSize] at full
      omega
    refine ⟨own, .refl own, h, ⟨rfl, isDir, table, fun _ _ => rfl, table.owned_used last, ?_⟩,
      fun _ set => set, fun k more => more.mono (Nat.le_succ k)⟩
    intro t low ht
    exact h.tree.tail dir _ t hd isDir last ht (by simp only [blockSize]; omega)

/-- Appending to one of the lists appends to the concatenation, up to order. -/
private theorem flatMap_append_one {l : List Nat} {f g : Nat → List Nat} {d z : Nat}
    (nodup : l.Nodup) (member : d ∈ l) (other : ∀ x, x ∈ l → x ≠ d → g x = f x)
    (here : g d = f d ++ [z]) : (l.flatMap g).Perm (l.flatMap f ++ [z]) := by
  induction l with
  | nil => cases member
  | cons x l ih =>
      have nodup' := List.nodup_cons.mp nodup
      rw [List.flatMap_cons, List.flatMap_cons]
      rcases List.mem_cons.mp member with rfl | rest
      · have same : l.flatMap g = l.flatMap f := by
          refine List.flatMap_congr fun y hy => other y (List.mem_cons_of_mem d hy) ?_
          rintro rfl
          exact nodup'.1 hy
        rw [same, here, List.append_assoc, List.append_assoc]
        exact (List.perm_append_comm).append_left (f d)
      · have ne : x ≠ d := by
          rintro rfl
          exact nodup'.1 rest
        rw [other x List.mem_cons_self ne, List.append_assoc]
        exact (ih nodup'.2 rest fun y hy => other y (List.mem_cons_of_mem x hy)).append_left (f x)

section AddEntry
variable {dir : Nat} {idir : Inode} {file : CString} {type : Itype}

abbrev entryBlock (idir : Inode) : Nat := idir.blocks (idir.size / 512)

abbrev entryBlockPage (fs : Fs) (idir : Inode) (file : CString) (finode : Nat) : Block :=
  setEntry (fs.blocks.content (entryBlock idir)) (idir.size % blockSize / dentrySize) file finode

@[simp] theorem numBlocks_addEntry (type : Itype) (fs : Fs) (dir : Nat) (idir : Inode)
    (blkBmap : Block) (file : CString) (finode : Nat) :
    (addEntry type fs dir idir blkBmap file finode).numBlocks = fs.numBlocks := by
  rw [addEntry, numBlocks_store]
  exact Blocks.numBlocks_write _ _ _

theorem LedgerOk.content_addEntry (h : LedgerOk own fs) (inside : entryBlock idir < fs.numBlocks)
    (blkBmap : Block) (finode : Nat) {b : Nat} (data : 10 ≤ b) (hb : b < fs.numBlocks) :
    (addEntry type fs dir idir blkBmap file finode).blocks.content b =
      if b = entryBlock idir then entryBlockPage fs idir file finode
      else fs.blocks.content b := by
  have num : (blockWrite fs.blocks (entryBlock idir)
      (entryBlockPage fs idir file finode)).numBlocks = fs.numBlocks :=
    Blocks.numBlocks_write _ _ _
  rw [addEntry, Blocks.read_of_lt inside, Option.getD_some]
  refine (content_store ?_ ?_ ?_ data).trans ?_
  · exact h.unwrapped.write _ _
  · rw [Fs.numBlocks, num]
    exact h.data
  · rwa [Fs.numBlocks, num]
  · exact Blocks.content_write h.unwrapped inside _ hb

private theorem addEntry_inodeTab (small : idir.size + 16 < 2 ^ 32) (blkBmap : Block)
    (finode a : Nat) :
    (addEntry type fs dir idir blkBmap file finode).inodeTab a =
      if a = finode then fsiInodeInit type
      else if a = dir then { idir with size := idir.size + 16 } else fs.inodeTab a := by
  simp only [addEntry, fsiStoreFsdata, Function.update_apply, dentrySize, u32_of_lt small]

/-- What an added entry changes of the inodes, the bitmaps and the device. -/
structure EntryAdded (type : Itype) (top : Nat) (fs : Fs) (dir : Nat) (idir : Inode)
    (file : CString) (fs' : Fs) : Prop where
  numBlocks : fs'.numBlocks = fs.numBlocks
  blkBmap : fs'.blkBmap = fs.blkBmap
  blockCache : fs'.blockCache = fs.blockCache
  inodeCache : fs'.inodeCache = fs.inodeCache
  dirCache : fs'.dirCache = fs.dirCache
  inodeTab : ∀ a, fs'.inodeTab a = if a = top then fsiInodeInit type
    else if a = dir then { idir with size := idir.size + 16 } else fs.inodeTab a
  content : ∀ b, 10 ≤ b → b < fs.numBlocks → fs'.blocks.content b =
    if b = entryBlock idir then entryBlockPage fs idir file top else fs.blocks.content b

namespace EntryAdded
variable {fs' : Fs}

theorem type_old (h : EntryAdded type top fs dir idir file fs') (room : HasRoom own fs dir idir)
    (isDir : (fs.inodeTab dir).type = .dir) {a : Nat} (ha : a < top) :
    (fs'.inodeTab a).type = (fs.inodeTab a).type := by
  rw [h.inodeTab, if_neg (by omega)]
  split
  · rename_i same
    rw [same, isDir]
    exact room.type
  · rfl

theorem tab_other (h : EntryAdded type top fs dir idir file fs') {a : Nat} (ha : a < top)
    (ne : a ≠ dir) : fs'.inodeTab a = fs.inodeTab a := by
  rw [h.inodeTab, if_neg (by omega), if_neg ne]

theorem tab_dir (h : EntryAdded type top fs dir idir file fs') (hd : dir < top) :
    fs'.inodeTab dir = { idir with size := idir.size + 16 } := by
  rw [h.inodeTab, if_neg (by omega), if_pos rfl]

theorem tab_new (h : EntryAdded type top fs dir idir file fs') :
    fs'.inodeTab top = fsiInodeInit type := by
  rw [h.inodeTab, if_pos rfl]

/-- Another directory's page is not the page that the entry goes to. -/
theorem page_other (h : EntryAdded type top fs dir idir file fs') (inv : Inv own top fs)
    (room : HasRoom own fs dir idir) {d i : Nat} (hd : d < top) (ne : d ≠ dir)
    (hi : i < (fs.inodeTab d).used) :
    fs'.blocks.content ((fs.inodeTab d).blocks i) =
      fs.blocks.content ((fs.inodeTab d).blocks i) := by
  have given := inv.dir_owned hd hi
  have apart : (fs.inodeTab d).blocks i ≠ entryBlock idir := by
    intro same
    rw [same, room.given] at given
    cases given
    exact ne rfl
  rw [h.content _ (inv.owned_range given).1 (inv.owned_range given).2, if_neg apart]

/-- The page of the directory itself: an earlier page, or the last one with the entry. -/
theorem page_dir (h : EntryAdded type top fs dir idir file fs') (inv : Inv own top fs)
    (room : HasRoom own fs dir idir) {i : Nat} (hi : i ≤ idir.size / 512) :
    fs'.blocks.content (idir.blocks i) =
      if i = idir.size / 512 then entryBlockPage fs idir file top
      else fs.blocks.content (idir.blocks i) := by
  by_cases last : i = idir.size / 512
  · subst last
    have range := inv.owned_range room.given
    rw [h.content _ range.1 range.2, if_pos rfl, if_pos rfl]
  · have given := room.owned.owned_used (i := i) (Inode.lt_used.mpr (by omega))
    have range := inv.owned_range given
    have apart : idir.blocks i ≠ entryBlock idir := by
      intro same
      rw [same, room.given] at given
      simp only [Option.some.injEq, Prod.mk.injEq, true_and] at given
      exact last given.symm
    rw [h.content _ range.1 range.2, if_neg apart, if_neg last]

theorem dirEntries_other (h : EntryAdded type top fs dir idir file fs') (inv : Inv own top fs)
    (room : HasRoom own fs dir idir) {d : Nat} (hd : d < top) (ne : d ≠ dir)  :
    dirEntries fs' d = dirEntries fs d := by
  have tab := h.tab_other hd ne
  have count : numEntries fs' d = numEntries fs d := by rw [numEntries, numEntries, tab]
  rw [dirEntries, dirEntries, count]
  refine List.map_congr_left fun k hk => ?_
  have hk := List.mem_range.mp hk
  have inside : k / dirPageEntries < (fs.inodeTab d).used := by
    simp only [numEntries, dentrySize] at hk
    rw [Inode.lt_used]
    simp only [dirPageEntries]
    omega
  simp only [entryAt, entryPage, tab, h.page_other inv room hd ne inside]

private theorem numEntries_dir (h : EntryAdded type top fs dir idir file fs') (hd : dir < top)
    (room : HasRoom own fs dir idir) : numEntries fs' dir = numEntries fs dir + 1 := by
  rw [numEntries, numEntries, h.tab_dir hd, ← room.size]
  simp only [dentrySize]
  omega

theorem dirEntries_dir (h : EntryAdded type top fs dir idir file fs') (inv : Inv own top fs)
    (room : HasRoom own fs dir idir) (hd : dir < top) (isDir : (fs.inodeTab dir).type = .dir)
    (short : file.length < fsMaxFnameSz) (noZero : (0 : UInt8) ∉ file) :
    dirEntries fs' dir = dirEntries fs dir ++ [(file, top)] := by
  have le := inv.inodes.le_size
  have aligned : idir.size = 16 * numEntries fs dir := by
    rw [room.size, inv.tree.size_eq hd isDir]
  obtain ⟨n, hn⟩ : ∃ n, n = numEntries fs dir := ⟨_, rfl⟩
  have slot : idir.size % blockSize / dentrySize = n % dirPageEntries := by
    simp only [blockSize, dentrySize, dirPageEntries]
    omega
  have last : idir.size / 512 = n / 32 := by omega
  rw [dirEntries, dirEntries, h.numEntries_dir hd room, ← hn, List.range_succ, List.map_append,
    List.map_singleton]
  congr 1
  · refine List.map_congr_left fun k hk => ?_
    have hk := List.mem_range.mp hk
    have used : k / 32 < (fs.inodeTab dir).used := by
      rw [Inode.lt_used, ← room.size]
      omega
    have page := h.page_dir inv room (i := k / 32) (by omega)
    have old := room.old _ used
    simp only [entryAt, entryPage, h.tab_dir hd, dirPageEntries, page]
    by_cases same : k / 32 = idir.size / 512
    · have others : ∀ t, t < dentrySize →
          (setEntry (fs.blocks.content (entryBlock idir)) (n % 32) file top).get
            (dentrySize * (k % 32) + t) =
              (fs.blocks.content (entryBlock idir)).get (dentrySize * (k % 32) + t) :=
        get_setEntry_other short (by omega) (by simp only [dirPageEntries]; omega)
      rw [if_pos same, entryBlockPage, slot, dirPageEntries, entryName_congr others,
        entryInodeid_congr others, ← old, same]
    · rw [if_neg same, old]
  · have page := h.page_dir inv room (Nat.le_refl _)
    rw [if_pos rfl] at page
    simp only [entryAt, entryPage, h.tab_dir hd, dirPageEntries, ← last, page]
    rw [entryBlockPage, slot, entryName_setEntry short noZero (Nat.mod_lt _ (by decide)),
      entryInodeid_setEntry (Nat.mod_lt _ (by decide))
        (Nat.lt_of_le_of_lt (Nat.le_trans (Nat.le_refl top) le) (by decide))]

theorem dirEntries_new (h : EntryAdded type top fs dir idir file fs') :
    dirEntries fs' top = [] := by
  simp [dirEntries, numEntries, h.tab_new, fsiInodeInit]

theorem childIds (h : EntryAdded type top fs dir idir file fs') (inv : Inv own top fs)
    (room : HasRoom own fs dir idir) (hd : dir < top) (isDir : (fs.inodeTab dir).type = .dir)
    (short : file.length < fsMaxFnameSz) (noZero : (0 : UInt8) ∉ file) :
    (∀ d, d < top → d ≠ dir → childIds fs' d = childIds fs d) ∧
      childIds fs' dir = childIds fs dir ++ [top] ∧ childIds fs' top = [] := by
  refine ⟨?_, ?_, ?_⟩
  · intro d hd' ne
    rw [Snfs.childIds, Snfs.childIds, h.type_old room isDir hd', h.dirEntries_other inv room hd' ne]
  · rw [Snfs.childIds, Snfs.childIds, h.type_old room isDir hd, if_pos isDir, if_pos isDir,
      h.dirEntries_dir inv room hd isDir short noZero, List.map_append, List.map_singleton]
  · rw [Snfs.childIds, h.dirEntries_new]
    simp

theorem tree (h : EntryAdded type top fs dir idir file fs') (inv : Inv own top fs)
    (room : HasRoom own fs dir idir) (hd : dir < top) (isDir : (fs.inodeTab dir).type = .dir)
    (short : file.length < fsMaxFnameSz) (noZero : (0 : UInt8) ∉ file) : TreeOk (top + 1) fs' := by
  have two := inv.inodes.two_le
  obtain ⟨others, here, new⟩ := h.childIds inv room hd isDir short noZero
  -- an inode of the larger table is an old one, the directory or the new one
  have split (d : Nat) (lt : d < top + 1) : (d < top ∧ d ≠ dir) ∨ d = dir ∨ d = top := by omega
  refine ⟨?_, ?_, ?_, ?_⟩
  · intro d lt isDir'
    rcases split d lt with ⟨old, ne⟩ | rfl | rfl
    · rw [h.type_old room isDir old] at isDir'
      rw [h.tab_other old ne]
      exact inv.tree.aligned d old isDir'
    · have aligned := inv.tree.aligned d hd isDir
      rw [← room.size] at aligned
      rw [h.tab_dir hd]
      simp only [dentrySize] at aligned ⊢
      omega
    · rw [h.tab_new]
      rfl
  · intro d a lt member
    rcases split d lt with ⟨old, ne⟩ | rfl | rfl
    · rw [others d old ne] at member
      exact inv.tree.order d a old member
    · rw [here, List.mem_append, List.mem_singleton] at member
      rcases member with old | rfl
      · exact inv.tree.order d a hd old
      · exact hd
    · rw [new] at member
      cases member
  · have range : List.range' 2 (top + 1 - 2) = List.range' 2 (top - 2) ++ [top] := by
      rw [show top + 1 - 2 = (top - 2) + 1 by omega, List.range'_1_concat]
      congr 2
      omega
    rw [List.range_succ, List.flatMap_append, List.flatMap_singleton, new, List.append_nil, range]
    refine (flatMap_append_one List.nodup_range (List.mem_range.mpr hd) ?_ here).trans ?_
    · exact fun d lt ne => others d (List.mem_range.mp lt) ne
    · exact inv.tree.children.append_right [top]
  · intro d i t lt isDir' hi ht behind
    rcases split d lt with ⟨old, ne⟩ | rfl | rfl
    · rw [h.type_old room isDir old] at isDir'
      rw [h.tab_other old ne] at hi behind ⊢
      rw [h.page_other inv room old ne hi]
      exact inv.tree.tail d i t old isDir' hi ht behind
    · have aligned := inv.tree.aligned d hd isDir
      rw [← room.size] at aligned
      rw [h.tab_dir hd] at hi behind ⊢
      have last : i = idir.size / 512 := by
        rw [Inode.lt_used] at hi
        simp only [blockSize, dentrySize] at behind ht hi aligned
        omega
      simp only [h.page_dir inv room (Nat.le_of_eq last), if_pos last]
      simp only [blockSize, dentrySize] at behind ht aligned
      rw [entryBlockPage, get_setEntry_outside short ht
        (.inr (by simp only [blockSize, dentrySize]; omega))]
      exact room.zero t (by omega) ht
    · rw [h.tab_new] at hi
      simp at hi

theorem inv (h : EntryAdded type top fs dir idir file fs') (inv : Inv own top fs)
    (room : HasRoom own fs dir idir) (hd : dir < top) (isDir : (fs.inodeTab dir).type = .dir)
    (short : file.length < fsMaxFnameSz) (noZero : (0 : UInt8) ∉ file) (free : top < itabSize)
    (made : type = .dir ∨ type = .file) (unwrapped : fs'.blocks.Unwrapped)
    (inodeBmap : ∀ a, bmapIsset fs'.inodeBmap a = (bmapIsset fs.inodeBmap a || decide (top = a))) :
    Inv own (top + 1) fs' := by
  have two := inv.inodes.two_le
  have sizes := inv.tree.size_eq hd isDir
  have entries := inv.tree.numEntries_le hd isDir
  have types (a : Nat) (ha : a < top) := h.type_old room isDir ha
  have small : idir.size + 16 ≤ 5120 := by
    simp only [itabSize] at free
    rw [room.size]
    omega
  refine ⟨⟨h.numBlocks ▸ inv.ledger.data, unwrapped, ?_, ?_⟩, ⟨by omega, free, ?_, ?_, ?_, ?_, ?_,
    ?_, ?_, ?_, ?_⟩, ⟨?_, ?_, ?_, ?_⟩, h.tree inv room hd isDir short noZero⟩
  · intro b low
    rw [h.blkBmap]
    exact inv.ledger.reserved b low
  · intro b a i given
    obtain ⟨data, lt, set, used⟩ := inv.ledger.given b a i given
    exact ⟨data, h.numBlocks ▸ lt, h.blkBmap ▸ set, by rw [inodeBmap, used, Bool.true_or]⟩
  · intro a
    rw [inodeBmap, inv.inodes.inUse, ← Bool.decide_or]
    exact decide_eq_decide.mpr (by omega)
  · rw [types 0 (by omega)]
    exact inv.inodes.zero
  · rw [types 1 (by omega)]
    exact inv.inodes.root
  · intro a low lt
    by_cases old : a < top
    · rw [types a old]
      exact inv.inodes.kind a low old
    · rw [show a = top by omega, h.tab_new]
      exact made
  · intro a lt
    by_cases new : a = top
    · rw [new, h.tab_new]
      exact .init own top type
    · by_cases here : a = dir
      · rw [here, h.tab_dir hd]
        refine room.owned.withSize small fun i hi => ?_
        have range (given : own (idir.blocks i) = some (dir, i)) : idir.blocks i ≠ 0 := by
          have := (inv.owned_range given).1
          omega
        rw [lt_offsetToBlocks] at hi
        have aligned := inv.tree.aligned dir hd isDir
        simp only [dentrySize, ← room.size] at aligned
        by_cases last : i = idir.size / 512
        · exact range (last ▸ room.given)
        · exact range (room.owned.owned_used (Inode.lt_used.mpr (by omega)))
      · rw [h.tab_other (by omega) here]
        exact inv.inodes.table a (by omega)
  · intro s
    rw [h.inodeCache]
    exact Nat.lt_succ_of_lt (inv.inodes.key_lt s)
  · intro s
    rw [h.inodeCache]
    exact inv.inodes.cached s
  · intro s
    rw [h.inodeCache, types _ (inv.inodes.key_lt s)]
    exact inv.inodes.cachedType s
  · intro s
    rw [h.inodeCache, types _ (inv.inodes.key_lt s)]
    exact inv.inodes.dirtyFile s
  · intro b data
    rw [h.blockCache]
    exact inv.blocks.single b data
  · intro b data lt
    rw [h.numBlocks] at lt
    rw [h.blockCache]
    by_cases here : b = entryBlock idir
    · -- the page written is not cached
      intro s key
      exact absurd (key.trans here) (inv.dir_absent room.given isDir s)
    · refine (inv.blocks.clean b data lt).store_congr ?_
      rw [h.content b data lt, if_neg here]
  · intro s
    rw [h.blockCache]
    refine (inv.blocks.slot s).imp_right fun held => ?_
    obtain ⟨a, i, given, isFile⟩ := held
    exact ⟨a, i, given, (types a (inv.owner_lt given)).trans isFile⟩
  · intro b data lt clear
    rw [h.numBlocks] at lt
    rw [h.blkBmap] at clear
    have here : b ≠ entryBlock idir := by
      intro same
      have none := inv.ledger.unowned clear
      rw [same, room.given] at none
      cases none
    rw [h.content b data lt, if_neg here]
    exact inv.blocks.fresh b data lt clear

end EntryAdded

end AddEntry

/-- A successful creation: the inode `top` is new and the directory has one entry more. -/
structure Made (own own' : Ledger) (top : Nat) (type : Itype) (fs : Fs) (dir : Nat)
    (file : CString) (fs' : Fs) : Prop where
  creatable : Creatable fs dir file
  dir_lt : dir < top
  free : top < itabSize
  freeInode : fsiBmapFindFree fs.inodeBmap itabSize = some top
  grown : ∃ idir, growDir fs (fs.inodeTab dir) = some (idir, fs'.blkBmap) ∧
    fs'.inodeTab dir = { idir with size := idir.size + 16 }
  missed : ∃ fs₁, fsiDirSearch fs dir file = (none, fs₁) ∧ fs'.dirCache = fs₁.dirCache
  le : own.Le own'
  inv : Inv own' (top + 1) fs'
  numBlocks : fs'.numBlocks = fs.numBlocks
  blockCache : fs'.blockCache = fs.blockCache
  inodeCache : fs'.inodeCache = fs.inodeCache
  bmap_mono : ∀ b, bmapIsset fs.blkBmap b = true → bmapIsset fs'.blkBmap b = true
  room : ∀ k, Room fs (k + 1) → Room fs' k
  tab_other : ∀ a, a < top → a ≠ dir → fs'.inodeTab a = fs.inodeTab a
  tab_new : fs'.inodeTab top = fsiInodeInit type
  type_dir : (fs'.inodeTab dir).type = .dir
  size_dir : (fs'.inodeTab dir).size = (fs.inodeTab dir).size + 16
  entries_other : ∀ d, d < top → d ≠ dir → dirEntries fs' d = dirEntries fs d
  entries_dir : dirEntries fs' dir = dirEntries fs dir ++ [(file, top)]
  entries_new : dirEntries fs' top = []
  content : ∀ b, 10 ≤ b → b < fs.numBlocks →
    b ≠ (fs'.inodeTab dir).blocks ((fs.inodeTab dir).size / 512) →
      fs'.blocks.content b = fs.blocks.content b

theorem Made.type_old {own own' : Ledger} {type : Itype} {dir : Nat} {file : CString} {fs' : Fs}
    (h : Made own own' top type fs dir file fs') {a : Nat} (ha : a < top) :
    (fs'.inodeTab a).type = (fs.inodeTab a).type := by
  by_cases here : a = dir
  · rw [here, h.type_dir, h.creatable.isDir]
  · rw [h.tab_other a ha here]

theorem Made.freeBlock {own own' : Ledger} {type : Itype} {dir : Nat} {file : CString} {fs' : Fs}
    (h : Made own own' top type fs dir file fs') :
    (growDir fs (fs.inodeTab dir)).isSome = true := by
  obtain ⟨idir, grow, -⟩ := h.grown
  rw [grow]
  rfl

theorem Made.old_page {own own' : Ledger} {type : Itype} {dir : Nat} {file : CString} {fs' : Fs}
    (h : Made own own' top type fs dir file fs') {i : Nat} (hi : i < (fs.inodeTab dir).used) :
    i < (fs'.inodeTab dir).used ∧ (fs'.inodeTab dir).blocks i = (fs.inodeTab dir).blocks i := by
  rw [Inode.lt_used] at hi ⊢
  have size := h.size_dir
  refine ⟨by omega, ?_⟩
  obtain ⟨idir, grow, tab⟩ := h.grown
  rw [tab]
  rw [growDir] at grow
  split at grow
  · rename_i full
    obtain ⟨b, -, same⟩ := Option.map_eq_some_iff.mp grow
    simp only [blockSize] at full
    rw [← (Prod.mk.inj same).1]
    refine (Inode.setBlock_blocks _ _ _ _).trans (if_neg ?_)
    simp only [blockSize]
    omega
  · rw [← (Prod.mk.inj (Option.some.inj grow)).1]

/-- A block that a creation marks is the page that the entry went to. -/
theorem Made.marks {own own' : Ledger} {type : Itype} {dir : Nat} {file : CString} {fs' : Fs}
    (h : Made own own' top type fs dir file fs') (room : Room fs 1) {b : Nat}
    (set : bmapIsset fs'.blkBmap b = true) :
    bmapIsset fs.blkBmap b = true ∨ (fs.inodeTab dir).size % 512 = 0 ∧
      (fs'.inodeTab dir).blocks ((fs.inodeTab dir).size / 512) = b := by
  obtain ⟨idir, grow, tab⟩ := h.grown
  rw [growDir] at grow
  split at grow
  · rename_i full
    obtain ⟨c, found, same⟩ := Option.map_eq_some_iff.mp grow
    simp only [Prod.mk.injEq] at same
    obtain ⟨rfl, bmap⟩ := same
    rw [← bmap, bmapIsset_set (room.found found), Bool.or_eq_true, decide_eq_true_iff] at set
    refine set.imp_right fun here => ⟨full, ?_⟩
    rw [tab, ← here]
    exact (Inode.setBlock_blocks _ _ _ _).trans (if_pos rfl)
  · simp only [Option.some.injEq, Prod.mk.injEq] at grow
    rw [← grow.2] at set
    exact .inl set

theorem Made.page {own own' : Ledger} {type : Itype} {dir : Nat} {file : CString} {fs' : Fs}
    (h : Made own own' top type fs dir file fs') :
    numEntries fs' dir = numEntries fs dir + 1 ∧
      (fs'.inodeTab dir).blocks ((fs.inodeTab dir).size / 512) =
        (fs'.inodeTab dir).blocks (numEntries fs dir / dirPageEntries) := by
  constructor
  · rw [numEntries, numEntries, h.size_dir]
    simp only [dentrySize]
    omega
  · congr 1
    simp only [numEntries, dentrySize, dirPageEntries]
    omega

theorem Made.lblk {own own' : Ledger} {type : Itype} {dir : Nat} {file : CString} {fs' : Fs}
    (h : Made own own' top type fs dir file fs') {b : Nat} (data : 10 ≤ b) (lt : b < fs.numBlocks)
    (ne : b ≠ (fs'.inodeTab dir).blocks ((fs.inodeTab dir).size / 512)) :
    fs'.lblk b = fs.lblk b := by
  rw [Fs.lblk, h.blockCache]
  exact Table.view_store_congr _ (h.content b data lt ne)

/-- The page that the entry went to belongs to the directory. -/
theorem Made.ne_page {own own' : Ledger} {type : Itype} {dir : Nat} {file : CString} {fs' : Fs}
    (h : Made own own' top type fs dir file fs') {b a i : Nat} (given : own b = some (a, i))
    (ne : a ≠ dir) : b ≠ (fs'.inodeTab dir).blocks ((fs.inodeTab dir).size / 512) := by
  have page : (fs.inodeTab dir).size / 512 < (fs'.inodeTab dir).used := by
    rw [Inode.lt_used, h.size_dir]
    omega
  have owned := (h.inv.inodes.table dir (Nat.lt_succ_of_lt h.dir_lt)).owned_used page
  rintro rfl
  rw [h.le _ _ given] at owned
  cases owned
  exact ne rfl

theorem Inv.firstFree (h : Inv own top fs) {finode : Nat}
    (found : fsiBmapFindFree fs.inodeBmap itabSize = some finode) : finode = top := by
  obtain ⟨-, clear, least⟩ := findFree_spec found
  rw [h.inodes.inUse] at clear
  have low := of_decide_eq_false clear
  rcases Nat.lt_or_eq_of_le (Nat.not_lt.mp low) with lt | eq
  · have set := least top lt
    rw [h.inodes.inUse] at set
    exact absurd (of_decide_eq_true set) (Nat.lt_irrefl top)
  · exact eq.symm

structure Entered (own own' : Ledger) (top : Nat) (type : Itype) (fs : Fs) (dir : Nat)
    (file : CString) (idir : Inode) (blkBmap : Block) : Prop where
  dir_lt : dir < top
  free : top < itabSize
  le : own.Le own'
  grown : Inv own' top { fs with blkBmap := blkBmap }
  room : HasRoom own' { fs with blkBmap := blkBmap } dir idir
  marked : ∀ b, bmapIsset fs.blkBmap b = true → bmapIsset blkBmap b = true
  rest : ∀ k, Room fs (k + 1) → Room { fs with blkBmap := blkBmap } k
  added : EntryAdded type top { fs with blkBmap := blkBmap } dir idir file
    (addEntry type fs dir idir blkBmap file top)
  inv : Inv own' (top + 1) (addEntry type fs dir idir blkBmap file top)

theorem Inv.addEntry (h : Inv own top fs) {type : Itype} (made : type = .dir ∨ type = .file)
    {dir : Nat} {file : CString} (ok : Creatable fs dir file) (noZero : (0 : UInt8) ∉ file)
    (room : Room fs 1) (free : top < itabSize) {idir : Inode} {blkBmap : Block}
    (grow : Snfs.growDir fs (fs.inodeTab dir) = some (idir, blkBmap)) :
    ∃ own', Entered own own' top type fs dir file idir blkBmap := by
  have hd : dir < top := h.lt_top ok.inUse
  obtain ⟨own', le, h₂, hasRoom, marked, rest⟩ := h.growDir hd ok.isDir room grow
  have range := h₂.owned_range hasRoom.given
  have sizes := h.tree.size_eq hd ok.isDir
  have entries := h.tree.numEntries_le hd ok.isDir
  have size : idir.size = (fs.inodeTab dir).size := hasRoom.size
  have small : idir.size + 16 < 2 ^ 32 := by
    simp only [itabSize] at free
    omega
  have added : EntryAdded type top { fs with blkBmap := blkBmap } dir idir file
      (Snfs.addEntry type fs dir idir blkBmap file top) :=
    ⟨numBlocks_addEntry _ _ _ _ _ _ _, rfl, rfl, rfl, rfl,
      addEntry_inodeTab small blkBmap top, fun b data lt =>
        h₂.ledger.content_addEntry range.2 blkBmap top data lt⟩
  exact ⟨own', hd, free, le, h₂, hasRoom, marked, rest, added,
    added.inv h₂ hasRoom hd ok.isDir ok.short noZero free made
      (unwrapped_store (h₂.ledger.unwrapped.write _ _))
      fun a => bmapIsset_set (Nat.lt_trans free (by decide)) a⟩

theorem Inv.fsMake (h : Inv own top fs) (type : Itype) (made : type = .dir ∨ type = .file)
    (dir : Nat) {file : CString} (noZero : (0 : UInt8) ∉ file) (room : Room fs 1) :
    (∃ fs', fsMake type fs dir file = (none, fs') ∧ Searched fs dir file fs') ∨
    ∃ own' fs', fsMake type fs dir file = (some top, fs') ∧
      Made own own' top type fs dir file fs' := by
  rcases fsMake_cases type fs dir file with stop | ⟨fs₁, finode, idir, blkBmap, ok, search, found,
    grow, result⟩
  · exact .inl stop
  have same : SameButDirs fs fs₁ := by
    have same := fsiDirSearch_same fs dir file
    rwa [search] at same
  have h₁ := same.inv h
  obtain rfl := h₁.firstFree found
  have tab : fs₁.inodeTab = fs.inodeTab := by rw [same]
  have isDir₁ : (fs₁.inodeTab dir).type = .dir := by rw [tab, ok.isDir]
  have ok₁ : Creatable fs₁ dir file :=
    ⟨ok.dir_lt, ok.nonempty, ok.short, by rw [same]; exact ok.inUse, isDir₁⟩
  have room₁ : Room fs₁ 1 := room.congr (by rw [same]; rfl) (by rw [same])
  obtain ⟨own', entered⟩ := h₁.addEntry made ok₁ noZero room₁ (findFree_spec found).1 grow
  have hd := entered.dir_lt
  have h₂ := entered.grown
  have hasRoom := entered.room
  have added := entered.added
  have size : idir.size = (fs₁.inodeTab dir).size := hasRoom.size
  have entriesSame (d : Nat) :
      dirEntries { fs₁ with blkBmap := blkBmap } d = dirEntries fs d := by
    rw [same]
    rfl
  refine .inr ⟨own', _, result, ok, hd, entered.free, ?_, ?_, ⟨fs₁, search, added.dirCache⟩,
    entered.le, entered.inv, ?_, ?_, ?_, ?_, ?_, ?_, added.tab_new, ?_, ?_, ?_, ?_,
    added.dirEntries_new, ?_⟩
  · rw [← found, same]
  · refine ⟨idir, ?_, added.tab_dir hd⟩
    rw [added.blkBmap, ← tab, ← grow]
    rw [same]
    rfl
  · rw [added.numBlocks, same]
    rfl
  · rw [added.blockCache, same]
  · rw [added.inodeCache, same]
  · intro b set
    rw [added.blkBmap]
    exact entered.marked b (by rw [same]; exact set)
  · intro k more
    exact (entered.rest k (more.congr (by rw [same]; rfl) (by rw [same]))).congr added.numBlocks
      added.blkBmap
  · intro a lt ne
    rw [added.tab_other lt ne, ← tab]
  · rw [added.tab_dir hd]
    exact hasRoom.type
  · rw [added.tab_dir hd, ← tab, ← size]
  · intro d lt ne
    rw [added.dirEntries_other h₂ hasRoom lt ne, entriesSame]
  · rw [added.dirEntries_dir h₂ hasRoom hd isDir₁ ok.short noZero, entriesSame]
  · intro b data lt ne
    have num : fs₁.numBlocks = fs.numBlocks := by
      rw [same]
      rfl
    have blocks : fs₁.blocks = fs.blocks := by rw [same]
    rw [added.tab_dir hd, ← tab, ← size] at ne
    rw [added.content b data (by rw [← num] at lt; exact lt), if_neg ne, ← blocks]

end Snfs
