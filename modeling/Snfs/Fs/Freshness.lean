import Snfs.Fs.Calm

/-!
When the caches show the directories as they lie on the device. A creation
writes the page of the new entry to the device and refreshes neither the
directory cache nor the inode cache, so they stay true only while every entry
goes to a page that is not cached: the first page of an empty directory. In such
states `fsi_dir_search` and `fs_readdir` give what the device holds.

The relation `Q` says which copies of a directory's inode may stand in the inode
cache beside the table's.
-/

namespace Snfs

open Slots

/-- The search of a directory as it lies on the device. -/
def plainSearch (fs : Fs) (dir : Nat) (name : CString) : Option Nat :=
  ((dirEntries fs dir).find? fun e => e.1 == name).map Prod.snd

/-- The entry of the directory cache shows the one page of a directory. -/
structure HoldsPage (fs : Fs) (e : DirCacheEntry) : Prop where
  isDir : IsDir fs e.dirNum
  size : (fs.inodeTab e.dirNum).size = 16
  block : e.blockNum = (fs.inodeTab e.dirNum).blocks 0
  page : e.entries = fs.blocks.content e.blockNum

structure DirsFresh (Q : Inode → Inode → Prop) (fs : Fs) : Prop where
  size : ∀ d, IsDir fs d → (fs.inodeTab d).size = 0 ∨ (fs.inodeTab d).size = 16
  slot : ∀ s, (fs.dirCache s).dirNum = 0 ∨ HoldsPage fs (fs.dirCache s)
  copy : ∀ s, IsDir fs (fs.inodeCache s).key →
    Q (fs.inodeCache s).val (fs.inodeTab (fs.inodeCache s).key)

variable {own own' : Ledger} {top : Nat} {fs fs' : Fs} {d : Nat} {Q : Inode → Inode → Prop}

theorem touchDir_slot (fs : Fs) (s t : Fin dirCacheSize) :
    ∃ time, (fs.touchDir s).dirCache t = { fs.dirCache t with lastAccess := time } := by
  simp only [Fs.touchDir]
  by_cases here : t = s
  · subst here
    exact ⟨fs.now, Function.update_self _ _ _⟩
  · exact ⟨(fs.dirCache t).lastAccess, Function.update_of_ne here _ _⟩

theorem of_findDirSlot {p : DirCacheEntry → Bool} {s : Fin dirCacheSize}
    (found : findDirSlot fs p = some s) : p (fs.dirCache s) = true :=
  (Fin.find?_eq_some_iff.mp found).1

namespace DirsFresh

theorem holds (fresh : DirsFresh Q fs) (h : Inv own top fs) (isDir : IsDir fs d)
    {s : Fin dirCacheSize} (here : (fs.dirCache s).dirNum = d) :
    (fs.inodeTab d).size = 16 ∧ (fs.dirCache s).blockNum = (fs.inodeTab d).blocks 0 ∧
      (fs.dirCache s).entries = fs.blocks.content ((fs.inodeTab d).blocks 0) := by
  rcases fresh.slot s with zero | holds
  · exact absurd (here.symm.trans zero) (h.dir_ne_zero isDir)
  · have block := holds.block
    rw [here] at block
    exact ⟨here ▸ holds.size, block, block ▸ holds.page⟩

theorem browsed (fresh : DirsFresh Q fs) (browsed : Browsed fs fs')
    (slot : ∀ s, (fs'.dirCache s).dirNum = 0 ∨ HoldsPage fs (fs'.dirCache s)) :
    DirsFresh Q fs' := by
  have key := browsed.key
  have val := browsed.val
  rw [browsed.rest]
  refine ⟨fresh.size, fun s => ?_, fun s => ?_⟩
  · exact (slot s).imp_right fun holds => ⟨holds.isDir, holds.size, holds.block, holds.page⟩
  · rw [key, val]
    exact fresh.copy s

theorem touchDir (fresh : DirsFresh Q fs) (s : Fin dirCacheSize) : DirsFresh Q (fs.touchDir s) := by
  refine fresh.browsed (.of_same rfl) fun t => ?_
  obtain ⟨time, slot⟩ := touchDir_slot fs s t
  rw [slot]
  exact (fresh.slot t).imp_right fun holds => ⟨holds.isDir, holds.size, holds.block, holds.page⟩

theorem addDirAt (fresh : DirsFresh Q fs) (isDir : IsDir fs d) (size : (fs.inodeTab d).size = 16)
    (v : Fin dirCacheSize) : DirsFresh Q (Snfs.addDirAt fs v d ((fs.inodeTab d).blocks 0)
      (fs.blocks.content ((fs.inodeTab d).blocks 0))) := by
  refine fresh.browsed (.of_same rfl) fun t => ?_
  simp only [Snfs.addDirAt]
  by_cases here : t = v
  · subst here
    rw [Function.update_self]
    exact .inr ⟨isDir, size, rfl, rfl⟩
  · rw [Function.update_of_ne here]
    exact fresh.slot t

theorem loadDirPage (fresh : DirsFresh Q fs) (h : Inv own top fs) (isDir : IsDir fs d)
    (size : (fs.inodeTab d).size = 16) :
    ∃ fs', Snfs.loadDirPage fs d ((fs.inodeTab d).blocks 0) =
        some (fs.blocks.content ((fs.inodeTab d).blocks 0), fs') ∧
      SameButDirs fs fs' ∧ DirsFresh Q fs' := by
  have used : 0 < (fs.inodeTab d).used := Inode.lt_used.mpr (by omega)
  have range := h.owned_range (h.dir_owned (h.isDir_iff.mp isDir).1 used)
  rw [Snfs.loadDirPage]
  split
  · rename_i s found
    have here := of_findDirSlot found
    simp only [Bool.and_eq_true, beq_iff_eq] at here
    refine ⟨fs.touchDir s, ?_, rfl, fresh.touchDir s⟩
    rw [(fresh.holds h isDir here.1).2.2]
  · rw [Blocks.read_of_lt range.2]
    exact ⟨_, rfl, rfl, fresh.addDirAt isDir size _⟩

theorem calm (fresh : DirsFresh Q fs) (h : Inv own top fs) (calm : Calm top fs fs')
    (refl : ∀ c, Q c c) : DirsFresh Q fs' := by
  refine ⟨fun d dir => ?_, fun s => ?_, DirCopies.calm fresh.copy calm refl⟩
  · have dir := calm.isDir.mp dir
    rw [calm.dir d dir.2]
    exact fresh.size d dir
  · rw [calm.dirCache]
    refine (fresh.slot s).imp_right fun holds => ?_
    have same := calm.dir _ holds.isDir.2
    refine ⟨calm.isDir.mpr holds.isDir, same ▸ holds.size, same ▸ holds.block, ?_⟩
    have used : 0 < (fs.inodeTab (fs.dirCache s).dirNum).used :=
      Inode.lt_used.mpr (by rw [holds.size]; decide)
    rw [holds.page, holds.block]
    exact (calm.page _ 0 (h.isDir_iff.mp holds.isDir).1 holds.isDir.2 used).symm

end DirsFresh

theorem dirEntries_zero (size : (fs.inodeTab d).size = 0) : dirEntries fs d = [] := by
  simp [dirEntries, numEntries, size]

theorem dirEntries_one (size : (fs.inodeTab d).size = 16) :
    dirEntries fs d = [(entryName (fs.blocks.content ((fs.inodeTab d).blocks 0)) 0,
      entryInodeid (fs.blocks.content ((fs.inodeTab d).blocks 0)) 0)] := by
  simp [dirEntries, numEntries, size, dentrySize, entryAt, entryPage]

/-- A page whose further entries are clear has a name at its first entry or nowhere. -/
theorem findInPage_first {page : Block} {limit : Nat} (some : 0 < limit) {name : CString}
    (nonempty : name ≠ []) (clear : ∀ j, 1 ≤ j → j < limit → entryName page j = []) :
    findInPage page limit name = if entryName page 0 = name then Option.some 0 else none := by
  rw [findInPage]
  split
  · rename_i here
    rw [List.find?_range_eq_some]
    exact ⟨by simpa using here, List.mem_range.mpr some, fun j lt => absurd lt (Nat.not_lt_zero j)⟩
  · rename_i other
    rw [List.find?_range_eq_none]
    intro j lt
    by_cases first : j = 0
    · simpa [first] using other
    · rw [clear j (by omega) lt]
      simpa using nonempty.symm

theorem Inv.findInPage_one (h : Inv own top fs) (isDir : IsDir fs d)
    (size : (fs.inodeTab d).size = 16) {limit : Nat} (some : 0 < limit)
    (le : limit ≤ dirPageEntries) {name : CString} (nonempty : name ≠ []) :
    findInPage (fs.blocks.content ((fs.inodeTab d).blocks 0)) limit name =
      if entryName (fs.blocks.content ((fs.inodeTab d).blocks 0)) 0 = name then Option.some 0
      else none := by
  have used : 0 < (fs.inodeTab d).used := Inode.lt_used.mpr (by omega)
  simp only [dirPageEntries] at le
  refine findInPage_first some nonempty fun j low lt => Buf.cstr_eq_nil ?_
  refine h.tree.tail d 0 _ (h.isDir_iff.mp isDir).1 isDir.2 used ?_ ?_
  · simp only [dentrySize, blockSize]
    omega
  · simp only [dentrySize]
    omega

theorem DirsFresh.searchPages (fresh : DirsFresh Q fs) (h : Inv own top fs) (isDir : IsDir fs d)
    (size : (fs.inodeTab d).size = 16) {name : CString} (nonempty : name ≠ [])
    (cachedDir : Option (Fin dirCacheSize))
    (missed : entryName (fs.blocks.content ((fs.inodeTab d).blocks 0)) 0 = name →
      cachedDir = none) :
    ∃ fs', Snfs.searchPages d name cachedDir 1 0 1 fs =
        (if entryName (fs.blocks.content ((fs.inodeTab d).blocks 0)) 0 = name
          then some (entryInodeid (fs.blocks.content ((fs.inodeTab d).blocks 0)) 0) else none, fs') ∧
      SameButDirs fs fs' ∧ DirsFresh Q fs' := by
  obtain ⟨fs₁, loaded, same, fresh₁⟩ := fresh.loadDirPage h isDir size
  have first := h.findInPage_one isDir size (show 0 < 1 by decide) (by decide) nonempty
  refine ⟨fs₁, ?_, same, fresh₁⟩
  rw [Snfs.searchPages, if_neg (by decide), loaded]
  simp only [show min dirPageEntries 1 = 1 from rfl, first]
  by_cases here : entryName (fs.blocks.content ((fs.inodeTab d).blocks 0)) 0 = name
  · simp only [if_pos here, missed here, patchCached]
  · simp only [if_neg here, Snfs.searchPages]

theorem DirsFresh.search (fresh : DirsFresh Q fs) (h : Inv own top fs) (isDir : IsDir fs d)
    {name : CString} (nonempty : name ≠ []) :
    ∃ fs', fsiDirSearch fs d name = (plainSearch fs d name, fs') ∧ SameButDirs fs fs' ∧
      DirsFresh Q fs' := by
  rw [fsiDirSearch]
  rcases fresh.size d isDir with empty | one
  · have num : (fs.inodeTab d).size / dentrySize = 0 := by rw [empty]; rfl
    have plain : plainSearch fs d name = none := by rw [plainSearch, dirEntries_zero empty]; rfl
    rw [plain, num]
    split
    · exact ⟨fs, rfl, rfl, fresh⟩
    · rename_i s found
      have here := (fresh.holds h isDir (by simpa using of_findDirSlot found)).1
      omega
  · have num : (fs.inodeTab d).size / dentrySize = 1 := by rw [one]; rfl
    have plain : plainSearch fs d name =
        if entryName (fs.blocks.content ((fs.inodeTab d).blocks 0)) 0 = name
          then some (entryInodeid (fs.blocks.content ((fs.inodeTab d).blocks 0)) 0) else none := by
      rw [plainSearch, dirEntries_one one]
      split <;> simp [*]
    rw [plain, num]
    split
    · exact fresh.searchPages h isDir one nonempty none fun _ => rfl
    · rename_i s found
      have here : (fs.dirCache s).dirNum = d := by simpa using of_findDirSlot found
      have touched : ((fs.touchDir s).dirCache s).entries =
          fs.blocks.content ((fs.inodeTab d).blocks 0) := by
        obtain ⟨time, slot⟩ := touchDir_slot fs s s
        rw [slot]
        exact (fresh.holds h isDir here).2.2
      simp only [touched, h.findInPage_one isDir one (by decide) (Nat.le_refl _) nonempty]
      by_cases there : entryName (fs.blocks.content ((fs.inodeTab d).blocks 0)) 0 = name
      · simp only [if_pos there]
        exact ⟨_, rfl, rfl, fresh.touchDir s⟩
      · simp only [if_neg there]
        have same : SameButDirs fs (fs.touchDir s) := rfl
        obtain ⟨fs', searched, same', fresh'⟩ := (fresh.touchDir s).searchPages (same.inv h) isDir
          one nonempty (some s) fun hit => absurd hit there
        refine ⟨fs', ?_, same.trans same', fresh'⟩
        rw [searched, if_neg (by exact there)]

theorem Inv.entryType (h : Inv own top fs) {id : Nat} (used : id < top) :
    (Snfs.entryType fs id).1 = (fs.inodeTab id).type := by
  have small := h.inodes.le_size
  rw [Snfs.entryType]
  split
  · rename_i s found
    exact (h.inodes.cachedType s).trans (by rw [Table.key_of_find found])
  · rw [if_pos ⟨by omega, by rw [h.inodes.inUse]; exact decide_eq_true used⟩]

theorem entryType_dirCache (fs : Fs) (id : Nat) : (entryType fs id).2.dirCache = fs.dirCache := by
  rw [entryType]
  split
  · rfl
  · split <;> rfl

def listed (fs : Fs) (entry : CString × Nat) : FileName :=
  ⟨entry.1, (fs.inodeTab entry.2).type⟩

/-- The inodes that the entries of a directory name are in use. -/
theorem Inv.entry_range (h : Inv own top fs) (isDir : IsDir fs d) {entry : CString × Nat}
    (member : entry ∈ dirEntries fs d) : 2 ≤ entry.2 ∧ entry.2 < top := by
  have two := h.inodes.two_le
  obtain ⟨lt, dir⟩ := h.isDir_iff.mp isDir
  have child : entry.2 ∈ childIds fs d := by
    rw [childIds, if_pos dir]
    exact List.mem_map_of_mem member
  have all := h.tree.children.mem_iff.mp
    (List.mem_flatMap.mpr ⟨d, List.mem_range.mpr lt, child⟩)
  rw [List.mem_range'_1] at all
  omega

/-- A listing through a copy of the directory's inode that is the table's or still empty. -/
theorem DirsFresh.list (fresh : DirsFresh Q fs) (h : Inv own top fs) (isDir : IsDir fs d)
    {p : InodePtr} (copy : (fs.deref p).size = 0 ∨ fs.deref p = fs.inodeTab d) (max : Nat) :
    ∃ fs', listPages d p (min ((fs.deref p).size / dentrySize) max) 0
        (min ((fs.deref p).size / dentrySize) max) fs =
          (some (((dirEntries fs d).take (min ((fs.deref p).size / dentrySize) max)).map (listed fs)),
            fs') ∧
      Browsed fs fs' ∧ DirsFresh Q fs' := by
  by_cases none : min ((fs.deref p).size / dentrySize) max = 0
  · rw [none]
    exact ⟨fs, by simp [listPages], .refl fs, fresh⟩
  · have same : fs.deref p = fs.inodeTab d := by
      refine copy.resolve_left fun empty => none ?_
      rw [empty]
      exact Nat.zero_min max
    have one : (fs.inodeTab d).size = 16 := by
      refine (fresh.size d isDir).resolve_left fun empty => none ?_
      rw [same, empty]
      exact Nat.zero_min max
    have num : min ((fs.deref p).size / dentrySize) max = 1 := by
      rw [same, one] at none ⊢
      simp only [dentrySize] at none ⊢
      omega
    obtain ⟨fs₁, loaded, same₁, fresh₁⟩ := fresh.loadDirPage h isDir one
    rw [num, dirEntries_one one]
    have member : (entryName (fs.blocks.content ((fs.inodeTab d).blocks 0)) 0,
        entryInodeid (fs.blocks.content ((fs.inodeTab d).blocks 0)) 0) ∈ dirEntries fs d := by
      rw [dirEntries_one one]
      exact List.mem_singleton_self _
    have lt := (h.entry_range isDir member).2
    have type := (same₁.inv h).entryType lt
    have tab : fs₁.inodeTab = fs.inodeTab := by rw [same₁]
    rw [tab] at type
    refine ⟨(Snfs.entryType fs₁
      (entryInodeid (fs.blocks.content ((fs.inodeTab d).blocks 0)) 0)).2, ?_,
      (Browsed.of_same same₁).trans (entryType_browsed fs₁ _), ?_⟩
    · simp only [listPages, one_ne_zero, if_false, same, loaded]
      simp only [show min dirPageEntries 1 = 1 from rfl, listEntries, type]
      rfl
    · refine fresh₁.browsed (entryType_browsed fs₁ _) fun s => ?_
      rw [entryType_dirCache]
      exact fresh₁.slot s

/-- A creation that adds an entry unless its search finds the name. -/
structure CanAdd (fs : Fs) (dir : Nat) (name : CString) : Prop extends Creatable fs dir name where
  freeInode : (fsiBmapFindFree fs.inodeBmap itabSize).isSome = true
  freeBlock : (growDir fs (fs.inodeTab dir)).isSome = true

/-- The condition under which a creation leaves the caches true: a new entry goes to an empty
directory, and a copy of that directory's inode may differ from the table's in any way. -/
def KeepsFresh (Q : Inode → Inode → Prop) (fs : Fs) (dir : Nat) (name : CString) : Prop :=
  CanAdd fs dir name → plainSearch fs dir name = none →
    (fs.inodeTab dir).size % blockSize = 0 ∧
      ∀ s, (fs.inodeCache s).key = dir → ∀ c, Q (fs.inodeCache s).val c

theorem DirsFresh.made {type : Itype} {name : CString} (fresh : DirsFresh Q fs)
    (h : Inv own top fs) (made : Made own own' top type fs d name fs')
    (guard : KeepsFresh Q fs d name) : DirsFresh Q fs' := by
  have isDir : IsDir fs d := ⟨made.creatable.inUse, made.creatable.isDir⟩
  obtain ⟨fs₁, search, cached⟩ := made.missed
  obtain ⟨fs₁', search', same₁, fresh₁⟩ := fresh.search h isDir made.creatable.nonempty
  rw [search, Prod.mk.injEq] at search'
  obtain ⟨absent, rfl⟩ := search'
  obtain ⟨aligned, copies⟩ := guard ⟨made.creatable, by rw [made.freeInode]; rfl, made.freeBlock⟩
    absent.symm
  simp only [blockSize] at aligned
  have empty : (fs.inodeTab d).size = 0 := (fresh.size d isDir).resolve_right (by omega)
  -- the inodes that were directories still are, and the new one may be
  have old (e : Nat) (lt : e < top) : IsDir fs' e ↔ IsDir fs e := by
    rw [made.inv.isDir_iff, h.isDir_iff, made.type_old lt]
    exact and_congr_left fun _ => ⟨fun _ => lt, fun _ => Nat.lt_succ_of_lt lt⟩
  refine ⟨fun e dir => ?_, fun s => ?_, fun s dir => ?_⟩
  · by_cases new : e = top
    · rw [new, made.tab_new]
      exact .inl rfl
    · have lt : e < top := by
        have := (made.inv.isDir_iff.mp dir).1
        omega
      by_cases here : e = d
      · rw [here, made.size_dir, empty]
        exact .inr rfl
      · rw [made.tab_other e lt here]
        exact fresh.size e ((old e lt).mp dir)
  · rw [cached]
    refine (fresh₁.slot s).imp_right fun holds => ?_
    have dir : IsDir fs (fs₁.dirCache s).dirNum := by
      have dir := holds.isDir
      rw [same₁] at dir
      exact dir
    have tab : fs₁.inodeTab = fs.inodeTab := by rw [same₁]
    have blocks : fs₁.blocks = fs.blocks := by rw [same₁]
    have size := holds.size
    have block := holds.block
    have page := holds.page
    rw [tab] at size block
    rw [blocks] at page
    have lt := (h.isDir_iff.mp dir).1
    have ne : (fs₁.dirCache s).dirNum ≠ d := by
      intro here
      rw [here] at size
      omega
    have given := h.dir_owned lt (i := 0) (Inode.lt_used.mpr (by omega))
    have range := h.owned_range given
    have same := made.tab_other _ lt ne
    refine ⟨(old _ lt).mpr dir, same ▸ size, same ▸ block, ?_⟩
    rw [page, block, made.content _ range.1 range.2 (made.ne_page given ne)]
  · rw [made.inodeCache] at dir ⊢
    have lt := h.inodes.key_lt s
    have dir := (old _ lt).mp dir
    by_cases here : (fs.inodeCache s).key = d
    · exact copies s here _
    · rw [made.tab_other _ lt here]
      exact fresh.copy s dir

/-- The relation allows only copies that are the table's or still empty. -/
structure ShowsDirs (Q : Inode → Inode → Prop) : Prop where
  refl : ∀ c, Q c c
  copy : ∀ v c, Q v c → v.size = 0 ∨ v = c

theorem DirsFresh.seen (fresh : DirsFresh Q fs) (shows : ShowsDirs Q) (isDir : IsDir fs d) :
    Q (fs.seen d) (fs.inodeTab d) :=
  DirCopies.seen fresh.copy shows.refl isDir

/-- `fs_readdir` lists as many entries as the inode seen has. -/
theorem DirsFresh.readdir (fresh : DirsFresh Q fs) (shows : ShowsDirs Q) (h : Inv own top fs)
    (isDir : IsDir fs d) (max : Nat) :
    ∃ fs', Snfs.fsReaddir fs d max = (some (((dirEntries fs d).take
        (min ((fs.seen d).size / dentrySize) max)).map (listed fs)), fs') ∧
      DirsFresh Q fs' := by
  have small := h.inodes.le_size
  have lt := (h.isDir_iff.mp isDir).1
  have inside : ¬ (itabSize ≤ d ∨ (max : Int) < 0) := by omega
  rw [Snfs.fsReaddir, if_neg inside]
  cases opened : Snfs.openInode fs d with
  | none => exact absurd (h.openInode_eq_none.mp opened) (Nat.not_le.mpr lt)
  | some pair =>
      obtain ⟨p, fs₁⟩ := pair
      obtain ⟨-, h₁, quiet₁, -, copy, -⟩ := h.openInode opened
      have calm₁ := h.calm_open opened
      have type : (fs.seen d).type = .dir := (h.type_seen d).trans isDir.2
      have isDir₁ : IsDir fs₁ d := by
        rw [IsDir, calm₁.inodeBmap, calm₁.type]
        exact isDir
      have shown := shows.copy _ _ (fresh.seen shows isDir)
      rw [← copy, ← calm₁.dir d isDir.2] at shown
      obtain ⟨fs', result, -, fresh'⟩ := (fresh.calm h calm₁ shows.refl).list h₁ isDir₁ shown max
      have listed₁ : listed fs₁ = listed fs := by
        funext entry
        rw [listed, listed, calm₁.type]
      refine ⟨fs', ?_, fresh'⟩
      rw [calm₁.dirEntries lt isDir.2, listed₁, copy] at result
      simp only [copy, type, ne_eq, not_true_eq_false, if_false, Int.toNat_natCast]
      exact result

theorem DirsFresh.readdir_state (fresh : DirsFresh Q fs) (shows : ShowsDirs Q)
    (h : Inv own top fs) (d : Nat) (maxentries : Int) :
    DirsFresh Q (Snfs.fsReaddir fs d maxentries).2 := by
  by_cases dir : IsDir fs d ∧ 0 ≤ maxentries
  · obtain ⟨fs', result, fresh'⟩ := fresh.readdir shows h dir.1 maxentries.toNat
    rw [Int.toNat_of_nonneg dir.2] at result
    rw [result]
    exact fresh'
  · rw [Snfs.fsReaddir]
    split
    · exact fresh
    · rename_i inside
      split
      · exact fresh
      · rename_i p fs₁ opened
        obtain ⟨lt, -, -, -, copy, -⟩ := h.openInode opened
        split
        · exact fresh.calm h (h.calm_open opened) shows.refl
        · rename_i type
          rw [ne_eq, not_not, copy, h.type_seen] at type
          exact absurd ⟨h.isDir_iff.mpr ⟨lt, type⟩, by omega⟩ dir

theorem dirsFresh_kept (shows : ShowsDirs Q) : KeptByCalls (DirsFresh Q) where
  calm h fresh calm := fresh.calm h calm shows.refl
  search := by
    intro own top fs dir name h fresh isDir nonempty
    obtain ⟨fs₁, search, -, fresh₁⟩ := fresh.search h isDir nonempty
    rw [search]
    exact fresh₁
  readdir dir maxentries h fresh := fresh.readdir_state shows h dir maxentries

theorem DirsFresh.step (fresh : DirsFresh Q fs) (shows : ShowsDirs Q) (h : Inv own top fs)
    {op : FsOp} (fits : op.Fits) (room : Room fs (demand fs op))
    (guard : ∀ type s dir name, createCall fs op = some (type, s, dir, name) → DirsFresh Q s →
      KeepsFresh Q s dir name) {res : FsResult} (next : fsStep fs op = some (res, fs')) :
    ∃ own' top', Inv own' top' fs' ∧ DirsFresh Q fs' := by
  obtain ⟨own', top', kept⟩ := h.step fits room next
  refine ⟨own', top', kept.inv, (dirsFresh_kept shows).step h fresh fits room ?_ next⟩
  intro own' type s dir name s' call inv fresh made
  exact fresh.made inv made (guard type s dir name call fresh)

theorem Formatted.dirsFresh {num : Nat} {clock : Nat → Int} (h : Formatted num clock fs)
    (data : 10 ≤ num) : DirsFresh Q fs := by
  refine ⟨fun d isDir => .inl ?_, fun s => .inl ?_, h.dirCopies data⟩
  · rw [h.inodeTab, Function.update_apply]
    split <;> rfl
  · rw [h.dirCache]

end Snfs
