import Snfs.Fs.Reachable

/-!
The copies of directories in the caches. Files come and go in the inode cache
and in the block cache without touching them: `fs_read`, `fs_write`,
`fs_get_attrs` and the copying in `fs_copy` leave every directory alone, its
pages in the directory cache included, and a copy of its inode is an old copy or
the table's.
-/

namespace Snfs

open Slots

structure Calm (top : Nat) (fs fs' : Fs) : Prop extends Frame top fs fs' where
  dirCache : fs'.dirCache = fs.dirCache
  copy : ∀ s, (fs.inodeTab (fs'.inodeCache s).key).type = .dir →
    (fs'.inodeCache s).val = fs.inodeTab (fs'.inodeCache s).key ∨
      ∃ t, (fs.inodeCache t).key = (fs'.inodeCache s).key ∧
        (fs.inodeCache t).val = (fs'.inodeCache s).val

variable {own : Ledger} {top : Nat} {fs fs' fs'' : Fs}

namespace Calm

theorem of_same (frame : Frame top fs fs') (same : SameInodes fs fs') : Calm top fs fs' :=
  ⟨frame, same.dirCache, fun s _ => .inr ⟨s, by rw [same.inodeCache], by rw [same.inodeCache]⟩⟩

theorem refl (top : Nat) (fs : Fs) : Calm top fs fs := .of_same (.refl top fs) (.refl fs)

theorem trans (h : Calm top fs fs') (h' : Calm top fs' fs'') : Calm top fs fs'' := by
  refine ⟨h.toFrame.trans h'.toFrame, h'.dirCache.trans h.dirCache, fun s isDir => ?_⟩
  rcases h'.copy s ((h.type _).trans isDir) with fresh | ⟨t, key, val⟩
  · exact .inl (fresh.trans (h.dir _ isDir))
  · have copy := h.copy t
    rw [key, val] at copy
    exact copy isDir

theorem of_onlyAt (frame : Frame top fs fs') {p : InodePtr} (only : OnlyAt p fs fs') {a : Nat}
    (ptr : PtrTo fs p a) (file : (fs.inodeTab a).type = .file) : Calm top fs fs' := by
  refine ⟨frame, only.dirCache, fun s isDir => .inr ⟨s, (only.key s).symm, ?_⟩⟩
  by_cases here : p = .cached s
  · rw [only.key] at isDir
    subst here
    rw [show (fs.inodeCache s).key = a from ptr, file] at isDir
    cases isDir
  · rw [only.slot s here]

end Calm

private theorem calm_touchInode (top : Nat) (fs : Fs) (s : Fin inodeCacheSize) :
    Calm top fs (fs.touchInode s) :=
  ⟨(quiet_touchInode top fs s).toFrame, rfl, fun t _ => .inr ⟨t,
    (Table.touch_key fs.inodeCache s fs.now t).symm,
    (Table.touch_val fs.inodeCache s fs.now t).symm⟩⟩

theorem Inv.calm_addInodeAt (h : Inv own top fs) (v : Fin inodeCacheSize) (a : Nat) (d : Bool) :
    Calm top fs (Snfs.addInodeAt fs v a d) := by
  refine ⟨(h.frame_addInodeAt v a d).toFrame, rfl, fun s => ?_⟩
  simp only [Snfs.addInodeAt]
  by_cases here : s = v
  · subst here
    rw [Table.place_self]
    intro isDir
    refine .inl ?_
    rcases h.evict_inode s a with same | ⟨-, file, -⟩
    · exact same
    · rw [show (fs.inodeTab a).type = .dir from isDir] at file
      cases file
  · rw [Table.place_of_ne _ here]
    exact fun _ => .inr ⟨s, rfl, rfl⟩

theorem Inv.calm_open (h : Inv own top fs) {a : Nat} {p : InodePtr}
    (opened : Snfs.openInode fs a = some (p, fs')) : Calm top fs fs' := by
  cases opened_of_open opened with
  | cached => exact calm_touchInode top fs _
  | table => exact h.calm_addInodeAt _ a false

theorem Inv.calm_pin (h : Inv own top fs) (a : Nat) (d : Bool) :
    Calm top fs (Snfs.pinInode fs a d).2 := by
  rw [Snfs.pinInode]
  split
  · exact calm_touchInode top fs _
  · exact h.calm_addInodeAt _ a d

theorem Inv.calm_getAttrs (h : Inv own top fs) {file : Nat} {attrs : Option FileAttrs}
    (result : Snfs.fsGetAttrs fs file = some (attrs, fs')) : Calm top fs fs' :=
  (fsGetAttrs_keeps (P := fun s => Inv own top s ∧ Calm top fs s)
    (fun _ _ _ _ kept opened => ⟨(kept.1.openInode opened).2.1,
      kept.2.trans (kept.1.calm_open opened)⟩) ⟨h, .refl top fs⟩ result).2

theorem Inv.calm_read (h : Inv own top fs) (file offset count : Nat) :
    Calm top fs (fsRead fs file offset count).2 := by
  rcases h.fsRead_cases file offset count with ⟨-, stop⟩ | ⟨p, fs₁, opened, ⟨-, stop⟩ |
    ⟨-, fs₂, done, -, quiet₂, same₂⟩⟩
  · rw [stop]
    exact .refl top fs
  · rw [stop]
    exact h.calm_open opened
  · rw [done]
    exact (h.calm_open opened).trans (.of_same quiet₂.toFrame same₂)

theorem Inv.calm_writeSize (h : Inv own top fs) {p : InodePtr} {a size : Nat} (ha : a < top)
    (ptr : PtrTo fs p a) (file : (fs.inodeTab a).type = .file) (le : size ≤ 5120)
    (given : ∀ i, 512 * i < size → own ((fs.deref p).blocks i) = some (a, i)) :
    Calm top fs (Snfs.writeSize fs a p size) := by
  obtain ⟨-, quiet⟩ := h.writeSize ha ptr file le given
  have type : (fs.deref p).type = .file := (h.type_deref ptr).trans file
  have only := (onlyAt_assign fs p { fs.deref p with size := size }).trans
    (onlyAt_markDirty _ p)
  cases p with
  | cached s => exact .of_onlyAt quiet.toFrame only ptr file
  | table b =>
      have owned : OwnedInode own a { fs.deref (.table b) with size := size } := by
        refine (h.owned_deref ha ptr).withSize le fun i hi => ?_
        have data := (h.owned_range (given i (lt_offsetToBlocks.mp hi))).1
        omega
      have assigned := h.assign ha ptr file owned type
      have frame : Quiet top fs (fs.assign (.table b) { fs.deref (.table b) with size := size }) :=
        frame_assign ptr file type
      exact (Calm.of_onlyAt frame.toFrame only ptr file).trans
        (assigned.calm_addInodeAt _ a true)

theorem Inv.calm_write (h : Inv own top fs) (file offset : Nat) {data : List UInt8}
    (short : data.length ≤ 1024) (room : Room fs (demand fs (.write file offset data))) :
    Calm top fs (fsWrite fs file offset data).2 := by
  have ends := h.fsWrite_ends file offset short room
  generalize fsWrite fs file offset data = result at ends
  cases ends with
  | unused => exact .refl top fs
  | refused opened => exact h.calm_open opened
  | full opened isFile _ _ alloc =>
      obtain ⟨-, -, quiet₁, ptr, -⟩ := h.openInode opened
      exact (h.calm_open opened).trans
        (.of_onlyAt alloc.frame alloc.only ptr ((quiet₁.type file).trans isFile))
  | inside opened _ _ stored same => exact (h.calm_open opened).trans (.of_same stored.frame same)
  | extended opened grows stored =>
      obtain ⟨lt, -, quiet₁, ptr, -⟩ := h.openInode opened
      have isFile₁ := (quiet₁.type file).trans grows.isFile
      have calm₂ := (h.calm_open opened).trans (.of_onlyAt stored.frame stored.only ptr isFile₁)
      exact calm₂.trans (stored.inv.calm_writeSize lt (stored.only.ptrTo ptr)
        ((stored.frame.type file).trans isFile₁) grows.fits fun i hi => stored.given i (by omega))

theorem Made.calm_copy {own₁ own' : Ledger} {src dir : Nat} {name : CString} {fs₁ fs₂ : Fs}
    (made : Made own own₁ top .file fs dir name fs₁)
    (pinned : fs₂ = addInodeToCache (Snfs.pinInode fs₁ src false).2 top true)
    (hsrc : src < top) (quiet : Quiet (top + 1) fs₁ fs₂)
    (copied : Copied own₁ own' (top + 1) (.table top) fs₂ (Snfs.copyInode fs₁ src top).2) :
    Calm (top + 1) fs₁ (Snfs.copyInode fs₁ src top).2 := by
  have h₁ := (made.inv.pinInode (Nat.lt_succ_of_lt hsrc) (d := false) (by simp)).1
  have calm₂ : Calm (top + 1) fs₁ fs₂ := by
    rw [pinned]
    exact (made.inv.calm_pin src false).trans (h₁.calm_addInodeAt _ top true)
  have isNew : (fs₂.inodeTab top).type = .file := by
    rw [quiet.type, made.tab_new]
    rfl
  have ptr : PtrTo fs₂ (.table top) top := rfl
  exact calm₂.trans (.of_onlyAt copied.frame copied.only ptr isNew)

/-- A condition that searches, listings and the accesses to files keep. Every call is made of
these and at most one creation. -/
structure KeptByCalls (P : Fs → Prop) : Prop where
  calm : ∀ {own top fs fs'}, Inv own top fs → P fs → Calm top fs fs' → P fs'
  search : ∀ {own top fs} dir name, Inv own top fs → P fs → IsDir fs dir → name ≠ [] →
    P (fsiDirSearch fs dir name).2
  readdir : ∀ {own top fs} dir maxentries, Inv own top fs → P fs →
    P (Snfs.fsReaddir fs dir maxentries).2

namespace KeptByCalls

variable {P : Fs → Prop}

theorem lookup (kept : KeptByCalls P) (h : Inv own top fs) (holds : P fs) (path : CString) :
    P (fsLookup fs path).2 := by
  refine (fsLookup_keeps (P := fun s => Inv own top s ∧ P s) ?_ path ⟨h, holds⟩).2
  rintro s dir name ⟨inv, holds⟩ isDir nonempty
  exact ⟨(fsiDirSearch_same s dir name).inv inv, kept.search dir name inv holds isDir nonempty⟩

theorem searched (kept : KeptByCalls P) (h : Inv own top fs) (holds : P fs) {dir : Nat}
    {name : CString} (searched : Searched fs dir name fs') : P fs' := by
  rcases searched with rfl | ⟨creatable, rfl⟩
  · exact holds
  · exact kept.search dir name h holds ⟨creatable.inUse, creatable.isDir⟩ creatable.nonempty

theorem copyPaths (kept : KeptByCalls P) (h : Inv own top fs) (holds : P fs)
    {srcJunk dirJunk : Nat} {srcpath tgtpath : CString} {paths : Option (Nat × Nat × CString)}
    (result : Snfs.copyPaths fs srcJunk dirJunk srcpath tgtpath = some (paths, fs')) : P fs' := by
  refine (copyPaths_keeps (P := fun s => Inv own top s ∧ P s) ?_ ?_ ⟨h, holds⟩ result).2
  · rintro s dir name ⟨inv, holds⟩ isDir nonempty
    exact ⟨(fsiDirSearch_same s dir name).inv inv, kept.search dir name inv holds isDir nonempty⟩
  · rintro s a p s' ⟨inv, holds⟩ opened
    exact ⟨(inv.openInode opened).2.1, kept.calm inv holds (inv.calm_open opened)⟩

/-- `fs_copy` keeps the condition if the creation in it does. -/
theorem copy (kept : KeptByCalls P) (h : Inv own top fs) (holds : P fs) {srcJunk dirJunk : Nat}
    {srcpath tgtpath : CString} (noZero : (0 : UInt8) ∉ tgtpath) (room : Room fs (inodeNumBlks + 1))
    (made : ∀ own' src dir name s s',
      Snfs.copyPaths fs srcJunk dirJunk srcpath tgtpath = some (some (src, dir, name), s) →
        Inv own top s → P s → Made own own' top .file s dir name s' → P s') {ok : Bool}
    (result : fsCopy fs srcJunk dirJunk srcpath tgtpath = some (ok, fs')) : P fs' := by
  cases h.fsCopy_ends noZero room result with
  | noPaths paths => exact kept.copyPaths h holds paths
  | notMade paths h₁ _ _ searched => exact kept.searched h₁ (kept.copyPaths h holds paths) searched
  | made paths h₁ _ hsrc _ _ ok pinned _ quiet₃ copy copied =>
      have calm := ok.calm_copy pinned hsrc quiet₃ (by rwa [copy])
      rw [copy] at calm
      exact kept.calm ok.inv (made _ _ _ _ _ _ paths h₁ (kept.copyPaths h holds paths) ok) calm

theorem make (kept : KeptByCalls P) (h : Inv own top fs) (holds : P fs) {type : Itype}
    (kind : type = .dir ∨ type = .file) {dir : Nat} {name : CString}
    (noZero : (0 : UInt8) ∉ name) (room : Room fs 1)
    (made : ∀ own' s', Made own own' top type fs dir name s' → P s') :
    P (Snfs.fsMake type fs dir name).2 := by
  rcases h.fsMake type kind dir noZero room with ⟨fs₁, stop, searched⟩ | ⟨own₁, fs₁, done, ok⟩
  · rw [stop]
    exact kept.searched h holds searched
  · rw [done]
    exact made own₁ fs₁ ok

theorem step (kept : KeptByCalls P) (h : Inv own top fs) (holds : P fs) {op : FsOp}
    (fits : op.Fits) (room : Room fs (demand fs op))
    (made : ∀ own' type s dir name s', createCall fs op = some (type, s, dir, name) →
      Inv own top s → P s → Made own own' top type s dir name s' → P s') {res : FsResult}
    (next : fsStep fs op = some (res, fs')) : P fs' := by
  cases op with
  | lookup path =>
      simp only [fsStep] at next
      cases next
      exact kept.lookup h holds path
  | getAttrs file =>
      obtain ⟨⟨attrs, fs₁⟩, got, same⟩ := Option.map_eq_some_iff.mp next
      cases same
      exact kept.calm h holds (h.calm_getAttrs got)
  | read file offset count =>
      simp only [fsStep] at next
      cases next
      exact kept.calm h holds (h.calm_read file offset count)
  | write file offset data =>
      simp only [fsStep] at next
      cases next
      exact kept.calm h holds (h.calm_write file offset fits room)
  | create dir name =>
      simp only [fsStep] at next
      cases next
      exact kept.make h holds (.inr rfl) fits room fun own' s' => made own' _ _ _ _ s' rfl h holds
  | mkdir dir name =>
      simp only [fsStep] at next
      cases next
      exact kept.make h holds (.inl rfl) fits room fun own' s' => made own' _ _ _ _ s' rfl h holds
  | readdir dir maxentries =>
      simp only [fsStep] at next
      cases next
      exact kept.readdir dir maxentries h holds
  | copy srcJunk dirJunk srcpath tgtpath =>
      obtain ⟨⟨ok, fs₁⟩, done, same⟩ := Option.map_eq_some_iff.mp next
      cases same
      refine kept.copy h holds fits.2.1 room (fun own' src dir name s s' paths => ?_) done
      exact made own' _ _ _ _ s' (by rw [createCall, paths])

end KeptByCalls

/-- Every cached inode of a directory stands in this relation to the one in the table. -/
def DirCopies (Q : Inode → Inode → Prop) (fs : Fs) : Prop :=
  ∀ s, IsDir fs (fs.inodeCache s).key → Q (fs.inodeCache s).val (fs.inodeTab (fs.inodeCache s).key)

section DirCopies
variable {Q : Inode → Inode → Prop} {d : Nat}

theorem Calm.isDir (calm : Calm top fs fs') : IsDir fs' d ↔ IsDir fs d := by
  rw [IsDir, IsDir, calm.inodeBmap, calm.type]

theorem DirCopies.calm (copies : DirCopies Q fs) (calm : Calm top fs fs') (refl : ∀ c, Q c c) :
    DirCopies Q fs' := by
  intro s isDir
  have isDir := calm.isDir.mp isDir
  rw [calm.dir _ isDir.2]
  rcases calm.copy s isDir.2 with same | ⟨t, key, val⟩
  · rw [same]
    exact refl _
  · have copy := copies t
    rw [key, val] at copy
    exact copy isDir

theorem DirCopies.browsed (copies : DirCopies Q fs) (browsed : Browsed fs fs') :
    DirCopies Q fs' := by
  intro s isDir
  have copy := copies s
  rw [← browsed.key s, ← browsed.val s] at copy
  rw [browsed.rest] at isDir ⊢
  exact copy isDir

theorem DirCopies.made {own' : Ledger} {type : Itype} {dir : Nat} {name : CString}
    (copies : DirCopies Q fs) (h : Inv own top fs) (made : Made own own' top type fs dir name fs')
    (here : ∀ s, (fs.inodeCache s).key = dir → Q (fs.inodeCache s).val (fs.inodeTab dir) →
      Q (fs.inodeCache s).val (fs'.inodeTab dir)) : DirCopies Q fs' := by
  intro s isDir
  rw [made.inodeCache] at isDir ⊢
  have lt := h.inodes.key_lt s
  have isDir : IsDir fs (fs.inodeCache s).key :=
    h.isDir_iff.mpr ⟨lt, (made.type_old lt).symm.trans isDir.2⟩
  by_cases same : (fs.inodeCache s).key = dir
  · have copy := copies s isDir
    rw [same] at copy ⊢
    exact here s same copy
  · rw [made.tab_other _ lt same]
    exact copies s isDir

theorem DirCopies.seen (copies : DirCopies Q fs) (refl : ∀ c, Q c c) (isDir : IsDir fs d) :
    Q (fs.seen d) (fs.inodeTab d) := by
  rw [Fs.seen]
  cases found : fs.inodeCache.find? d with
  | some s =>
      have key := Table.key_of_find found
      rw [Table.view_of_find found]
      have copy := copies s
      rw [key] at copy
      exact copy isDir
  | none =>
      rw [Table.view_of_absent (Table.absent_of_find found)]
      exact refl _

theorem Formatted.dirCopies {num : Nat} {clock : Nat → Int} (h : Formatted num clock fs)
    (data : 10 ≤ num) : DirCopies Q fs := by
  intro s isDir
  rw [h.inodeCache] at isDir
  exact absurd rfl ((h.inv data).dir_ne_zero isDir)

theorem dirCopies_kept (refl : ∀ c, Q c c) : KeptByCalls (DirCopies Q) where
  calm _ copies calm := copies.calm calm refl
  search dir name _ copies _ _ := copies.browsed (.of_same (fsiDirSearch_same _ dir name))
  readdir := by
    intro own top fs dir maxentries h copies
    rcases fsReaddir_state fs dir maxentries with same | ⟨p, fs₁, opened, listed⟩
    · rw [same]
      exact copies
    · exact (copies.calm (h.calm_open opened) refl).browsed listed

end DirCopies

end Snfs
