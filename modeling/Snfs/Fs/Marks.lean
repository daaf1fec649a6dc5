import Snfs.Fs.Copying
import Snfs.Fs.Run

/-!
The bits of the two bitmaps, in any state. An operation may set bits and never
clears one, so what has been marked once stays marked.
-/

namespace Snfs

variable {fs fs' fs'' : Fs}

structure MarksKept (fs fs' : Fs) : Prop where
  blkBmap : ∀ b, bmapIsset fs.blkBmap b = true → bmapIsset fs'.blkBmap b = true
  inodeBmap : ∀ a, bmapIsset fs.inodeBmap a = true → bmapIsset fs'.inodeBmap a = true

namespace MarksKept

theorem of_eq (blkBmap : fs'.blkBmap = fs.blkBmap) (inodeBmap : fs'.inodeBmap = fs.inodeBmap) :
    MarksKept fs fs' := by
  refine ⟨?_, ?_⟩
  · intro b set
    rwa [blkBmap]
  · intro a set
    rwa [inodeBmap]

theorem refl (fs : Fs) : MarksKept fs fs := of_eq rfl rfl

theorem trans (h : MarksKept fs fs') (h' : MarksKept fs' fs'') : MarksKept fs fs'' :=
  ⟨fun b set => h'.blkBmap b (h.blkBmap b set), fun a set => h'.inodeBmap a (h.inodeBmap a set)⟩

theorem setBlock (fs : Fs) (b : Nat) :
    MarksKept fs { fs with blkBmap := bmapSet fs.blkBmap b } :=
  ⟨fun _ set => bmapIsset_set_mono b set, fun _ set => set⟩

theorem assign (fs : Fs) (p : InodePtr) (c : Inode) : MarksKept fs (fs.assign p c) := by
  cases p <;> exact of_eq rfl rfl

theorem markDirty (fs : Fs) (p : InodePtr) : MarksKept fs (fs.markDirty p) := by
  cases p <;> exact of_eq rfl rfl

theorem store (fs : Fs) : MarksKept fs (fsiStoreFsdata fs) := by
  rw [fsiStoreFsdata]
  exact of_eq rfl rfl

theorem of_same (same : SameButDirs fs fs') : MarksKept fs fs' := by
  rw [same]
  exact of_eq rfl rfl

theorem of_browsed (browsed : Browsed fs fs') : MarksKept fs fs' := by
  rw [browsed.rest]
  exact of_eq rfl rfl

theorem openInode {a : Nat} {p : InodePtr} (opened : openInode fs a = some (p, fs')) :
    MarksKept fs fs' := by
  cases opened_of_open opened <;> exact of_eq rfl rfl

theorem pinInode (fs : Fs) (a : Nat) (dirty : Bool) : MarksKept fs (pinInode fs a dirty).2 := by
  rw [Snfs.pinInode]
  split <;> exact of_eq rfl rfl

theorem fetchBlock {b : Nat} {data : Block} (fetched : fetchBlock fs b = some (data, fs')) :
    MarksKept fs fs' := by
  rw [Snfs.fetchBlock] at fetched
  split at fetched
  · rename_i hit
    obtain ⟨s, -, found⟩ := Option.map_eq_some_iff.mp hit
    cases found
    cases fetched
    exact of_eq rfl rfl
  · split at fetched
    · cases fetched
    · cases fetched
      exact of_eq rfl rfl

theorem writeBlock {b start : Nat} {chunk : List UInt8}
    (stored : writeBlock fs b start chunk = some fs') : MarksKept fs fs' := by
  rw [Snfs.writeBlock] at stored
  split at stored
  · rename_i hit
    obtain ⟨s, -, found⟩ := Option.map_eq_some_iff.mp hit
    cases found
    cases stored
    exact of_eq rfl rfl
  · split at stored
    · cases stored
    · cases stored
      exact of_eq rfl rfl

theorem readLoop (p : InodePtr) (offset max used fuel iblock : Nat) (buffer : List UInt8)
    (fs : Fs) : MarksKept fs (readLoop p offset max used fuel iblock buffer fs).2 := by
  induction fuel generalizing iblock buffer fs with
  | zero => exact refl fs
  | succ fuel ih =>
      rw [Snfs.readLoop]
      dsimp only
      split
      · split
        · exact refl fs
        · split
          · exact refl fs
          · rename_i fetched
            exact (fetchBlock fetched).trans (ih _ _ _)
      · exact refl fs

theorem writeAlloc (p : InodePtr) (n i : Nat) (fs : Fs) :
    MarksKept fs (writeAlloc p n i fs).2 := by
  induction n generalizing i fs with
  | zero => exact refl fs
  | succ n ih =>
      rw [Snfs.writeAlloc]
      split
      · exact refl fs
      · rename_i b found
        have marked : MarksKept fs (markFor fs p i b) := (setBlock fs b).trans (assign _ p _)
        have inserted : MarksKept (markFor fs p i b) (addBlockToCache (markFor fs p i b) b .zero true) :=
          of_eq rfl rfl
        exact marked.trans (inserted.trans (ih _ _))

theorem writeLoop (p : InodePtr) (fuel iblock start : Nat) (rest : List UInt8) (fs : Fs) :
    MarksKept fs (writeLoop p fuel iblock start rest fs).2 := by
  induction fuel generalizing iblock start rest fs with
  | zero => exact refl fs
  | succ fuel ih =>
      rw [Snfs.writeLoop]
      dsimp only
      split
      · exact refl fs
      · split
        · exact refl fs
        · rename_i stored
          exact (writeBlock stored).trans (ih _ _ _ _)

theorem copyBlocks (src new : InodePtr) (n i : Nat) (fs : Fs) :
    MarksKept fs (copyBlocks src new n i fs).2 := by
  induction n generalizing i fs with
  | zero => exact refl fs
  | succ n ih =>
      rw [Snfs.copyBlocks]
      dsimp only
      split
      · exact refl fs
      · rename_i b found
        have marked : MarksKept fs (markFor fs new i b) := (setBlock fs b).trans (assign _ new _)
        split
        · exact marked
        · rename_i data fs₁ fetched
          have inserted : MarksKept fs₁ (addBlockToCache fs₁ b data true) := of_eq rfl rfl
          exact marked.trans ((fetchBlock fetched).trans (inserted.trans (ih _ _)))

theorem fsLookup (fs : Fs) (path : CString) : MarksKept fs (fsLookup fs path).2 :=
  of_same (fsLookup_same fs path)

theorem fsGetAttrs {file : Nat} {attrs : Option FileAttrs}
    (result : fsGetAttrs fs file = some (attrs, fs')) : MarksKept fs fs' :=
  fsGetAttrs_keeps (fun _ _ _ _ kept opened => kept.trans (openInode opened)) (refl fs) result

theorem fsRead (fs : Fs) (file offset count : Nat) :
    MarksKept fs (fsRead fs file offset count).2 := by
  rw [Snfs.fsRead]
  split
  · exact refl fs
  split
  · exact refl fs
  · rename_i p fs₁ opened
    have first := openInode opened
    dsimp only
    split
    · exact first
    split
    · exact first
    · exact first.trans (readLoop _ _ _ _ _ _ _ _)

theorem writeSize (fs : Fs) (file : Nat) (p : InodePtr) (size : Nat) :
    MarksKept fs (writeSize fs file p size) := by
  cases p <;> exact of_eq rfl rfl

theorem fsWrite (fs : Fs) (file offset : Nat) (data : List UInt8) :
    MarksKept fs (fsWrite fs file offset data).2 := by
  rw [Snfs.fsWrite]
  split
  · exact refl fs
  cases opened : Snfs.openInode fs file with
  | none => exact refl fs
  | some pair =>
      obtain ⟨p, fs₁⟩ := pair
      have first := openInode opened
      dsimp only
      split
      · exact first
      split
      · exact first
      generalize max (offsetToBlocks (u32 (min offset (fs₁.deref p).size + data.length)))
        (fs₁.deref p).used - (fs₁.deref p).used = more
      have second := first.trans (writeAlloc p more (fs₁.deref p).used fs₁)
      split
      · rename_i stop
        rwa [stop] at second
      · rename_i fs₂ done
        rw [done] at second
        have third : MarksKept fs (if 0 < more then fs₂.markDirty p else fs₂) := by
          split
          · exact second.trans (markDirty fs₂ p)
          · exact second
        have fourth := third.trans (writeLoop p data.length
          (min offset (fs₁.deref p).size / blockSize) (min offset (fs₁.deref p).size % blockSize)
          data _)
        split
        · rename_i stop
          rwa [stop] at fourth
        · rename_i fs₃ done
          rw [done] at fourth
          split
          · exact fourth.trans (writeSize fs₃ file p _)
          · exact fourth

theorem growDir {idir new : Inode} {bmap : Block} (grown : growDir fs idir = some (new, bmap))
    {b : Nat} (set : bmapIsset fs.blkBmap b = true) : bmapIsset bmap b = true := by
  rw [Snfs.growDir] at grown
  split at grown
  · obtain ⟨fblock, -, same⟩ := Option.map_eq_some_iff.mp grown
    cases same
    exact bmapIsset_set_mono fblock set
  · cases grown
    exact set

theorem addEntry {type : Itype} {dir finode : Nat} {idir new : Inode} {bmap : Block}
    {file : CString} (grown : Snfs.growDir fs idir = some (new, bmap)) :
    MarksKept fs (addEntry type fs dir new bmap file finode) := by
  rw [Snfs.addEntry]
  refine trans ?_ (store _)
  exact ⟨fun b set => growDir grown set, fun a set => bmapIsset_set_mono finode set⟩

theorem fsMake (type : Itype) (fs : Fs) (dir : Nat) (file : CString) :
    MarksKept fs (fsMake type fs dir file).2 := by
  cases fsMake_cases type fs dir file with
  | inl failed =>
      obtain ⟨fs₁, made, searched⟩ := failed
      rw [made]
      exact of_same searched.same
  | inr added =>
      obtain ⟨fs₁, finode, idir, bmap, -, search, -, grown, made⟩ := added
      have same := fsiDirSearch_same fs dir file
      rw [search] at same
      rw [made]
      exact (of_same same).trans (addEntry grown)

theorem fsReaddir (fs : Fs) (dir : Nat) (maxentries : Int) :
    MarksKept fs (fsReaddir fs dir maxentries).2 := by
  cases fsReaddir_state fs dir maxentries with
  | inl same => exact of_eq (by rw [same]) (by rw [same])
  | inr browsed =>
      obtain ⟨p, fs₁, opened, browsed⟩ := browsed
      exact (openInode opened).trans (of_browsed browsed)

theorem copyInode (fs : Fs) (src new : Nat) : MarksKept fs (copyInode fs src new).2 := by
  rw [Snfs.copyInode]
  dsimp only
  have pinned := (pinInode fs src false).trans (pinInode (Snfs.pinInode fs src false).2 new true)
  generalize (Snfs.pinInode fs src false).1 = p at pinned ⊢
  generalize Snfs.pinInode (Snfs.pinInode fs src false).2 new true = target at pinned ⊢
  have copied := pinned.trans (copyBlocks p target.1 (target.2.deref p).used 0 target.2)
  split
  · rename_i stop
    rwa [stop] at copied
  · rename_i fs₁ done
    rw [done] at copied
    have sized := copied.trans (assign fs₁ target.1
      { fs₁.deref target.1 with size := (fs₁.deref p).size, type := .file })
    split
    · exact sized
    · dsimp only
      split
      · exact sized.trans (store _)
      · exact sized

theorem fsCopy {srcJunk dirJunk : Nat} {srcpath tgtpath : CString} {ok : Bool}
    (result : fsCopy fs srcJunk dirJunk srcpath tgtpath = some (ok, fs')) : MarksKept fs fs' := by
  rw [Snfs.fsCopy] at result
  have paths {found : Option (Nat × Nat × CString)} {s : Fs}
      (paths : copyPaths fs srcJunk dirJunk srcpath tgtpath = some (found, s)) : MarksKept fs s :=
    copyPaths_keeps (fun s dir name kept _ _ => kept.trans (of_same (fsiDirSearch_same s dir name)))
      (fun _ _ _ _ kept opened => kept.trans (openInode opened)) (refl fs) paths
  split at result
  · cases result
  · rename_i failed
    cases result
    exact paths failed
  · rename_i src dir name s found
    have made := (paths found).trans (fsMake .file s dir name)
    split at result
    · rename_i notMade
      cases result
      rw [fsCreate] at notMade
      rwa [notMade] at made
    · rename_i new s₁ created
      rw [fsCreate] at created
      rw [created] at made
      have copied := made.trans (copyInode s₁ src new)
      rw [Option.some.inj result] at copied
      exact copied

/-- No operation clears a bit. -/
theorem fsStep {op : FsOp} {res : FsResult} (next : fsStep fs op = some (res, fs')) :
    MarksKept fs fs' := by
  cases op with
  | lookup path =>
      cases next
      exact fsLookup fs path
  | getAttrs file =>
      obtain ⟨⟨attrs, s⟩, result, same⟩ := Option.map_eq_some_iff.mp next
      cases same
      exact fsGetAttrs result
  | read file offset count =>
      cases next
      exact fsRead fs file offset count
  | write file offset data =>
      cases next
      exact fsWrite fs file offset data
  | create dir name =>
      cases next
      exact fsMake .file fs dir name
  | mkdir dir name =>
      cases next
      exact fsMake .dir fs dir name
  | readdir dir maxentries =>
      cases next
      exact fsReaddir fs dir maxentries
  | copy srcJunk dirJunk srcpath tgtpath =>
      obtain ⟨⟨ok, s⟩, result, same⟩ := Option.map_eq_some_iff.mp next
      cases same
      exact fsCopy result

end MarksKept

end Snfs
