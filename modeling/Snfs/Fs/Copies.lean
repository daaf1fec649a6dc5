import Snfs.Fs.Refinement
import Snfs.Fs.Paths
import Snfs.Fs.Sightings

/-!
When `fs_copy` returns 0, and what is left when it does not. The entry and the
inode of the target are made before the blocks are allocated, so a copy that
runs out of blocks leaves them behind. A copy succeeds if no cached page hides
an entry on its paths and the directory of the target has a name that fits the
buffer for it.
-/

namespace Snfs

open Slots Runs DirTree

variable {own own' : Ledger} {top : Nat} {fs fs' : Fs} {src dir : Nat} {name : CString}

theorem copyPaths_eq_some {srcJunk dirJunk : Nat} {srcpath tgtpath : CString} {s : Fs} :
    copyPaths fs srcJunk dirJunk srcpath tgtpath = some (some (src, dir, name), s) ↔
      ∃ srcId s₁ attrs s₂ parent dirId,
        fsLookup fs srcpath = ((1, srcId), s₁) ∧ src = srcId.getD srcJunk ∧
        fsGetAttrs s₁ src = some (some attrs, s₂) ∧ attrs.type = .file ∧
        splitLast tgtpath = some (parent, name) ∧
        fsLookup s₂ parent = ((1, dirId), s) ∧ dir = dirId.getD dirJunk := by
  constructor
  · intro found
    rw [copyPaths] at found
    have code := fsLookup_code fs srcpath
    rcases looked : fsLookup fs srcpath with ⟨⟨c, srcId⟩, s₁⟩
    rw [looked] at found code
    simp only at found code
    split at found
    · cases found
    · rename_i pos
      split at found
      · cases found
      · cases found
      · rename_i attrs s₂ got
        split at found
        · cases found
        · rename_i isFile
          split at found
          · cases found
          · rename_i parent name' split
            have code' := fsLookup_code s₂ parent
            rcases looked' : fsLookup s₂ parent with ⟨⟨c', dirId⟩, s₃⟩
            rw [looked'] at found code'
            simp only at found code'
            split at found
            · cases found
            · rename_i pos'
              cases found
              obtain rfl := code.resolve_left pos
              obtain rfl := code'.resolve_left pos'
              exact ⟨srcId, s₁, attrs, s₂, parent, dirId, rfl, rfl, got, not_not.mp isFile, split,
                looked', rfl⟩
  · rintro ⟨srcId, s₁, attrs, s₂, parent, dirId, looked, rfl, got, isFile, split, looked', rfl⟩
    rw [copyPaths, looked]
    simp only [show ¬ ((1 : Int) ≤ 0) by decide, if_false, got, isFile, ne_eq, not_true_eq_false,
      split, looked']

theorem SameButDirs.seen (same : SameButDirs fs fs') (a : Nat) : fs'.seen a = fs.seen a := by
  rw [same]
  rfl

/-- The steps that find the paths leave what the source's pointer leads to. -/
theorem Inv.copyPaths_seen (h : Inv own top fs) {srcJunk dirJunk : Nat}
    {srcpath tgtpath : CString} {s : Fs}
    (paths : Snfs.copyPaths fs srcJunk dirJunk srcpath tgtpath = some (some (src, dir, name), s)) :
    s.seen src = fs.seen src := by
  obtain ⟨_, s₁, attrs, s₂, parent, _, looked, -, got, -, -, there, -⟩ :=
    copyPaths_eq_some.mp paths
  have same₁ := fsLookup_same fs srcpath
  rw [looked] at same₁
  have same₃ := fsLookup_same s₂ parent
  rw [there] at same₃
  rcases (same₁.inv h).fsGetAttrs_cases src with ⟨-, stop⟩ | ⟨_, _, opened, reported⟩
  · rw [got] at stop
    cases stop
  · rw [got] at reported
    obtain ⟨_, -, same⟩ := Option.map_eq_some_iff.mp reported.symm
    cases same
    rw [same₃.seen, seen_open opened, same₁.seen]

/-- The blocks are copied if there are enough beside the page that the new entry may need. -/
theorem Made.copyInode_enough (made : Made own own' top .file fs dir name fs') (h : Inv own top fs)
    (hsrc : src < top) (isFile : (fs.inodeTab src).type = .file)
    (room : Room fs (inodeNumBlks + 1)) :
    (copyInode fs' src top).1 = true ↔ SlotTaken fs' src ∨
      Volume.pageFor (dirEntries fs dir) + (fs.seen src).used ≤
        freeBits fs.blkBmap fs.numBlocks := by
  have absent := (made.coherent_new h).1
  have ne : src ≠ top := Nat.ne_of_lt hsrc
  have isNew : (fs'.inodeTab top).type = .file := by
    rw [made.tab_new]
    rfl
  obtain ⟨_, fs₂, pinned, -, quiet, -, -, enough⟩ := made.inv.copyInode (Nat.lt_succ_of_lt hsrc)
    (Nat.lt_succ_self top) ((made.type_old hsrc).trans isFile) isNew ne absent (made.room _ room)
  have count := made.free_count h (room.mono (by decide))
  have isDir : IsDir fs dir := ⟨made.creatable.inUse, made.creatable.isDir⟩
  have can : CanAdd fs dir name :=
    ⟨made.creatable, by rw [made.freeInode]; rfl, made.freeBlock⟩
  have page := ((h.canAdd_iff isDir name).mp can).2.2
  rw [enough, quiet.blkBmap, quiet.numBlocks, count, pinned]
  rcases deref_pinned_eq absent ne with ⟨taken, copy⟩ | ⟨kept, copy⟩
  · rw [copy, made.tab_new, fsiInodeInit_used]
    exact iff_of_true (Nat.zero_le _) (.inl taken)
  · rw [copy, made.seen_other hsrc (made.ne_dir isFile)]
    simp only [kept, false_or]
    omega

/-- A copy whose target can be made makes it, and returns 0 if there are enough blocks. -/
theorem Inv.copy_made (h : Inv own top fs) {srcJunk dirJunk : Nat} {srcpath tgtpath : CString}
    (noZero : (0 : UInt8) ∉ tgtpath) (room : Room fs (inodeNumBlks + 1)) {s : Fs}
    (paths : Snfs.copyPaths fs srcJunk dirJunk srcpath tgtpath = some (some (src, dir, name), s))
    (can : CanAdd s dir name) (missing : (fsiDirSearch s dir name).1 = none) :
    ∃ own₁ s₂ ok fs', fsCreate s dir name = (some top, s₂) ∧
      Made own own₁ top .file s dir name s₂ ∧ Frame (top + 1) s₂ fs' ∧
      fsCopy fs srcJunk dirJunk srcpath tgtpath = some (ok, fs') ∧
      (ok = true ↔ SlotTaken s₂ src ∨
        Volume.pageFor (dirEntries s dir) + (s.seen src).used ≤
          freeBits s.blkBmap s.numBlocks) := by
  obtain ⟨new, made⟩ := Option.isSome_iff_exists.mp
    ((fsMake_isSome .file s dir name).mpr ⟨can, missing⟩)
  have create : fsCreate s dir name = (some new, (fsCreate s dir name).2) := Prod.ext made rfl
  have result : fsCopy fs srcJunk dirJunk srcpath tgtpath =
      some (Snfs.copyInode (fsCreate s dir name).2 src new) := by
    rw [fsCopy, paths]
    simp only
    rw [create]
  generalize Snfs.copyInode (fsCreate s dir name).2 src new = ends at result
  obtain ⟨ok, fs'⟩ := ends
  cases h.fsCopy_ends noZero room result with
  | noPaths paths' =>
      rw [paths] at paths'
      cases paths'
  | notMade paths' _ _ create' =>
      rw [paths] at paths'
      cases paths'
      rw [create] at create'
      cases create'
  | made paths' inv quiet hsrc isFile create' made pinned inv₃ quiet₃ copy copied =>
      rw [paths] at paths'
      cases paths'
      have enough := made.copyInode_enough inv hsrc isFile
        (room.congr quiet.numBlocks quiet.blkBmap)
      rw [copy] at enough
      exact ⟨_, _, ok, fs', create', made, quiet₃.toFrame.trans copied.frame, result, enough⟩

/-- No directory has one entry more, no inode and no block is marked that was not, and every file
reports the bytes that it reported. -/
structure LeavesNothing (fs fs' : Fs) : Prop where
  entries : ∀ d, IsDir fs d → dirEntries fs' d = dirEntries fs d
  inodes : ∀ a, bmapIsset fs'.inodeBmap a = true → bmapIsset fs.inodeBmap a = true
  blocks : ∀ b, bmapIsset fs'.blkBmap b = true → bmapIsset fs.blkBmap b = true
  files : ∀ a, bmapIsset fs.inodeBmap a = true → (fs.inodeTab a).type = .file →
    ∃ xs, Reports fs a xs ∧ Reports fs' a xs

/-- The target can be made and there are too few blocks for its entry and the source's bytes. -/
structure TooFewBlocks (fs : Fs) (src dir : Nat) (name : CString) : Prop where
  can : CanAdd fs dir name
  few : freeBits fs.blkBmap fs.numBlocks <
    Volume.pageFor (dirEntries fs dir) + (fs.seen src).used

/-- There are too few blocks for the file that the paths name. The target is not found in its
directory, and the source is read through a slot of its own. -/
def CopyRunsOut (fs : Fs) (srcJunk dirJunk : Nat) (srcpath tgtpath : CString) : Prop :=
  ∃ src dir name s, copyPaths fs srcJunk dirJunk srcpath tgtpath = some (some (src, dir, name), s) ∧
    TooFewBlocks fs src dir name ∧ (fsiDirSearch s dir name).1 = none ∧
    ¬ SlotTaken (fsCreate s dir name).2 src

theorem Quiet.isDir (quiet : Quiet top fs fs') : IsDir fs' dir ↔ IsDir fs dir := by
  rw [IsDir, quiet.inodeBmap, quiet.type]
  rfl

theorem Quiet.canAdd (quiet : Quiet top fs fs') (h : Inv own top fs) (h' : Inv own' top fs')
    (isDir : IsDir fs dir) : CanAdd fs' dir name ↔ CanAdd fs dir name := by
  rw [h.canAdd_iff isDir, h'.canAdd_iff (quiet.isDir.mpr isDir),
    quiet.dirEntries (h.isDir_iff.mp isDir).1 isDir.2, quiet.blkBmap, quiet.numBlocks]

theorem Inv.copyPaths_tooFew (h : Inv own top fs) {srcJunk dirJunk : Nat}
    {srcpath tgtpath : CString} {s : Fs}
    (paths : Snfs.copyPaths fs srcJunk dirJunk srcpath tgtpath = some (some (src, dir, name), s)) :
    TooFewBlocks s src dir name ↔ TooFewBlocks fs src dir name := by
  obtain ⟨h', quiet, -⟩ := h.copyPaths paths
  have seen := h.copyPaths_seen paths
  have few (isDir : IsDir fs dir) : freeBits s.blkBmap s.numBlocks <
      Volume.pageFor (dirEntries s dir) + (s.seen src).used ↔ freeBits fs.blkBmap fs.numBlocks <
        Volume.pageFor (dirEntries fs dir) + (fs.seen src).used := by
    rw [quiet.dirEntries (h.isDir_iff.mp isDir).1 isDir.2, quiet.blkBmap, quiet.numBlocks, seen]
  constructor
  · rintro ⟨can, lack⟩
    have isDir := quiet.isDir.mp ⟨can.inUse, can.isDir⟩
    exact ⟨(quiet.canAdd h h' isDir).mp can, (few isDir).mp lack⟩
  · rintro ⟨can, lack⟩
    have isDir : IsDir fs dir := ⟨can.inUse, can.isDir⟩
    exact ⟨(quiet.canAdd h h' isDir).mpr can, (few isDir).mpr lack⟩

theorem Quiet.leavesNothing (quiet : Quiet top fs fs') (h : Inv own top fs)
    (files : ∀ a, bmapIsset fs.inodeBmap a = true → (fs.inodeTab a).type = .file →
      ∃ xs, Reports fs a xs ∧ Reports fs' a xs) : LeavesNothing fs fs' where
  entries d isDir := quiet.dirEntries (h.isDir_iff.mp isDir).1 isDir.2
  inodes a set := by rwa [quiet.inodeBmap] at set
  blocks b set := by rwa [quiet.blkBmap] at set
  files := files

theorem Inv.copy_reports (h : Inv own top fs) (files : FilesCoherent top fs)
    {srcJunk dirJunk : Nat} {srcpath tgtpath : CString} (noZero : (0 : UInt8) ∉ tgtpath)
    (room : Room fs (inodeNumBlks + 1)) {ok : Bool}
    (result : fsCopy fs srcJunk dirJunk srcpath tgtpath = some (ok, fs')) {a : Nat}
    (inUse : bmapIsset fs.inodeBmap a = true) (isFile : (fs.inodeTab a).type = .file) :
    ∃ xs, Reports fs a xs ∧ Reports fs' a xs := by
  have lt : a < top := by simpa [h.inodes.inUse] using inUse
  obtain ⟨own', top', kept⟩ := h.step_copy noZero room result
  have same := h.unchanged_copy lt isFile (files a lt isFile) noZero room result
  have reports := kept.inv.reports (Nat.lt_of_lt_of_le lt kept.top_le) ((kept.type a lt).trans isFile)
  rw [same.content] at reports
  exact ⟨_, h.reports lt isFile, reports⟩

theorem Inv.failed_copy_iff (h : Inv own top fs) (files : FilesCoherent top fs)
    {srcJunk dirJunk : Nat} {srcpath tgtpath : CString} (noZero : (0 : UInt8) ∉ tgtpath)
    (room : Room fs (inodeNumBlks + 1)) :
    (∀ fs', fsCopy fs srcJunk dirJunk srcpath tgtpath = some (false, fs') → LeavesNothing fs fs') ↔
      ¬ CopyRunsOut fs srcJunk dirJunk srcpath tgtpath := by
  constructor
  · rintro leaves ⟨src, dir, name, s, paths, before, missing, kept⟩
    have few := (h.copyPaths_tooFew paths).mpr before
    obtain ⟨own₁, s₂, ok, fs', create, made, frame, result, enough⟩ :=
      h.copy_made noZero room paths few.can missing
    rw [create] at kept
    have stopped : ok = false := by
      cases ok with
      | false => rfl
      | true => exact absurd (enough.mp rfl) (not_or.mpr ⟨kept, Nat.not_le.mpr few.few⟩)
    subst stopped
    have new := (leaves fs' result).inodes top
    rw [frame.inodeBmap, made.inv.inodes.inUse, h.inodes.inUse] at new
    simp at new
  · intro enough fs' result
    have files' (a : Nat) (inUse : bmapIsset fs.inodeBmap a = true) :=
      h.copy_reports files noZero room result inUse
    generalize stopped : false = ok at result
    cases h.fsCopy_ends noZero room result with
    | noPaths paths inv quiet => exact quiet.leavesNothing h files'
    | notMade paths inv quiet create searched =>
        exact (quiet.trans (searched.same.quiet top)).leavesNothing h files'
    | made paths inv quiet hsrc isFile create made pinned inv₃ quiet₃ copy copied =>
        have few := made.copyInode_enough inv hsrc isFile
          (room.congr quiet.numBlocks quiet.blkBmap)
        rw [copy, ← stopped] at few
        obtain ⟨kept, few⟩ := not_or.mp ((not_congr few).mp Bool.false_ne_true)
        have made' := (fsMake_isSome .file _ _ _).mp (Option.isSome_iff_exists.mpr
          ⟨_, congrArg Prod.fst create⟩)
        have before := (h.copyPaths_tooFew paths).mp ⟨made'.1, Nat.not_le.mp few⟩
        refine absurd ⟨_, _, _, _, paths, before, made'.2, ?_⟩ enough
        rwa [create]

structure PathsFit (srcpath tgtpath : CString) : Prop where
  srcNoZero : (0 : UInt8) ∉ srcpath
  tgtNoZero : (0 : UInt8) ∉ tgtpath
  short : srcpath.length < maxPathNameSize
  parts : PartsFit (splitLast tgtpath)

section Runs
variable {num : Nat} {clock : Nat → Int} {boot : Fs} {trace : List (FsOp × FsResult)}

/-- In a run that keeps the files: a copy that returns -1 leaves nothing behind exactly if it does
not run out of blocks after it has made its target. -/
theorem failed_copy_leaves_nothing_iff (data : 10 ≤ num) (unwrapped : num * blockSize < 2 ^ 32)
    (started : fsBoot num clock = some boot)
    (run : Run (Guarded (fun s e => KeepsFiles s e.1) FsNext) boot trace fs)
    {srcJunk dirJunk : Nat} {srcpath tgtpath : CString} (fit : PathsFit srcpath tgtpath)
    (room : Room fs (demand fs (.copy srcJunk dirJunk srcpath tgtpath))) :
    (∀ fs', fsCopy fs srcJunk dirJunk srcpath tgtpath = some (false, fs') → LeavesNothing fs fs') ↔
      ¬ CopyRunsOut fs srcJunk dirJunk srcpath tgtpath := by
  obtain ⟨own, top, inv, files⟩ := keepsFiles_inv data unwrapped started run
  exact inv.failed_copy_iff files fit.tgtNoZero room

end Runs

/-- The source is not there. -/
theorem failed_copy_leaves_nothing_iff_no_source :
    ∃ trace fs fs', fsAfter 16 (fun _ => 1) [.mkdir 1 [100], .create 2 [102]] = some (trace, fs) ∧
      fsCopy fs 0 0 [47, 100, 47, 103] [47, 100, 47, 104] = some (false, fs') ∧
      LeavesNothing fs fs' := by
  have boots : ((fsBoot 16 fun _ => 1).bind fun boot =>
      (execute fsStep boot [.mkdir 1 [100], .create 2 [102]]).map fun r =>
        (decide (Meets fsStep KeepsFiles boot [.mkdir 1 [100], .create 2 [102]]), r.2.numBlocks,
          (copyPaths r.2 0 0 [47, 100, 47, 103] [47, 100, 47, 104]).map fun q => q.1.isNone)) =
            some (true, 16, some true) := by decide +kernel
  obtain ⟨boot, started, facts⟩ := Option.bind_eq_some_iff.mp boots
  obtain ⟨⟨trace, fs⟩, calls, facts⟩ := Option.map_eq_some_iff.mp facts
  simp only [Prod.mk.injEq] at facts
  obtain ⟨met, num, paths⟩ := facts
  obtain ⟨⟨found, s⟩, paths, none⟩ := Option.map_eq_some_iff.mp paths
  obtain rfl := Option.isNone_iff_eq_none.mp none
  have copy : fsCopy fs 0 0 [47, 100, 47, 103] [47, 100, 47, 104] = some (false, s) := by
    rw [fsCopy, paths]
  have fit : PathsFit [47, 100, 47, 103] [47, 100, 47, 104] :=
    ⟨by decide, by decide, by decide, by decide⟩
  have enough : ¬ CopyRunsOut fs 0 0 [47, 100, 47, 103] [47, 100, 47, 104] := by
    rintro ⟨_, _, _, _, found, -⟩
    rw [paths] at found
    cases found
  have leaves := (failed_copy_leaves_nothing_iff (by decide) (by decide) started
    (run_of_execute calls (of_decide_eq_true met)) fit (.inl (by rw [num]; decide))).mpr enough
  exact ⟨trace, fs, s, by rw [fsAfter, started]; exact calls, copy, leaves s copy⟩

/-- A file of two blocks is copied on a full device. -/
theorem failed_copy_keeps_target :
    ¬ ∀ num clock trace fs fs' srcJunk dirJunk srcpath tgtpath, 10 ≤ num →
      FsRun num clock trace fs → PathsFit srcpath tgtpath →
      fsCopy fs srcJunk dirJunk srcpath tgtpath = some (false, fs') → LeavesNothing fs fs' := by
  intro leaves
  have facts : (fsAfter 14 (fun _ => 1) [.mkdir 1 [100], .create 2 [102], .getAttrs 3,
      .write 3 0 (List.replicate 600 7)]).map (fun r => (bmapIsset r.2.inodeBmap 4,
        (fsCopy r.2 0 0 [47, 100, 47, 102] [47, 100, 47, 103]).map fun c =>
          (c.1, bmapIsset c.2.inodeBmap 4))) = some (false, some (false, true)) := by
    decide +kernel
  obtain ⟨⟨trace, fs⟩, calls, facts⟩ := Option.map_eq_some_iff.mp facts
  simp only [Prod.mk.injEq] at facts
  obtain ⟨clear, copied⟩ := facts
  obtain ⟨⟨ok, fs'⟩, copy, facts⟩ := Option.map_eq_some_iff.mp copied
  simp only [Prod.mk.injEq] at facts
  obtain ⟨rfl, set⟩ := facts
  have short : (List.replicate 600 (7 : UInt8)).length ≤ 1024 := by
    rw [List.length_replicate]
    decide
  have run := FsRun.of_calls calls (by
    simp only [List.mem_cons, List.not_mem_nil, or_false, forall_eq_or_imp, forall_eq, FsOp.Fits]
    exact ⟨by decide, by decide, trivial, short⟩)
  have old := (leaves 14 _ _ fs fs' 0 0 _ _ (by decide) run
    ⟨by decide, by decide, by decide, by decide⟩ copy).inodes 4 set
  rw [clear] at old
  cases old

def findsSource (fs : Fs) (srcJunk : Nat) (srcpath : CString) : Bool :=
  let ((found, srcId), fs) := fsLookup fs srcpath
  if found ≤ 0 then false
  else
    match fsGetAttrs fs (srcId.getD srcJunk) with
    | some (some attrs, _) => attrs.type == .file
    | _ => false

/-- `fs_copy` with the buffers `target_dir` and `target_name`; no value where it copies a part of
the target path to one of them that does not fit. -/
def fsCopyBuffered (fs : Fs) (srcJunk dirJunk : Nat) (srcpath tgtpath : CString) :
    Option (Option (Bool × Fs)) :=
  if findsSource fs srcJunk srcpath = true ∧ ¬ PartsFit (splitLast tgtpath) then none
  else some (fsCopy fs srcJunk dirJunk srcpath tgtpath)

/-- The source path names a file, the target's name is new in the directory that the rest of the
target path names, and an inode and blocks for the copy are free. -/
structure Copyable (fs : Fs) (srcpath parent name : CString) (src dir : Nat) : Prop where
  srcPath : RootPath srcpath
  source : (treeOf fs).Leads 1 (components srcpath) src
  inUse : bmapIsset fs.inodeBmap src = true
  isFile : (fs.inodeTab src).type = .file
  rooted : parent = [] ∨ parent.head? = some slash
  noZero : (0 : UInt8) ∉ parent ++ slash :: name
  short : (parent ++ slash :: name).length < maxPathNameSize
  target : (treeOf fs).Leads 1 (components parent) dir
  isDir : IsDir fs dir
  noSlash : slash ∉ name
  length : 1 ≤ name.length ∧ name.length ≤ 13
  absent : plainSearch fs dir name = none
  freeInode : ∃ a, a < itabSize ∧ bmapIsset fs.inodeBmap a = false
  freeBlocks : Volume.pageFor (dirEntries fs dir) + (fs.seen src).used ≤
    freeBits fs.blkBmap fs.numBlocks

structure NewFile (fs : Fs) (dir : Nat) (name : CString) (new : Nat) (fs' : Fs) : Prop where
  free : bmapIsset fs.inodeBmap new = false
  inUse : bmapIsset fs'.inodeBmap new = true
  isFile : (fs'.inodeTab new).type = .file
  entries : dirEntries fs' dir = dirEntries fs dir ++ [(name, new)]
  others : ∀ d, IsDir fs d → d ≠ dir → dirEntries fs' d = dirEntries fs d

/-- Whatever the variables for the two numbers hold before, the copy finds the source and the
directory, returns 0 and has made the file. -/
def CopySucceeds (fs : Fs) (srcpath parent name : CString) (src dir : Nat) : Prop :=
  ∀ srcJunk dirJunk, ∃ s new fs',
    copyPaths fs srcJunk dirJunk srcpath (parent ++ slash :: name) =
      some (some (src, dir, name), s) ∧
    fsCopyBuffered fs srcJunk dirJunk srcpath (parent ++ slash :: name) = some (some (true, fs')) ∧
    NewFile fs dir name new fs'

/-- No cached page hides an entry on the path, and no directory has a second one of its name. -/
def Unhidden (fs : Fs) (path : CString) : Prop :=
  ∀ done name rest d a, components path = done ++ name :: rest →
    (treeOf fs).Leads 1 done d → (treeOf fs).entry d name = some a → Plain fs d (name, a)

theorem DirTree.Leads.passes {tree : DirTree} {entry : Nat → CString × Nat → Prop} {a b : Nat}
    {names : List CString} (leads : tree.Leads a names b)
    (each : ∀ done name rest d c, names = done ++ name :: rest → tree.Leads a done d →
      tree.entry d name = some c → entry d (name, c)) : Passes entry a names b := by
  induction leads with
  | here a => exact .here a
  | @down a b c name names dir found rest ih =>
      refine .down (each [] name names a b rfl (.here a) found) (ih ?_)
      intro done name' rest' d c' split leads found'
      exact each (name :: done) name' rest' d c' (by rw [split]; rfl) (.down dir found leads) found'

private theorem unhidden_of_passes {path : CString} {b : Nat}
    (passes : Passes (Plain fs) 1 (components path) b) : Unhidden fs path := by
  intro done name rest d a split leads found
  generalize (1 : Nat) = first at passes leads
  rw [split] at passes
  have only {d a c : Nat} {name : CString} (plain : Plain fs d (name, c))
      (found : (treeOf fs).entry d name = some a) : a = c := by
    obtain ⟨e, hit, same⟩ := Option.map_eq_some_iff.mp found
    have here : e.1 = name :=
      eq_of_beq (List.find?_some (p := fun e : CString × Nat => e.1 == name) hit)
    exact plain.only a (by rw [← here, ← same]; exact List.mem_of_find?_eq_some hit)
  clear split
  induction done generalizing first with
  | nil =>
      cases leads
      cases passes with
      | down plain _ => exact only plain found ▸ plain
  | cons token done ih =>
      cases leads with
      | down _ entry leads =>
          cases passes with
          | down plain later => exact ih _ later (only plain entry ▸ leads)

/-- What is left of a creation by steps that keep the frame. -/
theorem Made.newFile {s s₂ : Fs} (made : Made own own' top .file s dir name s₂)
    (h : Inv own top fs) (quiet : Quiet top fs s) (frame : Frame (top + 1) s₂ fs')
    (isDir : IsDir fs dir) : NewFile fs dir name top fs' := by
  have entries (d : Nat) (old : IsDir fs d) :
      dirEntries s d = dirEntries fs d ∧ dirEntries fs' d = dirEntries s₂ d := by
    obtain ⟨lt, type⟩ := h.isDir_iff.mp old
    have type₂ : (s₂.inodeTab d).type = .dir :=
      (made.type_old lt).trans ((quiet.type d).trans type)
    exact ⟨quiet.dirEntries lt type, frame.dirEntries (Nat.lt_succ_of_lt lt) type₂⟩
  constructor
  · rw [h.inodes.inUse]
    simp
  · rw [frame.inodeBmap, made.inv.inodes.inUse]
    simp
  · rw [frame.type, made.tab_new]
    rfl
  · rw [(entries dir isDir).2, made.entries_dir, (entries dir isDir).1]
  · intro d old ne
    rw [(entries d old).2, made.entries_other d (h.isDir_iff.mp old).1 ne, (entries d old).1]

section Copyable
variable {srcpath parent : CString}

/-- A path to a file has a component, the root is none. -/
theorem Copyable.named (copyable : Copyable fs srcpath parent name src dir) (h : Inv own top fs) :
    components srcpath ≠ [] := by
  intro bare
  have leads := copyable.source
  rw [bare] at leads
  cases leads
  have type := copyable.isFile
  rw [h.inodes.root] at type
  cases type

theorem Copyable.copyPaths (copyable : Copyable fs srcpath parent name src dir)
    (h : Inv own top fs) (sighted : Sighted fs) (source : Unhidden fs srcpath)
    (target : Unhidden fs parent) (named : components parent ≠ []) :
    ∃ s, (∀ srcJunk dirJunk, Snfs.copyPaths fs srcJunk dirJunk srcpath (parent ++ slash :: name) =
        some (some (src, dir, name), s)) ∧ (fsiDirSearch s dir name).1 = none := by
  have lt : src < top := by simpa [h.inodes.inUse] using copyable.inUse
  have rooted : parent.head? = some slash :=
    copyable.rooted.resolve_left fun empty => named (by rw [empty]; rfl)
  have looked := sighted.fsLookup_passes h copyable.srcPath.rooted (copyable.named h)
    (copyable.source.passes source)
  have glanced₁ := sighted.fsLookup_glanced h srcpath
  have same₁ := glanced₁.same
  have h₁ := same₁.inv h
  have type : ((fsLookup fs srcpath).2.seen src).type = .file := by
    rw [same₁.seen, h.type_seen]
    exact copyable.isFile
  rcases h₁.fsGetAttrs_cases src with ⟨out, -⟩ | ⟨p, s₂, opened, reported⟩
  · exact absurd lt (Nat.not_lt.mpr out)
  rw [attrsOf, type] at reported
  obtain ⟨-, h₂, quiet₂, -⟩ := h₁.openInode opened
  have kept := (h₁.calm_open opened).keepsEntries h₁
  have sighted₂ := glanced₁.sighted.keepsEntries kept
  have entries {d : Nat} (isDir : IsDir fs d) : dirEntries s₂ d = dirEntries fs d := by
    obtain ⟨below, kind⟩ := h₁.isDir_iff.mp (same₁.isDir.mpr isDir)
    rw [quiet₂.dirEntries below kind, same₁]
    rfl
  have way : Passes (Plain s₂) 1 (components parent) dir :=
    (copyable.target.passes target).mono (fun d e some plain => plain.kept some
      (glanced₁.keeps.trans kept.keepsSeen) (entries plain.seen.hasEntry.1))
      (components_nonempty parent)
  have there := sighted₂.fsLookup_passes h₂ rooted named way
  have glanced₃ := sighted₂.fsLookup_glanced h₂ parent
  have isDir₂ : IsDir s₂ dir :=
    (kept.isDir dir (same₁.isDir.mpr copyable.isDir).1).mpr (same₁.isDir.mpr copyable.isDir)
  have nonempty : name ≠ [] := by
    rintro rfl
    exact absurd copyable.length.1 (by decide)
  refine ⟨(fsLookup s₂ parent).2, fun srcJunk dirJunk => ?_, ?_⟩
  · exact copyPaths_eq_some.mpr ⟨some src, _, _, s₂, parent, some dir, Prod.ext looked rfl, rfl,
      reported, rfl, splitLast_append copyable.noSlash, Prod.ext there rfl, rfl⟩
  · refine glanced₃.sighted.search_absent (glanced₃.same.inv h₂) (glanced₃.same.isDir.mpr isDir₂)
      nonempty ?_
    have device : dirEntries (fsLookup s₂ parent).2 dir = dirEntries fs dir := by
      rw [← entries copyable.isDir, glanced₃.same]
      rfl
    rw [plainSearch, device]
    exact copyable.absent

theorem Copyable.succeeds (copyable : Copyable fs srcpath parent name src dir)
    (h : Inv own top fs) (sighted : Sighted fs) (room : Room fs (inodeNumBlks + 1))
    (named : components parent ≠ []) (fits : parent.length < fsMaxFnameSz)
    (source : Unhidden fs srcpath) (target : Unhidden fs parent) :
    CopySucceeds fs srcpath parent name src dir := by
  intro srcJunk dirJunk
  obtain ⟨s, found, missing⟩ := copyable.copyPaths h sighted source target named
  have paths := found srcJunk dirJunk
  have seen := h.copyPaths_seen paths
  obtain ⟨h₁, quiet₁, -⟩ := h.copyPaths paths
  have entries (d : Nat) (isDir : IsDir fs d) : dirEntries s d = dirEntries fs d :=
    quiet₁.dirEntries (h.isDir_iff.mp isDir).1 isDir.2
  have isDir₁ : IsDir s dir := quiet₁.isDir.mpr copyable.isDir
  have length := copyable.length
  have free := copyable.freeBlocks
  rw [← entries dir copyable.isDir, ← seen, ← quiet₁.blkBmap, ← quiet₁.numBlocks] at free
  have inode : top < itabSize := by
    obtain ⟨a, small, clear⟩ := copyable.freeInode
    have := h.inodes.inUse a
    rw [clear] at this
    have : ¬ a < top := by simpa using this.symm
    omega
  have nonempty : name ≠ [] := by
    rintro rfl
    exact absurd length.1 (by decide)
  have short : name.length < fsMaxFnameSz := Nat.lt_succ_of_le length.2
  have can := (h₁.canAdd_iff isDir₁ name).mpr
    ⟨⟨nonempty, short⟩, inode, Nat.le_trans (Nat.le_add_right _ _) free⟩
  obtain ⟨own₁, s₂, ok, fs', -, made, frame, result, enough⟩ :=
    h.copy_made copyable.noZero room paths can missing
  obtain rfl : ok = true := enough.mpr (.inr free)
  refine ⟨s, top, fs', paths, ?_, made.newFile h quiet₁ frame copyable.isDir⟩
  rw [fsCopyBuffered, if_neg, result]
  rintro ⟨-, overflow⟩
  rw [splitLast_append copyable.noSlash] at overflow
  exact overflow ⟨fits, short⟩

private theorem fsLookup_bare (fs : Fs) (bare : components parent = []) :
    (fsLookup fs parent).1.2 = none := by
  rw [fsLookup, bare]
  split <;> rfl

/-- Only a directory that its path names by a component, and that fits the buffer, is copied to. -/
theorem Copyable.of_succeeds (copyable : Copyable fs srcpath parent name src dir)
    (succeeds : CopySucceeds fs srcpath parent name src dir) :
    components parent ≠ [] ∧ parent.length < fsMaxFnameSz := by
  obtain ⟨s, new, fs', paths, buffered, -⟩ := succeeds (src + 1) (dir + 1)
  obtain ⟨srcId, s₁, attrs, s₂, parent', dirId, looked, srcSet, got, isFile, split, there, dirSet⟩ :=
    copyPaths_eq_some.mp paths
  rw [splitLast_append copyable.noSlash] at split
  cases split
  have srcFound : srcId = some src := by
    cases srcId with
    | none => simp at srcSet
    | some a => exact congrArg some srcSet.symm
  have dirFound : dirId = some dir := by
    cases dirId with
    | none => simp at dirSet
    | some a => exact congrArg some dirSet.symm
  subst srcFound dirFound
  refine ⟨fun bare => ?_, ?_⟩
  · have none := fsLookup_bare s₂ bare
    rw [there] at none
    cases none
  · have finds : findsSource fs (src + 1) srcpath = true := by
      rw [findsSource, looked]
      simp [got, isFile]
    rw [fsCopyBuffered] at buffered
    split at buffered
    · cases buffered
    rename_i fits
    have parts : PartsFit (splitLast (parent ++ slash :: name)) := by
      by_contra overflow
      exact fits ⟨finds, overflow⟩
    rw [splitLast_append copyable.noSlash] at parts
    exact parts.1

end Copyable

section Runs
variable {num : Nat} {clock : Nat → Int} {boot : Fs} {trace : List (FsOp × FsResult)}

/-- Where no cached page hides an entry on its paths, a copy that should succeed does so exactly if
the directory of the target is named by a path with a component that fits the buffer. -/
theorem copy_succeeds_iff (data : 10 ≤ num) (unwrapped : num * blockSize < 2 ^ 32)
    (started : fsBoot num clock = some boot)
    (run : Run (Guarded (fun s e => Within s e.1) FsNext) boot trace fs)
    {srcpath parent : CString} (room : Room fs (inodeNumBlks + 1))
    (copyable : Copyable fs srcpath parent name src dir) (source : Unhidden fs srcpath)
    (target : Unhidden fs parent) :
    CopySucceeds fs srcpath parent name src dir ↔
      components parent ≠ [] ∧ parent.length < fsMaxFnameSz := by
  obtain ⟨own, top, inv, trusted⟩ := trusted_run data unwrapped started run
  exact ⟨copyable.of_succeeds, fun condition => copyable.succeeds inv trusted.remembers.sighted room
    condition.1 condition.2 source target⟩

end Runs

/-- `"/d/f"` is copied to `"/d/g"`. -/
theorem copy_succeeds_iff_same_dir :
    ∃ trace fs, fsAfter 16 (fun _ => 1) [.mkdir 1 [100], .create 2 [102]] = some (trace, fs) ∧
      CopySucceeds fs [47, 100, 47, 102] [47, 100] [103] 3 2 := by
  have boots : ((fsBoot 16 fun _ => 1).bind fun boot =>
      (execute fsStep boot [.mkdir 1 [100], .create 2 [102]]).map fun r =>
        (decide (Meets fsStep Within boot [.mkdir 1 [100], .create 2 [102]] ∧ r.2.numBlocks = 16),
          decide ((IsDir r.2 1 ∧ IsDir r.2 2) ∧ plainSearch r.2 1 [100] = some 2 ∧
            plainSearch r.2 2 [102] = some 3 ∧ plainSearch r.2 2 [103] = none),
          decide (bmapIsset r.2.inodeBmap 3 = true ∧ (r.2.inodeTab 3).type = .file ∧
            bmapIsset r.2.inodeBmap 4 = false ∧ Volume.pageFor (dirEntries r.2 2) +
              (r.2.seen 3).used ≤ freeBits r.2.blkBmap r.2.numBlocks),
          decide ((dirEntries r.2 1 = [([100], 2)] ∧ shownEntry r.2 1 0 = ([100], 2)) ∧
            dirEntries r.2 2 = [([102], 3)] ∧ shownEntry r.2 2 0 = ([102], 3)))) =
              some (true, true, true, true) := by
    decide +kernel
  obtain ⟨boot, started, facts⟩ := Option.bind_eq_some_iff.mp boots
  obtain ⟨⟨trace, fs⟩, calls, facts⟩ := Option.map_eq_some_iff.mp facts
  simp only [Prod.mk.injEq, decide_eq_true_eq] at facts
  obtain ⟨⟨met, num⟩, ⟨⟨root, isDir⟩, first, second, absent⟩, ⟨inUse, isFile, free, blocks⟩,
    inRoot, inDir⟩ := facts
  have source : (treeOf fs).Leads 1 (components [47, 100, 47, 102]) 3 := by
    rw [show components [47, 100, 47, 102] = [[100], [102]] by decide]
    exact .down root first (.down isDir second (.here 3))
  have target : (treeOf fs).Leads 1 (components [47, 100]) 2 := by
    rw [show components [47, 100] = [[100]] by decide]
    exact .down root first (.here 2)
  have copyable : Copyable fs [47, 100, 47, 102] [47, 100] [103] 3 2 :=
    { srcPath := ⟨rfl, by decide, by decide⟩
      source := source
      inUse := inUse
      isFile := isFile
      rooted := .inr rfl
      noZero := by decide
      short := by decide
      target := target
      isDir := isDir
      noSlash := by decide
      length := by decide
      absent := absent
      freeInode := ⟨4, by decide, free⟩
      freeBlocks := blocks }
  have way : Plain fs 1 ([100], 2) := plain_of_lone root inRoot.1 inRoot.2
  have file : Plain fs 2 ([102], 3) := plain_of_lone isDir inDir.1 inDir.2
  have succeeds := (copy_succeeds_iff (by decide) (by decide) started
    (run_of_execute calls met) (.inl (by rw [num]; decide)) copyable
    (unhidden_of_passes (.down way (.down file (.here 3))))
    (unhidden_of_passes (.down way (.here 2)))).mpr (by decide)
  exact ⟨trace, fs, by rw [fsAfter, started]; exact calls, succeeds⟩

/-- No copy to the root: `"/f"` is copied to `"/g"`. -/
theorem copy_to_root_fails :
    ¬ ∀ num clock trace fs srcpath parent name src dir, 10 ≤ num → FsRun num clock trace fs →
      Copyable fs srcpath parent name src dir → CopySucceeds fs srcpath parent name src dir := by
  intro succeeds
  have facts : (fsAfter 16 (fun _ => 1) [.create 1 [102]]).map (fun r =>
      (decide (IsDir r.2 1 ∧ plainSearch r.2 1 [102] = some 2 ∧ plainSearch r.2 1 [103] = none),
        decide (bmapIsset r.2.inodeBmap 2 = true ∧ (r.2.inodeTab 2).type = .file ∧
          bmapIsset r.2.inodeBmap 3 = false ∧ Volume.pageFor (dirEntries r.2 1) +
            (r.2.seen 2).used ≤ freeBits r.2.blkBmap r.2.numBlocks))) = some (true, true) := by
    decide +kernel
  obtain ⟨⟨trace, fs⟩, calls, facts⟩ := Option.map_eq_some_iff.mp facts
  simp only [Prod.mk.injEq, decide_eq_true_eq] at facts
  obtain ⟨⟨root, first, absent⟩, inUse, isFile, free, blocks⟩ := facts
  have source : (treeOf fs).Leads 1 (components [47, 102]) 2 := by
    rw [show components [47, 102] = [[102]] by decide]
    exact .down root first (.here 2)
  have copyable : Copyable fs [47, 102] [] [103] 2 1 :=
    { srcPath := ⟨rfl, by decide, by decide⟩
      source := source
      inUse := inUse
      isFile := isFile
      rooted := .inl rfl
      noZero := by decide
      short := by decide
      target := .here 1
      isDir := root
      noSlash := by decide
      length := by decide
      absent := absent
      freeInode := ⟨3, by decide, free⟩
      freeBlocks := blocks }
  obtain ⟨s, new, fs', paths, -⟩ := succeeds 16 _ trace fs _ _ _ _ _ (by decide)
    (FsRun.of_calls calls (by simp [FsOp.Fits])) copyable 0 0
  obtain ⟨_, _, _, s₂, parent, _, _, _, _, _, split, there, _⟩ := copyPaths_eq_some.mp paths
  rw [splitLast_append (by decide)] at split
  cases split
  cases there

end Snfs
