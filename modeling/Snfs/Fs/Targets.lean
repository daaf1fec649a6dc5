import Snfs.Fs.Contents
import Snfs.Fs.Integrity

/-!
The files that `fs_copy` makes. The blocks and the size of the target go to its
entry in the inode table, behind the dirty copy of the empty inode that `fs_copy`
has put into the inode cache before. What the operations see of a target is the
empty file of that copy.
-/

namespace Snfs

open Slots Runs

variable {own : Ledger} {top : Nat} {fs fs' : Fs} {a : Nat}

theorem Inv.top_congr (h : Inv own top fs) {own' : Ledger} {top' : Nat} (h' : Inv own' top' fs')
    (same : fs'.inodeBmap = fs.inodeBmap) : top' = top := by
  have bit (a : Nat) : a < top' ↔ a < top := by
    rw [← decide_eq_decide, ← h'.inodes.inUse, same, h.inodes.inUse]
  exact Nat.le_antisymm (Nat.le_of_not_lt fun lt => Nat.lt_irrefl _ ((bit top).mp lt))
    (Nat.le_of_not_lt fun lt => Nat.lt_irrefl _ ((bit top').mpr lt))

theorem Inv.top_unique {own' : Ledger} {top' : Nat} (h : Inv own top fs) (h' : Inv own' top' fs) :
    top' = top :=
  h.top_congr h' rfl

/-- The dirty copy of an inode that was not cached stays as it is while only the table entry of
that inode changes. -/
theorem coherent_behind_dirty (absent : fs.inodeCache.Absent a) (v : Fin inodeCacheSize)
    (only : OnlyAt (.table a) (addInodeAt fs v a true) fs') :
    Coherent fs' a ∧ fs'.seen a = fs.inodeTab a := by
  obtain ⟨coherent, -⟩ := Coherent.addInodeAt_new absent v true
  have slot : (addInodeAt fs v a true).inodeCache v = ⟨a, fs.inodeTab a, true, fs.now⟩ := by
    rw [addInodeAt_self, Table.evict_of_ne _ (absent v)]
  have cache : fs'.inodeCache = (addInodeAt fs v a true).inodeCache := by
    funext s
    exact only.slot s nofun
  have here : ((addInodeAt fs v a true).inodeCache v).key = a := by rw [slot]
  have single := coherent.single
  rw [← cache] at slot here single
  refine ⟨⟨single, fun s key clean => ?_⟩, ?_⟩
  · rw [single s v key here, slot] at clean
    cases clean
  · rw [Fs.seen, Table.view_of_single single here, slot]

/-- The target of `fs_copy`, whatever blocks were copied for it. -/
theorem Made.coherent_target {own₁ own' : Ledger} {src dir : Nat} {name : CString} {fs₁ fs₂ : Fs}
    (made : Made own own₁ top .file fs dir name fs₁) (h : Inv own top fs) (hsrc : src < top)
    (pinned : fs₂ = addInodeToCache (Snfs.pinInode fs₁ src false).2 top true)
    (copied : Copied own₁ own' (top + 1) (.table top) fs₂ fs') :
    Coherent fs' top ∧ fs'.seen top = fsiInodeInit .file := by
  obtain ⟨absent₁, -, -⟩ := made.coherent_new h
  obtain ⟨absent, tab⟩ := pinInode_absent absent₁ (Nat.ne_of_gt hsrc) false
  subst pinned
  rw [← made.tab_new, ← tab]
  exact coherent_behind_dirty absent _ copied.only

/-- A call of any operation leaves the inodes that it makes coherent and empty. -/
theorem Inv.step_new (h : Inv own top fs) {op : FsOp} (fits : op.Fits)
    (room : Room fs (demand fs op)) {res : FsResult} (next : fsStep fs op = some (res, fs')) :
    ∃ own' top', StepKept own own' top top' fs op fs' ∧
      ∀ a, top ≤ a → a < top' → Coherent fs' a ∧ (fs'.seen a).size = 0 := by
  obtain ⟨own', top', kept⟩ := h.step fits room next
  refine ⟨own', top', kept, ?_⟩
  -- no inode is made, or the inode `top` is
  have nothing {own₁ : Ledger} (inv : Inv own₁ top fs') (a : Nat) (low : top ≤ a) (lt : a < top') :
      Coherent fs' a ∧ (fs'.seen a).size = 0 := by
    rw [inv.top_unique kept.inv] at lt
    exact absurd lt (Nat.not_lt.mpr low)
  have one {own₁ : Ledger} {type : Itype} (inv : Inv own₁ (top + 1) fs')
      (new : Coherent fs' top ∧ fs'.seen top = fsiInodeInit type) (a : Nat) (low : top ≤ a)
      (lt : a < top') : Coherent fs' a ∧ (fs'.seen a).size = 0 := by
    rw [inv.top_unique kept.inv] at lt
    obtain ⟨coherent, seen⟩ := new
    rw [show a = top by omega, seen]
    exact ⟨coherent, rfl⟩
  have same (none : createCall fs op = none) : Inv own' top fs' := by
    have frame := kept.frame
    rw [afterCreate, none] at frame
    have inUse (a : Nat) : a < top' ↔ a < top := by
      rw [← decide_eq_decide, ← kept.inv.inodes.inUse, frame.inodeBmap, h.inodes.inUse]
    have := (inUse top).not.mpr (Nat.lt_irrefl top)
    have := (inUse top').not.mp (Nat.lt_irrefl top')
    rw [show top = top' by omega]
    exact kept.inv
  have make {type : Itype} (kind : type = .dir ∨ type = .file) {dir : Nat} {name : CString}
      (noZero : (0 : UInt8) ∉ name) (room : Room fs 1)
      (result : (Snfs.fsMake type fs dir name).2 = fs') (a : Nat) (low : top ≤ a) (lt : a < top') :
      Coherent fs' a ∧ (fs'.seen a).size = 0 := by
    rcases h.fsMake type kind dir noZero room with ⟨fs₁, stop, searched⟩ | ⟨own₁, fs₁, done, made⟩
    · rw [stop] at result
      subst result
      exact nothing (searched.same.inv h) a low lt
    · rw [done] at result
      subst result
      exact one made.inv (made.coherent_new h).2 a low lt
  cases op with
  | lookup _ | getAttrs _ | read _ _ _ | write _ _ _ | readdir _ _ => exact nothing (same rfl)
  | create dir name =>
      simp only [fsStep] at next
      cases next
      exact make (.inr rfl) fits room rfl
  | mkdir dir name =>
      simp only [fsStep] at next
      cases next
      exact make (.inl rfl) fits room rfl
  | copy srcJunk dirJunk srcpath tgtpath =>
      obtain ⟨⟨ok, fs₁⟩, done, same⟩ := Option.map_eq_some_iff.mp next
      cases same
      cases h.fsCopy_ends fits.2.1 room done with
      | noPaths _ inv => exact nothing inv
      | notMade _ inv _ _ searched => exact nothing (searched.same.inv inv)
      | made _ inv _ hsrc _ _ made pinned _ _ _ copied =>
          exact one copied.inv (made.coherent_target inv hsrc pinned copied)

def FilesCoherent (top : Nat) (fs : Fs) : Prop :=
  ∀ a, a < top → (fs.inodeTab a).type = .file → Coherent fs a

theorem FilesCoherent.step (files : FilesCoherent top fs) (h : Inv own top fs) {op : FsOp}
    {res : FsResult} (guard : KeepsFiles fs op) (next : fsStep fs op = some (res, fs')) :
    ∃ own' top', StepKept own own' top top' fs op fs' ∧ FilesCoherent top' fs' := by
  obtain ⟨fits, room, safe⟩ := guard
  obtain ⟨own', top', kept, new⟩ := h.step_new fits room next
  refine ⟨own', top', kept, fun a lt isFile => ?_⟩
  by_cases old : a < top
  swap
  · exact (new a (Nat.not_lt.mp old) lt).1
  have type : (fs.inodeTab a).type = .file := (kept.type a old).symm.trans isFile
  by_cases written : WritesTo a (op, res)
  · obtain ⟨offset, data, rfl, result⟩ := written.written next
    exact (h.write_self old (files a old type) fits room safe result).1
  · exact (h.unchanged_step old type (files a old type) fits room next written).coherent

theorem Inv.filesCoherent_two (h : Inv own 2 fs) : FilesCoherent 2 fs := by
  intro a lt isFile
  obtain rfl | rfl : a = 0 ∨ a = 1 := by omega
  · rw [h.inodes.zero] at isFile
    cases isFile
  · rw [h.inodes.root] at isFile
    cases isFile

section Runs
variable {num : Nat} {clock : Nat → Int} {boot s s' : Fs} {trace : List (FsOp × FsResult)}

theorem keepsFiles_inv (data : 10 ≤ num) (unwrapped : num * blockSize < 2 ^ 32)
    (started : fsBoot num clock = some boot)
    (run : Run (Guarded (fun s e => KeepsFiles s e.1) FsNext) boot trace s) :
    ∃ own top, Inv own top s ∧ FilesCoherent top s := by
  have inv := (fsBoot_formatted data unwrapped started).inv data
  refine run.invariant (I := fun s => ∃ own top, Inv own top s ∧ FilesCoherent top s)
    ⟨_, 2, inv, inv.filesCoherent_two⟩ ?_
  rintro s ⟨op, res⟩ s' ⟨own, top, inv, files⟩ ⟨guard, next⟩
  obtain ⟨own', top', kept, files'⟩ := files.step inv guard next
  exact ⟨own', top', kept.inv, files'⟩

theorem Inv.reports_run {a : Nat} (h : Inv own top s) (ha : a < top)
    (isFile : (s.inodeTab a).type = .file) (coherent : Coherent s a)
    (run : Run (Guarded (fun s e => KeepsFiles s e.1 ∧ ¬ WritesTo a e) FsNext) s trace s') :
    Reports s' a (Snfs.content s a) := by
  obtain ⟨own', top', inv, lt, isFile', -, same⟩ := run.invariant
    (I := fun t => ∃ own top, Inv own top t ∧ a < top ∧ (t.inodeTab a).type = .file ∧
      Coherent t a ∧ Snfs.content t a = Snfs.content s a)
    ⟨own, top, h, ha, isFile, coherent, rfl⟩
    (by
      rintro t ⟨op, res⟩ t' ⟨own, top, inv, lt, isFile, coherent, same⟩ ⟨⟨guard, other⟩, next⟩
      obtain ⟨own', top', kept⟩ := inv.step guard.1 guard.2.1 next
      have unchanged := inv.unchanged_step lt isFile coherent guard.1 guard.2.1 next other
      exact ⟨own', top', kept.inv, Nat.lt_of_lt_of_le lt kept.top_le,
        (kept.type a lt).trans isFile, unchanged.coherent, unchanged.content.trans same⟩)
  rw [← same]
  exact inv.reports lt isFile'

def CopiesTo (fs : Fs) (srcJunk dirJunk : Nat) (srcpath tgtpath : CString) (src new : Nat) : Prop :=
  ∃ dir name fs₁ fs₂,
    copyPaths fs srcJunk dirJunk srcpath tgtpath = some (some (src, dir, name), fs₁) ∧
      fsCreate fs₁ dir name = (some new, fs₂)

/-- In a run in which no write extends a file that is not cached: a successful copy, the source
and the target from then on report the bytes that the source reported before, as long as they are
not written to, exactly if those are none. -/
theorem copy_reports_source_iff (data : 10 ≤ num) (unwrapped : num * blockSize < 2 ^ 32)
    (started : fsBoot num clock = some boot)
    (run : Run (Guarded (fun s e => KeepsFiles s e.1) FsNext) boot trace s)
    {srcJunk dirJunk : Nat} {srcpath tgtpath : CString}
    (guard : KeepsFiles s (.copy srcJunk dirJunk srcpath tgtpath))
    (copied : fsCopy s srcJunk dirJunk srcpath tgtpath = some (true, s')) :
    ∃ src new xs, CopiesTo s srcJunk dirJunk srcpath tgtpath src new ∧ Reports s src xs ∧
      ((∀ a, a = src ∨ a = new → ∀ later t,
        Run (Guarded (fun s e => KeepsFiles s e.1 ∧ ¬ WritesTo a e) FsNext) s' later t →
          Reports t a xs) ↔ xs = []) := by
  obtain ⟨own, top, inv, files⟩ := keepsFiles_inv data unwrapped started run
  obtain ⟨fits, room, -⟩ := id guard
  have next : fsStep s (.copy srcJunk dirJunk srcpath tgtpath) = some (.copied true, s') := by
    simp only [fsStep, copied, Option.map_some]
  cases inv.fsCopy_ends fits.2.1 room copied with
  | @made src dir name fs₁ fs₂ _ _ _ own' _ paths h₁ quiet₁ hsrc isFile create made pinned _ _ _
      done =>
      have isFile₀ : (s.inodeTab src).type = .file := (quiet₁.type src).symm.trans isFile
      have kept := inv.unchanged_step hsrc isFile₀ (files src hsrc isFile₀) fits room next
        (a := src) id
      obtain ⟨coherent, seen⟩ := made.coherent_target h₁ hsrc pinned done
      have isNew : (s'.inodeTab top).type = .file := by
        rw [← done.inv.type_seen, seen]
        rfl
      have empty : Snfs.content s' top = [] := by
        rw [Snfs.content, seen]
        rfl
      have isFile' : (s'.inodeTab src).type = .file := by
        rw [← done.inv.type_seen, kept.agree.type, inv.type_seen, isFile₀]
      refine ⟨src, top, Snfs.content s src, ⟨dir, name, fs₁, fs₂, paths, create⟩,
        inv.reports hsrc isFile₀, fun reports => ?_, fun none => ?_⟩
      · have attrs := (reports top (.inr rfl) [] s' .nil).1
        rw [(done.inv.reports (Nat.lt_succ_self top) isNew).1, empty] at attrs
        simp only [List.length_nil, Option.some.injEq, FileAttrs.mk.injEq, true_and, and_true]
          at attrs
        exact List.eq_nil_of_length_eq_zero attrs.symm
      · rintro a (rfl | rfl) later t more
        · rw [← kept.content]
          exact done.inv.reports_run (Nat.lt_succ_of_lt hsrc) isFile' kept.coherent more
        · rw [none, ← empty]
          exact done.inv.reports_run (Nat.lt_succ_self _) isNew coherent more

end Runs

/-- A file in a new directory is copied before anything is written to it. -/
theorem copy_reports_source_iff_empty_file :
    ∃ trace s s', fsAfter 16 (fun _ => 1) [.mkdir 1 [100], .create 2 [102]] = some (trace, s) ∧
      fsCopy s 0 0 [47, 100, 47, 102] [47, 100, 47, 103] = some (true, s') ∧ Reports s' 4 [] := by
  have boots : ((fsBoot 16 fun _ => 1).bind fun boot =>
      (execute fsStep boot [.mkdir 1 [100], .create 2 [102]]).bind fun r =>
        (fsCopy r.2 0 0 [47, 100, 47, 102] [47, 100, 47, 103]).map fun c =>
          (decide (Meets fsStep KeepsFiles boot [.mkdir 1 [100], .create 2 [102]]),
            decide (KeepsFiles r.2 (.copy 0 0 [47, 100, 47, 102] [47, 100, 47, 103])), c.1,
            decide ((copyPaths r.2 0 0 [47, 100, 47, 102] [47, 100, 47, 103]).map (fun p =>
              (p.1, (fsCreate p.2 2 [103]).1)) = some (some (3, 2, [103]), some 4)),
            decide ((fsGetAttrs r.2 3).map Prod.fst = some (some ⟨3, .file, 0, -1⟩)))) =
      some (true, true, true, true, true) := by decide +kernel
  obtain ⟨boot, started, facts⟩ := Option.bind_eq_some_iff.mp boots
  obtain ⟨⟨trace, s⟩, calls, facts⟩ := Option.bind_eq_some_iff.mp facts
  obtain ⟨⟨ok, s'⟩, copied, facts⟩ := Option.map_eq_some_iff.mp facts
  simp only [Prod.mk.injEq] at facts
  obtain ⟨met, guard, rfl, paths, attrs⟩ := facts
  have paths := of_decide_eq_true paths
  have attrs := of_decide_eq_true attrs
  obtain ⟨src, new, xs, ⟨dir, name, fs₁, fs₂, found, create⟩, reports, iff⟩ :=
    copy_reports_source_iff (by decide) (by decide) started
      (run_of_execute calls (of_decide_eq_true met)) (of_decide_eq_true guard) copied
  rw [found] at paths
  simp only [Option.map_some, Option.some.injEq, Prod.mk.injEq] at paths
  obtain ⟨⟨rfl, rfl, rfl⟩, made⟩ := paths
  rw [create] at made
  cases made
  have none : xs = [] := by
    rw [reports.1] at attrs
    simp only [Option.some.injEq, FileAttrs.mk.injEq, true_and, and_true] at attrs
    exact List.eq_nil_of_length_eq_zero attrs
  refine ⟨trace, s, s', by rw [fsAfter, started]; exact calls, copied, ?_⟩
  rw [← none]
  exact iff.mpr none 4 (.inr rfl) [] s' .nil

/-- A file of one byte is copied, and the copy has size 0. -/
theorem copied_file_reports_size_zero :
    ¬ ∀ num clock trace s s' srcJunk dirJunk srcpath tgtpath, 10 ≤ num → FsRun num clock trace s →
      (FsOp.copy srcJunk dirJunk srcpath tgtpath).Fits →
      fsCopy s srcJunk dirJunk srcpath tgtpath = some (true, s') →
      ∀ src new, CopiesTo s srcJunk dirJunk srcpath tgtpath src new →
        ∀ xs, Reports s src xs → Reports s' new xs := by
  intro reports
  have facts : (fsAfter 16 (fun _ => 1)
      [.mkdir 1 [100], .create 2 [102], .getAttrs 3, .write 3 0 [7]]).bind (fun r =>
        (fsCopy r.2 0 0 [47, 100, 47, 102] [47, 100, 47, 103]).map fun c =>
          (c.1, decide ((copyPaths r.2 0 0 [47, 100, 47, 102] [47, 100, 47, 103]).map (fun p =>
              (p.1, (fsCreate p.2 2 [103]).1)) = some (some (3, 2, [103]), some 4)),
            decide ((fsGetAttrs c.2 4).map Prod.fst = some (some ⟨4, .file, 0, -1⟩)),
            bmapIsset r.2.inodeBmap 3, decide ((r.2.inodeTab 3).type = .file),
            decide (content r.2 3 = [7]))) =
      some (true, true, true, true, true, true) := by decide +kernel
  obtain ⟨⟨trace, s⟩, calls, facts⟩ := Option.bind_eq_some_iff.mp facts
  obtain ⟨⟨ok, s'⟩, copied, facts⟩ := Option.map_eq_some_iff.mp facts
  simp only [Prod.mk.injEq] at facts
  obtain ⟨rfl, paths, attrs, inUse, isFile, bytes⟩ := facts
  obtain ⟨⟨_, fs₁⟩, found, made⟩ := Option.map_eq_some_iff.mp (of_decide_eq_true paths)
  have attrs := of_decide_eq_true attrs
  simp only [Prod.mk.injEq] at made
  obtain ⟨rfl, made⟩ := made
  have run := FsRun.of_calls calls (by simp [FsOp.Fits])
  obtain ⟨own, top, inv, -⟩ := run.inv (by decide) (by decide)
  have source := inv.reports (inv.lt_top inUse) (of_decide_eq_true isFile)
  rw [of_decide_eq_true bytes] at source
  have target := reports 16 _ trace s s' 0 0 _ _ (by decide) run (by decide) copied 3 4
    ⟨2, [103], fs₁, (fsCreate fs₁ 2 [103]).2, found, by rw [← made]⟩ [7] source
  rw [target.1] at attrs
  cases attrs

end Snfs
