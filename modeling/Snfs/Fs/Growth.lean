import Snfs.Fs.Names

/-!
What no operation undoes. The file system has no call that removes anything: a directory
keeps its entries in their places, an inode in use keeps its type, and a new entry leads to
an inode that was free. So the number of an inode is given out once, and the name it was
given to leads to it ever after.
-/

namespace Snfs

open Runs

structure Grows (fs fs' : Fs) : Prop where
  inUse : ∀ a, bmapIsset fs.inodeBmap a = true → bmapIsset fs'.inodeBmap a = true
  type : ∀ a, bmapIsset fs.inodeBmap a = true → (fs'.inodeTab a).type = (fs.inodeTab a).type
  entries : ∀ d, IsDir fs d → ∃ more, dirEntries fs' d = dirEntries fs d ++ more ∧
    ∀ e ∈ more, bmapIsset fs.inodeBmap e.2 = false

variable {own own' : Ledger} {top : Nat} {fs fs' fs'' : Fs}

namespace Grows

theorem refl (fs : Fs) : Grows fs fs :=
  ⟨fun _ => id, fun _ _ => rfl,
    fun d _ => ⟨[], (List.append_nil _).symm, fun e new => by cases new⟩⟩

theorem isDir (grows : Grows fs fs') {d : Nat} (isDir : IsDir fs d) : IsDir fs' d :=
  ⟨grows.inUse d isDir.1, (grows.type d isDir.1).trans isDir.2⟩

theorem mem (grows : Grows fs fs') {d : Nat} (isDir : IsDir fs d) {e : CString × Nat}
    (member : e ∈ dirEntries fs d) : e ∈ dirEntries fs' d := by
  obtain ⟨more, entries, -⟩ := grows.entries d isDir
  rw [entries]
  exact List.mem_append_left more member

theorem trans (grows : Grows fs fs') (grows' : Grows fs' fs'') : Grows fs fs'' := by
  refine ⟨fun a used => grows'.inUse a (grows.inUse a used),
    fun a used => (grows'.type a (grows.inUse a used)).trans (grows.type a used), fun d isDir => ?_⟩
  obtain ⟨more, entries, free⟩ := grows.entries d isDir
  obtain ⟨more', entries', free'⟩ := grows'.entries d (grows.isDir isDir)
  refine ⟨more ++ more', by rw [entries', entries, List.append_assoc], fun e new => ?_⟩
  rcases List.mem_append.mp new with first | later
  · exact free e first
  · refine Bool.eq_false_iff.mpr fun used => ?_
    have out := free' e later
    rw [grows.inUse e.2 used] at out
    cases out

end Grows

theorem Frame.grows (frame : Frame top fs fs') (bound : ∀ d, IsDir fs d → d < top) :
    Grows fs fs' := by
  refine ⟨fun a used => by rwa [frame.inodeBmap], fun a _ => frame.type a, fun d isDir => ?_⟩
  exact ⟨[], by rw [frame.dirEntries (bound d isDir) isDir.2, List.append_nil],
    fun e new => by cases new⟩

theorem Made.grows {type : Itype} {dir : Nat} {name : CString}
    (made : Made own own' top type fs dir name fs') (h : Inv own top fs) : Grows fs fs' := by
  have free : bmapIsset fs.inodeBmap top = false := by
    rw [h.inodes.inUse]
    exact decide_eq_false (Nat.lt_irrefl top)
  refine ⟨fun a used => ?_, fun a used => made.type_old (h.lt_top used), fun d isDir => ?_⟩
  · rw [made.inv.inodes.inUse]
    exact decide_eq_true (Nat.lt_succ_of_lt (h.lt_top used))
  · by_cases here : d = dir
    · subst here
      refine ⟨_, made.entries_dir, fun e new => ?_⟩
      rw [List.mem_singleton.mp new]
      exact free
    · exact ⟨[], by rw [made.entries_other d (h.isDir_iff.mp isDir).1 here, List.append_nil],
        fun e new => by cases new⟩

theorem Inv.grows_step (h : Inv own top fs) {op : FsOp} (within : Within fs op) {res : FsResult}
    (next : fsStep fs op = some (res, fs')) :
    ∃ own' top', Inv own' top' fs' ∧ top ≤ top' ∧ Grows fs fs' := by
  obtain ⟨own', top', kept⟩ := h.step within.1 within.2 next
  have bound (d : Nat) (isDir : IsDir fs d) : d < top := (h.isDir_iff.mp isDir).1
  have created : Grows fs (afterCreate fs op) := by
    rcases h.afterCreate_cases within.1 within.2 with quiet |
      ⟨own₁, type, s, dir, name, -, inv, quiet, -, made⟩
    · exact quiet.toFrame.grows bound
    · exact (quiet.toFrame.grows bound).trans (made.grows inv)
  refine ⟨own', top', kept.inv, kept.top_le, created.trans (kept.frame.grows fun d isDir => ?_)⟩
  exact kept.inv.lt_top (by rw [kept.frame.inodeBmap]; exact isDir.1)

theorem Inv.grows_run (h : Inv own top fs) {calls : List (FsOp × FsResult)}
    (run : Run (Guarded (fun s e => Within s e.1) FsNext) fs calls fs') : Grows fs fs' := by
  obtain ⟨_, _, -, grows⟩ := run.invariant (I := fun s => ∃ own top, Inv own top s ∧ Grows fs s)
    ⟨own, top, h, .refl fs⟩ fun s e s' ⟨_, _, inv, grows⟩ ⟨within, next⟩ => by
      obtain ⟨own', top', inv', -, grows'⟩ := inv.grows_step within next
      exact ⟨own', top', inv', grows.trans grows'⟩
  exact grows

structure Given where
  type : Itype
  dir : Nat
  name : CString
  number : Nat
deriving DecidableEq, Repr

def given : FsOp × FsResult → Option Given
  | (.create dir name, .made (some number)) => some ⟨.file, dir, name, number⟩
  | (.mkdir dir name, .made (some number)) => some ⟨.dir, dir, name, number⟩
  | _ => none

structure Given.Holds (g : Given) (fs : Fs) : Prop where
  isDir : IsDir fs g.dir
  entry : (g.name, g.number) ∈ dirEntries fs g.dir
  inUse : bmapIsset fs.inodeBmap g.number = true
  type : (fs.inodeTab g.number).type = g.type

theorem Given.Holds.grows {g : Given} (holds : g.Holds fs) (grows : Grows fs fs') : g.Holds fs' :=
  ⟨grows.isDir holds.isDir, grows.mem holds.isDir holds.entry, grows.inUse _ holds.inUse,
    (grows.type _ holds.inUse).trans holds.type⟩

theorem Made.given {type : Itype} {dir : Nat} {name : CString}
    (made : Made own own' top type fs dir name fs') (type' : (fsiInodeInit type).type = type) :
    Given.Holds ⟨type, dir, name, top⟩ fs' := by
  have root := made.inv.isDir_iff (d := dir)
  refine ⟨root.mpr ⟨Nat.lt_succ_of_lt made.dir_lt, made.type_dir⟩, ?_, ?_, ?_⟩
  · rw [made.entries_dir]
    exact List.mem_append_right _ (List.mem_singleton_self _)
  · rw [made.inv.inodes.inUse]
    exact decide_eq_true (Nat.lt_succ_self top)
  · rw [made.tab_new, type']

/-- The numbers given out so far are in order, below the next one, and the names lead to them. -/
structure GivenOut (trace : List (FsOp × FsResult)) (top : Nat) (fs : Fs) : Prop where
  ordered : ((trace.filterMap given).map Given.number).Pairwise (· < ·)
  bounds : ∀ g ∈ trace.filterMap given, 1 < g.number ∧ g.number < top
  holds : ∀ g ∈ trace.filterMap given, g.Holds fs

theorem GivenOut.kept {trace : List (FsOp × FsResult)} {top' : Nat} (out : GivenOut trace top fs)
    (grows : Grows fs fs') (le : top ≤ top') {e : FsOp × FsResult} (none : given e = none) :
    GivenOut (trace ++ [e]) top' fs' := by
  have same : (trace ++ [e]).filterMap given = trace.filterMap given := by
    rw [List.filterMap_append, List.filterMap_cons_none none, List.filterMap_nil, List.append_nil]
  refine ⟨same ▸ out.ordered, fun g member => ?_, fun g member => ?_⟩
  · rw [same] at member
    obtain ⟨low, high⟩ := out.bounds g member
    exact ⟨low, Nat.lt_of_lt_of_le high le⟩
  · rw [same] at member
    exact (out.holds g member).grows grows

theorem GivenOut.made {trace : List (FsOp × FsResult)} (out : GivenOut trace top fs)
    (grows : Grows fs fs') {e : FsOp × FsResult} {g : Given} (some : given e = some g)
    (number : g.number = top) (low : 1 < top) (holds : g.Holds fs') :
    GivenOut (trace ++ [e]) (top + 1) fs' := by
  have more : (trace ++ [e]).filterMap given = trace.filterMap given ++ [g] := by
    rw [List.filterMap_append, List.filterMap_cons_some some, List.filterMap_nil]
  refine ⟨?_, fun g' member => ?_, fun g' member => ?_⟩
  · rw [more, List.map_append, List.map_singleton, List.pairwise_append]
    refine ⟨out.ordered, List.pairwise_singleton _ _, fun a old b new => ?_⟩
    obtain ⟨g', member, rfl⟩ := List.mem_map.mp old
    rw [List.mem_singleton.mp new, number]
    exact (out.bounds g' member).2
  · rw [more] at member
    rcases List.mem_append.mp member with old | new
    · obtain ⟨low', high⟩ := out.bounds g' old
      exact ⟨low', Nat.lt_succ_of_lt high⟩
    · rw [List.mem_singleton.mp new, number]
      exact ⟨low, Nat.lt_succ_self top⟩
  · rw [more] at member
    rcases List.mem_append.mp member with old | new
    · exact (out.holds g' old).grows grows
    · rw [List.mem_singleton.mp new]
      exact holds

theorem GivenOut.step {trace : List (FsOp × FsResult)} (out : GivenOut trace top fs)
    (h : Inv own top fs) {op : FsOp} (within : Within fs op) {res : FsResult}
    (next : fsStep fs op = some (res, fs')) :
    ∃ own' top', Inv own' top' fs' ∧ GivenOut (trace ++ [(op, res)]) top' fs' := by
  obtain ⟨own', top', inv, le, grows⟩ := h.grows_step within next
  have quiet (none : given (op, res) = none) :
      ∃ own' top', Inv own' top' fs' ∧ GivenOut (trace ++ [(op, res)]) top' fs' :=
    ⟨own', top', inv, out.kept grows le none⟩
  cases op with
  | create dir name =>
      rcases h.fsMake .file (.inr rfl) dir within.1 within.2 with
        ⟨fs₁, stop, -⟩ | ⟨own₁, fs₁, done, made⟩
      · simp only [fsStep, fsCreate, stop] at next
        cases next
        exact quiet rfl
      · simp only [fsStep, fsCreate, done] at next
        cases next
        exact ⟨own₁, top + 1, made.inv, out.made grows rfl rfl h.inodes.two_le (made.given rfl)⟩
  | mkdir dir name =>
      rcases h.fsMake .dir (.inl rfl) dir within.1 within.2 with
        ⟨fs₁, stop, -⟩ | ⟨own₁, fs₁, done, made⟩
      · simp only [fsStep, fsMkdir, stop] at next
        cases next
        exact quiet rfl
      · simp only [fsStep, fsMkdir, done] at next
        cases next
        exact ⟨own₁, top + 1, made.inv, out.made grows rfl rfl h.inodes.two_le (made.given rfl)⟩
  | lookup _ | getAttrs _ | read _ _ _ | write _ _ _ | readdir _ _ | copy _ _ _ _ => exact quiet rfl

def NamesFit (fs : Fs) : Prop :=
  ∀ d, IsDir fs d → ∀ e ∈ dirEntries fs d, e.1 ≠ [] ∧ e.1.length < fsMaxFnameSz ∧ (0 : UInt8) ∉ e.1

private theorem noZero_entry {d : Nat} {e : CString × Nat} (member : e ∈ dirEntries fs d) :
    (0 : UInt8) ∉ e.1 := by
  obtain ⟨k, -, rfl⟩ := List.mem_map.mp member
  exact Buf.zero_not_mem_cstr _ _ _

theorem NamesFit.frame (fit : NamesFit fs) (frame : Frame top fs fs')
    (bound : ∀ d, IsDir fs' d → d < top) : NamesFit fs' := by
  intro d isDir
  have lt := bound d isDir
  rw [IsDir, frame.inodeBmap, frame.type] at isDir
  rw [frame.dirEntries lt isDir.2]
  exact fit d isDir

theorem NamesFit.made {type : Itype} {dir : Nat} {name : CString} (fit : NamesFit fs)
    (h : Inv own top fs) (made : Made own own' top type fs dir name fs') : NamesFit fs' := by
  intro d isDir e member
  have bound := (made.inv.isDir_iff.mp isDir).1
  by_cases new : d = top
  · rw [new, made.entries_new] at member
    cases member
  · have lt : d < top := by omega
    have old : IsDir fs d := h.isDir_iff.mpr ⟨lt, (made.type_old lt).symm.trans isDir.2⟩
    by_cases here : d = dir
    · have noZero := noZero_entry member
      rw [here, made.entries_dir] at member
      rcases List.mem_append.mp member with before | added
      · exact fit dir (here ▸ old) e before
      · rw [List.mem_singleton.mp added] at noZero ⊢
        exact ⟨made.creatable.nonempty, made.creatable.short, noZero⟩
    · rw [made.entries_other d lt here] at member
      exact fit d old e member

theorem NamesFit.step (fit : NamesFit fs) (h : Inv own top fs) {op : FsOp} (within : Within fs op)
    {res : FsResult} (next : fsStep fs op = some (res, fs')) :
    ∃ own' top', Inv own' top' fs' ∧ NamesFit fs' := by
  obtain ⟨own', top', kept⟩ := h.step within.1 within.2 next
  refine ⟨own', top', kept.inv, ?_⟩
  have created : NamesFit (afterCreate fs op) := by
    rcases h.afterCreate_cases within.1 within.2 with quiet |
      ⟨own₁, type, s, dir, name, -, inv, quiet, -, made⟩
    · refine fit.frame quiet.toFrame fun d isDir => ?_
      rw [IsDir, quiet.inodeBmap, quiet.type] at isDir
      exact (h.isDir_iff.mp isDir).1
    · exact (fit.frame quiet.toFrame fun d isDir => (inv.isDir_iff.mp isDir).1).made inv made
  exact created.frame kept.frame fun d isDir => (kept.inv.isDir_iff.mp isDir).1

section Runs
variable {num : Nat} {clock : Nat → Int} {boot s s' : Fs} {trace trace' : List (FsOp × FsResult)}

private theorem givenOut_run (data : 10 ≤ num) (unwrapped : num * blockSize < 2 ^ 32)
    (started : fsBoot num clock = some boot)
    (run : Run (Guarded (fun s e => Within s e.1) FsNext) boot trace s) :
    ∃ own top, Inv own top s ∧ GivenOut trace top s := by
  have formatted := fsBoot_formatted data unwrapped started
  have none : GivenOut [] 2 boot :=
    ⟨.nil, (fun g member => by cases member), fun g member => by cases member⟩
  refine run.trace_invariant (I := fun trace s => ∃ own top, Inv own top s ∧ GivenOut trace top s)
    ⟨_, 2, formatted.inv data, none⟩ ?_
  rintro trace s ⟨op, res⟩ s' ⟨own, top, inv, out⟩ ⟨within, next⟩
  exact out.step inv within next

theorem namesFit_run (data : 10 ≤ num) (unwrapped : num * blockSize < 2 ^ 32)
    (started : fsBoot num clock = some boot)
    (run : Run (Guarded (fun s e => Within s e.1) FsNext) boot trace s) : NamesFit s := by
  have formatted := fsBoot_formatted data unwrapped started
  have empty (d : Nat) : (boot.inodeTab d).size = 0 := by
    rw [formatted.inodeTab, Function.update_apply]
    split <;> rfl
  have init : NamesFit boot := fun d _ e member => by
    rw [dirEntries_zero (empty d)] at member
    cases member
  obtain ⟨_, _, -, fit⟩ := run.invariant (I := fun s => ∃ own top, Inv own top s ∧ NamesFit s)
    ⟨_, 2, formatted.inv data, init⟩
    fun s e s' ⟨_, _, inv, fit⟩ ⟨within, next⟩ => fit.step inv within next
  exact fit

private theorem givenCalls_run : ∃ boot trace s trace' s', fsBoot 16 (fun _ => 1) = some boot ∧
    Run (Guarded (fun s e => Within s e.1) FsNext) boot trace s ∧
    Run (Guarded (fun s e => Within s e.1) FsNext) s trace' s' ∧
    (trace ++ trace').filterMap given = [⟨.dir, 1, [100], 2⟩, ⟨.file, 2, [102], 3⟩] ∧
    dirEntries s 2 = [] ∧ IsDir s 2 := by
  have boots : ((fsBoot 16 fun _ => 1).bind fun boot =>
      (execute fsStep boot [.mkdir 1 [100]]).bind fun r =>
        (execute fsStep r.2 [.create 2 [102], .create 2 [102]]).map fun r' =>
          (decide (Meets fsStep Within boot [.mkdir 1 [100]]),
            decide (Meets fsStep Within r.2 [.create 2 [102], .create 2 [102]]),
            decide ((r.1 ++ r'.1).filterMap given = [⟨.dir, 1, [100], 2⟩, ⟨.file, 2, [102], 3⟩]),
            decide (dirEntries r.2 2 = [] ∧ IsDir r.2 2))) =
      some (true, true, true, true) := by decide +kernel
  obtain ⟨boot, started, facts⟩ := Option.bind_eq_some_iff.mp boots
  obtain ⟨⟨trace, s⟩, first, facts⟩ := Option.bind_eq_some_iff.mp facts
  obtain ⟨⟨trace', s'⟩, calls, facts⟩ := Option.map_eq_some_iff.mp facts
  simp only [Prod.mk.injEq, decide_eq_true_eq] at facts
  exact ⟨boot, trace, s, trace', s', started, run_of_execute first facts.1,
    run_of_execute calls facts.2.1, facts.2.2.1, facts.2.2.2⟩

/-- Between two states of a run no entry goes and no inode changes its type, and what is new in a
directory leads to inodes that were free. -/
theorem tree_only_grows (data : 10 ≤ num) (unwrapped : num * blockSize < 2 ^ 32)
    (started : fsBoot num clock = some boot)
    (run : Run (Guarded (fun s e => Within s e.1) FsNext) boot trace s)
    (more : Run (Guarded (fun s e => Within s e.1) FsNext) s trace' s') : Grows s s' := by
  obtain ⟨own, top, inv, -⟩ := givenOut_run data unwrapped started run
  exact inv.grows_run more

theorem tree_only_grows_in_dir : ∃ s s', IsDir s 2 ∧ dirEntries s 2 = [] ∧ Grows s s' := by
  obtain ⟨boot, trace, s, trace', s', started, run, more, -, empty, isDir⟩ := givenCalls_run
  exact ⟨s, s', isDir, empty, tree_only_grows (by decide) (by decide) started run more⟩

/-- Each number that `fs_create` or `fs_mkdir` returns is higher than those before, and the name it
was returned for leads to it and its inode has the type ever after. -/
theorem numbers_given_once (data : 10 ≤ num) (unwrapped : num * blockSize < 2 ^ 32)
    (started : fsBoot num clock = some boot)
    (run : Run (Guarded (fun s e => Within s e.1) FsNext) boot trace s) :
    ((trace.filterMap given).map Given.number).Pairwise (· < ·) ∧
      ∀ g ∈ trace.filterMap given, 1 < g.number ∧ g.Holds s := by
  obtain ⟨own, top, -, out⟩ := givenOut_run data unwrapped started run
  exact ⟨out.ordered, fun g member => ⟨(out.bounds g member).1, out.holds g member⟩⟩

end Runs

theorem numbers_given_once_in_dir : ∃ s, Given.Holds ⟨.dir, 1, [100], 2⟩ s ∧
    Given.Holds ⟨.file, 2, [102], 3⟩ s := by
  obtain ⟨boot, trace, s, trace', s', started, run, more, made, -⟩ := givenCalls_run
  obtain ⟨-, holds⟩ := numbers_given_once (by decide) (by decide) started (run.append more)
  rw [made] at holds
  exact ⟨s', (holds _ List.mem_cons_self).2, (holds _ (by simp)).2⟩

end Snfs
