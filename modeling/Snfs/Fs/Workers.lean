import Snfs.Fs.Creating
import Snfs.Fs.Sections

/-!
Any number of workers on one file system, with their requests cut into pieces at least
as small as the critical sections of `cache_mutex`. `fs_write`, `fs_read` and the part
of `fs_copy` after the creation are followed with their local variables, because they
keep pointers and block numbers from one section to the next. The other requests are
made of pieces that keep nothing for the files: opening an inode, looking at directory
pages, asking for an inode's type, and adding an entry after the search has missed. These
pieces may come at any time and with any arguments, which allows more than the requests
do. `fs_readdir` keeps its pointer to the directory from page to page, but reads nothing
through it that goes anywhere but to its reply and to `dir_cache`.

A pointer into `inode_cache` is good as long as its slot holds the inode that it was
taken for, and an insertion into `block_cache` as long as the block has not been cached
or written since it was read. In a run in which every use is good, `fs_write` changes no
other file.
-/

namespace Snfs

open Slots Runs

/-- The inodes of step 5 of `fs_copy`. -/
structure CopyCall where
  srcInode : Nat
  newInode : Nat

structure CopyLocals where
  src : InodePtr
  new : InodePtr
  blksUsed : Nat
  i : Nat

/-- How far step 5 to 8 have come. In a round the new block has been marked and entered; the lookup
of the source's block has missed; the block has been read; its content is in `block_data`. -/
inductive CopyPhase where
  | start
  | pinned (src : InodePtr)
  | round (l : CopyLocals)
  | placed (l : CopyLocals) (srcBlock newBlock : Nat)
  | missed (l : CopyLocals) (srcBlock newBlock : Nat)
  | fetched (l : CopyLocals) (srcBlock newBlock : Nat) (data : Block)
  | taken (l : CopyLocals) (newBlock : Nat) (data : Block)
  | storing
  | returned (ok : Bool)

def copyStep (call : CopyCall) (fs : Fs) : CopyPhase → Option (CopyPhase × Fs)
  | .start => let (src, fs) := pinInode fs call.srcInode false; some (.pinned src, fs)
  | .pinned src =>
      let (new, fs) := pinInode fs call.newInode true
      some (.round ⟨src, new, (fs.deref src).used, 0⟩, fs)
  | .round l =>
    if l.i < l.blksUsed then
      let srcBlock := (fs.deref l.src).blocks l.i
      match fsiBmapFindFree fs.blkBmap fs.numBlocks with
      | none => some (.returned false, fs)
      | some newBlock => some (.placed l srcBlock newBlock, markFor fs l.new l.i newBlock)
    else
      let fs := fs.assign l.new
        { fs.deref l.new with size := (fs.deref l.src).size, type := .file }
      match l.new with
      | .table _ => some (.returned true, fs)
      | .cached s => some (if (fs.inodeCache s).dirty then .storing else .returned true, fs)
  | .placed l srcBlock newBlock =>
    match findBlockInCache fs srcBlock with
    | some (s, fs) => some (.taken l newBlock (fs.blockCache s).val, fs.touchBlock s)
    | none => some (.missed l srcBlock newBlock, fs)
  | .missed l srcBlock newBlock =>
    match blockRead fs.blocks srcBlock with
    | none => some (.returned false, fs)
    | some data => some (.fetched l srcBlock newBlock data, fs)
  | .fetched l srcBlock newBlock data =>
      some (.taken l newBlock data, addBlockToCache fs srcBlock data false)
  | .taken l newBlock data =>
      some (.round { l with i := l.i + 1 }, addBlockToCache fs newBlock data true)
  | .storing => some (.returned true, fsiStoreFsdata fs)
  | .returned _ => none

abbrev CopySteps (call : CopyCall) : CopyPhase × Fs → CopyPhase × Fs → Prop :=
  Relation.ReflTransGen fun s s' => copyStep call s.2 s.1 = some s'

private theorem copyBlocks_alone (call : CopyCall) {n : Nat} {fs : Fs} {l : CopyLocals}
    (left : l.blksUsed = l.i + n) :
    match copyBlocks l.src l.new n l.i fs with
    | (true, fs') => ∃ i, l.blksUsed ≤ i ∧
        CopySteps call (.round l, fs) (.round { l with i := i }, fs')
    | (false, fs') => CopySteps call (.round l, fs) (.returned false, fs') := by
  induction n generalizing fs l with
  | zero => exact ⟨l.i, by omega, .refl⟩
  | succ n ih =>
      -- once the round is over, the other rounds follow
      have finish {fs₁ : Fs} (round : CopySteps call (.round l, fs)
          (.round { l with i := l.i + 1 }, fs₁)) :
          match copyBlocks l.src l.new n (l.i + 1) fs₁ with
          | (true, fs') => ∃ i, l.blksUsed ≤ i ∧
              CopySteps call (.round l, fs) (.round { l with i := i }, fs')
          | (false, fs') => CopySteps call (.round l, fs) (.returned false, fs') := by
        have rest := @ih fs₁ { l with i := l.i + 1 } (by
          dsimp only
          omega)
        generalize copyBlocks l.src l.new n (l.i + 1) _ = r at rest ⊢
        obtain ⟨done, fs₂⟩ := r
        cases done with
        | false => exact round.trans rest
        | true =>
            obtain ⟨i, le, steps⟩ := rest
            exact ⟨i, le, round.trans steps⟩
      rw [copyBlocks]
      dsimp only
      generalize hsrc : (fs.deref l.src).blocks l.i = srcBlock
      cases found : fsiBmapFindFree fs.blkBmap fs.numBlocks with
      | none =>
          refine .single ?_
          simp only [copyStep, if_pos (show l.i < l.blksUsed by omega), found]
      | some b =>
          have marked : Fs.assign { fs with blkBmap := bmapSet fs.blkBmap b } l.new
              ((Fs.deref { fs with blkBmap := bmapSet fs.blkBmap b } l.new).setBlock l.i b) =
              markFor fs l.new l.i b := by
            cases l.new <;> rfl
          have placed : CopySteps call (.round l, fs) (.placed l srcBlock b,
              markFor fs l.new l.i b) := by
            refine .single ?_
            simp only [copyStep, if_pos (show l.i < l.blksUsed by omega), found, hsrc]
          dsimp only
          rw [marked]
          generalize markFor fs l.new l.i b = fs₁ at placed ⊢
          cases hit : fs₁.blockCache.find? srcBlock with
          | some s =>
              simp only [fetchBlock, findBlockInCache, hit, Option.map_some]
              have taken : CopySteps call (.round l, fs) (.taken l b
                  ((fs₁.touchBlock s).blockCache s).val, (fs₁.touchBlock s).touchBlock s) :=
                placed.tail (by simp only [copyStep, findBlockInCache, hit, Option.map_some])
              exact finish (taken.tail (by rfl))
          | none =>
              have missed : CopySteps call (.round l, fs) (.missed l srcBlock b, fs₁) :=
                placed.tail (by simp only [copyStep, findBlockInCache, hit, Option.map_none])
              cases read : blockRead fs₁.blocks srcBlock with
              | none =>
                  simp only [fetchBlock, findBlockInCache, hit, Option.map_none, read]
                  exact missed.tail (by simp only [copyStep, read])
              | some data =>
                  simp only [fetchBlock, findBlockInCache, hit, Option.map_none, read]
                  have fetched : CopySteps call (.round l, fs) (.fetched l srcBlock b data, fs₁) :=
                    missed.tail (by simp only [copyStep, read])
                  have taken := fetched.tail (by rfl)
                  exact finish (taken.tail (by rfl))

/-- A copy that is alone ends as `copyInode` does. -/
theorem copy_alone (call : CopyCall) (fs : Fs) :
    CopySteps call (.start, fs) (.returned (copyInode fs call.srcInode call.newInode).1,
      (copyInode fs call.srcInode call.newInode).2) := by
  rw [copyInode]
  dsimp only
  have first : CopySteps call (.start, fs) (.pinned (pinInode fs call.srcInode false).1,
      (pinInode fs call.srcInode false).2) := .single rfl
  generalize pinInode fs call.srcInode false = pinned at first ⊢
  obtain ⟨src, fs₁⟩ := pinned
  have second := first.tail (c := (.round ⟨src, (pinInode fs₁ call.newInode true).1,
    ((pinInode fs₁ call.newInode true).2.deref src).used, 0⟩,
      (pinInode fs₁ call.newInode true).2)) rfl
  dsimp only at second ⊢
  generalize pinInode fs₁ call.newInode true = target at second ⊢
  obtain ⟨new, fs₂⟩ := target
  dsimp only at second ⊢
  have loop := @copyBlocks_alone call (fs₂.deref src).used fs₂ ⟨src, new, (fs₂.deref src).used, 0⟩
    (Nat.zero_add _).symm
  dsimp only at loop
  generalize copyBlocks src new (fs₂.deref src).used 0 fs₂ = r at loop ⊢
  obtain ⟨done, fs₃⟩ := r
  cases done with
  | false => exact second.trans loop
  | true =>
      obtain ⟨i, le, steps⟩ := loop
      have out : ¬ i < (fs₂.deref src).used := Nat.not_lt.mpr le
      have ended := second.trans steps
      dsimp only
      cases new with
      | table b => exact ended.tail (by simp only [copyStep, if_neg out])
      | cached s =>
          dsimp only
          generalize after : fs₃.assign (.cached s)
            { fs₃.deref (.cached s) with size := (fs₃.deref src).size, type := .file } = fs₄
          by_cases dirty : (fs₄.inodeCache s).dirty = true
          · rw [if_pos dirty]
            refine (ended.tail (b := (.round ⟨src, .cached s, (fs₂.deref src).used, i⟩, fs₃))
              (c := (.storing, fs₄)) ?_).tail rfl
            simp only [copyStep, if_neg out, after, if_pos dirty]
          · rw [if_neg dirty]
            refine ended.tail ?_
            simp only [copyStep, if_neg out, after, if_neg dirty]

/-- The request that a worker handles, and how far it has come. -/
inductive Job where
  | idle
  | write (call : WriteCall) (phase : WritePhase)
  | read (call : ReadCall) (phase : ReadPhase)
  | copy (call : CopyCall) (phase : CopyPhase)

namespace Job

def ended : Job → Bool
  | .idle => true
  | .write _ (.returned _) => true
  | .read _ (.returned _) => true
  | .copy _ (.returned _) => true
  | _ => false

def step (fs : Fs) : Job → Option (Job × Fs)
  | .idle => none
  | .write call p => (writeStep call fs p).map fun (p, fs) => (.write call p, fs)
  | .read call p => (readStep call fs p).map fun (p, fs) => (.read call p, fs)
  | .copy call p => (copyStep call fs p).map fun (p, fs) => (.copy call p, fs)

end Job

structure Workers where
  fs : Fs
  job : Nat → Job

def IsFile (fs : Fs) (a : Nat) : Prop :=
  bmapIsset fs.inodeBmap a = true ∧ (fs.inodeTab a).type = .file

instance (fs : Fs) (a : Nat) : Decidable (IsFile fs a) := inferInstanceAs (Decidable (_ ∧ _))

def Nameable (fs : Fs) (dir : Nat) (name : CString) : Prop :=
  IsDir fs dir ∧ name ≠ [] ∧ name.length < fsMaxFnameSz ∧ (0 : UInt8) ∉ name

instance (fs : Fs) (dir : Nat) (name : CString) : Decidable (Nameable fs dir name) :=
  inferInstanceAs (Decidable (_ ∧ _ ∧ _ ∧ _))

/-- `fs_create` and `fs_mkdir` after their search has missed. -/
def enterName (type : Itype) (fs : Fs) (dir : Nat) (name : CString) : Option Nat × Fs :=
  match fsiBmapFindFree fs.inodeBmap itabSize with
  | none => (none, fs)
  | some finode =>
    match growDir fs (fs.inodeTab dir) with
    | none => (none, fs)
    | some (idir, blkBmap) => (some finode, addEntry type fs dir idir blkBmap name finode)

/-- The lookup of directory pages: other pages in `dir_cache` and other times. -/
def Fs.browse (fs : Fs) (dirs : Fin dirCacheSize → DirCacheEntry)
    (times : Fin inodeCacheSize → Int) (clock : Nat → Int) : Fs :=
  { fs with
    inodeCache := fun s => { fs.inodeCache s with lastAccess := times s }
    dirCache := dirs
    clock := clock }

/-- A worker takes a request or goes on with it; or a request that keeps nothing between two
critical sections is at one of its pieces: an inode is opened, as in `fs_get_attrs` and
`fs_readdir`, directory pages are looked up, an entry is added. -/
inductive Act where
  | write (i : Nat) (call : WriteCall)
  | read (i : Nat) (call : ReadCall)
  | copy (i : Nat) (call : CopyCall)
  | go (i : Nat)
  | look (a : Nat)
  | browse (dirs : Fin dirCacheSize → DirCacheEntry) (times : Fin inodeCacheSize → Int)
      (clock : Nat → Int)
  | enter (call : MakeCall)

def Workers.take (s : Workers) (i : Nat) (job : Job) : Option (Unit × Workers) :=
  if (s.job i).ended then some ((), { s with job := Function.update s.job i job }) else none

/-- One step. `fs_copy` comes to its step 5 with a source that is a regular file and with the file
that it has made. -/
def workersStep (s : Workers) : Act → Option (Unit × Workers)
  | .write i call => s.take i (.write call .start)
  | .read i call => s.take i (.read call .start)
  | .copy i call =>
    if IsFile s.fs call.srcInode ∧ IsFile s.fs call.newInode then s.take i (.copy call .start)
    else none
  | .go i => ((s.job i).step s.fs).map fun (job, fs) => ((), ⟨fs, Function.update s.job i job⟩)
  | .look a =>
    match openInode s.fs a with
    | none => some ((), s)
    | some (_, fs) => some ((), { s with fs := fs })
  | .browse dirs times clock => some ((), { s with fs := s.fs.browse dirs times clock })
  | .enter call =>
    if Nameable s.fs call.dir call.name then
      some ((), { s with fs := (enterName call.type s.fs call.dir call.name).2 })
    else none

section Alone
variable {own : Ledger} {top : Nat} {fs fs' fs'' : Fs} {jobs : Nat → Job}

/-- Pieces between which no worker keeps anything lead from one file system to the other. -/
def Pieces (jobs : Nat → Job) (fs fs' : Fs) : Prop :=
  ∃ trace, Run (Next workersStep) ⟨fs, jobs⟩ trace ⟨fs', jobs⟩

theorem Pieces.refl (jobs : Nat → Job) (fs : Fs) : Pieces jobs fs fs := ⟨[], .nil⟩

theorem Pieces.trans (h : Pieces jobs fs fs') (h' : Pieces jobs fs' fs'') :
    Pieces jobs fs fs'' := by
  obtain ⟨trace, run⟩ := h
  obtain ⟨trace', run'⟩ := h'
  exact ⟨trace ++ trace', run.append run'⟩

theorem Browsed.pieces (browsed : Browsed fs fs') : Pieces jobs fs fs' := by
  have same : fs' = fs.browse fs'.dirCache (fun s => (fs'.inodeCache s).lastAccess) fs'.clock := by
    have slots : fs'.inodeCache = fun s =>
        { fs.inodeCache s with lastAccess := (fs'.inodeCache s).lastAccess } := by
      funext s
      dsimp only
      rw [← browsed.key s, ← browsed.val s, ← browsed.dirty s]
    rw [Fs.browse, ← slots]
    exact browsed.rest
  refine ⟨[(.browse fs'.dirCache (fun s => (fs'.inodeCache s).lastAccess) fs'.clock, ())],
    Run.nil.snoc ?_⟩
  rw [Next, workersStep, ← same]

theorem openInode_pieces {a : Nat} {p : InodePtr} (opened : openInode fs a = some (p, fs')) :
    Pieces jobs fs fs' := by
  refine ⟨[(.look a, ())], Run.nil.snoc ?_⟩
  simp only [Next, workersStep, opened]

theorem fsMake_pieces (call : MakeCall) (noZero : (0 : UInt8) ∉ call.name) :
    Pieces jobs fs (fsMake call.type fs call.dir call.name).2 := by
  cases fsMake_cases call.type fs call.dir call.name with
  | inl failed =>
      obtain ⟨fs₁, made, searched⟩ := failed
      rw [made]
      exact (Browsed.of_same searched.same).pieces
  | inr added =>
      obtain ⟨fs₁, finode, idir, blkBmap, ok, missed, free, grown, made⟩ := added
      have same : SameButDirs fs fs₁ := by
        have same := fsiDirSearch_same fs call.dir call.name
        rwa [missed] at same
      have entered : (enterName call.type fs₁ call.dir call.name).2 =
          (fsMake call.type fs call.dir call.name).2 := by
        rw [made, enterName, free]
        dsimp only
        rw [grown]
      have nameable : Nameable fs₁ call.dir call.name := by
        refine ⟨⟨?_, ?_⟩, ok.nonempty, ok.short, noZero⟩
        · rw [same]
          exact ok.inUse
        · rw [same]
          exact ok.isDir
      refine (Browsed.of_same same).pieces.trans ⟨[(.enter call, ())], Run.nil.snoc ?_⟩
      rw [Next, workersStep, if_pos nameable, entered]

theorem copyPaths_pieces {srcJunk dirJunk : Nat} {srcpath tgtpath : CString}
    {paths : Option (Nat × Nat × CString)}
    (result : copyPaths fs srcJunk dirJunk srcpath tgtpath = some (paths, fs')) :
    Pieces jobs fs fs' := by
  refine copyPaths_keeps (P := Pieces jobs fs) ?_ ?_ (.refl jobs fs) result
  · intro s dir name before _ _
    exact before.trans (Browsed.of_same (fsiDirSearch_same s dir name)).pieces
  · intro s a p s' before opened
    exact before.trans (openInode_pieces opened)

/-- Steps of a request while nothing else happens. -/
abbrev JobSteps : Job × Fs → Job × Fs → Prop :=
  Relation.ReflTransGen fun p p' => p.1.step p.2 = some p'

private theorem write_job (call : WriteCall) (fs : Fs) :
    JobSteps (.write call .start, fs)
      (.write call (.returned (fsWrite fs call.file call.offset call.data).1),
        (fsWrite fs call.file call.offset call.data).2) := by
  refine (write_alone call fs).lift (fun p => (Job.write call p.1, p.2)) fun p p' step => ?_
  simp only [Function.onFun, Job.step, step, Option.map_some]

private theorem read_job (call : ReadCall) (fs : Fs) :
    JobSteps (.read call .start, fs)
      (.read call (.returned (fsRead fs call.file call.offset call.count).1),
        (fsRead fs call.file call.offset call.count).2) := by
  refine (read_alone call fs).lift (fun p => (Job.read call p.1, p.2)) fun p p' step => ?_
  simp only [Function.onFun, Job.step, step, Option.map_some]

private theorem copy_job (call : CopyCall) (fs : Fs) :
    JobSteps (.copy call .start, fs)
      (.copy call (.returned (copyInode fs call.srcInode call.newInode).1),
        (copyInode fs call.srcInode call.newInode).2) := by
  refine (copy_alone call fs).lift (fun p => (Job.copy call p.1, p.2)) fun p p' step => ?_
  simp only [Function.onFun, Job.step, step, Option.map_some]

private theorem job_alone (jobs : Nat → Job) (i : Nat) {p p' : Job × Fs} (steps : JobSteps p p') :
    ∃ trace, Run (Next workersStep) ⟨p.2, Function.update jobs i p.1⟩ trace
      ⟨p'.2, Function.update jobs i p'.1⟩ := by
  induction steps with
  | refl => exact ⟨[], .nil⟩
  | @tail q r _ next ih =>
      obtain ⟨trace, run⟩ := ih
      refine ⟨_, run.snoc (e := (.go i, ())) ?_⟩
      simp only [Next, workersStep, Function.update_self, next, Option.map_some,
        Function.update_idem]

/-- A worker that is free takes a request and ends it. -/
theorem taken_alone {i : Nat} (free : (jobs i).ended = true) (act : Act) {job job' : Job}
    (taken : workersStep ⟨fs, jobs⟩ act = Workers.take ⟨fs, jobs⟩ i job)
    (steps : JobSteps (job, fs) (job', fs')) :
    ∃ trace, Run (Next workersStep) ⟨fs, jobs⟩ trace ⟨fs', Function.update jobs i job'⟩ := by
  obtain ⟨trace, run⟩ := job_alone jobs i steps
  have first : Run (Next workersStep) ⟨fs, jobs⟩ [(act, ())] ⟨fs, Function.update jobs i job⟩ := by
    refine Run.nil.snoc ?_
    rw [Next, taken, Workers.take, if_pos free]
  exact ⟨_, first.append run⟩

/-- A request that is alone does what the operation does. -/
theorem request_alone (h : Inv own top fs) {op : FsOp} (within : Within fs op) {res : FsResult}
    (next : fsStep fs op = some (res, fs')) {i : Nat} (free : (jobs i).ended = true) :
    ∃ trace job, job.ended = true ∧
      Run (Next workersStep) ⟨fs, jobs⟩ trace ⟨fs', Function.update jobs i job⟩ := by
  obtain ⟨fits, room⟩ := within
  suffices Pieces jobs fs fs' ∨ ∃ trace job, job.ended = true ∧
      Run (Next workersStep) ⟨fs, jobs⟩ trace ⟨fs', Function.update jobs i job⟩ by
    refine this.elim (fun pieces => ?_) id
    obtain ⟨trace, run⟩ := pieces
    refine ⟨trace, jobs i, free, ?_⟩
    rwa [Function.update_eq_self]
  cases op with
  | lookup path =>
      simp only [fsStep] at next
      cases next
      exact .inl (Browsed.of_same (fsLookup_same fs path)).pieces
  | getAttrs file =>
      obtain ⟨⟨attrs, fs₁⟩, result, same⟩ := Option.map_eq_some_iff.mp next
      cases same
      exact .inl (fsGetAttrs_keeps (P := Pieces jobs fs) (fun s a p s' before opened =>
        before.trans (openInode_pieces opened)) (.refl jobs fs) result)
  | read file offset count =>
      simp only [fsStep] at next
      cases next
      obtain ⟨trace, run⟩ := taken_alone free (.read i ⟨file, offset, count⟩) rfl
        (read_job _ fs)
      exact .inr ⟨trace, _, rfl, run⟩
  | write file offset data =>
      simp only [fsStep] at next
      cases next
      obtain ⟨trace, run⟩ := taken_alone free (.write i ⟨file, offset, data⟩) rfl
        (write_job _ fs)
      exact .inr ⟨trace, _, rfl, run⟩
  | create dir name =>
      simp only [fsStep] at next
      cases next
      exact .inl (fsMake_pieces ⟨.file, dir, name, .inr rfl⟩ fits)
  | mkdir dir name =>
      simp only [fsStep] at next
      cases next
      exact .inl (fsMake_pieces ⟨.dir, dir, name, .inl rfl⟩ fits)
  | readdir dir maxentries =>
      simp only [fsStep] at next
      cases next
      cases fsReaddir_state fs dir maxentries with
      | inl same =>
          rw [same]
          exact .inl (.refl jobs fs)
      | inr browsed =>
          obtain ⟨p, fs₁, opened, browsed⟩ := browsed
          exact .inl ((openInode_pieces opened).trans browsed.pieces)
  | copy srcJunk dirJunk srcpath tgtpath =>
      obtain ⟨⟨ok, fs₁⟩, result, same⟩ := Option.map_eq_some_iff.mp next
      cases same
      cases h.fsCopy_ends fits.2.1 room result with
      | noPaths paths _ _ => exact .inl (copyPaths_pieces paths)
      | notMade paths _ _ create searched =>
          exact .inl ((copyPaths_pieces paths).trans (Browsed.of_same searched.same).pieces)
      | @made src dir name fs₁ fs₂ fs₃ _ own₁ own₂ _ paths h₁ _ lt isFile create made pinned _ _ copy
          copied =>
          obtain ⟨-, -, named⟩ := h.copyPaths paths
          obtain ⟨-, -, _, split⟩ := named src dir name rfl
          have noZero : (0 : UInt8) ∉ name := fun zero => fits.2.1 (mem_of_splitLast split zero)
          have target : Pieces jobs fs₁ fs₂ := by
            have made : Pieces jobs fs₁ (fsMake .file fs₁ dir name).2 :=
              fsMake_pieces ⟨.file, dir, name, .inr rfl⟩ noZero
            rwa [show fsMake .file fs₁ dir name = (some top, fs₂) from create] at made
          obtain ⟨trace, run⟩ := (copyPaths_pieces paths).trans target
          have files : IsFile fs₂ src ∧ IsFile fs₂ top := by
            refine ⟨⟨?_, (made.type_old lt).trans isFile⟩, ?_, ?_⟩
            · rw [made.inv.inodes.inUse]
              exact decide_eq_true (Nat.lt_succ_of_lt lt)
            · rw [made.inv.inodes.inUse]
              exact decide_eq_true (Nat.lt_succ_self top)
            · rw [made.tab_new]
              rfl
          obtain ⟨trace', run'⟩ := taken_alone free (.copy i ⟨src, top⟩)
            (by rw [workersStep, if_pos files]) (copy_job ⟨src, top⟩ fs₂)
          rw [copy] at run'
          exact .inr ⟨_, _, rfl, run.append run'⟩

end Alone

end Snfs
