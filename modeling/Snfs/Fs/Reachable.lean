import Snfs.Fs.Boot
import Snfs.Fs.Copying

/-!
One call of any operation: the invariant it keeps, the blocks whose content it
may change and what it leaves alone on the device. Runs follow by induction.
-/

namespace Snfs

open Slots Runs

variable {own : Ledger} {top : Nat} {fs : Fs}

/-- The blocks that a call marks in the block bitmap at most, beyond those it may need for an
entry of a directory. -/
def demand (fs : Fs) : FsOp → Nat
  | .write file offset data =>
      blocksNeeded (fs.seen file) (writePos (fs.seen file) offset + data.length)
  | .create _ _ => 1
  | .mkdir _ _ => 1
  | .copy _ _ _ _ => inodeNumBlks + 1
  | _ => 0

/-- A call that takes its arguments from a request and looks for no block past the last bit of the
block bitmap. -/
def Within (fs : Fs) (op : FsOp) : Prop := op.Fits ∧ Room fs (demand fs op)

instance (fs : Fs) (op : FsOp) : Decidable (Within fs op) :=
  inferInstanceAs (Decidable (_ ∧ _))

def NewlyMarked (fs fs' : Fs) (b : Nat) : Prop :=
  bmapIsset fs.blkBmap b = false ∧ bmapIsset fs'.blkBmap b = true

def IsEntryPage (fs fs' : Fs) (dir b : Nat) : Prop :=
  numEntries fs' dir = numEntries fs dir + 1 ∧
    b = (fs'.inodeTab dir).blocks (numEntries fs dir / dirPageEntries)

/-- The blocks of number 10 or more that a call writes to: blocks of the file that `fs_write`
was called on, blocks that were free, the page that a new entry goes to. -/
def WrittenBy (fs : Fs) (op : FsOp) (fs' : Fs) (b : Nat) : Prop :=
  match op with
  | .write file offset data =>
      NewlyMarked fs fs' b ∨
        ∃ i, i < (fs.seen file).used ∧ writePos (fs.seen file) offset / blockSize ≤ i ∧
          blockSize * i < writePos (fs.seen file) offset + data.length ∧
            b = (fs.seen file).blocks i
  | .create dir _ => IsEntryPage fs fs' dir b
  | .mkdir dir _ => IsEntryPage fs fs' dir b
  | .copy _ _ _ _ => NewlyMarked fs fs' b ∨ ∃ dir, IsEntryPage fs fs' dir b
  | _ => False

structure StepKept (own own' : Ledger) (top top' : Nat) (fs : Fs) (op : FsOp) (fs' : Fs) : Prop where
  le : own.Le own'
  top_le : top ≤ top'
  inv : Inv own' top' fs'
  numBlocks : fs'.numBlocks = fs.numBlocks
  type : ∀ a, a < top → (fs'.inodeTab a).type = (fs.inodeTab a).type
  lblk : ∀ b, 10 ≤ b → b < fs.numBlocks → fs'.lblk b = fs.lblk b ∨ WrittenBy fs op fs' b
  frame : Frame top' (afterCreate fs op) fs'

/-- An operation that creates nothing and writes to no block. -/
theorem StepKept.of_quiet {fs' : Fs} {op : FsOp} (inv : Inv own top fs') (quiet : Quiet top fs fs')
    (none : createCall fs op = none) : StepKept own own top top fs op fs' := by
  have same : afterCreate fs op = fs := by rw [afterCreate, none]
  exact ⟨.refl own, Nat.le_refl top, inv, quiet.numBlocks, fun a _ => quiet.type a,
    fun b data lt => .inl (quiet.lblk b data lt), by rw [same]; exact quiet.toFrame⟩

theorem Inv.step_write (h : Inv own top fs) (file offset : Nat) {data : List UInt8}
    (short : data.length ≤ 1024) (room : Room fs (demand fs (.write file offset data))) :
    ∃ own', StepKept own own' top top fs (.write file offset data)
      (fsWrite fs file offset data).2 := by
  have kept {own' : Ledger} {fs' : Fs} (le : own.Le own') (inv : Inv own' top fs')
      (frame : Frame top fs fs')
      (lblk : ∀ b, 10 ≤ b → b < fs.numBlocks →
        fs'.lblk b = fs.lblk b ∨ WrittenBy fs (.write file offset data) fs' b) :
      StepKept own own' top top fs (.write file offset data) fs' :=
    ⟨le, Nat.le_refl top, inv, frame.numBlocks, fun a _ => frame.type a, lblk, frame⟩
  -- the blocks stored to are the file's own or new
  have wrote {own' : Ledger} {p : InodePtr} {fs₁ fs₂ fs' : Fs}
      (opened : Snfs.openInode fs file = some (p, fs₁)) (inv : Inv own' top fs')
      (quiet : Quiet top fs₂ fs')
      (stored : Stored own own' top p file (writePos (fs.seen file) offset) data fs₁ fs₂) :
      StepKept own own' top top fs (.write file offset data) fs' := by
    obtain ⟨lt, h₁, quiet₁, ptr, copy, -⟩ := h.openInode opened
    refine kept stored.le inv (quiet₁.toFrame.trans (stored.frame.trans quiet.toFrame)) ?_
    intro b low inside
    have inside₁ : b < fs₁.numBlocks := by rwa [quiet₁.numBlocks]
    have inside₂ : b < fs₂.numBlocks := by rwa [stored.frame.numBlocks]
    rw [quiet.lblk b low inside₂, ← quiet₁.lblk b low inside]
    by_cases touched : ∃ i, writePos (fs.seen file) offset / 512 ≤ i ∧
        512 * i < writePos (fs.seen file) offset + data.length ∧ b = (fs₂.deref p).blocks i
    · obtain ⟨i, first, last, rfl⟩ := touched
      refine .inr ?_
      by_cases old : i < (fs.seen file).used
      · refine .inr ⟨i, old, first, last, ?_⟩
        rw [stored.old i (by rwa [copy]), copy]
      · refine .inl ⟨?_, ?_⟩
        · rw [← quiet₁.blkBmap]
          exact stored.fresh i (by rw [copy]; omega) last
        · exact (inv.ledger.given _ _ _ (stored.given i (by omega))).2.2.1
    · refine .inl (stored.other b low inside₁ fun i first last same => ?_)
      exact touched ⟨i, first, last, same⟩
  have ends := h.fsWrite_ends file offset short room
  generalize fsWrite fs file offset data = result at ends
  cases ends with
  | unused => exact ⟨own, kept (.refl own) h (.refl top fs) fun _ _ _ => .inl rfl⟩
  | refused opened =>
      obtain ⟨-, h₁, quiet₁, -⟩ := h.openInode opened
      exact ⟨own, kept (.refl own) h₁ quiet₁.toFrame fun b low lt => .inl (quiet₁.lblk b low lt)⟩
  | full opened _ _ _ alloc =>
      obtain ⟨-, -, quiet₁, -⟩ := h.openInode opened
      refine ⟨_, kept alloc.le alloc.inv (quiet₁.toFrame.trans alloc.frame)
        fun b low lt => .inl ?_⟩
      rw [alloc.lblk b low (by rwa [quiet₁.numBlocks]), quiet₁.lblk b low lt]
  | inside opened _ _ stored => exact ⟨own, wrote opened stored.inv (.refl top _) stored⟩
  | extended opened grows stored =>
      obtain ⟨lt, -, quiet₁, ptr, -⟩ := h.openInode opened
      have type₂ := (stored.frame.type file).trans ((quiet₁.type file).trans grows.isFile)
      obtain ⟨inv, quiet⟩ := stored.inv.writeSize lt (stored.only.ptrTo ptr) type₂ grows.fits
        (fun i hi => stored.given i (by omega))
      exact ⟨_, wrote opened inv quiet stored⟩

theorem Inv.step_make (h : Inv own top fs) {type : Itype} (made : type = .dir ∨ type = .file)
    {dir : Nat} {name : CString} (noZero : (0 : UInt8) ∉ name) (room : Room fs 1) {op : FsOp}
    (call : createCall fs op = some (type, fs, dir, name))
    (written : ∀ fs' b, IsEntryPage fs fs' dir b → WrittenBy fs op fs' b) :
    ∃ own' top', StepKept own own' top top' fs op (Snfs.fsMake type fs dir name).2 := by
  have after : afterCreate fs op = (Snfs.fsMake type fs dir name).2 := by rw [afterCreate, call]
  rcases h.fsMake type made dir noZero room with ⟨fs', stop, searched⟩ | ⟨own', fs', done, ok⟩
  · rw [stop] at after ⊢
    have same := searched.same
    have quiet := same.quiet top
    exact ⟨own, top, .refl own, Nat.le_refl top, same.inv h, quiet.numBlocks,
      fun a _ => quiet.type a, fun b low lt => .inl (quiet.lblk b low lt),
      by rw [after]; exact .refl top fs'⟩
  · rw [done] at after ⊢
    refine ⟨own', top + 1, ok.le, Nat.le_succ top, ok.inv, ok.numBlocks,
      fun a lt => ok.type_old lt, fun b low lt => ?_, by rw [after]; exact .refl _ fs'⟩
    by_cases page : b = (fs'.inodeTab dir).blocks ((fs.inodeTab dir).size / 512)
    · exact .inr (written fs' b ⟨ok.page.1, page.trans ok.page.2⟩)
    · exact .inl (ok.lblk low lt page)

/-- The source of `fs_copy` is a file and the name is part of the target path. -/
theorem Inv.copyPaths (h : Inv own top fs) {srcJunk dirJunk : Nat} {srcpath tgtpath : CString}
    {paths : Option (Nat × Nat × CString)} {fs' : Fs}
    (result : copyPaths fs srcJunk dirJunk srcpath tgtpath = some (paths, fs')) :
    Inv own top fs' ∧ Quiet top fs fs' ∧ ∀ src dir name, paths = some (src, dir, name) →
      src < top ∧ (fs'.inodeTab src).type = .file ∧
        ∃ target, splitLast tgtpath = some (target, name) := by
  have kept : Inv own top fs' ∧ Quiet top fs fs' := by
    refine copyPaths_keeps (P := fun s => Inv own top s ∧ Quiet top fs s) ?_ ?_
      ⟨h, .refl top fs⟩ result
    · rintro s dir name ⟨inv, quiet⟩ - -
      have same := fsiDirSearch_same s dir name
      exact ⟨same.inv inv, quiet.trans (same.quiet top)⟩
    · rintro s a p s' ⟨inv, quiet⟩ opened
      obtain ⟨-, inv', quiet', -⟩ := inv.openInode opened
      exact ⟨inv', quiet.trans quiet'⟩
  refine ⟨kept.1, kept.2, ?_⟩
  rintro src dir name rfl
  rw [Snfs.copyPaths] at result
  have same₁ := fsLookup_same fs srcpath
  have h₁ := same₁.inv h
  simp only at result
  split at result
  · cases result
  split at result
  · cases result
  · cases result
  · rename_i attrs fs₂ got
    split at result
    · cases result
    rename_i isFile
    split at result
    · cases result
    rename_i target name' split
    split at result
    · cases result
    · simp only [Option.some.injEq, Prod.mk.injEq] at result
      obtain ⟨⟨rfl, -, rfl⟩, -⟩ := result
      rcases h₁.fsGetAttrs_cases ((fsLookup fs srcpath).1.2.getD srcJunk) with
        ⟨-, stop⟩ | ⟨p, fs₂', opened, reported⟩
      · rw [got] at stop
        cases stop
      · obtain ⟨lt, -⟩ := h₁.openInode opened
        rw [got] at reported
        obtain ⟨attrs', attrs_eq, same⟩ := Option.map_eq_some_iff.mp reported.symm
        cases same
        refine ⟨lt, ?_, target, split⟩
        rw [kept.2.type, ← (same₁.quiet top).type, ← h₁.type_seen]
        rw [ne_eq, not_not] at isFile
        unfold attrsOf at attrs_eq
        split at attrs_eq
        · cases attrs_eq
          cases isFile
        · assumption
        · cases attrs_eq

theorem mem_of_splitLast {path target name : CString} (split : splitLast path = some (target, name))
    {x : UInt8} (hx : x ∈ name) : x ∈ path := by
  rw [splitLast] at split
  split at split
  · cases split
    have kept := (List.takeWhile_prefix (· != slash)).subset (List.mem_reverse.mp hx)
    exact List.mem_reverse.mp kept
  · cases split

/-- The ways `fs_copy` ends: a source or a target directory is not there, the target cannot be
made, the target is made and blocks are copied. -/
inductive CopyEnds (own : Ledger) (top : Nat) (fs : Fs) (srcJunk dirJunk : Nat)
    (srcpath tgtpath : CString) : Bool → Fs → Prop where
  | noPaths {fs₁ : Fs} (paths : copyPaths fs srcJunk dirJunk srcpath tgtpath = some (none, fs₁))
      (inv : Inv own top fs₁) (quiet : Quiet top fs fs₁) :
      CopyEnds own top fs srcJunk dirJunk srcpath tgtpath false fs₁
  | notMade {src dir : Nat} {name : CString} {fs₁ fs₂ : Fs}
      (paths : copyPaths fs srcJunk dirJunk srcpath tgtpath = some (some (src, dir, name), fs₁))
      (inv : Inv own top fs₁) (quiet : Quiet top fs fs₁)
      (create : fsCreate fs₁ dir name = (none, fs₂)) (searched : Searched fs₁ dir name fs₂) :
      CopyEnds own top fs srcJunk dirJunk srcpath tgtpath false fs₂
  | made {src dir : Nat} {name : CString} {fs₁ fs₂ fs₃ fs₄ : Fs} {own₁ own' : Ledger} {ok : Bool}
      (paths : copyPaths fs srcJunk dirJunk srcpath tgtpath = some (some (src, dir, name), fs₁))
      (inv : Inv own top fs₁) (quiet : Quiet top fs fs₁) (hsrc : src < top)
      (isFile : (fs₁.inodeTab src).type = .file)
      (create : fsCreate fs₁ dir name = (some top, fs₂))
      (made : Made own own₁ top .file fs₁ dir name fs₂)
      (pinned : fs₃ = addInodeToCache (pinInode fs₂ src false).2 top true)
      (inv₃ : Inv own₁ (top + 1) fs₃) (quiet₃ : Quiet (top + 1) fs₂ fs₃)
      (copy : copyInode fs₂ src top = (ok, fs₄))
      (copied : Copied own₁ own' (top + 1) (.table top) fs₃ fs₄) :
      CopyEnds own top fs srcJunk dirJunk srcpath tgtpath ok fs₄

theorem Inv.fsCopy_ends (h : Inv own top fs) {srcJunk dirJunk : Nat} {srcpath tgtpath : CString}
    (noZero : (0 : UInt8) ∉ tgtpath) (room : Room fs (inodeNumBlks + 1)) {ok : Bool} {fs' : Fs}
    (result : fsCopy fs srcJunk dirJunk srcpath tgtpath = some (ok, fs')) :
    CopyEnds own top fs srcJunk dirJunk srcpath tgtpath ok fs' := by
  rw [fsCopy] at result
  cases paths : Snfs.copyPaths fs srcJunk dirJunk srcpath tgtpath with
  | none =>
      rw [paths] at result
      cases result
  | some pair =>
      obtain ⟨target, fs₁⟩ := pair
      obtain ⟨h₁, quiet₁, named⟩ := h.copyPaths paths
      rw [paths] at result
      cases target with
      | none =>
          cases result
          exact .noPaths paths h₁ quiet₁
      | some triple =>
          obtain ⟨src, dir, name⟩ := triple
          obtain ⟨hsrc, isFile, target, split⟩ := named src dir name rfl
          have room₁ : Room fs₁ (inodeNumBlks + 1) := room.congr quiet₁.numBlocks quiet₁.blkBmap
          rcases h₁.fsMake .file (.inr rfl) dir (fun zero => noZero (mem_of_splitLast split zero))
            (room₁.mono (by decide)) with
            ⟨fs₂, stop, searched⟩ | ⟨own₁, fs₂, done, made⟩
          · simp only [fsCreate, stop] at result
            cases result
            exact .notMade paths h₁ quiet₁ stop searched
          · simp only [fsCreate, done, Option.some.injEq] at result
            have absent : fs₂.inodeCache.Absent top := by
              intro s key
              rw [made.inodeCache] at key
              exact absurd key (Nat.ne_of_lt (h₁.inodes.key_lt s))
            have isFile₂ : (fs₂.inodeTab src).type = .file := (made.type_old hsrc).trans isFile
            have isNew₂ : (fs₂.inodeTab top).type = .file := by
              rw [made.tab_new]
              rfl
            obtain ⟨own', fs₃, pinned, h₃, quiet₃, -, copied, -⟩ := made.inv.copyInode
              (Nat.lt_succ_of_lt hsrc) (Nat.lt_succ_self top) isFile₂ isNew₂ (Nat.ne_of_lt hsrc)
              absent (made.room _ room₁)
            rw [result] at copied
            exact .made paths h₁ quiet₁ hsrc isFile done made pinned h₃ quiet₃ result copied

theorem Inv.step_copy (h : Inv own top fs) {srcJunk dirJunk : Nat} {srcpath tgtpath : CString}
    (noZero : (0 : UInt8) ∉ tgtpath)
    (room : Room fs (demand fs (.copy srcJunk dirJunk srcpath tgtpath))) {ok : Bool} {fs' : Fs}
    (result : fsCopy fs srcJunk dirJunk srcpath tgtpath = some (ok, fs')) :
    ∃ own' top', StepKept own own' top top' fs (.copy srcJunk dirJunk srcpath tgtpath) fs' := by
  cases h.fsCopy_ends noZero room result with
  | noPaths paths h₁ quiet₁ =>
      exact ⟨own, top, .of_quiet h₁ quiet₁ (by rw [createCall, paths])⟩
  | notMade paths h₁ quiet₁ create searched =>
      have same := searched.same
      have after : afterCreate fs (.copy srcJunk dirJunk srcpath tgtpath) = fs' := by
        rw [afterCreate, createCall, paths]
        exact congrArg Prod.snd create
      have quiet := quiet₁.trans (same.quiet top)
      exact ⟨own, top, .refl own, Nat.le_refl top, same.inv h₁, quiet.numBlocks,
        fun a _ => quiet.type a, fun b low lt => .inl (quiet.lblk b low lt),
        by rw [after]; exact .refl top fs'⟩
  | @made src dir name fs₁ fs₂ fs₃ _ own₁ own' _ paths h₁ quiet₁ hsrc isFile create made pinned h₃
      quiet₃ copy copied =>
      have after : afterCreate fs (.copy srcJunk dirJunk srcpath tgtpath) = fs₂ := by
        rw [afterCreate, createCall, paths]
        exact congrArg Prod.snd create
      have frame : Frame (top + 1) fs₂ fs' := quiet₃.toFrame.trans copied.frame
      refine ⟨own', top + 1, made.le.trans copied.le, Nat.le_succ top, copied.inv, ?_, ?_, ?_,
        by rw [after]; exact frame⟩
      · rw [frame.numBlocks, made.numBlocks, quiet₁.numBlocks]
      · intro a lt
        rw [frame.type, made.type_old lt, quiet₁.type]
      · intro b low lt
        have lt₁ : b < fs₁.numBlocks := by rwa [quiet₁.numBlocks]
        have lt₂ : b < fs₂.numBlocks := by rwa [made.numBlocks]
        rcases copied.lblk b low (by rwa [quiet₃.numBlocks]) with same | ⟨clear, set⟩
        · by_cases page : b = (fs₂.inodeTab dir).blocks ((fs₁.inodeTab dir).size / 512)
          · refine .inr (.inr ⟨dir, ?_⟩)
            have tab : fs'.inodeTab dir = fs₂.inodeTab dir := frame.dir dir made.type_dir
            have tab₁ : fs₁.inodeTab dir = fs.inodeTab dir :=
              quiet₁.dir dir ((quiet₁.type dir).symm.trans made.creatable.isDir)
            have count : numEntries fs' dir = numEntries fs₂ dir := by
              rw [numEntries, numEntries, tab]
            have count₁ : numEntries fs₁ dir = numEntries fs dir := by
              rw [numEntries, numEntries, tab₁]
            rw [IsEntryPage, count, tab, ← count₁]
            exact ⟨made.page.1, page.trans made.page.2⟩
          · refine .inl ?_
            rw [same, quiet₃.lblk b low lt₂, made.lblk low lt₁ page, quiet₁.lblk b low lt]
        · refine .inr (.inl ⟨?_, set⟩)
          cases old : bmapIsset fs.blkBmap b with
          | false => rfl
          | true =>
              have set₃ : bmapIsset fs₃.blkBmap b = true := by
                rw [quiet₃.blkBmap]
                exact made.bmap_mono b (by rwa [quiet₁.blkBmap])
              rw [clear] at set₃
              cases set₃

theorem Inv.fsRead_quiet (h : Inv own top fs) (file offset count : Nat) :
    Inv own top (fsRead fs file offset count).2 ∧
      Quiet top fs (fsRead fs file offset count).2 := by
  rcases h.fsRead_cases file offset count with ⟨-, stop⟩ | ⟨p, fs₁, opened, ⟨-, stop⟩ |
    ⟨-, fs₂, done, h₂, quiet₂, -⟩⟩
  · rw [stop]
    exact ⟨h, .refl top fs⟩
  · obtain ⟨-, h₁, quiet₁, -⟩ := h.openInode opened
    rw [stop]
    exact ⟨h₁, quiet₁⟩
  · obtain ⟨-, -, quiet₁, -⟩ := h.openInode opened
    rw [done]
    exact ⟨h₂, quiet₁.trans quiet₂⟩

/-- One call of any operation. -/
theorem Inv.step (h : Inv own top fs) {op : FsOp} (fits : op.Fits) (room : Room fs (demand fs op))
    {res : FsResult} {fs' : Fs} (next : fsStep fs op = some (res, fs')) :
    ∃ own' top', StepKept own own' top top' fs op fs' := by
  cases op with
  | lookup path =>
      cases next
      have same := fsLookup_same fs path
      exact ⟨own, top, .of_quiet (same.inv h) (same.quiet top) rfl⟩
  | getAttrs file =>
      obtain ⟨⟨attrs, fs₁⟩, got, same⟩ := Option.map_eq_some_iff.mp next
      cases same
      obtain ⟨h₁, quiet₁, -⟩ := h.fsGetAttrs got
      exact ⟨own, top, .of_quiet h₁ quiet₁ rfl⟩
  | read file offset count =>
      cases next
      obtain ⟨h₁, quiet₁⟩ := h.fsRead_quiet file offset count
      exact ⟨own, top, .of_quiet h₁ quiet₁ rfl⟩
  | write file offset data =>
      cases next
      obtain ⟨own', kept⟩ := h.step_write file offset fits room
      exact ⟨own', top, kept⟩
  | create dir name =>
      cases next
      exact h.step_make (.inr rfl) fits room rfl fun _ _ page => page
  | mkdir dir name =>
      cases next
      exact h.step_make (.inl rfl) fits room rfl fun _ _ page => page
  | readdir dir maxentries =>
      cases next
      obtain ⟨h₁, quiet₁⟩ := h.fsReaddir dir maxentries
      exact ⟨own, top, .of_quiet h₁ quiet₁ rfl⟩
  | copy srcJunk dirJunk srcpath tgtpath =>
      obtain ⟨⟨ok, fs₁⟩, done, same⟩ := Option.map_eq_some_iff.mp next
      cases same
      exact h.step_copy fits.2.1 room done

/-- The state after the creation that an operation makes: nothing but the caches
differs, or the creation has added an entry in a state of which that holds. -/
theorem Inv.afterCreate_cases (h : Inv own top fs) {op : FsOp} (fits : op.Fits)
    (room : Room fs (demand fs op)) :
    Quiet top fs (afterCreate fs op) ∨
    ∃ own' type s dir name, createCall fs op = some (type, s, dir, name) ∧ Inv own top s ∧
      Quiet top fs s ∧ Room s 1 ∧ Made own own' top type s dir name (afterCreate fs op) := by
  have create {type : Itype} (kind : type = .dir ∨ type = .file) {s : Fs} {dir : Nat}
      {name : CString} (call : createCall fs op = some (type, s, dir, name)) (inv : Inv own top s)
      (quiet : Quiet top fs s) (noZero : (0 : UInt8) ∉ name) (room : Room s 1) :
      Quiet top fs (afterCreate fs op) ∨
      ∃ own' type s dir name, createCall fs op = some (type, s, dir, name) ∧ Inv own top s ∧
        Quiet top fs s ∧ Room s 1 ∧ Made own own' top type s dir name (afterCreate fs op) := by
    rw [afterCreate, call]
    rcases inv.fsMake type kind dir noZero room with ⟨fs₁, stop, searched⟩ | ⟨own₁, fs₁, done, made⟩
    · simp only [stop]
      exact .inl (quiet.trans (searched.same.quiet top))
    · simp only [done]
      exact .inr ⟨own₁, type, s, dir, name, rfl, inv, quiet, room, made⟩
  cases op with
  | create dir name => exact create (.inr rfl) rfl h (.refl top fs) fits room
  | mkdir dir name => exact create (.inl rfl) rfl h (.refl top fs) fits room
  | copy srcJunk dirJunk srcpath tgtpath =>
      cases paths : Snfs.copyPaths fs srcJunk dirJunk srcpath tgtpath with
      | none =>
          rw [afterCreate, createCall, paths]
          exact .inl (.refl top fs)
      | some pair =>
          obtain ⟨_ | ⟨src, dir, name⟩, s⟩ := pair
          · rw [afterCreate, createCall, paths]
            exact .inl (.refl top fs)
          · obtain ⟨inv, quiet, named⟩ := h.copyPaths paths
            obtain ⟨-, -, target, split⟩ := named src dir name rfl
            exact create (.inr rfl) (by rw [createCall, paths]) inv quiet
              (fun zero => fits.2.1 (mem_of_splitLast split zero))
              ((room.mono (show 1 ≤ inodeNumBlks + 1 by decide)).congr quiet.numBlocks quiet.blkBmap)
  | lookup _ | getAttrs _ | read _ _ _ | write _ _ _ | readdir _ _ => exact .inl (.refl top fs)

theorem within_inv {num : Nat} {clock : Nat → Int} {boot : Fs} {trace : List (FsOp × FsResult)}
    (data : 10 ≤ num) (unwrapped : num * blockSize < 2 ^ 32) (started : fsBoot num clock = some boot)
    (run : Run (Guarded (fun s e => Within s e.1) FsNext) boot trace fs) :
    ∃ own top, Inv own top fs ∧ fs.numBlocks = num := by
  have formatted := fsBoot_formatted data unwrapped started
  refine run.invariant (I := fun fs => ∃ own top, Inv own top fs ∧ fs.numBlocks = num)
    ⟨_, 2, formatted.inv data, formatted.numBlocks⟩ ?_
  rintro s ⟨op, res⟩ s' ⟨own, top, inv, size⟩ ⟨⟨fits, room⟩, next⟩
  obtain ⟨own', top', kept⟩ := inv.step fits room next
  exact ⟨own', top', kept.inv, kept.numBlocks.trans size⟩

end Snfs
