import Snfs.Fs.Workers

/-!
When `fs_write` stays inside its file while other workers handle other requests.

A request keeps pointers into `inode_cache` and numbers of blocks from one critical
section to the next. A pointer is good as long as its slot holds the inode that it was
taken for, and an insertion into `block_cache` as long as the block has not been
inserted or written since it was read. In a run in which each step finds what it uses
good, the invariant of the file system survives, and no step of a write changes another
file. Without that a write can set the size of a file that has come to its slot.
-/

namespace Snfs

open Slots Runs

def Reaches (fs : Fs) (p : InodePtr) (a n : Nat) : Prop :=
  PtrTo fs p a ∧ n ≤ inodeNumBlks ∧ ∀ i, i < n → (fs.deref p).blocks i ≠ 0

instance (fs : Fs) (a : Nat) : (p : InodePtr) → Decidable (PtrTo fs p a)
  | .cached s => inferInstanceAs (Decidable ((fs.inodeCache s).key = a))
  | .table b => inferInstanceAs (Decidable (b = a))

instance (fs : Fs) (p : InodePtr) (a n : Nat) : Decidable (Reaches fs p a n) :=
  inferInstanceAs (Decidable (_ ∧ _ ∧ ∀ i, i < n → _))

def Uncached (fs : Fs) (b : Nat) : Prop := fs.blockCache.Absent b

instance (fs : Fs) (b : Nat) : Decidable (Uncached fs b) :=
  inferInstanceAs (Decidable (∀ s, (fs.blockCache s).key ≠ b))

def GoodWrite (fs : Fs) (call : WriteCall) : WritePhase → Prop
  | .start => Within fs (.write call.file call.offset call.data)
  | .round l => l.rest ≠ [] → Reaches fs l.ifile call.file (l.iblock + 1)
  | .fetched _ b _ => Uncached fs b
  | .growing ifile stop => Reaches fs ifile call.file (offsetToBlocks stop)
  | _ => True

def GoodRead (fs : Fs) (call : ReadCall) : ReadPhase → Prop
  | .opened ifile => Reaches fs ifile call.file 0
  | .round l => l.buffer.length < l.max ∧ l.iblock < l.blksUsed →
      Reaches fs l.ifile call.file (l.iblock + 1)
  | .fetched _ b data => Uncached fs b ∧ fs.blocks.content b = data
  | _ => True

def GoodCopy (fs : Fs) (call : CopyCall) : CopyPhase → Prop
  | .round l =>
      if l.i < l.blksUsed then
        Reaches fs l.src call.srcInode (l.i + 1) ∧ Reaches fs l.new call.newInode 0 ∧ Room fs 1
      else
        Reaches fs l.src call.srcInode 0 ∧
          Reaches fs l.new call.newInode (fs.deref l.src).used
  | .fetched _ b _ data => Uncached fs b ∧ fs.blocks.content b = data
  | .taken _ b _ => Uncached fs b
  | _ => True

def GoodJob (fs : Fs) : Job → Prop
  | .idle => True
  | .write call p => GoodWrite fs call p
  | .read call p => GoodRead fs call p
  | .copy call p => GoodCopy fs call p

/-- The step uses only what is good. -/
def Good (s : Workers) : Act → Prop
  | .go i => GoodJob s.fs (s.job i)
  | .enter _ => Room s.fs 1
  | _ => True

variable {own own' own'' : Ledger} {top top' : Nat} {fs fs' : Fs}

def Gave (own : Ledger) (a b : Nat) : Prop := ∃ i, own b = some (a, i)

/-- The inodes that a job has found to be files are, and the blocks that it has looked up were given
to them. -/
def WriteHolds (own : Ledger) (fs : Fs) (call : WriteCall) : WritePhase → Prop
  | .start | .returned _ => True
  | .round _ | .growing _ _ => IsFile fs call.file
  | .located _ b | .missed _ b | .fetched _ b _ => IsFile fs call.file ∧ Gave own call.file b

def ReadHolds (own : Ledger) (fs : Fs) (call : ReadCall) : ReadPhase → Prop
  | .start | .returned _ => True
  | .opened _ => bmapIsset fs.inodeBmap call.file = true
  | .round _ => IsFile fs call.file
  | .located _ b | .missed _ b | .fetched _ b _ => IsFile fs call.file ∧ Gave own call.file b

def CopyHolds (own : Ledger) (fs : Fs) (call : CopyCall) (p : CopyPhase) : Prop :=
  IsFile fs call.srcInode ∧ IsFile fs call.newInode ∧
    match p with
    | .placed _ b c | .missed _ b c | .fetched _ b c _ =>
        Gave own call.srcInode b ∧ Gave own call.newInode c
    | .taken _ c _ => Gave own call.newInode c
    | _ => True

def JobHolds (own : Ledger) (fs : Fs) : Job → Prop
  | .idle => True
  | .write call p => WriteHolds own fs call p
  | .read call p => ReadHolds own fs call p
  | .copy call p => CopyHolds own fs call p

/-- What every good step keeps. -/
structure Carried (own own' : Ledger) (top top' : Nat) (fs fs' : Fs) : Prop where
  le : own.Le own'
  inv : Inv own' top' fs'
  inUse : ∀ a, bmapIsset fs.inodeBmap a = true → bmapIsset fs'.inodeBmap a = true
  type : ∀ a, a < top → (fs'.inodeTab a).type = (fs.inodeTab a).type

theorem Carried.of_frame (le : own.Le own') (inv : Inv own' top fs') (frame : Frame top fs fs') :
    Carried own own' top top fs fs' :=
  ⟨le, inv, fun a inUse => by rwa [frame.inodeBmap], fun a _ => frame.type a⟩

theorem Inv.carried_refl (h : Inv own top fs) : Carried own own top top fs fs :=
  .of_frame (.refl own) h (.refl top fs)

theorem Gave.mono {a b : Nat} (gave : Gave own a b) (le : own.Le own') : Gave own' a b := by
  obtain ⟨i, given⟩ := gave
  exact ⟨i, le _ _ given⟩

theorem Carried.isFile (kept : Carried own own' top top' fs fs') (h : Inv own top fs) {a : Nat}
    (isFile : IsFile fs a) : IsFile fs' a :=
  ⟨kept.inUse a isFile.1, (kept.type a (h.lt_top isFile.1)).trans isFile.2⟩

/-- A job holds the same after a step of another worker. -/
theorem Carried.job (kept : Carried own own' top top' fs fs') (h : Inv own top fs) {job : Job}
    (holds : JobHolds own fs job) : JobHolds own' fs' job := by
  cases job with
  | idle => trivial
  | write call p =>
      cases p with
      | start | returned _ => trivial
      | round _ | growing _ _ => exact kept.isFile h holds
      | located _ _ | missed _ _ | fetched _ _ _ =>
          exact ⟨kept.isFile h holds.1, holds.2.mono kept.le⟩
  | read call p =>
      cases p with
      | start | returned _ => trivial
      | opened _ => exact kept.inUse _ holds
      | round _ => exact kept.isFile h holds
      | located _ _ | missed _ _ | fetched _ _ _ =>
          exact ⟨kept.isFile h holds.1, holds.2.mono kept.le⟩
  | copy call p =>
      obtain ⟨src, new, blocks⟩ := holds
      refine ⟨kept.isFile h src, kept.isFile h new, ?_⟩
      cases p with
      | placed _ _ _ | missed _ _ _ | fetched _ _ _ _ =>
          exact ⟨blocks.1.mono kept.le, blocks.2.mono kept.le⟩
      | taken _ _ _ => exact blocks.mono kept.le
      | start | pinned _ | round _ | storing | returned _ => trivial

theorem IsFile.fileBlock {a b : Nat} (isFile : IsFile fs a) (gave : Gave own a b) :
    FileBlock own fs.inodeTab b := by
  obtain ⟨i, given⟩ := gave
  exact ⟨a, i, given, isFile.2⟩

theorem Inv.gave (h : Inv own top fs) {p : InodePtr} {a n i : Nat} (inUse : a < top)
    (reaches : Reaches fs p a n) (lt : i < n) : own ((fs.deref p).blocks i) = some (a, i) :=
  (h.owned_deref inUse reaches.1).owned i (Nat.lt_of_lt_of_le lt reaches.2.1)
    (reaches.2.2 i lt)

/-- The block of one file is written, or cached. -/
theorem Inv.unchanged_block (h : Inv own top fs) {g a b : Nat} (lt : g < top) (ne : g ≠ a)
    (coherent : Coherent fs g) (gave : Gave own a b) (same : SameInodes fs fs')
    (other : ∀ c, 10 ≤ c → c < fs.numBlocks → c ≠ b → fs'.lblk c = fs.lblk c) :
    Unchanged g fs fs' := by
  refine ⟨coherent.sameInodes same, .of_eq (same.seen g), fun i hi => ?_⟩
  have given := (h.owned_seen lt).owned_used hi
  obtain ⟨low, inside⟩ := h.owned_range given
  refine other _ low inside ?_
  rintro here
  obtain ⟨j, given'⟩ := gave
  rw [← here, given] at given'
  cases given'
  exact ne rfl

theorem Inv.unchanged_alloc (h : Inv own top fs) {g a : Nat} (lt : g < top) (ne : g ≠ a)
    (coherent : Coherent fs g) {p : InodePtr} {i : Nat} (ptr : PtrTo fs p a)
    (alloc : Allocated own own' top p i fs fs') : Unchanged g fs fs' := by
  obtain ⟨coherent', agree⟩ := coherent.onlyAt alloc.only ptr fun same => absurd same ne
  refine ⟨coherent', agree, fun j hj => ?_⟩
  obtain ⟨low, inside⟩ := h.owned_range ((h.owned_seen lt).owned_used hj)
  exact alloc.lblk _ low inside

/-- A good insertion of a block. -/
theorem Inv.carried_add (h : Inv own top fs) {a b : Nat} (isFile : IsFile fs a)
    (gave : Gave own a b) (absent : Uncached fs b) {data : Block} {d : Bool}
    (agree : d = false → fs.blocks.content b = data) :
    Carried own own top top fs (addBlockToCache fs b data d) :=
  .of_frame (.refl own) (h.addBlockAt _ (isFile.fileBlock gave) absent agree)
    (h.frame_addBlockAt _ _ _ _)

structure WriteKept (own own' : Ledger) (top : Nat) (call : WriteCall) (fs : Fs)
    (r : WritePhase × Fs) : Prop where
  kept : Carried own own' top top fs r.2
  holds : WriteHolds own' r.2 call r.1
  others : ∀ g, g < top → g ≠ call.file → Coherent fs g → Unchanged g fs r.2

theorem Inv.write_begins (h : Inv own top fs) {call : WriteCall}
    (within : Within fs (.write call.file call.offset call.data)) {started : Option (InodePtr × Nat)}
    (begins : Snfs.beginWrite fs call.file call.offset call.data.length = (started, fs')) :
    ∃ own', Carried own own' top top fs fs' ∧ (started.isSome = true → IsFile fs' call.file) ∧
      ∀ g, g < top → g ≠ call.file → Coherent fs g → Unchanged g fs fs' := by
  have short : call.data.length ≤ 2 ^ 31 := Nat.le_trans within.1 (by decide)
  have ends := h.beginWrite call.file call.offset short within.2
  rw [begins] at ends
  cases ends with
  | unused out =>
      exact ⟨own, h.carried_refl, fun some => Bool.noConfusion some,
        fun g _ _ coherent => .refl coherent⟩
  | refused opened why =>
      obtain ⟨-, h₁, quiet, -⟩ := h.openInode opened
      exact ⟨own, .of_frame (.refl own) h₁ quiet.toFrame, fun some => Bool.noConfusion some,
        fun g lt _ coherent => h.unchanged_open lt coherent opened⟩
  | full opened isFile fits few alloc left kept =>
      obtain ⟨-, h₁, quiet, ptr, -⟩ := h.openInode opened
      refine ⟨_, .of_frame alloc.le alloc.inv (quiet.toFrame.trans alloc.frame),
        fun some => Bool.noConfusion some, fun g lt ne coherent => ?_⟩
      have kept := h.unchanged_open lt coherent opened
      exact kept.trans (h₁.unchanged_alloc lt ne kept.coherent ptr alloc)
  | inside opened isFile le =>
      obtain ⟨lt, h₁, quiet, -⟩ := h.openInode opened
      refine ⟨own, .of_frame (.refl own) h₁ quiet.toFrame, fun _ => ⟨?_, ?_⟩,
        fun g lt _ coherent => h.unchanged_open lt coherent opened⟩
      · rw [h₁.inodes.inUse]
        exact decide_eq_true lt
      · exact (quiet.type _).trans isFile
  | extended opened grows alloc given fresh marks free =>
      obtain ⟨lt, h₁, quiet, ptr, -⟩ := h.openInode opened
      have frame := quiet.toFrame.trans alloc.frame
      refine ⟨_, .of_frame alloc.le alloc.inv frame, fun _ => ⟨?_, ?_⟩, fun g lt ne coherent => ?_⟩
      · rw [alloc.inv.inodes.inUse]
        exact decide_eq_true lt
      · exact (frame.type _).trans grows.isFile
      · have kept := h.unchanged_open lt coherent opened
        exact kept.trans (h₁.unchanged_alloc lt ne kept.coherent ptr alloc)

theorem Inv.write_step (h : Inv own top fs) {call : WriteCall} {p : WritePhase}
    {r : WritePhase × Fs} (holds : WriteHolds own fs call p) (good : GoodWrite fs call p)
    (effect : WriteEffect call fs p r) : ∃ own', WriteKept own own' top call fs r := by
  have still (q : WritePhase) (holds : WriteHolds own fs call q) :
      WriteKept own own top call fs (q, fs) :=
    ⟨h.carried_refl, holds, fun g _ _ coherent => .refl coherent⟩
  cases effect with
  | failed begins =>
      obtain ⟨own', kept, -, others⟩ := h.write_begins good begins
      exact ⟨own', kept, trivial, others⟩
  | began begins =>
      obtain ⟨own', kept, isFile, others⟩ := h.write_begins good begins
      exact ⟨own', kept, isFile rfl, others⟩
  | ended => exact ⟨own, still _ trivial⟩
  | grows => exact ⟨own, still _ holds⟩
  | located more =>
      have given := h.gave (h.lt_top holds.1) (good more) (Nat.lt_succ_self _)
      exact ⟨own, still (.located _ _) ⟨holds, _, given⟩⟩
  | hit present stored =>
      obtain ⟨fs₁, done, inv, frame, same, -, -, other⟩ :=
        h.writeBlock (holds.1.fileBlock holds.2) _ _
      rw [stored] at done
      cases done
      have kept := Carried.of_frame (.refl own) inv frame
      exact ⟨own, kept, kept.isFile h holds.1, fun g lt ne coherent =>
        h.unchanged_block lt ne coherent holds.2 same other⟩
  | missed => exact ⟨own, still (.missed _ _) holds⟩
  | unread => exact ⟨own, still (.returned false) trivial⟩
  | fetched => exact ⟨own, still (.fetched _ _ _) holds⟩
  | @inserted l b data =>
      have kept : Carried own own top top fs
          (addBlockToCache fs b (data.splice l.start l.chunk) true) :=
        h.carried_add holds.1 holds.2 good (by simp)
      refine ⟨own, kept, kept.isFile h holds.1, fun g lt ne coherent =>
        h.unchanged_block lt ne coherent holds.2 ⟨rfl, rfl, rfl⟩ fun c low inside other => ?_⟩
      exact h.cacheSound.lblk_addBlockAt_other _ _ _ low inside other
  | @grown ifile stop =>
      have lt := h.lt_top holds.1
      have le : stop ≤ 5120 := offsetToBlocks_le.mp good.2.1
      obtain ⟨inv, quiet⟩ := h.writeSize lt good.1 holds.2 le fun i hi =>
        h.gave lt good (lt_offsetToBlocks.mpr hi)
      refine ⟨own, .of_frame (.refl own) inv quiet.toFrame, trivial, fun g lt ne coherent => ?_⟩
      obtain ⟨coherent', agree⟩ := coherent.writeSize_other good.1 ne stop
      exact h.unchanged_of_quiet lt coherent' agree quiet

theorem Inv.carried_find (h : Inv own top fs) {b : Nat} {s : Fin blockCacheSize}
    (found : findBlockInCache fs b = some (s, fs')) :
    Carried own own top top fs (fs'.touchBlock s) := by
  rw [findBlockInCache] at found
  obtain ⟨t, -, same⟩ := Option.map_eq_some_iff.mp found
  cases same
  have quiet := (quiet_touchBlock top fs s).trans (quiet_touchBlock top _ s)
  exact .of_frame (.refl own) ((h.touchBlock s).touchBlock s) quiet.toFrame

theorem Inv.read_step (h : Inv own top fs) {call : ReadCall} {p : ReadPhase}
    {r : ReadPhase × Fs} (holds : ReadHolds own fs call p) (good : GoodRead fs call p)
    (step : readStep call fs p = some r) :
    Carried own own top top fs r.2 ∧ ReadHolds own r.2 call r.1 := by
  cases p with
  | start =>
      rw [readStep] at step
      split at step
      · cases step
        exact ⟨h.carried_refl, trivial⟩
      · split at step
        · cases step
          exact ⟨h.carried_refl, trivial⟩
        · rename_i ifile fs₁ opened
          cases step
          obtain ⟨lt, h₁, quiet, -⟩ := h.openInode opened
          refine ⟨.of_frame (.refl own) h₁ quiet.toFrame, ?_⟩
          rw [ReadHolds, h₁.inodes.inUse]
          exact decide_eq_true lt
  | opened ifile =>
      rw [readStep] at step
      split at step
      · cases step
        exact ⟨h.carried_refl, trivial⟩
      · rename_i isFile
        split at step
        · cases step
          exact ⟨h.carried_refl, trivial⟩
        · cases step
          exact ⟨h.carried_refl, holds, (h.type_deref good.1).symm.trans (not_not.mp isFile)⟩
  | round l =>
      rw [readStep] at step
      split at step
      · rename_i more
        split at step
        · cases step
          exact ⟨h.carried_refl, trivial⟩
        · cases step
          have given := h.gave (h.lt_top holds.1) (good more) (Nat.lt_succ_self _)
          exact ⟨h.carried_refl, holds, _, given⟩
      · cases step
        exact ⟨h.carried_refl, trivial⟩
  | located l b =>
      rw [readStep] at step
      split at step
      · rename_i s fs₁ found
        cases step
        have kept := h.carried_find found
        exact ⟨kept, kept.isFile h holds.1⟩
      · cases step
        exact ⟨h.carried_refl, holds⟩
  | missed l b =>
      rw [readStep] at step
      split at step
      · cases step
        exact ⟨h.carried_refl, trivial⟩
      · cases step
        exact ⟨h.carried_refl, holds⟩
  | fetched l b data =>
      cases step
      have kept := h.carried_add holds.1 holds.2 good.1 (d := false) fun _ => good.2
      exact ⟨kept, kept.isFile h holds.1⟩
  | returned bytes => cases step

theorem Inv.carried_store (h : Inv own top fs) :
    Carried own own top top fs (fsiStoreFsdata fs) := by
  have same := SameData.store h.ledger.unwrapped h.ledger.data
  refine ⟨.refl own, same.inv h, fun a inUse => ?_, fun a _ => ?_⟩
  · rwa [same.inodeBmap]
  · rw [same.inodeTab]

theorem Inv.carried_size (h : Inv own top fs) {src new : InodePtr} {a b : Nat}
    (isSrc : IsFile fs a) (isNew : IsFile fs b) (source : Reaches fs src a 0)
    (target : Reaches fs new b (fs.deref src).used) :
    Carried own own top top fs
      (fs.assign new { fs.deref new with size := (fs.deref src).size, type := .file }) := by
  have lt := h.lt_top isNew.1
  have owned := (h.owned_deref lt target.1).withSize
    (h.owned_deref (h.lt_top isSrc.1) source.1).size_le target.2.2
  have inv := h.assign (c := { fs.deref new with size := (fs.deref src).size, type := .file }) lt
    target.1 isNew.2 ⟨owned.size_le, owned.mapped, owned.owned⟩ rfl
  have quiet : Quiet top fs (fs.assign new
      { fs.deref new with size := (fs.deref src).size, type := .file }) :=
    frame_assign target.1 isNew.2 rfl
  exact .of_frame (.refl own) inv quiet.toFrame

theorem Inv.copy_step (h : Inv own top fs) {call : CopyCall} {p : CopyPhase}
    {r : CopyPhase × Fs} (holds : CopyHolds own fs call p) (good : GoodCopy fs call p)
    (step : copyStep call fs p = some r) :
    ∃ own', Carried own own' top top fs r.2 ∧ CopyHolds own' r.2 call r.1 := by
  obtain ⟨isSrc, isNew, blocks⟩ := holds
  have files {own' : Ledger} {fs' : Fs} (kept : Carried own own' top top fs fs') :
      IsFile fs' call.srcInode ∧ IsFile fs' call.newInode :=
    ⟨kept.isFile h isSrc, kept.isFile h isNew⟩
  cases p with
  | start =>
      cases step
      obtain ⟨inv, quiet, -⟩ := h.pinInode (d := false) (h.lt_top isSrc.1) (by simp)
      have kept := Carried.of_frame (.refl own) inv quiet.toFrame
      exact ⟨own, kept, (files kept).1, (files kept).2, trivial⟩
  | pinned src =>
      cases step
      obtain ⟨inv, quiet, -⟩ := h.pinInode (d := true) (h.lt_top isNew.1) fun _ => isNew.2
      have kept := Carried.of_frame (.refl own) inv quiet.toFrame
      exact ⟨own, kept, (files kept).1, (files kept).2, trivial⟩
  | round l =>
      rw [copyStep] at step
      rw [GoodCopy] at good
      split at step
      · rename_i more
        rw [if_pos more] at good
        obtain ⟨source, target, room⟩ := good
        dsimp only at step
        split at step
        · cases step
          exact ⟨own, h.carried_refl, isSrc, isNew, trivial⟩
        · rename_i b found
          cases step
          have lt := h.lt_top isNew.1
          have le := Ledger.le_give (h.ledger.unowned (findFree_spec found).2.1) call.newInode l.i
          have type := (h.type_deref target.1).trans isNew.2
          have kept := Carried.of_frame le (h.markFor lt target.1 isNew.2 found (room.found found) l.i)
            (frame_markFor target.1 isNew.2 type l.i b)
          have given := h.gave (h.lt_top isSrc.1) source (Nat.lt_succ_self _)
          exact ⟨_, kept, (files kept).1, (files kept).2, ⟨_, le _ _ given⟩, _,
            Ledger.give_self _ _ _ _⟩
      · rename_i out
        rw [if_neg out] at good
        have kept := h.carried_size isSrc isNew good.1 good.2
        dsimp only at step
        split at step
        · cases step
          exact ⟨own, kept, (files kept).1, (files kept).2, trivial⟩
        · split at step
          · cases step
            exact ⟨own, kept, (files kept).1, (files kept).2, trivial⟩
          · cases step
            exact ⟨own, kept, (files kept).1, (files kept).2, trivial⟩
  | placed l b c =>
      rw [copyStep] at step
      split at step
      · rename_i s fs₁ found
        cases step
        have kept := h.carried_find found
        exact ⟨own, kept, (files kept).1, (files kept).2, blocks.2⟩
      · cases step
        exact ⟨own, h.carried_refl, isSrc, isNew, blocks⟩
  | missed l b c =>
      rw [copyStep] at step
      split at step
      · cases step
        exact ⟨own, h.carried_refl, isSrc, isNew, trivial⟩
      · cases step
        exact ⟨own, h.carried_refl, isSrc, isNew, blocks⟩
  | fetched l b c data =>
      cases step
      have kept := h.carried_add isSrc blocks.1 good.1 (d := false) fun _ => good.2
      exact ⟨own, kept, (files kept).1, (files kept).2, blocks.2⟩
  | taken l c data =>
      cases step
      have kept : Carried own own top top fs (addBlockToCache fs c data true) :=
        h.carried_add isNew blocks good (by simp)
      exact ⟨own, kept, (files kept).1, (files kept).2, trivial⟩
  | storing =>
      cases step
      exact ⟨own, h.carried_store, (files h.carried_store).1, (files h.carried_store).2, trivial⟩
  | returned ok => cases step

private theorem browsed_browse (fs : Fs) (dirs : Fin dirCacheSize → DirCacheEntry)
    (times : Fin inodeCacheSize → Int) (clock : Nat → Int) :
    Browsed fs (fs.browse dirs times clock) :=
  ⟨rfl, fun _ => rfl, fun _ => rfl, fun _ => rfl⟩

theorem Inv.carried_enter (h : Inv own top fs) {type : Itype} (made : type = .dir ∨ type = .file)
    {dir : Nat} {name : CString} (nameable : Nameable fs dir name) (room : Room fs 1) :
    ∃ own' top', Carried own own' top top' fs (enterName type fs dir name).2 := by
  obtain ⟨isDir, nonempty, short, noZero⟩ := nameable
  rw [enterName]
  split
  · exact ⟨own, top, h.carried_refl⟩
  rename_i finode found
  split
  · exact ⟨own, top, h.carried_refl⟩
  rename_i idir blkBmap grow
  obtain rfl := h.firstFree found
  have ok : Creatable fs dir name :=
    ⟨Nat.lt_of_lt_of_le (h.lt_top isDir.1) h.inodes.le_size, nonempty, short, isDir.1, isDir.2⟩
  obtain ⟨own', entered⟩ := h.addEntry made ok noZero room (findFree_spec found).1 grow
  refine ⟨own', _, entered.le, entered.inv, fun a inUse => ?_, fun a lt => ?_⟩
  · rw [entered.inv.inodes.inUse]
    exact decide_eq_true (Nat.lt_succ_of_lt (h.lt_top inUse))
  · exact entered.added.type_old entered.room isDir.2 lt

structure Sharing (own : Ledger) (top : Nat) (s : Workers) : Prop where
  inv : Inv own top s.fs
  holds : ∀ i, JobHolds own s.fs (s.job i)

section Workers
variable {s s' : Workers} {act : Act}

theorem Sharing.keep (h : Sharing own top s) (kept : Carried own own' top top' s.fs fs') :
    Sharing own' top' { s with fs := fs' } :=
  ⟨kept.inv, fun i => kept.job h.inv (h.holds i)⟩

theorem Sharing.move (h : Sharing own top s) (kept : Carried own own' top top' s.fs fs') {i : Nat}
    {job : Job} (holds : JobHolds own' fs' job) :
    Sharing own' top' ⟨fs', Function.update s.job i job⟩ := by
  refine ⟨kept.inv, fun j => ?_⟩
  dsimp only
  by_cases same : j = i
  · rwa [same, Function.update_self]
  · rw [Function.update_of_ne same]
    exact kept.job h.inv (h.holds j)

theorem Sharing.take (h : Sharing own top s) {i : Nat} (job : Job) (holds : JobHolds own s.fs job)
    (next : s.take i job = some ((), s')) : Sharing own top s' := by
  rw [Workers.take] at next
  split at next
  · cases next
    exact h.move h.inv.carried_refl holds
  · cases next

theorem Sharing.go (h : Sharing own top s) {i : Nat} (good : GoodJob s.fs (s.job i))
    (next : workersStep s (.go i) = some ((), s')) : ∃ own' top', Sharing own' top' s' := by
  rw [workersStep] at next
  obtain ⟨⟨job, fs'⟩, step, same⟩ := Option.map_eq_some_iff.mp next
  cases same
  have holds := h.holds i
  cases current : s.job i with
  | idle =>
      rw [current] at step
      cases step
  | write call p =>
      rw [current] at step good holds
      obtain ⟨⟨q, fs₁⟩, done, same⟩ := Option.map_eq_some_iff.mp step
      cases same
      obtain ⟨own', kept⟩ := h.inv.write_step holds good (writeStep_effect done)
      exact ⟨own', top, h.move kept.kept kept.holds⟩
  | read call p =>
      rw [current] at step good holds
      obtain ⟨⟨q, fs₁⟩, done, same⟩ := Option.map_eq_some_iff.mp step
      cases same
      obtain ⟨kept, holds'⟩ := h.inv.read_step holds good done
      exact ⟨own, top, h.move kept holds'⟩
  | copy call p =>
      rw [current] at step good holds
      obtain ⟨⟨q, fs₁⟩, done, same⟩ := Option.map_eq_some_iff.mp step
      cases same
      obtain ⟨own', kept, holds'⟩ := h.inv.copy_step holds good done
      exact ⟨own', top, h.move kept holds'⟩

theorem Sharing.step (h : Sharing own top s) (good : Good s act)
    (next : workersStep s act = some ((), s')) : ∃ own' top', Sharing own' top' s' := by
  cases act with
  | write i call => exact ⟨own, top, h.take (.write call .start) trivial next⟩
  | read i call => exact ⟨own, top, h.take (.read call .start) trivial next⟩
  | copy i call =>
      rw [workersStep] at next
      split at next
      · rename_i files
        exact ⟨own, top, h.take (.copy call .start) ⟨files.1, files.2, trivial⟩ next⟩
      · cases next
  | go i => exact h.go good next
  | look a =>
      rw [workersStep] at next
      split at next
      · cases next
        exact ⟨own, top, h⟩
      · rename_i opened
        cases next
        obtain ⟨-, inv, quiet, -⟩ := h.inv.openInode opened
        exact ⟨own, top, h.keep (.of_frame (.refl own) inv quiet.toFrame)⟩
  | browse dirs times clock =>
      cases next
      have browsed := browsed_browse s.fs dirs times clock
      exact ⟨own, top, h.keep (.of_frame (.refl own) (browsed.inv h.inv) (browsed.quiet top).toFrame)⟩
  | enter call =>
      rw [workersStep] at next
      split at next
      · rename_i nameable
        cases next
        obtain ⟨own', top', kept⟩ := h.inv.carried_enter call.made nameable good
        exact ⟨own', top', h.keep kept⟩
      · cases next

def Job.writing : Job → Option Nat
  | .write call _ => some call.file
  | _ => none

/-- Size and data blocks of the file are as before. -/
structure Unharmed (g : Nat) (fs fs' : Fs) : Prop where
  size : (fs'.seen g).size = (fs.seen g).size
  blocks : ∀ i, i < (fs.seen g).used → (fs'.seen g).blocks i = (fs.seen g).blocks i ∧
    fs'.lblk ((fs.seen g).blocks i) = fs.lblk ((fs.seen g).blocks i)

theorem Unchanged.unharmed {g : Nat} (unchanged : Unchanged g fs fs') : Unharmed g fs fs' :=
  ⟨unchanged.agree.size, fun i hi =>
    ⟨unchanged.agree.blocks i (by rwa [unchanged.agree.used]), unchanged.bytes i hi⟩⟩

theorem Sharing.of_run {trace : List (Act × Unit)} (inv : Inv own top fs)
    (run : Run (Guarded (fun s e => Good s e.1) (Next workersStep)) ⟨fs, fun _ => .idle⟩ trace s) :
    ∃ own top, Sharing own top s := by
  have start : Sharing own top ⟨fs, fun _ => .idle⟩ := ⟨inv, fun _ => trivial⟩
  refine run.invariant (I := fun s => ∃ own top, Sharing own top s) ⟨own, top, start⟩ ?_
  intro s e s' before step
  obtain ⟨own, top, sharing⟩ := before
  exact sharing.step step.1 step.2

/-- In any order of the steps of any number of requests: if each step has used only what was good,
then a good step of a write to `f` changes no other file whose copies agree. -/
theorem write_spares_others {num : Nat} {clock : Nat → Int} {boot fs : Fs}
    {ops : List (FsOp × FsResult)} (data : 10 ≤ num) (unwrapped : num * blockSize < 2 ^ 32)
    (started : fsBoot num clock = some boot)
    (run : Run (Guarded (fun s e => Within s e.1) FsNext) boot ops fs)
    {trace : List (Act × Unit)}
    (workers : Run (Guarded (fun s e => Good s e.1) (Next workersStep)) ⟨fs, fun _ => .idle⟩ trace s)
    {i f : Nat} (writing : (s.job i).writing = some f) (good : Good s (.go i))
    (next : workersStep s (.go i) = some ((), s')) {g : Nat} (ne : g ≠ f)
    (isFile : IsFile s.fs g) (coherent : Coherent s.fs g) : Unharmed g s.fs s'.fs := by
  obtain ⟨own, top, inv, -⟩ := within_inv data unwrapped started run
  obtain ⟨own, top, sharing⟩ := Sharing.of_run inv workers
  have holds := sharing.holds i
  rw [Good] at good
  rw [workersStep] at next
  obtain ⟨⟨job, fs'⟩, step, same⟩ := Option.map_eq_some_iff.mp next
  cases same
  cases current : s.job i with
  | write call p =>
      rw [current] at writing step good holds
      cases writing
      obtain ⟨⟨q, fs₁⟩, done, same⟩ := Option.map_eq_some_iff.mp step
      cases same
      obtain ⟨own', kept⟩ := sharing.inv.write_step holds good (writeStep_effect done)
      exact (kept.others g (sharing.inv.lt_top isFile.1) ne coherent).unharmed
  | idle | read _ _ | copy _ _ =>
      rw [current] at writing
      cases writing

end Workers

section Decidable

instance : DecidableEq Block := fun x y =>
  decidable_of_iff (∀ i, i < blockSize → x.get i = y.get i)
    ⟨Buf.ext_get, fun same i _ => congrArg (fun b : Block => b.get i) same⟩

instance (fs : Fs) (call : WriteCall) : DecidablePred (GoodWrite fs call)
  | .start => inferInstanceAs (Decidable (Within _ _))
  | .round _ => inferInstanceAs (Decidable (_ → Reaches _ _ _ _))
  | .fetched _ _ _ => inferInstanceAs (Decidable (Uncached _ _))
  | .growing _ _ => inferInstanceAs (Decidable (Reaches _ _ _ _))
  | .located _ _ | .missed _ _ | .returned _ => .isTrue trivial

instance (fs : Fs) (call : ReadCall) : DecidablePred (GoodRead fs call)
  | .opened _ => inferInstanceAs (Decidable (Reaches _ _ _ _))
  | .round _ => inferInstanceAs (Decidable (_ → Reaches _ _ _ _))
  | .fetched _ _ _ => inferInstanceAs (Decidable (Uncached _ _ ∧ _))
  | .start | .located _ _ | .missed _ _ | .returned _ => .isTrue trivial

instance (fs : Fs) (call : CopyCall) : DecidablePred (GoodCopy fs call)
  | .round l => inferInstanceAs (Decidable (if l.i < l.blksUsed then
      Reaches fs l.src call.srcInode (l.i + 1) ∧ Reaches fs l.new call.newInode 0 ∧ Room fs 1
    else Reaches fs l.src call.srcInode 0 ∧ Reaches fs l.new call.newInode (fs.deref l.src).used))
  | .fetched _ _ _ _ => inferInstanceAs (Decidable (Uncached _ _ ∧ _))
  | .taken _ _ _ => inferInstanceAs (Decidable (Uncached _ _))
  | .start | .pinned _ | .placed _ _ _ | .missed _ _ _ | .storing | .returned _ => .isTrue trivial

instance (fs : Fs) : DecidablePred (GoodJob fs)
  | .idle => .isTrue trivial
  | .write call p => inferInstanceAs (Decidable (GoodWrite fs call p))
  | .read call p => inferInstanceAs (Decidable (GoodRead fs call p))
  | .copy call p => inferInstanceAs (Decidable (GoodCopy fs call p))

instance (s : Workers) : DecidablePred (Good s)
  | .go i => inferInstanceAs (Decidable (GoodJob s.fs (s.job i)))
  | .enter _ => inferInstanceAs (Decidable (Room _ _))
  | .write _ _ | .read _ _ | .copy _ _ | .look _ | .browse _ _ _ => .isTrue trivial

end Decidable

def writeUpToSize : List Act := [.write 0 ⟨2, 0, [7]⟩, .go 0, .go 0, .go 0, .go 0]

def beforeWorkers : List FsOp :=
  [.create 1 [102], .create 1 [103], .create 1 [104], .create 1 [105], .getAttrs 3, .write 3 0 [1],
    .getAttrs 4, .getAttrs 1, .getAttrs 5, .getAttrs 2]

/-- Another worker reads file 4 before that step, and file 3 is as before. -/
theorem write_spares_others_between :
    ∃ trace fs s s', (fsAfter 24 (fun k => k) beforeWorkers).map Prod.snd = some fs ∧
      execute workersStep ⟨fs, fun _ => .idle⟩ (writeUpToSize ++
        [.read 1 ⟨4, 0, 1⟩, .go 1, .look 1, .go 1]) = some (trace, s) ∧
      workersStep s (.go 0) = some ((), s') ∧ Unharmed 3 s.fs s'.fs := by
  have boots : ((fsBoot 24 fun k => k).bind fun boot =>
      (execute fsStep boot beforeWorkers).bind fun r =>
        (execute workersStep ⟨r.2, fun _ => .idle⟩ (writeUpToSize ++
          [.read 1 ⟨4, 0, 1⟩, .go 1, .look 1, .go 1])).bind fun q =>
          (workersStep q.2 (.go 0)).map fun t =>
            (decide (Meets fsStep Within boot beforeWorkers),
              decide (Meets workersStep Good ⟨r.2, fun _ => .idle⟩ (writeUpToSize ++
                [.read 1 ⟨4, 0, 1⟩, .go 1, .look 1, .go 1])),
              decide ((q.2.job 0).writing = some 2), decide (Good q.2 (.go 0)),
              decide (IsFile q.2.fs 3), decide (∀ v, (q.2.fs.inodeCache v).key ≠ 3))) =
      some (true, true, true, true, true, true) := by decide +kernel
  obtain ⟨boot, started, facts⟩ := Option.bind_eq_some_iff.mp boots
  obtain ⟨⟨ops, fs⟩, called, facts⟩ := Option.bind_eq_some_iff.mp facts
  obtain ⟨⟨trace, s⟩, executed, facts⟩ := Option.bind_eq_some_iff.mp facts
  obtain ⟨⟨⟨⟩, s'⟩, next, facts⟩ := Option.map_eq_some_iff.mp facts
  simp only [Prod.mk.injEq, decide_eq_true_eq] at facts
  obtain ⟨met, good, writing, last, isFile, absent⟩ := facts
  refine ⟨trace, fs, s, s', by rw [fsAfter, started, Option.bind_some, called]; rfl, executed,
    next, ?_⟩
  exact write_spares_others (by decide) (by decide) started (run_of_execute called met)
    (run_of_execute executed good) writing last next (by decide) isFile
    ⟨Table.Single.of_absent absent, fun v key => absurd key (absent v)⟩

/-- No request of another worker is on the file. -/
def Act.Avoids (i f : Nat) : Act → Prop
  | .write j call => j = i ∨ call.file ≠ f
  | .read j call => j = i ∨ call.file ≠ f
  | .copy j call => j = i ∨ call.srcInode ≠ f ∧ call.newInode ≠ f
  | .look a => a ≠ f
  | _ => True

/-- Other workers ask for the attributes of four files, the last of which comes to the slot that
the write has a pointer to; then the write sets its size. -/
theorem write_sets_size_of_other :
    ¬ ∀ num clock ops fs trace s s' i f g, 10 ≤ num → FsRun num clock ops fs →
      Run (Guarded (fun _ e => e.1.Avoids i f) (Next workersStep)) ⟨fs, fun _ => .idle⟩ trace s →
      (s.job i).writing = some f → workersStep s (.go i) = some ((), s') → g ≠ f →
      IsFile s.fs g → Unharmed g s.fs s'.fs := by
  intro spares
  have facts : ((fsAfter 24 (fun _ => 1) [.create 1 [102], .create 1 [103], .create 1 [104],
      .create 1 [105], .create 1 [106], .getAttrs 2]).bind fun r =>
        (execute workersStep ⟨r.2, fun _ => .idle⟩ (writeUpToSize ++
          [.look 4, .look 5, .look 6, .look 3])).bind fun q =>
          (workersStep q.2 (.go 0)).map fun t =>
            (decide ((q.2.job 0).writing = some 2), decide (IsFile q.2.fs 3),
              decide ((q.2.fs.seen 3).size = 0 ∧ (t.2.fs.seen 3).size = 1))) =
      some (true, true, true) := by decide +kernel
  obtain ⟨⟨ops, fs⟩, called, facts⟩ := Option.bind_eq_some_iff.mp facts
  obtain ⟨⟨trace, s⟩, executed, facts⟩ := Option.bind_eq_some_iff.mp facts
  obtain ⟨⟨⟨⟩, s'⟩, next, facts⟩ := Option.map_eq_some_iff.mp facts
  simp only [Prod.mk.injEq, decide_eq_true_eq] at facts
  obtain ⟨writing, isFile, before, after⟩ := facts
  have apart : ∀ act ∈ writeUpToSize ++ [.look 4, .look 5, .look 6, .look 3], act.Avoids 0 2 := by
    simp [writeUpToSize, Act.Avoids]
  have harmless := spares 24 _ ops fs trace s s' 0 2 3 (by decide)
    (FsRun.of_calls called (by simp [FsOp.Fits]))
    (run_of_execute executed (meets_of_forall apart _)) writing next (by decide) isFile
  rw [harmless.size, before] at after
  cases after

end Snfs
