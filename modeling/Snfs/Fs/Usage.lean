import Snfs.Fs.Names
import Snfs.Fs.Targets
import Snfs.Fs.Atomic

/-!
Which blocks are in use. A block is never given back, so a marked block that no
inode leads to is lost. The operations lose blocks when `fs_write` runs out of
them, when it extends the copy of an inode that the operations do not see, when
a directory gets a page behind a cached copy of its inode, and when `fs_copy`
copies blocks for a target that they see as empty.
-/

namespace Snfs

open Slots Runs

variable {own : Ledger} {top : Nat} {fs fs' : Fs} {a b : Nat}

/-- Block `b` is in use by inode `a`, as the operations see it. -/
def UsedBy (fs : Fs) (b a : Nat) : Prop := ∃ i, i < (fs.seen a).used ∧ (fs.seen a).blocks i = b

def NoLeak (fs : Fs) : Prop :=
  ∀ b, 10 ≤ b → bmapIsset fs.blkBmap b = true →
    ∃ a, 1 ≤ a ∧ bmapIsset fs.inodeBmap a = true ∧ UsedBy fs b a

/-- The blocks in use by an inode from 1 on, none if it is not allocated. -/
def blocksOf (fs : Fs) (a : Nat) : List Nat :=
  if bmapIsset fs.inodeBmap a then (List.range (fs.seen a).used).map (fs.seen a).blocks else []

def usedBlocks (fs : Fs) : Nat :=
  ((List.range' 1 (itabSize - 1)).map fun a =>
    if bmapIsset fs.inodeBmap a then (fs.seen a).used else 0).sum

theorem mem_blocksOf : b ∈ blocksOf fs a ↔ bmapIsset fs.inodeBmap a = true ∧ UsedBy fs b a := by
  rw [blocksOf]
  split
  · rename_i inUse
    simp [inUse, UsedBy]
  · rename_i free
    simp [free]

private theorem length_blocksOf (fs : Fs) (a : Nat) :
    (blocksOf fs a).length = if bmapIsset fs.inodeBmap a then (fs.seen a).used else 0 := by
  rw [blocksOf]
  split <;> simp

theorem Inv.owned_of_used (h : Inv own top fs) (inUse : bmapIsset fs.inodeBmap a = true)
    {i : Nat} (hi : i < (fs.seen a).used) : own ((fs.seen a).blocks i) = some (a, i) :=
  (h.owned_seen (h.lt_top inUse)).owned_used hi

theorem Inv.nodup_blocksOf (h : Inv own top fs) (a : Nat) : (blocksOf fs a).Nodup := by
  rw [blocksOf]
  split
  · rename_i inUse
    refine List.Nodup.map_on (fun i hi j hj same => ?_) List.nodup_range
    have given := h.owned_of_used inUse (List.mem_range.mp hi)
    rw [same, h.owned_of_used inUse (List.mem_range.mp hj)] at given
    cases given
    rfl
  · exact List.nodup_nil

theorem Inv.disjoint_blocksOf (h : Inv own top fs) {a' : Nat} (ne : a ≠ a') :
    List.Disjoint (blocksOf fs a) (blocksOf fs a') := by
  intro b mem mem'
  obtain ⟨inUse, i, hi, rfl⟩ := mem_blocksOf.mp mem
  obtain ⟨inUse', j, hj, same⟩ := mem_blocksOf.mp mem'
  have given := h.owned_of_used inUse' hj
  rw [same, h.owned_of_used inUse hi] at given
  cases given
  exact ne rfl

/-- The marked blocks are the metadata blocks and the blocks in use. -/
theorem Inv.marked_perm (h : Inv own top fs) (noLeak : NoLeak fs) :
    ((List.range fs.numBlocks).filter fun b => bmapIsset fs.blkBmap b).Perm
      (List.range 10 ++ (List.range' 1 (itabSize - 1)).flatMap (blocksOf fs)) := by
  have data := h.ledger.data
  have used {a b : Nat} (mem : b ∈ blocksOf fs a) :
      10 ≤ b ∧ b < fs.numBlocks ∧ bmapIsset fs.blkBmap b = true := by
    obtain ⟨inUse, i, hi, rfl⟩ := mem_blocksOf.mp mem
    obtain ⟨low, lt, set, -⟩ := h.ledger.given _ _ _ (h.owned_of_used inUse hi)
    exact ⟨low, lt, set⟩
  refine (List.perm_ext_iff_of_nodup (List.nodup_range.filter _) ?_).mpr fun b => ?_
  · rw [List.nodup_append']
    refine ⟨List.nodup_range, List.nodup_flatMap.mpr ⟨fun a _ => h.nodup_blocksOf a, ?_⟩, ?_⟩
    · exact List.Pairwise.imp (fun ne => h.disjoint_blocksOf ne) List.nodup_range'
    · intro b low mem
      obtain ⟨a, -, mem⟩ := List.mem_flatMap.mp mem
      exact absurd (List.mem_range.mp low) (Nat.not_lt.mpr (used mem).1)
  · simp only [List.mem_filter, List.mem_range, List.mem_append, List.mem_flatMap,
      List.mem_range'_1]
    constructor
    · rintro ⟨lt, set⟩
      by_cases low : b < 10
      · exact .inl low
      · obtain ⟨a, pos, inUse, usedBy⟩ := noLeak b (Nat.not_lt.mp low) set
        have small := Nat.lt_of_lt_of_le (h.lt_top inUse) h.inodes.le_size
        exact .inr ⟨a, ⟨pos, by simp only [itabSize] at small ⊢; omega⟩,
          mem_blocksOf.mpr ⟨inUse, usedBy⟩⟩
    · rintro (low | ⟨a, -, mem⟩)
      · exact ⟨by omega, h.ledger.reserved b low⟩
      · exact (used mem).2

theorem Inv.freeBits_eq (h : Inv own top fs) (noLeak : NoLeak fs) :
    freeBits fs.blkBmap fs.numBlocks + 10 + usedBlocks fs = fs.numBlocks := by
  have count := (h.marked_perm noLeak).length_eq
  have all := List.length_eq_length_filter_add (l := List.range fs.numBlocks)
    fun b => bmapIsset fs.blkBmap b
  rw [List.length_append, List.length_flatMap, List.length_range] at count
  simp only [length_blocksOf] at count
  rw [List.length_range] at all
  rw [freeBits, usedBlocks]
  omega

/-- Two copies of an inode with the same blocks in use. -/
def SamePages (x y : Inode) : Prop := x.used = y.used ∧ ∀ i, i < x.used → x.blocks i = y.blocks i

theorem SamePages.refl (x : Inode) : SamePages x x := ⟨rfl, fun _ _ => rfl⟩

theorem UsedBy.agree (used : UsedBy fs b a) (agree : Agree (fs'.seen a) (fs.seen a)) :
    UsedBy fs' b a := by
  obtain ⟨i, hi, rfl⟩ := used
  rw [← agree.used] at hi
  exact ⟨i, hi, agree.blocks i hi⟩

/-- A directory uses the pages that its inode in the table has. -/
theorem DirCopies.usedBy_iff (copies : DirCopies SamePages fs) (isDir : IsDir fs a) :
    UsedBy fs b a ↔ ∃ i, i < (fs.inodeTab a).used ∧ (fs.inodeTab a).blocks i = b := by
  obtain ⟨used, blocks⟩ := copies.seen .refl isDir
  constructor
  · rintro ⟨i, hi, rfl⟩
    exact ⟨i, used ▸ hi, (blocks i hi).symm⟩
  · rintro ⟨i, hi, rfl⟩
    rw [← used] at hi
    exact ⟨i, hi, blocks i hi⟩

/-- The pages of a directory survive every call. -/
theorem Inv.step_pages (h : Inv own top fs) {op : FsOp} (fits : op.Fits)
    (room : Room fs (demand fs op)) {own' : Ledger} {top' : Nat}
    (kept : StepKept own own' top top' fs op fs') (isDir : IsDir fs a) {i : Nat}
    (hi : i < (fs.inodeTab a).used) :
    i < (fs'.inodeTab a).used ∧ (fs'.inodeTab a).blocks i = (fs.inodeTab a).blocks i := by
  have lt := (h.isDir_iff.mp isDir).1
  have after : i < ((afterCreate fs op).inodeTab a).used ∧
      ((afterCreate fs op).inodeTab a).blocks i = (fs.inodeTab a).blocks i := by
    rcases h.afterCreate_cases fits room with quiet | ⟨own₁, type, s, dir, name, -, -, quiet, -, made⟩
    · rw [quiet.dir a isDir.2]
      exact ⟨hi, rfl⟩
    · have tab := quiet.dir a isDir.2
      by_cases here : a = dir
      · subst here
        rw [← tab] at hi ⊢
        exact made.old_page hi
      · rw [made.tab_other a lt here, tab]
        exact ⟨hi, rfl⟩
  have type : ((afterCreate fs op).inodeTab a).type = .dir := by
    rw [← kept.frame.type, kept.type a lt, isDir.2]
  rw [kept.frame.dir a type]
  exact after

def copySource (fs : Fs) : FsOp → Option Inode
  | .copy srcJunk dirJunk srcpath tgtpath =>
      match copyPaths fs srcJunk dirJunk srcpath tgtpath with
      | some (some (src, _, _), s) => some (s.seen src)
      | _ => none
  | _ => none

/-- A new page goes to a directory whose inode is not cached. -/
def AddsPageUncached (fs : Fs) (dir : Nat) (name : CString) : Prop :=
  CanAdd fs dir name → (fsiDirSearch fs dir name).1 = none →
    (fs.inodeTab dir).size % blockSize = 0 → ∀ s, (fs.inodeCache s).key ≠ dir

instance (fs : Fs) (dir : Nat) (name : CString) : Decidable (AddsPageUncached fs dir name) :=
  inferInstanceAs (Decidable (_ → _ → _ → ∀ _, _))

/-- The write that runs out of blocks halfway. -/
def GrowsPartly (fs : Fs) : FsOp → Prop
  | .write file offset data => PartialGrowth fs file offset data.length
  | _ => False

instance (fs : Fs) : DecidablePred (GrowsPartly fs)
  | .write file offset data => inferInstanceAs (Decidable (PartialGrowth fs file offset data.length))
  | .lookup _ | .getAttrs _ | .read _ _ _ | .create _ _ | .mkdir _ _ | .readdir _ _
  | .copy _ _ _ _ => .isFalse id

/-- The condition on a call under which no block is lost. -/
def KeepsBlocks (fs : Fs) (op : FsOp) : Prop :=
  KeepsFiles fs op ∧ ¬ GrowsPartly fs op ∧ OnCreate AddsPageUncached fs op ∧
    ∀ c ∈ copySource fs op, c.size = 0

instance (fs : Fs) (op : FsOp) : Decidable (KeepsBlocks fs op) :=
  inferInstanceAs (Decidable (_ ∧ _ ∧ _ ∧ ∀ c ∈ copySource fs op, _))

/-- Of the calls that write to no file only a creation marks a block. -/
theorem Inv.step_blkBmap (h : Inv own top fs) {op : FsOp} (fits : op.Fits)
    (room : Room fs (demand fs op)) {res : FsResult} (next : fsStep fs op = some (res, fs'))
    (noWrite : ∀ file offset data, op ≠ .write file offset data)
    (empty : ∀ c ∈ copySource fs op, c.size = 0) :
    fs'.blkBmap = (afterCreate fs op).blkBmap := by
  cases op with
  | lookup path =>
      simp only [fsStep] at next
      cases next
      exact ((fsLookup_same fs path).quiet top).blkBmap
  | getAttrs file =>
      obtain ⟨⟨attrs, fs₁⟩, got, same⟩ := Option.map_eq_some_iff.mp next
      cases same
      exact (h.fsGetAttrs got).2.1.blkBmap
  | read file offset count =>
      simp only [fsStep] at next
      cases next
      exact (h.fsRead_quiet file offset count).2.blkBmap
  | write file offset data => exact absurd rfl (noWrite file offset data)
  | create dir name =>
      simp only [fsStep] at next
      cases next
      rfl
  | mkdir dir name =>
      simp only [fsStep] at next
      cases next
      rfl
  | readdir dir maxentries =>
      simp only [fsStep] at next
      cases next
      exact (h.fsReaddir dir maxentries).2.blkBmap
  | copy srcJunk dirJunk srcpath tgtpath =>
      obtain ⟨⟨ok, fs₁⟩, done, same⟩ := Option.map_eq_some_iff.mp next
      cases same
      rw [afterCreate, createCall]
      cases h.fsCopy_ends fits.2.1 room done with
      | noPaths paths _ quiet =>
          simp only [paths]
          exact quiet.blkBmap
      | notMade paths _ _ create =>
          simp only [paths]
          exact congrArg (fun r => r.2.blkBmap) create.symm
      | @made src dir name fs₁ fs₂ _ _ _ _ _ paths h₁ _ hsrc isFile create made _ _ _ copy =>
          simp only [copySource, paths, Option.mem_some_iff, forall_eq'] at empty
          obtain ⟨absent, -, -⟩ := made.coherent_new h₁
          have init : (fs₂.inodeTab top).size = 0 := by
            rw [made.tab_new]
            rfl
          rw [← made.seen_other hsrc (made.ne_dir isFile)] at empty
          have none := (copyInode_empty absent (Nat.ne_of_lt hsrc) init empty).2
          rw [copy] at none
          simp only [paths]
          exact none.trans (congrArg (fun r => r.2.blkBmap) create.symm)

/-- Every file is coherent, the cached inodes of directories have the pages that those in the table
have, and no block is lost. -/
structure Accounted (top : Nat) (fs : Fs) : Prop where
  files : FilesCoherent top fs
  dirs : DirCopies SamePages fs
  noLeak : NoLeak fs

/-- A creation keeps the pages that copies of the directory have, unless it adds one. -/
theorem Made.samePages {own' : Ledger} {type : Itype} {dir : Nat} {name : CString}
    (made : Made own own' top type fs dir name fs') (h : Inv own top fs) {c : Inode}
    (same : SamePages c (fs.inodeTab dir)) (noPage : (fs.inodeTab dir).size % 512 ≠ 0) :
    SamePages c (fs'.inodeTab dir) := by
  obtain ⟨used, blocks⟩ := same
  have aligned := h.tree.size_eq made.dir_lt made.creatable.isDir
  have more : (fs'.inodeTab dir).used = (fs.inodeTab dir).used := by
    rw [Inode.used, Inode.used, offsetToBlocks_eq, offsetToBlocks_eq, made.size_dir]
    omega
  refine ⟨used.trans more.symm, fun i hi => ?_⟩
  rw [blocks i hi, (made.old_page (used ▸ hi)).2]

theorem Accounted.usedBy_step (accounted : Accounted top fs) (h : Inv own top fs) {op : FsOp}
    {res : FsResult} (guard : KeepsFiles fs op) (next : fsStep fs op = some (res, fs'))
    {own' : Ledger} {top' : Nat} (kept : StepKept own own' top top' fs op fs')
    (dirs : DirCopies SamePages fs') (pos : 1 ≤ a) (lt : a < top) (used : UsedBy fs b a) :
    UsedBy fs' b a := by
  obtain ⟨fits, room, safe⟩ := guard
  rcases h.inodes.kind a pos lt with isDir | isFile
  · have dir := h.isDir_iff.mpr ⟨lt, isDir⟩
    have dir' := kept.inv.isDir_iff.mpr
      ⟨Nat.lt_of_lt_of_le lt kept.top_le, (kept.type a lt).trans isDir⟩
    obtain ⟨i, hi, rfl⟩ := (accounted.dirs.usedBy_iff dir).mp used
    exact (dirs.usedBy_iff dir').mpr ⟨i, h.step_pages fits room kept dir hi⟩
  · have coherent := accounted.files a lt isFile
    by_cases written : WritesTo a (op, res)
    · obtain ⟨offset, data, rfl, result⟩ := written.written next
      obtain ⟨_, p, fs₁, fs₂, -, copy, stored, -, -, agree⟩ :=
        h.write_inode lt coherent fits room safe result
      obtain ⟨i, hi, rfl⟩ := used
      have old := stored.old i (by rwa [copy])
      have inside : i < (fs'.seen a).used := by
        rw [agree.used, Inode.lt_used]
        exact Nat.lt_of_lt_of_le (Inode.lt_used.mp hi) (Nat.le_max_left _ _)
      refine ⟨i, inside, ?_⟩
      rw [agree.blocks i inside, ← copy]
      exact old
    · exact used.agree (h.unchanged_step lt isFile coherent fits room next written).agree

theorem Inv.written_file (h : Inv own top fs) {file offset : Nat} {data : List UInt8}
    (short : data.length ≤ 1024) (room : Room fs (demand fs (.write file offset data)))
    (result : fsWrite fs file offset data = (true, fs')) :
    file < top ∧ (fs.inodeTab file).type = .file := by
  have ends := h.fsWrite_ends file offset short room
  rw [result] at ends
  cases ends with
  | inside opened isFile => exact ⟨(h.openInode opened).1, isFile⟩
  | extended opened grows => exact ⟨(h.openInode opened).1, grows.isFile⟩

/-- What a call marks is in use after it. -/
theorem Accounted.usedBy_new (accounted : Accounted top fs) (h : Inv own top fs) {op : FsOp}
    {res : FsResult} (guard : KeepsBlocks fs op) (next : fsStep fs op = some (res, fs'))
    {own' : Ledger} {top' : Nat} (kept : StepKept own own' top top' fs op fs')
    (dirs : DirCopies SamePages fs') (clear : bmapIsset fs.blkBmap b = false)
    (set : bmapIsset fs'.blkBmap b = true) : ∃ a, 1 ≤ a ∧ a < top' ∧ UsedBy fs' b a := by
  obtain ⟨⟨fits, room, safe⟩, whole, -, empty⟩ := guard
  have old : bmapIsset fs.blkBmap b ≠ true := by simp [clear]
  by_cases writes : ∃ file offset data, op = .write file offset data
  · obtain ⟨file, offset, data, rfl⟩ := writes
    cases result : fsWrite fs file offset data with
    | mk ok fs₁ =>
        simp only [fsStep, result] at next
        cases next
        cases ok with
        | false =>
            have intact := (h.write_intact_iff file offset fits room).mpr whole
            rw [result] at intact
            rw [(intact rfl).blkBmap] at set
            exact absurd set old
        | true =>
            obtain ⟨lt, isFile⟩ := h.written_file fits room result
            obtain ⟨_, p, fs₁, fs₂, quiet₁, copy, stored, quiet₂, -, agree⟩ :=
              h.write_inode lt (accounted.files file lt isFile) fits room safe result
            rw [quiet₂.blkBmap] at set
            rcases stored.marks b set with before | ⟨i, _, inside, rfl⟩
            · rw [quiet₁.blkBmap] at before
              exact absurd before old
            · have hi : i < (fs'.seen file).used := by
                rw [agree.used, Inode.lt_used]
                exact Nat.lt_of_lt_of_le inside (Nat.le_max_right _ _)
              refine ⟨file, ?_, Nat.lt_of_lt_of_le lt kept.top_le, i, hi, agree.blocks i hi⟩
              refine Nat.pos_of_ne_zero fun zero => ?_
              rw [zero, h.inodes.zero] at isFile
              cases isFile
  · rw [h.step_blkBmap fits room next (fun _ _ _ same => writes ⟨_, _, _, same⟩) empty] at set
    rcases h.afterCreate_cases fits room with quiet |
      ⟨own₁, type, s, dir, name, -, inv, quiet, room₁, made⟩
    · rw [quiet.blkBmap] at set
      exact absurd set old
    · rcases made.marks room₁ set with before | ⟨-, rfl⟩
      · rw [quiet.blkBmap] at before
        exact absurd before old
      · -- the new page of the directory
        have tab : fs'.inodeTab dir = (afterCreate fs op).inodeTab dir :=
          kept.frame.dir dir made.type_dir
        have lt := Nat.lt_of_lt_of_le made.dir_lt kept.top_le
        have isDir := kept.inv.isDir_iff.mpr ⟨lt, by rw [tab]; exact made.type_dir⟩
        have pos : dir ≠ 0 := kept.inv.dir_ne_zero isDir
        refine ⟨dir, Nat.pos_of_ne_zero pos, lt, (dirs.usedBy_iff isDir).mpr
          ⟨(s.inodeTab dir).size / 512, ?_, by rw [tab]⟩⟩
        rw [tab, Inode.lt_used, made.size_dir]
        omega

theorem Accounted.step (accounted : Accounted top fs) (h : Inv own top fs) {op : FsOp}
    {res : FsResult} (guard : KeepsBlocks fs op) (next : fsStep fs op = some (res, fs')) :
    ∃ own' top', Inv own' top' fs' ∧ Accounted top' fs' := by
  obtain ⟨own', top', kept, files⟩ := accounted.files.step h guard.1 next
  have dirs : DirCopies SamePages fs' := by
    refine (dirCopies_kept SamePages.refl).step h accounted.dirs guard.1.1 guard.1.2.1 ?_ next
    intro own₁ type s dir name s' call inv copies made
    refine copies.made inv made fun slot key same => made.samePages inv same fun full => ?_
    obtain ⟨fs₁, missed, -⟩ := made.missed
    exact guard.2.2.1.of_call call ⟨made.creatable, by rw [made.freeInode]; rfl, made.freeBlock⟩
      (by rw [missed]) full slot key
  refine ⟨own', top', kept.inv, files, dirs, fun b data set => ?_⟩
  have inUse {a : Nat} (lt : a < top') : bmapIsset fs'.inodeBmap a = true := by
    rw [kept.inv.inodes.inUse]
    exact decide_eq_true lt
  by_cases old : bmapIsset fs.blkBmap b = true
  · obtain ⟨a, pos, used, usedBy⟩ := accounted.noLeak b data old
    have lt := h.lt_top used
    exact ⟨a, pos, inUse (Nat.lt_of_lt_of_le lt kept.top_le),
      accounted.usedBy_step h guard.1 next kept dirs pos lt usedBy⟩
  · obtain ⟨a, pos, lt, usedBy⟩ :=
      accounted.usedBy_new h guard next kept dirs (Bool.not_eq_true _ ▸ old) set
    exact ⟨a, pos, inUse lt, usedBy⟩

section Runs
variable {num : Nat} {clock : Nat → Int} {boot : Fs} {trace : List (FsOp × FsResult)}

/-- In a run whose calls lose no block every marked block is in use, and the free blocks are those
that no file and no directory uses. -/
theorem marked_blocks_used (data : 10 ≤ num) (unwrapped : num * blockSize < 2 ^ 32)
    (started : fsBoot num clock = some boot)
    (run : Run (Guarded (fun s e => KeepsBlocks s e.1) FsNext) boot trace fs) :
    NoLeak fs ∧ freeBits fs.blkBmap num + 10 + usedBlocks fs = num := by
  have formatted := fsBoot_formatted data unwrapped started
  have inv := formatted.inv data
  have start : NoLeak boot := by
    intro b low set
    rw [formatted.blkBmap] at set
    exact absurd (of_decide_eq_true set) (Nat.not_lt.mpr low)
  obtain ⟨own, top, h, accounted, size⟩ := run.invariant
    (I := fun s => ∃ own top, Inv own top s ∧ Accounted top s ∧ s.numBlocks = num)
    ⟨_, 2, inv, ⟨inv.filesCoherent_two, formatted.dirCopies data, start⟩, formatted.numBlocks⟩
    (by
      rintro s ⟨op, res⟩ s' ⟨own, top, inv, accounted, size⟩ ⟨guard, next⟩
      obtain ⟨own', top', inv', accounted'⟩ := accounted.step inv guard next
      obtain ⟨_, _, kept⟩ := inv.step guard.1.1 guard.1.2.1 next
      exact ⟨own', top', inv', accounted', kept.numBlocks.trans size⟩)
  have count := h.freeBits_eq accounted.noLeak
  rw [size] at count
  exact ⟨accounted.noLeak, count⟩

end Runs

/-- A file of one byte; the root and the file use one block each. -/
theorem marked_blocks_used_one_byte :
    ∃ trace fs, fsAfter 16 (fun _ => 1) [.create 1 [102], .getAttrs 2, .write 2 0 [7]] =
        some (trace, fs) ∧
      usedBlocks fs = 2 ∧ freeBits fs.blkBmap 16 = 4 ∧ NoLeak fs := by
  have boots : ((fsBoot 16 fun _ => 1).bind fun boot =>
      (execute fsStep boot [.create 1 [102], .getAttrs 2, .write 2 0 [7]]).map fun r =>
        (decide (Meets fsStep KeepsBlocks boot [.create 1 [102], .getAttrs 2, .write 2 0 [7]]),
          usedBlocks r.2)) = some (true, 2) := by decide +kernel
  obtain ⟨boot, started, facts⟩ := Option.bind_eq_some_iff.mp boots
  obtain ⟨⟨trace, fs⟩, calls, facts⟩ := Option.map_eq_some_iff.mp facts
  simp only [Prod.mk.injEq] at facts
  obtain ⟨met, used⟩ := facts
  obtain ⟨noLeak, count⟩ := marked_blocks_used (by decide) (by decide) started
    (run_of_execute calls (of_decide_eq_true met))
  exact ⟨trace, fs, by rw [fsAfter, started]; exact calls, used, by omega, noLeak⟩

/-- The block of a file that was not cached when it was written is in use by no inode. -/
theorem written_block_lost :
    ¬ ∀ num clock trace fs, 10 ≤ num → FsRun num clock trace fs → NoLeak fs := by
  intro noLeak
  have facts : (fsAfter 16 (fun _ => 1) [.create 1 [102], .write 2 0 [7]]).map (fun r =>
      (r.2.numBlocks, usedBlocks r.2, freeBits r.2.blkBmap 16)) = some (16, 1, 4) := by
    decide +kernel
  obtain ⟨⟨trace, fs⟩, calls, facts⟩ := Option.map_eq_some_iff.mp facts
  simp only [Prod.mk.injEq] at facts
  obtain ⟨size, used, free⟩ := facts
  have run := FsRun.of_calls calls (by simp [FsOp.Fits])
  obtain ⟨own, top, inv, -⟩ := run.inv (by decide) (by decide)
  have count := inv.freeBits_eq (noLeak 16 _ trace fs (by decide) run)
  rw [size, used, free] at count
  cases count

end Snfs
