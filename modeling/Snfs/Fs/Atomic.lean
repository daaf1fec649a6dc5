import Snfs.Fs.Integrity

/-!
What calls leave behind when they fail. `fs_create` and `fs_mkdir` change nothing
outside the directory cache. `fs_write` only moves inodes through its cache,
except where the device runs out of blocks between two of those that the write
needs: the blocks found by then stay marked.
-/

namespace Snfs

open Slots Runs

variable {own : Ledger} {top : Nat} {fs fs' : Fs} {num : Nat} {clock : Nat → Int}
  {trace : List (FsOp × FsResult)}

/-- Only the places of inodes and blocks in the caches differ: every inode in the table is the
old one or a dirty copy that was written back, every cached inode is an old copy or the table's. -/
structure Intact (fs fs' : Fs) : Prop where
  blkBmap : fs'.blkBmap = fs.blkBmap
  inodeBmap : fs'.inodeBmap = fs.inodeBmap
  table : ∀ a, fs'.inodeTab a = fs.inodeTab a ∨ ∃ s, (fs.inodeCache s).key = a ∧
    (fs.inodeCache s).dirty = true ∧ fs'.inodeTab a = (fs.inodeCache s).val
  cached : ∀ s, (fs'.inodeCache s).val = fs'.inodeTab (fs'.inodeCache s).key ∨
    ∃ t, (fs.inodeCache t).key = (fs'.inodeCache s).key ∧
      (fs.inodeCache t).val = (fs'.inodeCache s).val
  low : ∀ b, b < 10 → fs'.blocks.content b = fs.blocks.content b
  content : ∀ b, 10 ≤ b → b < fs.numBlocks → fs'.lblk b = fs.lblk b

theorem Intact.refl (fs : Fs) : Intact fs fs :=
  ⟨rfl, rfl, fun _ => .inl rfl, fun s => .inr ⟨s, rfl, rfl⟩, fun _ _ => rfl, fun _ _ _ => rfl⟩

private theorem intact_addInodeAt (h : Inv own top fs) (v : Fin inodeCacheSize) (a : Nat)
    (d : Bool) :
    Intact fs (addInodeAt fs v a d) := by
  have quiet := h.frame_addInodeAt v a d
  refine ⟨quiet.blkBmap, quiet.inodeBmap, fun b => ?_, fun s => ?_, quiet.low, quiet.lblk⟩
  · by_cases dirty : (fs.inodeCache v).dirty = true
    · by_cases same : (fs.inodeCache v).key = b
      · subst same
        exact .inr ⟨v, rfl, dirty, Table.evict_of_dirty _ dirty⟩
      · exact .inl (Table.evict_of_ne _ same)
    · rw [Bool.not_eq_true] at dirty
      exact .inl (congrFun (Table.evict_of_clean _ dirty) b)
  · by_cases same : s = v
    · subst same
      refine .inl ?_
      simp only [addInodeAt, Table.place_self]
    · refine .inr ⟨s, ?_, ?_⟩ <;> simp only [addInodeAt, Table.place_of_ne _ same]

theorem Inv.intact_open (h : Inv own top fs) {a : Nat} {p : InodePtr}
    (opened : Snfs.openInode fs a = some (p, fs')) : Intact fs fs' := by
  cases opened_of_open opened with
  | @cached s found =>
      refine ⟨rfl, rfl, fun _ => .inl rfl, fun t => .inr ⟨t, ?_, ?_⟩, fun _ _ => rfl,
        fun _ _ _ => rfl⟩
      · exact (Table.touch_key fs.inodeCache s fs.now t).symm
      · exact (Table.touch_val fs.inodeCache s fs.now t).symm
  | table => exact intact_addInodeAt h _ a false

/-- A write to a file of the device's that needs more blocks than are free, while one is free. -/
structure PartialGrowth (fs : Fs) (file offset num : Nat) : Prop where
  inUse : bmapIsset fs.inodeBmap file = true
  isFile : (fs.inodeTab file).type = .file
  fits : blocksNeeded (fs.seen file) (writePos (fs.seen file) offset + num) ≤
    inodeNumBlks - (fs.seen file).used
  some : 0 < freeBits fs.blkBmap fs.numBlocks
  few : freeBits fs.blkBmap fs.numBlocks <
    blocksNeeded (fs.seen file) (writePos (fs.seen file) offset + num)

instance (fs : Fs) (file offset num : Nat) : Decidable (PartialGrowth fs file offset num) :=
  decidable_of_iff (bmapIsset fs.inodeBmap file = true ∧ (fs.inodeTab file).type = .file ∧
      blocksNeeded (fs.seen file) (writePos (fs.seen file) offset + num) ≤
        inodeNumBlks - (fs.seen file).used ∧
      0 < freeBits fs.blkBmap fs.numBlocks ∧ freeBits fs.blkBmap fs.numBlocks <
        blocksNeeded (fs.seen file) (writePos (fs.seen file) offset + num))
    ⟨fun h => ⟨h.1, h.2.1, h.2.2.1, h.2.2.2.1, h.2.2.2.2⟩,
      fun h => ⟨h.inUse, h.isFile, h.fits, h.some, h.few⟩⟩

theorem Inv.write_intact_iff (h : Inv own top fs) (file offset : Nat) {data : List UInt8}
    (short : data.length ≤ 1024) (room : Room fs (demand fs (.write file offset data))) :
    ((fsWrite fs file offset data).1 = false → Intact fs (fsWrite fs file offset data).2) ↔
      ¬ PartialGrowth fs file offset data.length := by
  have ends := h.fsWrite_ends file offset short room
  generalize fsWrite fs file offset data = result at ends
  cases ends with
  | unused out =>
      refine ⟨fun _ grows => ?_, fun _ _ => .refl fs⟩
      exact absurd (h.lt_top grows.inUse) (Nat.not_lt.mpr out)
  | refused opened why =>
      refine ⟨fun _ grows => ?_, fun _ _ => h.intact_open opened⟩
      exact absurd (why grows.isFile) (Nat.not_lt.mpr grows.fits)
  | full opened isFile fits few alloc left none =>
      rename_i fs₂ _
      obtain ⟨lt, -, quiet₁, -⟩ := h.openInode opened
      by_cases some : freeBits fs.blkBmap fs.numBlocks = 0
      · rw [none some]
        exact ⟨fun _ grows => absurd grows.some (by omega), fun _ _ => h.intact_open opened⟩
      · -- the free blocks are marked and no block is free any more
        have marked (intact : Intact fs fs₂) : False := by
          rw [intact.blkBmap, alloc.frame.numBlocks, quiet₁.numBlocks] at left
          exact some left
        refine ⟨fun intact _ => marked (intact rfl), fun whole => absurd ?_ whole⟩
        exact ⟨by rw [h.inodes.inUse]; exact decide_eq_true lt, isFile, fits, by omega, few⟩
  | inside _ _ le =>
      refine ⟨fun _ grows => ?_, fun _ stop => Bool.noConfusion stop⟩
      have none : blocksNeeded (fs.seen file) (writePos (fs.seen file) offset + data.length) = 0 :=
        Nat.sub_eq_zero_of_le (offsetToBlocks_mono le)
      exact absurd grows.few (by omega)
  | extended _ grows =>
      refine ⟨fun _ grows' => ?_, fun _ stop => Bool.noConfusion stop⟩
      exact absurd grows'.few (Nat.not_lt.mpr grows.free)

/-- A write that returns -1 leaves everything intact exactly if it does not run out of blocks
between two of those that it needs. -/
theorem failed_write_intact_iff {boot : Fs} (data : 10 ≤ num)
    (unwrapped : num * blockSize < 2 ^ 32) (started : fsBoot num clock = some boot)
    (run : Run (Guarded (fun s e => Within s e.1) FsNext) boot trace fs) (file offset : Nat)
    {bytes : List UInt8} (within : Within fs (.write file offset bytes)) :
    ((fsWrite fs file offset bytes).1 = false → Intact fs (fsWrite fs file offset bytes).2) ↔
      ¬ PartialGrowth fs file offset bytes.length := by
  obtain ⟨own, top, inv, -⟩ := within_inv data unwrapped started run
  exact inv.write_intact_iff file offset within.1 within.2

/-- A write to the root. -/
theorem failed_write_intact_iff_root :
    ∃ trace fs, fsAfter 16 (fun _ => 1) [.create 1 [102]] = some (trace, fs) ∧
      (fsWrite fs 1 0 [7]).1 = false ∧ Intact fs (fsWrite fs 1 0 [7]).2 := by
  have boots : ((fsBoot 16 fun _ => 1).bind fun boot =>
      (execute fsStep boot [.create 1 [102]]).map fun r =>
        (decide (Meets fsStep Within boot [.create 1 [102]]), decide (Within r.2 (.write 1 0 [7])),
          (r.2.inodeTab 1).type, (fsWrite r.2 1 0 [7]).1)) =
      some (true, true, .dir, false) := by decide +kernel
  obtain ⟨boot, started, facts⟩ := Option.bind_eq_some_iff.mp boots
  obtain ⟨⟨trace, fs⟩, calls, facts⟩ := Option.map_eq_some_iff.mp facts
  simp only [Prod.mk.injEq] at facts
  obtain ⟨met, within, type, stop⟩ := facts
  have whole : ¬ PartialGrowth fs 1 0 1 := fun grows => by
    rw [grows.isFile] at type
    cases type
  have intact := (failed_write_intact_iff (by decide) (by decide) started
    (run_of_execute calls (of_decide_eq_true met)) 1 0 (of_decide_eq_true within)).mpr whole stop
  exact ⟨trace, fs, by rw [fsAfter, started]; exact calls, stop, intact⟩

/-- A file of two blocks is written to a device with room for one. -/
theorem failed_write_keeps_block :
    ¬ ∀ num clock trace fs file offset bytes, 10 ≤ num → FsRun num clock trace fs →
      bytes.length ≤ 1024 → (fsWrite fs file offset bytes).1 = false →
        Intact fs (fsWrite fs file offset bytes).2 := by
  intro intact
  have facts : (fsAfter 12 (fun _ => 1) [.create 1 [102]]).map (fun r =>
      ((fsWrite r.2 2 0 (List.replicate 600 7)).1, bmapIsset r.2.blkBmap 11,
        bmapIsset (fsWrite r.2 2 0 (List.replicate 600 7)).2.blkBmap 11)) =
      some (false, false, true) := by decide +kernel
  obtain ⟨⟨trace, fs⟩, calls, facts⟩ := Option.map_eq_some_iff.mp facts
  simp only [Prod.mk.injEq] at facts
  obtain ⟨stop, clear, set⟩ := facts
  have short : (List.replicate 600 (7 : UInt8)).length ≤ 1024 := by
    rw [List.length_replicate]
    decide
  have same := intact 12 _ _ fs 2 0 _ (by decide) (FsRun.of_calls calls (by simp [FsOp.Fits]))
    short stop
  rw [same.blkBmap, clear] at set
  cases set

structure NothingMade (fs fs' : Fs) : Prop where
  blkBmap : fs'.blkBmap = fs.blkBmap
  inodeBmap : fs'.inodeBmap = fs.inodeBmap
  inodeTab : fs'.inodeTab = fs.inodeTab
  blocks : fs'.blocks = fs.blocks

/-- Inode `id` is new, its entry is the last one of the directory and the page for it is new if
the directory's pages were full. -/
structure EntryMade (type : Itype) (fs : Fs) (dir : Nat) (name : CString) (id : Nat) (fs' : Fs) :
    Prop where
  range : 2 ≤ id ∧ id ≤ 63
  free : bmapIsset fs.inodeBmap id = false
  inodeBmap : ∀ a, bmapIsset fs'.inodeBmap a = (bmapIsset fs.inodeBmap a || decide (id = a))
  new : fs'.inodeTab id = fsiInodeInit type
  old : ∀ a, bmapIsset fs.inodeBmap a = true → a ≠ dir → fs'.inodeTab a = fs.inodeTab a
  entries : dirEntries fs' dir = dirEntries fs dir ++ [(name, id)]
  others : ∀ d, IsDir fs d → d ≠ dir → dirEntries fs' d = dirEntries fs d
  page : numEntries fs dir % dirPageEntries = 0 →
    ∃ b, 10 ≤ b ∧ b < fs.numBlocks ∧ bmapIsset fs.blkBmap b = false ∧
      ∀ c, bmapIsset fs'.blkBmap c = (bmapIsset fs.blkBmap c || decide (b = c))
  noPage : numEntries fs dir % dirPageEntries ≠ 0 → fs'.blkBmap = fs.blkBmap

/-- What a creation that returns 0 or -1 may leave. -/
def AllOrNothing (type : Itype) (fs : Fs) (dir : Nat) (name : CString) : Option Nat × Fs → Prop
  | (none, fs') => NothingMade fs fs'
  | (some id, fs') => EntryMade type fs dir name id fs'

theorem SameButDirs.nothingMade (same : SameButDirs fs fs') : NothingMade fs fs' := by
  rw [same]
  exact ⟨rfl, rfl, rfl, rfl⟩

theorem Made.entryMade {own' : Ledger} {type : Itype} {dir : Nat} {name : CString}
    (made : Made own own' top type fs dir name fs') (h : Inv own top fs) (room : Room fs 1) :
    EntryMade type fs dir name top fs' := by
  have free : top < 64 := made.free
  have two := h.inodes.two_le
  have size := h.tree.size_eq made.dir_lt made.creatable.isDir
  obtain ⟨idir, grow, -⟩ := made.grown
  have inUse (a : Nat) :
      bmapIsset fs'.inodeBmap a = (bmapIsset fs.inodeBmap a || decide (top = a)) := by
    rw [made.inv.inodes.inUse, h.inodes.inUse, ← Bool.decide_or]
    exact decide_eq_decide.mpr ⟨by omega, by omega⟩
  refine ⟨⟨two, by omega⟩, by rw [h.inodes.inUse]; simp, inUse, made.tab_new,
    fun a used => made.tab_other a (h.lt_top used), made.entries_dir,
    fun d isDir => made.entries_other d (h.lt_top isDir.1), fun full => ?_, fun more => ?_⟩
  · have aligned : (fs.inodeTab dir).size % 512 = 0 := by
      simp only [dirPageEntries] at full
      omega
    rw [growDir, if_pos aligned] at grow
    obtain ⟨b, found, same⟩ := Option.map_eq_some_iff.mp grow
    simp only [Prod.mk.injEq] at same
    obtain ⟨inside, clear, -⟩ := findFree_spec found
    refine ⟨b, h.ledger.free_data clear, inside, clear, fun c => ?_⟩
    rw [← same.2]
    exact bmapIsset_set (room.found found) c
  · have unaligned : ¬ (fs.inodeTab dir).size % 512 = 0 := by
      simp only [dirPageEntries] at more
      omega
    rw [growDir, if_neg unaligned] at grow
    simp only [Option.some.injEq, Prod.mk.injEq] at grow
    exact grow.2.symm

theorem Inv.make_allOrNothing (h : Inv own top fs) {type : Itype}
    (kind : type = .dir ∨ type = .file)
    (dir : Nat) {name : CString} (noZero : (0 : UInt8) ∉ name) (room : Room fs 1) :
    AllOrNothing type fs dir name (Snfs.fsMake type fs dir name) := by
  rcases h.fsMake type kind dir noZero room with ⟨fs', stop, searched⟩ | ⟨own', fs', done, made⟩
  · rw [stop]
    exact searched.same.nothingMade
  · rw [done]
    exact made.entryMade h room

/-- A creation that fails leaves the bitmaps, the inode table and the device as they were; one
that succeeds adds one inode and one entry and takes a block exactly if the entry needs a page. -/
theorem creation_all_or_nothing (data : 10 ≤ num) (small : num ≤ 4096)
    (run : FsRun num clock trace fs) (dir : Nat) {name : CString} (noZero : (0 : UInt8) ∉ name) :
    AllOrNothing .file fs dir name (fsCreate fs dir name) ∧
      AllOrNothing .dir fs dir name (fsMkdir fs dir name) := by
  obtain ⟨own, top, inv, size⟩ := run.inv data small
  have room := room_of_le (size ▸ small) 1
  exact ⟨inv.make_allOrNothing (.inr rfl) dir noZero room,
    inv.make_allOrNothing (.inl rfl) dir noZero room⟩

/-- The second entry of the root goes to the page of the first. -/
theorem creation_all_or_nothing_second :
    ∃ trace fs, fsAfter 16 (fun _ => 1) [.create 1 [102]] = some (trace, fs) ∧
      dirEntries (fsMkdir fs 1 [100]).2 1 = [([102], 2), ([100], 3)] := by
  have facts : (fsAfter 16 (fun _ => 1) [.create 1 [102]]).map (fun r =>
      ((fsMkdir r.2 1 [100]).1, dirEntries r.2 1)) = some (some 3, [([102], 2)]) := by
    decide +kernel
  obtain ⟨⟨trace, fs⟩, calls, facts⟩ := Option.map_eq_some_iff.mp facts
  simp only [Prod.mk.injEq] at facts
  have both := creation_all_or_nothing (by decide) (by decide)
    (FsRun.of_calls calls (by simp [FsOp.Fits])) 1 (show (0 : UInt8) ∉ [100] by decide)
  cases made : fsMkdir fs 1 [100] with
  | mk id fs' =>
      rw [made] at both facts
      obtain ⟨rfl, one⟩ := facts
      refine ⟨trace, fs, calls, ?_⟩
      rw [made]
      exact both.2.entries.trans (by rw [one]; rfl)

end Snfs
