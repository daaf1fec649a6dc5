import Snfs.Fs.Integrity

/-!
`fs_read` in any state, reached by a run or not: it needs nothing but the blocks
of the copy it selects in order. Evictions write back whatever is dirty, blocks
of the file itself among it, and leave the content of these blocks alone.
-/

namespace Snfs

open Slots

/-- The blocks of a copy lie on the device, in one slot of the block cache at most, and a clean slot
agrees with the device. -/
structure Readable (fs : Fs) (c : Inode) : Prop where
  unwrapped : fs.blocks.Unwrapped
  inside : ∀ i, i < c.used → c.blocks i < fs.numBlocks
  single : ∀ i, i < c.used → fs.blockCache.Single (c.blocks i)
  clean : ∀ i, i < c.used → fs.blockCache.Clean Eq fs.blocks.content (c.blocks i)

def blocksContent (fs : Fs) (c : Inode) : List UInt8 :=
  (List.range c.used).flatMap fun i => (fs.lblk (c.blocks i)).slice 0 blockSize

private theorem blocksContent_eq (fs : Fs) (c : Inode) :
    blocksContent fs c = bytesAt fs.lblk c 0 (512 * c.used) := by
  rw [blocksContent]
  generalize c.used = n
  induction n with
  | zero => rfl
  | succ n ih =>
      rw [List.range_succ, List.flatMap_append, ih, List.flatMap_singleton,
        slice_eq_bytesAt fs.lblk c (by simp), Nat.add_zero, Nat.mul_succ, ← bytesAt_append,
        Nat.zero_add]

private theorem drop_take_bytesAt (look : Nat → Block) (c : Inode) {len offset num : Nat}
    (inside : offset + num ≤ len) :
    ((bytesAt look c 0 len).drop offset).take num = bytesAt look c offset num := by
  obtain ⟨rest, rfl⟩ := Nat.exists_eq_add_of_le inside
  rw [← bytesAt_append, ← bytesAt_append, List.append_assoc, List.drop_left' (length_bytesAt _ _ _ _),
    List.take_left' (length_bytesAt _ _ _ _), Nat.zero_add]

variable {fs : Fs} {c : Inode}

namespace Readable

theorem touchBlock (h : Readable fs c) (s : Fin blockCacheSize) : Readable (fs.touchBlock s) c where
  unwrapped := h.unwrapped
  inside := h.inside
  single i hi := (h.single i hi).congr (Table.touch_key _ _ _)
  clean i hi := (h.clean i hi).congr (Table.touch_key _ _ _) (Table.touch_dirty _ _ _)
    (Table.touch_val _ _ _)

/-- A block that was not cached is inserted with the device's content. -/
theorem addBlockAt (h : Readable fs c) (v : Fin blockCacheSize) {b : Nat}
    (absent : fs.blockCache.Absent b) :
    Readable (Snfs.addBlockAt fs v b (fs.blocks.content b) false) c ∧
      ∀ i, i < c.used →
        (Snfs.addBlockAt fs v b (fs.blocks.content b) false).lblk (c.blocks i) =
          fs.lblk (c.blocks i) := by
  have device (i : Nat) (hi : i < c.used) :=
    content_addBlockAt h.unwrapped v b (fs.blocks.content b) false (h.inside i hi)
  refine ⟨⟨?_, ?_, ?_, ?_⟩, ?_⟩
  · rw [Snfs.addBlockAt]
    dsimp only
    split
    · exact h.unwrapped.write _ _
    · exact h.unwrapped
  · intro i hi
    rw [numBlocks_addBlockAt]
    exact h.inside i hi
  · intro i hi
    by_cases same : c.blocks i = b
    · rw [same]
      exact .place_new absent v _ _ _
    · exact (h.single i hi).place_other same v _ _ _
  · intro i hi
    refine Table.Clean.store_congr ?_ (device i hi)
    by_cases same : c.blocks i = b
    · rw [same]
      exact .place_new absent v _ fun _ => rfl
    · exact (h.clean i hi).place_other (h.single i hi) same v _ _ _
  · intro i hi
    by_cases same : c.blocks i = b
    · rw [Fs.lblk, Table.view_store_congr _ (device i hi), same]
      exact (Table.view_place_new absent _ v _ _ _).trans (Table.view_of_absent absent _).symm
    · exact lblk_addBlockAt_other h.unwrapped v _ _ (h.inside i hi) (h.single i hi) (h.clean i hi)
        same

theorem fetchBlock (h : Readable fs c) {i : Nat} (hi : i < c.used) :
    ∃ fs', Snfs.fetchBlock fs (c.blocks i) = some (fs.lblk (c.blocks i), fs') ∧ Readable fs' c ∧
      SameInodes fs fs' ∧ ∀ j, j < c.used → fs'.lblk (c.blocks j) = fs.lblk (c.blocks j) := by
  cases found : fs.blockCache.find? (c.blocks i) with
  | some s =>
      have val : ((fs.touchBlock s).blockCache s).val = (fs.blockCache s).val :=
        Table.touch_val fs.blockCache s fs.now s
      refine ⟨(fs.touchBlock s).touchBlock s, ?_, (h.touchBlock s).touchBlock s, ⟨rfl, rfl, rfl⟩,
        fun j _ => ?_⟩
      · simp only [Snfs.fetchBlock, findBlockInCache, found, Option.map_some, val, Fs.lblk,
          Table.view_of_find found]
      · rw [lblk_touchBlock, lblk_touchBlock]
  | none =>
      have absent := Table.absent_of_find found
      have content : fs.lblk (c.blocks i) = fs.blocks.content (c.blocks i) :=
        Table.view_of_absent absent _
      obtain ⟨readable, kept⟩ := h.addBlockAt (oldest fun s => (fs.blockCache s).lastAccess) absent
      refine ⟨addBlockToCache fs (c.blocks i) (fs.blocks.content (c.blocks i)) false, ?_, readable,
        ⟨rfl, rfl, rfl⟩, kept⟩
      simp only [Snfs.fetchBlock, findBlockInCache, found, Option.map_none,
        Blocks.read_of_lt (h.inside i hi), content]

end Readable

/-- The copies of inodes in use are in order after every run. -/
theorem Inv.readable {own : Ledger} {top : Nat} (h : Inv own top fs) {a : Nat} (ha : a < top) :
    Readable fs (fs.seen a) := by
  have range (i : Nat) (hi : i < (fs.seen a).used) :=
    h.owned_range ((h.owned_seen ha).owned_used hi)
  exact ⟨h.ledger.unwrapped, fun i hi => (range i hi).2,
    fun i hi => h.blocks.single _ (range i hi).1,
    fun i hi => h.blocks.clean _ (range i hi).1 (range i hi).2⟩

/-- Opening leads to the copy seen and leaves the blocks alone. -/
theorem openInode_copy {a : Nat} {p : InodePtr} {fs' : Fs}
    (opened : openInode fs a = some (p, fs')) :
    fs'.deref p = fs.seen a ∧ fs'.blocks = fs.blocks ∧ fs'.blockCache = fs.blockCache := by
  cases opened_of_open opened with
  | cached found =>
      refine ⟨?_, rfl, rfl⟩
      rw [Fs.seen, Table.view_of_find found]
      exact Table.touch_val _ _ _ _
  | table absent =>
      refine ⟨?_, rfl, rfl⟩
      rw [Fs.seen, Table.view_of_absent absent]
      exact Table.evict_of_ne _ (absent _)

/-- What the read loop keeps: its pointer, the blocks of the copy and their content. -/
structure StillReads (p : InodePtr) (c : Inode) (fs fs' : Fs) : Prop where
  copy : fs'.deref p = c
  readable : Readable fs' c
  same : ∀ i, i < c.used → fs'.lblk (c.blocks i) = fs.lblk (c.blocks i)

theorem StillReads.fetchBlock {p : InodePtr} {c : Inode} {fs s : Fs} (h : StillReads p c fs s)
    {i : Nat} (hi : i < c.used) :
    ∃ s', Snfs.fetchBlock s (c.blocks i) = some (fs.lblk (c.blocks i), s') ∧
      StillReads p c fs s' := by
  obtain ⟨s', fetched, readable, inodes, same⟩ := h.readable.fetchBlock hi
  refine ⟨s', by rw [fetched, h.same i hi], ?_, readable, ?_⟩
  · exact (inodes.deref p).trans h.copy
  · intro j hj
    exact (same j hj).trans (h.same j hj)

/-- `fs_read` gives the bytes asked for of the copy that it selects, as far as the copy goes. -/
theorem fsRead_gives_slice {file : Nat} (lt : file < itabSize)
    (selected : (openInode fs file).isSome = true) (isFile : (fs.seen file).type = .file)
    (size : (fs.seen file).size ≤ 5120) (blocks : Readable fs (fs.seen file)) (offset count : Nat) :
    ∃ bytes fs', fsRead fs file offset count = (some bytes, fs') ∧
      bytes.length = min count ((fs.seen file).size - offset) ∧
      bytes = if (fs.seen file).size ≤ offset then []
        else ((blocksContent fs (fs.seen file)).drop offset).take
          (min count ((fs.seen file).size - offset)) := by
  obtain ⟨⟨p, fs₁⟩, opened⟩ := Option.isSome_iff_exists.mp selected
  obtain ⟨copy, device, cached⟩ := openInode_copy opened
  rw [fsRead, if_neg (Nat.not_le.mpr lt), opened]
  simp only [copy]
  rw [if_neg (not_not.mpr isFile)]
  by_cases beyond : (fs.seen file).size ≤ offset
  · refine ⟨[], fs₁, if_pos beyond, ?_, (if_pos beyond).symm⟩
    rw [Nat.sub_eq_zero_of_le beyond, Nat.min_zero, List.length_nil]
  rw [if_neg beyond, if_neg beyond]
  have num : offset + min count ((fs.seen file).size - offset) ≤ (fs.seen file).size := by omega
  have isCount : asCount (min count ((fs.seen file).size - offset)) =
      min count ((fs.seen file).size - offset) := by
    rw [asCount, if_pos (by omega)]
  have lblk : fs₁.lblk = fs.lblk := by
    funext b
    rw [Fs.lblk, Fs.lblk, device, cached]
  have opened₁ : Readable fs₁ (fs.seen file) := by
    refine ⟨?_, ?_, ?_, ?_⟩
    · rw [device]
      exact blocks.unwrapped
    · rw [Fs.numBlocks, device]
      exact blocks.inside
    · rw [cached]
      exact blocks.single
    · rw [cached, device]
      exact blocks.clean
  have start : StillReads p (fs.seen file) fs fs₁ :=
    ⟨copy, opened₁, fun i _ => congrFun lblk _⟩
  have few : (fs.seen file).used ≤ inodeNumBlks := offsetToBlocks_le.mpr size
  have none : [] = bytesAt fs.lblk (fs.seen file) offset 0 := rfl
  have fetch (s : Fs) (i : Nat) (still : StillReads p (fs.seen file) fs s)
      (hi : i < (fs.seen file).used) := still.fetchBlock hi
  obtain ⟨fs₂, loop, -⟩ := readLoop_eq few (fun s still => still.copy) fetch num start none
    (Nat.zero_le _) (fun _ => .inl ⟨rfl, rfl⟩) (Nat.le_refl _)
  refine ⟨_, fs₂, by rw [isCount]; exact loop, length_bytesAt _ _ _ _, ?_⟩
  rw [blocksContent_eq, drop_take_bytesAt]
  have used : (fs.seen file).size ≤ 512 * (fs.seen file).used := offsetToBlocks_le.mp (Nat.le_refl _)
  omega

/-- A file of 1224 bytes is read from its first block to its third. -/
theorem fsRead_gives_slice_three_blocks :
    ∃ trace fs, fsAfter 16 (fun _ => 1) [.create 1 [102], .getAttrs 2,
        .write 2 0 (List.replicate 1024 7), .write 2 1024 (List.replicate 200 8)] =
          some (trace, fs) ∧ (fs.seen 2).size = 1224 ∧
      ∃ bytes fs', fsRead fs 2 500 700 = (some bytes, fs') ∧
        bytes.length = min 700 ((fs.seen 2).size - 500) ∧
        bytes = if (fs.seen 2).size ≤ 500 then []
          else ((blocksContent fs (fs.seen 2)).drop 500).take (min 700 ((fs.seen 2).size - 500)) := by
  have facts : (fsAfter 16 (fun _ => 1) [.create 1 [102], .getAttrs 2,
      .write 2 0 (List.replicate 1024 7), .write 2 1024 (List.replicate 200 8)]).map (fun r =>
        ((openInode r.2 2).isSome, decide ((r.2.seen 2).type = .file),
          bmapIsset r.2.inodeBmap 2, (r.2.seen 2).size)) = some (true, true, true, 1224) := by
    decide +kernel
  obtain ⟨⟨trace, fs⟩, calls, facts⟩ := Option.map_eq_some_iff.mp facts
  simp only [Prod.mk.injEq, decide_eq_true_eq] at facts
  obtain ⟨selected, isFile, used, size⟩ := facts
  have short {n : Nat} (few : n ≤ 1024) (b : UInt8) : (List.replicate n b).length ≤ 1024 := by
    rwa [List.length_replicate]
  have run := FsRun.of_calls calls (by
    simp only [List.mem_cons, List.not_mem_nil, or_false, forall_eq_or_imp, forall_eq, FsOp.Fits]
    exact ⟨by decide, trivial, short (by decide) 7, short (by decide) 8⟩)
  obtain ⟨own, top, inv, -⟩ := run.inv (by decide) (by decide)
  have lt := inv.lt_top used
  exact ⟨trace, fs, calls, size, fsRead_gives_slice (by decide) selected isFile
    (inv.owned_seen lt).size_le (inv.readable lt) 500 700⟩

end Snfs
