import Snfs.Fs.Browsing

/-!
`fs_write`: the blocks it allocates, the bytes it stores and the size it leaves.
Allocation alone changes no block's content, because the blocks that are free
hold zeros and enter the cache as zeros.
-/

namespace Snfs

open Slots

variable {own : Ledger} {top : Nat} {fs : Fs}

def markFor (fs : Fs) (p : InodePtr) (i b : Nat) : Fs :=
  ({ fs with blkBmap := bmapSet fs.blkBmap b } : Fs).assign p ((fs.deref p).setBlock i b)

theorem markFor_blkBmap (fs : Fs) (p : InodePtr) (i b : Nat) :
    (markFor fs p i b).blkBmap = bmapSet fs.blkBmap b := by
  cases p <;> rfl

private theorem markFor_numBlocks (fs : Fs) (p : InodePtr) (i b : Nat) :
    (markFor fs p i b).numBlocks = fs.numBlocks := by
  cases p <;> rfl

theorem markFor_blockCache (fs : Fs) (p : InodePtr) (i b : Nat) :
    (markFor fs p i b).blockCache = fs.blockCache := by
  cases p <;> rfl

theorem markFor_lblk (fs : Fs) (p : InodePtr) (i b : Nat) : (markFor fs p i b).lblk = fs.lblk := by
  cases p <;> rfl

theorem markFor_deref (fs : Fs) (p : InodePtr) (i b : Nat) :
    (markFor fs p i b).deref p = (fs.deref p).setBlock i b :=
  deref_assign_self _ p _

theorem onlyAt_markFor (fs : Fs) (p : InodePtr) (i b : Nat) : OnlyAt p fs (markFor fs p i b) :=
  have marked : SameInodes fs { fs with blkBmap := bmapSet fs.blkBmap b } := ⟨rfl, rfl, rfl⟩
  (marked.onlyAt p).trans (onlyAt_assign _ p _)

theorem frame_markFor {p : InodePtr} {a : Nat} (ptr : PtrTo fs p a)
    (file : (fs.inodeTab a).type = .file) (type : (fs.deref p).type = .file) (i b : Nat) :
    Frame top fs (markFor fs p i b) := by
  have marked : Frame top fs { fs with blkBmap := bmapSet fs.blkBmap b } :=
    .of_eq _ rfl rfl rfl
  have ptr : PtrTo { fs with blkBmap := bmapSet fs.blkBmap b } p a := by cases p <;> exact ptr
  have type : ((fs.deref p).setBlock i b).type = .file := type
  exact marked.trans (frame_assign ptr file type).toFrame

theorem Inv.markFor (h : Inv own top fs) {p : InodePtr} {a : Nat} (ha : a < top)
    (ptr : PtrTo fs p a) (file : (fs.inodeTab a).type = .file) {b : Nat}
    (found : fsiBmapFindFree fs.blkBmap fs.numBlocks = some b) (bit : b < bmapBits) (i : Nat) :
    Inv (own.give b a i) top (markFor fs p i b) := by
  obtain ⟨inside, clear, -⟩ := findFree_spec found
  have data := h.ledger.free_data clear
  have owned : OwnedInode (own.give b a i) a ((fs.deref p).setBlock i b) :=
    ((h.owned_deref ha ptr).mono (Ledger.le_give (h.ledger.unowned clear) a i)).setBlock
      (Ledger.give_self own b a i) (by omega)
  have type : ((fs.deref p).setBlock i b).type = .file := (h.type_deref ptr).trans file
  exact (h.give ha clear inside bit i).assign ha (by cases p <;> exact ptr) file owned type

/-- What step 3 of `fs_write` keeps, whether or not it finds all the blocks. -/
structure Allocated (own own' : Ledger) (top : Nat) (p : InodePtr) (i : Nat) (fs fs' : Fs) :
    Prop where
  le : own.Le own'
  inv : Inv own' top fs'
  frame : Frame top fs fs'
  only : OnlyAt p fs fs'
  lblk : ∀ b, 10 ≤ b → b < fs.numBlocks → fs'.lblk b = fs.lblk b
  size : (fs'.deref p).size = (fs.deref p).size
  below : ∀ j, j < i → (fs'.deref p).blocks j = (fs.deref p).blocks j

theorem Inv.allocated_refl (h : Inv own top fs) (p : InodePtr) (i : Nat) :
    Allocated own own top p i fs fs :=
  ⟨.refl own, h, .refl top fs, (SameInodes.refl fs).onlyAt p, fun _ _ _ => rfl, rfl,
    fun _ _ => rfl⟩

theorem Inv.allocated_step (h : Inv own top fs) {p : InodePtr} {a : Nat} (ha : a < top)
    (ptr : PtrTo fs p a) (file : (fs.inodeTab a).type = .file) {b : Nat}
    (found : fsiBmapFindFree fs.blkBmap fs.numBlocks = some b) (bit : b < bmapBits) (i : Nat) :
    Allocated own (own.give b a i) top p i fs
      (addBlockToCache (Snfs.markFor fs p i b) b .zero true) := by
  obtain ⟨inside, clear, -⟩ := findFree_spec found
  have type : (fs.deref p).type = .file := (h.type_deref ptr).trans file
  have marked := h.markFor ha ptr file found bit i
  have frame : Frame top fs (Snfs.markFor fs p i b) := frame_markFor ptr file type i b
  have absent : (Snfs.markFor fs p i b).blockCache.Absent b := by
    rw [markFor_blockCache]
    exact h.free_absent clear
  have fileBlock : FileBlock (own.give b a i) (Snfs.markFor fs p i b).inodeTab b :=
    ⟨a, i, Ledger.give_self own b a i, (frame.type a).trans file⟩
  have cached : SameInodes (Snfs.markFor fs p i b)
      (addBlockToCache (Snfs.markFor fs p i b) b .zero true) := ⟨rfl, rfl, rfl⟩
  have copy : (addBlockToCache (Snfs.markFor fs p i b) b .zero true).deref p =
      (fs.deref p).setBlock i b := by
    rw [cached.deref, markFor_deref]
  refine ⟨Ledger.le_give (h.ledger.unowned clear) a i,
    marked.addBlockAt _ fileBlock absent (by simp), frame.trans (marked.frame_addBlockAt _ _ _ _),
    (onlyAt_markFor fs p i b).trans (cached.onlyAt p), ?_, ?_, ?_⟩
  · intro c data lt
    have lt' : c < (Snfs.markFor fs p i b).numBlocks := by rwa [frame.numBlocks]
    by_cases same : c = b
    · subst same
      rw [h.lblk_free lt clear]
      exact marked.lblk_addBlockAt_self _ absent lt' _ _
    · rw [← markFor_lblk fs p i b]
      exact marked.cacheSound.lblk_addBlockAt_other _ _ _ data lt' same
  · rw [copy, Inode.setBlock_size]
  · intro j hj
    rw [copy, Inode.setBlock_blocks, if_neg (by omega)]

theorem Allocated.trans {own own' own'' : Ledger} {p : InodePtr} {i j : Nat} {fs fs' fs'' : Fs}
    (h : Allocated own own' top p i fs fs') (h' : Allocated own' own'' top p j fs' fs'')
    (le : i ≤ j) : Allocated own own'' top p i fs fs'' := by
  refine ⟨h.le.trans h'.le, h'.inv, h.frame.trans h'.frame, h.only.trans h'.only, ?_,
    h'.size.trans h.size, ?_⟩
  · intro b data lt
    rw [h'.lblk b data (h.frame.numBlocks ▸ lt), h.lblk b data lt]
  · intro k hk
    rw [h'.below k (Nat.lt_of_lt_of_le hk le), h.below k hk]

theorem writeAlloc_succ {p : InodePtr} {n i b : Nat}
    (found : fsiBmapFindFree fs.blkBmap fs.numBlocks = some b) :
    writeAlloc p (n + 1) i fs =
      writeAlloc p n (i + 1) (addBlockToCache (markFor fs p i b) b .zero true) := by
  rw [writeAlloc]
  simp only [found]
  cases p <;> rfl

theorem Inv.writeAlloc {p : InodePtr} {a n i : Nat} (h : Inv own top fs) (ha : a < top)
    (ptr : PtrTo fs p a) (file : (fs.inodeTab a).type = .file) (room : Room fs n) :
    ∃ own', Allocated own own' top p i fs (writeAlloc p n i fs).2 ∧
      ((writeAlloc p n i fs).1 = true → ∀ j, i ≤ j → j < i + n →
        bmapIsset fs.blkBmap (((writeAlloc p n i fs).2.deref p).blocks j) = false ∧
          own' (((writeAlloc p n i fs).2.deref p).blocks j) = some (a, j)) ∧
      (∀ b, bmapIsset (writeAlloc p n i fs).2.blkBmap b = true → bmapIsset fs.blkBmap b = true ∨
        ∃ j, i ≤ j ∧ j < i + n ∧ ((writeAlloc p n i fs).2.deref p).blocks j = b) ∧
      ((writeAlloc p n i fs).1 = true ↔ n ≤ freeBits fs.blkBmap fs.numBlocks) := by
  induction n generalizing own i fs with
  | zero =>
      refine ⟨own, h.allocated_refl p i, fun _ j low high => ?_, fun _ set => .inl set, ?_⟩
      · omega
      · simp [Snfs.writeAlloc]
  | succ n ih =>
      cases found : fsiBmapFindFree fs.blkBmap fs.numBlocks with
      | none =>
          have stop : Snfs.writeAlloc p (n + 1) i fs = (false, fs) := by
            simp only [Snfs.writeAlloc, found]
          rw [stop, freeBits_eq_zero (findFree_eq_none.mp found)]
          exact ⟨own, h.allocated_refl p i, by simp, fun _ set => .inl set, by simp⟩
      | some b =>
          have bit := room.found found
          have clear := (findFree_spec found).2.1
          have first := h.allocated_step ha ptr file found bit i
          have bmap : (addBlockToCache (Snfs.markFor fs p i b) b .zero true).blkBmap =
              bmapSet fs.blkBmap b := markFor_blkBmap fs p i b
          obtain ⟨own', rest, fresh, marks, count⟩ := ih (i := i + 1) first.inv
            (first.only.ptrTo ptr) ((first.frame.type a).trans file)
            (room.alloc found first.frame.numBlocks bmap)
          have here : ((Snfs.writeAlloc p n (i + 1)
              (addBlockToCache (Snfs.markFor fs p i b) b .zero true)).2.deref p).blocks i = b := by
            rw [rest.below i (Nat.lt_succ_self i)]
            have copy : (addBlockToCache (Snfs.markFor fs p i b) b .zero true).deref p =
                (Snfs.markFor fs p i b).deref p := SameInodes.deref ⟨rfl, rfl, rfl⟩ p
            rw [copy, markFor_deref, Inode.setBlock_blocks, if_pos rfl]
          rw [writeAlloc_succ found]
          refine ⟨own', first.trans rest (Nat.le_succ i), ?_, ?_, ?_⟩
          · intro done j low high
            by_cases same : j = i
            · subst same
              rw [here]
              exact ⟨clear, rest.le _ _ (Ledger.give_self own b a j)⟩
            · obtain ⟨free, given⟩ := fresh done j (by omega) (by omega)
              refine ⟨?_, given⟩
              rw [bmap, bmapIsset_set bit, Bool.or_eq_false_iff] at free
              exact free.1
          · intro c set
            rcases marks c set with old | ⟨j, low, high, same⟩
            · rw [bmap, bmapIsset_set bit, Bool.or_eq_true, decide_eq_true_iff] at old
              rcases old with old | rfl
              · exact .inl old
              · exact .inr ⟨i, Nat.le_refl i, by omega, here⟩
            · exact .inr ⟨j, by omega, by omega, same⟩
          · rw [count, bmap, first.frame.numBlocks]
            have used := freeBits_set bit (findFree_spec found).1 clear
            omega

/-- A search that fails has used up the device's blocks, if there were any. -/
theorem writeAlloc_full {p : InodePtr} {n i : Nat} {fs' : Fs}
    (stop : writeAlloc p n i fs = (false, fs')) :
    freeBits fs'.blkBmap fs'.numBlocks = 0 ∧ (freeBits fs.blkBmap fs.numBlocks = 0 → fs' = fs) := by
  induction n generalizing i fs with
  | zero => cases stop
  | succ n ih =>
      cases found : fsiBmapFindFree fs.blkBmap fs.numBlocks with
      | none =>
          simp only [writeAlloc, found, Prod.mk.injEq, true_and] at stop
          subst stop
          exact ⟨freeBits_eq_zero (findFree_eq_none.mp found), fun _ => rfl⟩
      | some b =>
          rw [writeAlloc_succ found] at stop
          refine ⟨(ih stop).1, fun none => ?_⟩
          obtain ⟨inside, clear, -⟩ := findFree_spec found
          have member : b ∈ (List.range fs.numBlocks).filter fun b => !bmapIsset fs.blkBmap b := by
            simp [inside, clear]
          exact absurd (List.length_pos_of_mem member) (by rw [← freeBits, none]; exact Nat.lt_irrefl 0)

/-- A search that succeeds has marked `n` clear bits. -/
theorem writeAlloc_free {p : InodePtr} {n i : Nat} {fs' : Fs} (room : Room fs n)
    (done : writeAlloc p n i fs = (true, fs')) :
    freeBits fs'.blkBmap fs'.numBlocks + n = freeBits fs.blkBmap fs.numBlocks := by
  induction n generalizing i fs with
  | zero =>
      cases done
      rfl
  | succ n ih =>
      cases found : fsiBmapFindFree fs.blkBmap fs.numBlocks with
      | none => simp only [writeAlloc, found, Prod.mk.injEq, Bool.false_eq_true, false_and] at done
      | some b =>
          rw [writeAlloc_succ found] at done
          obtain ⟨inside, clear, -⟩ := findFree_spec found
          have bmap : (addBlockToCache (markFor fs p i b) b .zero true).blkBmap =
              bmapSet fs.blkBmap b := markFor_blkBmap fs p i b
          have num : (addBlockToCache (markFor fs p i b) b .zero true).numBlocks = fs.numBlocks := by
            rw [addBlockToCache, numBlocks_addBlockAt, markFor_numBlocks]
          have rest := ih (room.alloc found num bmap) done
          rw [num, bmap] at rest
          have one := freeBits_set (room.found found) inside clear
          omega

/-- What one round of step 4 of `fs_write` does to block `b`. -/
theorem Inv.writeBlock (h : Inv own top fs) {b : Nat} (file : FileBlock own fs.inodeTab b)
    (start : Nat) (chunk : List UInt8) :
    ∃ fs', writeBlock fs b start chunk = some fs' ∧ Inv own top fs' ∧ Frame top fs fs' ∧
      SameInodes fs fs' ∧ fs'.blkBmap = fs.blkBmap ∧
      fs'.lblk b = (fs.lblk b).splice start chunk ∧
      ∀ c, 10 ≤ c → c < fs.numBlocks → c ≠ b → fs'.lblk c = fs.lblk c := by
  obtain ⟨a, i, given, -⟩ := id file
  obtain ⟨data, inside⟩ := h.owned_range given
  cases found : fs.blockCache.find? b with
  | some s =>
      have key : (fs.blockCache s).key = b := Table.key_of_find found
      have h₁ := h.touchBlock s
      have key₁ : ((fs.touchBlock s).blockCache s).key = b :=
        (Table.touch_key fs.blockCache s fs.now s).trans key
      have found₁ : (fs.touchBlock s).blockCache.find? b = some s :=
        (Table.find_congr (Table.touch_key fs.blockCache s fs.now) b).trans found
      have val : ((fs.touchBlock s).blockCache s).val = fs.lblk b := by
        rw [Fs.lblk, Table.view_of_find found]
        exact Table.touch_val fs.blockCache s fs.now s
      have h₂ := h₁.writeSlot s (by omega) ((fs.lblk b).splice start chunk)
      refine ⟨_, ?_, h₂.touchBlock s, ?_, ⟨rfl, rfl, rfl⟩, rfl, ?_, ?_⟩
      · simp only [Snfs.writeBlock, findBlockInCache, found, Option.map_some, val]
      · exact (quiet_touchBlock top fs s).toFrame.trans
          ((frame_writeSlot top _ s _).trans (quiet_touchBlock top _ s).toFrame)
      · rw [lblk_touchBlock]
        exact Table.view_write_self found₁ _ _ _
      · intro c _ _ ne
        rw [lblk_touchBlock, ← lblk_touchBlock fs s c]
        exact Table.view_write_other (fun same => ne (same.symm.trans key₁)) _ _ _
  | none =>
      have absent := Table.absent_of_find found
      have content : fs.lblk b = fs.blocks.content b := Table.view_of_absent absent _
      refine ⟨addBlockToCache fs b ((fs.lblk b).splice start chunk) true, ?_,
        h.addBlockAt _ file absent (by simp), h.frame_addBlockAt _ _ _ _, ⟨rfl, rfl, rfl⟩, rfl,
        h.lblk_addBlockAt_self _ absent inside _ _,
        fun c hc lt ne => h.cacheSound.lblk_addBlockAt_other _ _ _ hc lt ne⟩
      simp only [Snfs.writeBlock, findBlockInCache, found, Option.map_none,
        Blocks.read_of_lt inside, content]

theorem fileByte_splice {look look' : Nat → Block} {c : Inode} {b start q : Nat}
    {chunk : List UInt8} (here : c.blocks (q / 512) = b)
    (spliced : look' b = (look b).splice start chunk) :
    fileByte look' c q = if start ≤ q % 512 ∧ q % 512 < start + chunk.length
      then chunk.getD (q % 512 - start) 0 else fileByte look c q := by
  simp only [fileByte, here, spliced]
  exact Buf.get_splice _ _ _ (Nat.mod_lt q (by decide))

/-- Step 4 of `fs_write` stores the rest at position `512 * iblock + start` of the file; it
changes no other byte of the file and no other block. -/
theorem Inv.writeLoop {p : InodePtr} {a : Nat} {c : Inode} {fuel iblock start : Nat}
    {rest : List UInt8} (h : Inv own top fs) (file : (fs.inodeTab a).type = .file)
    (copy : fs.deref p = c) (inside : start < 512) (enough : rest.length ≤ fuel)
    (given : ∀ j, iblock ≤ j → 512 * j < 512 * iblock + start + rest.length →
      own (c.blocks j) = some (a, j)) :
    ∃ fs', writeLoop p fuel iblock start rest fs = (true, fs') ∧ Inv own top fs' ∧
      Frame top fs fs' ∧ SameInodes fs fs' ∧ fs'.blkBmap = fs.blkBmap ∧
      (∀ b, 10 ≤ b → b < fs.numBlocks →
        (∀ j, iblock ≤ j → 512 * j < 512 * iblock + start + rest.length → b ≠ c.blocks j) →
          fs'.lblk b = fs.lblk b) ∧
      (∀ q, own (c.blocks (q / 512)) = some (a, q / 512) →
        fileByte fs'.lblk c q =
          if 512 * iblock + start ≤ q ∧ q < 512 * iblock + start + rest.length
          then rest.getD (q - (512 * iblock + start)) 0 else fileByte fs.lblk c q) := by
  induction fuel generalizing iblock start rest fs with
  | zero =>
      have empty : rest = [] := List.eq_nil_of_length_eq_zero (by omega)
      subst empty
      refine ⟨fs, rfl, h, .refl top fs, .refl fs, rfl, fun _ _ _ _ => rfl, fun q _ => ?_⟩
      rw [if_neg (by simp only [List.length_nil]; omega)]
  | succ fuel ih =>
      by_cases empty : rest = []
      · subst empty
        refine ⟨fs, rfl, h, .refl top fs, .refl fs, rfl, fun _ _ _ _ => rfl, fun q _ => ?_⟩
        rw [if_neg (by simp only [List.length_nil]; omega)]
      · have pos := List.length_pos_of_ne_nil empty
        obtain ⟨num, hnum⟩ : ∃ num, num = min (512 - start) rest.length := ⟨_, rfl⟩
        have length₀ : (rest.take num).length = num := by
          rw [List.length_take]
          omega
        have length₁ : (rest.drop num).length = rest.length - num := List.length_drop
        have here := given iblock (Nat.le_refl _) (by omega)
        obtain ⟨fs₁, stored, h₁, frame₁, same₁, bmap₁, self₁, other₁⟩ :=
          h.writeBlock ⟨a, iblock, here, file⟩ start (rest.take num)
        have step : Snfs.writeLoop p (fuel + 1) iblock start rest fs =
            Snfs.writeLoop p fuel (iblock + 1) 0 (rest.drop num) fs₁ := by
          rw [Snfs.writeLoop, if_neg empty]
          simp only [copy, blockSize, ← hnum, stored]
        have given₁ (j : Nat) (low : iblock + 1 ≤ j)
            (high : 512 * j < 512 * (iblock + 1) + 0 + (rest.drop num).length) :
            own (c.blocks j) = some (a, j) := given j (by omega) (by omega)
        obtain ⟨fs₂, loop, h₂, frame₂, same₂, bmap₂, other₂, bytes₂⟩ := ih h₁
          (by rw [same₁.inodeTab]; exact file) (by rw [same₁.deref, copy]) (by decide)
          (by omega) given₁
        refine ⟨fs₂, by rw [step, loop], h₂, frame₁.trans frame₂, same₁.trans same₂,
          bmap₂.trans bmap₁, ?_, ?_⟩
        · intro b data lt apart
          rw [other₂ b data (by rwa [frame₁.numBlocks])
            (fun j low high => apart j (by omega) (by omega))]
          exact other₁ b data lt (apart iblock (Nat.le_refl _) (by omega))
        · intro q owned
          rw [bytes₂ q owned]
          by_cases mine : q / 512 = iblock
          · have old : fileByte fs₁.lblk c q = if start ≤ q % 512 ∧ q % 512 < start + num
                then (rest.take num).getD (q % 512 - start) 0 else fileByte fs.lblk c q := by
              rw [fileByte_splice (mine ▸ rfl) self₁, length₀]
            rw [if_neg (by omega), old]
            by_cases written : start ≤ q % 512 ∧ q % 512 < start + num
            · have index : q - (512 * iblock + start) = q % 512 - start := by omega
              rw [if_pos written, if_pos (by omega), index, List.getD_eq_getElem?_getD,
                List.getElem?_take_of_lt (by omega), ← List.getD_eq_getElem?_getD]
            · rw [if_neg written, if_neg (by omega)]
          · have apart : c.blocks (q / 512) ≠ c.blocks iblock := by
              intro same
              rw [same, here] at owned
              simp only [Option.some.injEq, Prod.mk.injEq, true_and] at owned
              exact mine owned.symm
            obtain ⟨data, lt⟩ := h.owned_range owned
            have old : fileByte fs₁.lblk c q = fileByte fs.lblk c q := by
              simp only [fileByte, blockSize, other₁ _ data lt apart]
            rw [old]
            by_cases later : 512 * (iblock + 1) ≤ q ∧ q < 512 * iblock + start + rest.length
            · have index : q - (512 * iblock + start) = num + (q - (512 * (iblock + 1) + 0)) := by
                omega
              rw [if_pos (by omega), if_pos (by omega), index, List.getD_eq_getElem?_getD,
                List.getElem?_drop, ← List.getD_eq_getElem?_getD]
            · rw [if_neg (by omega), if_neg (by omega)]

def writePos (c : Inode) (offset : Nat) : Nat := min offset c.size

def blocksNeeded (c : Inode) (stop : Nat) : Nat := offsetToBlocks stop - c.used

/-- A write of `num` bytes that reaches past the end of the file and finds the blocks for it. -/
structure Extends (fs : Fs) (file offset num : Nat) : Prop where
  isFile : (fs.inodeTab file).type = .file
  grows : (fs.seen file).size < writePos (fs.seen file) offset + num
  fits : writePos (fs.seen file) offset + num ≤ 5120
  free : blocksNeeded (fs.seen file) (writePos (fs.seen file) offset + num) ≤
    freeBits fs.blkBmap fs.numBlocks

instance (fs : Fs) (file offset num : Nat) : Decidable (Extends fs file offset num) :=
  decidable_of_iff ((fs.inodeTab file).type = .file ∧
      (fs.seen file).size < writePos (fs.seen file) offset + num ∧
      writePos (fs.seen file) offset + num ≤ 5120 ∧
      blocksNeeded (fs.seen file) (writePos (fs.seen file) offset + num) ≤
        freeBits fs.blkBmap fs.numBlocks)
    ⟨fun h => ⟨h.1, h.2.1, h.2.2.1, h.2.2.2⟩, fun h => ⟨h.isFile, h.grows, h.fits, h.free⟩⟩

/-- The state after step 4 of `fs_write`: `pos` is where the data went. -/
structure Stored (own own' : Ledger) (top : Nat) (p : InodePtr) (a pos : Nat) (data : List UInt8)
    (fs fs' : Fs) : Prop where
  le : own.Le own'
  inv : Inv own' top fs'
  frame : Frame top fs fs'
  only : OnlyAt p fs fs'
  size : (fs'.deref p).size = (fs.deref p).size
  old : ∀ i, i < (fs.deref p).used → (fs'.deref p).blocks i = (fs.deref p).blocks i
  given : ∀ i, 512 * i < max (fs.deref p).size (pos + data.length) →
    own' ((fs'.deref p).blocks i) = some (a, i)
  fresh : ∀ i, (fs.deref p).used ≤ i → 512 * i < pos + data.length →
    bmapIsset fs.blkBmap ((fs'.deref p).blocks i) = false
  marks : ∀ b, bmapIsset fs'.blkBmap b = true → bmapIsset fs.blkBmap b = true ∨
    ∃ i, (fs.deref p).used ≤ i ∧ 512 * i < pos + data.length ∧ (fs'.deref p).blocks i = b
  free : freeBits fs'.blkBmap fs'.numBlocks + blocksNeeded (fs.deref p) (pos + data.length) =
    freeBits fs.blkBmap fs.numBlocks
  other : ∀ b, 10 ≤ b → b < fs.numBlocks →
    (∀ i, pos / 512 ≤ i → 512 * i < pos + data.length → b ≠ (fs'.deref p).blocks i) →
      fs'.lblk b = fs.lblk b
  bytes : ∀ q, own' ((fs'.deref p).blocks (q / 512)) = some (a, q / 512) →
    fileByte fs'.lblk (fs'.deref p) q = if pos ≤ q ∧ q < pos + data.length
      then data.getD (q - pos) 0 else fileByte fs.lblk (fs'.deref p) q

theorem Allocated.markDirty {own own' : Ledger} {p : InodePtr} {a i : Nat} {fs fs' : Fs}
    (h : Allocated own own' top p i fs fs') (ptr : PtrTo fs p a)
    (file : (fs.inodeTab a).type = .file) : Allocated own own' top p i fs (fs'.markDirty p) :=
  ⟨h.le, h.inv.markDirty (h.only.ptrTo ptr) ((h.frame.type a).trans file),
    h.frame.trans (quiet_markDirty top fs' p).toFrame, h.only.trans (onlyAt_markDirty fs' p),
    fun b data lt => ((quiet_markDirty top fs' p).lblk b data (h.frame.numBlocks ▸ lt)).trans
      (h.lblk b data lt),
    (congrArg Inode.size (deref_markDirty fs' p p)).trans h.size,
    fun j hj => (congrArg (Inode.blocks · j) (deref_markDirty fs' p p)).trans (h.below j hj)⟩

/-- The data loop on an inode that has all the blocks it needs. -/
theorem Allocated.stored {own own' : Ledger} {p : InodePtr} {a pos : Nat} {data : List UInt8}
    {fs fs' : Fs} (h : Allocated own own' top p (fs.deref p).used fs fs')
    (file : (fs.inodeTab a).type = .file)
    (given : ∀ i, 512 * i < max (fs.deref p).size (pos + data.length) →
      own' ((fs'.deref p).blocks i) = some (a, i))
    (fresh : ∀ i, (fs.deref p).used ≤ i → 512 * i < pos + data.length →
      bmapIsset fs.blkBmap ((fs'.deref p).blocks i) = false)
    (marks : ∀ b, bmapIsset fs'.blkBmap b = true → bmapIsset fs.blkBmap b = true ∨
      ∃ i, (fs.deref p).used ≤ i ∧ 512 * i < pos + data.length ∧ (fs'.deref p).blocks i = b)
    (free : freeBits fs'.blkBmap fs'.numBlocks + blocksNeeded (fs.deref p) (pos + data.length) =
      freeBits fs.blkBmap fs.numBlocks) :
    ∃ fs'', writeLoop p data.length (pos / 512) (pos % 512) data fs' = (true, fs'') ∧
      SameInodes fs' fs'' ∧ Stored own own' top p a pos data fs fs'' := by
  have start : 512 * (pos / 512) + pos % 512 = pos := by omega
  have touched (i : Nat) (_ : pos / 512 ≤ i)
      (high : 512 * i < 512 * (pos / 512) + pos % 512 + data.length) :
      own' ((fs'.deref p).blocks i) = some (a, i) := given i (by omega)
  obtain ⟨fs'', loop, inv, frame, same, bmap, other, bytes⟩ := h.inv.writeLoop
    ((h.frame.type a).trans file) rfl (Nat.mod_lt pos (by decide)) (Nat.le_refl data.length) touched
  rw [start] at other bytes
  have copy := same.deref p
  refine ⟨fs'', loop, same, h.le, inv, h.frame.trans frame, h.only.trans (same.onlyAt p), ?_, ?_,
    ?_, ?_, ?_, ?_, ?_, ?_⟩
  · rw [copy]
    exact h.size
  · intro i hi
    rw [copy]
    exact h.below i hi
  · intro i hi
    rw [copy]
    exact given i hi
  · intro i low hi
    rw [copy]
    exact fresh i low hi
  · rw [bmap, copy]
    exact marks
  · rw [bmap, frame.numBlocks]
    exact free
  · intro b data lt apart
    rw [copy] at apart
    rw [other b data (by rwa [h.frame.numBlocks]) apart, h.lblk b data lt]
  · intro q owned
    rw [copy] at owned ⊢
    have base : fileByte fs'.lblk (fs'.deref p) q = fileByte fs.lblk (fs'.deref p) q := by
      obtain ⟨data, lt⟩ := h.inv.owned_range owned
      simp only [fileByte, blockSize, h.lblk _ data (by rwa [← h.frame.numBlocks])]
    rw [bytes q owned, base]

/-- Steps 1 to 3 of `fs_write`, which it does under one lock: the pointer to the inode and the
position, or `none` for the return value -1. -/
def beginWrite (fs : Fs) (file offset count : Nat) : Option (InodePtr × Nat) × Fs :=
  if itabSize ≤ file then (none, fs)
  else
    match openInode fs file with
    | none => (none, fs)
    | some (ifile, fs) =>
      let inode := fs.deref ifile
      if inode.type ≠ .file then (none, fs)
      else
        let offset := min offset inode.size
        let blksUsed := inode.used
        let blksReq := max (offsetToBlocks (u32 (offset + count))) blksUsed - blksUsed
        if inodeNumBlks - blksUsed < blksReq then (none, fs)
        else
          match writeAlloc ifile blksReq blksUsed fs with
          | (false, fs) => (none, fs)
          | (true, fs) => (some (ifile, offset), if 0 < blksReq then fs.markDirty ifile else fs)

theorem fsWrite_eq (fs : Fs) (file offset : Nat) (data : List UInt8) :
    fsWrite fs file offset data =
      match beginWrite fs file offset data.length with
      | (none, fs) => (false, fs)
      | (some (ifile, pos), fs) =>
        match writeLoop ifile data.length (pos / blockSize) (pos % blockSize) data fs with
        | (false, fs) => (false, fs)
        | (true, fs) =>
          let size := u32 (pos + data.length)
          if (fs.deref ifile).size < size then (true, writeSize fs file ifile size)
          else (true, fs) := by
  rw [fsWrite, beginWrite]
  by_cases out : itabSize ≤ file
  · simp only [if_pos out]
  simp only [if_neg out]
  cases openInode fs file with
  | none => rfl
  | some pair =>
      obtain ⟨ifile, fs₁⟩ := pair
      dsimp only
      by_cases notFile : (fs₁.deref ifile).type ≠ .file
      · simp only [if_pos notFile]
      simp only [if_neg notFile]
      split
      · rfl
      · generalize writeAlloc ifile _ _ fs₁ = alloc
        obtain ⟨done, fs₂⟩ := alloc
        cases done <;> rfl

/-- The ways steps 1 to 3 of `fs_write` end: the inode is not in use; the call gives up once the
inode is open; the device is full; the bytes go inside the file; they go past its end, over blocks
that are there by then. -/
inductive WriteBegins (own : Ledger) (top : Nat) (fs : Fs) (file offset count : Nat) :
    Option (InodePtr × Nat) × Fs → Prop where
  | unused (out : top ≤ file) : WriteBegins own top fs file offset count (none, fs)
  | refused {p : InodePtr} {fs₁ : Fs} (opened : openInode fs file = some (p, fs₁))
      (why : (fs.inodeTab file).type = .file → inodeNumBlks - (fs.seen file).used <
        blocksNeeded (fs.seen file) (writePos (fs.seen file) offset + count)) :
      WriteBegins own top fs file offset count (none, fs₁)
  | full {p : InodePtr} {fs₁ fs₂ : Fs} {own' : Ledger} (opened : openInode fs file = some (p, fs₁))
      (isFile : (fs.inodeTab file).type = .file)
      (fits : blocksNeeded (fs.seen file) (writePos (fs.seen file) offset + count) ≤
        inodeNumBlks - (fs.seen file).used)
      (few : freeBits fs.blkBmap fs.numBlocks <
        blocksNeeded (fs.seen file) (writePos (fs.seen file) offset + count))
      (alloc : Allocated own own' top p (fs₁.deref p).used fs₁ fs₂)
      (left : freeBits fs₂.blkBmap fs₂.numBlocks = 0)
      (kept : freeBits fs.blkBmap fs.numBlocks = 0 → fs₂ = fs₁) :
      WriteBegins own top fs file offset count (none, fs₂)
  | inside {p : InodePtr} {fs₁ : Fs} (opened : openInode fs file = some (p, fs₁))
      (isFile : (fs.inodeTab file).type = .file)
      (le : writePos (fs.seen file) offset + count ≤ (fs.seen file).size) :
      WriteBegins own top fs file offset count (some (p, writePos (fs.seen file) offset), fs₁)
  | extended {p : InodePtr} {fs₁ fs₂ : Fs} {own' : Ledger}
      (opened : openInode fs file = some (p, fs₁)) (grows : Extends fs file offset count)
      (alloc : Allocated own own' top p (fs₁.deref p).used fs₁ fs₂)
      (given : ∀ i, 512 * i < writePos (fs.seen file) offset + count →
        own' ((fs₂.deref p).blocks i) = some (file, i))
      (fresh : ∀ i, (fs₁.deref p).used ≤ i → 512 * i < writePos (fs.seen file) offset + count →
        bmapIsset fs₁.blkBmap ((fs₂.deref p).blocks i) = false)
      (marks : ∀ b, bmapIsset fs₂.blkBmap b = true → bmapIsset fs₁.blkBmap b = true ∨
        ∃ i, (fs₁.deref p).used ≤ i ∧ 512 * i < writePos (fs.seen file) offset + count ∧
          (fs₂.deref p).blocks i = b)
      (free : freeBits fs₂.blkBmap fs₂.numBlocks +
          blocksNeeded (fs₁.deref p) (writePos (fs.seen file) offset + count) =
        freeBits fs₁.blkBmap fs₁.numBlocks) :
      WriteBegins own top fs file offset count (some (p, writePos (fs.seen file) offset), fs₂)

theorem Inv.beginWrite (h : Inv own top fs) (file offset : Nat) {count : Nat}
    (short : count ≤ 2 ^ 31)
    (room : Room fs (blocksNeeded (fs.seen file) (writePos (fs.seen file) offset + count))) :
    WriteBegins own top fs file offset count (beginWrite fs file offset count) := by
  have small := h.inodes.le_size
  by_cases out : itabSize ≤ file
  · rw [Snfs.beginWrite, if_pos out]
    exact .unused (by omega)
  cases opened : Snfs.openInode fs file with
  | none =>
      rw [Snfs.beginWrite, if_neg out, opened]
      exact .unused (h.openInode_eq_none.mp opened)
  | some pair =>
      obtain ⟨p, fs₁⟩ := pair
      obtain ⟨lt, h₁, quiet₁, ptr, copy, -⟩ := h.openInode opened
      have type : (fs.seen file).type = (fs.inodeTab file).type := h.type_seen file
      have owned := h.owned_seen lt
      have size := owned.size_le
      obtain ⟨pos, hpos⟩ : ∃ pos, pos = writePos (fs.seen file) offset := ⟨_, rfl⟩
      have posLe : pos ≤ (fs.seen file).size := by
        rw [hpos, writePos]
        exact Nat.min_le_right _ _
      have unwrapped : u32 (pos + count) = pos + count := u32_of_lt (by omega)
      rw [← hpos] at room
      have needed : max (offsetToBlocks (pos + count)) (fs.seen file).used - (fs.seen file).used =
          blocksNeeded (fs.seen file) (pos + count) := by
        rw [blocksNeeded]
        omega
      have start : min offset (fs.seen file).size = pos := by rw [hpos, writePos]
      obtain ⟨result, body⟩ : ∃ result, Snfs.beginWrite fs file offset count = result := ⟨_, rfl⟩
      rw [body]
      rw [Snfs.beginWrite, if_neg out, opened] at body
      simp only [copy, type, start, unwrapped, needed] at body
      by_cases isFile : (fs.inodeTab file).type = .file
      swap
      · rw [if_pos isFile] at body
        subst body
        exact .refused opened fun file => absurd file isFile
      have file₁ : (fs₁.inodeTab file).type = .file := (quiet₁.type file).trans isFile
      rw [if_neg fun ne => ne isFile] at body
      by_cases tooBig : inodeNumBlks - (fs.seen file).used <
          blocksNeeded (fs.seen file) (pos + count)
      · rw [if_pos tooBig] at body
        subst body
        exact .refused opened fun _ => by rwa [← hpos]
      rw [if_neg tooBig] at body
      by_cases grows : (fs.seen file).size < pos + count
      swap
      · have none : blocksNeeded (fs.seen file) (pos + count) = 0 :=
          Nat.sub_eq_zero_of_le (offsetToBlocks_mono (Nat.not_lt.mp grows))
        simp only [none, Snfs.writeAlloc, Nat.lt_irrefl, if_false] at body
        subst body
        rw [hpos]
        exact .inside opened isFile (by rw [← hpos]; exact Nat.not_lt.mp grows)
      have room₁ := room.congr quiet₁.numBlocks quiet₁.blkBmap
      obtain ⟨own', alloc, fresh, marks, count'⟩ := h₁.writeAlloc (i := (fs.seen file).used)
        lt ptr file₁ room₁
      cases allocated : Snfs.writeAlloc p (blocksNeeded (fs.seen file) (pos + count))
          (fs.seen file).used fs₁ with
      | mk done fs₂ =>
          rw [allocated] at alloc fresh marks count' body
          rw [← copy] at alloc
          rw [quiet₁.blkBmap, quiet₁.numBlocks] at count'
          cases done with
          | false =>
              subst body
              obtain ⟨left, none⟩ := writeAlloc_full allocated
              rw [quiet₁.blkBmap, quiet₁.numBlocks] at none
              refine .full opened isFile ?_ ?_ alloc left none
              · rw [← hpos]
                exact Nat.not_lt.mp tooBig
              · rw [← hpos]
                exact Nat.not_le.mp fun enough => Bool.noConfusion (count'.mpr enough)
          | true =>
              have free := count'.mp rfl
              have need : blocksNeeded (fs.seen file) (pos + count) =
                  offsetToBlocks (pos + count) - (fs.seen file).used := rfl
              have fits : offsetToBlocks (pos + count) ≤ 10 := by
                have := owned.used_le
                simp only [inodeNumBlks] at this tooBig
                omega
              obtain ⟨fs₂', hfs₂'⟩ : ∃ fs₂', fs₂' =
                if 0 < blocksNeeded (fs.seen file) (pos + count) then fs₂.markDirty p else fs₂ :=
                  ⟨_, rfl⟩
              have marked : Allocated own own' top p (fs₁.deref p).used fs₁ fs₂' ∧
                  fs₂'.deref p = fs₂.deref p ∧ fs₂'.blkBmap = fs₂.blkBmap := by
                rw [hfs₂']
                split
                · exact ⟨alloc.markDirty ptr file₁, deref_markDirty fs₂ p p,
                    (quiet_markDirty top fs₂ p).blkBmap⟩
                · exact ⟨alloc, rfl, rfl⟩
              obtain ⟨marked, same, bmap⟩ := marked
              simp only [← hfs₂'] at body
              subst body
              rw [hpos] at grows fits free ⊢
              refine .extended opened ⟨isFile, grows, offsetToBlocks_le.mp fits, free⟩ marked
                ?_ ?_ ?_ ?_
              · intro i hi
                rw [← hpos] at hi
                rw [same]
                by_cases old : i < (fs.seen file).used
                · rw [alloc.below i (by rwa [copy]), copy]
                  exact alloc.le _ _ (owned.owned_used old)
                · have inside : i < offsetToBlocks (pos + count) := lt_offsetToBlocks.mpr hi
                  exact (fresh rfl i (by omega) (by omega)).2
              · intro i low hi
                rw [copy] at low
                rw [← hpos] at hi
                rw [same]
                have inside : i < offsetToBlocks (pos + count) := lt_offsetToBlocks.mpr hi
                exact (fresh rfl i low (by omega)).1
              · intro b set
                rw [bmap] at set
                rw [same, copy, ← hpos]
                rcases marks b set with old | ⟨i, low, high, at_i⟩
                · exact .inl old
                · exact .inr ⟨i, low, lt_offsetToBlocks.mp (by omega), at_i⟩
              · have count := writeAlloc_free room₁ allocated
                rw [alloc.frame.numBlocks] at count
                rw [bmap, marked.frame.numBlocks, copy, ← hpos]
                exact count

/-- The ways `fs_write` ends: the inode is not in use; the call gives up once the inode is open;
the device is full; the bytes are stored inside the file; they are stored past its end. -/
inductive WriteEnds (own : Ledger) (top : Nat) (fs : Fs) (file offset : Nat) (data : List UInt8) :
    Bool × Fs → Prop where
  | unused (out : top ≤ file) : WriteEnds own top fs file offset data (false, fs)
  | refused {p : InodePtr} {fs₁ : Fs} (opened : openInode fs file = some (p, fs₁))
      (why : (fs.inodeTab file).type = .file → inodeNumBlks - (fs.seen file).used <
        blocksNeeded (fs.seen file) (writePos (fs.seen file) offset + data.length)) :
      WriteEnds own top fs file offset data (false, fs₁)
  | full {p : InodePtr} {fs₁ fs₂ : Fs} {own' : Ledger} (opened : openInode fs file = some (p, fs₁))
      (isFile : (fs.inodeTab file).type = .file)
      (fits : blocksNeeded (fs.seen file) (writePos (fs.seen file) offset + data.length) ≤
        inodeNumBlks - (fs.seen file).used)
      (few : freeBits fs.blkBmap fs.numBlocks <
        blocksNeeded (fs.seen file) (writePos (fs.seen file) offset + data.length))
      (alloc : Allocated own own' top p (fs₁.deref p).used fs₁ fs₂)
      (left : freeBits fs₂.blkBmap fs₂.numBlocks = 0)
      (none : freeBits fs.blkBmap fs.numBlocks = 0 → fs₂ = fs₁) :
      WriteEnds own top fs file offset data (false, fs₂)
  | inside {p : InodePtr} {fs₁ fs₂ : Fs} (opened : openInode fs file = some (p, fs₁))
      (isFile : (fs.inodeTab file).type = .file)
      (le : writePos (fs.seen file) offset + data.length ≤ (fs.seen file).size)
      (stored : Stored own own top p file (writePos (fs.seen file) offset) data fs₁ fs₂)
      (same : SameInodes fs₁ fs₂) : WriteEnds own top fs file offset data (true, fs₂)
  | extended {p : InodePtr} {fs₁ fs₂ : Fs} {own' : Ledger}
      (opened : openInode fs file = some (p, fs₁))
      (grows : Extends fs file offset data.length)
      (stored : Stored own own' top p file (writePos (fs.seen file) offset) data fs₁ fs₂) :
      WriteEnds own top fs file offset data
        (true, writeSize fs₂ file p (writePos (fs.seen file) offset + data.length))

theorem Inv.fsWrite_ends (h : Inv own top fs) (file offset : Nat) {data : List UInt8}
    (short : data.length ≤ 1024)
    (room : Room fs (blocksNeeded (fs.seen file) (writePos (fs.seen file) offset + data.length))) :
    WriteEnds own top fs file offset data (fsWrite fs file offset data) := by
  have begins := h.beginWrite file offset (by omega) room
  rw [fsWrite_eq]
  generalize Snfs.beginWrite fs file offset data.length = r at begins
  have unwrapped (lt : file < top) : u32 (writePos (fs.seen file) offset + data.length) =
      writePos (fs.seen file) offset + data.length := by
    have size := (h.owned_seen lt).size_le
    have pos : writePos (fs.seen file) offset ≤ (fs.seen file).size := Nat.min_le_right _ _
    exact u32_of_lt (by omega)
  cases begins with
  | unused out => exact .unused out
  | refused opened why => exact .refused opened why
  | full opened isFile fits few alloc left none => exact .full opened isFile fits few alloc left none
  | @inside p fs₁ opened isFile le =>
      obtain ⟨lt, h₁, quiet₁, ptr, copy, -⟩ := h.openInode opened
      have owned := h.owned_seen lt
      have given (i : Nat) (hi : 512 * i < max (fs₁.deref p).size
          (writePos (fs.seen file) offset + data.length)) :
          own ((fs₁.deref p).blocks i) = some (file, i) := by
        rw [copy] at hi ⊢
        exact owned.owned_used (Inode.lt_used.mpr (by omega))
      have new (i : Nat) (low : (fs₁.deref p).used ≤ i)
          (hi : 512 * i < writePos (fs.seen file) offset + data.length) :
          bmapIsset fs₁.blkBmap ((fs₁.deref p).blocks i) = false := by
        rw [copy] at low
        exact absurd (Inode.lt_used.mpr (show 512 * i < (fs.seen file).size by omega))
          (Nat.not_lt.mpr low)
      have none : blocksNeeded (fs.seen file) (writePos (fs.seen file) offset + data.length) = 0 :=
        Nat.sub_eq_zero_of_le (offsetToBlocks_mono le)
      obtain ⟨fs₂, loop, same, stored⟩ := (h₁.allocated_refl p (fs₁.deref p).used).stored
        ((quiet₁.type file).trans isFile) given new (fun _ set => .inl set)
        (by rw [copy, none, Nat.add_zero])
      dsimp only
      rw [loop, unwrapped lt]
      dsimp only
      rw [if_neg (by rw [stored.size, copy]; exact Nat.not_lt.mpr le)]
      exact .inside opened isFile le stored same
  | @extended p fs₁ fs₂ own' opened grows alloc given fresh marks free =>
      obtain ⟨lt, h₁, quiet₁, ptr, copy, -⟩ := h.openInode opened
      have past := grows.grows
      obtain ⟨fs₃, loop, -, stored⟩ := alloc.stored ((quiet₁.type file).trans grows.isFile)
        (fun i hi => given i (by rw [copy] at hi; omega)) fresh marks free
      dsimp only
      rw [loop, unwrapped lt]
      dsimp only
      rw [if_pos (by rw [stored.size, copy]; exact past)]
      exact .extended opened grows stored

/-- Step 5 of `fs_write`, whichever copy the pointer leads to. -/
theorem Inv.writeSize (h : Inv own top fs) {p : InodePtr} {a size : Nat} (ha : a < top)
    (ptr : PtrTo fs p a) (file : (fs.inodeTab a).type = .file) (le : size ≤ 5120)
    (given : ∀ i, 512 * i < size → own ((fs.deref p).blocks i) = some (a, i)) :
    Inv own top (writeSize fs a p size) ∧ Quiet top fs (writeSize fs a p size) := by
  have type : (fs.deref p).type = .file := (h.type_deref ptr).trans file
  have owned : OwnedInode own a { fs.deref p with size := size } := by
    refine (h.owned_deref ha ptr).withSize le fun i hi => ?_
    have data := (h.owned_range (given i (lt_offsetToBlocks.mp hi))).1
    omega
  have h₁ := h.assign ha ptr file owned type
  have quiet₁ : Quiet top fs (fs.assign p { fs.deref p with size := size }) :=
    frame_assign ptr file type
  have ptr₁ := ptrTo_assign (p := p) ptr { fs.deref p with size := size }
  have file₁ := (quiet₁.type a).trans file
  have h₂ := h₁.markDirty ptr₁ file₁
  have quiet₂ := quiet₁.trans (quiet_markDirty top _ p)
  cases p with
  | cached s => exact ⟨h₂, quiet₂⟩
  | table b => exact ⟨h₂.addInodeAt _ ha fun _ => file₁, quiet₂.trans (h₂.frame_addInodeAt _ a true)⟩

end Snfs
