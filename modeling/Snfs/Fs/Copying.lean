import Snfs.Fs.Writing

/-!
`fs_copy` after it has created the target: the two inodes it pins in the cache,
the blocks it copies and the inode it leaves in the table. The pointer to the
source may lead into a slot that the insertion of the target has taken over; it
then leads to the target's cached copy, which is still empty.
-/

namespace Snfs

open Slots

variable {own : Ledger} {top : Nat} {fs : Fs}

/-- What searching and opening keep, the first steps of `fs_copy` keep. -/
theorem copyPaths_keeps {P : Fs → Prop}
    (search : ∀ s dir name, P s → IsDir s dir → name ≠ [] → P (fsiDirSearch s dir name).2)
    (opens : ∀ s a p s', P s → openInode s a = some (p, s') → P s') {srcJunk dirJunk : Nat}
    {srcpath tgtpath : CString} {paths : Option (Nat × Nat × CString)} {fs' : Fs} (h : P fs)
    (result : copyPaths fs srcJunk dirJunk srcpath tgtpath = some (paths, fs')) : P fs' := by
  rw [copyPaths] at result
  have h₁ := fsLookup_keeps search srcpath h
  simp only at result
  split at result
  · cases result
    exact h₁
  split at result
  · cases result
  · rename_i fs₂ got
    cases result
    exact fsGetAttrs_keeps opens h₁ got
  · rename_i attrs fs₂ got
    have h₂ := fsGetAttrs_keeps opens h₁ got
    split at result
    · cases result
      exact h₂
    split at result
    · cases result
      exact h₂
    rename_i target name _
    have h₃ := fsLookup_keeps search target h₂
    split at result
    · cases result
      exact h₃
    · cases result
      exact h₃

theorem Inv.pinInode (h : Inv own top fs) {a : Nat} (ha : a < top) {d : Bool}
    (file : d = true → (fs.inodeTab a).type = .file) :
    Inv own top (pinInode fs a d).2 ∧ Quiet top fs (pinInode fs a d).2 ∧
      PtrTo (pinInode fs a d).2 (pinInode fs a d).1 a ∧
      (pinInode fs a d).2.dirCache = fs.dirCache := by
  rw [Snfs.pinInode]
  cases found : findInodeInCache fs a with
  | some s =>
      exact ⟨h.touchInode s, quiet_touchInode top fs s,
        (Table.touch_key fs.inodeCache s fs.now s).trans (Table.key_of_find found), rfl⟩
  | none => exact ⟨h.addInodeAt _ ha file, h.frame_addInodeAt _ a d, rfl, rfl⟩

structure Copied (own own' : Ledger) (top : Nat) (q : InodePtr) (fs fs' : Fs) : Prop where
  le : own.Le own'
  inv : Inv own' top fs'
  frame : Frame top fs fs'
  only : OnlyAt q fs fs'
  bmap_mono : ∀ b, bmapIsset fs.blkBmap b = true → bmapIsset fs'.blkBmap b = true
  lblk : ∀ b, 10 ≤ b → b < fs.numBlocks → fs'.lblk b = fs.lblk b ∨
    (bmapIsset fs.blkBmap b = false ∧ bmapIsset fs'.blkBmap b = true)

theorem Inv.copied_refl (h : Inv own top fs) (q : InodePtr) : Copied own own top q fs fs :=
  ⟨.refl own, h, .refl top fs, (SameInodes.refl fs).onlyAt q, fun _ set => set,
    fun _ _ _ => .inl rfl⟩

/-- What holds of an operation on blocks that were in use holds of two in a row. -/
theorem Copied.trans {own own' own'' : Ledger} {q : InodePtr} {fs fs' fs'' : Fs}
    (h : Copied own own' top q fs fs') (h' : Copied own' own'' top q fs' fs'') :
    Copied own own'' top q fs fs'' := by
  refine ⟨h.le.trans h'.le, h'.inv, h.frame.trans h'.frame, h.only.trans h'.only,
    fun b set => h'.bmap_mono b (h.bmap_mono b set), fun b data lt => ?_⟩
  · rcases h'.lblk b data (h.frame.numBlocks ▸ lt) with same | ⟨clear, set⟩
    · rcases h.lblk b data lt with same' | ⟨clear, set⟩
      · exact .inl (same.trans same')
      · exact .inr ⟨clear, h'.bmap_mono b set⟩
    · refine .inr ⟨?_, set⟩
      cases old : bmapIsset fs.blkBmap b with
      | false => rfl
      | true =>
          have set' := h.bmap_mono b old
          rw [clear] at set'
          cases set'

/-- One block more: marked, put at its index, read from the source and cached dirty. -/
theorem Inv.copied_step (h : Inv own top fs) {q : InodePtr} {a : Nat} (ha : a < top)
    (ptr : PtrTo fs q a) (file : (fs.inodeTab a).type = .file) {b srcBlock : Nat}
    (found : fsiBmapFindFree fs.blkBmap fs.numBlocks = some b) (bit : b < bmapBits) (i : Nat)
    (source : FileBlock own fs.inodeTab srcBlock) :
    ∃ data fs₁, Snfs.fetchBlock (Snfs.markFor fs q i b) srcBlock = some (data, fs₁) ∧
      Copied own (own.give b a i) top q fs (addBlockToCache fs₁ b data true) ∧
      (addBlockToCache fs₁ b data true).deref q = (fs.deref q).setBlock i b ∧
      (addBlockToCache fs₁ b data true).blkBmap = bmapSet fs.blkBmap b := by
  obtain ⟨inside, clear, -⟩ := findFree_spec found
  have type : (fs.deref q).type = .file := (h.type_deref ptr).trans file
  have marked := h.markFor ha ptr file found bit i
  have frame : Frame top fs (Snfs.markFor fs q i b) := frame_markFor ptr file type i b
  have le := Ledger.le_give (h.ledger.unowned clear) a i
  have apart : b ≠ srcBlock := by
    rintro rfl
    exact h.ledger.not_file_of_clear clear source
  obtain ⟨fs₁, fetched, h₁, quiet₁, same₁, others⟩ := marked.fetchBlock
    (source.mono le fun e isFile => (frame.type e).trans isFile)
  have lt₁ : b < fs₁.numBlocks := by rwa [quiet₁.numBlocks, frame.numBlocks]
  have given : own.give b a i b = some (a, i) := Ledger.give_self own b a i
  have absent : fs₁.blockCache.Absent b := by
    refine others b apart ?_
    rw [markFor_blockCache]
    exact h.free_absent clear
  have fileBlock : FileBlock (own.give b a i) fs₁.inodeTab b :=
    ⟨a, i, given, (quiet₁.type a).trans ((frame.type a).trans file)⟩
  have last : SameInodes fs₁ (addBlockToCache fs₁ b (Fs.lblk (Snfs.markFor fs q i b) srcBlock) true) :=
    ⟨rfl, rfl, rfl⟩
  have copy : (addBlockToCache fs₁ b (Fs.lblk (Snfs.markFor fs q i b) srcBlock) true).deref q =
      (fs.deref q).setBlock i b := by
    rw [last.deref, same₁.deref, markFor_deref]
  have bmap : (addBlockToCache fs₁ b (Fs.lblk (Snfs.markFor fs q i b) srcBlock) true).blkBmap =
      bmapSet fs.blkBmap b := by
    rw [← markFor_blkBmap fs q i b, ← quiet₁.blkBmap]
    rfl
  refine ⟨_, fs₁, fetched, ⟨le, h₁.addBlockAt _ fileBlock absent (by simp),
    frame.trans (quiet₁.toFrame.trans (h₁.frame_addBlockAt _ _ _ _)),
    (onlyAt_markFor fs q i b).trans ((same₁.trans last).onlyAt q), ?_, ?_⟩, copy, bmap⟩
  · intro c set
    rw [bmap]
    exact bmapIsset_set_mono _ set
  · intro c data lt
    by_cases same : c = b
    · subst same
      refine .inr ⟨clear, ?_⟩
      rw [bmap, bmapIsset_set bit]
      simp
    · refine .inl ?_
      have lt' : c < (Snfs.markFor fs q i b).numBlocks := by rwa [frame.numBlocks]
      rw [← markFor_lblk fs q i b, ← quiet₁.lblk c data lt']
      exact h₁.cacheSound.lblk_addBlockAt_other _ _ _ data (by rwa [quiet₁.numBlocks]) same

theorem Inv.copyBlocks {p q : InodePtr} {a n i : Nat} {c : Inode} (h : Inv own top fs)
    (ha : a < top) (ptr : PtrTo fs q a) (file : (fs.inodeTab a).type = .file) (ne : q ≠ p)
    (copy : fs.deref p = c)
    (source : ∀ j, i ≤ j → j < i + n → FileBlock own fs.inodeTab (c.blocks j)) (room : Room fs n) :
    ∃ own', Copied own own' top q fs (copyBlocks p q n i fs).2 ∧
      (∀ j, j < i → ((copyBlocks p q n i fs).2.deref q).blocks j = (fs.deref q).blocks j) ∧
      ((copyBlocks p q n i fs).1 = true → ∀ j, i ≤ j → j < i + n →
        own' (((copyBlocks p q n i fs).2.deref q).blocks j) = some (a, j)) ∧
      ((copyBlocks p q n i fs).1 = true ↔ n ≤ freeBits fs.blkBmap fs.numBlocks) := by
  induction n generalizing own i fs with
  | zero =>
      exact ⟨own, h.copied_refl q, fun _ _ => rfl, fun _ j low high => by omega,
        iff_of_true rfl (Nat.zero_le _)⟩
  | succ n ih =>
      cases found : fsiBmapFindFree fs.blkBmap fs.numBlocks with
      | none =>
          have stop : Snfs.copyBlocks p q (n + 1) i fs = (false, fs) := by
            simp only [Snfs.copyBlocks, found]
          have none := freeBits_eq_zero (findFree_eq_none.mp found)
          rw [stop]
          exact ⟨own, h.copied_refl q, fun _ _ => rfl, by simp, by simp [none]⟩
      | some b =>
          obtain ⟨data, fs₁, fetched, first, here, bmap⟩ := h.copied_step ha ptr file found
            (room.found found) i (source i (Nat.le_refl i) (by omega))
          have step : Snfs.copyBlocks p q (n + 1) i fs =
              Snfs.copyBlocks p q n (i + 1) (addBlockToCache fs₁ b data true) := by
            have marked : Fs.assign { fs with blkBmap := bmapSet fs.blkBmap b } q
                ((Fs.deref { fs with blkBmap := bmapSet fs.blkBmap b } q).setBlock i b) =
                Snfs.markFor fs q i b := by
              cases q <;> rfl
            rw [Snfs.copyBlocks]
            simp only [found, marked, copy, fetched]
          have file₁ := (first.frame.type a).trans file
          have source₁ (j : Nat) (low : i + 1 ≤ j) (high : j < i + 1 + n) :
              FileBlock (own.give b a i) (addBlockToCache fs₁ b data true).inodeTab (c.blocks j) :=
            (source j (by omega) (by omega)).mono first.le fun e isFile =>
              (first.frame.type e).trans isFile
          obtain ⟨own', rest, below, given, enough⟩ := ih first.inv (first.only.ptrTo ptr) file₁
            ((first.only.deref ne).trans copy) source₁
            (room.alloc found first.frame.numBlocks bmap)
          obtain ⟨inside, clear, -⟩ := findFree_spec found
          have one := freeBits_set (room.found found) inside clear
          rw [bmap, first.frame.numBlocks] at enough
          rw [step]
          refine ⟨own', first.trans rest, fun j hj => ?_, fun done j low high => ?_,
            enough.trans (by omega)⟩
          · rw [below j (by omega), here, Inode.setBlock_blocks, if_neg (by omega)]
          by_cases same : j = i
          · subst same
            rw [below j (Nat.lt_succ_self j), here, Inode.setBlock_blocks, if_pos rfl]
            exact rest.le _ _ (Ledger.give_self own b a j)
          · exact given done j (by omega) (by omega)

/-- An insertion into the inode cache may redirect a pointer to the inode inserted. -/
theorem ptrTo_addInodeAt {p : InodePtr} {a : Nat} (ptr : PtrTo fs p a) (v : Fin inodeCacheSize)
    (b : Nat) (d : Bool) :
    PtrTo (addInodeAt fs v b d) p a ∨ PtrTo (addInodeAt fs v b d) p b := by
  cases p with
  | cached s =>
      by_cases same : s = v
      · subst same
        exact .inr (congrArg Slot.key (Table.place_self _ s b _ d _))
      · exact .inl ((congrArg Slot.key (Table.place_of_ne _ same b _ d _)).trans ptr)
  | table e => exact .inl ptr

theorem pinInode_absent {a src : Nat} (absent : fs.inodeCache.Absent a) (ne : a ≠ src) (d : Bool) :
    (pinInode fs src d).2.inodeCache.Absent a ∧
      (pinInode fs src d).2.inodeTab a = fs.inodeTab a := by
  rw [pinInode]
  split
  · rename_i s _
    refine ⟨fun t key => absent t ?_, rfl⟩
    rwa [← Table.touch_key fs.inodeCache s fs.now t]
  · exact ⟨absent.place ne _ _ _ _, Table.evict_of_ne _ (absent _)⟩

theorem pinInode_target {src new : Nat} (absent : fs.inodeCache.Absent new) (ne : src ≠ new) :
    pinInode (pinInode fs src false).2 new true =
      (.table new, addInodeToCache (pinInode fs src false).2 new true) := by
  rw [pinInode, findInodeInCache, Table.find_of_absent (pinInode_absent absent ne.symm false).1]

/-- Steps 5 to 8 of `fs_copy`, for a target that no cache slot names yet. -/
theorem Inv.copyInode (h : Inv own top fs) {src new : Nat} (hsrc : src < top) (hnew : new < top)
    (isFile : (fs.inodeTab src).type = .file) (isNew : (fs.inodeTab new).type = .file)
    (ne : src ≠ new) (absent : fs.inodeCache.Absent new) (room : Room fs 10) :
    ∃ own' fs₂, fs₂ = addInodeToCache (Snfs.pinInode fs src false).2 new true ∧
      Inv own top fs₂ ∧ Quiet top fs fs₂ ∧ fs₂.dirCache = fs.dirCache ∧
      Copied own own' top (.table new) fs₂ (copyInode fs src new).2 ∧
      ((copyInode fs src new).1 = true ↔
        (fs₂.deref (Snfs.pinInode fs src false).1).used ≤ freeBits fs₂.blkBmap fs₂.numBlocks) := by
  obtain ⟨h₁, quiet₁, ptr₁, dirs₁⟩ := h.pinInode hsrc (d := false) (by simp)
  have isNew₁ := (quiet₁.type new).trans isNew
  have pinned := pinInode_target absent ne
  obtain ⟨p, hp⟩ : ∃ p, p = (Snfs.pinInode fs src false).1 := ⟨_, rfl⟩
  obtain ⟨fs₂, hfs₂⟩ : ∃ fs₂, fs₂ = addInodeToCache (Snfs.pinInode fs src false).2 new true :=
    ⟨_, rfl⟩
  have h₂ : Inv own top fs₂ := hfs₂ ▸ h₁.addInodeAt _ hnew fun _ => isNew₁
  have quiet₂ : Quiet top fs fs₂ := hfs₂ ▸ quiet₁.trans (h₁.frame_addInodeAt _ new true)
  have apart : InodePtr.table new ≠ p := by
    rintro rfl
    rw [← hp] at ptr₁
    exact ne ptr₁.symm
  -- the source pointer leads to one of the two files
  obtain ⟨a, ha, isFileA, ptr₂⟩ :
      ∃ a, a < top ∧ (fs₂.inodeTab a).type = .file ∧ PtrTo fs₂ p a := by
    have isFile₂ (e : Nat) (file : (fs.inodeTab e).type = .file) :
        (fs₂.inodeTab e).type = .file := (quiet₂.type e).trans file
    rw [← hp] at ptr₁
    rcases ptrTo_addInodeAt ptr₁ _ new true with ptr | ptr
    · exact ⟨src, hsrc, isFile₂ src isFile, hfs₂ ▸ ptr⟩
    · exact ⟨new, hnew, isFile₂ new isNew, hfs₂ ▸ ptr⟩
  have owned := h₂.owned_deref ha ptr₂
  have source (j : Nat) (_ : 0 ≤ j) (high : j < 0 + (fs₂.deref p).used) :
      FileBlock own fs₂.inodeTab ((fs₂.deref p).blocks j) :=
    ⟨a, j, owned.owned_used (by omega), isFileA⟩
  have isNew₂ : (fs₂.inodeTab new).type = .file := (quiet₂.type new).trans isNew
  have ptrNew : PtrTo fs₂ (.table new) new := rfl
  obtain ⟨own', copied, -, given, enough⟩ := h₂.copyBlocks hnew ptrNew isNew₂ apart rfl source
    ((room.congr quiet₂.numBlocks quiet₂.blkBmap).mono owned.used_le)
  refine ⟨own', fs₂, hfs₂, h₂, quiet₂, ?_, ?_⟩
  · rw [hfs₂]
    exact dirs₁
  · rw [Snfs.copyInode]
    simp only [← hp, pinned, ← hfs₂]
    cases result : Snfs.copyBlocks p (.table new) (fs₂.deref p).used 0 fs₂ with
    | mk done fs₃ =>
        rw [result] at copied given enough
        cases done with
        | false => exact ⟨copied, enough⟩
        | true =>
            have src₃ : fs₃.deref p = fs₂.deref p := copied.only.deref apart
            have isNew₃ : (fs₃.inodeTab new).type = .file := (copied.frame.type new).trans isNew₂
            have ownedNew : OwnedInode own' new { fs₃.inodeTab new with
                size := (fs₂.deref p).size, type := .file } := by
              refine ⟨owned.size_le, fun i hi => ?_, (copied.inv.inodes.table new hnew).owned⟩
              have data := (copied.inv.owned_range (given rfl i (Nat.zero_le i)
                (Nat.lt_of_lt_of_eq hi (Nat.zero_add _).symm))).1
              exact Nat.ne_of_gt (Nat.lt_of_lt_of_le (by decide) data)
            have quiet₄ : Quiet top fs₃ (fs₃.assign (.table new)
                { fs₃.inodeTab new with size := (fs₂.deref p).size, type := .file }) :=
              frame_assign (p := .table new) rfl isNew₃ rfl
            have last := onlyAt_assign fs₃ (.table new)
              { fs₃.inodeTab new with size := (fs₂.deref p).size, type := .file }
            simp only [src₃]
            have ptr₃ : PtrTo fs₃ (.table new) new := rfl
            refine ⟨copied.trans ⟨.refl own', copied.inv.assign hnew ptr₃ isNew₃ ownedNew rfl,
              quiet₄.toFrame, last, fun _ set => set, fun b data lt => .inl (quiet₄.lblk b data lt)⟩,
              iff_of_true trivial (enough.mp rfl)⟩

/-- The slot of the source is the one that the inode of the target takes over. -/
def SlotTaken (fs : Fs) (src : Nat) : Prop :=
  ∃ s, findInodeInCache fs src = some s ∧
    oldest (fun i => ((fs.touchInode s).inodeCache i).lastAccess) = s

/-- What the source pointer leads to once the target's inode is cached. -/
theorem deref_pinned_eq {src new : Nat} (absent : fs.inodeCache.Absent new) (ne : src ≠ new) :
    (SlotTaken fs src ∧ (addInodeToCache (pinInode fs src false).2 new true).deref
      (pinInode fs src false).1 = fs.inodeTab new) ∨
    (¬ SlotTaken fs src ∧ (addInodeToCache (pinInode fs src false).2 new true).deref
      (pinInode fs src false).1 = fs.seen src) := by
  have absent₁ := (pinInode_absent absent ne.symm false).1
  cases found : findInodeInCache fs src with
  | some s =>
      have taken : SlotTaken fs src ↔
          oldest (fun i => ((fs.touchInode s).inodeCache i).lastAccess) = s := by
        rw [SlotTaken]
        simp [found]
      have pinned : pinInode fs src false = (.cached s, fs.touchInode s) := by
        rw [pinInode, found]
      rw [pinned] at absent₁ ⊢
      rw [taken]
      by_cases here : oldest (fun i => ((fs.touchInode s).inodeCache i).lastAccess) = s
      · refine .inl ⟨here, ?_⟩
        have value := addInodeAt_self (fs.touchInode s) s new true
        rw [addInodeToCache, here, Fs.deref, value]
        exact Table.evict_of_ne _ (absent₁ s)
      · refine .inr ⟨here, ?_⟩
        have value := addInodeAt_other (fs.touchInode s) (Ne.symm here) new true
        rw [addInodeToCache, Fs.deref, value, Fs.seen, Table.view_of_find found]
        exact Table.touch_val _ _ _ _
  | none =>
      refine .inr ⟨by simp [SlotTaken, found], ?_⟩
      have gone := Table.absent_of_find found
      have pinned : pinInode fs src false = (.table src, addInodeToCache fs src false) := by
        rw [pinInode, found]
      have copy : (pinInode fs src false).2.inodeTab src = fs.inodeTab src := by
        rw [pinned]
        exact Table.evict_of_ne _ (gone _)
      have entry : (pinInode fs src false).1 = .table src := by rw [pinned]
      rw [entry, Fs.seen, Table.view_of_absent gone, ← copy]
      -- the slot that is evicted holds another inode or the clean copy of the source
      have evicted (v : Fin inodeCacheSize) :
          ((pinInode fs src false).2.inodeCache v).key ≠ src ∨
            ((pinInode fs src false).2.inodeCache v).dirty = false := by
        rw [pinned]
        by_cases here : v = oldest fun i => (fs.inodeCache i).lastAccess
        · refine .inr ?_
          rw [here]
          exact congrArg Slot.dirty (addInodeAt_self fs _ src false)
        · refine .inl fun key => gone v ?_
          rwa [← addInodeAt_other fs here src false]
      rcases evicted (oldest fun i => ((pinInode fs src false).2.inodeCache i).lastAccess) with
        other | clean
      · exact Table.evict_of_ne _ other
      · exact congrFun (Table.evict_of_clean _ clean) src

theorem deref_pinned {src new : Nat} (absent : fs.inodeCache.Absent new) (ne : src ≠ new) :
    (addInodeToCache (pinInode fs src false).2 new true).deref (pinInode fs src false).1 =
        fs.seen src ∨
      (addInodeToCache (pinInode fs src false).2 new true).deref (pinInode fs src false).1 =
        fs.inodeTab new :=
  (deref_pinned_eq absent ne).symm.imp And.right And.right

theorem copyInode_empty {src new : Nat} (absent : fs.inodeCache.Absent new) (ne : src ≠ new)
    (init : (fs.inodeTab new).size = 0) (empty : (fs.seen src).size = 0) :
    (copyInode fs src new).1 = true ∧ (copyInode fs src new).2.blkBmap = fs.blkBmap := by
  have size : ((addInodeToCache (pinInode fs src false).2 new true).deref
      (pinInode fs src false).1).size = 0 := by
    rcases deref_pinned absent ne with same | same
    · rw [same, empty]
    · rw [same, init]
  have pinned : (pinInode fs src false).2.blkBmap = fs.blkBmap := by
    rw [pinInode]
    split <;> rfl
  rw [copyInode]
  simp only [pinInode_target absent ne, Inode.used, size, show offsetToBlocks 0 = 0 from rfl,
    copyBlocks]
  exact ⟨trivial, pinned⟩

end Snfs
