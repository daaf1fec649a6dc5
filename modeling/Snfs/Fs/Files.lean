import Snfs.Fs.Steps

/-!
The operations on the inodes and the data of files: what opening an inode,
reading and writing give, and what they preserve. A file's content is read off a
copy of its inode and the blocks as the block cache shows them.
-/

namespace Snfs

open Slots

def fileByte (look : Nat → Block) (c : Inode) (k : Nat) : UInt8 :=
  (look (c.blocks (k / blockSize))).get (k % blockSize)

def bytesAt (look : Nat → Block) (c : Inode) (start num : Nat) : List UInt8 :=
  (List.range num).map fun k => fileByte look c (start + k)

@[simp] theorem length_bytesAt (look : Nat → Block) (c : Inode) (start num : Nat) :
    (bytesAt look c start num).length = num := by
  simp [bytesAt]

theorem bytesAt_append (look : Nat → Block) (c : Inode) (start n m : Nat) :
    bytesAt look c start n ++ bytesAt look c (start + n) m = bytesAt look c start (n + m) := by
  simp [bytesAt, List.range_add, Nat.add_assoc]

/-- A run of bytes inside one block is a slice of the block. -/
theorem slice_eq_bytesAt (look : Nat → Block) (c : Inode) {i start num : Nat}
    (inside : start + num ≤ blockSize) :
    (look (c.blocks i)).slice start num = bytesAt look c (blockSize * i + start) num := by
  apply List.map_congr_left
  intro k hk
  have hk := List.mem_range.mp hk
  simp only [blockSize] at inside
  rw [fileByte]
  congr 3 <;> simp only [blockSize] <;> omega

structure SameInodes (fs fs' : Fs) : Prop where
  inodeTab : fs'.inodeTab = fs.inodeTab
  inodeCache : fs'.inodeCache = fs.inodeCache
  dirCache : fs'.dirCache = fs.dirCache

theorem SameInodes.refl (fs : Fs) : SameInodes fs fs := ⟨rfl, rfl, rfl⟩

theorem SameInodes.trans {fs fs' fs'' : Fs} (h : SameInodes fs fs') (h' : SameInodes fs' fs'') :
    SameInodes fs fs'' :=
  ⟨h'.inodeTab.trans h.inodeTab, h'.inodeCache.trans h.inodeCache, h'.dirCache.trans h.dirCache⟩

theorem SameInodes.deref {fs fs' : Fs} (h : SameInodes fs fs') (p : InodePtr) :
    fs'.deref p = fs.deref p := by
  cases p with
  | cached s => rw [Fs.deref, Fs.deref, h.inodeCache]
  | table b => rw [Fs.deref, Fs.deref, h.inodeTab]

theorem SameInodes.ptrTo {fs fs' : Fs} (h : SameInodes fs fs') {p : InodePtr} {a : Nat}
    (ptr : PtrTo fs p a) : PtrTo fs' p a := by
  cases p with
  | cached s => rwa [PtrTo, h.inodeCache]
  | table b => exact ptr

structure OnlyAt (p : InodePtr) (fs fs' : Fs) : Prop where
  dirCache : fs'.dirCache = fs.dirCache
  key : ∀ s, (fs'.inodeCache s).key = (fs.inodeCache s).key
  dirty : ∀ s, (fs.inodeCache s).dirty = true → (fs'.inodeCache s).dirty = true
  slot : ∀ s, p ≠ .cached s → fs'.inodeCache s = fs.inodeCache s
  entry : ∀ a, p ≠ .table a → fs'.inodeTab a = fs.inodeTab a

theorem SameInodes.onlyAt {fs fs' : Fs} (h : SameInodes fs fs') (p : InodePtr) :
    OnlyAt p fs fs' :=
  ⟨h.dirCache, fun _ => by rw [h.inodeCache], fun _ isDirty => by rwa [h.inodeCache],
    fun _ _ => by rw [h.inodeCache], fun _ _ => by rw [h.inodeTab]⟩

theorem OnlyAt.trans {p : InodePtr} {fs fs' fs'' : Fs} (h : OnlyAt p fs fs')
    (h' : OnlyAt p fs' fs'') : OnlyAt p fs fs'' :=
  ⟨h'.dirCache.trans h.dirCache, fun s => (h'.key s).trans (h.key s),
    fun s isDirty => h'.dirty s (h.dirty s isDirty),
    fun s ne => (h'.slot s ne).trans (h.slot s ne),
    fun a ne => (h'.entry a ne).trans (h.entry a ne)⟩

theorem OnlyAt.ptrTo {p q : InodePtr} {fs fs' : Fs} (h : OnlyAt p fs fs') {a : Nat}
    (ptr : PtrTo fs q a) : PtrTo fs' q a := by
  cases q with
  | cached s => rwa [PtrTo, h.key]
  | table b => exact ptr

theorem OnlyAt.deref {p q : InodePtr} {fs fs' : Fs} (h : OnlyAt p fs fs') (ne : p ≠ q) :
    fs'.deref q = fs.deref q := by
  cases q with
  | cached s => rw [Fs.deref, Fs.deref, h.slot s ne]
  | table b => exact h.entry b ne

theorem onlyAt_assign (fs : Fs) (p : InodePtr) (c : Inode) : OnlyAt p fs (fs.assign p c) := by
  cases p with
  | cached s =>
      refine ⟨rfl, fun t => Table.write_key _ _ _ _ t, ?_, ?_, fun _ _ => rfl⟩
      · intro t isDirty
        rw [Fs.assign, Table.write_dirty]
        split
        · rename_i same
          exact same ▸ isDirty
        · exact isDirty
      · intro t ne
        have apart : t ≠ s := by rintro rfl; exact ne rfl
        exact Function.update_of_ne apart _ _
  | table b =>
      refine ⟨rfl, fun _ => rfl, fun _ isDirty => isDirty, fun _ _ => rfl, ?_⟩
      intro a ne
      have apart : a ≠ b := by rintro rfl; exact ne rfl
      exact Function.update_of_ne apart _ _

theorem onlyAt_markDirty (fs : Fs) (p : InodePtr) : OnlyAt p fs (fs.markDirty p) := by
  cases p with
  | cached s =>
      refine ⟨rfl, fun t => Table.write_key _ _ _ _ t, ?_, ?_, fun _ _ => rfl⟩
      · intro t isDirty
        rw [Fs.markDirty, Table.write_dirty]
        split
        · rfl
        · exact isDirty
      · intro t ne
        have apart : t ≠ s := by rintro rfl; exact ne rfl
        exact Function.update_of_ne apart _ _
  | table b => exact (SameInodes.refl fs).onlyAt _

variable {own : Ledger} {top : Nat} {fs : Fs}

/-- The inode that the operations see: the first cached copy, else the table's. -/
def Fs.seen (fs : Fs) (a : Nat) : Inode := fs.inodeCache.view fs.inodeTab a

theorem Inv.openInode (h : Inv own top fs) {a : Nat} {p : InodePtr} {fs' : Fs}
    (opened : openInode fs a = some (p, fs')) :
    a < top ∧ Inv own top fs' ∧ Quiet top fs fs' ∧ PtrTo fs' p a ∧ fs'.deref p = fs.seen a ∧
      fs'.dirCache = fs.dirCache := by
  cases opened_of_open opened with
  | @cached s found =>
      have key : (fs.inodeCache s).key = a := Table.key_of_find found
      refine ⟨key ▸ h.inodes.key_lt s, h.touchInode s, quiet_touchInode top fs s, ?_, ?_, rfl⟩
      · exact (Table.touch_key fs.inodeCache s fs.now s).trans key
      · rw [Fs.seen, Table.view_of_find found]
        exact Table.touch_val fs.inodeCache s fs.now s
  | table absent set =>
      have ha := h.lt_top set
      refine ⟨ha, h.addInodeAt _ ha (by simp), h.frame_addInodeAt _ a false, rfl, ?_, rfl⟩
      rw [Fs.seen, Table.view_of_absent absent]
      exact Table.evict_of_ne _ (absent _)

theorem Inv.openInode_eq_none (h : Inv own top fs) {a : Nat} :
    Snfs.openInode fs a = none ↔ top ≤ a := by
  rw [Snfs.openInode]
  cases found : findInodeInCache fs a with
  | some s =>
      have lt := h.inodes.key_lt s
      rw [Table.key_of_find found] at lt
      simp [lt]
  | none => simp [h.inodes.inUse]

theorem Inv.owned_seen (h : Inv own top fs) {a : Nat} (ha : a < top) :
    OwnedInode own a (fs.seen a) := by
  rw [Fs.seen]
  cases found : fs.inodeCache.find? a with
  | some s =>
      rw [Table.view_of_find found]
      have key := Table.key_of_find found
      exact key ▸ h.inodes.cached s
  | none =>
      rw [Table.view_of_absent (Table.absent_of_find found)]
      exact h.inodes.table a ha

theorem Inv.type_seen (h : Inv own top fs) (a : Nat) :
    (fs.seen a).type = (fs.inodeTab a).type := by
  rw [Fs.seen]
  cases found : fs.inodeCache.find? a with
  | some s =>
      rw [Table.view_of_find found, h.inodes.cachedType s, Table.key_of_find found]
  | none => rw [Table.view_of_absent (Table.absent_of_find found)]

theorem Inv.fetchBlock (h : Inv own top fs) {b : Nat} (file : FileBlock own fs.inodeTab b) :
    ∃ fs', fetchBlock fs b = some (fs.lblk b, fs') ∧ Inv own top fs' ∧ Quiet top fs fs' ∧
      SameInodes fs fs' ∧
      ∀ c, c ≠ b → fs.blockCache.Absent c → fs'.blockCache.Absent c := by
  obtain ⟨a, i, given, -⟩ := id file
  obtain ⟨data, inside⟩ := h.owned_range given
  cases found : fs.blockCache.find? b with
  | some s =>
      refine ⟨(fs.touchBlock s).touchBlock s, ?_, (h.touchBlock s).touchBlock s,
        (quiet_touchBlock top fs s).trans (quiet_touchBlock top _ s), ⟨rfl, rfl, rfl⟩,
        fun c _ absent t key => absent t ?_⟩
      have val : ((fs.touchBlock s).blockCache s).val = (fs.blockCache s).val :=
        Table.touch_val fs.blockCache s fs.now s
      · simp only [Snfs.fetchBlock, findBlockInCache, found, Option.map_some, val, Fs.lblk,
          Table.view_of_find found]
      · rwa [Fs.touchBlock, Table.touch_key, Fs.touchBlock, Table.touch_key] at key
  | none =>
      have absent := Table.absent_of_find found
      have content : fs.lblk b = fs.blocks.content b := Table.view_of_absent absent _
      refine ⟨addBlockToCache fs b (fs.blocks.content b) false, ?_,
        h.addBlockAt _ file absent fun _ => rfl, ⟨h.frame_addBlockAt _ b _ false, rfl, ?_⟩,
        ⟨rfl, rfl, rfl⟩, fun c ne gone => gone.place ne _ _ _ _⟩
      · simp only [Snfs.fetchBlock, findBlockInCache, found, Option.map_none,
          Blocks.read_of_lt inside, content]
      · intro c hc lt
        by_cases same : c = b
        · subst same
          rw [content]
          exact h.lblk_addBlockAt_self _ absent lt _ _
        · exact h.cacheSound.lblk_addBlockAt_other _ _ _ hc lt same

/-- The read loop collects the bytes up to `max`, block by block, when every fetch gives the
block's content and keeps what the next one needs. -/
theorem readLoop_eq {P : Fs → Prop} {p : InodePtr} {c : Inode} {look : Nat → Block}
    {offset max fuel iblock : Nat} {buffer : List UInt8} (few : c.used ≤ inodeNumBlks)
    (copy : ∀ s, P s → s.deref p = c)
    (fetch : ∀ s i, P s → i < c.used →
      ∃ s', fetchBlock s (c.blocks i) = some (look (c.blocks i), s') ∧ P s')
    (bound : offset + max ≤ c.size) {fs : Fs} (here : P fs)
    (read : buffer = bytesAt look c offset buffer.length) (le : buffer.length ≤ max)
    (position : buffer.length < max → (buffer.length = 0 ∧ iblock = offset / 512) ∨
      offset + buffer.length = 512 * iblock)
    (enough : c.used - iblock ≤ fuel) :
    ∃ fs', readLoop p offset max c.used fuel iblock buffer fs =
        (some (bytesAt look c offset max), fs') ∧ P fs' := by
  induction fuel generalizing iblock buffer fs with
  | zero =>
      have full : buffer.length = max := by
        by_contra short
        have outside : ¬ iblock < c.used := by omega
        rw [Inode.lt_used] at outside
        have position := position (by omega)
        omega
      rw [full] at read
      exact ⟨fs, by rw [readLoop, ← read], here⟩
  | succ fuel ih =>
      by_cases more : buffer.length < max ∧ iblock < c.used
      · have within : iblock < inodeNumBlks := Nat.lt_of_lt_of_le more.2 few
        obtain ⟨fs₁, fetched, here₁⟩ := fetch fs iblock here more.2
        obtain ⟨start, hstart⟩ : ∃ start, start = if buffer.length = 0 then offset % 512 else 0 :=
          ⟨_, rfl⟩
        obtain ⟨num, hnum⟩ : ∃ num, num = min (512 - start) (max - buffer.length) := ⟨_, rfl⟩
        have aligned : 512 * iblock + start = offset + buffer.length ∧ start < 512 := by
          have position := position more.1
          split at hstart <;> omega
        have step : readLoop p offset max c.used (fuel + 1) iblock buffer fs =
            readLoop p offset max c.used fuel (iblock + 1)
              (buffer ++ (look (c.blocks iblock)).slice start num) fs₁ := by
          rw [readLoop]
          simp only [if_pos more, if_neg (Nat.not_le.mpr within), copy fs here, fetched, blockSize,
            ← hstart, ← hnum]
        have chunk : (look (c.blocks iblock)).slice start num =
            bytesAt look c (offset + buffer.length) num := by
          rw [← aligned.1]
          exact slice_eq_bytesAt look c (by simp only [blockSize]; omega)
        have read₁ : buffer ++ (look (c.blocks iblock)).slice start num =
            bytesAt look c offset (buffer.length + num) := by
          rw [chunk, ← bytesAt_append, ← read]
        have length₁ : (buffer ++ (look (c.blocks iblock)).slice start num).length =
            buffer.length + num := by
          simp
        have enough₁ : c.used - (iblock + 1) ≤ fuel := by omega
        obtain ⟨fs₂, loop, here₂⟩ := ih here₁ (by rw [length₁, read₁]) (by rw [length₁]; omega)
          (by rw [length₁]; omega) enough₁
        exact ⟨fs₂, by rw [step, loop], here₂⟩
      · have full : buffer.length = max := by
          by_contra short
          have outside : ¬ iblock < c.used := fun inside => more ⟨by omega, inside⟩
          rw [Inode.lt_used] at outside
          have position := position (by omega)
          omega
        rw [full] at read
        refine ⟨fs, ?_, here⟩
        rw [readLoop]
        simp only [if_neg more, ← read]

theorem Inv.readLoop {p : InodePtr} {a : Nat} {c : Inode} {look : Nat → Block}
    {offset max fuel iblock : Nat} {buffer : List UInt8} (h : Inv own top fs) (ptr : PtrTo fs p a)
    (ha : a < top) (file : (fs.inodeTab a).type = .file) (copy : fs.deref p = c)
    (same : ∀ i, i < c.used → fs.lblk (c.blocks i) = look (c.blocks i))
    (bound : offset + max ≤ c.size) (read : buffer = bytesAt look c offset buffer.length)
    (le : buffer.length ≤ max)
    (position : buffer.length < max → (buffer.length = 0 ∧ iblock = offset / 512) ∨
      offset + buffer.length = 512 * iblock)
    (enough : c.used - iblock ≤ fuel) :
    ∃ fs', readLoop p offset max c.used fuel iblock buffer fs =
        (some (bytesAt look c offset max), fs') ∧
      Inv own top fs' ∧ Quiet top fs fs' ∧ SameInodes fs fs' := by
  have ownedC : OwnedInode own a c := copy ▸ h.owned_deref ha ptr
  refine readLoop_eq (P := fun s => Inv own top s ∧ Quiet top fs s ∧ SameInodes fs s)
    ownedC.used_le (fun s kept => (kept.2.2.deref p).trans copy) ?_ bound
    ⟨h, .refl top fs, .refl fs⟩ read le position enough
  rintro s i ⟨inv, quiet, inodes⟩ hi
  have given := ownedC.owned_used hi
  obtain ⟨data, inside⟩ := h.owned_range given
  obtain ⟨s', fetched, inv', quiet', inodes', -⟩ :=
    inv.fetchBlock ⟨a, i, given, (quiet.type a).trans file⟩
  exact ⟨s', by rw [fetched, quiet.lblk _ data inside, same i hi], inv', quiet.trans quiet',
    inodes.trans inodes'⟩

/-- `fs_read` gives the bytes of the inode seen, as far as its size goes. -/
theorem Inv.fsRead_cases (h : Inv own top fs) (file offset count : Nat) :
    (top ≤ file ∧ fsRead fs file offset count = (none, fs)) ∨
    ∃ p fs₁, Snfs.openInode fs file = some (p, fs₁) ∧
      (((fs.inodeTab file).type ≠ .file ∧ fsRead fs file offset count = (none, fs₁)) ∨
        ((fs.inodeTab file).type = .file ∧
          ∃ fs₂, fsRead fs file offset count =
              (some (bytesAt fs.lblk (fs.seen file) offset
                (min count ((fs.seen file).size - offset))), fs₂) ∧
            Inv own top fs₂ ∧ Quiet top fs₁ fs₂ ∧ SameInodes fs₁ fs₂)) := by
  have small := h.inodes.le_size
  by_cases out : itabSize ≤ file
  · exact .inl ⟨by omega, by rw [fsRead, if_pos out]⟩
  cases opened : Snfs.openInode fs file with
  | none =>
      refine .inl ⟨h.openInode_eq_none.mp opened, ?_⟩
      rw [fsRead, if_neg out, opened]
  | some pair =>
      obtain ⟨p, fs₁⟩ := pair
      obtain ⟨lt, h₁, quiet₁, ptr, copy, -⟩ := h.openInode opened
      have type : (fs.seen file).type = (fs.inodeTab file).type := h.type_seen file
      refine .inr ⟨p, fs₁, rfl, ?_⟩
      rw [fsRead, if_neg out, opened]
      simp only [copy, type]
      by_cases isFile : (fs.inodeTab file).type = .file
      · refine .inr ⟨isFile, ?_⟩
        rw [if_neg (fun ne => ne isFile)]
        by_cases beyond : (fs.seen file).size ≤ offset
        · refine ⟨fs₁, ?_, h₁, .refl top fs₁, .refl fs₁⟩
          rw [if_pos beyond, Nat.sub_eq_zero_of_le beyond, Nat.min_zero]
          rfl
        · have owned := h.owned_seen lt
          have size := owned.size_le
          have isCount : asCount (min count ((fs.seen file).size - offset)) =
              min count ((fs.seen file).size - offset) := by
            rw [asCount, if_pos (by omega)]
          have blocks (i : Nat) (hi : i < (fs.seen file).used) :
              fs₁.lblk ((fs.seen file).blocks i) = fs.lblk ((fs.seen file).blocks i) := by
            obtain ⟨data, inside⟩ := h.owned_range (owned.owned_used hi)
            exact quiet₁.lblk _ data inside
          have bound : offset + min count ((fs.seen file).size - offset) ≤ (fs.seen file).size := by
            omega
          obtain ⟨fs₂, loop, h₂, quiet₂, same₂⟩ := h₁.readLoop ptr lt
            ((quiet₁.type file).trans isFile) copy blocks bound
            (show [] = bytesAt fs.lblk (fs.seen file) offset 0 from rfl) (Nat.zero_le _)
            (fun _ => .inl ⟨rfl, rfl⟩) (Nat.le_refl _)
          refine ⟨fs₂, ?_, h₂, quiet₂, same₂⟩
          rw [if_neg beyond, isCount, loop]
      · refine .inl ⟨isFile, ?_⟩
        rw [if_pos isFile]

end Snfs
