import Snfs.Fs.Reachable
import Mathlib.Data.List.Nodup
import Mathlib.Logic.Relation

/-!
What holds after every run of calls on a file system of at most as many blocks
as the block bitmap has bits: who owns the blocks, the tree that the directories
form, and what the block cache stands for.
-/

namespace Snfs

open Slots Runs

variable {num : Nat} {clock : Nat → Int} {trace : List (FsOp × FsResult)} {fs : Fs}

theorem room_of_le {fs : Fs} (small : fs.numBlocks ≤ bmapBits) (k : Nat) : Room fs k := .inl small

theorem FsRun.inv (run : FsRun num clock trace fs) (data : 10 ≤ num) (small : num ≤ bmapBits) :
    ∃ own top, Inv own top fs ∧ fs.numBlocks = num := by
  obtain ⟨boot, started, run⟩ := run
  have unwrapped : num * 512 < 2 ^ 32 := by
    simp only [bmapBits, blockSize] at small
    omega
  have formatted := fsBoot_formatted data unwrapped started
  refine run.invariant (I := fun fs => ∃ own top, Inv own top fs ∧ fs.numBlocks = num)
    ⟨_, 2, formatted.inv data, formatted.numBlocks⟩ ?_
  rintro s ⟨op, res⟩ s' ⟨own, top, inv, size⟩ ⟨fits, next⟩
  obtain ⟨own', top', kept⟩ := inv.step fits (room_of_le (size ▸ small) _) next
  exact ⟨own', top', kept.inv, kept.numBlocks.trans size⟩

/-- A copy of an allocated inode, in the table or in the cache. -/
def IsCopy (fs : Fs) (a : Nat) (c : Inode) : Prop :=
  bmapIsset fs.inodeBmap a = true ∧
    (c = fs.inodeTab a ∨ ∃ s, (fs.inodeCache s).key = a ∧ c = (fs.inodeCache s).val)

theorem Inv.isCopy {own : Ledger} {top : Nat} (h : Inv own top fs) {a : Nat} {c : Inode}
    (copy : IsCopy fs a c) :
    a < top ∧ OwnedInode own a c ∧ c.type = (fs.inodeTab a).type := by
  obtain ⟨used, rfl | ⟨s, rfl, rfl⟩⟩ := copy
  · exact ⟨h.lt_top used, h.inodes.table a (h.lt_top used), rfl⟩
  · exact ⟨h.lt_top used, h.inodes.cached s, h.inodes.cachedType s⟩

/-- Every block in use by a copy of an inode is a marked data block that no other inode and no
other index has. What is still to be written back belongs to files, and the blocks 0 to 9 and
the directories' blocks change on the device only when an entry is created. -/
theorem blocks_owned_exclusively (data : 10 ≤ num) (small : num ≤ 4096)
    (run : FsRun num clock trace fs) :
    (∀ a c i, IsCopy fs a c → i < c.used →
      i < inodeNumBlks ∧ 10 ≤ c.blocks i ∧ c.blocks i < num ∧
        bmapIsset fs.blkBmap (c.blocks i) = true) ∧
    (∀ a c i a' c' i', IsCopy fs a c → IsCopy fs a' c' → i < c.used → i' < c'.used →
      c.blocks i = c'.blocks i' → a = a' ∧ i = i') ∧
    (∀ s, (fs.blockCache s).dirty = true →
      10 ≤ (fs.blockCache s).key ∧ (fs.blockCache s).key < num ∧
        ∀ d c i, IsCopy fs d c → c.type = .dir → i < c.used → c.blocks i ≠ (fs.blockCache s).key) ∧
    (∀ op res fs', op.Fits → fsStep fs op = some (res, fs') →
      (∀ b, b < 10 → fs'.blocks.content b = (afterCreate fs op).blocks.content b) ∧
      ∀ d i, bmapIsset (afterCreate fs op).inodeBmap d = true →
        ((afterCreate fs op).inodeTab d).type = .dir → i < ((afterCreate fs op).inodeTab d).used →
          fs'.blocks.content (((afterCreate fs op).inodeTab d).blocks i) =
            (afterCreate fs op).blocks.content (((afterCreate fs op).inodeTab d).blocks i)) := by
  obtain ⟨own, top, inv, size⟩ := run.inv data small
  refine ⟨?_, ?_, ?_, ?_⟩
  · intro a c i copy hi
    obtain ⟨-, owned, -⟩ := inv.isCopy copy
    obtain ⟨low, lt, set, -⟩ := inv.ledger.given _ _ _ (owned.owned_used hi)
    exact ⟨Nat.lt_of_lt_of_le hi owned.used_le, low, size ▸ lt, set⟩
  · intro a c i a' c' i' copy copy' hi hi' same
    have given := (inv.isCopy copy).2.1.owned_used hi
    have given' := (inv.isCopy copy').2.1.owned_used hi'
    rw [same, given'] at given
    simp only [Option.some.injEq, Prod.mk.injEq] at given
    exact ⟨given.1.symm, given.2.symm⟩
  · intro s dirty
    have held := inv.slot_data dirty
    have range := inv.cacheSound.dirty s dirty
    refine ⟨range.1, size ▸ range.2, fun d c i copy isDir hi same => ?_⟩
    obtain ⟨-, owned, type⟩ := inv.isCopy copy
    exact not_file_of_dir (owned.owned_used hi) (type.symm.trans isDir) (same ▸ held)
  · intro op res fs' fits next
    obtain ⟨own', top', kept⟩ := inv.step fits (room_of_le (size ▸ small) _) next
    refine ⟨kept.frame.low, fun d i used isDir hi => kept.frame.page d i ?_ isDir hi⟩
    exact kept.inv.lt_top (by rwa [kept.frame.inodeBmap])

/-- A file of one block next to a directory of one entry. -/
theorem blocks_owned_exclusively_two_calls :
    ∃ trace fs, fsAfter 16 (fun _ => 1) [.create 1 [102], .write 2 0 [7]] = some (trace, fs) ∧
      (fs.inodeTab 1).blocks 0 ≠ (fs.inodeTab 2).blocks 0 := by
  have sizes : (fsAfter 16 (fun _ => 1) [.create 1 [102], .write 2 0 [7]]).map (fun r =>
      (bmapIsset r.2.inodeBmap 1, bmapIsset r.2.inodeBmap 2, (r.2.inodeTab 1).used,
        (r.2.inodeTab 2).used)) = some (true, true, 1, 1) := by decide +kernel
  obtain ⟨⟨trace, fs⟩, calls, facts⟩ := Option.map_eq_some_iff.mp sizes
  simp only [Prod.mk.injEq] at facts
  obtain ⟨one, two, used₁, used₂⟩ := facts
  have run := FsRun.of_calls calls (by simp [FsOp.Fits])
  refine ⟨trace, fs, calls, fun same => ?_⟩
  have apart := (blocks_owned_exclusively (by decide) (by decide) run).2.1
    1 _ 0 2 _ 0 ⟨one, .inl rfl⟩ ⟨two, .inl rfl⟩ (by omega) (by omega) same
  exact absurd apart.1 (by decide)

def Names (fs : Fs) (d k a : Nat) : Prop :=
  IsDir fs d ∧ k < numEntries fs d ∧ (entryAt fs d k).2 = a

def Child (fs : Fs) (d a : Nat) : Prop := ∃ k, Names fs d k a

def setInodes (fs : Fs) : Nat := (List.range bmapBits).countP (bmapIsset fs.inodeBmap)

def totalEntries (fs : Fs) : Nat :=
  ((List.range itabSize).map fun d => if IsDir fs d then numEntries fs d else 0).sum

section Tree
variable {own : Ledger} {top : Nat}

private theorem mem_childIds (isDir : (fs.inodeTab d).type = .dir) {a : Nat} :
    a ∈ childIds fs d ↔ ∃ k, k < numEntries fs d ∧ (entryAt fs d k).2 = a := by
  simp [childIds, isDir, dirEntries]

theorem Inv.child_iff (h : Inv own top fs) {d a : Nat} :
    Child fs d a ↔ d < top ∧ a ∈ childIds fs d := by
  by_cases isDir : (fs.inodeTab d).type = .dir
  · rw [mem_childIds isDir]
    constructor
    · rintro ⟨k, dir, hk, id⟩
      exact ⟨(h.isDir_iff.mp dir).1, k, hk, id⟩
    · rintro ⟨lt, k, hk, id⟩
      exact ⟨k, h.isDir_iff.mpr ⟨lt, isDir⟩, hk, id⟩
  · constructor
    · rintro ⟨k, dir, -, -⟩
      exact absurd dir.2 isDir
    · rintro ⟨-, member⟩
      simp [childIds, isDir] at member

/-- Every inode from 2 on is in use exactly if a directory has an entry for it. -/
theorem Inv.mem_children (h : Inv own top fs) {a : Nat} :
    (∃ d, Child fs d a) ↔ 2 ≤ a ∧ a < top := by
  have two := h.inodes.two_le
  have all := h.tree.children.mem_iff (a := a)
  rw [List.mem_flatMap, List.mem_range'_1] at all
  constructor
  · rintro ⟨d, child⟩
    obtain ⟨lt, member⟩ := h.child_iff.mp child
    have range := all.mp ⟨d, List.mem_range.mpr lt, member⟩
    omega
  · intro range
    obtain ⟨d, lt, member⟩ := all.mpr (by omega)
    exact ⟨d, h.child_iff.mpr ⟨List.mem_range.mp lt, member⟩⟩

theorem Inv.named_once (h : Inv own top fs) {d d' k k' a : Nat} (names : Names fs d k a)
    (names' : Names fs d' k' a) : d = d' ∧ k = k' := by
  have nodup : ((List.range top).flatMap (childIds fs)).Nodup :=
    h.tree.children.nodup_iff.mpr List.nodup_range'
  obtain ⟨each, apart⟩ := List.nodup_flatMap.mp nodup
  obtain ⟨lt, member⟩ := h.child_iff.mp ⟨k, names⟩
  obtain ⟨lt', member'⟩ := h.child_iff.mp ⟨k', names'⟩
  have same : d = d' := by
    by_contra ne
    have symm : Std.Symm (Function.onFun List.Disjoint (childIds fs)) :=
      ⟨fun _ _ sep => List.disjoint_symm sep⟩
    have disjoint := apart.forall (List.mem_range.mpr lt) (List.mem_range.mpr lt') ne
    exact disjoint member member'
  subst same
  obtain ⟨dir, hk, id⟩ := names
  obtain ⟨-, hk', id'⟩ := names'
  have inside := each d (List.mem_range.mpr lt)
  rw [childIds, if_pos dir.2, dirEntries, List.map_map] at inside
  exact ⟨rfl, List.inj_on_of_nodup_map inside (List.mem_range.mpr hk) (List.mem_range.mpr hk')
    (id.trans id'.symm)⟩

/-- An inode's directory has a smaller number. -/
theorem Inv.child_lt (h : Inv own top fs) {d a : Nat} (child : Child fs d a) : d < a :=
  h.tree.order d a (h.child_iff.mp child).1 (h.child_iff.mp child).2

theorem Inv.reached (h : Inv own top fs) {a : Nat} (low : 1 ≤ a) (lt : a < top) :
    Relation.ReflTransGen (Child fs) 1 a := by
  induction a using Nat.strong_induction_on with
  | _ a ih =>
      by_cases root : a = 1
      · rw [root]
      · obtain ⟨d, child⟩ := h.mem_children.mpr ⟨by omega, lt⟩
        have less := h.child_lt child
        have notZero : d ≠ 0 := by
          rintro rfl
          obtain ⟨_, dir, -⟩ := child
          exact absurd (dir.2.symm.trans h.inodes.zero) (by decide)
        exact (ih d less (by omega) (by omega)).tail child

theorem Inv.acyclic (h : Inv own top fs) (a : Nat) : ¬ Relation.TransGen (Child fs) a a := by
  have grows {a b : Nat} (path : Relation.TransGen (Child fs) a b) : a < b := by
    induction path with
    | single child => exact h.child_lt child
    | tail _ child ih => exact Nat.lt_trans ih (h.child_lt child)
  exact fun path => Nat.lt_irrefl a (grows path)

theorem Inv.setInodes_eq (h : Inv own top fs) : setInodes fs = top := by
  have le : top ≤ bmapBits := Nat.le_trans h.inodes.le_size (by decide)
  have split : List.range bmapBits = List.range top ++ (List.range (bmapBits - top)).map (top + ·) := by
    rw [← List.range_add]
    congr 1
    omega
  rw [setInodes, split, List.countP_append]
  have all : (List.range top).countP (bmapIsset fs.inodeBmap) = top := by
    rw [List.countP_eq_length.mpr, List.length_range]
    intro a ha
    rw [h.inodes.inUse]
    exact decide_eq_true (List.mem_range.mp ha)
  have none : ((List.range (bmapBits - top)).map (top + ·)).countP (bmapIsset fs.inodeBmap) = 0 := by
    rw [List.countP_eq_zero]
    intro a ha
    obtain ⟨k, -, rfl⟩ := List.mem_map.mp ha
    rw [h.inodes.inUse]
    simp
  rw [all, none, Nat.add_zero]

theorem Inv.totalEntries_eq (h : Inv own top fs) : totalEntries fs = top - 2 := by
  have le := h.inodes.le_size
  have split : List.range itabSize = List.range top ++ (List.range (itabSize - top)).map (top + ·) := by
    rw [← List.range_add]
    congr 1
    omega
  have old : (List.range top).map (fun d => if IsDir fs d then numEntries fs d else 0) =
      (List.range top).map fun d => (childIds fs d).length := by
    refine List.map_congr_left fun d hd => ?_
    have iff := h.isDir_iff (d := d)
    by_cases isDir : (fs.inodeTab d).type = .dir
    · rw [if_pos (iff.mpr ⟨List.mem_range.mp hd, isDir⟩)]
      simp [childIds, isDir, dirEntries]
    · rw [if_neg fun dir => isDir dir.2]
      simp [childIds, isDir]
  have rest : (((List.range (itabSize - top)).map (top + ·)).map
      fun d => if IsDir fs d then numEntries fs d else 0).sum = 0 := by
    rw [List.sum_eq_zero_iff_forall_eq_nat]
    intro n hn
    obtain ⟨d, hd, rfl⟩ := List.mem_map.mp hn
    obtain ⟨k, -, rfl⟩ := List.mem_map.mp hd
    rw [if_neg]
    intro dir
    have := (h.isDir_iff.mp dir).1
    omega
  have count := h.tree.children.length_eq
  rw [List.length_flatMap, List.length_range'] at count
  rw [totalEntries, split, List.map_append, List.sum_append, old, rest, Nat.add_zero, count]

end Tree

/-- The directories and files form a tree with root 1, and it never outgrows the inode table. -/
theorem inodes_form_tree (data : 10 ≤ num) (small : num ≤ 4096) (run : FsRun num clock trace fs) :
    (∀ d k a, Names fs d k a → 2 ≤ a ∧ a ≤ 63 ∧ bmapIsset fs.inodeBmap a = true) ∧
    (∀ a, 2 ≤ a → bmapIsset fs.inodeBmap a = true → ∃! dk : Nat × Nat, Names fs dk.1 dk.2 a) ∧
    (∀ a, 1 ≤ a → bmapIsset fs.inodeBmap a = true → Relation.ReflTransGen (Child fs) 1 a) ∧
    (∀ a, ¬ Relation.TransGen (Child fs) a a) ∧
    setInodes fs = 2 + totalEntries fs ∧
    totalEntries fs ≤ 62 ∧
    (∀ d, IsDir fs d → (fs.inodeTab d).used ≤ 2 ∧ (fs.inodeTab d).size / blockSize ≤ 1) := by
  obtain ⟨own, top, inv, -⟩ := run.inv data small
  have two := inv.inodes.two_le
  have le := inv.inodes.le_size
  simp only [itabSize] at le
  refine ⟨?_, ?_, ?_, inv.acyclic, ?_, ?_, ?_⟩
  · intro d k a names
    have range := inv.mem_children.mp ⟨d, k, names⟩
    refine ⟨range.1, by omega, ?_⟩
    rw [inv.inodes.inUse]
    exact decide_eq_true range.2
  · intro a low used
    obtain ⟨d, k, names⟩ := inv.mem_children.mpr ⟨low, inv.lt_top used⟩
    refine ⟨(d, k), names, fun dk names' => ?_⟩
    obtain ⟨rfl, rfl⟩ := inv.named_once names' names
    rfl
  · exact fun a low used => inv.reached low (inv.lt_top used)
  · rw [inv.setInodes_eq, inv.totalEntries_eq]
    omega
  · rw [inv.totalEntries_eq]
    omega
  · intro d dir
    obtain ⟨lt, isDir⟩ := inv.isDir_iff.mp dir
    have entries := inv.tree.numEntries_le lt isDir
    have size := inv.tree.size_eq lt isDir
    refine ⟨offsetToBlocks_le.mpr ?_, ?_⟩
    · omega
    · simp only [blockSize]
      omega

/-- A directory in the root and a file in that directory. -/
theorem inodes_form_tree_two_levels :
    ∃ trace fs, fsAfter 16 (fun _ => 1) [.mkdir 1 [100], .create 2 [102]] = some (trace, fs) ∧
      Relation.ReflTransGen (Child fs) 1 3 ∧ 4 = 2 + totalEntries fs := by
  have bits : (fsAfter 16 (fun _ => 1) [.mkdir 1 [100], .create 2 [102]]).map (fun r =>
      (bmapIsset r.2.inodeBmap 3, setInodes r.2)) = some (true, 4) := by decide +kernel
  obtain ⟨⟨trace, fs⟩, calls, facts⟩ := Option.map_eq_some_iff.mp bits
  simp only [Prod.mk.injEq] at facts
  have run := FsRun.of_calls calls (by simp [FsOp.Fits])
  obtain ⟨-, -, reached, -, count, -⟩ := inodes_form_tree (by decide) (by decide) run
  exact ⟨trace, fs, calls, reached 3 (by decide) facts.1, facts.2 ▸ count⟩

/-- Reads and writes through the block cache are reads and writes of the device: no data block is
cached twice, clean slots agree with the device, a call changes the content of the blocks it
writes to and of no other, and an insertion changes none but the block inserted, whichever slot
it replaces. -/
theorem blockCache_transparent (data : 10 ≤ num) (small : num ≤ 4096)
    (run : FsRun num clock trace fs) :
    (∀ s t, 10 ≤ (fs.blockCache s).key → (fs.blockCache t).key = (fs.blockCache s).key → s = t) ∧
    (∀ s, 10 ≤ (fs.blockCache s).key → (fs.blockCache s).dirty = false →
      (fs.blockCache s).key < num ∧
        (fs.blockCache s).val = fs.blocks.content (fs.blockCache s).key) ∧
    (∀ op res fs', op.Fits → fsStep fs op = some (res, fs') →
      ∀ b, 10 ≤ b → b < num → fs'.lblk b ≠ fs.lblk b → WrittenBy fs op fs' b) ∧
    BlockCacheSound fs ∧
    (∀ fs₁, BlockCacheSound fs₁ → ∀ v b page d c, 10 ≤ c → c < fs₁.numBlocks → c ≠ b →
      (addBlockAt fs₁ v b page d).lblk c = fs₁.lblk c) := by
  obtain ⟨own, top, inv, size⟩ := run.inv data small
  refine ⟨?_, ?_, ?_, inv.cacheSound, ?_⟩
  · exact fun s t low same => inv.blocks.single _ low s t rfl same
  · intro s low clean
    obtain ⟨a, i, given, -⟩ := inv.slot_file low
    have range := inv.owned_range given
    exact ⟨size ▸ range.2, (inv.blocks.clean _ low range.2 s rfl clean).symm⟩
  · intro op res fs' fits next b low lt changed
    obtain ⟨own', top', kept⟩ := inv.step fits (room_of_le (size ▸ small) _) next
    exact (kept.lblk b low (size ▸ lt)).resolve_left changed
  · exact fun fs₁ sound v b page d c low lt ne =>
      sound.lblk_addBlockAt_other v page d low lt ne

/-- A read moves the block it reads into the cache and changes no content. -/
theorem blockCache_transparent_read :
    ∃ trace fs res fs',
      fsAfter 16 (fun _ => 1) [.create 1 [102], .write 2 0 [7]] = some (trace, fs) ∧
      fsStep fs (.read 2 0 1) = some (res, fs') ∧ fs'.lblk 11 = fs.lblk 11 := by
  have exists₁ : (fsAfter 16 (fun _ => 1) [.create 1 [102], .write 2 0 [7]]).isSome = true := by
    decide +kernel
  obtain ⟨⟨trace, fs⟩, calls⟩ := Option.isSome_iff_exists.mp exists₁
  have run := FsRun.of_calls calls (by simp [FsOp.Fits])
  obtain ⟨-, -, only, -⟩ := blockCache_transparent (by decide) (by decide) run
  refine ⟨trace, fs, _, _, calls, rfl, ?_⟩
  by_contra changed
  exact only (.read 2 0 1) _ _ trivial rfl 11 (by decide) (by decide) changed

end Snfs
