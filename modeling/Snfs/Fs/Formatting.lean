import Snfs.Fs.Boot
import Snfs.Fs.Marks

/-!
`fs_format` in any state that calls and formats lead to from a new device. It
sets bits and clears none, and it leaves the caches alone, so it empties a file
system in which nothing was ever created and no other. There it gives what it
gives on the new device, up to the inode cache, and a copy of the root that was
cached before shows in later calls.
-/

namespace Snfs

open Slots Runs

inductive DiskOp where
  | format
  | call (op : FsOp)
deriving DecidableEq, Repr

/-- `formatted` is the return value 0 of `fs_format`. -/
inductive DiskResult where
  | formatted
  | called (res : FsResult)
deriving DecidableEq, Repr

def diskStep (fs : Fs) : DiskOp → Option (DiskResult × Fs)
  | .format => some (.formatted, fsFormat fs)
  | .call op => (fsStep fs op).map fun (res, fs) => (.called res, fs)

def DiskRun (num : Nat) (clock : Nat → Int) (trace : List (DiskOp × DiskResult)) (fs : Fs) : Prop :=
  ∃ new, fsNew num clock = some new ∧ Run (Next diskStep) new trace fs

def diskAfter (num : Nat) (clock : Nat → Int) (ops : List DiskOp) :
    Option (List (DiskOp × DiskResult) × Fs) :=
  (fsNew num clock).bind fun new => execute diskStep new ops

theorem DiskRun.of_calls {num : Nat} {clock : Nat → Int} {ops : List DiskOp} {fs : Fs}
    {trace : List (DiskOp × DiskResult)} (calls : diskAfter num clock ops = some (trace, fs)) :
    DiskRun num clock trace fs := by
  obtain ⟨new, made, calls⟩ := Option.bind_eq_some_iff.mp calls
  exact ⟨new, made, run_of_executed calls⟩

/-- `fs_format` leaves no entry in the root, no path that leads to anything, all inodes and blocks
free but the reserved ones, and a file system that later calls cannot tell from one just created
and formatted on a device of the same size. -/
structure FormatEmpties (fs : Fs) : Prop where
  root : dirEntries (fsFormat fs) 1 = []
  lookup : ∀ path : CString, path.head? = some slash → components path ≠ [] →
    (fsLookup (fsFormat fs) path).1.1 = 0
  inodes : ∀ a, a < itabSize → 2 ≤ a → bmapIsset (fsFormat fs).inodeBmap a = false
  blocks : ∀ b, b < fs.numBlocks → 10 ≤ b → bmapIsset (fsFormat fs).blkBmap b = false
  later : ∀ clock boot, fsBoot fs.numBlocks clock = some boot → ∀ ops,
    (execute diskStep { fsFormat fs with clock := clock } ops).map Prod.fst =
      (execute diskStep boot ops).map Prod.fst

/-- Nothing was created, and the inode cache has no copy of the root and an unused first slot,
unless no block is left for a first entry. -/
def NeverUsed (fs : Fs) : Prop :=
  (∀ a, a < itabSize → 2 ≤ a → bmapIsset fs.inodeBmap a = false) ∧
    (fs.numBlocks = 10 ∨ (∀ s, (fs.inodeCache s).key ≠ 1) ∧ (fs.inodeCache 0).lastAccess ≤ 0)

instance (fs : Fs) : Decidable (NeverUsed fs) := inferInstanceAs (Decidable (_ ∧ (_ ∨ _ ∧ _)))

theorem blockWrite_beyond {bks : Blocks blockSize} (fits : bks.Unwrapped) (b : Nat) (block : Block)
    {k : Nat} (hk : bks.numBlocks * blockSize ≤ k) :
    (blockWrite bks b block).blocks k = bks.blocks k := by
  rw [blockWrite]
  split
  · rfl
  · rename_i inside
    have lt := Nat.not_le.mp inside
    have last := Nat.mul_le_mul_right blockSize (Nat.succ_le_of_lt lt)
    dsimp only
    rw [fits.offset lt, if_neg]
    rw [Nat.succ_mul] at last
    omega

private theorem storeInodeTab_beyond {bks : Blocks blockSize} (fits : bks.Unwrapped)
    (tab : Nat → Inode)
    (n : Nat) {k : Nat} (hk : bks.numBlocks * blockSize ≤ k) :
    (storeInodeTab tab n bks).blocks k = bks.blocks k := by
  induction n with
  | zero => rfl
  | succ n ih =>
      rw [storeInodeTab, blockWrite_beyond (unwrapped_storeInodeTab fits), ih]
      rwa [numBlocks_storeInodeTab]

private theorem store_beyond {fs : Fs} (fits : fs.blocks.Unwrapped) {k : Nat}
    (hk : fs.numBlocks * blockSize ≤ k) :
    (fsiStoreFsdata fs).blocks.blocks k = fs.blocks.blocks k := by
  have first := fits.write 0 fs.blkBmap
  rw [fsiStoreFsdata]
  dsimp only
  rw [storeInodeTab_beyond (first.write 1 fs.inodeBmap), blockWrite_beyond first,
    blockWrite_beyond fits]
  · exact hk
  · rwa [Blocks.numBlocks_write]
  · rwa [Blocks.numBlocks_write, Blocks.numBlocks_write]

private theorem eraseBlocks_blocks {bks : Blocks blockSize} (fits : bks.Unwrapped) {n : Nat}
    (le : n ≤ bks.numBlocks) (k : Nat) :
    (eraseBlocks n bks).blocks k = if k < n * blockSize then 0 else bks.blocks k := by
  induction n with
  | zero => rw [if_neg (by omega)]; rfl
  | succ n ih =>
      have erased : (eraseBlocks n bks).Unwrapped := by rwa [Blocks.Unwrapped, numBlocks_erase]
      have lt : n < (eraseBlocks n bks).numBlocks := by rw [numBlocks_erase]; omega
      rw [eraseBlocks, blockWrite, if_neg (Nat.not_le.mpr lt)]
      dsimp only
      rw [erased.offset lt, ih (by omega), Nat.succ_mul]
      by_cases here : n * blockSize ≤ k ∧ k < n * blockSize + blockSize
      · rw [if_pos here, if_pos here.2]
        exact Buf.get_zero _
      · rw [if_neg here]
        by_cases below : k < n * blockSize
        · rw [if_pos below, if_pos (Nat.lt_of_lt_of_le below (Nat.le_add_right _ _))]
        · have past : ¬ k < n * blockSize + blockSize := fun lt => here ⟨Nat.not_lt.mp below, lt⟩
          rw [if_neg below, if_neg past]

/-- A device whose bytes past its last block are zero is erased in full. -/
theorem eraseBlocks_all {bks : Blocks blockSize} (fits : bks.Unwrapped)
    (beyond : ∀ k, bks.numBlocks * blockSize ≤ k → bks.blocks k = 0) :
    eraseBlocks bks.numBlocks bks = ⟨bks.numBlocks, fun _ => 0⟩ := by
  have bytes : (eraseBlocks bks.numBlocks bks).blocks = fun _ => 0 := by
    funext k
    rw [eraseBlocks_blocks fits (Nat.le_refl _)]
    split
    · rfl
    · rename_i past
      exact beyond k (Nat.not_lt.mp past)
  have size := numBlocks_erase bks.numBlocks bks
  cases erased : eraseBlocks bks.numBlocks bks with
  | mk num blocks =>
      rw [erased] at bytes size
      rw [← bytes, ← size]

/-- The inode table in which nothing was created: cleared, with an empty root once `ready`. -/
def emptyTab (ready : Bool) (a : Nat) : Inode :=
  fsiInodeInit (if ready = true ∧ a = 1 then .dir else .clear)

def clearedInodes : Table inodeCacheSize Nat Inode := fun _ => ⟨0, fsiInodeInit .clear, false, 0⟩

/-- Nothing was created in this file system, not even the root before it is `ready`. The inode
cache holds cleared slots and clean copies of the root. -/
structure Unused (ready : Bool) (num : Nat) (fs : Fs) : Prop where
  numBlocks : fs.numBlocks = num
  beyond : ∀ k, num * blockSize ≤ k → fs.blocks.blocks k = 0
  blkBmap : ∀ b, bmapIsset fs.blkBmap b = (ready && decide (b < 10))
  inodeBmap : ∀ a, bmapIsset fs.inodeBmap a = (ready && decide (a < 2))
  inodeTab : fs.inodeTab = emptyTab ready
  blockCache : fs.blockCache = fun _ => ⟨0, .zero, false, 0⟩
  dirCache : fs.dirCache = fun _ => ⟨0, 0, .zero, 0⟩
  key : ∀ s, (fs.inodeCache s).key = 0 ∨ ready = true ∧ (fs.inodeCache s).key = 1
  val : ∀ s, (fs.inodeCache s).val = emptyTab ready (fs.inodeCache s).key
  dirty : ∀ s, (fs.inodeCache s).dirty = false
  lastAccess : fs.inodeCache.Absent 1 → ∀ s, s ≠ 0 → (fs.inodeCache s).lastAccess = 0

def formattedFs (num : Nat) (cache : Table inodeCacheSize Nat Inode) (clock : Nat → Int) : Fs :=
  fsiStoreFsdata
    { blocks := ⟨num, fun _ => 0⟩
      inodeBmap := bmapSet (bmapSet .zero 0) 1
      blkBmap := reserveBlocks (itabNumBlks + 2) .zero
      inodeTab := emptyTab true
      blockCache := fun _ => ⟨0, .zero, false, 0⟩
      inodeCache := cache
      dirCache := fun _ => ⟨0, 0, .zero, 0⟩
      clock := clock }

theorem emptyTab_zero (ready : Bool) : emptyTab ready 0 = fsiInodeInit .clear := by
  rw [emptyTab, if_neg (by simp)]

private theorem formattedFs_unused {num : Nat} (fits : num * blockSize < 2 ^ 32)
    {cache : Table inodeCacheSize Nat Inode} (clock : Nat → Int)
    (key : ∀ s, (cache s).key = 0 ∨ (cache s).key = 1)
    (val : ∀ s, (cache s).val = emptyTab true (cache s).key) (dirty : ∀ s, (cache s).dirty = false)
    (lastAccess : cache.Absent 1 → ∀ s, s ≠ 0 → (cache s).lastAccess = 0) :
    Unused true num (formattedFs num cache clock) := by
  have size : (formattedFs num cache clock).numBlocks = num := by
    rw [formattedFs, numBlocks_store]
    rfl
  refine ⟨size, ?_, ?_, ?_, ?_, ?_, ?_, ?_, val, dirty, lastAccess⟩
  · intro k hk
    rw [formattedFs, store_beyond]
    · exact fits
    · exact hk
  · intro b
    have clear : bmapIsset (Buf.zero : Block) b = false := Buf.bit_zero b
    have bit : bmapIsset (reserveBlocks (itabNumBlks + 2) .zero) b = decide (b < 10) := by
      rw [bmapIsset_reserveBlocks (by decide), clear, Bool.or_false]
    exact bit
  · intro a
    have clear : bmapIsset (Buf.zero : Block) a = false := Buf.bit_zero a
    have bit : bmapIsset (bmapSet (bmapSet .zero 0) 1) a = decide (a < 2) := by
      rw [bmapIsset_set (by decide), bmapIsset_set (by decide), clear, Bool.false_or,
        ← Bool.decide_or]
      exact decide_eq_decide.mpr (by omega)
    exact bit
  · rw [formattedFs, fsiStoreFsdata]
  · rw [formattedFs, fsiStoreFsdata]
  · rw [formattedFs, fsiStoreFsdata]
  · intro s
    exact (key s).imp_right fun root => ⟨rfl, root⟩

theorem fsNew_unused {num : Nat} {clock : Nat → Int} {new : Fs}
    (made : fsNew num clock = some new) :
    Unused false num new ∧ new.inodeCache = clearedInodes ∧ new.clock = clock := by
  rw [fsNew, blockNew] at made
  split at made
  · cases made
  · simp only [Option.map_some, Option.some.injEq] at made
    subst made
    have tab : loadInode (⟨num, fun _ => 0⟩ : Blocks blockSize) = emptyTab false := by
      funext a
      rw [Blank.load fun _ => rfl, emptyTab, if_neg (by simp)]
    refine ⟨⟨rfl, fun _ _ => rfl, ?_, ?_, tab, rfl, rfl, fun _ => .inl rfl, ?_, fun _ => rfl,
      fun _ _ _ => rfl⟩, rfl, rfl⟩
    · intro b
      exact Buf.bit_zero b
    · intro a
      exact Buf.bit_zero a
    · intro s
      exact (emptyTab_zero false).symm

namespace Unused

variable {ready : Bool} {num : Nat} {fs fs' : Fs}

/-- Without a copy of the root, only the time of the first slot tells of the past. -/
theorem inodeCache_eq (h : Unused ready num fs) (absent : fs.inodeCache.Absent 1) :
    fs.inodeCache = clearedInodes.touch 0 (fs.inodeCache 0).lastAccess := by
  funext s
  have key : (fs.inodeCache s).key = 0 := (h.key s).resolve_right fun root => absent s root.2
  have val := h.val s
  have dirty := h.dirty s
  have time (ne : s ≠ 0) := h.lastAccess absent s ne
  rw [key, emptyTab_zero] at val
  rw [Table.touch, Function.update_apply]
  split
  · rename_i first
    subst first
    cases slot : fs.inodeCache 0 with
    | mk k x d t =>
        rw [slot] at key val dirty
        simp only at key val dirty
        rw [key, val, dirty]
        rfl
  · rename_i later
    have time := time later
    cases slot : fs.inodeCache s with
    | mk k x d t =>
        rw [slot] at key val dirty time
        simp only at key val dirty time
        rw [key, val, dirty, time]
        rfl

theorem fsFormat (h : Unused ready num fs) (fits : num * blockSize < 2 ^ 32) :
    fsFormat fs = formattedFs num fs.inodeCache fs.clock := by
  have size : fs.blocks.numBlocks = num := h.numBlocks
  have erased : eraseBlocks fs.numBlocks fs.blocks = ⟨num, fun _ => 0⟩ := by
    have whole : fs.blocks.Unwrapped := by rwa [Blocks.Unwrapped, size]
    have all := eraseBlocks_all whole fun k hk => h.beyond k (by rwa [size] at hk)
    rw [size] at all
    rwa [h.numBlocks]
  have blkBmap : reserveBlocks (itabNumBlks + 2) fs.blkBmap =
      reserveBlocks (itabNumBlks + 2) .zero := by
    apply Buf.ext_bit
    intro b _
    have clear : bmapIsset (Buf.zero : Block) b = false := Buf.bit_zero b
    have left := bmapIsset_reserveBlocks (n := itabNumBlks + 2) (by decide) fs.blkBmap b
    have right := bmapIsset_reserveBlocks (n := itabNumBlks + 2) (by decide) .zero b
    rw [bmapIsset] at left right
    rw [left, right, h.blkBmap, clear]
    cases ready <;> simp
  have inodeBmap : bmapSet (bmapSet fs.inodeBmap 0) 1 = bmapSet (bmapSet .zero 0) 1 := by
    apply Buf.ext_bit
    intro a _
    have clear : bmapIsset (Buf.zero : Block) a = false := Buf.bit_zero a
    have bits (bmap : Block) : Buf.bit (bmapSet (bmapSet bmap 0) 1) a =
        (bmapIsset bmap a || decide (a < 2)) := by
      rw [← bmapIsset, bmapIsset_set (by decide), bmapIsset_set (by decide), Bool.or_assoc,
        ← Bool.decide_or]
      congr 1
      exact decide_eq_decide.mpr (by omega)
    rw [bits, bits, h.inodeBmap, clear]
    cases ready <;> simp
  have inodeTab : Function.update fs.inodeTab 1 (fsiInodeInit .dir) = emptyTab true := by
    funext a
    rw [Function.update_apply, h.inodeTab, emptyTab, emptyTab]
    by_cases root : a = 1
    · rw [if_pos root, if_pos ⟨rfl, root⟩]
    · rw [if_neg root, if_neg (by simp [root]), if_neg (by simp [root])]
  rw [Snfs.fsFormat, formattedFs, erased, blkBmap, inodeBmap, inodeTab, h.blockCache, h.dirCache]

/-- Formatting leaves the inode cache as it is, and unused. -/
theorem formatted (h : Unused ready num fs) (fits : num * blockSize < 2 ^ 32) (clock : Nat → Int) :
    Unused true num (formattedFs num fs.inodeCache clock) := by
  refine formattedFs_unused fits clock ?_ ?_ h.dirty h.lastAccess
  · intro s
    exact (h.key s).imp_right fun root => root.2
  · intro s
    rw [h.val]
    cases h.key s with
    | inl zero => rw [zero, emptyTab_zero, emptyTab_zero]
    | inr root => rw [root.1]

theorem format (h : Unused ready num fs) (fits : num * blockSize < 2 ^ 32) :
    Unused true num (Snfs.fsFormat fs) := by
  rw [h.fsFormat fits]
  exact h.formatted fits fs.clock

end Unused

private theorem fsBoot_eq {num : Nat} {clock : Nat → Int} {boot : Fs}
    (fits : num * blockSize < 2 ^ 32)
    (started : fsBoot num clock = some boot) : boot = formattedFs num clearedInodes clock := by
  obtain ⟨new, made, formatted⟩ := Option.map_eq_some_iff.mp started
  obtain ⟨unused, cache, time⟩ := fsNew_unused made
  rw [← formatted, unused.fsFormat fits, cache, time]

theorem fsBoot_unused {num : Nat} {clock : Nat → Int} {boot : Fs} (fits : num * blockSize < 2 ^ 32)
    (started : fsBoot num clock = some boot) : Unused true num boot := by
  obtain ⟨new, made, formatted⟩ := Option.map_eq_some_iff.mp started
  rw [← formatted]
  exact (fsNew_unused made).1.format fits

/-- The return value of `fs_lookup` where there is no entry, nor a root before it is `ready`. -/
def emptyLookup (ready : Bool) (path : CString) : Int :=
  if path.head? ≠ some slash then -1
  else if components path = [] then 1
  else if ready then 0 else -1

/-- What `fs_get_attrs` returns where there is only the root; number 0 ends the process. -/
def emptyAttrs : Nat → Option (Option FileAttrs)
  | 0 => none
  | 1 => some (some ⟨1, .dir, 0, 0⟩)
  | _ + 2 => some none

/-- What `fs_copy` returns there; a path without a component leads to the number `srcJunk`. -/
def emptyCopy (srcJunk : Nat) (srcpath : CString) : Option Bool :=
  if 0 < emptyLookup true srcpath ∧ srcJunk = 0 then none else some false

/-- What a call returns where there is an empty root and no block for an entry; `none` when the
process ends in it. -/
def emptyResult : FsOp → Option FsResult
  | .lookup path => some (.looked (emptyLookup true path) none)
  | .getAttrs file => (emptyAttrs file).map .attrs
  | .read _ _ _ => some (.data none)
  | .write _ _ _ => some (.written false)
  | .create _ _ => some (.made none)
  | .mkdir _ _ => some (.made none)
  | .readdir dir maxentries => some (.listed (if dir = 1 ∧ 0 ≤ maxentries then some [] else none))
  | .copy srcJunk _ srcpath _ => (emptyCopy srcJunk srcpath).map .copied

def Populated (fs : Fs) : Prop := ∃ a, a < itabSize ∧ 2 ≤ a ∧ bmapIsset fs.inodeBmap a = true

/-- A call leaves the file system unused; once that is ready, the call returns this. -/
def Stays (ready : Bool) (num : Nat) {β : Type} (result : Option β) (after : Option (β × Fs)) :
    Prop :=
  (ready = true → after.map Prod.fst = result) ∧
    ∀ b fs', after = some (b, fs') → Unused ready num fs'

theorem Stays.map {ready : Bool} {num : Nat} {β γ : Type} {result : Option β}
    {after : Option (β × Fs)} (h : Stays ready num result after) (f : β → γ) :
    Stays ready num (result.map f) (after.map fun (b, fs) => (f b, fs)) := by
  refine ⟨?_, ?_⟩
  · intro isReady
    rw [← h.1 isReady, Option.map_map, Option.map_map]
    rfl
  · intro c fs' same
    obtain ⟨⟨b, s⟩, ended, same⟩ := Option.map_eq_some_iff.mp same
    cases same
    exact h.2 b fs' ended

namespace Unused

variable {ready : Bool} {num : Nat} {fs fs' : Fs}

theorem stays {β : Type} (h : Unused ready num fs) (b : β) :
    Stays ready num (some b) (some (b, fs)) := by
  refine ⟨fun _ => rfl, ?_⟩
  intro b' fs' same
  cases same
  exact h

theorem type_root (h : Unused ready num fs) {a : Nat} :
    (fs.inodeTab a).type = .dir ↔ ready = true ∧ a = 1 := by
  rw [h.inodeTab, emptyTab]
  split <;> simp [fsiInodeInit, *]

theorem search (h : Unused ready num fs) (file : CString) :
    fsiDirSearch fs 1 file = (none, fs) := by
  have empty : (fs.inodeTab 1).size / dentrySize = 0 := by
    rw [h.inodeTab]
    exact Nat.zero_div dentrySize
  have missed : findDirSlot fs (fun e => e.dirNum == 1) = none := by
    rw [findDirSlot, h.dirCache]
    rfl
  rw [fsiDirSearch]
  dsimp only
  rw [missed, empty]
  rfl

theorem fsLookup (h : Unused ready num fs) (path : CString) :
    fsLookup fs path = ((emptyLookup ready path, none), fs) := by
  rw [Snfs.fsLookup, emptyLookup]
  split
  · rfl
  cases components path with
  | nil => rfl
  | cons token rest =>
      have bit : bmapIsset fs.inodeBmap 1 = ready := by
        rw [h.inodeBmap]
        simp
      rw [lookupFrom, bit, h.search, if_neg (List.cons_ne_nil token rest)]
      cases ready with
      | false => rfl
      | true =>
          have root : (fs.inodeTab 1).type = .dir := h.type_root.mpr ⟨rfl, rfl⟩
          rw [if_neg (by simp), if_neg (not_not.mpr root), if_pos rfl]

theorem inodes (h : Unused ready num fs) {cache : Table inodeCacheSize Nat Inode}
    (clock : Nat → Int) (key : ∀ s, (cache s).key = 0 ∨ ready = true ∧ (cache s).key = 1)
    (val : ∀ s, (cache s).val = emptyTab ready (cache s).key) (dirty : ∀ s, (cache s).dirty = false)
    (lastAccess : cache.Absent 1 → ∀ s, s ≠ 0 → (cache s).lastAccess = 0) :
    Unused ready num { fs with inodeCache := cache, clock := clock } :=
  ⟨h.numBlocks, h.beyond, h.blkBmap, h.inodeBmap, h.inodeTab, h.blockCache, h.dirCache, key, val,
    dirty, lastAccess⟩

theorem touchInode (h : Unused ready num fs) {a : Nat} {s : Fin inodeCacheSize}
    (found : fs.inodeCache.find? a = some s) : Unused ready num (fs.touchInode s) := by
  have touched (i : Fin inodeCacheSize) := Table.touch_key fs.inodeCache s fs.now i
  refine h.inodes _ ?_ ?_ ?_ ?_
  · intro i
    rw [touched]
    exact h.key i
  · intro i
    rw [touched, Table.touch_val]
    exact h.val i
  · intro i
    rw [Table.touch_dirty]
    exact h.dirty i
  · intro absent i ne
    have absent : fs.inodeCache.Absent 1 := fun j => touched j ▸ absent j
    have zero (j : Fin inodeCacheSize) : (fs.inodeCache j).key = 0 :=
      (h.key j).resolve_right fun root => absent j root.2
    -- all keys are zero, so the search ends at the first slot
    have first : s = 0 := by
      obtain ⟨here, least⟩ := Fin.find?_eq_some_iff.mp found
      by_contra later
      have before := least 0 (Fin.pos_of_ne_zero later)
      rw [zero 0] at before
      rw [zero s] at here
      rw [here] at before
      cases before
    rw [first, Table.touch, Function.update_of_ne ne]
    exact h.lastAccess absent i ne

private theorem addInode (h : Unused ready num fs) {a : Nat} (absent : fs.inodeCache.Absent a)
    (inUse : bmapIsset fs.inodeBmap a = true) : Unused ready num (addInodeToCache fs a false) := by
  rw [h.inodeBmap, Bool.and_eq_true, decide_eq_true_iff] at inUse
  obtain ⟨isReady, reserved⟩ := inUse
  generalize victim : (oldest fun i => (fs.inodeCache i).lastAccess) = v
  rw [addInodeToCache, victim, addInodeAt, Table.evict_of_clean _ (h.dirty v)]
  refine h.inodes _ ?_ ?_ ?_ ?_
  · intro i
    by_cases same : i = v
    · rw [same, Table.place_self]
      exact (Nat.lt_succ_iff_lt_or_eq.mp reserved).imp Nat.lt_one_iff.mp fun root => ⟨isReady, root⟩
    · rw [Table.place_of_ne _ same]
      exact h.key i
  · intro i
    by_cases same : i = v
    · rw [same, Table.place_self, h.inodeTab]
    · rw [Table.place_of_ne _ same]
      exact h.val i
  · intro i
    by_cases same : i = v
    · rw [same, Table.place_self]
    · rw [Table.place_of_ne _ same]
      exact h.dirty i
  · -- a slot other than the one filled holds neither number
    intro none
    obtain ⟨i, other⟩ : ∃ i : Fin inodeCacheSize, i ≠ v := exists_ne v
    have here := none i
    have new := none v
    rw [Table.place_of_ne _ other] at here
    rw [Table.place_self] at new
    have zero : a = 0 := by
      dsimp only at new
      omega
    cases h.key i with
    | inl same => exact absurd (same.trans zero.symm) (absent i)
    | inr root => exact absurd root.2 here

theorem openInode (h : Unused ready num fs) (a : Nat) :
    (openInode fs a = none ∧ (ready = true → 2 ≤ a)) ∨
    ∃ p fs', openInode fs a = some (p, fs') ∧ a < 2 ∧ fs'.deref p = emptyTab ready a ∧
      Unused ready num fs' := by
  rw [Snfs.openInode, findInodeInCache]
  cases found : fs.inodeCache.find? a with
  | some s =>
      have key := Table.key_of_find found
      refine .inr ⟨_, _, rfl, ?_, ?_, h.touchInode found⟩
      · cases h.key s with
        | inl zero => omega
        | inr root => omega
      · rw [Fs.deref, Fs.touchInode, Table.touch_val, h.val, key]
  | none =>
      dsimp only
      split
      · rename_i inUse
        have kept := h.addInode (Table.absent_of_find found) inUse
        rw [h.inodeBmap, Bool.and_eq_true, decide_eq_true_iff] at inUse
        refine .inr ⟨_, _, rfl, inUse.2, ?_, kept⟩
        rw [Fs.deref, kept.inodeTab]
      · rename_i free
        refine .inl ⟨rfl, ?_⟩
        intro isReady
        rw [h.inodeBmap, isReady, Bool.true_and, decide_eq_true_iff] at free
        exact Nat.not_lt.mp free

private theorem type_tab (a : Nat) :
    (emptyTab ready a).type = if ready = true ∧ a = 1 then .dir else .clear :=
  rfl

private theorem tab_not_file (a : Nat) : (emptyTab ready a).type ≠ .file := by
  rw [emptyTab]
  split <;> simp [fsiInodeInit]

theorem fsGetAttrs (h : Unused ready num fs) (file : Nat) :
    Stays ready num (emptyAttrs file) (fsGetAttrs fs file) ∧
      ∀ attrs fs', Snfs.fsGetAttrs fs file = some (some attrs, fs') → attrs.type ≠ .file := by
  have free {file : Nat} (past : 2 ≤ file) : emptyAttrs file = some none := by
    obtain ⟨k, rfl⟩ := Nat.exists_eq_add_of_le' past
    rfl
  rw [Snfs.fsGetAttrs]
  by_cases large : itabSize ≤ file
  · rw [if_pos large, free (Nat.le_trans (by decide) large)]
    exact ⟨h.stays none, fun _ _ same => by cases same⟩
  rw [if_neg large]
  cases h.openInode file with
  | inl missed =>
      obtain ⟨missed, past⟩ := missed
      rw [missed]
      refine ⟨⟨?_, ?_⟩, fun _ _ same => by cases same⟩
      · intro isReady
        rw [free (past isReady)]
        rfl
      · intro b fs' same
        cases same
        exact h
  | inr opened =>
      obtain ⟨p, fs₁, opened, few, copy, h₁⟩ := opened
      rw [opened]
      dsimp only
      rw [copy, type_tab]
      by_cases root : ready = true ∧ file = 1
      · have entries : (emptyTab ready 1).size / dentrySize = 0 := Nat.zero_div dentrySize
        rw [if_pos root, root.2]
        dsimp only
        rw [entries]
        refine ⟨h₁.stays (some (⟨1, .dir, 0, 0⟩ : FileAttrs)), ?_⟩
        intro attrs fs' same
        cases same
        simp
      · rw [if_neg root]
        refine ⟨⟨?_, fun _ _ same => by cases same⟩, fun _ _ same => by cases same⟩
        intro isReady
        have zero : file = 0 := by
          by_contra other
          exact root ⟨isReady, by omega⟩
        rw [zero]
        rfl

theorem fsRead (h : Unused ready num fs) (file offset count : Nat) :
    ∃ fs', fsRead fs file offset count = (none, fs') ∧ Unused ready num fs' := by
  rw [Snfs.fsRead]
  split
  · exact ⟨fs, rfl, h⟩
  cases h.openInode file with
  | inl missed => exact ⟨fs, by rw [missed.1], h⟩
  | inr opened =>
      obtain ⟨p, fs₁, opened, -, copy, h₁⟩ := opened
      rw [opened]
      dsimp only
      rw [copy, if_pos (tab_not_file file)]
      exact ⟨fs₁, rfl, h₁⟩

theorem fsWrite (h : Unused ready num fs) (file offset : Nat) (data : List UInt8) :
    ∃ fs', fsWrite fs file offset data = (false, fs') ∧ Unused ready num fs' := by
  rw [Snfs.fsWrite]
  split
  · exact ⟨fs, rfl, h⟩
  cases h.openInode file with
  | inl missed => exact ⟨fs, by rw [missed.1], h⟩
  | inr opened =>
      obtain ⟨p, fs₁, opened, -, copy, h₁⟩ := opened
      rw [opened]
      dsimp only
      rw [copy, if_pos (tab_not_file file)]
      exact ⟨fs₁, rfl, h₁⟩

theorem fsReaddir (h : Unused ready num fs) (dir : Nat) (maxentries : Int) :
    Stays ready num (some (if dir = 1 ∧ 0 ≤ maxentries then some [] else none))
      (some (fsReaddir fs dir maxentries)) := by
  rw [Snfs.fsReaddir]
  by_cases refused : itabSize ≤ dir ∨ maxentries < 0
  · rw [if_pos refused]
    have refused : 64 ≤ dir ∨ maxentries < 0 := refused
    rw [if_neg (by omega)]
    exact h.stays none
  rw [if_neg refused]
  cases h.openInode dir with
  | inl missed =>
      obtain ⟨missed, past⟩ := missed
      rw [missed]
      refine ⟨?_, ?_⟩
      · intro isReady
        have past := past isReady
        rw [if_neg (by omega)]
        rfl
      · intro b fs' same
        cases same
        exact h
  | inr opened =>
      obtain ⟨p, fs₁, opened, few, copy, h₁⟩ := opened
      have size : (emptyTab ready dir).size / dentrySize = 0 := Nat.zero_div dentrySize
      rw [opened]
      dsimp only
      rw [copy, type_tab, size, Nat.zero_min]
      by_cases root : ready = true ∧ dir = 1
      · have asked : dir = 1 ∧ 0 ≤ maxentries := ⟨root.2, by omega⟩
        rw [if_pos asked, if_pos root]
        exact h₁.stays (some [])
      · rw [if_neg root]
        refine ⟨?_, ?_⟩
        · intro isReady
          rw [if_neg (c := dir = 1 ∧ _) fun asked => root ⟨isReady, asked.1⟩]
          rfl
        · intro b fs' same
          cases same
          exact h₁

/-- A creation fails, or takes the first inode and a block. -/
theorem fsMake (h : Unused ready num fs) (type : Itype) (dir : Nat) (name : CString) :
    fsMake type fs dir name = (none, fs) ∨
      (num ≠ 10 ∧ Populated (Snfs.fsMake type fs dir name).2) := by
  cases fsMake_cases type fs dir name with
  | inl failed =>
      obtain ⟨fs₁, made, searched⟩ := failed
      cases searched with
      | inl same => exact .inl (by rw [made, same])
      | inr searched =>
          obtain ⟨ok, same⟩ := searched
          have root := h.type_root.mp ok.isDir
          rw [root.2, h.search] at same
          exact .inl (by rw [made, same])
  | inr added =>
      obtain ⟨fs₁, finode, idir, bmap, ok, search, free, grown, made⟩ := added
      have root := h.type_root.mp ok.isDir
      rw [root.2, h.search] at search
      cases search
      obtain ⟨inside, clear, -⟩ := findFree_spec free
      have unused : 2 ≤ finode := by
        rw [h.inodeBmap, root.1, Bool.true_and] at clear
        exact Nat.not_lt.mp (of_decide_eq_false clear)
      refine .inr ⟨?_, finode, inside, unused, ?_⟩
      · have full : (fs.inodeTab dir).size % blockSize = 0 := by
          rw [h.inodeTab]
          exact Nat.zero_mod blockSize
        rw [growDir, if_pos full] at grown
        obtain ⟨b, found, -⟩ := Option.map_eq_some_iff.mp grown
        obtain ⟨lt, clear, -⟩ := findFree_spec found
        rw [h.blkBmap, root.1, Bool.true_and] at clear
        have low := of_decide_eq_false clear
        rw [h.numBlocks] at lt
        omega
      · have bit : finode < bmapBits := Nat.lt_trans inside (by decide)
        have marked : bmapIsset (bmapSet fs.inodeBmap finode) finode = true := by
          rw [bmapIsset_set bit, decide_eq_true rfl, Bool.or_true]
        rw [made]
        exact marked

theorem fsCopy (h : Unused ready num fs) (srcJunk dirJunk : Nat) (srcpath tgtpath : CString) :
    Stays ready num (emptyCopy srcJunk srcpath) (fsCopy fs srcJunk dirJunk srcpath tgtpath) := by
  have failed {fs' : Fs} (h' : Unused ready num fs')
      (other : ready = true → ¬ (0 < emptyLookup true srcpath ∧ srcJunk = 0)) :
      Stays ready num (emptyCopy srcJunk srcpath) (some (false, fs')) := by
    refine ⟨fun isReady => ?_, (h'.stays false).2⟩
    rw [emptyCopy, if_neg (other isReady)]
    rfl
  rw [Snfs.fsCopy, copyPaths, h.fsLookup]
  dsimp only
  by_cases missed : emptyLookup ready srcpath ≤ 0
  · rw [if_pos missed]
    refine failed h ?_
    intro isReady found
    rw [isReady] at missed
    omega
  rw [if_neg missed, Option.getD_none]
  obtain ⟨stays, notFile⟩ := h.fsGetAttrs srcJunk
  cases result : Snfs.fsGetAttrs fs srcJunk with
  | none =>
      refine ⟨?_, fun _ _ same => by cases same⟩
      intro isReady
      have ended := stays.1 isReady
      rw [result] at ended
      have zero : srcJunk = 0 := by
        cases srcJunk with
        | zero => rfl
        | succ n => cases n <;> cases ended
      rw [isReady] at missed
      rw [emptyCopy, if_pos ⟨by omega, zero⟩]
      rfl
  | some pair =>
      obtain ⟨attrs, fs₁⟩ := pair
      rw [result] at stays
      have h₁ := stays.2 attrs fs₁ rfl
      have number : ready = true → ¬ (0 < emptyLookup true srcpath ∧ srcJunk = 0) := by
        intro isReady found
        have ended := stays.1 isReady
        rw [found.2] at ended
        cases ended
      cases attrs with
      | none => exact failed h₁ number
      | some attrs =>
          dsimp only
          rw [if_pos (notFile attrs fs₁ result)]
          exact failed h₁ number

/-- One call: it changes nothing, or it creates something. -/
theorem step (h : Unused ready num fs) (op : FsOp) :
    Stays ready num (emptyResult op) (fsStep fs op) ∨
      (num ≠ 10 ∧ ∃ res fs', fsStep fs op = some (res, fs') ∧ Populated fs') := by
  have make (type : Itype) (dir : Nat) (name : CString) :
      Stays ready num (some (FsResult.made none)) (some (FsResult.made
        (Snfs.fsMake type fs dir name).1, (Snfs.fsMake type fs dir name).2)) ∨
      (num ≠ 10 ∧ Populated (Snfs.fsMake type fs dir name).2) := by
    cases h.fsMake type dir name with
    | inl failed =>
        rw [failed]
        exact .inl (h.stays _)
    | inr made => exact .inr made
  cases op with
  | lookup path =>
      rw [fsStep, h.fsLookup]
      refine .inl ⟨?_, (h.stays _).2⟩
      intro isReady
      rw [isReady]
      rfl
  | getAttrs file => exact .inl ((h.fsGetAttrs file).1.map _)
  | read file offset count =>
      obtain ⟨fs', read, h'⟩ := h.fsRead file offset count
      rw [fsStep, read]
      exact .inl (h'.stays _)
  | write file offset data =>
      obtain ⟨fs', written, h'⟩ := h.fsWrite file offset data
      rw [fsStep, written]
      exact .inl (h'.stays _)
  | create dir name =>
      exact (make .file dir name).imp_right fun made => ⟨made.1, _, _, rfl, made.2⟩
  | mkdir dir name =>
      exact (make .dir dir name).imp_right fun made => ⟨made.1, _, _, rfl, made.2⟩
  | readdir dir maxentries => exact .inl ((h.fsReaddir dir maxentries).map _)
  | copy srcJunk dirJunk srcpath tgtpath =>
      exact .inl ((h.fsCopy srcJunk dirJunk srcpath tgtpath).map _)

end Unused

theorem Populated.step {fs fs' : Fs} {op : DiskOp} {res : DiskResult} (populated : Populated fs)
    (next : diskStep fs op = some (res, fs')) : Populated fs' := by
  obtain ⟨a, lt, unreserved, set⟩ := populated
  refine ⟨a, lt, unreserved, ?_⟩
  cases op with
  | format =>
      cases next
      exact bmapIsset_set_mono 1 (bmapIsset_set_mono 0 set)
  | call op =>
      obtain ⟨⟨res, s⟩, called, same⟩ := Option.map_eq_some_iff.mp next
      cases same
      exact (MarksKept.fsStep called).inodeBmap a set

theorem Unused.diskStep {ready : Bool} {num : Nat} {fs fs' : Fs} {op : DiskOp} {res : DiskResult}
    (fits : num * blockSize < 2 ^ 32) (h : Unused ready num fs)
    (next : diskStep fs op = some (res, fs')) :
    (∃ ready, Unused ready num fs') ∨ Populated fs' := by
  cases op with
  | format =>
      cases next
      exact .inl ⟨true, h.format fits⟩
  | call op =>
      obtain ⟨⟨res, s⟩, called, same⟩ := Option.map_eq_some_iff.mp next
      cases same
      cases h.step op with
      | inl stays => exact .inl ⟨ready, stays.2 res fs' called⟩
      | inr created =>
          obtain ⟨-, res', s', made, populated⟩ := created
          rw [called] at made
          cases made
          exact .inr populated

/-- In a run, a file system is unused until something is created. -/
theorem DiskRun.unused {num : Nat} {clock : Nat → Int} {trace : List (DiskOp × DiskResult)}
    {fs : Fs}
    (fits : num * blockSize < 2 ^ 32) (run : DiskRun num clock trace fs) :
    (∃ ready, Unused ready num fs) ∨ Populated fs := by
  obtain ⟨new, made, run⟩ := run
  refine run.invariant (I := fun s => (∃ ready, Unused ready num s) ∨ Populated s)
    (.inl ⟨false, (fsNew_unused made).1⟩) ?_
  intro s e s' here next
  cases here with
  | inl unused => exact unused.choose_spec.diskStep fits next
  | inr populated => exact .inr (populated.step next)

/-- On ten blocks nothing can be created, so what two unused file systems return is the same. -/
theorem unused_simulates (fits : 10 * blockSize < 2 ^ 32) :
    Simulates diskStep diskStep (fun s t => Unused true 10 s ∧ Unused true 10 t)
      fun _ _ => True := by
  intro s t op unused _
  obtain ⟨first, second⟩ := unused
  cases op with
  | format => exact .some ⟨rfl, first.format fits, second.format fits⟩
  | call op =>
      have first := (first.step op).resolve_right fun made => made.1 rfl
      have second := (second.step op).resolve_right fun made => made.1 rfl
      have same := (first.1 rfl).trans (second.1 rfl).symm
      rw [diskStep, diskStep]
      generalize fsStep s op = x at first same
      generalize fsStep t op = y at second same
      cases x with
      | none =>
          cases y with
          | none => exact .none
          | some _ => cases same
      | some x =>
          cases y with
          | none => cases same
          | some y =>
              refine .some ⟨?_, first.2 _ _ rfl, second.2 _ _ rfl⟩
              exact congrArg DiskResult.called (Option.some.inj same)

def Fs.withInodes (fs : Fs) (cache : Table inodeCacheSize Nat Inode) : Fs :=
  { fs with inodeCache := cache }

/-- A step that neither looks at the inode cache nor changes it. -/
def IgnoresInodes {β : Type} (f : Fs → β × Fs) : Prop :=
  ∀ fs cache, f (fs.withInodes cache) = ((f fs).1, (f fs).2.withInodes cache)

private theorem addEntry_withInodes (fs : Fs) (cache : Table inodeCacheSize Nat Inode)
    (type : Itype)
    (dir : Nat) (idir : Inode) (bmap : Block) (file : CString) (finode : Nat) :
    addEntry type (fs.withInodes cache) dir idir bmap file finode =
      (addEntry type fs dir idir bmap file finode).withInodes cache := by
  simp only [addEntry, fsiStoreFsdata, Fs.withInodes]

private theorem fsFormat_withInodes (fs : Fs) (cache : Table inodeCacheSize Nat Inode) :
    fsFormat (fs.withInodes cache) = (fsFormat fs).withInodes cache := by
  simp only [fsFormat, fsiStoreFsdata, Fs.withInodes, Fs.numBlocks]

private theorem loadDirPage_withInodes (fs : Fs) (cache : Table inodeCacheSize Nat Inode)
    (dir b : Nat) :
    loadDirPage (fs.withInodes cache) dir b =
      (loadDirPage fs dir b).map fun (page, fs) => (page, fs.withInodes cache) := by
  have slot : findDirSlot (fs.withInodes cache) (fun e => e.dirNum == dir && e.blockNum == b) =
      findDirSlot fs fun e => e.dirNum == dir && e.blockNum == b := rfl
  have device : (fs.withInodes cache).blocks = fs.blocks := rfl
  rw [loadDirPage, loadDirPage, slot, device]
  cases findDirSlot fs fun e => e.dirNum == dir && e.blockNum == b with
  | some s => rfl
  | none =>
      cases blockRead fs.blocks b with
      | none => rfl
      | some page => rfl

private theorem patchCached_withInodes (fs : Fs) (cache : Table inodeCacheSize Nat Inode)
    (cachedDir : Option (Fin dirCacheSize)) (page : Block) (i : Nat) :
    patchCached (fs.withInodes cache) cachedDir page i =
      (patchCached fs cachedDir page i).withInodes cache := by
  cases cachedDir with
  | none => rfl
  | some s =>
      have slot : (fs.withInodes cache).dirCache = fs.dirCache := rfl
      rw [patchCached, patchCached, slot]
      split <;> rfl

private theorem searchPages_ignores (dir : Nat) (file : CString)
    (cachedDir : Option (Fin dirCacheSize))
    (fuel iblock num : Nat) : IgnoresInodes (searchPages dir file cachedDir fuel iblock num) := by
  intro fs cache
  induction fuel generalizing iblock num fs with
  | zero => rfl
  | succ fuel ih =>
      have tab : (fs.withInodes cache).inodeTab = fs.inodeTab := rfl
      rw [searchPages, searchPages, tab, loadDirPage_withInodes]
      split
      · rfl
      · cases loadDirPage fs dir ((fs.inodeTab dir).blocks iblock) with
        | none => rfl
        | some loaded =>
            obtain ⟨page, fs₁⟩ := loaded
            rw [Option.map_some]
            dsimp only
            split
            · rw [patchCached_withInodes]
            · exact ih (iblock + 1) (num - dirPageEntries) fs₁

private theorem fsiDirSearch_ignores (dir : Nat) (file : CString) :
    IgnoresInodes fun fs => fsiDirSearch fs dir file := by
  intro fs cache
  have slot : findDirSlot (fs.withInodes cache) (fun e => e.dirNum == dir) =
      findDirSlot fs fun e => e.dirNum == dir := rfl
  have tab : (fs.withInodes cache).inodeTab = fs.inodeTab := rfl
  dsimp only
  rw [fsiDirSearch, fsiDirSearch]
  dsimp only
  rw [slot, tab]
  cases findDirSlot fs fun e => e.dirNum == dir with
  | none => exact searchPages_ignores dir file none _ 0 _ fs cache
  | some s =>
      have touched : (fs.withInodes cache).touchDir s = (fs.touchDir s).withInodes cache := rfl
      have entry : ((fs.touchDir s).withInodes cache).dirCache = (fs.touchDir s).dirCache := rfl
      dsimp only
      rw [touched, entry]
      split
      · rfl
      · exact searchPages_ignores dir file (some s) _ 0 _ (fs.touchDir s) cache

private theorem lookupFrom_ignores (dir : Nat) (id : Option Nat) (tokens : List CString) :
    IgnoresInodes (lookupFrom dir id tokens) := by
  intro fs cache
  induction tokens generalizing dir id fs with
  | nil => rfl
  | cons token rest ih =>
      have bmap : (fs.withInodes cache).inodeBmap = fs.inodeBmap := rfl
      have tab : (fs.withInodes cache).inodeTab = fs.inodeTab := rfl
      have search := fsiDirSearch_ignores dir token fs cache
      dsimp only at search
      rw [lookupFrom, lookupFrom, bmap, tab, search]
      split
      · rfl
      split
      · rfl
      cases fsiDirSearch fs dir token with
      | mk found fs₁ =>
          cases found with
          | none => rfl
          | some fid => exact ih fid (some fid) fs₁

private theorem fsLookup_ignores (path : CString) : IgnoresInodes fun fs => fsLookup fs path := by
  intro fs cache
  dsimp only
  rw [fsLookup, fsLookup]
  split
  · rfl
  · exact lookupFrom_ignores 1 none (components path) fs cache

private theorem fsMake_ignores (type : Itype) (dir : Nat) (name : CString) :
    IgnoresInodes fun fs => fsMake type fs dir name := by
  intro fs cache
  have bmap : (fs.withInodes cache).inodeBmap = fs.inodeBmap := rfl
  have tab : (fs.withInodes cache).inodeTab = fs.inodeTab := rfl
  have search := fsiDirSearch_ignores dir name fs cache
  dsimp only at search ⊢
  rw [fsMake, fsMake, bmap, tab, search]
  split
  · rfl
  split
  · rfl
  split
  · rfl
  split
  · rfl
  cases fsiDirSearch fs dir name with
  | mk found fs₁ =>
      cases found with
      | some id => rfl
      | none =>
          have bmap : (fs₁.withInodes cache).inodeBmap = fs₁.inodeBmap := rfl
          have grow : growDir (fs₁.withInodes cache) ((fs₁.withInodes cache).inodeTab dir) =
              growDir fs₁ (fs₁.inodeTab dir) := rfl
          dsimp only
          rw [bmap, grow]
          cases fsiBmapFindFree fs₁.inodeBmap itabSize with
          | none => rfl
          | some finode =>
              cases growDir fs₁ (fs₁.inodeTab dir) with
              | none => rfl
              | some grown =>
                  dsimp only
                  rw [addEntry_withInodes]

/-- The two differ in the time of a first slot that is still the oldest. -/
def Aged (s t : Fs) : Prop :=
  t.inodeCache = clearedInodes ∧ ∃ time, time ≤ 0 ∧ s = t.withInodes (clearedInodes.touch 0 time)

def SameOrAged (s t : Fs) : Prop := s = t ∨ Aged s t

def SameEnd {β : Type} (x y : β × Fs) : Prop := x.1 = y.1 ∧ SameOrAged x.2 y.2

theorem sameEnd_refl {β : Type} (o : Option (β × Fs)) : Option.Rel SameEnd o o := by
  cases o with
  | none => exact .none
  | some x => exact .some ⟨rfl, .inl rfl⟩

theorem sameEnd_map {β γ : Type} {x y : Option (β × Fs)} (f : β → γ) (h : Option.Rel SameEnd x y) :
    Option.Rel SameEnd (x.map fun (b, fs) => (f b, fs)) (y.map fun (b, fs) => (f b, fs)) := by
  cases h with
  | none => exact .none
  | some same => exact .some ⟨congrArg f same.1, same.2⟩

namespace Aged

variable {s t : Fs}

theorem ignores {β : Type} {f : Fs → β × Fs} (h : Aged s t) (ignores : IgnoresInodes f) :
    (f s).1 = (f t).1 ∧ Aged (f s).2 (f t).2 := by
  obtain ⟨cleared, time, old, same⟩ := h
  have kept : (f t).2.inodeCache = t.inodeCache :=
    congrArg (fun x : β × Fs => x.2.inodeCache) (ignores t t.inodeCache)
  rw [same, ignores]
  exact ⟨rfl, kept.trans cleared, time, old, rfl⟩

theorem openInode (h : Aged s t) (a : Nat) : openInode s a = openInode t a := by
  obtain ⟨cleared, time, old, same⟩ := h
  have find : s.inodeCache.find? a = t.inodeCache.find? a := by
    rw [same, cleared]
    exact Table.find_congr (Table.touch_key clearedInodes 0 time) a
  have bmap : s.inodeBmap = t.inodeBmap := by rw [same]; rfl
  rw [Snfs.openInode, Snfs.openInode, findInodeInCache, findInodeInCache, find, bmap]
  cases found : t.inodeCache.find? a with
  | some i =>
      have first : i = 0 := by
        rw [cleared] at found
        obtain ⟨here, least⟩ := Fin.find?_eq_some_iff.mp found
        by_contra later
        have before := least 0 (Fin.pos_of_ne_zero later)
        exact absurd here (by rw [show (clearedInodes i).key = (clearedInodes 0).key from rfl, before]; simp)
      have touched : s.touchInode 0 = t.touchInode 0 := by
        have cache : (clearedInodes.touch 0 time).touch 0 t.now = clearedInodes.touch 0 t.now :=
          Table.touch_touch _ _ _ _
        rw [same, Fs.touchInode, Fs.touchInode, cleared]
        simp only [Fs.withInodes, Fs.now, Fs.tick] at cache ⊢
        rw [cache]
      dsimp only
      rw [first, touched]
  | none =>
      have added : addInodeToCache s a false = addInodeToCache t a false := by
        have oldest_s : (oldest fun i => ((clearedInodes.touch 0 time) i).lastAccess) = 0 := by
          apply oldest_eq_zero
          intro i
          by_cases first : i = 0
          · rw [first]
          · rw [Table.touch, Function.update_self, Function.update_of_ne first]
            exact old
        have oldest_t : (oldest fun i => (clearedInodes i).lastAccess) = 0 :=
          oldest_eq_zero fun i => Int.le_refl 0
        rw [same, addInodeToCache, addInodeToCache, cleared]
        simp only [Fs.withInodes]
        rw [oldest_s, oldest_t, addInodeAt, addInodeAt, Table.evict_of_clean, Table.evict_of_clean]
        · simp only [Fs.tick, Fs.now, Table.place_touch, cleared]
        · rw [cleared]
          rfl
        · exact Table.touch_dirty clearedInodes 0 time 0
      dsimp only
      rw [added]

theorem fsGetAttrs (h : Aged s t) (file : Nat) :
    fsGetAttrs s file = fsGetAttrs t file ∨
      (fsGetAttrs s file = some (none, s) ∧ fsGetAttrs t file = some (none, t)) := by
  rw [Snfs.fsGetAttrs, Snfs.fsGetAttrs, h.openInode]
  split
  · exact .inr ⟨rfl, rfl⟩
  cases Snfs.openInode t file with
  | none => exact .inr ⟨rfl, rfl⟩
  | some opened => exact .inl rfl

theorem fsRead (h : Aged s t) (file offset count : Nat) :
    SameEnd (fsRead s file offset count) (fsRead t file offset count) := by
  rw [Snfs.fsRead, Snfs.fsRead, h.openInode]
  split
  · exact ⟨rfl, .inr h⟩
  cases Snfs.openInode t file with
  | none => exact ⟨rfl, .inr h⟩
  | some opened => exact ⟨rfl, .inl rfl⟩

theorem fsWrite (h : Aged s t) (file offset : Nat) (data : List UInt8) :
    SameEnd (fsWrite s file offset data) (fsWrite t file offset data) := by
  rw [Snfs.fsWrite, Snfs.fsWrite, h.openInode]
  split
  · exact ⟨rfl, .inr h⟩
  cases Snfs.openInode t file with
  | none => exact ⟨rfl, .inr h⟩
  | some opened => exact ⟨rfl, .inl rfl⟩

theorem fsReaddir (h : Aged s t) (dir : Nat) (maxentries : Int) :
    SameEnd (fsReaddir s dir maxentries) (fsReaddir t dir maxentries) := by
  rw [Snfs.fsReaddir, Snfs.fsReaddir, h.openInode]
  split
  · exact ⟨rfl, .inr h⟩
  cases Snfs.openInode t dir with
  | none => exact ⟨rfl, .inr h⟩
  | some opened => exact ⟨rfl, .inl rfl⟩

theorem fsCopy (h : Aged s t) (srcJunk dirJunk : Nat) (srcpath tgtpath : CString) :
    Option.Rel SameEnd (fsCopy s srcJunk dirJunk srcpath tgtpath)
      (fsCopy t srcJunk dirJunk srcpath tgtpath) := by
  obtain ⟨code, looked⟩ := h.ignores (fsLookup_ignores srcpath)
  rw [Snfs.fsCopy, Snfs.fsCopy, copyPaths, copyPaths]
  generalize fsLookup s srcpath = x at code looked ⊢
  generalize fsLookup t srcpath = y at code looked ⊢
  obtain ⟨⟨found, id⟩, s₁⟩ := x
  obtain ⟨_, t₁⟩ := y
  cases code
  dsimp only at looked ⊢
  by_cases missed : found ≤ 0
  · rw [if_pos missed, if_pos missed]
    exact .some ⟨rfl, .inr looked⟩
  rw [if_neg missed, if_neg missed]
  cases looked.fsGetAttrs (id.getD srcJunk) with
  | inl same =>
      rw [same]
      exact sameEnd_refl _
  | inr missed =>
      rw [missed.1, missed.2]
      exact .some ⟨rfl, .inr looked⟩

theorem fsStep (h : Aged s t) (op : FsOp) : Option.Rel SameEnd (fsStep s op) (fsStep t op) := by
  have ignores {β : Type} {f : Fs → β × Fs} (ignores : IgnoresInodes f) :
      Option.Rel SameEnd (some (f s)) (some (f t)) := by
    have ends := h.ignores ignores
    exact .some ⟨ends.1, .inr ends.2⟩
  cases op with
  | lookup path =>
      exact sameEnd_map (fun x : Int × Option Nat => FsResult.looked x.1 x.2)
        (ignores (fsLookup_ignores path))
  | getAttrs file =>
      have ends : Option.Rel SameEnd (Snfs.fsGetAttrs s file) (Snfs.fsGetAttrs t file) := by
        cases h.fsGetAttrs file with
        | inl same =>
            rw [same]
            exact sameEnd_refl _
        | inr missed =>
            rw [missed.1, missed.2]
            exact .some ⟨rfl, .inr h⟩
      exact sameEnd_map FsResult.attrs ends
  | read file offset count => exact sameEnd_map FsResult.data (.some (h.fsRead file offset count))
  | write file offset data =>
      exact sameEnd_map FsResult.written (.some (h.fsWrite file offset data))
  | create dir name => exact sameEnd_map FsResult.made (ignores (fsMake_ignores .file dir name))
  | mkdir dir name => exact sameEnd_map FsResult.made (ignores (fsMake_ignores .dir dir name))
  | readdir dir maxentries =>
      exact sameEnd_map FsResult.listed (.some (h.fsReaddir dir maxentries))
  | copy srcJunk dirJunk srcpath tgtpath =>
      exact sameEnd_map FsResult.copied (h.fsCopy srcJunk dirJunk srcpath tgtpath)

end Aged

private theorem aged_simulates : Simulates diskStep diskStep SameOrAged fun _ _ => True := by
  intro s t op related _
  cases related with
  | inl same =>
      rw [same]
      exact sameEnd_refl _
  | inr aged =>
      cases op with
      | format =>
          have ignores : IgnoresInodes fun fs => (DiskResult.formatted, fsFormat fs) := by
            intro fs cache
            dsimp only
            rw [fsFormat_withInodes]
          have ends := aged.ignores ignores
          exact .some ⟨rfl, .inr ends.2⟩
      | call op => exact sameEnd_map DiskResult.called (aged.fsStep op)

/-- Where nothing was created and the inode cache was not used, or there is no room to create
anything, `fs_format` leaves an empty file system. -/
theorem format_empties {num : Nat} {clock : Nat → Int} {trace : List (DiskOp × DiskResult)}
    {fs : Fs}
    (fits : num * blockSize < 2 ^ 32) (run : DiskRun num clock trace fs) (never : NeverUsed fs) :
    FormatEmpties fs := by
  have nothing : ¬ Populated fs := by
    intro populated
    obtain ⟨a, lt, unreserved, set⟩ := populated
    rw [never.1 a lt unreserved] at set
    cases set
  obtain ⟨ready, unused⟩ := (run.unused fits).resolve_right nothing
  have formatted := unused.format fits
  refine ⟨?_, ?_, ?_, ?_, ?_⟩
  · have none : (fsFormat fs).inodeTab 1 = fsiInodeInit .dir := by
      rw [formatted.inodeTab]
      rfl
    simp [dirEntries, numEntries, none, fsiInodeInit]
  · intro path absolute named
    rw [formatted.fsLookup, emptyLookup, if_neg (not_not.mpr absolute), if_neg named]
    rfl
  · intro a _ unreserved
    rw [formatted.inodeBmap, Bool.true_and]
    exact decide_eq_false (Nat.not_lt.mpr unreserved)
  · intro b _ unreserved
    rw [formatted.blkBmap, Bool.true_and]
    exact decide_eq_false (Nat.not_lt.mpr unreserved)
  · intro later boot started ops
    rw [unused.numBlocks] at started
    have first : { fsFormat fs with clock := later } = formattedFs num fs.inodeCache later := by
      rw [unused.fsFormat fits]
      simp only [formattedFs, fsiStoreFsdata]
    have boot_unused := fsBoot_unused fits started
    rw [first]
    rw [fsBoot_eq fits started] at boot_unused ⊢
    have cleared : (formattedFs num clearedInodes later).inodeCache = clearedInodes := by
      rw [formattedFs, fsiStoreFsdata]
    cases never.2 with
    | inl ten =>
        rw [unused.numBlocks] at ten
        subst ten
        exact (unused_simulates fits).results ⟨unused.formatted fits later, boot_unused⟩ ops
    | inr fresh =>
        have aged : Aged (formattedFs num fs.inodeCache later)
            (formattedFs num clearedInodes later) := by
          refine ⟨cleared, (fs.inodeCache 0).lastAccess, fresh.2, ?_⟩
          rw [← unused.inodeCache_eq fresh.1]
          simp only [formattedFs, fsiStoreFsdata, Fs.withInodes]
        exact aged_simulates.results (.inr aged) ops

/-- A second format of a device on which a path was looked up and a name refused. -/
theorem format_empties_again :
    ∃ trace fs, diskAfter 16 (fun _ => 1)
        [.call (.lookup [47, 97]), .format, .call (.lookup [47, 97]), .call (.mkdir 1 [])] =
          some (trace, fs) ∧ FormatEmpties fs := by
  have never : (diskAfter 16 (fun _ => 1)
      [.call (.lookup [47, 97]), .format, .call (.lookup [47, 97]), .call (.mkdir 1 [])]).map
        (fun r => decide (NeverUsed r.2)) = some true := by decide +kernel
  obtain ⟨⟨trace, fs⟩, calls, never⟩ := Option.map_eq_some_iff.mp never
  exact ⟨trace, fs, calls, format_empties (by decide) (.of_calls calls) (of_decide_eq_true never)⟩

/-- A file is made, the device is formatted, and inode 2 is still marked. -/
theorem format_keeps_mark :
    ¬ ∀ num clock, 10 ≤ num → num * blockSize < 2 ^ 32 →
      (∀ k, 0 < clock k ∧ clock k ≤ clock (k + 1)) → ∀ trace fs, DiskRun num clock trace fs →
        FormatEmpties fs := by
  intro empties
  have marked : (diskAfter 16 (fun _ => 1) [.format, .call (.create 1 [102])]).map
      (fun r => decide (bmapIsset (fsFormat r.2).inodeBmap 2 = true)) = some true := by
    decide +kernel
  obtain ⟨⟨trace, fs⟩, calls, marked⟩ := Option.map_eq_some_iff.mp marked
  have empty := empties 16 (fun _ => 1) (by decide) (by decide) (fun _ => by decide) trace fs
    (.of_calls calls)
  have free := empty.inodes 2 (by decide) (Nat.le_refl 2)
  rw [of_decide_eq_true marked] at free
  cases free

end Snfs
