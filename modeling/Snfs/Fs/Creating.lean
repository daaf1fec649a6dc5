import Snfs.Fs.Reachable

/-!
Two calls of `fs_create` or `fs_mkdir` at a time, made by two worker threads. No
lock is held across the steps of such a call: the search of the directory, the
choice of an inode, the choice and marking of a block, the reading and the
writing of the page, the update of the size, the marking of the inode and the
storing of the metadata. Each is one step here, and the steps of the two calls
come in any order. A call that is alone does what `fsMake` does.

An inode is in use from its marking on, so the calls get different inodes exactly
if one has marked its inode before the other chooses; then they work one after
the other.
-/

namespace Snfs

open Runs

structure MakeCall where
  type : Itype
  dir : Nat
  name : CString
  made : type = .dir ∨ type = .file

/-- How far a call has come, with the values of its local variables; `block` is the block it has
given to the directory, if it needed one. -/
inductive Phase where
  | start
  | searched
  | chosen (finode : Nat)
  | placed (finode : Nat) (block : Option Nat)
  | read (finode : Nat) (block : Option Nat) (page : Block)
  | written (finode : Nat) (block : Option Nat)
  | sized (finode : Nat) (block : Option Nat)
  | marked (finode : Nat) (block : Option Nat)
  | returned (fileid block : Option Nat)

/-- The block for the next entry, if the directory's pages are full. `none` is a full device. -/
def placeBlock (fs : Fs) (dir : Nat) : Option (Option Nat × Fs) :=
  let idir := fs.inodeTab dir
  if idir.size % blockSize = 0 then
    (fsiBmapFindFree fs.blkBmap fs.numBlocks).map fun fblock =>
      (some fblock, { fs with
        blkBmap := bmapSet fs.blkBmap fblock
        inodeTab := Function.update fs.inodeTab dir
          (idir.setBlock (idir.size / blockSize) fblock) })
  else some (none, fs)

def lastBlock (fs : Fs) (dir : Nat) : Nat :=
  (fs.inodeTab dir).blocks ((fs.inodeTab dir).size / blockSize)

def readPage (fs : Fs) (dir : Nat) : Block := (blockRead fs.blocks (lastBlock fs dir)).getD .zero

def writePage (fs : Fs) (dir : Nat) (page : Block) (name : CString) (finode : Nat) : Fs :=
  { fs with
    blocks := blockWrite fs.blocks (lastBlock fs dir)
      (setEntry page ((fs.inodeTab dir).size % blockSize / dentrySize) name finode) }

def growSize (fs : Fs) (dir : Nat) : Fs :=
  { fs with
    inodeTab := Function.update fs.inodeTab dir
      { fs.inodeTab dir with size := u32 ((fs.inodeTab dir).size + dentrySize) } }

def markInode (type : Itype) (fs : Fs) (finode : Nat) : Fs :=
  { fs with
    inodeBmap := bmapSet fs.inodeBmap finode
    inodeTab := Function.update fs.inodeTab finode (fsiInodeInit type) }

def makeStep (call : MakeCall) (fs : Fs) : Phase → Option (Phase × Fs)
  | .start =>
    if itabSize ≤ call.dir then some (.returned none none, fs)
    else if call.name.length = 0 ∨ fsMaxFnameSz < call.name.length + 1 then
      some (.returned none none, fs)
    else if !bmapIsset fs.inodeBmap call.dir then some (.returned none none, fs)
    else if (fs.inodeTab call.dir).type ≠ .dir then some (.returned none none, fs)
    else
      match fsiDirSearch fs call.dir call.name with
      | (some _, fs) => some (.returned none none, fs)
      | (none, fs) => some (.searched, fs)
  | .searched =>
    match fsiBmapFindFree fs.inodeBmap itabSize with
    | none => some (.returned none none, fs)
    | some finode => some (.chosen finode, fs)
  | .chosen finode =>
    match placeBlock fs call.dir with
    | none => some (.returned none none, fs)
    | some (block, fs) => some (.placed finode block, fs)
  | .placed finode block => some (.read finode block (readPage fs call.dir), fs)
  | .read finode block page =>
      some (.written finode block, writePage fs call.dir page call.name finode)
  | .written finode block => some (.sized finode block, growSize fs call.dir)
  | .sized finode block => some (.marked finode block, markInode call.type fs finode)
  | .marked finode block => some (.returned (some finode) block, fsiStoreFsdata fs)
  | .returned _ _ => none

structure Makers where
  fs : Fs
  phase : Bool → Phase

def makersStep (calls : Bool → MakeCall) (s : Makers) (t : Bool) : Option (Phase × Makers) :=
  (makeStep (calls t) s.fs (s.phase t)).map fun (phase, fs) =>
    (phase, ⟨fs, Function.update s.phase t phase⟩)

def placedFs (fs : Fs) (dir : Nat) (idir : Inode) (blkBmap : Block) : Fs :=
  { fs with blkBmap := blkBmap, inodeTab := Function.update fs.inodeTab dir idir }

/-- What the steps up to the marking of the inode do together. -/
theorem addEntry_eq (type : Itype) (fs : Fs) (dir : Nat) (idir : Inode) (blkBmap : Block)
    (name : CString) (finode : Nat) :
    addEntry type fs dir idir blkBmap name finode =
      fsiStoreFsdata (markInode type (growSize (writePage (placedFs fs dir idir blkBmap) dir
        (readPage (placedFs fs dir idir blkBmap) dir) name finode) dir) finode) := by
  simp only [addEntry, markInode, growSize, writePage, readPage, lastBlock, placedFs,
    Function.update_self, Function.update_idem]

/-- The block is placed as `growDir` says; a new one was free. -/
theorem placeBlock_eq (fs : Fs) (dir : Nat) :
    (placeBlock fs dir = none ∧ growDir fs (fs.inodeTab dir) = none) ∨
    ∃ block idir blkBmap, placeBlock fs dir = some (block, placedFs fs dir idir blkBmap) ∧
      growDir fs (fs.inodeTab dir) = some (idir, blkBmap) ∧
      ∀ b, block = some b → fsiBmapFindFree fs.blkBmap fs.numBlocks = some b ∧
        blkBmap = bmapSet fs.blkBmap b := by
  rw [placeBlock, growDir]
  split
  · cases found : fsiBmapFindFree fs.blkBmap fs.numBlocks with
    | none => exact .inl ⟨rfl, rfl⟩
    | some b =>
        refine .inr ⟨some b, _, _, rfl, rfl, fun b' same => ?_⟩
        cases same
        exact ⟨rfl, rfl⟩
  · refine .inr ⟨none, fs.inodeTab dir, fs.blkBmap, ?_, rfl, by simp⟩
    rw [placedFs, Function.update_eq_self]

variable {calls : Bool → MakeCall} {phase : Bool → Phase} {t : Bool}

theorem step_alone {fs fs' : Fs} {p p' : Phase} (step : makeStep (calls t) fs p = some (p', fs')) :
    Next (makersStep calls) ⟨fs, Function.update phase t p⟩ (t, p')
      ⟨fs', Function.update phase t p'⟩ := by
  rw [Next, makersStep]
  simp only [Function.update_self, step, Option.map_some, Function.update_idem]

/-- A call that is alone ends as `fsMake` does. -/
theorem make_alone (calls : Bool → MakeCall) (fs : Fs) {phase : Bool → Phase} {t : Bool}
    (start : phase t = .start) :
    ∃ trace block, Run (Next (makersStep calls)) ⟨fs, phase⟩ trace
      ⟨(fsMake (calls t).type fs (calls t).dir (calls t).name).2, Function.update phase t
        (.returned (fsMake (calls t).type fs (calls t).dir (calls t).name).1 block)⟩ := by
  have first : (⟨fs, phase⟩ : Makers) = ⟨fs, Function.update phase t .start⟩ := by
    rw [← start, Function.update_eq_self]
  rw [first]
  generalize hcall : calls t = call
  have stop (fs' : Fs) (p : makeStep call fs .start = some (.returned none none, fs')) :
      ∃ trace block, Run (Next (makersStep calls)) ⟨fs, Function.update phase t .start⟩ trace
        ⟨fs', Function.update phase t (.returned none block)⟩ :=
    ⟨_, none, Run.nil.snoc (step_alone (by rw [hcall]; exact p))⟩
  rw [fsMake]
  split
  · rename_i out
    exact stop fs (by rw [makeStep, if_pos out])
  rename_i inside
  split
  · rename_i named
    exact stop fs (by rw [makeStep, if_neg inside, if_pos named])
  rename_i named
  split
  · rename_i unused
    exact stop fs (by rw [makeStep, if_neg inside, if_neg named, if_pos unused])
  rename_i used
  split
  · rename_i other
    exact stop fs (by rw [makeStep, if_neg inside, if_neg named, if_neg used, if_pos other])
  rename_i dir
  split
  · rename_i fs₁ found
    exact stop fs₁ (by
      rw [makeStep, if_neg inside, if_neg named, if_neg used, if_neg dir, found])
  rename_i fs₁ missed
  have searched : Run (Next (makersStep calls)) ⟨fs, Function.update phase t .start⟩
      [(t, .searched)] ⟨fs₁, Function.update phase t .searched⟩ :=
    Run.nil.snoc (step_alone (by
      rw [hcall, makeStep, if_neg inside, if_neg named, if_neg used, if_neg dir, missed]))
  split
  · rename_i full
    exact ⟨_, none, searched.snoc (step_alone (by rw [makeStep, full]))⟩
  rename_i finode found
  have choose : makeStep (calls t) fs₁ .searched = some (.chosen finode, fs₁) := by
    rw [makeStep, found]
  have chosen := searched.snoc (step_alone choose)
  rcases placeBlock_eq fs₁ call.dir with ⟨none, full⟩ | ⟨block, idir, blkBmap, placed, grow, -⟩
  · rw [full]
    exact ⟨_, Option.none, chosen.snoc (step_alone (by rw [makeStep, hcall, none]))⟩
  · rw [grow]
    dsimp only
    rw [addEntry_eq]
    refine ⟨_, block, ((((((chosen.snoc (step_alone (by rw [makeStep, hcall, placed]))).snoc
      (step_alone rfl)).snoc (step_alone rfl)).snoc (step_alone rfl)).snoc (step_alone rfl)).snoc
        (step_alone ?_))⟩
    rw [hcall]
    rfl

/-- What may differ does not matter to a creation: the directory cache, the clock and the blocks
of the metadata. -/
structure SameData (fs fs' : Fs) : Prop where
  numBlocks : fs'.numBlocks = fs.numBlocks
  inodeBmap : fs'.inodeBmap = fs.inodeBmap
  blkBmap : fs'.blkBmap = fs.blkBmap
  inodeTab : fs'.inodeTab = fs.inodeTab
  blockCache : fs'.blockCache = fs.blockCache
  inodeCache : fs'.inodeCache = fs.inodeCache
  content : ∀ b, 10 ≤ b → b < fs.numBlocks → fs'.blocks.content b = fs.blocks.content b

variable {own own' : Ledger} {top : Nat} {fs fs' fs'' fs₀ : Fs}

namespace SameData

theorem refl (fs : Fs) : SameData fs fs := ⟨rfl, rfl, rfl, rfl, rfl, rfl, fun _ _ _ => rfl⟩

theorem symm (h : SameData fs fs') : SameData fs' fs :=
  ⟨h.numBlocks.symm, h.inodeBmap.symm, h.blkBmap.symm, h.inodeTab.symm, h.blockCache.symm,
    h.inodeCache.symm, fun b data lt => (h.content b data (h.numBlocks ▸ lt)).symm⟩

theorem trans (h : SameData fs fs') (h' : SameData fs' fs'') : SameData fs fs'' :=
  ⟨h'.numBlocks.trans h.numBlocks, h'.inodeBmap.trans h.inodeBmap, h'.blkBmap.trans h.blkBmap,
    h'.inodeTab.trans h.inodeTab, h'.blockCache.trans h.blockCache,
    h'.inodeCache.trans h.inodeCache, fun b data lt =>
      (h'.content b data (h.numBlocks ▸ lt)).trans (h.content b data lt)⟩

private theorem of_sameButDirs (same : SameButDirs fs fs') : SameData fs fs' := by
  rw [same]
  exact ⟨rfl, rfl, rfl, rfl, rfl, rfl, fun _ _ _ => rfl⟩

theorem store (unwrapped : fs.blocks.Unwrapped) (data : 10 ≤ fs.numBlocks) :
    SameData fs (fsiStoreFsdata fs) := by
  refine ⟨numBlocks_store fs, ?_, ?_, ?_, ?_, ?_, fun b low lt => content_store unwrapped data lt low⟩
    <;> rw [fsiStoreFsdata]

theorem unwrapped (h : SameData fs fs') (ok : fs.blocks.Unwrapped) : fs'.blocks.Unwrapped := by
  have num : fs'.blocks.numBlocks = fs.blocks.numBlocks := h.numBlocks
  rwa [Blocks.Unwrapped, num]

private theorem dirFrame (h : SameData fs fs') (inv : Inv own top fs) : DirFrame top fs fs' := by
  refine ⟨fun a => by rw [h.inodeTab], fun d _ => by rw [h.inodeTab], fun d i hd _ hi => ?_⟩
  have range := inv.owned_range (inv.dir_owned hd hi)
  exact h.content _ range.1 range.2

theorem inv (h : SameData fs fs') (ok : Inv own top fs) : Inv own top fs' := by
  refine ⟨⟨?_, h.unwrapped ok.ledger.unwrapped, ?_, ?_⟩,
    ⟨ok.inodes.two_le, ok.inodes.le_size, ?_, ?_, ?_, ?_, ?_, ?_, ?_, ?_, ?_⟩, ⟨?_, ?_, ?_, ?_⟩,
    (h.dirFrame ok).tree ok.tree⟩
  · rw [h.numBlocks]
    exact ok.ledger.data
  · rw [h.blkBmap]
    exact ok.ledger.reserved
  · rw [h.numBlocks, h.blkBmap, h.inodeBmap]
    exact ok.ledger.given
  · rw [h.inodeBmap]
    exact ok.inodes.inUse
  · rw [h.inodeTab]
    exact ok.inodes.zero
  · rw [h.inodeTab]
    exact ok.inodes.root
  · rw [h.inodeTab]
    exact ok.inodes.kind
  · rw [h.inodeTab]
    exact ok.inodes.table
  · rw [h.inodeCache]
    exact ok.inodes.key_lt
  · rw [h.inodeCache]
    exact ok.inodes.cached
  · rw [h.inodeCache, h.inodeTab]
    exact ok.inodes.cachedType
  · rw [h.inodeCache, h.inodeTab]
    exact ok.inodes.dirtyFile
  · rw [h.blockCache]
    exact ok.blocks.single
  · intro b low lt
    rw [h.numBlocks] at lt
    rw [h.blockCache]
    exact (ok.blocks.clean b low lt).store_congr (h.content b low lt)
  · rw [h.blockCache, h.inodeTab]
    exact ok.blocks.slot
  · intro b low lt clear
    rw [h.numBlocks] at lt
    rw [h.blkBmap] at clear
    rw [h.content b low lt]
    exact ok.blocks.fresh b low lt clear

theorem isDir (h : SameData fs fs') (d : Nat) : IsDir fs' d ↔ IsDir fs d := by
  rw [IsDir, IsDir, h.inodeBmap, h.inodeTab]

theorem room (h : SameData fs fs') {k : Nat} (room : Room fs k) : Room fs' k :=
  room.congr h.numBlocks h.blkBmap

end SameData

theorem SameData.readPage (h : SameData fs fs') {dir : Nat} (data : 10 ≤ lastBlock fs dir)
    (inside : lastBlock fs dir < fs.numBlocks) :
    Snfs.readPage fs' dir = Snfs.readPage fs dir := by
  have last : lastBlock fs' dir = lastBlock fs dir := by rw [lastBlock, lastBlock, h.inodeTab]
  have num : fs'.blocks.numBlocks = fs.blocks.numBlocks := h.numBlocks
  rw [Snfs.readPage, Snfs.readPage, last, Blocks.read_of_lt (show _ < fs.blocks.numBlocks from inside),
    Blocks.read_of_lt (by rw [num]; exact inside), h.content _ data inside]

theorem numBlocks_writePage (fs : Fs) (dir : Nat) (page : Block) (name : CString) (finode : Nat) :
    (writePage fs dir page name finode).numBlocks = fs.numBlocks :=
  Blocks.numBlocks_write _ _ _

theorem SameData.writePage (h : SameData fs fs') (unwrapped : fs.blocks.Unwrapped) {dir : Nat}
    (inside : lastBlock fs dir < fs.numBlocks) (page : Block) (name : CString) (finode : Nat) :
    SameData (Snfs.writePage fs dir page name finode)
      (Snfs.writePage fs' dir page name finode) := by
  have last : lastBlock fs' dir = lastBlock fs dir := by rw [lastBlock, lastBlock, h.inodeTab]
  have num : fs'.blocks.numBlocks = fs.blocks.numBlocks := h.numBlocks
  refine ⟨by rw [numBlocks_writePage, numBlocks_writePage, h.numBlocks], h.inodeBmap, h.blkBmap,
    h.inodeTab, h.blockCache, h.inodeCache, fun b low lt => ?_⟩
  rw [numBlocks_writePage] at lt
  rw [Snfs.writePage, Snfs.writePage, last, h.inodeTab]
  dsimp only
  rw [Blocks.content_write unwrapped inside _ lt, Blocks.content_write (h.unwrapped unwrapped)
    (by rw [num]; exact inside) _ (by rw [num]; exact lt), h.content b low lt]

theorem SameData.growSize (h : SameData fs fs') (dir : Nat) :
    SameData (Snfs.growSize fs dir) (Snfs.growSize fs' dir) :=
  ⟨h.numBlocks, h.inodeBmap, h.blkBmap, by rw [Snfs.growSize, Snfs.growSize, h.inodeTab],
    h.blockCache, h.inodeCache, h.content⟩

theorem SameData.markInode (h : SameData fs fs') (type : Itype) (finode : Nat) :
    SameData (Snfs.markInode type fs finode) (Snfs.markInode type fs' finode) :=
  ⟨h.numBlocks, by rw [Snfs.markInode, Snfs.markInode, h.inodeBmap], h.blkBmap,
    by rw [Snfs.markInode, Snfs.markInode, h.inodeTab], h.blockCache, h.inodeCache, h.content⟩

theorem SameData.placedFs (h : SameData fs fs') (dir : Nat) (idir : Inode) (blkBmap : Block) :
    SameData (Snfs.placedFs fs dir idir blkBmap) (Snfs.placedFs fs' dir idir blkBmap) :=
  ⟨h.numBlocks, h.inodeBmap, rfl, by rw [Snfs.placedFs, Snfs.placedFs, h.inodeTab], h.blockCache,
    h.inodeCache, h.content⟩

/-- The directory has the block for the next entry; if it is a new one, it was free. -/
structure Placed (fs : Fs) (dir : Nat) (block : Option Nat) (idir : Inode) (blkBmap : Block) :
    Prop where
  grow : growDir fs (fs.inodeTab dir) = some (idir, blkBmap)
  new : ∀ b, block = some b → fsiBmapFindFree fs.blkBmap fs.numBlocks = some b ∧
    blkBmap = bmapSet fs.blkBmap b

theorem SameData.placeBlock (h : SameData fs fs') {dir : Nat} {block : Option Nat}
    (place : Snfs.placeBlock fs' dir = some (block, fs'')) :
    ∃ idir blkBmap, Placed fs dir block idir blkBmap ∧
      SameData (Snfs.placedFs fs dir idir blkBmap) fs'' := by
  rcases placeBlock_eq fs' dir with ⟨none, -⟩ | ⟨block', idir, blkBmap, placed, grow, new⟩
  · rw [none] at place
    cases place
  · rw [placed] at place
    cases place
    refine ⟨idir, blkBmap, ⟨?_, fun b same => ?_⟩, h.placedFs dir idir blkBmap⟩
    · rw [← grow, growDir, growDir, h.inodeTab, h.blkBmap, h.numBlocks]
    · rw [← h.blkBmap, ← h.numBlocks]
      exact new b same

/-- What a call has found when it chose the inode `top`. -/
structure Base (own : Ledger) (top : Nat) (call : MakeCall) (fs : Fs) : Prop where
  inv : Inv own top fs
  free : top < itabSize
  creatable : Creatable fs call.dir call.name
  noZero : (0 : UInt8) ∉ call.name
  room : Room fs 1

/-- A call between its choice of an inode and the marking of it, with no step of another creation
in between that matters. -/
inductive Progress (call : MakeCall) (finode : Nat) (fs₀ : Fs) : Phase → Fs → Prop where
  | chosen {fs : Fs} (same : SameData fs₀ fs) : Progress call finode fs₀ (.chosen finode) fs
  | placed {fs : Fs} {block : Option Nat} {idir : Inode} {blkBmap : Block}
      (placed : Placed fs₀ call.dir block idir blkBmap)
      (same : SameData (placedFs fs₀ call.dir idir blkBmap) fs) :
      Progress call finode fs₀ (.placed finode block) fs
  | read {fs : Fs} {block : Option Nat} {idir : Inode} {blkBmap : Block}
      (placed : Placed fs₀ call.dir block idir blkBmap)
      (same : SameData (placedFs fs₀ call.dir idir blkBmap) fs) :
      Progress call finode fs₀ (.read finode block
        (readPage (placedFs fs₀ call.dir idir blkBmap) call.dir)) fs
  | written {fs : Fs} {block : Option Nat} {idir : Inode} {blkBmap : Block}
      (placed : Placed fs₀ call.dir block idir blkBmap)
      (same : SameData (writePage (placedFs fs₀ call.dir idir blkBmap) call.dir
        (readPage (placedFs fs₀ call.dir idir blkBmap) call.dir) call.name finode) fs) :
      Progress call finode fs₀ (.written finode block) fs
  | sized {fs : Fs} {block : Option Nat} {idir : Inode} {blkBmap : Block}
      (placed : Placed fs₀ call.dir block idir blkBmap)
      (same : SameData (growSize (writePage (placedFs fs₀ call.dir idir blkBmap) call.dir
        (readPage (placedFs fs₀ call.dir idir blkBmap) call.dir) call.name finode) call.dir) fs) :
      Progress call finode fs₀ (.sized finode block) fs

def Finished (call : MakeCall) (finode : Nat) (fs₀ : Fs) (block : Option Nat) (fs : Fs) : Prop :=
  ∃ idir blkBmap, Placed fs₀ call.dir block idir blkBmap ∧
    SameData (addEntry call.type fs₀ call.dir idir blkBmap call.name finode) fs

variable {call : MakeCall} {block : Option Nat}

theorem Progress.congr {p : Phase} (h : Progress call top fs₀ p fs) (same : SameData fs fs') :
    Progress call top fs₀ p fs' := by
  cases h with
  | chosen h => exact .chosen (h.trans same)
  | placed placed h => exact .placed placed (h.trans same)
  | read placed h => exact .read placed (h.trans same)
  | written placed h => exact .written placed (h.trans same)
  | sized placed h => exact .sized placed (h.trans same)

theorem Finished.congr (h : Finished call top fs₀ block fs) (same : SameData fs fs') :
    Finished call top fs₀ block fs' := by
  obtain ⟨idir, blkBmap, placed, h⟩ := h
  exact ⟨idir, blkBmap, placed, h.trans same⟩

private theorem lastBlock_placed (fs : Fs) (dir : Nat) (idir : Inode) (blkBmap : Block) :
    lastBlock (placedFs fs dir idir blkBmap) dir = entryBlock idir := by
  simp only [lastBlock, placedFs, Function.update_self]

theorem Base.entered (base : Base own top call fs₀) {idir : Inode} {blkBmap : Block}
    (placed : Placed fs₀ call.dir block idir blkBmap) :
    ∃ own', Entered own own' top call.type fs₀ call.dir call.name idir blkBmap :=
  base.inv.addEntry call.made base.creatable base.noZero base.room base.free placed.grow

theorem Progress.step (base : Base own top call fs₀) {p p' : Phase}
    (h : Progress call top fs₀ p fs) (step : makeStep call fs p = some (p', fs')) :
    p' = .returned none none ∨ Progress call top fs₀ p' fs' ∨
      ∃ block, p' = .marked top block ∧ Finished call top fs₀ block fs' := by
  have num := base.inv.ledger.data
  cases h with
  | chosen same =>
      rw [makeStep] at step
      split at step
      · cases step
        exact .inl rfl
      · rename_i block fs₁ place
        cases step
        obtain ⟨idir, blkBmap, placed, same₁⟩ := same.placeBlock place
        exact .inr (.inl (.placed placed same₁))
  | @placed fs block idir blkBmap placed same =>
      cases step
      obtain ⟨own', entered⟩ := base.entered placed
      have range := entered.grown.owned_range entered.room.given
      have last := lastBlock_placed fs₀ call.dir idir blkBmap
      rw [same.readPage (by rw [last]; exact range.1) (by rw [last]; exact range.2)]
      exact .inr (.inl (.read placed same))
  | @read fs block idir blkBmap placed same =>
      cases step
      obtain ⟨own', entered⟩ := base.entered placed
      have range := entered.grown.owned_range entered.room.given
      have last := lastBlock_placed fs₀ call.dir idir blkBmap
      exact .inr (.inl (.written placed (same.writePage base.inv.ledger.unwrapped
        (by rw [last]; exact range.2) _ _ _)))
  | written placed same =>
      cases step
      exact .inr (.inl (.sized placed (same.growSize call.dir)))
  | @sized fs block idir blkBmap placed same =>
      cases step
      refine .inr (.inr ⟨block, rfl, idir, blkBmap, placed, ?_⟩)
      have stored := same.markInode call.type top
      rw [addEntry_eq]
      refine (SameData.store ?_ ?_).symm.trans stored
      · exact base.inv.ledger.unwrapped.write _ _
      · show 10 ≤ (writePage _ _ _ _ _).numBlocks
        rw [numBlocks_writePage]
        exact num

theorem Progress.same_types (base : Base own top call fs₀) {p : Phase}
    (h : Progress call top fs₀ p fs) :
    fs.inodeBmap = fs₀.inodeBmap ∧ ∀ a, (fs.inodeTab a).type = (fs₀.inodeTab a).type := by
  have placed_types {block : Option Nat} {idir : Inode} {blkBmap : Block}
      (placed : Placed fs₀ call.dir block idir blkBmap) (a : Nat) :
      ((placedFs fs₀ call.dir idir blkBmap).inodeTab a).type = (fs₀.inodeTab a).type := by
    obtain ⟨own', entered⟩ := base.entered placed
    rw [placedFs]
    by_cases here : a = call.dir
    · simp only [here, Function.update_self, entered.room.type, base.creatable.isDir]
    · simp only [Function.update_of_ne here]
  cases h with
  | chosen same => exact ⟨same.inodeBmap, fun a => by rw [same.inodeTab]⟩
  | placed placed same =>
      exact ⟨same.inodeBmap, fun a => by rw [same.inodeTab, placed_types placed]⟩
  | read placed same =>
      exact ⟨same.inodeBmap, fun a => by rw [same.inodeTab, placed_types placed]⟩
  | written placed same =>
      exact ⟨same.inodeBmap, fun a => by rw [same.inodeTab]; exact placed_types placed a⟩
  | @sized fs block idir blkBmap placed same =>
      refine ⟨same.inodeBmap, fun a => ?_⟩
      rw [same.inodeTab, ← placed_types placed a, growSize]
      by_cases here : a = call.dir
      · simp only [here, Function.update_self]
        rfl
      · simp only [Function.update_of_ne here]
        rfl

structure Grown (call : MakeCall) (top : Nat) (fs₀ : Fs) (block : Option Nat) (fs : Fs) : Prop where
  inv : ∃ own, Inv own (top + 1) fs
  room : ∀ k, Room fs₀ (k + 1) → Room fs k
  isDir : ∀ d, IsDir fs₀ d → IsDir fs d
  dirs : ∀ d, IsDir fs d → IsDir fs₀ d ∨ d = top
  here : dirEntries fs call.dir = dirEntries fs₀ call.dir ++ [(call.name, top)]
  other : ∀ d, IsDir fs₀ d → d ≠ call.dir → dirEntries fs d = dirEntries fs₀ d
  new : dirEntries fs top = []
  block : ∀ b, block = some b →
    bmapIsset fs₀.blkBmap b = false ∧ bmapIsset fs.blkBmap b = true

theorem Finished.grown (base : Base own top call fs₀) (h : Finished call top fs₀ block fs) :
    Grown call top fs₀ block fs := by
  obtain ⟨idir, blkBmap, placed, same⟩ := h
  obtain ⟨own', entered⟩ := base.entered placed
  have added := entered.added
  have frame := same.dirFrame entered.inv
  have isDir₀ : IsDir fs₀ call.dir := ⟨base.creatable.inUse, base.creatable.isDir⟩
  have lt {d : Nat} (isDir : IsDir fs₀ d) : d < top := (base.inv.isDir_iff.mp isDir).1
  have type {d : Nat} (hd : d < top) :
      ((addEntry call.type fs₀ call.dir idir blkBmap call.name top).inodeTab d).type =
        (fs₀.inodeTab d).type := added.type_old entered.room base.creatable.isDir hd
  have still {d : Nat} (isDir : IsDir fs₀ d) :
      IsDir (addEntry call.type fs₀ call.dir idir blkBmap call.name top) d :=
    entered.inv.isDir_iff.mpr ⟨Nat.lt_succ_of_lt (lt isDir), (type (lt isDir)).trans isDir.2⟩
  have entries {d : Nat} (isDir : IsDir fs₀ d) : dirEntries fs d =
      dirEntries (addEntry call.type fs₀ call.dir idir blkBmap call.name top) d :=
    frame.dirEntries (Nat.lt_succ_of_lt (lt isDir)) (still isDir).2
  refine ⟨⟨own', same.inv entered.inv⟩, fun k more => ?_, fun d isDir => ?_, fun d isDir => ?_,
    ?_, fun d isDir ne => ?_, ?_, fun b new => ?_⟩
  · exact same.room ((entered.rest k more).congr added.numBlocks added.blkBmap)
  · exact (same.isDir d).mpr (still isDir)
  · obtain ⟨hd, dir⟩ := entered.inv.isDir_iff.mp ((same.isDir d).mp isDir)
    rcases Nat.lt_succ_iff_lt_or_eq.mp hd with old | new
    · exact .inl (base.inv.isDir_iff.mpr ⟨old, (type old).symm.trans dir⟩)
    · exact .inr new
  · rw [entries isDir₀, added.dirEntries_dir entered.grown entered.room entered.dir_lt isDir₀.2
      base.creatable.short base.noZero]
    rfl
  · rw [entries isDir, added.dirEntries_other entered.grown entered.room (lt isDir) ne]
    rfl
  · have empty := added.dirEntries_new
    simp only [dirEntries, List.map_eq_nil_iff, List.range_eq_nil, numEntries] at empty ⊢
    rw [same.inodeTab]
    exact empty
  · obtain ⟨found, bmap⟩ := placed.new b new
    have small := base.room.found found
    refine ⟨(findFree_spec found).2.1, ?_⟩
    rw [same.blkBmap, added.blkBmap, bmap, bmapIsset_set small]
    simp

def entriesBefore (fs : Fs) (dir : Nat) : List (CString × Nat) :=
  if IsDir fs dir then dirEntries fs dir else []

/-- The directory has its entries, and behind them an entry for the inode. -/
def Kept (fs fs' : Fs) (call : MakeCall) (id : Nat) : Prop :=
  ∃ new, dirEntries fs' call.dir = entriesBefore fs call.dir ++ new ∧ (call.name, id) ∈ new

/-- The calls got different inodes and different blocks, and their directories have both entries. -/
structure Apart (fs fs' : Fs) (call call' : MakeCall) (id id' : Nat) (block block' : Option Nat) :
    Prop where
  ids : id ≠ id'
  kept : Kept fs fs' call id
  kept' : Kept fs fs' call' id'
  blocks : ∀ b, block = some b → block' ≠ some b

theorem Apart.symm {call call' : MakeCall} {id id' : Nat} {block block' : Option Nat}
    (h : Apart fs fs' call call' id id' block block') :
    Apart fs fs' call' call id' id block' block :=
  ⟨h.ids.symm, h.kept', h.kept, fun b here there => h.blocks b there here⟩

theorem Grown.apart {call' : MakeCall} {top' : Nat} {fs₁ : Fs} {block' : Option Nat}
    (base : Base own top call fs₀) (grown : Grown call top fs₀ block fs₁)
    (base' : Base own' top' call' fs₁) (grown' : Grown call' top' fs₁ block' fs) :
    Apart fs₀ fs call call' top top' block block' := by
  obtain ⟨own₁, inv₁⟩ := grown.inv
  have isDir₀ : IsDir fs₀ call.dir := ⟨base.creatable.inUse, base.creatable.isDir⟩
  have isDir₁ : IsDir fs₁ call'.dir := ⟨base'.creatable.inUse, base'.creatable.isDir⟩
  refine ⟨fun same => ?_, ?_, ?_, fun b here there => ?_⟩
  · have used := inv₁.inodes.inUse top
    rw [same, base'.inv.inodes.inUse top'] at used
    simp at used
  · rw [Kept, entriesBefore, if_pos isDir₀]
    by_cases shared : call'.dir = call.dir
    · refine ⟨[(call.name, top), (call'.name, top')], ?_, List.mem_cons_self⟩
      rw [← shared, grown'.here, shared, grown.here, List.append_assoc]
      rfl
    · refine ⟨[(call.name, top)], ?_, List.mem_cons_self⟩
      rw [grown'.other _ (grown.isDir _ isDir₀) (Ne.symm shared), grown.here]
  · rw [Kept]
    by_cases shared : call'.dir = call.dir
    · refine ⟨[(call.name, top), (call'.name, top')], ?_, List.mem_cons_of_mem _ List.mem_cons_self⟩
      rw [grown'.here, shared, grown.here, entriesBefore, if_pos isDir₀, List.append_assoc]
      rfl
    · refine ⟨[(call'.name, top')], ?_, List.mem_cons_self⟩
      rw [grown'.here, entriesBefore]
      rcases grown.dirs _ isDir₁ with old | new
      · rw [if_pos old, grown.other _ old shared]
      · rw [new, grown.new, if_neg]
        intro isDir
        exact Nat.lt_irrefl top (base.inv.isDir_iff.mp isDir).1
  · have marked := (grown.block b here).2
    rw [(grown'.block b there).1] at marked
    cases marked

def Chose (trace : List (Bool × Phase)) (t : Bool) : Prop := ∃ finode, (t, .chosen finode) ∈ trace

def Marked (trace : List (Bool × Phase)) (t : Bool) : Prop :=
  ∃ finode block, (t, .marked finode block) ∈ trace

/-- Thread `t` has marked its inode before the other one chose. -/
def MarksFirst (trace : List (Bool × Phase)) (t : Bool) : Prop :=
  ∃ before finode, before ++ [(!t, .chosen finode)] <+: trace ∧ Marked before t

variable {trace : List (Bool × Phase)} {u : Bool} {p p' : Phase}

private theorem chose_concat : Chose (trace ++ [(u, p)]) t ↔
    Chose trace t ∨ (t = u ∧ ∃ finode, p = .chosen finode) := by
  simp only [Chose, List.mem_append, List.mem_singleton, Prod.mk.injEq, exists_or]
  constructor
  · rintro (earlier | ⟨f, rfl, rfl⟩)
    · exact .inl earlier
    · exact .inr ⟨rfl, f, rfl⟩
  · rintro (earlier | ⟨rfl, f, rfl⟩)
    · exact .inl earlier
    · exact .inr ⟨f, rfl, rfl⟩

theorem marked_concat : Marked (trace ++ [(u, p)]) t ↔
    Marked trace t ∨ (t = u ∧ ∃ finode block, p = .marked finode block) := by
  simp only [Marked, List.mem_append, List.mem_singleton, Prod.mk.injEq, exists_or]
  constructor
  · rintro (earlier | ⟨f, b, rfl, rfl⟩)
    · exact .inl earlier
    · exact .inr ⟨rfl, f, b, rfl⟩
  · rintro (earlier | ⟨rfl, f, b, rfl⟩)
    · exact .inl earlier
    · exact .inr ⟨f, b, rfl, rfl⟩

theorem marksFirst_concat : MarksFirst (trace ++ [(u, p)]) t ↔
    MarksFirst trace t ∨ (Marked trace t ∧ u = !t ∧ ∃ finode, p = .chosen finode) := by
  simp only [MarksFirst, List.prefix_concat_iff]
  constructor
  · rintro ⟨before, f, last | earlier, marked⟩
    · obtain ⟨rfl, same⟩ := List.append_inj' last rfl
      cases same
      exact .inr ⟨marked, rfl, f, rfl⟩
    · exact .inl ⟨before, f, earlier, marked⟩
  · rintro (⟨before, f, earlier, marked⟩ | ⟨marked, rfl, f, rfl⟩)
    · exact ⟨before, f, .inr earlier, marked⟩
    · exact ⟨trace, f, .inl rfl, marked⟩

theorem MarksFirst.concat (h : MarksFirst trace t) (e : Bool × Phase) :
    MarksFirst (trace ++ [e]) t := marksFirst_concat.mpr (.inl h)

def Phase.finode? : Phase → Option Nat
  | .start | .searched => none
  | .chosen finode | .placed finode _ | .read finode _ _ | .written finode _ | .sized finode _
  | .marked finode _ => some finode
  | .returned fileid _ => fileid

/-- A call that has chosen its inode keeps it and chooses no other, or it fails. -/
theorem makeStep_chosen {finode : Nat} (chosen : p.finode? = some finode)
    (step : makeStep call fs p = some (p', fs')) :
    (∀ f, p' ≠ .chosen f) ∧ (p'.finode? = some finode ∨ ∃ block, p' = .returned none block) := by
  cases p with
  | start => cases chosen
  | searched => cases chosen
  | chosen f =>
      rw [makeStep] at step
      split at step
      · cases step
        exact ⟨fun _ => by simp, .inr ⟨none, rfl⟩⟩
      · cases step
        exact ⟨fun _ => by simp, .inl chosen⟩
  | returned f b => cases step
  | _ =>
      cases step
      exact ⟨fun _ => by simp, .inl chosen⟩

/-- A call that has not chosen yet; behind its search are the checks of its arguments. -/
def Idle (call : MakeCall) (fs : Fs) (p : Phase) : Prop :=
  p = .start ∨ (p = .searched ∧ Creatable fs call.dir call.name)

theorem Idle.finode? (idle : Idle call fs p) : p.finode? = none := by
  rcases idle with rfl | ⟨rfl, -⟩ <;> rfl

theorem Creatable.congr {dir : Nat} {name : CString} (h : Creatable fs dir name)
    (bmap : fs'.inodeBmap = fs.inodeBmap) (type : (fs'.inodeTab dir).type = (fs.inodeTab dir).type) :
    Creatable fs' dir name :=
  ⟨h.dir_lt, h.nonempty, h.short, by rw [bmap]; exact h.inUse, type.trans h.isDir⟩

theorem Idle.congr (idle : Idle call fs p) (bmap : fs'.inodeBmap = fs.inodeBmap)
    (type : ∀ a, (fs'.inodeTab a).type = (fs.inodeTab a).type) : Idle call fs' p :=
  idle.imp_right fun ⟨here, ok⟩ => ⟨here, ok.congr bmap (type _)⟩

theorem Idle.grown (idle : Idle call fs₀ p) {call' : MakeCall}
    (grown : Grown call' top fs₀ block fs) : Idle call fs p := by
  refine idle.imp_right fun ⟨here, ok⟩ => ⟨here, ?_⟩
  have still := grown.isDir _ ⟨ok.inUse, ok.isDir⟩
  exact ⟨ok.dir_lt, ok.nonempty, ok.short, still.1, still.2⟩

/-- The steps of an idle call: it fails, it searches, or it chooses an inode. -/
inductive IdleStep (call : MakeCall) (fs : Fs) : Phase → Fs → Prop where
  | failed {fs' : Fs} (same : SameData fs fs') : IdleStep call fs (.returned none none) fs'
  | searched {fs' : Fs} (ok : Creatable fs call.dir call.name) (same : SameData fs fs') :
      IdleStep call fs .searched fs'
  | chosen {finode : Nat} (ok : Creatable fs call.dir call.name)
      (found : fsiBmapFindFree fs.inodeBmap itabSize = some finode) :
      IdleStep call fs (.chosen finode) fs

theorem Idle.step (idle : Idle call fs p) (step : makeStep call fs p = some (p', fs')) :
    IdleStep call fs p' fs' := by
  rcases idle with rfl | ⟨rfl, ok⟩
  · rw [makeStep] at step
    split at step
    · cases step
      exact .failed (.refl fs)
    rename_i inside
    split at step
    · cases step
      exact .failed (.refl fs)
    rename_i named
    split at step
    · cases step
      exact .failed (.refl fs)
    rename_i used
    split at step
    · cases step
      exact .failed (.refl fs)
    rename_i dir
    have same := fsiDirSearch_same fs call.dir call.name
    split at step
    · rename_i found
      rw [found] at same
      cases step
      exact .failed (.of_sameButDirs same)
    · rename_i missed
      rw [missed] at same
      cases step
      refine .searched ⟨by omega, ?_, by omega, by simpa using used, not_not.mp dir⟩
        (.of_sameButDirs same)
      exact fun empty => named (.inl (by rw [empty]; rfl))
  · rw [makeStep] at step
    split at step
    · cases step
      exact .failed (.refl fs)
    · rename_i found
      cases step
      exact .chosen ok found

def Done (finode : Nat) (block : Option Nat) (p : Phase) : Prop :=
  p = .marked finode block ∨ p = .returned (some finode) block

/-- What two calls can have come to: one has failed; no one has chosen an inode; one has, and has
not marked it; one has marked it and the other has not chosen; the other has chosen since then;
both have chosen the same. -/
inductive Joint (calls : Bool → MakeCall) (own : Ledger) (top : Nat) (fs₀ : Fs)
    (trace : List (Bool × Phase)) (s : Makers) : Prop where
  | failed (t : Bool) {block : Option Nat} (phase : s.phase t = .returned none block)
  | idle (idle : ∀ t, Idle (calls t) s.fs (s.phase t)) (same : SameData fs₀ s.fs)
      (unchosen : ∀ t, ¬ Chose trace t) (unmarked : ∀ t, ¬ Marked trace t)
  | alone (t : Bool) (base : Base own top (calls t) fs₀)
      (progress : Progress (calls t) top fs₀ (s.phase t) s.fs)
      (idle : Idle (calls !t) fs₀ (s.phase !t)) (unchosen : ¬ Chose trace !t)
      (unmarked : ∀ t, ¬ Marked trace t)
  | first (t : Bool) {block : Option Nat} (base : Base own top (calls t) fs₀)
      (done : Done top block (s.phase t)) (finished : Finished (calls t) top fs₀ block s.fs)
      (idle : Idle (calls !t) s.fs (s.phase !t)) (unchosen : ¬ Chose trace !t)
      (marked : Marked trace t)
  | second (t : Bool) {block : Option Nat} {own₁ : Ledger} {top₁ : Nat} {fs₁ : Fs}
      (base : Base own top (calls t) fs₀) (done : Done top block (s.phase t))
      (grown : Grown (calls t) top fs₀ block fs₁) (base₁ : Base own₁ top₁ (calls !t) fs₁)
      (progress : Progress (calls !t) top₁ fs₁ (s.phase !t) s.fs ∨
        ∃ block₁, Done top₁ block₁ (s.phase !t) ∧ Finished (calls !t) top₁ fs₁ block₁ s.fs)
      (ordered : MarksFirst trace t)
  | clash {finode : Nat} (both : ∀ t, (s.phase t).finode? = some finode)
      (unordered : ∀ t, ¬ MarksFirst trace t)

theorem makersStep_cases {s s' : Makers} (next : makersStep calls s t = some (p, s')) :
    makeStep (calls t) s.fs (s.phase t) = some (p, s'.fs) ∧ s'.phase t = p ∧
      s'.phase (!t) = s.phase (!t) := by
  obtain ⟨⟨phase, fs'⟩, step, same⟩ := Option.map_eq_some_iff.mp next
  cases same
  exact ⟨step, Function.update_self .., Function.update_of_ne (Bool.not_ne_self t) ..⟩

/-- Storing the metadata is all that is left to do. -/
theorem Done.step {finode : Nat} {block : Option Nat} (done : Done finode block p)
    (unwrapped : fs.blocks.Unwrapped) (data : 10 ≤ fs.numBlocks)
    (step : makeStep call fs p = some (p', fs')) :
    Done finode block p' ∧ SameData fs fs' := by
  rcases done with rfl | rfl
  · rw [makeStep, Option.some.injEq, Prod.mk.injEq] at step
    obtain ⟨rfl, rfl⟩ := step
    exact ⟨.inr rfl, .store unwrapped data⟩
  · cases step

theorem Progress.numBlocks (h : Progress call top fs₀ p fs) : fs.numBlocks = fs₀.numBlocks := by
  cases h with
  | chosen same => exact same.numBlocks
  | placed _ same => exact same.numBlocks
  | read _ same => exact same.numBlocks
  | written _ same => exact same.numBlocks.trans (numBlocks_writePage _ _ _ _ _)
  | sized _ same => exact same.numBlocks.trans (numBlocks_writePage _ _ _ _ _)

theorem Progress.finode? (h : Progress call top fs₀ p fs) : p.finode? = some top := by
  cases h <;> rfl

theorem Chose.of_concat (h : Chose (trace ++ [(u, p)]) t) (other : ∀ f, t = u → p ≠ .chosen f) :
    Chose trace t := by
  rcases chose_concat.mp h with earlier | ⟨same, f, now⟩
  · exact earlier
  · exact absurd now (other f same)

theorem Marked.of_concat (h : Marked (trace ++ [(u, p)]) t)
    (other : ∀ f b, t = u → p ≠ .marked f b) : Marked trace t := by
  rcases marked_concat.mp h with earlier | ⟨same, f, b, now⟩
  · exact earlier
  · exact absurd now (other f b same)

theorem MarksFirst.of_concat (h : MarksFirst (trace ++ [(u, p)]) t)
    (other : ¬ Marked trace t ∨ ∀ f, p ≠ .chosen f) : MarksFirst trace t := by
  rcases marksFirst_concat.mp h with earlier | ⟨marked, -, f, now⟩
  · exact earlier
  · rcases other with unmarked | unchosen
    · exact absurd marked unmarked
    · exact absurd now (unchosen f)

/-- The first of the two threads to mark its inode has marked it. -/
theorem MarksFirst.marked (h : MarksFirst trace t) : Marked trace t := by
  obtain ⟨before, f, ⟨after, rfl⟩, finode, block, member⟩ := h
  exact ⟨finode, block, List.mem_append_left _ (List.mem_append_left _ member)⟩

section Step

variable {s s' : Makers}

theorem phases_of_step {P : Bool → Phase → Prop} (next : makersStep calls s t = some (p, s'))
    (here : P t p) (there : P (!t) (s.phase !t)) (u : Bool) : P u (s'.phase u) := by
  obtain ⟨-, now, still⟩ := makersStep_cases next
  rcases Bool.eq_or_eq_not u t with rfl | rfl
  · rwa [now]
  · rwa [still]

theorem Joint.step_idle (inv : Inv own top fs₀) (room : Room fs₀ 2)
    (noZero : ∀ t, (0 : UInt8) ∉ (calls t).name) (idle : ∀ t, Idle (calls t) s.fs (s.phase t))
    (same : SameData fs₀ s.fs) (unchosen : ∀ t, ¬ Chose trace t) (unmarked : ∀ t, ¬ Marked trace t)
    (next : makersStep calls s t = some (p, s')) :
    Joint calls own top fs₀ (trace ++ [(t, p)]) s' := by
  obtain ⟨step, here, there⟩ := makersStep_cases next
  generalize after : s'.fs = fs' at step
  cases (idle t).step step with
  | failed _ => exact .failed t here
  | searched ok still =>
      refine .idle (phases_of_step next ?_ ?_) (after ▸ same.trans still)
        (fun u chose => unchosen u (chose.of_concat fun _ _ => by simp))
        (fun u marked => unmarked u (marked.of_concat fun _ _ _ => by simp))
      · rw [after]
        exact .inr ⟨rfl, ok.congr still.inodeBmap (by rw [still.inodeTab])⟩
      · rw [after]
        exact (idle !t).congr still.inodeBmap fun a => by rw [still.inodeTab]
  | @chosen finode ok found =>
      rw [same.inodeBmap] at found
      obtain rfl := inv.firstFree found
      have back := same.symm
      refine .alone t ⟨inv, (findFree_spec found).1,
        ok.congr back.inodeBmap (by rw [back.inodeTab]), noZero t, room.mono (by decide)⟩ ?_ ?_
        (fun chose => unchosen _ (chose.of_concat fun _ other => absurd other (Bool.not_ne_self t)))
        (fun u marked => unmarked u (marked.of_concat fun _ _ _ => by simp))
      · rw [here, after]
        exact .chosen same
      · rw [there]
        exact (idle !t).congr back.inodeBmap fun a => by rw [back.inodeTab]

theorem Joint.step_alone {t₀ : Bool} (base : Base own top (calls t₀) fs₀)
    (progress : Progress (calls t₀) top fs₀ (s.phase t₀) s.fs)
    (idle : Idle (calls !t₀) fs₀ (s.phase !t₀)) (unchosen : ¬ Chose trace !t₀)
    (unmarked : ∀ t, ¬ Marked trace t) (next : makersStep calls s t = some (p, s')) :
    Joint calls own top fs₀ (trace ++ [(t, p)]) s' := by
  obtain ⟨step, here, there⟩ := makersStep_cases next
  obtain ⟨bmap, types⟩ := progress.same_types base
  rcases Bool.eq_or_eq_not t t₀ with rfl | rfl
  · have unchosen' : ¬ Chose (trace ++ [(t, p)]) !t := fun chose =>
      unchosen (chose.of_concat fun _ other => absurd other (Bool.not_ne_self t))
    have idle' : Idle (calls !t) fs₀ (s'.phase !t) := by rwa [there]
    have chosen := makeStep_chosen progress.finode? step
    rcases progress.step base step with rfl | further | ⟨block, rfl, finished⟩
    · exact .failed t here
    · refine .alone t base (by rwa [here]) idle' unchosen' fun u marked => unmarked u ?_
      refine marked.of_concat fun f b _ now => ?_
      rw [now] at further
      cases further
    · refine .first t base (by rw [here]; exact .inl rfl) finished (idle'.grown (finished.grown base))
        unchosen' (marked_concat.mpr (.inr ⟨rfl, _, _, rfl⟩))
  · -- the other call moves
    rw [Bool.not_not] at there
    have idle₁ := idle.congr bmap types
    generalize after : s'.fs = fs' at step
    have unmarked' {p' : Phase} (other : ∀ f b, p' ≠ .marked f b) (u : Bool) :
        ¬ Marked (trace ++ [(!t₀, p')]) u :=
      fun marked => unmarked u (marked.of_concat fun f b _ => other f b)
    cases idle₁.step step with
    | failed _ => exact .failed _ here
    | searched ok same =>
        refine .alone t₀ base ?_ ?_ (fun chose => unchosen (chose.of_concat fun _ _ => by simp))
          (unmarked' fun _ _ => by simp)
        · rw [there, after]
          exact progress.congr same
        · rw [here]
          exact .inr ⟨rfl, ok.congr bmap.symm (types _).symm⟩
    | @chosen finode ok found =>
        rw [bmap] at found
        obtain rfl := base.inv.firstFree found
        refine .clash (phases_of_step (P := fun _ q => q.finode? = some finode) next rfl ?_)
          fun u first => unmarked u (first.of_concat (.inl (unmarked u))).marked
        rw [Bool.not_not]
        exact progress.finode?

theorem Joint.step_first (room : Room fs₀ 2) (noZero : ∀ t, (0 : UInt8) ∉ (calls t).name)
    {t₀ : Bool} {block : Option Nat} (base : Base own top (calls t₀) fs₀)
    (done : Done top block (s.phase t₀)) (finished : Finished (calls t₀) top fs₀ block s.fs)
    (idle : Idle (calls !t₀) s.fs (s.phase !t₀)) (unchosen : ¬ Chose trace !t₀)
    (marked : Marked trace t₀) (next : makersStep calls s t = some (p, s')) :
    Joint calls own top fs₀ (trace ++ [(t, p)]) s' := by
  obtain ⟨step, here, there⟩ := makersStep_cases next
  have grown := finished.grown base
  obtain ⟨own₁, inv₁⟩ := grown.inv
  have marked' : Marked (trace ++ [(t, p)]) t₀ := marked_concat.mpr (.inl marked)
  rcases Bool.eq_or_eq_not t t₀ with rfl | rfl
  · obtain ⟨done', same⟩ := done.step inv₁.ledger.unwrapped inv₁.ledger.data step
    refine .first t base (by rwa [here]) (finished.congr same) ?_
      (fun chose => unchosen (chose.of_concat fun _ other => absurd other (Bool.not_ne_self t)))
      marked'
    rw [there]
    exact idle.congr same.inodeBmap fun a => by rw [same.inodeTab]
  · rw [Bool.not_not] at there
    generalize after : s'.fs = fs' at step
    cases idle.step step with
    | failed _ => exact .failed _ here
    | searched ok same =>
        refine .first t₀ base (by rwa [there]) (after ▸ finished.congr same) ?_
          (fun chose => unchosen (chose.of_concat fun _ _ => by simp)) marked'
        rw [here, after]
        exact .inr ⟨rfl, ok.congr same.inodeBmap (by rw [same.inodeTab])⟩
    | @chosen finode ok found =>
        have same := inv₁.firstFree found
        refine .second t₀ base (by rwa [there]) grown ⟨inv₁, ?_, ok, noZero _, grown.room 1 room⟩
          (.inl ?_) (marksFirst_concat.mpr (.inr ⟨marked, rfl, finode, rfl⟩))
        · rw [← same]
          exact (findFree_spec found).1
        · rw [here, after, ← same]
          exact .chosen (.refl _)

theorem Joint.step_second {t₀ : Bool} {block : Option Nat} {own₁ : Ledger} {top₁ : Nat} {fs₁ : Fs}
    (base : Base own top (calls t₀) fs₀) (done : Done top block (s.phase t₀))
    (grown : Grown (calls t₀) top fs₀ block fs₁) (base₁ : Base own₁ top₁ (calls !t₀) fs₁)
    (progress : Progress (calls !t₀) top₁ fs₁ (s.phase !t₀) s.fs ∨
      ∃ block₁, Done top₁ block₁ (s.phase !t₀) ∧ Finished (calls !t₀) top₁ fs₁ block₁ s.fs)
    (ordered : MarksFirst trace t₀) (next : makersStep calls s t = some (p, s')) :
    Joint calls own top fs₀ (trace ++ [(t, p)]) s' := by
  obtain ⟨step, here, there⟩ := makersStep_cases next
  have ordered' := ordered.concat (t, p)
  rcases Bool.eq_or_eq_not t t₀ with rfl | rfl
  · -- the first call stores the metadata while the second one works
    have device : s.fs.blocks.Unwrapped ∧ 10 ≤ s.fs.numBlocks := by
      rcases progress with progress | ⟨block₁, -, finished⟩
      · have num := progress.numBlocks
        refine ⟨?_, by rw [num]; exact base₁.inv.ledger.data⟩
        rw [Blocks.Unwrapped, show s.fs.blocks.numBlocks = fs₁.blocks.numBlocks from num]
        exact base₁.inv.ledger.unwrapped
      · obtain ⟨own₂, inv₂⟩ := (finished.grown base₁).inv
        exact ⟨inv₂.ledger.unwrapped, inv₂.ledger.data⟩
    obtain ⟨done', same⟩ := done.step device.1 device.2 step
    refine .second t base (by rwa [here]) grown base₁ ?_ ordered'
    rw [there]
    refine progress.imp (·.congr same) (Exists.imp fun _ => And.imp_right (·.congr same))
  · rw [Bool.not_not] at there
    rcases progress with progress | ⟨block₁, done₁, finished⟩
    · rcases progress.step base₁ step with rfl | further | ⟨block₁, rfl, finished⟩
      · exact .failed _ here
      · exact .second t₀ base (by rwa [there]) grown base₁ (.inl (by rwa [here])) ordered'
      · exact .second t₀ base (by rwa [there]) grown base₁
          (.inr ⟨block₁, by rw [here]; exact .inl rfl, finished⟩) ordered'
    · obtain ⟨own₂, inv₂⟩ := (finished.grown base₁).inv
      obtain ⟨done', same⟩ := done₁.step inv₂.ledger.unwrapped inv₂.ledger.data step
      exact .second t₀ base (by rwa [there]) grown base₁
        (.inr ⟨block₁, by rwa [here], finished.congr same⟩) ordered'

theorem Joint.step_clash {finode : Nat} (both : ∀ t, (s.phase t).finode? = some finode)
    (unordered : ∀ t, ¬ MarksFirst trace t) (next : makersStep calls s t = some (p, s')) :
    Joint calls own top fs₀ (trace ++ [(t, p)]) s' := by
  obtain ⟨step, here, -⟩ := makersStep_cases next
  obtain ⟨unchosen, kept | ⟨block, rfl⟩⟩ := makeStep_chosen (both t) step
  · exact .clash (phases_of_step (P := fun _ q => q.finode? = some finode) next kept (both !t))
      fun u first => unordered u (first.of_concat (.inr unchosen))
  · exact .failed t here

theorem Joint.step (inv : Inv own top fs₀) (room : Room fs₀ 2)
    (noZero : ∀ t, (0 : UInt8) ∉ (calls t).name) (h : Joint calls own top fs₀ trace s)
    (next : makersStep calls s t = some (p, s')) :
    Joint calls own top fs₀ (trace ++ [(t, p)]) s' := by
  cases h with
  | @failed t₀ block phase =>
      obtain ⟨step, -, there⟩ := makersStep_cases next
      rcases Bool.eq_or_eq_not t t₀ with rfl | rfl
      · rw [phase] at step
        cases step
      · rw [Bool.not_not] at there
        exact .failed t₀ (by rw [there]; exact phase)
  | idle idle same unchosen unmarked =>
      exact Joint.step_idle inv room noZero idle same unchosen unmarked next
  | alone t₀ base progress idle unchosen unmarked =>
      exact Joint.step_alone base progress idle unchosen unmarked next
  | first t₀ base done finished idle unchosen marked =>
      exact Joint.step_first room noZero base done finished idle unchosen marked next
  | second t₀ base done grown base₁ progress ordered =>
      exact Joint.step_second base done grown base₁ progress ordered next
  | clash both unordered => exact Joint.step_clash both unordered next

end Step

theorem Joint.of_run {s : Makers} (inv : Inv own top fs) (room : Room fs 2)
    (noZero : ∀ t, (0 : UInt8) ∉ (calls t).name)
    (makers : Run (Next (makersStep calls)) ⟨fs, fun _ => .start⟩ trace s) :
    Joint calls own top fs trace s := by
  refine makers.trace_invariant (I := fun trace s => Joint calls own top fs trace s) ?_ ?_
  · exact .idle (fun _ => .inl rfl) (.refl fs) (fun _ ⟨_, member⟩ => nomatch member)
      fun _ ⟨_, _, member⟩ => nomatch member
  · rintro trace s ⟨t, p⟩ s' joint next
    exact joint.step inv room noZero next

theorem Done.returned {finode : Nat} {id block block' : Option Nat}
    (done : Done finode block (.returned id block')) : id = some finode ∧ block' = block := by
  rcases done with other | same
  · cases other
  · cases same
    exact ⟨rfl, rfl⟩

/-- In any order of their steps, two calls that both return 0 keep apart exactly if one of them
marks its inode before the other chooses. -/
theorem creations_apart_iff {num : Nat} {clock : Nat → Int} {boot : Fs}
    {ops : List (FsOp × FsResult)} (data : 10 ≤ num) (unwrapped : num * blockSize < 2 ^ 32)
    (started : fsBoot num clock = some boot)
    (run : Run (Guarded (fun s e => Within s e.1) FsNext) boot ops fs)
    {calls : Bool → MakeCall} (noZero : ∀ t, (0 : UInt8) ∉ (calls t).name) (room : Room fs 2)
    {s : Makers} (makers : Run (Next (makersStep calls)) ⟨fs, fun _ => .start⟩ trace s)
    {id id' : Nat} {block block' : Option Nat}
    (done : s.phase false = .returned (some id) block)
    (done' : s.phase true = .returned (some id') block') :
    Apart fs s.fs (calls false) (calls true) id id' block block' ↔
      MarksFirst trace false ∨ MarksFirst trace true := by
  obtain ⟨own, top, inv, -⟩ := within_inv data unwrapped started run
  have returned (t : Bool) : ∃ id block, s.phase t = .returned (some id) block := by
    cases t
    · exact ⟨id, block, done⟩
    · exact ⟨id', block', done'⟩
  cases Joint.of_run inv room noZero makers with
  | failed t phase =>
      obtain ⟨_, _, ends⟩ := returned t
      rw [phase] at ends
      cases ends
  | idle idle same unchosen unmarked =>
      have none := (idle false).finode?
      rw [done] at none
      cases none
  | alone t base progress idle unchosen unmarked =>
      obtain ⟨_, _, ends⟩ := returned !t
      have none := idle.finode?
      rw [ends] at none
      cases none
  | first t base first finished idle unchosen marked =>
      obtain ⟨_, _, ends⟩ := returned !t
      have none := idle.finode?
      rw [ends] at none
      cases none
  | second t base first grown base₁ progress ordered =>
      rcases progress with progress | ⟨block₁, second, finished⟩
      · obtain ⟨_, _, ends⟩ := returned !t
        rw [ends] at progress
        cases progress
      · have apart := grown.apart base base₁ (finished.grown base₁)
        cases t with
        | false =>
            rw [done] at first
            rw [Bool.not_false, done'] at second
            obtain ⟨same, rfl⟩ := first.returned
            obtain ⟨same', rfl⟩ := second.returned
            cases same
            cases same'
            exact iff_of_true apart (.inl ordered)
        | true =>
            rw [done'] at first
            rw [Bool.not_true, done] at second
            obtain ⟨same, rfl⟩ := first.returned
            obtain ⟨same', rfl⟩ := second.returned
            cases same
            cases same'
            exact iff_of_true apart.symm (.inr ordered)
  | clash both unordered =>
      have here := both false
      have there := both true
      rw [done] at here
      rw [done'] at there
      cases here
      cases there
      exact iff_of_false (fun apart => apart.ids rfl) fun ordered =>
        ordered.elim (unordered false) (unordered true)

def Phase.outcome : Phase → Option (Option Nat × Option Nat)
  | .returned fileid block => some (fileid, block)
  | _ => none

theorem Phase.of_outcome {id block : Option Nat} (h : p.outcome = some (id, block)) :
    p = .returned id block := by
  cases p <;> cases h
  rfl

def twoFiles (t : Bool) : MakeCall := ⟨.file, 1, [if t then 98 else 97], .inr rfl⟩

/-- The second call starts when the first one has marked its inode. -/
theorem creations_apart_in_turn :
    ∃ trace s, (fsBoot 16 fun _ => 1).bind (fun boot => execute (makersStep twoFiles)
        ⟨boot, fun _ => .start⟩ (List.replicate 7 false ++ List.replicate 8 true ++ [false])) =
          some (trace, s) ∧ (MarksFirst trace false ∨ MarksFirst trace true) := by
  have boots : ((fsBoot 16 fun _ => 1).bind fun boot =>
      (execute (makersStep twoFiles) ⟨boot, fun _ => .start⟩
        (List.replicate 7 false ++ List.replicate 8 true ++ [false])).map fun r =>
          (decide (Room boot 2 ∧ IsDir boot 1 ∧ dirEntries boot 1 = []),
            decide ((r.2.phase false).outcome = some (some 2, some 10) ∧
              (r.2.phase true).outcome = some (some 3, none) ∧
              dirEntries r.2.fs 1 = [([97], 2), ([98], 3)]))) = some (true, true) := by
    decide +kernel
  obtain ⟨boot, started, facts⟩ := Option.bind_eq_some_iff.mp boots
  obtain ⟨⟨trace, s⟩, executed, facts⟩ := Option.map_eq_some_iff.mp facts
  simp only [Prod.mk.injEq, decide_eq_true_eq] at facts
  obtain ⟨⟨room, root, empty⟩, done, done', entries⟩ := facts
  refine ⟨trace, s, by rw [started]; exact executed, ?_⟩
  have noZero : ∀ t, (0 : UInt8) ∉ (twoFiles t).name := by decide
  refine (creations_apart_iff (by decide) (by decide) started .nil noZero room
    (run_of_executed executed) (Phase.of_outcome done) (Phase.of_outcome done')).mp ?_
  refine ⟨by decide, ⟨[([97], 2), ([98], 3)], ?_, by decide⟩,
    ⟨[([97], 2), ([98], 3)], ?_, by decide⟩, fun _ _ none => nomatch none⟩
  · rw [entriesBefore, show (twoFiles false).dir = 1 from rfl, if_pos root, entries, empty]
    rfl
  · rw [entriesBefore, show (twoFiles true).dir = 1 from rfl, if_pos root, entries, empty]
    rfl

/-- Both calls choose inode 2. -/
theorem creations_clash :
    ¬ ∀ num clock ops fs calls trace s id id' block block', 10 ≤ num → FsRun num clock ops fs →
      (∀ t, (0 : UInt8) ∉ (calls t).name) →
      Run (Next (makersStep calls)) ⟨fs, fun _ => .start⟩ trace s →
      s.phase false = .returned (some id) block → s.phase true = .returned (some id') block' →
      Apart fs s.fs (calls false) (calls true) id id' block block' := by
  intro apart
  have boots : ((fsBoot 16 fun _ => 1).bind fun boot =>
      (execute (makersStep twoFiles) ⟨boot, fun _ => .start⟩
        (List.replicate 2 false ++ List.replicate 8 true ++ List.replicate 6 false)).map fun r =>
          decide ((r.2.phase false).outcome = some (some 2, none) ∧
            (r.2.phase true).outcome = some (some 2, some 10))) = some true := by
    decide +kernel
  obtain ⟨boot, started, facts⟩ := Option.bind_eq_some_iff.mp boots
  obtain ⟨⟨trace, s⟩, executed, facts⟩ := Option.map_eq_some_iff.mp facts
  obtain ⟨done, done'⟩ := of_decide_eq_true facts
  have noZero : ∀ t, (0 : UInt8) ∉ (twoFiles t).name := by decide
  have ids := (apart 16 _ [] boot twoFiles trace s 2 2 _ _ (by decide) ⟨boot, started, .nil⟩ noZero
    (run_of_executed executed) (Phase.of_outcome done) (Phase.of_outcome done')).ids
  exact ids rfl

end Snfs
