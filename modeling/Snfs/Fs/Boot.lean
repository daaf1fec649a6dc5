import Snfs.Fs.Run
import Snfs.Fs.Steps

/-!
`fs_format` on a new device: the reserved blocks, inode 1 as an empty root, and
caches that still hold cleared entries. The invariant starts here.
-/

namespace Snfs

open Slots

theorem bmapIsset_reserveBlocks {n : Nat} (h : n ≤ bmapBits) (bmap : Block) (j : Nat) :
    bmapIsset (reserveBlocks n bmap) j = (decide (j < n) || bmapIsset bmap j) := by
  induction n with
  | zero => simp [reserveBlocks]
  | succ n ih =>
      have step : decide (j < n + 1) = (decide (j < n) || decide (n = j)) := by
        rw [← Bool.decide_or]
        exact decide_eq_decide.mpr (by omega)
      rw [reserveBlocks, bmapIsset_set (Nat.lt_of_succ_le h), ih (by omega), step, Bool.or_assoc,
        Bool.or_assoc, Bool.or_comm (bmapIsset bmap j)]

def Blank (bks : Blocks blockSize) : Prop := ∀ k, bks.blocks k = 0

theorem Blank.content {bks : Blocks blockSize} (h : Blank bks) (b : Nat) :
    bks.content b = .zero := by
  funext i
  exact h _

theorem Blank.erase {bks : Blocks blockSize} (h : Blank bks) (n : Nat) :
    Blank (eraseBlocks n bks) := by
  induction n with
  | zero => exact h
  | succ n ih =>
      intro k
      rw [eraseBlocks, blockWrite]
      split
      · exact ih k
      · dsimp only
        split
        · exact Buf.get_zero _
        · exact ih k

@[simp] theorem numBlocks_erase (n : Nat) (bks : Blocks blockSize) :
    (eraseBlocks n bks).numBlocks = bks.numBlocks := by
  induction n with
  | zero => rfl
  | succ n ih => rw [eraseBlocks, Blocks.numBlocks_write, ih]

theorem Blank.load {bks : Blocks blockSize} (h : Blank bks) (a : Nat) :
    loadInode bks a = fsiInodeInit .clear := by
  have word (w : Nat) : loadWord bks a w = 0 := by
    simp [loadWord, h.content]
  simp only [loadInode, fsiInodeInit, word, Itype.ofCode]

/-- What `fs_format` makes of a new file system. -/
structure Formatted (num : Nat) (clock : Nat → Int) (fs : Fs) : Prop where
  numBlocks : fs.numBlocks = num
  unwrapped : fs.blocks.Unwrapped
  content : ∀ b, 10 ≤ b → b < num → fs.blocks.content b = .zero
  blkBmap : ∀ b, bmapIsset fs.blkBmap b = decide (b < 10)
  inodeBmap : ∀ a, bmapIsset fs.inodeBmap a = decide (a < 2)
  inodeTab : fs.inodeTab =
    Function.update (fun _ => fsiInodeInit .clear) 1 (fsiInodeInit .dir)
  blockCache : fs.blockCache = fun _ => ⟨0, .zero, false, 0⟩
  inodeCache : fs.inodeCache = fun _ => ⟨0, fsiInodeInit .clear, false, 0⟩
  dirCache : fs.dirCache = fun _ => ⟨0, 0, .zero, 0⟩
  clock : fs.clock = clock

private theorem fsFormat_numBlocks (fs : Fs) : (fsFormat fs).numBlocks = fs.numBlocks := by
  rw [fsFormat, numBlocks_store, Fs.numBlocks, Fs.numBlocks, numBlocks_erase]

private theorem unwrapped_erase {fs : Fs} (h : fs.blocks.Unwrapped) :
    (eraseBlocks fs.numBlocks fs.blocks).Unwrapped := by
  rwa [Blocks.Unwrapped, numBlocks_erase]

private theorem fsFormat_content {fs : Fs} (blank : Blank fs.blocks)
    (unwrapped : fs.blocks.Unwrapped)
    (data : 10 ≤ fs.numBlocks) {b : Nat} (low : 10 ≤ b) (lt : b < fs.numBlocks) :
    (fsFormat fs).blocks.content b = .zero := by
  have size := numBlocks_erase fs.numBlocks fs.blocks
  rw [fsFormat]
  refine (content_store ?_ ?_ ?_ low).trans ((blank.erase _).content b)
  · exact unwrapped_erase unwrapped
  · exact Nat.le_trans data (Nat.le_of_eq size.symm)
  · exact Nat.lt_of_lt_of_eq lt size.symm

theorem fsBoot_formatted {num : Nat} {clock : Nat → Int} {fs : Fs} (data : 10 ≤ num)
    (unwrapped : num * 512 < 2 ^ 32) (boot : fsBoot num clock = some fs) :
    Formatted num clock fs := by
  rw [fsBoot, fsNew, blockNew] at boot
  split at boot
  · cases boot
  · simp only [Option.map_some, Option.some.injEq] at boot
    obtain ⟨new, hnew⟩ : ∃ new, new = fsiLoadFsdata
      { blocks := { numBlocks := num, blocks := fun _ => 0 }
        inodeBmap := .zero
        blkBmap := .zero
        inodeTab := fun _ => fsiInodeInit .clear
        blockCache := fun _ => ⟨0, .zero, false, 0⟩
        inodeCache := fun _ => ⟨0, fsiInodeInit .clear, false, 0⟩
        dirCache := fun _ => ⟨0, 0, .zero, 0⟩
        clock := clock } := ⟨_, rfl⟩
    rw [← hnew] at boot
    have blank : Blank new.blocks := by
      rw [hnew]
      exact fun _ => rfl
    have size : new.numBlocks = num := by rw [hnew]; rfl
    have whole : new.blocks.Unwrapped := by
      rw [hnew]
      exact unwrapped
    have blkBmap : new.blkBmap = .zero := by
      rw [hnew]
      rfl
    have inodeBmap : new.inodeBmap = .zero := by
      rw [hnew]
      rfl
    have tab : new.inodeTab = fun _ => fsiInodeInit .clear := by
      rw [hnew]
      exact funext (Blank.load fun _ => rfl)
    subst boot
    refine ⟨(fsFormat_numBlocks new).trans size, ?_, ?_, ?_, ?_, ?_, ?_, ?_, ?_, ?_⟩
    · refine unwrapped_store ?_
      exact unwrapped_erase whole
    · intro b low lt
      exact fsFormat_content blank whole (size ▸ data) low (size ▸ lt)
    · intro b
      have clear : bmapIsset (Buf.zero : Block) b = false := Buf.bit_zero b
      simp only [fsFormat, fsiStoreFsdata, blkBmap]
      rw [bmapIsset_reserveBlocks (by decide), clear, Bool.or_false]
    · intro a
      have clear : bmapIsset (Buf.zero : Block) a = false := Buf.bit_zero a
      simp only [fsFormat, fsiStoreFsdata, inodeBmap]
      rw [bmapIsset_set (by decide), bmapIsset_set (by decide), clear, Bool.false_or,
        ← Bool.decide_or]
      exact decide_eq_decide.mpr (by omega)
    · simp only [fsFormat, fsiStoreFsdata, tab]
    all_goals
      rw [hnew]
      rfl

theorem Formatted.inv {numBlocks : Nat} {clock : Nat → Int} {fs : Fs}
    (h : Formatted numBlocks clock fs) (data : 10 ≤ numBlocks) : Inv (fun _ => none) 2 fs := by
  have tab (a : Nat) : fs.inodeTab a = fsiInodeInit (if a = 1 then .dir else .clear) := by
    rw [h.inodeTab, Function.update_apply]
    split <;> rfl
  have noEntries (d : Nat) : childIds fs d = [] := by
    simp [childIds, dirEntries, numEntries, tab, fsiInodeInit]
  refine ⟨⟨h.numBlocks ▸ data, h.unwrapped, ?_, ?_⟩, ⟨Nat.le_refl 2, by decide, h.inodeBmap, ?_, ?_,
    ?_, ?_, ?_, ?_, ?_, ?_⟩, ⟨?_, ?_, ?_, ?_⟩, ⟨?_, ?_, ?_, ?_⟩⟩
  · intro b low
    rw [h.blkBmap]
    exact decide_eq_true low
  · intro b a i given
    cases given
  · rw [tab]
    rfl
  · rw [tab]
    rfl
  · intro a low lt
    rw [tab, if_pos (by omega)]
    exact .inl rfl
  · intro a _
    rw [tab]
    exact .init _ a _
  · intro s
    rw [h.inodeCache]
    exact Nat.zero_lt_two
  · intro s
    rw [h.inodeCache]
    exact .init _ 0 .clear
  · intro s
    rw [h.inodeCache, tab]
    rfl
  · intro s dirty
    rw [h.inodeCache] at dirty
    cases dirty
  · intro b low i j key
    rw [h.blockCache] at key
    simp only at key
    omega
  · intro b low _ i key
    rw [h.blockCache] at key
    simp only at key
    omega
  · intro s
    rw [h.blockCache]
    exact .inl ⟨rfl, rfl⟩
  · intro b low lt _
    exact h.content b low (h.numBlocks ▸ lt)
  · intro d _ _
    rw [tab]
    rfl
  · intro d a _ member
    rw [noEntries] at member
    cases member
  · simp [noEntries]
  · intro d i t _ _ hi
    rw [tab] at hi
    simp at hi

end Snfs
