import Snfs.Fs.Ops
import Mathlib.Data.List.Range

/-!
The data of the file system layer, piece by piece: sizes in blocks, bitmaps and
the search for a free number, entries of a directory page, the blocks that the
metadata is stored on.
-/

namespace Snfs

open Slots

theorem offsetToBlocks_eq (pos : Nat) : offsetToBlocks pos = (pos + 511) / 512 := by
  simp only [offsetToBlocks, blockSize]
  split <;> omega

theorem lt_offsetToBlocks {pos i : Nat} : i < offsetToBlocks pos ↔ 512 * i < pos := by
  rw [offsetToBlocks_eq]
  omega

theorem offsetToBlocks_le {pos n : Nat} : offsetToBlocks pos ≤ n ↔ pos ≤ 512 * n := by
  rw [offsetToBlocks_eq]
  omega

theorem offsetToBlocks_mono {p q : Nat} (h : p ≤ q) : offsetToBlocks p ≤ offsetToBlocks q := by
  rw [offsetToBlocks_eq, offsetToBlocks_eq]
  omega

theorem Inode.lt_used {c : Inode} {i : Nat} : i < c.used ↔ 512 * i < c.size :=
  lt_offsetToBlocks

@[simp] theorem Inode.setBlock_size (c : Inode) (i b : Nat) : (c.setBlock i b).size = c.size := rfl

theorem Inode.setBlock_blocks (c : Inode) (i b j : Nat) :
    (c.setBlock i b).blocks j = if j = i then b else c.blocks j := by
  by_cases h : j = i <;> simp [setBlock, h]

@[simp] theorem fsiInodeInit_used (type : Itype) : (fsiInodeInit type).used = 0 := by
  simp [Inode.used, fsiInodeInit, offsetToBlocks]

theorem bmapIsset_set {bmap : Block} {b : Nat} (h : b < bmapBits) (j : Nat) :
    bmapIsset (bmapSet bmap b) j = (bmapIsset bmap j || decide (b = j)) :=
  Buf.bit_setBit bmap h j

theorem bmapIsset_set_mono {bmap : Block} (b : Nat) {j : Nat} (hj : bmapIsset bmap j = true) :
    bmapIsset (bmapSet bmap b) j = true :=
  Buf.bit_setBit_mono bmap b hj

theorem findFree_spec {bmap : Block} {size b : Nat} (h : fsiBmapFindFree bmap size = some b) :
    b < size ∧ bmapIsset bmap b = false ∧ ∀ j, j < b → bmapIsset bmap j = true := by
  rw [fsiBmapFindFree, List.find?_range_eq_some] at h
  obtain ⟨clear, inside, least⟩ := h
  exact ⟨List.mem_range.mp inside, by simpa using clear, fun j hj => by simpa using least j hj⟩

theorem findFree_eq_none {bmap : Block} {size : Nat} :
    fsiBmapFindFree bmap size = none ↔ ∀ j, j < size → bmapIsset bmap j = true := by
  simp [fsiBmapFindFree]

def freeBits (bmap : Block) (size : Nat) : Nat :=
  ((List.range size).filter fun b => !bmapIsset bmap b).length

private theorem freeBits_pos {bmap : Block} {size : Nat} (h : 0 < freeBits bmap size) :
    ∃ b, b < size ∧ bmapIsset bmap b = false := by
  obtain ⟨b, hb⟩ := List.exists_mem_of_length_pos h
  obtain ⟨inside, clear⟩ := List.mem_filter.mp hb
  exact ⟨b, List.mem_range.mp inside, by simpa using clear⟩

theorem freeBits_eq_zero {bmap : Block} {size : Nat}
    (full : ∀ b, b < size → bmapIsset bmap b = true) : freeBits bmap size = 0 := by
  by_contra some
  obtain ⟨b, inside, clear⟩ := freeBits_pos (Nat.pos_of_ne_zero some)
  rw [full b inside] at clear
  cases clear

theorem freeBits_set {bmap : Block} {size b : Nat} (h : b < bmapBits) (inside : b < size)
    (clear : bmapIsset bmap b = false) :
    freeBits (bmapSet bmap b) size + 1 = freeBits bmap size := by
  have split : ((List.range size).filter fun j => !bmapIsset (bmapSet bmap b) j) =
      ((List.range size).filter fun j => !bmapIsset bmap j).erase b := by
    rw [List.Nodup.erase_eq_filter (List.nodup_range.filter _), List.filter_filter]
    apply List.filter_congr
    intro j _
    rw [bmapIsset_set h]
    by_cases same : b = j
    · simp [same]
    · simp [same, Ne.symm same]
  have member : b ∈ (List.range size).filter fun j => !bmapIsset bmap j := by
    simp [clear, List.mem_range.mpr inside]
  have length := List.length_erase_of_mem member
  have pos := List.length_pos_of_mem member
  unfold freeBits
  rw [split, length]
  omega

/-- `k` blocks can be allocated without a look past the last bit of the block bitmap. -/
def Room (fs : Fs) (k : Nat) : Prop := fs.numBlocks ≤ bmapBits ∨ k ≤ freeBits fs.blkBmap bmapBits

instance (fs : Fs) (k : Nat) : Decidable (Room fs k) :=
  inferInstanceAs (Decidable (_ ≤ _ ∨ _ ≤ _))

theorem Room.mono {fs : Fs} {k l : Nat} (h : Room fs l) (le : k ≤ l) : Room fs k :=
  h.imp_right le.trans

theorem Room.congr {fs fs' : Fs} {k : Nat} (h : Room fs k) (num : fs'.numBlocks = fs.numBlocks)
    (bmap : fs'.blkBmap = fs.blkBmap) : Room fs' k := by
  unfold Room at h ⊢
  rwa [num, bmap]

theorem Room.found {fs : Fs} {k b : Nat} (h : Room fs (k + 1))
    (found : fsiBmapFindFree fs.blkBmap fs.numBlocks = some b) : b < bmapBits := by
  obtain ⟨inside, -, least⟩ := findFree_spec found
  rcases h with small | free
  · omega
  · obtain ⟨j, hj, clear⟩ := freeBits_pos (Nat.lt_of_lt_of_le (Nat.succ_pos k) free)
    by_contra out
    have set := least j (by omega)
    rw [clear] at set
    cases set

theorem Room.alloc {fs fs' : Fs} {k b : Nat} (h : Room fs (k + 1))
    (found : fsiBmapFindFree fs.blkBmap fs.numBlocks = some b)
    (num : fs'.numBlocks = fs.numBlocks) (bmap : fs'.blkBmap = bmapSet fs.blkBmap b) :
    Room fs' k := by
  have inside := h.found found
  have count := freeBits_set inside inside (findFree_spec found).2.1
  unfold Room at h ⊢
  rw [num, bmap]
  omega

theorem get_setEntry_outside {page : Block} {j : Nat} {name : CString} {id i : Nat}
    (short : name.length < fsMaxFnameSz) (hi : i < blockSize)
    (outside : i < dentrySize * j ∨ dentrySize * j + dentrySize ≤ i) :
    (setEntry page j name id).get i = page.get i := by
  simp only [dentrySize, fsMaxFnameSz] at *
  have first : ¬ (16 * j + 14 ≤ i ∧ i < 16 * j + 14 + 2) := by omega
  have second : ¬ (16 * j ≤ i ∧ i < 16 * j + (name.length + 1)) := by omega
  rw [setEntry, Buf.get_splice _ _ _ hi, Buf.get_splice _ _ _ hi]
  simp [first, second]

theorem entryName_setEntry {page : Block} {j : Nat} {name : CString} {id : Nat}
    (short : name.length < fsMaxFnameSz) (free : (0 : UInt8) ∉ name) (hj : j < dirPageEntries) :
    entryName (setEntry page j name id) j = name := by
  simp only [fsMaxFnameSz, dirPageEntries] at *
  have byte (k : Nat) (hk : k ≤ name.length) :
      (setEntry page j name id).get (16 * j + k) = (name ++ [0]).getD k 0 := by
    have hi : 16 * j + k < blockSize := by simp only [blockSize]; omega
    rw [setEntry, Buf.get_splice _ _ _ hi, Buf.get_splice _ _ _ hi]
    rw [if_neg (by simp only [dentrySize, List.length_cons, List.length_nil]; omega),
      if_pos (by simp only [dentrySize, List.length_append, List.length_cons, List.length_nil]; omega)]
    simp only [dentrySize, Nat.add_sub_cancel_left]
  apply Buf.cstr_of_stored short free
  · intro k hk
    rw [byte k (by omega)]
    simp [List.getD_eq_getElem?_getD, List.getElem?_append_left hk, hk]
  · rw [byte _ (Nat.le_refl _)]
    simp [List.getD_eq_getElem?_getD]

theorem entryInodeid_setEntry {page : Block} {j : Nat} {name : CString} {id : Nat}
    (hj : j < dirPageEntries) (hid : id < 2 ^ 16) :
    entryInodeid (setEntry page j name id) j = id := by
  simp only [dirPageEntries] at hj
  have low : (setEntry page j name id).get (dentrySize * j + 14) = UInt8.ofNat id := by
    rw [setEntry, Buf.get_splice _ _ _ (by simp only [dentrySize, blockSize]; omega)]
    simp
  have high : (setEntry page j name id).get (dentrySize * j + 15) = UInt8.ofNat (id / 256) := by
    rw [setEntry, Buf.get_splice _ _ _ (by simp only [dentrySize, blockSize]; omega)]
    simp
  rw [entryInodeid, low, high]
  simp only [UInt8.toNat_ofNat']
  omega

theorem entryName_congr {page page' : Block} {j : Nat}
    (h : ∀ k, k < dentrySize → page'.get (dentrySize * j + k) = page.get (dentrySize * j + k)) :
    entryName page' j = entryName page j :=
  Buf.cstr_congr fun k hk => h k (Nat.lt_trans hk (by decide))

theorem entryInodeid_congr {page page' : Block} {j : Nat}
    (h : ∀ k, k < dentrySize → page'.get (dentrySize * j + k) = page.get (dentrySize * j + k)) :
    entryInodeid page' j = entryInodeid page j := by
  rw [entryInodeid, entryInodeid, h 14 (by decide), h 15 (by decide)]

theorem get_setEntry_other {page : Block} {i j : Nat} {name : CString} {id : Nat}
    (short : name.length < fsMaxFnameSz) (ne : i ≠ j) (hi : i < dirPageEntries) :
    ∀ k, k < dentrySize →
      (setEntry page j name id).get (dentrySize * i + k) = page.get (dentrySize * i + k) := by
  intro k hk
  simp only [dirPageEntries, dentrySize] at hi hk
  apply get_setEntry_outside short
  · simp only [blockSize, dentrySize]; omega
  · simp only [dentrySize]; omega

@[simp] theorem numBlocks_storeInodeTab (tab : Nat → Inode) (n : Nat) (bks : Blocks blockSize) :
    (storeInodeTab tab n bks).numBlocks = bks.numBlocks := by
  induction n with
  | zero => rfl
  | succ n ih => rw [storeInodeTab, Blocks.numBlocks_write, ih]

theorem unwrapped_storeInodeTab {tab : Nat → Inode} {n : Nat} {bks : Blocks blockSize}
    (h : bks.Unwrapped) : (storeInodeTab tab n bks).Unwrapped := by
  simpa [Blocks.Unwrapped] using h

private theorem content_storeInodeTab {tab : Nat → Inode} {n : Nat} {bks : Blocks blockSize}
    (h : bks.Unwrapped) (room : n + 2 ≤ bks.numBlocks) {b : Nat} (hb : b < bks.numBlocks)
    (above : n + 2 ≤ b) : (storeInodeTab tab n bks).content b = bks.content b := by
  induction n with
  | zero => rfl
  | succ n ih =>
      rw [storeInodeTab, Blocks.content_write (unwrapped_storeInodeTab h) (by simp; omega) _
        (by simpa using hb), if_neg (by omega), ih (by omega) (by omega)]

@[simp] theorem numBlocks_store (fs : Fs) : (fsiStoreFsdata fs).numBlocks = fs.numBlocks := by
  simp [fsiStoreFsdata, Fs.numBlocks]

theorem unwrapped_store {fs : Fs} (h : fs.blocks.Unwrapped) :
    (fsiStoreFsdata fs).blocks.Unwrapped := by
  simpa [fsiStoreFsdata, Blocks.Unwrapped] using h

/-- Storing the metadata leaves the data blocks alone. -/
theorem content_store {fs : Fs} (h : fs.blocks.Unwrapped) (room : 10 ≤ fs.numBlocks) {b : Nat}
    (hb : b < fs.numBlocks) (data : 10 ≤ b) :
    (fsiStoreFsdata fs).blocks.content b = fs.blocks.content b := by
  unfold Fs.numBlocks at room hb
  have first := (h.write 0 fs.blkBmap).write 1 fs.inodeBmap
  simp only [fsiStoreFsdata]
  rw [content_storeInodeTab first (by simp; omega) (by simpa using hb) (by simpa using data),
    Blocks.content_write (h.write 0 fs.blkBmap) (by simp; omega) _ (by simpa using hb),
    if_neg (by omega), Blocks.content_write h (by omega) _ hb, if_neg (by omega)]

end Snfs
