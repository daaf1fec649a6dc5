import Snfs.Fs.Directories
import Snfs.Fs.Files

/-!
The operations that only look: `fs_lookup`, `fs_get_attrs` and `fs_readdir`.
They move entries through the directory cache and the inode cache and change
nothing that an operation could see on the device.
-/

namespace Snfs

open Slots

variable {own : Ledger} {top : Nat} {fs : Fs}

/-- Only the directory cache, the clock and the times in the inode cache differ. -/
structure Browsed (fs fs' : Fs) : Prop where
  rest : fs' = { fs with
    inodeCache := fs'.inodeCache, dirCache := fs'.dirCache, clock := fs'.clock }
  key : ∀ s, (fs'.inodeCache s).key = (fs.inodeCache s).key
  val : ∀ s, (fs'.inodeCache s).val = (fs.inodeCache s).val
  dirty : ∀ s, (fs'.inodeCache s).dirty = (fs.inodeCache s).dirty

namespace Browsed
variable {fs' fs'' : Fs}

theorem refl (fs : Fs) : Browsed fs fs := ⟨rfl, fun _ => rfl, fun _ => rfl, fun _ => rfl⟩

theorem trans (h : Browsed fs fs') (h' : Browsed fs' fs'') : Browsed fs fs'' := by
  refine ⟨?_, fun s => (h'.key s).trans (h.key s), fun s => (h'.val s).trans (h.val s),
    fun s => (h'.dirty s).trans (h.dirty s)⟩
  rw [h'.rest, h.rest]

theorem of_same (h : SameButDirs fs fs') : Browsed fs fs' := by
  rw [h]
  exact ⟨rfl, fun _ => rfl, fun _ => rfl, fun _ => rfl⟩

theorem touchInode (fs : Fs) (s : Fin inodeCacheSize) : Browsed fs (fs.touchInode s) :=
  ⟨rfl, Table.touch_key _ _ _, Table.touch_val _ _ _, Table.touch_dirty _ _ _⟩

theorem inv (h : Browsed fs fs') (ok : Inv own top fs) : Inv own top fs' := by
  have key := h.key
  have val := h.val
  have dirty := h.dirty
  rw [h.rest]
  refine ⟨⟨ok.ledger.data, ok.ledger.unwrapped, ok.ledger.reserved, ok.ledger.given⟩,
    ⟨ok.inodes.two_le, ok.inodes.le_size, ok.inodes.inUse, ok.inodes.zero, ok.inodes.root,
      ok.inodes.kind, ok.inodes.table, fun s => ?_, fun s => ?_, fun s => ?_, fun s => ?_⟩,
    ⟨ok.blocks.single, ok.blocks.clean, ok.blocks.slot, ok.blocks.fresh⟩,
    ⟨ok.tree.aligned, ok.tree.order, ok.tree.children, ok.tree.tail⟩⟩
  · rw [key]
    exact ok.inodes.key_lt s
  · rw [key, val]
    exact ok.inodes.cached s
  · rw [key, val]
    exact ok.inodes.cachedType s
  · rw [key, dirty]
    exact ok.inodes.dirtyFile s

theorem quiet (h : Browsed fs fs') (top : Nat) : Quiet top fs fs' := by
  rw [h.rest]
  exact ⟨.of_eq _ rfl rfl rfl, rfl, fun _ _ _ => rfl⟩

theorem deref (h : Browsed fs fs') (p : InodePtr) : fs'.deref p = fs.deref p := by
  cases p with
  | cached s => exact h.val s
  | table b => rw [h.rest]; rfl

theorem find (h : Browsed fs fs') (a : Nat) : fs'.inodeCache.find? a = fs.inodeCache.find? a :=
  Table.find_congr h.key a

end Browsed

/-- What every search of a directory keeps, the walk along a path keeps. -/
theorem lookupFrom_keeps {P : Fs → Prop}
    (search : ∀ s dir name, P s → IsDir s dir → name ≠ [] → P (fsiDirSearch s dir name).2)
    (dir : Nat) (id : Option Nat) {tokens : List CString} (nonempty : [] ∉ tokens) {fs : Fs}
    (h : P fs) : P (lookupFrom dir id tokens fs).2 := by
  induction tokens generalizing dir id fs with
  | nil => exact h
  | cons token rest ih =>
      have some : token ≠ [] := fun empty => nonempty (empty ▸ List.mem_cons_self)
      have more : [] ∉ rest := fun member => nonempty (List.mem_cons_of_mem token member)
      by_cases unused : (!bmapIsset fs.inodeBmap dir) = true
      · rw [lookupFrom, if_pos unused]
        exact h
      by_cases other : (fs.inodeTab dir).type ≠ .dir
      · rw [lookupFrom, if_neg unused, if_pos other]
        exact h
      have isDir : IsDir fs dir := ⟨by simpa using unused, by simpa using other⟩
      have searched := search fs dir token h isDir some
      rw [lookupFrom, if_neg unused, if_neg other]
      split
      · rename_i fs' found
        rw [found] at searched
        exact searched
      · rename_i fid fs' found
        rw [found] at searched
        exact ih fid (Option.some fid) more searched

theorem components_nonempty (path : CString) : [] ∉ components path := by
  simp [components]

theorem fsLookup_keeps {P : Fs → Prop}
    (search : ∀ s dir name, P s → IsDir s dir → name ≠ [] → P (fsiDirSearch s dir name).2)
    (path : CString) {fs : Fs} (h : P fs) : P (fsLookup fs path).2 := by
  rw [fsLookup]
  split
  · exact h
  · exact lookupFrom_keeps search 1 none (components_nonempty path) h

private theorem lookupFrom_code (dir : Nat) (id : Option Nat) (tokens : List CString) (fs : Fs) :
    (lookupFrom dir id tokens fs).1.1 ≤ 0 ∨ (lookupFrom dir id tokens fs).1.1 = 1 := by
  induction tokens generalizing dir id fs with
  | nil => exact .inr rfl
  | cons token rest ih =>
      rw [lookupFrom]
      split
      · exact .inl (show (-1 : Int) ≤ 0 by decide)
      · split
        · exact .inl (show (-1 : Int) ≤ 0 by decide)
        · split
          · exact .inl (Int.le_refl 0)
          · exact ih _ _ _

theorem fsLookup_code (fs : Fs) (path : CString) :
    (fsLookup fs path).1.1 ≤ 0 ∨ (fsLookup fs path).1.1 = 1 := by
  rw [fsLookup]
  split
  · exact .inl (show (-1 : Int) ≤ 0 by decide)
  · exact lookupFrom_code 1 none _ fs

theorem fsLookup_same (fs : Fs) (path : CString) : SameButDirs fs (fsLookup fs path).2 :=
  fsLookup_keeps (fun s dir name h _ _ => h.trans (fsiDirSearch_same s dir name)) path (.refl fs)

def attrsOf (file : Nat) (inode : Inode) : Option FileAttrs :=
  match inode.type with
  | .dir => some ⟨file, .dir, inode.size, (inode.size / dentrySize : Nat)⟩
  | .file => some ⟨file, .file, inode.size, -1⟩
  | _ => none

theorem size_of_attrsOf {file : Nat} {inode : Inode} {attrs : FileAttrs}
    (told : attrsOf file inode = some attrs) : attrs.size = inode.size := by
  rw [attrsOf] at told
  split at told <;> cases told <;> rfl

theorem Inv.fsGetAttrs_cases (h : Inv own top fs) (file : Nat) :
    (top ≤ file ∧ fsGetAttrs fs file = some (none, fs)) ∨
    ∃ p fs₁, Snfs.openInode fs file = some (p, fs₁) ∧
      fsGetAttrs fs file = (attrsOf file (fs.seen file)).map fun attrs => (some attrs, fs₁) := by
  have small := h.inodes.le_size
  by_cases out : itabSize ≤ file
  · exact .inl ⟨by omega, by rw [fsGetAttrs, if_pos out]⟩
  cases opened : Snfs.openInode fs file with
  | none =>
      refine .inl ⟨h.openInode_eq_none.mp opened, ?_⟩
      rw [fsGetAttrs, if_neg out, opened]
  | some pair =>
      obtain ⟨p, fs₁⟩ := pair
      obtain ⟨-, -, -, -, copy, -⟩ := h.openInode opened
      refine .inr ⟨p, fs₁, rfl, ?_⟩
      rw [fsGetAttrs, if_neg out, opened]
      simp only [copy, attrsOf]
      cases (fs.seen file).type <;> rfl

theorem Inv.fsGetAttrs (h : Inv own top fs) {file : Nat} {attrs : Option FileAttrs} {fs' : Fs}
    (result : fsGetAttrs fs file = some (attrs, fs')) :
    Inv own top fs' ∧ Quiet top fs fs' ∧ fs'.dirCache = fs.dirCache := by
  rcases h.fsGetAttrs_cases file with ⟨-, stop⟩ | ⟨p, fs₁, opened, reported⟩
  · rw [stop] at result
    cases result
    exact ⟨h, .refl top fs, rfl⟩
  · obtain ⟨-, h₁, quiet₁, -, -, dirs⟩ := h.openInode opened
    rw [reported, Option.map_eq_some_iff] at result
    obtain ⟨_, -, same⟩ := result
    cases same
    exact ⟨h₁, quiet₁, dirs⟩

theorem fsGetAttrs_keeps {P : Fs → Prop}
    (opens : ∀ s a p s', P s → openInode s a = some (p, s') → P s') {file : Nat}
    {attrs : Option FileAttrs} {fs' : Fs} (h : P fs)
    (result : Snfs.fsGetAttrs fs file = some (attrs, fs')) : P fs' := by
  rw [Snfs.fsGetAttrs] at result
  split at result
  · cases result
    exact h
  · split at result
    · cases result
      exact h
    · rename_i p fs₁ opened
      have kept := opens fs file p fs₁ h opened
      simp only at result
      split at result
      · cases result
        exact kept
      · cases result
        exact kept
      · cases result

theorem entryType_browsed (fs : Fs) (id : Nat) : Browsed fs (entryType fs id).2 := by
  rw [entryType]
  split
  · exact .touchInode fs _
  · split <;> exact .refl fs

theorem listEntries_browsed (page : Block) (n i : Nat) (fs : Fs) :
    Browsed fs (listEntries page n i fs).2 := by
  induction n generalizing i fs with
  | zero => exact .refl fs
  | succ n ih =>
      rw [listEntries]
      exact (entryType_browsed fs _).trans (ih (i + 1) _)

private theorem listPages_browsed (dir : Nat) (idir : InodePtr) (fuel iblock num : Nat) (fs : Fs) :
    Browsed fs (listPages dir idir fuel iblock num fs).2 := by
  induction fuel generalizing iblock num fs with
  | zero => exact .refl fs
  | succ fuel ih =>
      rw [listPages]
      split
      · exact .refl fs
      · split
        · exact .refl fs
        · rename_i page fs' loaded
          have listed := listEntries_browsed page (min dirPageEntries num) 0 fs'
          exact (Browsed.of_same (loadDirPage_same loaded)).trans (listed.trans (ih _ _ _))

theorem fsReaddir_state (fs : Fs) (dir : Nat) (maxentries : Int) :
    (fsReaddir fs dir maxentries).2 = fs ∨
      ∃ p fs₁, openInode fs dir = some (p, fs₁) ∧ Browsed fs₁ (fsReaddir fs dir maxentries).2 := by
  rw [fsReaddir]
  split
  · exact .inl rfl
  · split
    · exact .inl rfl
    · rename_i idir fs₁ opened
      refine .inr ⟨idir, fs₁, opened, ?_⟩
      split
      · exact .refl fs₁
      · exact listPages_browsed dir idir _ 0 _ fs₁

theorem Inv.fsReaddir (h : Inv own top fs) (dir : Nat) (maxentries : Int) :
    Inv own top (fsReaddir fs dir maxentries).2 ∧ Quiet top fs (fsReaddir fs dir maxentries).2 := by
  rcases fsReaddir_state fs dir maxentries with same | ⟨p, fs₁, opened, listed⟩
  · rw [same]
    exact ⟨h, .refl top fs⟩
  · obtain ⟨-, h₁, quiet₁, -⟩ := h.openInode opened
    exact ⟨listed.inv h₁, quiet₁.trans (listed.quiet top)⟩

end Snfs
