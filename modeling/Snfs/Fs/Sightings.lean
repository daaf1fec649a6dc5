import Snfs.Fs.Names
import Snfs.Fs.Pages

/-!
What the directory cache may be trusted with in every run. A cached page can be older
than the device's, and a search copies the entry it has found into a blank of another
page; but whatever stands in the cache stands in the directory, at a place that the
search loop comes to. So no search tells of a name that the directory has not got, and
a name that has once been found is found ever after.
-/

namespace Snfs

open Slots Runs

def readEntry (page : Block) (j : Nat) : CString × Nat := (entryName page j, entryInodeid page j)

/-- Entry `k` of a directory in the page that an operation finds for it. -/
def shownEntry (fs : Fs) (d k : Nat) : CString × Nat :=
  readEntry (pageSeen fs d ((fs.inodeTab d).blocks (k / dirPageEntries))) (k % dirPageEntries)

/-- Entry `k` of a directory is `e`, on the device and where an operation looks for it. -/
structure SeenAt (fs : Fs) (d k : Nat) (e : CString × Nat) : Prop where
  isDir : IsDir fs d
  lt : k < numEntries fs d
  entry : entryAt fs d k = e
  shown : shownEntry fs d k = e

def Seen (fs : Fs) (d : Nat) (e : CString × Nat) : Prop := ∃ k, SeenAt fs d k e

/-- Each page of a directory is cached once at most, and every name in the cache is seen. -/
structure Sighted (fs : Fs) : Prop where
  inUse : ∀ s, bmapIsset fs.inodeBmap (fs.dirCache s).dirNum = true
  alone : ∀ s t, IsDir fs (fs.dirCache s).dirNum →
    (fs.dirCache t).dirNum = (fs.dirCache s).dirNum →
    (fs.dirCache t).blockNum = (fs.dirCache s).blockNum → t = s
  home : ∀ s j, j < dirPageEntries → entryName (fs.dirCache s).entries j = [] ∨
    Seen fs (fs.dirCache s).dirNum (readEntry (fs.dirCache s).entries j)

variable {own own' : Ledger} {top : Nat} {fs fs' fs₁ : Fs} {d k : Nat} {e : CString × Nat}

theorem SeenAt.mem (seen : SeenAt fs d k e) : e ∈ dirEntries fs d := by
  rw [← seen.entry]
  exact List.mem_map_of_mem (List.mem_range.mpr seen.lt)

theorem Seen.mem (seen : Seen fs d e) : e ∈ dirEntries fs d := by
  obtain ⟨k, seen⟩ := seen
  exact seen.mem

theorem readEntry_copyEntry (dst src : Block) {i j m : Nat} (hi : i < dirPageEntries) :
    readEntry (copyEntry dst i src j) m = if m = i then readEntry src j else readEntry dst m := by
  have small : i < 32 := hi
  have length : (src.slice (dentrySize * j) dentrySize).length = 16 := Buf.length_slice _ _ _
  by_cases here : m = i
  · subst here
    rw [if_pos rfl]
    have bytes (k : Nat) (hk : k < 16) :
        (copyEntry dst m src j).get (16 * m + k) = src.get (16 * j + k) := by
      rw [copyEntry, Buf.get_splice_self _ (by rwa [length])
        (by rw [length]; simp only [dentrySize, blockSize]; omega), Buf.getElem_slice]
    have name : entryName (copyEntry dst m src j) m = entryName src j := by
      rw [entryName, entryName, Buf.cstr, Buf.cstr]
      refine congrArg _ (List.ext_getElem (by rw [Buf.length_slice, Buf.length_slice]) ?_)
      intro k hk _
      rw [Buf.length_slice] at hk
      rw [Buf.getElem_slice, Buf.getElem_slice]
      exact bytes k (Nat.lt_trans hk (by decide))
    rw [readEntry, readEntry, name, entryInodeid, entryInodeid, bytes 14 (by decide),
      bytes 15 (by decide)]
  · rw [if_neg here]
    have same (k : Nat) (hk : k < dentrySize) :
        (copyEntry dst i src j).get (dentrySize * m + k) = dst.get (dentrySize * m + k) := by
      have lt : k < 16 := hk
      rw [copyEntry]
      refine Buf.get_splice_other _ ?_
      rw [length]
      simp only [dentrySize]
      omega
    rw [readEntry, readEntry, entryName_congr same, entryInodeid_congr same]

/-- A name on a page of a directory on the device is that of an entry. -/
theorem Inv.entry_of_named (h : Inv own top fs) (isDir : IsDir fs d) {i j : Nat}
    (hi : 32 * i < numEntries fs d) (hj : j < dirPageEntries)
    (named : entryName (fs.blocks.content ((fs.inodeTab d).blocks i)) j ≠ []) :
    32 * i + j < numEntries fs d ∧
      entryAt fs d (32 * i + j) = readEntry (fs.blocks.content ((fs.inodeTab d).blocks i)) j := by
  obtain ⟨lt, dir⟩ := h.isDir_iff.mp isDir
  have size := h.tree.size_eq lt dir
  have small : j < 32 := hj
  have page : (32 * i + j) / dirPageEntries = i := by
    simp only [dirPageEntries]
    omega
  have entry : (32 * i + j) % dirPageEntries = j := by
    simp only [dirPageEntries]
    omega
  refine ⟨?_, by simp only [entryAt, entryPage, page, entry, readEntry]⟩
  by_contra out
  refine named (Buf.cstr_eq_nil (h.tree.tail d i _ lt dir (Inode.lt_used.mpr (by omega)) ?_ ?_))
  · simp only [dentrySize, blockSize]
    omega
  · simp only [dentrySize, blockSize]
    omega

/-- A page is found in a slot, or no slot has it. -/
theorem pageSeen_cases (fs : Fs) (d b : Nat) :
    (∃ s, (fs.dirCache s).dirNum = d ∧ (fs.dirCache s).blockNum = b ∧
      pageSeen fs d b = (fs.dirCache s).entries) ∨
    (∀ s, (fs.dirCache s).dirNum = d → (fs.dirCache s).blockNum ≠ b) ∧
      pageSeen fs d b = fs.blocks.content b := by
  rw [pageSeen]
  cases found : findDirSlot fs fun e => e.dirNum == d && e.blockNum == b with
  | some s =>
      have here := of_findDirSlot found
      simp only [Bool.and_eq_true, beq_iff_eq] at here
      exact .inl ⟨s, here.1, here.2, rfl⟩
  | none =>
      refine .inr ⟨fun s num block => ?_, rfl⟩
      have none := Fin.find?_eq_none_iff.mp found s
      simp [num, block] at none

theorem Sighted.pageSeen_slot (sighted : Sighted fs) {s : Fin dirCacheSize}
    (isDir : IsDir fs (fs.dirCache s).dirNum) :
    pageSeen fs (fs.dirCache s).dirNum (fs.dirCache s).blockNum = (fs.dirCache s).entries := by
  rcases pageSeen_cases fs (fs.dirCache s).dirNum (fs.dirCache s).blockNum with
    ⟨t, num, block, page⟩ | ⟨none, -⟩
  · rw [page, sighted.alone s t isDir num block]
  · exact absurd rfl (none s rfl)

/-- A name where an operation looks for one is seen. -/
theorem Sighted.pageSeen_home (sighted : Sighted fs) (h : Inv own top fs) (isDir : IsDir fs d)
    {i j : Nat} (hi : 32 * i < numEntries fs d) (hj : j < dirPageEntries)
    (named : entryName (pageSeen fs d ((fs.inodeTab d).blocks i)) j ≠ []) :
    Seen fs d (readEntry (pageSeen fs d ((fs.inodeTab d).blocks i)) j) := by
  rcases pageSeen_cases fs d ((fs.inodeTab d).blocks i) with ⟨s, rfl, -, page⟩ | ⟨-, page⟩
  · rw [page] at named ⊢
    exact (sighted.home s j hj).resolve_left named
  · rw [page] at named
    obtain ⟨lt, entry⟩ := h.entry_of_named isDir hi hj named
    have small : j < 32 := hj
    have index : (32 * i + j) / dirPageEntries = i ∧ (32 * i + j) % dirPageEntries = j := by
      simp only [dirPageEntries]
      omega
    refine ⟨32 * i + j, isDir, lt, by rw [page]; exact entry, ?_⟩
    rw [shownEntry, index.1, index.2]

/-- An operation finds the page that it found before, or the device's. -/
def KeepsPages (fs fs' : Fs) : Prop :=
  ∀ d b, IsDir fs d → pageSeen fs' d b = pageSeen fs d b ∨
    pageSeen fs' d b = fs.blocks.content b

/-- What is seen stays seen. -/
def KeepsSeen (fs fs' : Fs) : Prop := ∀ d k e, e.1 ≠ [] → SeenAt fs d k e → SeenAt fs' d k e

theorem KeepsSeen.refl (fs : Fs) : KeepsSeen fs fs := fun _ _ _ _ seen => seen

theorem KeepsSeen.trans (keeps : KeepsSeen fs fs₁) (keeps' : KeepsSeen fs₁ fs') :
    KeepsSeen fs fs' :=
  fun d k e named seen => keeps' d k e named (keeps d k e named seen)

theorem KeepsSeen.seen (keeps : KeepsSeen fs fs') (named : e.1 ≠ []) (seen : Seen fs d e) :
    Seen fs' d e := by
  obtain ⟨k, seen⟩ := seen
  exact ⟨k, keeps d k e named seen⟩

theorem KeepsPages.keepsSeen (keeps : KeepsPages fs fs') (same : SameButDirs fs fs') :
    KeepsSeen fs fs' := by
  intro d k e _ seen
  have tab : fs'.inodeTab = fs.inodeTab := by rw [same]
  have blocks : fs'.blocks = fs.blocks := by rw [same]
  have entry : entryAt fs' d k = entryAt fs d k := by
    simp only [entryAt, entryPage, tab, blocks]
  refine ⟨by rw [IsDir, tab, same]; exact seen.isDir, by rw [numEntries, tab]; exact seen.lt,
    entry.trans seen.entry, ?_⟩
  rw [shownEntry, tab]
  rcases keeps d ((fs.inodeTab d).blocks (k / dirPageEntries)) seen.isDir with old | device
  · rw [old]
    exact seen.shown
  · rw [device]
    exact seen.entry

theorem Sighted.touchDir (sighted : Sighted fs) (s : Fin dirCacheSize) :
    Sighted (fs.touchDir s) ∧ KeepsPages fs (fs.touchDir s) := by
  have slots : SameSlots fs (fs.touchDir s) := fun t => by
    obtain ⟨time, slot⟩ := touchDir_slot fs s t
    rw [slot]
    exact ⟨rfl, rfl, rfl⟩
  have pages : KeepsPages fs (fs.touchDir s) := fun _ _ _ => .inl (pageSeen_congr slots rfl)
  refine ⟨⟨fun t => ?_, fun t u isDir => ?_, fun t j hj => ?_⟩, pages⟩
  · rw [(slots t).1]
    exact sighted.inUse t
  · rw [(slots t).1] at isDir
    rw [(slots t).1, (slots t).2.1, (slots u).1, (slots u).2.1]
    exact sighted.alone t u isDir
  · rw [(slots t).1, (slots t).2.2]
    by_cases named : entryName (fs.dirCache t).entries j = []
    · exact .inl named
    · exact .inr ((pages.keepsSeen rfl).seen named ((sighted.home t j hj).resolve_left named))

theorem Sighted.addDirAt (sighted : Sighted fs) (h : Inv own top fs) (isDir : IsDir fs d) {i : Nat}
    (hi : 32 * i < numEntries fs d) (v : Fin dirCacheSize)
    (absent : ∀ s, (fs.dirCache s).dirNum = d →
      (fs.dirCache s).blockNum ≠ (fs.inodeTab d).blocks i) :
    Sighted (addDirAt fs v d ((fs.inodeTab d).blocks i)
        (fs.blocks.content ((fs.inodeTab d).blocks i))) ∧
      KeepsPages fs (Snfs.addDirAt fs v d ((fs.inodeTab d).blocks i)
        (fs.blocks.content ((fs.inodeTab d).blocks i))) := by
  generalize added : Snfs.addDirAt fs v d ((fs.inodeTab d).blocks i)
    (fs.blocks.content ((fs.inodeTab d).blocks i)) = fs₁
  have same : SameButDirs fs fs₁ := by rw [← added]; rfl
  have tab : fs₁.inodeTab = fs.inodeTab := by rw [same]
  have bmap : fs₁.inodeBmap = fs.inodeBmap := by rw [same]
  have here : fs₁.dirCache v = ⟨d, (fs.inodeTab d).blocks i,
      fs.blocks.content ((fs.inodeTab d).blocks i), fs.now⟩ := by
    rw [← added]
    exact Function.update_self _ _ _
  have other {s : Fin dirCacheSize} (ne : s ≠ v) : fs₁.dirCache s = fs.dirCache s := by
    rw [← added]
    exact Function.update_of_ne ne _ _
  have alone (s t : Fin dirCacheSize) (isDir' : IsDir fs (fs₁.dirCache s).dirNum)
      (num : (fs₁.dirCache t).dirNum = (fs₁.dirCache s).dirNum)
      (block : (fs₁.dirCache t).blockNum = (fs₁.dirCache s).blockNum) : t = s := by
    by_cases first : s = v
    · by_contra apart
      have ne : t ≠ v := fun eq => apart (eq.trans first.symm)
      rw [other ne, first, here] at num block
      exact absent t num block
    · by_cases second : t = v
      · rw [second, here, other first] at num block
        exact absurd block.symm (absent s num.symm)
      · rw [other first] at isDir'
        rw [other second, other first] at num block
        exact sighted.alone s t isDir' num block
  have pages : KeepsPages fs fs₁ := by
    intro d' b isDir'
    rcases pageSeen_cases fs₁ d' b with ⟨s, num, block, page⟩ | ⟨-, page⟩
    · by_cases first : s = v
      · rw [first, here] at block page
        right
        rw [page, ← block]
      · left
        rw [other first] at num block page
        subst num block
        rw [page, sighted.pageSeen_slot isDir']
    · right
      rw [page, same]
  have keeps := pages.keepsSeen same
  refine ⟨⟨fun s => ?_, fun s t isDir' => ?_, fun s j hj => ?_⟩, pages⟩
  · rw [bmap]
    by_cases first : s = v
    · rw [first, here]
      exact isDir.1
    · rw [other first]
      exact sighted.inUse s
  · rw [IsDir, tab, bmap] at isDir'
    exact alone s t isDir'
  · by_cases named : entryName (fs₁.dirCache s).entries j = []
    · exact .inl named
    right
    by_cases first : s = v
    · rw [first, here] at named ⊢
      dsimp only at named ⊢
      obtain ⟨lt, entry⟩ := h.entry_of_named isDir hi hj named
      have small : j < 32 := hj
      have index : (32 * i + j) / dirPageEntries = i ∧ (32 * i + j) % dirPageEntries = j := by
        simp only [dirPageEntries]
        omega
      have isDir₁ : IsDir fs₁ d := by rwa [IsDir, tab, bmap]
      have shown : pageSeen fs₁ d ((fs.inodeTab d).blocks i) =
          fs.blocks.content ((fs.inodeTab d).blocks i) := by
        rcases pageSeen_cases fs₁ d ((fs.inodeTab d).blocks i) with
          ⟨t, num, block, page⟩ | ⟨none, -⟩
        · have := alone v t (by rwa [here]) (by rw [num, here]) (by rw [block, here])
          rw [page, this, here]
        · exact absurd (by rw [here]) (none v (by rw [here]))
      refine ⟨32 * i + j, isDir₁, by rw [numEntries, tab]; exact lt, ?_, ?_⟩
      · rw [← entry]
        simp only [entryAt, entryPage, tab, show fs₁.blocks = fs.blocks by rw [same]]
      · rw [shownEntry, index.1, index.2, tab, shown]
    · rw [other first] at named ⊢
      exact keeps.seen named ((sighted.home s j hj).resolve_left named)

/-- What searches and listings do to a cache that is trusted. -/
structure Glanced (fs fs' : Fs) : Prop where
  same : SameButDirs fs fs'
  sighted : Sighted fs'
  keeps : KeepsSeen fs fs'

theorem Sighted.glanced (sighted : Sighted fs) : Glanced fs fs :=
  ⟨.refl fs, sighted, .refl fs⟩

theorem Glanced.trans (glanced : Glanced fs fs₁) (glanced' : Glanced fs₁ fs') : Glanced fs fs' :=
  ⟨glanced.same.trans glanced'.same, glanced'.sighted, glanced.keeps.trans glanced'.keeps⟩

theorem SameButDirs.isDir (same : SameButDirs fs fs') : IsDir fs' d ↔ IsDir fs d := by
  rw [same]
  exact Iff.rfl

theorem SameButDirs.numEntries (same : SameButDirs fs fs') (d : Nat) :
    numEntries fs' d = numEntries fs d := by
  rw [same]
  rfl

theorem Sighted.loadDirPage (sighted : Sighted fs) (h : Inv own top fs) (isDir : IsDir fs d)
    {i : Nat} (hi : 32 * i < numEntries fs d) :
    ∃ fs', Snfs.loadDirPage fs d ((fs.inodeTab d).blocks i) =
        some (pageSeen fs d ((fs.inodeTab d).blocks i), fs') ∧ Glanced fs fs' ∧
      pageSeen fs' d ((fs.inodeTab d).blocks i) = pageSeen fs d ((fs.inodeTab d).blocks i) ∧
      ∀ s, (fs.dirCache s).dirNum = d → (fs'.dirCache s).dirNum = d := by
  have lt := (h.isDir_iff.mp isDir).1
  have size := h.tree.size_eq lt isDir.2
  have used : i < (fs.inodeTab d).used := Inode.lt_used.mpr (by omega)
  have inside := (h.owned_range (h.dir_owned lt used)).2
  rw [Snfs.loadDirPage]
  cases found : findDirSlot fs fun e => e.dirNum == d && e.blockNum == (fs.inodeTab d).blocks i with
  | some s =>
      obtain ⟨sighted', pages⟩ := sighted.touchDir s
      have page : pageSeen fs d ((fs.inodeTab d).blocks i) = (fs.dirCache s).entries := by
        rw [pageSeen, found]
      refine ⟨fs.touchDir s, by rw [page], ⟨rfl, sighted', pages.keepsSeen rfl⟩, ?_,
        fun t num => ?_⟩
      · refine pageSeen_congr (fun t => ?_) rfl
        obtain ⟨time, slot⟩ := touchDir_slot fs s t
        rw [slot]
        exact ⟨rfl, rfl, rfl⟩
      · obtain ⟨time, slot⟩ := touchDir_slot fs s t
        rw [slot]
        exact num
  | none =>
      have absent (s : Fin dirCacheSize) (num : (fs.dirCache s).dirNum = d) :
          (fs.dirCache s).blockNum ≠ (fs.inodeTab d).blocks i := fun block => by
        have none := Fin.find?_eq_none_iff.mp found s
        simp [num, block] at none
      have page : pageSeen fs d ((fs.inodeTab d).blocks i) =
          fs.blocks.content ((fs.inodeTab d).blocks i) := by
        rw [pageSeen, found]
      obtain ⟨sighted', pages⟩ := sighted.addDirAt h isDir hi
        (oldest fun s => (fs.dirCache s).lastAccess) absent
      rw [Blocks.read_of_lt inside, ← page]
      rw [← page] at sighted' pages
      refine ⟨_, rfl, ?_, ?_, fun s num => ?_⟩
      · exact ⟨rfl, sighted', pages.keepsSeen rfl⟩
      · rcases pages d ((fs.inodeTab d).blocks i) isDir with old | device
        · exact old
        · rw [device, page]
      · simp only [Snfs.addDirAt]
        by_cases here : s = oldest fun s => (fs.dirCache s).lastAccess
        · rw [here, Function.update_self]
        · rw [Function.update_of_ne here]
          exact num

/-- An entry that is seen may be copied into a blank of the directory's pages. -/
theorem Sighted.patchCached (sighted : Sighted fs) {cachedDir : Option (Fin dirCacheSize)}
    (own : ∀ s ∈ cachedDir, (fs.dirCache s).dirNum = d) {page : Block} {i : Nat}
    (seen : Seen fs d (readEntry page i)) (named : entryName page i ≠ []) :
    Glanced fs (patchCached fs cachedDir page i) := by
  unfold Snfs.patchCached
  split
  · exact sighted.glanced
  rename_i s
  dsimp only
  split
  · exact sighted.glanced
  rename_i j found
  have hj : j < dirPageEntries := List.mem_range.mp (List.mem_of_find?_eq_some found)
  have zero : (fs.dirCache s).entries.get (dentrySize * j) = 0 := by
    simpa using List.find?_some found
  have blank : entryName (fs.dirCache s).entries j = [] := Buf.cstr_eq_nil zero
  have num := own s rfl
  generalize patched : ({ fs with dirCache := Function.update fs.dirCache s { fs.dirCache s with
    entries := copyEntry (fs.dirCache s).entries j page i } } : Fs) = fs'
  have same : SameButDirs fs fs' := by rw [← patched]; rfl
  have tab : fs'.inodeTab = fs.inodeTab := by rw [same]
  have blocks : fs'.blocks = fs.blocks := by rw [same]
  have here : fs'.dirCache s = { fs.dirCache s with
      entries := copyEntry (fs.dirCache s).entries j page i } := by
    rw [← patched]
    exact Function.update_self _ _ _
  have other {t : Fin dirCacheSize} (ne : t ≠ s) : fs'.dirCache t = fs.dirCache t := by
    rw [← patched]
    exact Function.update_of_ne ne _ _
  have key (t : Fin dirCacheSize) : (fs'.dirCache t).dirNum = (fs.dirCache t).dirNum ∧
      (fs'.dirCache t).blockNum = (fs.dirCache t).blockNum := by
    by_cases first : t = s
    · rw [first, here]
      exact ⟨rfl, rfl⟩
    · rw [other first]
      exact ⟨rfl, rfl⟩
  -- a name keeps its place in every slot
  have kept (t : Fin dirCacheSize) {m : Nat} (name : entryName (fs.dirCache t).entries m ≠ []) :
      readEntry (fs'.dirCache t).entries m = readEntry (fs.dirCache t).entries m := by
    by_cases first : t = s
    · subst first
      have apart : m ≠ j := fun eq => name (eq ▸ blank)
      rw [here]
      exact (readEntry_copyEntry _ _ hj).trans (if_neg apart)
    · rw [other first]
  have keeps : KeepsSeen fs fs' := by
    intro d' k e' name seen'
    refine ⟨same.isDir.mpr seen'.isDir, by rw [same.numEntries]; exact seen'.lt, ?_, ?_⟩
    · rw [← seen'.entry]
      simp only [entryAt, entryPage, tab, blocks]
    · have shown := seen'.shown
      rw [shownEntry] at shown ⊢
      rw [tab]
      rcases pageSeen_cases fs' d' ((fs.inodeTab d').blocks (k / dirPageEntries)) with
        ⟨t, num', block', page'⟩ | ⟨none, page'⟩
      · rw [(key t).1] at num'
        rw [(key t).2] at block'
        subst num'
        rw [← block', sighted.pageSeen_slot seen'.isDir] at shown
        rw [page', ← shown]
        refine kept t ?_
        rw [show entryName (fs.dirCache t).entries (k % dirPageEntries) = e'.1 from
          congrArg Prod.fst shown]
        exact name
      · rcases pageSeen_cases fs d' ((fs.inodeTab d').blocks (k / dirPageEntries)) with
          ⟨t, num', block', -⟩ | ⟨-, device⟩
        · exact absurd ((key t).2.trans block') (none t ((key t).1.trans num'))
        · rw [page', blocks, ← device]
          exact shown
  refine ⟨same, ⟨fun t => ?_, fun t u isDir => ?_, fun t m hm => ?_⟩, keeps⟩
  · rw [(key t).1, same]
    exact sighted.inUse t
  · rw [same.isDir, (key t).1] at isDir
    rw [(key t).1, (key t).2, (key u).1, (key u).2]
    exact sighted.alone t u isDir
  · by_cases name : entryName (fs.dirCache t).entries m = []
    · by_cases copied : t = s ∧ m = j
      · obtain ⟨rfl, rfl⟩ := copied
        right
        rw [here]
        dsimp only
        rw [readEntry_copyEntry _ _ hj, if_pos rfl, num]
        exact keeps.seen named seen
      · left
        by_cases first : t = s
        · subst first
          rw [here]
          have apart : m ≠ j := fun eq => copied ⟨rfl, eq⟩
          rw [show entryName (copyEntry (fs.dirCache t).entries j page i) m =
            entryName (fs.dirCache t).entries m from congrArg Prod.fst
              ((readEntry_copyEntry _ _ hj).trans (if_neg apart))]
          exact name
        · rw [other first]
          exact name
    · right
      rw [(key t).1, kept t name]
      exact keeps.seen name ((sighted.home t m hm).resolve_left name)

/-- What a search for a name finds is seen, and it finds a name that is seen from entry `from`
on. -/
structure Told (fs : Fs) (d first : Nat) (name : CString) (found : Option Nat × Fs) : Prop
    extends Glanced fs found.2 where
  true : ∀ id, found.1 = some id → Seen found.2 d (name, id)
  missed : found.1 = none → ∀ k id, first ≤ k → ¬ SeenAt fs d k (name, id)

private theorem findInPage_some {page : Block} {limit j : Nat} {name : CString}
    (found : findInPage page limit name = some j) : j < limit ∧ entryName page j = name :=
  ⟨List.mem_range.mp (List.mem_of_find?_eq_some found), by simpa using List.find?_some found⟩

theorem Sighted.searchPages (sighted : Sighted fs) (h : Inv own top fs) (isDir : IsDir fs d)
    {name : CString} (nonempty : name ≠ []) {cachedDir : Option (Fin dirCacheSize)}
    (here : ∀ s ∈ cachedDir, (fs.dirCache s).dirNum = d) {fuel iblock num : Nat}
    (rest : num = numEntries fs d - 32 * iblock) (enough : num ≤ fuel) :
    Told fs d (32 * iblock) name (Snfs.searchPages d name cachedDir fuel iblock num fs) := by
  induction fuel generalizing iblock num fs with
  | zero =>
      refine ⟨sighted.glanced, by simp [Snfs.searchPages], fun _ k id first seen => ?_⟩
      have lt := seen.lt
      omega
  | succ fuel ih =>
      rw [Snfs.searchPages]
      by_cases done : num = 0
      · rw [if_pos done]
        refine ⟨sighted.glanced, by simp, fun _ k id first seen => ?_⟩
        have lt := seen.lt
        omega
      rw [if_neg done]
      have page : 32 * iblock < numEntries fs d := by omega
      obtain ⟨fs₁, loaded, glanced, shown, nums⟩ := sighted.loadDirPage h isDir page
      have h₁ := glanced.same.inv h
      have isDir₁ := glanced.same.isDir.mpr isDir
      have tab : fs₁.inodeTab = fs.inodeTab := by rw [glanced.same]
      rw [loaded]
      dsimp only
      cases found : findInPage (pageSeen fs d ((fs.inodeTab d).blocks iblock))
          (min dirPageEntries num) name with
      | some j =>
          obtain ⟨lt, same⟩ := findInPage_some found
          have small : j < dirPageEntries := Nat.lt_of_lt_of_le lt (Nat.min_le_left _ _)
          have named : entryName (pageSeen fs₁ d ((fs₁.inodeTab d).blocks iblock)) j ≠ [] := by
            rw [tab, shown, same]
            exact nonempty
          have seen := glanced.sighted.pageSeen_home h₁ isDir₁
            (by rw [glanced.same.numEntries]; exact page) small named
          rw [tab, shown] at seen named
          have patched := glanced.sighted.patchCached
            (fun s member => nums s (here s member)) seen named
          refine ⟨glanced.trans patched, fun id result => ?_, by simp⟩
          cases result
          rw [← same]
          exact patched.keeps.seen named seen
      | none =>
          have later : Told fs₁ d (32 * (iblock + 1)) name (Snfs.searchPages d name cachedDir fuel
              (iblock + 1) (num - dirPageEntries) fs₁) :=
            ih glanced.sighted h₁ isDir₁ (fun s member => nums s (here s member))
              (by rw [glanced.same.numEntries]; simp only [dirPageEntries]; omega)
              (by simp only [dirPageEntries]; omega)
          refine ⟨glanced.trans later.toGlanced, later.true, fun none k id first seen => ?_⟩
          by_cases inside : k < 32 * (iblock + 1)
          · -- the entry is on this page
            have index : k / dirPageEntries = iblock ∧ k % dirPageEntries = k - 32 * iblock := by
              simp only [dirPageEntries]
              omega
            have entry := seen.shown
            rw [shownEntry, index.1, index.2] at entry
            have lt := seen.lt
            rw [findInPage, List.find?_range_eq_none] at found
            have other := found (k - 32 * iblock) (by simp only [dirPageEntries]; omega)
            rw [show entryName (pageSeen fs d ((fs.inodeTab d).blocks iblock)) (k - 32 * iblock) =
              name from congrArg Prod.fst entry] at other
            simp at other
          · exact later.missed none k id (by omega) (glanced.keeps d k (name, id) nonempty seen)

theorem Sighted.search (sighted : Sighted fs) (h : Inv own top fs) (isDir : IsDir fs d)
    {name : CString} (nonempty : name ≠ []) :
    Told fs d 0 name (fsiDirSearch fs d name) := by
  have all : numEntries fs d = numEntries fs d - 32 * 0 := by omega
  rw [fsiDirSearch]
  dsimp only
  split
  · exact sighted.searchPages h isDir nonempty (by simp) all (Nat.le_refl _)
  · rename_i s first
    have num : (fs.dirCache s).dirNum = d := by simpa using of_findDirSlot first
    obtain ⟨sighted₁, pages⟩ := sighted.touchDir s
    have glanced : Glanced fs (fs.touchDir s) := ⟨rfl, sighted₁, pages.keepsSeen rfl⟩
    have num₁ : ((fs.touchDir s).dirCache s).dirNum = d := by
      obtain ⟨time, slot⟩ := touchDir_slot fs s s
      rw [slot]
      exact num
    split
    · rename_i j found
      obtain ⟨lt, same⟩ := findInPage_some found
      refine ⟨glanced, fun id result => ?_, by simp⟩
      cases result
      have seen := (sighted₁.home s j lt).resolve_left (by rw [same]; exact nonempty)
      rw [num₁, readEntry, same] at seen
      exact seen
    · have same := glanced.same.numEntries d
      have own : ∀ t ∈ some s, ((fs.touchDir s).dirCache t).dirNum = d := by
        rintro t ⟨rfl⟩
        exact num₁
      have later := sighted₁.searchPages (glanced.same.inv h) (glanced.same.isDir.mpr isDir)
        nonempty own (show numEntries fs d = numEntries (fs.touchDir s) d - 32 * 0 by omega)
        (Nat.le_refl _)
      exact ⟨glanced.trans later.toGlanced, later.true, fun none k id first seen =>
        later.missed none k id first (glanced.keeps d k (name, id) nonempty seen)⟩

/-- The directory cache stays, and directories keep their entries where they are. -/
structure KeepsEntries (fs fs' : Fs) : Prop where
  dirCache : fs'.dirCache = fs.dirCache
  inUse : ∀ a, bmapIsset fs.inodeBmap a = true → bmapIsset fs'.inodeBmap a = true
  isDir : ∀ d, bmapIsset fs.inodeBmap d = true → (IsDir fs' d ↔ IsDir fs d)
  entry : ∀ d k, IsDir fs d → k < numEntries fs d → k < numEntries fs' d ∧
    entryAt fs' d k = entryAt fs d k ∧
    (fs'.inodeTab d).blocks (k / dirPageEntries) = (fs.inodeTab d).blocks (k / dirPageEntries)

private theorem pageSeen_sameCache (same : fs'.dirCache = fs.dirCache) (d b : Nat) :
    pageSeen fs' d b = pageSeen fs d b ∨ pageSeen fs' d b = fs'.blocks.content b := by
  rw [pageSeen, pageSeen, findDirSlot, findDirSlot, same]
  split
  · exact .inl rfl
  · exact .inr rfl

theorem KeepsEntries.keepsSeen (keeps : KeepsEntries fs fs') : KeepsSeen fs fs' := by
  intro d k e _ seen
  obtain ⟨lt, entry, block⟩ := keeps.entry d k seen.isDir seen.lt
  refine ⟨(keeps.isDir d seen.isDir.1).mpr seen.isDir, lt, entry.trans seen.entry, ?_⟩
  rcases pageSeen_sameCache keeps.dirCache d ((fs.inodeTab d).blocks (k / dirPageEntries)) with
    page | page
  · rw [shownEntry, block, page]
    exact seen.shown
  · rw [shownEntry, block, page, ← block]
    exact entry.trans seen.entry

theorem Sighted.keepsEntries (sighted : Sighted fs) (keeps : KeepsEntries fs fs') :
    Sighted fs' := by
  refine ⟨fun s => ?_, fun s t isDir => ?_, fun s j hj => ?_⟩
  · rw [keeps.dirCache]
    exact keeps.inUse _ (sighted.inUse s)
  · rw [keeps.dirCache] at isDir ⊢
    exact sighted.alone s t ((keeps.isDir _ (sighted.inUse s)).mp isDir)
  · rw [keeps.dirCache]
    by_cases named : entryName (fs.dirCache s).entries j = []
    · exact .inl named
    · exact .inr (keeps.keepsSeen.seen named ((sighted.home s j hj).resolve_left named))

theorem Calm.keepsEntries (calm : Calm top fs fs') (h : Inv own top fs) : KeepsEntries fs fs' := by
  refine ⟨calm.dirCache, fun a set => by rwa [calm.inodeBmap], fun d _ => calm.isDir,
    fun d k isDir lt => ?_⟩
  obtain ⟨below, dir⟩ := h.isDir_iff.mp isDir
  have size := h.tree.size_eq below dir
  have tab := calm.dir d dir
  have page := calm.page d (k / dirPageEntries) below dir
    (Inode.lt_used.mpr (by simp only [dirPageEntries]; omega))
  refine ⟨by rwa [numEntries, tab], ?_, by rw [tab]⟩
  simp only [entryAt, entryPage, tab, page]

/-- A creation adds an entry behind the others. -/
theorem Made.keepsEntries {type : Itype} {name : CString} (h : Inv own top fs)
    (made : Made own own' top type fs d name fs') (same : SameButDirs fs fs₁)
    (cached : fs'.dirCache = fs₁.dirCache) : KeepsEntries fs₁ fs' := by
  have bmap : fs₁.inodeBmap = fs.inodeBmap := by rw [same]
  have tab : fs₁.inodeTab = fs.inodeTab := by rw [same]
  have entry₁ (d k : Nat) : entryAt fs₁ d k = entryAt fs d k := by
    simp only [entryAt, entryPage, tab, show fs₁.blocks = fs.blocks by rw [same]]
  refine ⟨cached, fun a set => ?_, fun a set => ?_, fun a k isDir lt => ?_⟩
  · rw [bmap] at set
    rw [made.inv.inodes.inUse]
    exact decide_eq_true (Nat.lt_succ_of_lt (h.lt_top set))
  · rw [bmap] at set
    have old := h.lt_top set
    rw [made.inv.isDir_iff, made.type_old old, same.isDir, h.isDir_iff]
    exact and_congr_left fun _ => iff_of_true (Nat.lt_succ_of_lt old) old
  · rw [same.isDir] at isDir
    rw [same.numEntries] at lt
    rw [entry₁, tab]
    have old := (h.isDir_iff.mp isDir).1
    have size := h.tree.size_eq old isDir.2
    have used : k / dirPageEntries < (fs.inodeTab a).used :=
      Inode.lt_used.mpr (by simp only [dirPageEntries]; omega)
    -- the list of entries gains one at its end
    have entries : ∃ more, dirEntries fs' a = dirEntries fs a ++ more := by
      by_cases here : a = d
      · subst here
        exact ⟨_, made.entries_dir⟩
      · exact ⟨[], by rw [made.entries_other a old here, List.append_nil]⟩
    obtain ⟨more, entries⟩ := entries
    have length (s : Fs) (x : Nat) : (dirEntries s x).length = numEntries s x := by
      simp [dirEntries]
    have longer : numEntries fs a ≤ numEntries fs' a := by
      rw [← length, ← length, entries, List.length_append]
      omega
    refine ⟨by omega, ?_, ?_⟩
    · have at' : (dirEntries fs' a)[k]? = (dirEntries fs a)[k]? := by
        rw [entries, List.getElem?_append_left (by rwa [length])]
      simpa [dirEntries, lt, Nat.lt_of_lt_of_le lt longer] using at'
    · by_cases here : a = d
      · subst here
        exact (made.old_page used).2
      · rw [made.tab_other a old here]

private theorem listEntries_dirCache (page : Block) (n i : Nat) (fs : Fs) :
    (listEntries page n i fs).2.dirCache = fs.dirCache := by
  induction n generalizing i fs with
  | zero => rfl
  | succ n ih => exact (ih (i + 1) _).trans (entryType_dirCache fs _)

theorem Browsed.keepsEntries (browsed : Browsed fs fs') (dirs : fs'.dirCache = fs.dirCache) :
    KeepsEntries fs fs' := by
  rw [browsed.rest, dirs]
  exact ⟨rfl, fun _ set => set, fun _ _ => Iff.rfl, fun _ _ _ lt => ⟨lt, rfl, rfl⟩⟩

theorem Sighted.listPages (sighted : Sighted fs) (h : Inv own top fs) (isDir : IsDir fs d)
    {p : InodePtr} {fuel iblock num : Nat}
    (pages : ∀ i, 32 * i < num → 32 * (iblock + i) < numEntries fs d ∧
      (fs.deref p).blocks (iblock + i) = (fs.inodeTab d).blocks (iblock + i)) :
    Sighted (listPages d p fuel iblock num fs).2 ∧
      KeepsSeen fs (Snfs.listPages d p fuel iblock num fs).2 := by
  induction fuel generalizing iblock num fs with
  | zero => exact ⟨sighted, .refl fs⟩
  | succ fuel ih =>
      rw [Snfs.listPages]
      by_cases done : num = 0
      · rw [if_pos done]
        exact ⟨sighted, .refl fs⟩
      obtain ⟨inside, block⟩ := pages 0 (by omega)
      rw [Nat.add_zero] at inside block
      obtain ⟨fs₁, loaded, glanced, -, -⟩ := sighted.loadDirPage h isDir inside
      rw [if_neg done, block, loaded]
      dsimp only
      generalize pageSeen fs d ((fs.inodeTab d).blocks iblock) = page
      have browsed := listEntries_browsed page (min dirPageEntries num) 0 fs₁
      have kept := browsed.keepsEntries (listEntries_dirCache page (min dirPageEntries num) 0 fs₁)
      generalize Snfs.listEntries page (min dirPageEntries num) 0 fs₁ = listed at browsed kept
      have all := (Browsed.of_same glanced.same).trans browsed
      have rest : Sighted (Snfs.listPages d p fuel (iblock + 1) (num - dirPageEntries) listed.2).2 ∧
          KeepsSeen listed.2
            (Snfs.listPages d p fuel (iblock + 1) (num - dirPageEntries) listed.2).2 :=
        ih (glanced.sighted.keepsEntries kept) (all.inv h)
          ((kept.isDir d (glanced.same.isDir.mpr isDir).1).mpr (glanced.same.isDir.mpr isDir))
          fun i hi => by
            simp only [dirPageEntries] at hi
            have next := pages (i + 1) (by omega)
            rw [all.deref, numEntries, show listed.2.inodeTab = fs.inodeTab by rw [all.rest],
              Nat.add_assoc, Nat.add_comm 1 i]
            exact next
      exact ⟨rest.1, (glanced.keeps.trans kept.keepsSeen).trans rest.2⟩

theorem Sighted.readdir (sighted : Sighted fs) (h : Inv own top fs) (copies : DirCopies Older fs)
    (dir : Nat) (maxentries : Int) : Sighted (fsReaddir fs dir maxentries).2 ∧
      KeepsSeen fs (Snfs.fsReaddir fs dir maxentries).2 := by
  rw [Snfs.fsReaddir]
  split
  · exact ⟨sighted, .refl fs⟩
  cases opened : Snfs.openInode fs dir with
  | none => exact ⟨sighted, .refl fs⟩
  | some pair =>
      obtain ⟨p, fs₁⟩ := pair
      obtain ⟨lt, h₁, quiet, -, copy, -⟩ := h.openInode opened
      have kept := (h.calm_open opened).keepsEntries h
      have sighted₁ := sighted.keepsEntries kept
      dsimp only
      split
      · exact ⟨sighted₁, kept.keepsSeen⟩
      rename_i type
      rw [not_not, copy, h.type_seen] at type
      have isDir : IsDir fs dir := h.isDir_iff.mpr ⟨lt, type⟩
      have older := copies.seen Older.refl isDir
      have size := h.tree.size_eq lt type
      have tab := (h.calm_open opened).dir dir type
      generalize amount : min ((fs₁.deref p).size / dentrySize) maxentries.toNat = num
      have listed : Sighted (Snfs.listPages dir p num 0 num fs₁).2 ∧
          KeepsSeen fs₁ (Snfs.listPages dir p num 0 num fs₁).2 :=
        sighted₁.listPages h₁ ((kept.isDir dir isDir.1).mpr isDir) fun i hi => by
          have le := older.size_le
          rw [← amount, copy] at hi
          rw [copy, numEntries, tab, Nat.zero_add]
          simp only [dentrySize] at hi ⊢
          exact ⟨by omega, older.blocks i (Inode.lt_used.mpr (by omega))⟩
      exact ⟨listed.1, kept.keepsSeen.trans listed.2⟩

/-- What a listing reports at `k` is what is shown there, at the latest when page 0 is cached. -/
theorem Sighted.listed_shown (sighted : Sighted fs) (h : Inv own top fs) (caches : CachesOk fs)
    (isDir : IsDir fs d) {maxentries : Int} {k : Nat} (hk : k < listLength fs d maxentries) :
    ∃ fs₁, Glanced fs fs₁ ∧
      listedEntry fs (listedPage fs d (fs.seen d) (k / 32)) (k % 32) =
        listed fs (shownEntry fs₁ d k) := by
  have within : k < (fs.seen d).size / dentrySize := Nat.lt_of_lt_of_le hk (Nat.min_le_left _ _)
  have older := caches.copies.seen Older.refl isDir
  simp only [dentrySize] at within
  have block {i : Nat} (hi : i ≤ k / 32) : (fs.seen d).blocks i = (fs.inodeTab d).blocks i :=
    older.blocks i (Inode.lt_used.mpr (by omega))
  rw [listedPage, block (Nat.le_refl _), block (Nat.zero_le _)]
  by_cases first : k / 32 = 0
  · refine ⟨fs, sighted.glanced, ?_⟩
    rw [if_pos first, shownEntry, show k / dirPageEntries = 0 from first]
    rfl
  · have size := older.size_le
    obtain ⟨fs₁, loaded, glanced, -, -⟩ := sighted.loadDirPage h isDir (i := 0)
      (by rw [numEntries]; simp only [dentrySize]; omega)
    refine ⟨fs₁, glanced, ?_⟩
    rw [if_neg first, loaded, shownEntry, show fs₁.inodeTab = fs.inodeTab by rw [glanced.same]]
    rfl

/-- The caches may be trusted, and what was seen in an earlier state still is. -/
structure Remembers (fs₀ fs : Fs) : Prop where
  sighted : Sighted fs
  caches : CachesOk fs
  keeps : KeepsSeen fs₀ fs

private theorem remembers_kept (fs₀ : Fs) : KeptByCalls (Remembers fs₀) where
  calm h remembers calm := by
    have kept := calm.keepsEntries h
    exact ⟨remembers.sighted.keepsEntries kept, cachesOk_kept.calm h remembers.caches calm,
      remembers.keeps.trans kept.keepsSeen⟩
  search dir name h remembers isDir nonempty := by
    have told := remembers.sighted.search h isDir nonempty
    exact ⟨told.sighted, cachesOk_kept.search dir name h remembers.caches isDir nonempty,
      remembers.keeps.trans told.keeps⟩
  readdir dir maxentries h remembers := by
    have listed := remembers.sighted.readdir h remembers.caches.copies dir maxentries
    exact ⟨listed.1, cachesOk_kept.readdir dir maxentries h remembers.caches,
      remembers.keeps.trans listed.2⟩

theorem Remembers.made {fs₀ : Fs} {type : Itype} {name : CString} (remembers : Remembers fs₀ fs)
    (h : Inv own top fs) (made : Made own own' top type fs d name fs') : Remembers fs₀ fs' := by
  have isDir : IsDir fs d := ⟨made.creatable.inUse, made.creatable.isDir⟩
  have caches := remembers.caches.made h made
  obtain ⟨fs₁, search, cached⟩ := made.missed
  have told := remembers.sighted.search h isDir made.creatable.nonempty
  rw [search] at told
  have kept := made.keepsEntries h told.same cached
  exact ⟨told.sighted.keepsEntries kept, caches,
    (remembers.keeps.trans told.keeps).trans kept.keepsSeen⟩

theorem Remembers.step {fs₀ : Fs} (remembers : Remembers fs₀ fs) (h : Inv own top fs) {op : FsOp}
    (within : Within fs op) {res : FsResult} (next : fsStep fs op = some (res, fs')) :
    Remembers fs₀ fs' :=
  (remembers_kept fs₀).step h remembers within.1 within.2
    (fun _ _ _ _ _ _ _ inv remembers made => remembers.made inv made) next

theorem Formatted.remembers {num : Nat} {clock : Nat → Int} (h : Formatted num clock fs)
    (data : 10 ≤ num) : Remembers fs fs := by
  refine ⟨⟨fun s => ?_, fun s t isDir => ?_, fun s j _ => .inl ?_⟩, h.cachesOk data, .refl fs⟩
  · rw [h.dirCache, h.inodeBmap]
    rfl
  · rw [h.dirCache, IsDir, h.inodeTab] at isDir
    have other : (0 : Nat) ≠ 1 := by decide
    rw [Function.update_of_ne other] at isDir
    cases isDir.2
  · rw [h.dirCache]
    exact Buf.cstr_eq_nil (Buf.get_zero _)

/-- The names lead from `a` to `b` through entries of directories. -/
inductive Passes (entry : Nat → CString × Nat → Prop) : (a : Nat) → List CString → (b : Nat) → Prop
  | here (a : Nat) : Passes entry a [] a
  | down {a b c : Nat} {name : CString} {names : List CString} (first : entry a (name, b))
      (rest : Passes entry b names c) : Passes entry a (name :: names) c

section Passes
variable {entry entry' : Nat → CString × Nat → Prop} {a b : Nat} {names : List CString}

theorem Passes.mono (le : ∀ d e, e.1 ≠ [] → entry d e → entry' d e) (nonempty : [] ∉ names)
    (passes : Passes entry a names b) : Passes entry' a names b := by
  induction passes with
  | here a => exact .here a
  | @down a b c name names first _ ih =>
      have some : name ≠ [] := fun empty => nonempty (empty ▸ List.mem_cons_self)
      exact .down (le a (name, b) some first)
        (ih fun member => nonempty (List.mem_cons_of_mem name member))

theorem Passes.last {done : List CString} {name : CString}
    (passes : Passes entry a (done ++ [name]) b) :
    ∃ d, Passes entry a done d ∧ entry d (name, b) := by
  induction done generalizing a with
  | nil =>
      cases passes with
      | down first rest =>
          cases rest
          exact ⟨a, .here a, first⟩
  | cons token rest ih =>
      cases passes with
      | down first more =>
          obtain ⟨d, before, last⟩ := ih more
          exact ⟨d, .down first before, last⟩

end Passes

def HasEntry (fs : Fs) (d : Nat) (e : CString × Nat) : Prop := IsDir fs d ∧ e ∈ dirEntries fs d

theorem SameButDirs.hasEntry (same : SameButDirs fs fs') : HasEntry fs' d e ↔ HasEntry fs d e := by
  rw [same]
  exact Iff.rfl

theorem Seen.hasEntry (seen : Seen fs d e) : HasEntry fs d e := by
  obtain ⟨k, seen⟩ := seen
  exact ⟨seen.isDir, seen.mem⟩

theorem Sighted.lookupFrom_glanced (sighted : Sighted fs) (h : Inv own top fs) (dir : Nat)
    (id : Option Nat) {tokens : List CString} (nonempty : [] ∉ tokens) :
    Glanced fs (lookupFrom dir id tokens fs).2 :=
  lookupFrom_keeps (P := Glanced fs) (fun _ _ _ glanced isDir named => glanced.trans
    (glanced.sighted.search (glanced.same.inv h) isDir named).toGlanced) dir id nonempty
    sighted.glanced

/-- A lookup that ends well has come along entries that are seen. -/
theorem Sighted.lookupFrom (sighted : Sighted fs) (h : Inv own top fs) {dir : Nat}
    {id found : Option Nat} {tokens : List CString} (nonempty : [] ∉ tokens)
    (result : (lookupFrom dir id tokens fs).1 = (1, found)) :
    ∃ b, Passes (Seen (Snfs.lookupFrom dir id tokens fs).2) dir tokens b ∧
      found = if tokens = [] then id else some b := by
  induction tokens generalizing dir id fs with
  | nil =>
      cases result
      exact ⟨dir, .here dir, rfl⟩
  | cons token rest ih =>
      have named : token ≠ [] := fun empty => nonempty (empty ▸ List.mem_cons_self)
      have more : [] ∉ rest := fun member => nonempty (List.mem_cons_of_mem token member)
      rw [Snfs.lookupFrom] at result ⊢
      split at result
      · cases result
      rename_i used
      rw [if_neg used]
      split at result
      · cases result
      rename_i kind
      rw [if_neg kind]
      have isDir : IsDir fs dir := ⟨by simpa using used, by simpa using kind⟩
      have told := sighted.search h isDir named
      cases searched : fsiDirSearch fs dir token with
      | mk hit fs₁ =>
          rw [searched] at told result
          cases hit with
          | none => cases result
          | some fid =>
              obtain ⟨b, passes, last⟩ := ih told.sighted (told.same.inv h) more result
              have glanced := told.sighted.lookupFrom_glanced (told.same.inv h) fid (some fid) more
              refine ⟨b, .down (glanced.keeps.seen named (told.true fid rfl)) passes, ?_⟩
              rw [if_neg (List.cons_ne_nil token rest), last]
              by_cases done : rest = []
              · subst done
                cases passes
                rw [if_pos rfl]
              · rw [if_neg done]

theorem Sighted.fsLookup (sighted : Sighted fs) (h : Inv own top fs) {path : CString} {a : Nat}
    (result : (fsLookup fs path).1 = (1, some a)) :
    path.head? = some slash ∧ components path ≠ [] ∧
      Passes (Seen (Snfs.fsLookup fs path).2) 1 (components path) a := by
  rw [Snfs.fsLookup] at result ⊢
  split at result
  · cases result
  rename_i rooted
  rw [if_neg rooted]
  obtain ⟨b, passes, found⟩ := sighted.lookupFrom h (components_nonempty path) result
  split at found
  · cases found
  · rename_i some
    cases found
    exact ⟨not_not.mp rooted, some, passes⟩

/-- Where a search looks for the entry it finds it, and the directory has no other of the name. -/
structure Plain (fs : Fs) (d : Nat) (e : CString × Nat) : Prop where
  seen : Seen fs d e
  only : ∀ b, (e.1, b) ∈ dirEntries fs d → b = e.2

theorem Seen.plain (seen : Seen fs d e) (unique : NamesUnique fs) : Plain fs d e := by
  refine ⟨seen, fun b member => ?_⟩
  have same := List.inj_on_of_nodup_map (unique d seen.hasEntry.1) member seen.mem rfl
  exact congrArg Prod.snd same

theorem plain_of_lone (isDir : IsDir fs d)
    (entries : dirEntries fs d = [e]) (shown : shownEntry fs d 0 = e) : Plain fs d e := by
  have length : numEntries fs d = 1 := by simpa [dirEntries] using congrArg List.length entries
  refine ⟨⟨0, isDir, by rw [length]; exact Nat.one_pos, ?_, shown⟩, fun b member => ?_⟩
  · simpa [dirEntries, length] using entries
  · rw [entries, List.mem_singleton] at member
    exact congrArg Prod.snd member

theorem Plain.kept (plain : Plain fs d e) (named : e.1 ≠ []) (keeps : KeepsSeen fs fs')
    (entries : dirEntries fs' d = dirEntries fs d) : Plain fs' d e :=
  ⟨keeps.seen named plain.seen, by rw [entries]; exact plain.only⟩

theorem Plain.glanced (plain : Plain fs d e) (named : e.1 ≠ []) (glanced : Glanced fs fs') :
    Plain fs' d e :=
  plain.kept named glanced.keeps (by rw [glanced.same]; rfl)

theorem Sighted.search_plain (sighted : Sighted fs) (h : Inv own top fs) {name : CString}
    (nonempty : name ≠ []) {a : Nat} (plain : Plain fs d (name, a)) :
    (fsiDirSearch fs d name).1 = some a := by
  obtain ⟨k, at'⟩ := plain.seen
  have told := sighted.search h at'.isDir nonempty
  cases found : (fsiDirSearch fs d name).1 with
  | none => exact absurd at' (told.missed found k a (Nat.zero_le k))
  | some b =>
      have other := (told.same.hasEntry.mp (told.true b found).hasEntry).2
      rw [plain.only b other]

/-- A search does not find what the directory has not got. -/
theorem Sighted.search_absent (sighted : Sighted fs) (h : Inv own top fs) (isDir : IsDir fs d)
    {name : CString} (nonempty : name ≠ []) (absent : plainSearch fs d name = none) :
    (fsiDirSearch fs d name).1 = none := by
  have told := sighted.search h isDir nonempty
  cases found : (fsiDirSearch fs d name).1 with
  | none => rfl
  | some b =>
      have member := (told.same.hasEntry.mp (told.true b found).hasEntry).2
      rw [plainSearch, Option.map_eq_none_iff, List.find?_eq_none] at absent
      exact absurd BEq.rfl (absent (name, b) member)

theorem Sighted.lookupFrom_passes (sighted : Sighted fs) (h : Inv own top fs) {a b : Nat}
    {tokens : List CString} (nonempty : [] ∉ tokens) (passes : Passes (Plain fs) a tokens b)
    (id : Option Nat) :
    (Snfs.lookupFrom a id tokens fs).1 = (1, if tokens = [] then id else some b) := by
  induction tokens generalizing a id fs with
  | nil => rfl
  | cons token rest ih =>
      have named : token ≠ [] := fun empty => nonempty (empty ▸ List.mem_cons_self)
      have more : [] ∉ rest := fun member => nonempty (List.mem_cons_of_mem token member)
      cases passes with
      | @down _ c _ _ _ first later =>
          have isDir := first.seen.hasEntry.1
          have told := sighted.search h isDir named
          have hit := sighted.search_plain h named first
          have rest' := ih told.sighted (told.same.inv h) more
            (later.mono (fun _ _ some plain => plain.glanced some told.toGlanced) more) (some c)
          rw [Snfs.lookupFrom, if_neg (by simp [isDir.1]), if_neg (not_not.mpr isDir.2),
            if_neg (List.cons_ne_nil token rest)]
          generalize fsiDirSearch fs a token = searched at hit rest'
          obtain ⟨found, fs₁⟩ := searched
          cases hit
          refine rest'.trans ?_
          by_cases done : rest = []
          · subst done
            cases later
            rfl
          · rw [if_neg done]

theorem Sighted.fsLookup_passes (sighted : Sighted fs) (h : Inv own top fs) {path : CString}
    (rooted : path.head? = some slash) (named : components path ≠ []) {a : Nat}
    (passes : Passes (Plain fs) 1 (components path) a) :
    (Snfs.fsLookup fs path).1 = (1, some a) := by
  rw [Snfs.fsLookup, if_neg (not_not.mpr rooted),
    sighted.lookupFrom_passes h (components_nonempty path) passes, if_neg named]

theorem Sighted.fsLookup_glanced (sighted : Sighted fs) (h : Inv own top fs) (path : CString) :
    Glanced fs (Snfs.fsLookup fs path).2 := by
  rw [Snfs.fsLookup]
  split
  · exact sighted.glanced
  · exact sighted.lookupFrom_glanced h 1 none (components_nonempty path)

variable {num : Nat} {clock : Nat → Int} {boot s : Fs} {trace : List (FsOp × FsResult)}

/-- Every path that a lookup has led along is seen. -/
structure Trusted (trace : List (FsOp × FsResult)) (s : Fs) : Prop where
  remembers : Remembers s s
  passes : ∀ path a, (FsOp.lookup path, FsResult.looked 1 (some a)) ∈ trace →
    path.head? = some slash ∧ components path ≠ [] ∧ Passes (Seen s) 1 (components path) a

theorem Formatted.trusted (h : Formatted num clock fs) (data : 10 ≤ num) : Trusted [] fs :=
  ⟨h.remembers data, fun _ _ member => absurd member List.not_mem_nil⟩

theorem Trusted.step (trusted : Trusted trace fs) (h : Inv own top fs) {op : FsOp}
    (within : Within fs op) {res : FsResult} (next : fsStep fs op = some (res, fs')) :
    Trusted (trace ++ [(op, res)]) fs' := by
  have remembers := trusted.remembers.step h within next
  refine ⟨⟨remembers.sighted, remembers.caches, .refl fs'⟩, fun path a member => ?_⟩
  rcases List.mem_append.mp member with before | now
  · exact (trusted.passes path a before).imp_right fun led => led.imp_right fun passes =>
      passes.mono (fun _ _ some seen => remembers.keeps.seen some seen) (components_nonempty path)
  · rw [List.mem_singleton, Prod.mk.injEq] at now
    obtain ⟨rfl, rfl⟩ := now
    simp only [fsStep] at next
    have led (result : (Snfs.fsLookup fs path).1 = (1, some a)) :=
      trusted.remembers.sighted.fsLookup h result
    cases result : Snfs.fsLookup fs path with
    | mk answer after =>
        rw [result] at next led
        obtain ⟨code, id⟩ := answer
        cases next
        exact led rfl

theorem trusted_run (data : 10 ≤ num) (unwrapped : num * blockSize < 2 ^ 32)
    (started : fsBoot num clock = some boot)
    (run : Run (Guarded (fun s e => Within s e.1) FsNext) boot trace s) :
    ∃ own top, Inv own top s ∧ Trusted trace s := by
  have formatted := fsBoot_formatted data unwrapped started
  refine run.trace_invariant (I := fun trace s => ∃ own top, Inv own top s ∧ Trusted trace s)
    ⟨_, 2, formatted.inv data, formatted.trusted data⟩ ?_
  rintro trace s ⟨op, res⟩ s' ⟨own, top, inv, trusted⟩ ⟨within, next⟩
  obtain ⟨own', top', kept⟩ := inv.step within.1 within.2 next
  exact ⟨own', top', kept.inv, trusted.step inv within next⟩

theorem run_within (run : Run (Guarded (fun s e => Admits NotHidden s e.1) FsNext) boot trace s) :
    Run (Guarded (fun s e => Within s e.1) FsNext) boot trace s :=
  run.mono fun _ _ _ ⟨guard, next⟩ => ⟨⟨guard.1, guard.2.1⟩, next⟩

def pathCalls : List FsOp :=
  [.mkdir 1 [100], .create 2 [102], .lookup [47, 100, 47, 102], .write 3 0 [7]]

theorem pathCalls_run : ∃ boot trace s, fsBoot 16 (fun _ => 1) = some boot ∧
    Run (Guarded (fun s e => Admits NotHidden s e.1) FsNext) boot trace s ∧
    (FsOp.lookup [47, 100, 47, 102], FsResult.looked 1 (some 3)) ∈ trace ∧
    (fsLookup s [47, 100, 47, 102]).1 = (1, some 3) ∧
    (fsReaddir s 2 5).1 = some [⟨[102], .file⟩] := by
  have boots : ((fsBoot 16 fun _ => 1).bind fun boot => (execute fsStep boot pathCalls).map fun r =>
      (decide (Meets fsStep (Admits NotHidden) boot pathCalls),
        decide ((FsOp.lookup [47, 100, 47, 102], FsResult.looked 1 (some 3)) ∈ r.1),
        decide ((fsLookup r.2 [47, 100, 47, 102]).1 = (1, some 3) ∧
          (fsReaddir r.2 2 5).1 = some [⟨[102], .file⟩]))) = some (true, true, true) := by
    decide +kernel
  obtain ⟨boot, started, facts⟩ := Option.bind_eq_some_iff.mp boots
  obtain ⟨⟨trace, s⟩, calls, facts⟩ := Option.map_eq_some_iff.mp facts
  simp only [Prod.mk.injEq] at facts
  exact ⟨boot, trace, s, started, run_of_execute calls (of_decide_eq_true facts.1),
    of_decide_eq_true facts.2.1, of_decide_eq_true facts.2.2⟩

/-- In every run a lookup that finds an inode has followed entries that are in the directories. -/
theorem fsLookup_sound (data : 10 ≤ num) (unwrapped : num * blockSize < 2 ^ 32)
    (started : fsBoot num clock = some boot)
    (run : Run (Guarded (fun s e => Within s e.1) FsNext) boot trace s) {path : CString} {a : Nat}
    (found : (fsLookup s path).1 = (1, some a)) :
    Passes (HasEntry s) 1 (components path) a := by
  obtain ⟨own, top, inv, trusted⟩ := trusted_run data unwrapped started run
  exact (trusted.remembers.sighted.fsLookup inv found).2.2.mono
    (fun _ _ _ seen => (fsLookup_same s path).hasEntry.mp seen.hasEntry) (components_nonempty path)

theorem fsLookup_sound_in_dir : ∃ s, (fsLookup s [47, 100, 47, 102]).1 = (1, some 3) ∧
    Passes (HasEntry s) 1 (components [47, 100, 47, 102]) 3 := by
  obtain ⟨boot, trace, s, started, run, -, found, -⟩ := pathCalls_run
  exact ⟨s, found, fsLookup_sound (by decide) (by decide) started (run_within run) found⟩

/-- A name that a lookup has found is never made a second time in its directory. -/
theorem found_name_not_made (data : 10 ≤ num) (unwrapped : num * blockSize < 2 ^ 32)
    (started : fsBoot num clock = some boot)
    (run : Run (Guarded (fun s e => Within s e.1) FsNext) boot trace s) {path : CString} {a : Nat}
    (found : (FsOp.lookup path, FsResult.looked 1 (some a)) ∈ trace) {done : List CString}
    {name : CString} (split : components path = done ++ [name]) :
    ∃ d, Passes (HasEntry s) 1 done d ∧ HasEntry s d (name, a) ∧
      ∀ type, (fsMake type s d name).1 = none := by
  obtain ⟨own, top, inv, trusted⟩ := trusted_run data unwrapped started run
  obtain ⟨-, -, passes⟩ := trusted.passes path a found
  have nonempty := components_nonempty path
  rw [split] at passes nonempty
  obtain ⟨d, before, last⟩ := passes.last
  have named : name ≠ [] := fun empty => nonempty (by simp [empty])
  refine ⟨d, before.mono (fun _ _ _ seen => seen.hasEntry)
    fun member => nonempty (List.mem_append_left _ member), last.hasEntry, fun type => ?_⟩
  obtain ⟨k, seen⟩ := last
  have told := trusted.remembers.sighted.search inv seen.isDir named
  rw [fsMake]
  split
  · rfl
  split
  · rfl
  split
  · rfl
  split
  · rfl
  split
  · rfl
  · rename_i missed
    rw [missed] at told
    exact absurd seen (told.missed rfl k a (Nat.zero_le k))

theorem found_name_not_made_in_dir : ∃ (trace : List (FsOp × FsResult)) (s : Fs),
    (FsOp.lookup [47, 100, 47, 102], FsResult.looked 1 (some 3)) ∈ trace ∧
    ∃ d, Passes (HasEntry s) 1 [[100]] d ∧ HasEntry s d ([102], 3) ∧
      ∀ type, (fsMake type s d [102]).1 = none := by
  obtain ⟨boot, trace, s, started, run, found, -⟩ := pathCalls_run
  have split : components [47, 100, 47, 102] = [[100]] ++ [[102]] := by decide
  exact ⟨trace, s, found,
    found_name_not_made (by decide) (by decide) started (run_within run) found split⟩

private theorem namesUnique_run (data : 10 ≤ num) (unwrapped : num * blockSize < 2 ^ 32)
    (started : fsBoot num clock = some boot)
    (run : Run (Guarded (fun s e => Admits NotHidden s e.1) FsNext) boot trace s) :
    NamesUnique s := by
  have formatted := fsBoot_formatted data unwrapped started
  have empty (d : Nat) : (boot.inodeTab d).size = 0 := by
    rw [formatted.inodeTab, Function.update_apply]
    split <;> rfl
  have init : ∃ own top, Inv own top boot ∧ NamesUnique boot :=
    ⟨_, 2, formatted.inv data, fun d _ => by rw [dirEntries_zero (empty d)]; exact List.nodup_nil⟩
  obtain ⟨_, _, -, unique⟩ := run.invariant (I := fun s => ∃ own top, Inv own top s ∧ NamesUnique s)
    init fun s e s' ⟨_, _, inv, unique⟩ ⟨guard, next⟩ => unique.step inv guard next
  exact unique

/-- Where no creation finds the name hidden by a cached page, a path that has once been looked up
leads to the same inode ever after. -/
theorem resolved_path_stays (data : 10 ≤ num) (unwrapped : num * blockSize < 2 ^ 32)
    (started : fsBoot num clock = some boot)
    (run : Run (Guarded (fun s e => Admits NotHidden s e.1) FsNext) boot trace s) {path : CString}
    {a : Nat} (found : (FsOp.lookup path, FsResult.looked 1 (some a)) ∈ trace) :
    (fsLookup s path).1 = (1, some a) := by
  have unique := namesUnique_run data unwrapped started run
  obtain ⟨own, top, inv, trusted⟩ := trusted_run data unwrapped started
    (run_within run)
  obtain ⟨rooted, some, passes⟩ := trusted.passes path a found
  exact trusted.remembers.sighted.fsLookup_passes inv rooted some
    (passes.mono (fun _ _ _ seen => seen.plain unique) (components_nonempty path))

theorem resolved_path_stays_in_dir : ∃ (trace : List (FsOp × FsResult)) (s : Fs),
    (FsOp.lookup [47, 100, 47, 102], FsResult.looked 1 (some 3)) ∈ trace ∧
    (fsLookup s [47, 100, 47, 102]).1 = (1, some 3) := by
  obtain ⟨boot, trace, s, started, run, found, -⟩ := pathCalls_run
  exact ⟨trace, s, found, resolved_path_stays (by decide) (by decide) started run found⟩

/-- The names of a listing are those of the pages that it goes through. -/
theorem Inv.fsReaddir_names (h : Inv own top fs) (caches : CachesOk fs) {max : Int}
    {names : List FileName} (result : (Snfs.fsReaddir fs d max).1 = some names) : IsDir fs d ∧
      names = (List.range (listLength fs d max)).map fun k =>
        listedEntry fs (listedPage fs d (fs.seen d) (k / 32)) (k % 32) := by
  rw [h.fsReaddir_eq caches.pages caches.copies] at result
  split at result
  · rename_i asked
    cases result
    exact ⟨asked.1, rfl⟩
  · cases result

theorem Sighted.readdir_sound (sighted : Sighted fs) (h : Inv own top fs) (caches : CachesOk fs)
    {max : Int} {names : List FileName} (result : (fsReaddir fs d max).1 = some names) :
    IsDir fs d ∧ names.length ≤ (dirEntries fs d).length ∧
      ∀ name ∈ names, name.name = [] ∨ ∃ e ∈ dirEntries fs d, name = listed fs e := by
  obtain ⟨isDir, rfl⟩ := h.fsReaddir_names caches result
  have bound : listLength fs d max ≤ numEntries fs d :=
    Nat.le_trans (Nat.min_le_left _ _)
      (Nat.div_le_div_right (caches.copies.seen Older.refl isDir).size_le)
  refine ⟨isDir, by simpa [dirEntries] using bound, fun name member => ?_⟩
  obtain ⟨k, hk, rfl⟩ := List.mem_map.mp member
  have hk := List.mem_range.mp hk
  obtain ⟨s₁, glanced, reported⟩ := sighted.listed_shown h caches isDir hk
  rw [reported]
  by_cases named : (shownEntry s₁ d k).1 = []
  · exact .inl named
  · have seen := glanced.sighted.pageSeen_home (glanced.same.inv h) (glanced.same.isDir.mpr isDir)
      (i := k / dirPageEntries) (j := k % dirPageEntries)
      (by rw [glanced.same.numEntries]; simp only [dirPageEntries]; omega)
      (Nat.mod_lt k (by decide)) named
    exact .inr ⟨_, (glanced.same.hasEntry.mp seen.hasEntry).2, rfl⟩

/-- In every run a listing names only entries of the directory, with their types. A name that a
lookup has found stays at one place in every listing that is long enough. -/
theorem fsReaddir_sound (data : 10 ≤ num) (unwrapped : num * blockSize < 2 ^ 32)
    (started : fsBoot num clock = some boot)
    (run : Run (Guarded (fun s e => Within s e.1) FsNext) boot trace s) :
    (∀ d max names, (fsReaddir s d max).1 = some names → IsDir s d ∧
      names.length ≤ (dirEntries s d).length ∧
      ∀ name ∈ names, name.name = [] ∨ ∃ e ∈ dirEntries s d, name = listed s e) ∧
    ∀ path a done name, (FsOp.lookup path, FsResult.looked 1 (some a)) ∈ trace →
      components path = done ++ [name] → ∃ d k, Passes (HasEntry s) 1 done d ∧
        HasEntry s d (name, a) ∧ ∀ max names, (fsReaddir s d max).1 = some names →
          k < names.length → names[k]? = some (listed s (name, a)) := by
  obtain ⟨own, top, inv, trusted⟩ := trusted_run data unwrapped started run
  obtain ⟨sighted, caches, -⟩ := trusted.remembers
  refine ⟨fun d max names result => sighted.readdir_sound inv caches result,
    fun path a done name found split => ?_⟩
  obtain ⟨-, -, passes⟩ := trusted.passes path a found
  have nonempty := components_nonempty path
  rw [split] at passes nonempty
  obtain ⟨d, before, k, seen⟩ := passes.last
  have named : name ≠ [] := fun empty => nonempty (by simp [empty])
  refine ⟨d, k, before.mono (fun _ _ _ seen => seen.hasEntry)
    fun member => nonempty (List.mem_append_left _ member), Seen.hasEntry ⟨k, seen⟩,
    fun max names result lt => ?_⟩
  obtain ⟨isDir, rfl⟩ := inv.fsReaddir_names caches result
  rw [List.length_map, List.length_range] at lt
  obtain ⟨s₁, glanced, reported⟩ := sighted.listed_shown inv caches isDir lt
  rw [List.getElem?_map, List.getElem?_range lt, Option.map_some, reported,
    (glanced.keeps d k (name, a) named seen).shown]

theorem fsReaddir_sound_in_dir : ∃ s, (fsReaddir s 2 5).1 = some [⟨[102], .file⟩] ∧
    ∀ name ∈ [(⟨[102], .file⟩ : FileName)], name.name = [] ∨
      ∃ e ∈ dirEntries s 2, name = listed s e := by
  obtain ⟨boot, trace, s, started, run, -, -, names⟩ := pathCalls_run
  have sound := fsReaddir_sound (by decide) (by decide) started (run_within run)
  exact ⟨s, names, (sound.1 2 5 _ names).2.2⟩

end Snfs
