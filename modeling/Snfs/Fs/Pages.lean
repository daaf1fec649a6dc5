import Snfs.Fs.Freshness
import Snfs.Library.Words

/-!
What the pages of directories hold, on the device and in the directory cache. A
cached page may be older than the device's and may have entries that a search
copied into it, but each of its entries is blank or names an inode in use. So a
search finds only inodes in use, and a listing reports, besides these, blank
entries, whose type is that of inode 0.
-/

namespace Snfs

open Slots

/-- Every entry of a page is blank or names an inode in use. -/
def PageOk (bmap page : Block) : Prop :=
  ∀ j, j < dirPageEntries → (entryName page j = [] ∧ entryInodeid page j = 0) ∨
    (2 ≤ entryInodeid page j ∧ bmapIsset bmap (entryInodeid page j) = true)

def PagesOk (fs : Fs) : Prop := ∀ s, PageOk fs.inodeBmap (fs.dirCache s).entries

structure HoldsEntries (fs : Fs) (b : Nat) : Prop where
  inside : b < fs.numBlocks
  page : PageOk fs.inodeBmap (fs.blocks.content b)

variable {own own' : Ledger} {top : Nat} {fs fs' : Fs} {d dir : Nat}

theorem PageOk.mono {bmap bmap' page : Block} (h : PageOk bmap page)
    (le : ∀ a, bmapIsset bmap a = true → bmapIsset bmap' a = true) : PageOk bmap' page :=
  fun j hj => (h j hj).imp_right fun ⟨low, set⟩ => ⟨low, le _ set⟩

theorem PageOk.lt_top {page : Block} (ok : PageOk fs.inodeBmap page) (h : Inv own top fs) {j : Nat}
    (hj : j < dirPageEntries) : entryInodeid page j < top := by
  rcases ok j hj with ⟨-, blank⟩ | ⟨-, set⟩
  · rw [blank]
    exact h.top_pos
  · exact h.lt_top set

/-- A page of a directory on the device: its entries, and zero behind the last one. -/
theorem Inv.holdsEntries (h : Inv own top fs) (isDir : IsDir fs d) {i : Nat}
    (hi : i < (fs.inodeTab d).used) : HoldsEntries fs ((fs.inodeTab d).blocks i) := by
  obtain ⟨lt, dir⟩ := h.isDir_iff.mp isDir
  refine ⟨(h.owned_range (h.dir_owned lt hi)).2, fun j hj => ?_⟩
  have small : j < 32 := hj
  by_cases there : 32 * i + j < numEntries fs d
  · refine .inr ?_
    have range := h.entry_range isDir (List.mem_map_of_mem (List.mem_range.mpr there))
    have page : (32 * i + j) / dirPageEntries = i := by
      rw [show dirPageEntries = 32 from rfl]
      omega
    have entry : (32 * i + j) % dirPageEntries = j := by
      rw [show dirPageEntries = 32 from rfl]
      omega
    simp only [entryAt, entryPage, page, entry] at range
    rw [h.inodes.inUse]
    exact ⟨range.1, decide_eq_true range.2⟩
  · have size := h.tree.size_eq lt dir
    have zero (k : Nat) (hk : k < 16) :
        (fs.blocks.content ((fs.inodeTab d).blocks i)).get (16 * j + k) = 0 := by
      refine h.tree.tail d i _ lt dir hi ?_ ?_
      · simp only [blockSize]
        omega
      · simp only [blockSize]
        omega
    exact .inl ⟨Buf.cstr_eq_nil (zero 0 (by decide)), by
      rw [entryInodeid, zero 14 (by decide), zero 15 (by decide)]
      rfl⟩

theorem PageOk.copyEntry {bmap dst src : Block} {i j : Nat} (hdst : PageOk bmap dst)
    (hsrc : PageOk bmap src) (hi : i < dirPageEntries) (hj : j < dirPageEntries) :
    PageOk bmap (Snfs.copyEntry dst j src i) := by
  intro m hm
  have there : j < 32 := hj
  by_cases here : m = j
  · subst here
    have bytes (k : Nat) (hk : k < 16) :
        (Snfs.copyEntry dst m src i).get (16 * m + k) = src.get (16 * i + k) := by
      rw [Snfs.copyEntry, Buf.get_splice_self _ (by rwa [Buf.length_slice])
        (by rw [Buf.length_slice]; simp only [dentrySize, blockSize]; omega), Buf.getElem_slice]
    have name : entryName (Snfs.copyEntry dst m src i) m = entryName src i := by
      rw [entryName, entryName, Buf.cstr, Buf.cstr]
      refine congrArg _ (List.ext_getElem (by rw [Buf.length_slice, Buf.length_slice]) ?_)
      intro k hk _
      rw [Buf.length_slice] at hk
      rw [Buf.getElem_slice, Buf.getElem_slice]
      exact bytes k (Nat.lt_trans hk (by decide))
    have id : entryInodeid (Snfs.copyEntry dst m src i) m = entryInodeid src i := by
      rw [entryInodeid, entryInodeid, bytes 14 (by decide), bytes 15 (by decide)]
    rw [name, id]
    exact hsrc i hi
  · have same (k : Nat) (hk : k < dentrySize) :
        (Snfs.copyEntry dst j src i).get (dentrySize * m + k) = dst.get (dentrySize * m + k) := by
      have small : k < 16 := hk
      rw [Snfs.copyEntry]
      refine Buf.get_splice_other _ ?_
      rw [Buf.length_slice]
      simp only [dentrySize]
      omega
    rw [entryName_congr same, entryInodeid_congr same]
    exact hdst m hm

theorem PagesOk.update (ok : PagesOk fs) {e : DirCacheEntry} (here : PageOk fs.inodeBmap e.entries)
    (s : Fin dirCacheSize) (clock : Nat → Int) :
    PagesOk { fs with dirCache := Function.update fs.dirCache s e, clock := clock } := by
  intro t
  by_cases same : t = s
  · subst same
    simpa using here
  · simpa [Function.update_of_ne same] using ok t

theorem PagesOk.touchDir (ok : PagesOk fs) (s : Fin dirCacheSize) : PagesOk (fs.touchDir s) :=
  ok.update (show PageOk fs.inodeBmap { fs.dirCache s with lastAccess := fs.now }.entries from ok s)
    s _

/-- The page of a directory that an operation finds at a block. -/
def pageSeen (fs : Fs) (dir blockNum : Nat) : Block :=
  match findDirSlot fs fun e => e.dirNum == dir && e.blockNum == blockNum with
  | some s => (fs.dirCache s).entries
  | none => fs.blocks.content blockNum

theorem PagesOk.loadDirPage (ok : PagesOk fs) (dir : Nat) {b : Nat} (holds : HoldsEntries fs b) :
    ∃ fs', Snfs.loadDirPage fs dir b = some (pageSeen fs dir b, fs') ∧ SameButDirs fs fs' ∧
      PagesOk fs' ∧ PageOk fs.inodeBmap (pageSeen fs dir b) := by
  rw [Snfs.loadDirPage, pageSeen]
  cases findDirSlot fs fun e => e.dirNum == dir && e.blockNum == b with
  | some s => exact ⟨fs.touchDir s, rfl, rfl, ok.touchDir s, ok s⟩
  | none =>
      simp only
      rw [Blocks.read_of_lt holds.inside]
      exact ⟨_, rfl, rfl, ok.update holds.page _ _, holds.page⟩

theorem PagesOk.patchCached (ok : PagesOk fs) (cachedDir : Option (Fin dirCacheSize)) {page : Block}
    (here : PageOk fs.inodeBmap page) {i : Nat} (hi : i < dirPageEntries) :
    PagesOk (Snfs.patchCached fs cachedDir page i) := by
  unfold Snfs.patchCached
  split
  · exact ok
  · dsimp only
    split
    · exact ok
    · rename_i s _ j found
      have hj : j < dirPageEntries := List.mem_range.mp (List.mem_of_find?_eq_some found)
      exact ok.update ((ok s).copyEntry here hi hj) s _

/-- An entry found by its name names an inode in use. -/
theorem PageOk.found {bmap page : Block} (ok : PageOk bmap page) {limit : Nat}
    (le : limit ≤ dirPageEntries) {name : CString} (nonempty : name ≠ []) {j : Nat}
    (found : findInPage page limit name = some j) :
    j < dirPageEntries ∧ 2 ≤ entryInodeid page j ∧
      bmapIsset bmap (entryInodeid page j) = true := by
  have lt : j < dirPageEntries :=
    Nat.lt_of_lt_of_le (List.mem_range.mp (List.mem_of_find?_eq_some found)) le
  have same : entryName page j = name := by simpa using List.find?_some found
  refine ⟨lt, (ok j lt).resolve_left fun blank => nonempty ?_⟩
  rw [← same, blank.1]

/-- What a search leaves in the cache and what it finds. -/
def SearchOk (fs : Fs) (found : Option Nat × Fs) : Prop :=
  PagesOk found.2 ∧ ∀ id, found.1 = some id → 2 ≤ id ∧ bmapIsset fs.inodeBmap id = true

theorem PagesOk.searchPages (ok : PagesOk fs) {name : CString} (nonempty : name ≠ [])
    (cachedDir : Option (Fin dirCacheSize)) {fuel iblock num : Nat} (enough : num ≤ fuel)
    (pages : ∀ i, 32 * i < num → HoldsEntries fs ((fs.inodeTab d).blocks (iblock + i))) :
    SearchOk fs (Snfs.searchPages d name cachedDir fuel iblock num fs) := by
  induction fuel generalizing iblock num fs with
  | zero => exact ⟨ok, by simp [Snfs.searchPages]⟩
  | succ fuel ih =>
      by_cases done : num = 0
      · rw [Snfs.searchPages, if_pos done]
        exact ⟨ok, by simp⟩
      obtain ⟨fs₁, loaded, same, ok₁, here⟩ := ok.loadDirPage d (pages 0 (by omega))
      rw [Nat.add_zero] at loaded here
      have bmap : fs₁.inodeBmap = fs.inodeBmap := by rw [same]
      rw [Snfs.searchPages, if_neg done, loaded]
      simp only
      split
      · rename_i j found
        obtain ⟨lt, named⟩ := here.found (Nat.min_le_left _ _) nonempty found
        refine ⟨ok₁.patchCached cachedDir (by rwa [bmap]) lt, fun id result => ?_⟩
        cases result
        exact named
      · have tab : fs₁.inodeTab = fs.inodeTab := by rw [same]
        have rest : SearchOk fs₁ (Snfs.searchPages d name cachedDir fuel (iblock + 1)
            (num - dirPageEntries) fs₁) :=
          ih ok₁ (by simp only [dirPageEntries]; omega) fun i hi => by
            simp only [dirPageEntries] at hi
            have page := pages (i + 1) (by omega)
            rw [tab, Nat.add_assoc, Nat.add_comm 1 i]
            exact ⟨by rw [same]; exact page.inside, by rw [same]; exact page.page⟩
        rw [SearchOk, bmap] at rest
        exact rest

theorem Inv.dirPages (h : Inv own top fs) (isDir : IsDir fs d) {i : Nat}
    (hi : 32 * i < (fs.inodeTab d).size / dentrySize) :
    HoldsEntries fs ((fs.inodeTab d).blocks (0 + i)) := by
  rw [Nat.zero_add]
  refine h.holdsEntries isDir (Inode.lt_used.mpr ?_)
  simp only [dentrySize] at hi
  omega

theorem PagesOk.search (ok : PagesOk fs) (h : Inv own top fs) (isDir : IsDir fs d) {name : CString}
    (nonempty : name ≠ []) : SearchOk fs (fsiDirSearch fs d name) := by
  rw [fsiDirSearch]
  dsimp only
  split
  · exact ok.searchPages nonempty none (Nat.le_refl _) fun _ => h.dirPages isDir
  · rename_i s _
    have touched := ok.touchDir s
    split
    · rename_i j found
      refine ⟨touched, fun id result => ?_⟩
      cases result
      exact ((touched s).found (Nat.le_refl _) nonempty found).2
    · exact touched.searchPages (d := d) nonempty (some s) (Nat.le_refl _) fun _ hi =>
        have page := h.dirPages isDir hi
        ⟨page.inside, page.page⟩

/-- A walk over tokens that ends well has found an inode in use, if there was a token. -/
theorem PagesOk.lookupFrom (ok : PagesOk fs) (h : Inv own top fs) (id : Option Nat)
    {tokens : List CString} (nonempty : [] ∉ tokens) {found : Option Nat}
    (result : (Snfs.lookupFrom dir id tokens fs).1 = (1, found)) :
    (tokens = [] ∧ found = id) ∨ ∃ a, found = some a ∧ 2 ≤ a ∧ a < top := by
  induction tokens generalizing dir id fs with
  | nil =>
      cases result
      exact .inl ⟨rfl, rfl⟩
  | cons token rest ih =>
      have named : token ≠ [] := fun empty => nonempty (empty ▸ List.mem_cons_self)
      have more : [] ∉ rest := fun member => nonempty (List.mem_cons_of_mem token member)
      refine .inr ?_
      rw [Snfs.lookupFrom] at result
      split at result
      · cases result
      · rename_i used
        split at result
        · cases result
        · rename_i kind
          have isDir : IsDir fs dir := ⟨by simpa using used, by simpa using kind⟩
          have searched := ok.search h isDir named
          have same := fsiDirSearch_same fs dir token
          split at result
          · cases result
          · rename_i fid fs₁ hit
            rw [hit] at searched same
            obtain ⟨low, set⟩ := searched.2 fid rfl
            rcases ih searched.1 (same.inv h) (some fid) more result with ⟨-, last⟩ | later
            · exact ⟨fid, last, low, h.lt_top set⟩
            · exact later

/-- A path has no component or leads to an inode in use. -/
theorem PagesOk.fsLookup (ok : PagesOk fs) (h : Inv own top fs) {path : CString}
    {found : Option Nat}
    (result : (Snfs.fsLookup fs path).1 = (1, found)) :
    (components path = [] ∧ found = none) ∨ ∃ a, found = some a ∧ 2 ≤ a ∧ a < top := by
  rw [Snfs.fsLookup] at result
  split at result
  · cases result
  · exact ok.lookupFrom h none (components_nonempty path) result

def listedEntry (fs : Fs) (page : Block) (j : Nat) : FileName :=
  listed fs (entryName page j, entryInodeid page j)

theorem Browsed.listedEntry (h : Browsed fs fs') : listedEntry fs' = listedEntry fs := by
  funext page j
  rw [Snfs.listedEntry, Snfs.listedEntry, listed, listed, h.rest]

theorem Inv.listEntries (h : Inv own top fs) {page : Block} (ok : PageOk fs.inodeBmap page)
    {n i : Nat} (inside : i + n ≤ dirPageEntries) :
    (Snfs.listEntries page n i fs).1 = (List.range' i n).map (listedEntry fs page) ∧
      (Snfs.listEntries page n i fs).2.dirCache = fs.dirCache := by
  induction n generalizing i fs with
  | zero => exact ⟨rfl, rfl⟩
  | succ n ih =>
      have browsed := entryType_browsed fs (entryInodeid page i)
      have type := h.entryType (ok.lt_top h (show i < dirPageEntries by omega))
      have bmap : (Snfs.entryType fs (entryInodeid page i)).2.inodeBmap = fs.inodeBmap := by
        rw [browsed.rest]
      obtain ⟨rest, dirs⟩ := ih (browsed.inv h) (by rwa [bmap]) (show i + 1 + n ≤ _ by omega)
      rw [browsed.listedEntry] at rest
      rw [Snfs.listEntries, List.range'_succ, List.map_cons]
      simp only [rest, type]
      exact ⟨rfl, dirs.trans (entryType_dirCache fs _)⟩

theorem Inv.listPages_round (h : Inv own top fs) (ok : PagesOk fs) (d : Nat) {p : InodePtr}
    (fuel : Nat) {iblock num : Nat} (more : num ≠ 0)
    (holds : HoldsEntries fs ((fs.deref p).blocks iblock)) :
    ∃ fs₁ fs₂, Snfs.loadDirPage fs d ((fs.deref p).blocks iblock) =
        some (pageSeen fs d ((fs.deref p).blocks iblock), fs₁) ∧
      fs₂.dirCache = fs₁.dirCache ∧ Browsed fs fs₂ ∧ PagesOk fs₂ ∧
      listPages d p (fuel + 1) iblock num fs =
        ((listPages d p fuel (iblock + 1) (num - dirPageEntries) fs₂).1.map
            ((List.range (min dirPageEntries num)).map
              (listedEntry fs (pageSeen fs d ((fs.deref p).blocks iblock))) ++ ·),
          (listPages d p fuel (iblock + 1) (num - dirPageEntries) fs₂).2) := by
  obtain ⟨fs₁, loaded, same, ok₁, page⟩ := ok.loadDirPage d holds
  have bmap : fs₁.inodeBmap = fs.inodeBmap := by rw [same]
  rw [← bmap] at page
  obtain ⟨names, dirs⟩ := (same.inv h).listEntries page (n := min dirPageEntries num) (i := 0)
    (by omega)
  have browsed := Browsed.of_same same
  have listed := browsed.trans
    (listEntries_browsed (pageSeen fs d ((fs.deref p).blocks iblock)) (min dirPageEntries num) 0 fs₁)
  refine ⟨fs₁, _, loaded, dirs, listed, ?_, ?_⟩
  · intro s
    rw [dirs, listed.rest, ← bmap]
    exact ok₁ s
  · rw [listPages, if_neg more, loaded, List.range_eq_range', ← browsed.listedEntry, ← names]

theorem Inv.listPages_keeps (h : Inv own top fs) (ok : PagesOk fs) {p : InodePtr}
    {fuel iblock num : Nat}
    (pages : ∀ i, 32 * i < num → HoldsEntries fs ((fs.deref p).blocks (iblock + i))) :
    PagesOk (listPages d p fuel iblock num fs).2 := by
  induction fuel generalizing iblock num fs with
  | zero => exact ok
  | succ fuel ih =>
      by_cases more : num ≠ 0
      · have first := pages 0 (by omega)
        rw [Nat.add_zero] at first
        obtain ⟨fs₁, fs₂, -, -, browsed, ok₂, round⟩ := h.listPages_round ok d fuel more first
        rw [round]
        refine ih (browsed.inv h) ok₂ fun i hi => ?_
        simp only [dirPageEntries] at hi
        have page := pages (i + 1) (by omega)
        rw [browsed.deref, Nat.add_assoc, Nat.add_comm 1 i, browsed.rest]
        exact ⟨page.inside, page.page⟩
      · rw [listPages, if_pos (not_not.mp more)]
        exact ok

/-- The page with index `i` of a directory as a listing finds it, at most the second: inodes are
too few for a third page. By then the first page has been loaded. -/
def listedPage (fs : Fs) (dir : Nat) (inode : Inode) (i : Nat) : Block :=
  if i = 0 then pageSeen fs dir (inode.blocks 0)
  else pageSeen (((loadDirPage fs dir (inode.blocks 0)).map Prod.snd).getD fs) dir (inode.blocks i)

def SameSlots (fs fs' : Fs) : Prop :=
  ∀ s, (fs'.dirCache s).dirNum = (fs.dirCache s).dirNum ∧
    (fs'.dirCache s).blockNum = (fs.dirCache s).blockNum ∧
    (fs'.dirCache s).entries = (fs.dirCache s).entries

theorem pageSeen_congr (same : SameSlots fs fs') {b : Nat}
    (content : fs'.blocks.content b = fs.blocks.content b) :
    pageSeen fs' dir b = pageSeen fs dir b := by
  have found : (findDirSlot fs' fun e => e.dirNum == dir && e.blockNum == b) =
      findDirSlot fs fun e => e.dirNum == dir && e.blockNum == b := by
    rw [findDirSlot, findDirSlot]
    refine congrArg _ (funext fun s => ?_)
    rw [(same s).1, (same s).2.1]
  rw [pageSeen, pageSeen, found]
  split
  · exact (same _).2.2
  · exact content

private theorem loadDirPage_sameSlots {fs₁ fs₁' : Fs} {b : Nat} {page page' : Block}
    (dirs : fs'.dirCache = fs.dirCache) (blocks : fs'.blocks = fs.blocks)
    (loaded : loadDirPage fs dir b = some (page, fs₁))
    (loaded' : loadDirPage fs' dir b = some (page', fs₁')) : SameSlots fs₁ fs₁' := by
  have found : (findDirSlot fs' fun e => e.dirNum == dir && e.blockNum == b) =
      findDirSlot fs fun e => e.dirNum == dir && e.blockNum == b := by
    rw [findDirSlot, findDirSlot, dirs]
  rw [loadDirPage, found, blocks] at loaded'
  rw [loadDirPage] at loaded
  split at loaded
  · rename_i s hit
    rw [hit] at loaded'
    cases loaded
    cases loaded'
    intro t
    simp only [Fs.touchDir, dirs]
    by_cases here : t = s
    · simp [here]
    · simp [Function.update_of_ne here]
  · rename_i miss
    simp only [miss] at loaded'
    split at loaded
    · cases loaded
    · rename_i read
      simp only [read] at loaded'
      cases loaded
      cases loaded'
      intro t
      simp only [addDirAt, dirs]
      by_cases here : t = oldest fun i => (fs.dirCache i).lastAccess
      · simp [here]
      · simp [Function.update_of_ne here]

/-- A copy of a directory's inode from before its last entries. -/
structure Older (copy inode : Inode) : Prop where
  size_le : copy.size ≤ inode.size
  blocks : ∀ i, i < copy.used → copy.blocks i = inode.blocks i

theorem Older.refl (inode : Inode) : Older inode inode := ⟨Nat.le_refl _, fun _ _ => rfl⟩

theorem Inv.seenPages (h : Inv own top fs) (copies : DirCopies Older fs) (isDir : IsDir fs d)
    {i : Nat} (hi : 32 * i < (fs.seen d).size / dentrySize) :
    HoldsEntries fs ((fs.seen d).blocks i) := by
  have older := copies.seen Older.refl isDir
  simp only [dentrySize] at hi
  have used : i < (fs.seen d).used := Inode.lt_used.mpr (by omega)
  rw [older.blocks i used]
  exact h.holdsEntries isDir
    (Nat.lt_of_lt_of_le used (offsetToBlocks_mono older.size_le))

private theorem listPages_zero (p : InodePtr) (fuel iblock : Nat) :
    listPages d p fuel iblock 0 fs = (some [], fs) := by
  cases fuel with
  | zero => rfl
  | succ fuel => rw [listPages, if_pos rfl]

private theorem openInode_blocks {a : Nat} {p : InodePtr}
    (opened : Snfs.openInode fs a = some (p, fs')) :
    fs'.blocks = fs.blocks := by
  cases opened_of_open opened <;> rfl

theorem PagesOk.listedPage (ok : PagesOk fs) {inode : Inode}
    (first : HoldsEntries fs (inode.blocks 0))
    {i : Nat} (holds : HoldsEntries fs (inode.blocks i)) :
    PageOk fs.inodeBmap (Snfs.listedPage fs d inode i) := by
  obtain ⟨fs₁, loaded, same, ok₁, page⟩ := ok.loadDirPage d first
  rw [Snfs.listedPage]
  split
  · exact page
  · rw [loaded]
    have later : HoldsEntries fs₁ (inode.blocks i) := by
      rw [same]
      exact ⟨holds.inside, holds.page⟩
    obtain ⟨-, -, -, -, page'⟩ := ok₁.loadDirPage d later
    have bmap : fs₁.inodeBmap = fs.inodeBmap := by rw [same]
    rwa [bmap] at page'

theorem Inv.listPages_eq (h : Inv own top fs) (ok : PagesOk fs) {p : InodePtr} {num : Nat}
    (few : num ≤ 64)
    (pages : ∀ i, 32 * i < num → HoldsEntries fs ((fs.deref p).blocks i)) :
    (listPages d p num 0 num fs).1 = some ((List.range num).map fun k =>
      listedEntry fs (listedPage fs d (fs.deref p) (k / 32)) (k % 32)) := by
  cases num with
  | zero => rfl
  | succ n =>
      obtain ⟨fs₁, fs₂, loaded, dirs, browsed, ok₂, round⟩ :=
        h.listPages_round ok d n (Nat.succ_ne_zero n) (pages 0 (by omega))
      have head : (List.range (min dirPageEntries (n + 1))).map
          (listedEntry fs (pageSeen fs d ((fs.deref p).blocks 0))) =
          (List.range (min dirPageEntries (n + 1))).map fun k =>
            listedEntry fs (listedPage fs d (fs.deref p) (k / 32)) (k % 32) := by
        refine List.map_congr_left fun k hk => ?_
        have small : k < 32 := Nat.lt_of_lt_of_le (List.mem_range.mp hk) (Nat.min_le_left _ _)
        rw [listedPage, if_pos (by omega), Nat.mod_eq_of_lt small]
      rw [round, head]
      by_cases one : n + 1 ≤ 32
      · rw [Nat.sub_eq_zero_of_le one, listPages_zero, Nat.min_eq_right one]
        simp
      · -- the second page is looked for when the first is in the cache
        obtain ⟨m, rfl⟩ : ∃ m, n = m + 1 := ⟨n - 1, by omega⟩
        have second : HoldsEntries fs₂ ((fs₂.deref p).blocks 1) := by
          have page := pages 1 (by omega)
          rw [browsed.deref, browsed.rest]
          exact ⟨page.inside, page.page⟩
        obtain ⟨-, fs₃, -, -, -, -, round'⟩ :=
          (browsed.inv h).listPages_round ok₂ d m (show m + 1 + 1 - dirPageEntries ≠ 0 by
            simp only [dirPageEntries]; omega) second
        have left : m + 1 + 1 - dirPageEntries - dirPageEntries = 0 := by
          simp only [dirPageEntries]
          omega
        have seen : pageSeen fs₂ d ((fs.deref p).blocks 1) =
            listedPage fs d (fs.deref p) 1 := by
          rw [listedPage, if_neg (by decide), loaded]
          have blocks₁ : fs₁.blocks = fs.blocks := by rw [loadDirPage_same loaded]
          have blocks₂ : fs₂.blocks = fs.blocks := by rw [browsed.rest]
          refine pageSeen_congr (fun s => ?_) ?_
          · rw [dirs]
            exact ⟨rfl, rfl, rfl⟩
          · show fs₂.blocks.content _ = fs₁.blocks.content _
            rw [blocks₁, blocks₂]
        rw [Nat.zero_add, round', left, listPages_zero, browsed.deref, seen, browsed.listedEntry]
        have two : min dirPageEntries (m + 1 + 1 - dirPageEntries) = m + 1 + 1 - 32 :=
          Nat.min_eq_right (by simp only [dirPageEntries]; omega)
        have all : m + 1 + 1 = 32 + (m + 1 + 1 - 32) := by omega
        simp only [Option.map_some, List.append_nil]
        rw [two, show min dirPageEntries (m + 1 + 1) = 32 from Nat.min_eq_left (by omega)]
        conv_rhs => rw [all, List.range_add, List.map_append, List.map_map]
        refine congrArg some (congrArg _ (List.map_congr_left fun k hk => ?_))
        have small := List.mem_range.mp hk
        rw [Function.comp_apply, show (32 + k) / 32 = 1 by omega, show (32 + k) % 32 = k by omega]

private theorem listedPage_congr (dirs : fs'.dirCache = fs.dirCache)
    (blocks : fs'.blocks = fs.blocks)
    (ok : PagesOk fs) (ok' : PagesOk fs') {inode : Inode} (first : HoldsEntries fs (inode.blocks 0))
    (first' : HoldsEntries fs' (inode.blocks 0)) (i : Nat) :
    listedPage fs' d inode i = listedPage fs d inode i := by
  have slots : SameSlots fs fs' := fun s => by rw [dirs]; exact ⟨rfl, rfl, rfl⟩
  obtain ⟨fs₁, loaded, same, -⟩ := ok.loadDirPage d first
  obtain ⟨fs₁', loaded', same', -⟩ := ok'.loadDirPage d first'
  rw [listedPage, listedPage, loaded, loaded']
  refine ite_congr rfl (fun _ => pageSeen_congr slots (by rw [blocks])) fun _ => ?_
  refine pageSeen_congr (loadDirPage_sameSlots dirs blocks loaded loaded') ?_
  have blocks₁ : fs₁.blocks = fs.blocks := by rw [same]
  have blocks₁' : fs₁'.blocks = fs'.blocks := by rw [same']
  show fs₁'.blocks.content _ = fs₁.blocks.content _
  rw [blocks₁, blocks₁', blocks]

def listLength (fs : Fs) (dir : Nat) (maxentries : Int) : Nat :=
  min ((fs.seen dir).size / dentrySize) maxentries.toNat

theorem Inv.opened_list (h : Inv own top fs) (ok : PagesOk fs) (copies : DirCopies Older fs)
    {p : InodePtr} (opened : Snfs.openInode fs d = some (p, fs'))
    (isDir : (fs'.deref p).type = .dir) :
    Inv own top fs' ∧ IsDir fs d ∧ PagesOk fs' ∧ fs'.deref p = fs.seen d ∧
      fs'.dirCache = fs.dirCache ∧ listedEntry fs' = listedEntry fs ∧
      ∀ i, 32 * i < (fs.seen d).size / dentrySize → HoldsEntries fs' ((fs.seen d).blocks i) := by
  obtain ⟨lt, h', quiet, -, copy, dirs⟩ := h.openInode opened
  have dir : IsDir fs d := by
    rw [copy, h.type_seen] at isDir
    exact h.isDir_iff.mpr ⟨lt, isDir⟩
  refine ⟨h', dir, fun s => ?_, copy, dirs, ?_, fun i hi => ?_⟩
  · rw [dirs, quiet.inodeBmap]
    exact ok s
  · funext page j
    rw [listedEntry, listedEntry, listed, listed, quiet.type]
  · have page := h.seenPages copies dir hi
    refine ⟨quiet.numBlocks ▸ page.inside, ?_⟩
    rw [openInode_blocks opened, quiet.inodeBmap]
    exact page.page

/-- `fs_readdir` in any state that a run reaches. -/
theorem Inv.fsReaddir_eq (h : Inv own top fs) (ok : PagesOk fs) (copies : DirCopies Older fs)
    (d : Nat) (maxentries : Int) : (Snfs.fsReaddir fs d maxentries).1 =
      if IsDir fs d ∧ 0 ≤ maxentries then
        some ((List.range (listLength fs d maxentries)).map fun k =>
          listedEntry fs (listedPage fs d (fs.seen d) (k / 32)) (k % 32))
      else none := by
  have small : top ≤ 64 := h.inodes.le_size
  rw [Snfs.fsReaddir]
  split
  · rename_i args
    refine (if_neg fun asked => ?_).symm
    have lt := (h.isDir_iff.mp asked.1).1
    have bound := asked.2
    simp only [itabSize] at args
    omega
  rename_i args
  have bound : 0 ≤ maxentries := Int.not_lt.mp fun negative => args (.inr negative)
  cases opened : Snfs.openInode fs d with
  | none =>
      have out := h.openInode_eq_none.mp opened
      refine (if_neg fun asked => ?_).symm
      exact absurd (h.isDir_iff.mp asked.1).1 (Nat.not_lt.mpr out)
  | some pair =>
      obtain ⟨p, fs₁⟩ := pair
      dsimp only
      split
      · rename_i other
        obtain ⟨-, -, -, -, copy, -⟩ := h.openInode opened
        rw [copy, h.type_seen] at other
        exact (if_neg fun asked => other asked.1.2).symm
      · rename_i dir
        obtain ⟨h₁, isDir, ok₁, copy, dirs, entries, pages⟩ :=
          h.opened_list ok copies opened (not_not.mp dir)
        have few : listLength fs d maxentries ≤ 64 := by
          have lt := (h.isDir_iff.mp isDir).1
          have all := h.tree.numEntries_le lt isDir.2
          have older := Nat.div_le_div_right (c := dentrySize)
            (copies.seen Older.refl isDir).size_le
          rw [numEntries] at all
          rw [listLength]
          omega
        have within {i : Nat} (hi : 32 * i < listLength fs d maxentries) :
            32 * i < (fs.seen d).size / dentrySize :=
          Nat.lt_of_lt_of_le hi (Nat.min_le_left _ _)
        have listing := h₁.listPages_eq ok₁ (d := d) (p := p) few fun i hi => by
          rw [copy]
          exact pages i (within hi)
        rw [copy, if_pos ⟨isDir, bound⟩]
        rw [copy, entries] at listing
        refine listing.trans (congrArg some (List.map_congr_left fun k hk => ?_))
        have some : 32 * 0 < listLength fs d maxentries :=
          Nat.lt_of_le_of_lt (Nat.zero_le k) (List.mem_range.mp hk)
        exact congrArg (listedEntry fs · (k % 32)) (listedPage_congr dirs (openInode_blocks opened)
          ok ok₁ (h.seenPages copies isDir (within some)) (pages 0 (within some)) _)

theorem Inv.listedPage_ok (h : Inv own top fs) (ok : PagesOk fs) (copies : DirCopies Older fs)
    (isDir : IsDir fs d) {maxentries : Int} {k : Nat} (hk : k < listLength fs d maxentries) :
    PageOk fs.inodeBmap (listedPage fs d (fs.seen d) (k / 32)) := by
  have within : k < (fs.seen d).size / dentrySize := Nat.lt_of_lt_of_le hk (Nat.min_le_left _ _)
  exact ok.listedPage (h.seenPages copies isDir (by omega)) (h.seenPages copies isDir (by omega))

/-- What the caches hold of directories, over any run. -/
structure CachesOk (fs : Fs) : Prop where
  pages : PagesOk fs
  copies : DirCopies Older fs

theorem Inv.readdir_pages (h : Inv own top fs) (ok : CachesOk fs) (d : Nat) (maxentries : Int) :
    PagesOk (Snfs.fsReaddir fs d maxentries).2 := by
  rw [Snfs.fsReaddir]
  split
  · exact ok.pages
  · cases opened : Snfs.openInode fs d with
    | none => exact ok.pages
    | some pair =>
        obtain ⟨p, fs₁⟩ := pair
        obtain ⟨-, -, quiet, -, -, dirs⟩ := h.openInode opened
        dsimp only
        split
        · intro s
          rw [dirs, quiet.inodeBmap]
          exact ok.pages s
        · rename_i dir
          obtain ⟨h₁, isDir, ok₁, copy, -, -, pages⟩ :=
            h.opened_list ok.pages ok.copies opened (not_not.mp dir)
          refine h₁.listPages_keeps ok₁ fun i hi => ?_
          rw [copy] at hi ⊢
          rw [Nat.zero_add]
          exact pages i (Nat.lt_of_lt_of_le hi (Nat.min_le_left _ _))

theorem cachesOk_kept : KeptByCalls CachesOk where
  calm h ok calm := by
    refine ⟨fun s => ?_, ok.copies.calm calm Older.refl⟩
    rw [calm.dirCache, calm.inodeBmap]
    exact ok.pages s
  search dir name h ok isDir nonempty := by
    refine ⟨(ok.pages.search h isDir nonempty).1, ?_⟩
    exact (dirCopies_kept Older.refl).search dir name h ok.copies isDir nonempty
  readdir dir maxentries h ok :=
    ⟨h.readdir_pages ok dir maxentries,
      (dirCopies_kept Older.refl).readdir dir maxentries h ok.copies⟩

theorem CachesOk.made {type : Itype} {name : CString} (ok : CachesOk fs) (h : Inv own top fs)
    (made : Made own own' top type fs dir name fs') : CachesOk fs' := by
  have isDir : IsDir fs dir := ⟨made.creatable.inUse, made.creatable.isDir⟩
  obtain ⟨fs₁, search, cached⟩ := made.missed
  have pages := (ok.pages.search h isDir made.creatable.nonempty).1
  have same := fsiDirSearch_same fs dir name
  rw [search] at pages same
  refine ⟨fun s => ?_, ok.copies.made h made fun s _ older => ?_⟩
  · rw [cached]
    refine (pages s).mono fun a set => ?_
    have bmap : fs₁.inodeBmap = fs.inodeBmap := by rw [show fs₁ = _ from same]
    rw [bmap] at set
    rw [made.inv.inodes.inUse]
    exact decide_eq_true (Nat.lt_succ_of_lt (h.lt_top set))
  · refine ⟨Nat.le_trans older.size_le (by rw [made.size_dir]; omega), fun i hi => ?_⟩
    rw [older.blocks i hi]
    exact (made.old_page (Nat.lt_of_lt_of_le hi (offsetToBlocks_mono older.size_le))).2.symm

theorem Formatted.cachesOk {num : Nat} {clock : Nat → Int} (h : Formatted num clock fs)
    (data : 10 ≤ num) : CachesOk fs := by
  refine ⟨fun s j _ => .inl ⟨?_, ?_⟩, h.dirCopies data⟩
  · rw [h.dirCache]
    exact Buf.cstr_eq_nil (Buf.get_zero _)
  · rw [h.dirCache, entryInodeid, Buf.get_zero, Buf.get_zero]
    rfl

end Snfs
