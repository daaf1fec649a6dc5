import Snfs.Fs.Reachable

/-!
When the inode cache shows a file as its operations left it: one copy at most,
and a clean copy agrees with the table on the type, the size and the blocks in
use. Every access keeps this for the other inodes. The second copy that
`fs_write` inserts for an inode that was not cached breaks it, and the condition
on runs of the next module keeps that insertion out.
-/

namespace Snfs

open Slots

/-- Two copies of an inode that describe the same file. -/
structure Agree (x y : Inode) : Prop where
  type : x.type = y.type
  size : x.size = y.size
  blocks : ∀ i, i < x.used → x.blocks i = y.blocks i

theorem Agree.used {x y : Inode} (h : Agree x y) : x.used = y.used := by
  rw [Inode.used, Inode.used, h.size]

theorem Agree.symm {x y : Inode} (h : Agree x y) : Agree y x :=
  ⟨h.type.symm, h.size.symm, fun i hi => (h.blocks i (h.used ▸ hi)).symm⟩

theorem Agree.trans {x y z : Inode} (h : Agree x y) (h' : Agree y z) : Agree x z :=
  ⟨h.type.trans h'.type, h.size.trans h'.size,
    fun i hi => (h.blocks i hi).trans (h'.blocks i (h.used ▸ hi))⟩

instance : Std.Refl Agree := ⟨fun _ => ⟨rfl, rfl, fun _ _ => rfl⟩⟩

theorem Agree.refl (x : Inode) : Agree x x := Std.Refl.refl x

theorem Agree.of_eq {x y : Inode} (h : x = y) : Agree x y := h ▸ .refl x

structure Coherent (fs : Fs) (a : Nat) : Prop where
  single : fs.inodeCache.Single a
  clean : fs.inodeCache.Clean Agree fs.inodeTab a

/-- File `a` reads the same after a step as before it. -/
structure Unchanged (a : Nat) (fs fs' : Fs) : Prop where
  coherent : Coherent fs' a
  agree : Agree (fs'.seen a) (fs.seen a)
  bytes : ∀ i, i < (fs.seen a).used →
    fs'.lblk ((fs.seen a).blocks i) = fs.lblk ((fs.seen a).blocks i)

theorem Unchanged.refl {a : Nat} {fs : Fs} (h : Coherent fs a) : Unchanged a fs fs :=
  ⟨h, .refl _, fun _ _ => rfl⟩

theorem Unchanged.trans {a : Nat} {fs fs' fs'' : Fs} (h : Unchanged a fs fs')
    (h' : Unchanged a fs' fs'') : Unchanged a fs fs'' := by
  refine ⟨h'.coherent, h'.agree.trans h.agree, fun i hi => ?_⟩
  have hi' : i < (fs'.seen a).used := by rwa [h.agree.used]
  have there := h'.bytes i hi'
  rw [h.agree.blocks i hi'] at there
  rw [there, h.bytes i hi]

variable {own : Ledger} {top : Nat} {fs fs' : Fs} {a : Nat}

theorem Coherent.touchInode (h : Coherent fs a) (s : Fin inodeCacheSize) :
    Coherent (fs.touchInode s) a ∧ (fs.touchInode s).seen a = fs.seen a :=
  ⟨⟨h.single.congr (Table.touch_key _ _ _),
    h.clean.congr (Table.touch_key _ _ _) (Table.touch_dirty _ _ _) (Table.touch_val _ _ _)⟩,
    Table.view_congr (Table.touch_key _ _ _) (Table.touch_val _ _ _) _ _⟩

/-- Another inode's insertion, whichever slot it replaces. -/
theorem Coherent.addInodeAt_other (h : Coherent fs a) (v : Fin inodeCacheSize) {b : Nat}
    (ne : a ≠ b) (d : Bool) :
    Coherent (addInodeAt fs v b d) a ∧ Agree ((addInodeAt fs v b d).seen a) (fs.seen a) :=
  ⟨⟨h.single.place_other ne v _ d _, h.clean.place_other h.single ne v _ d _⟩,
    Table.view_place_other h.single h.clean ne v _ d _⟩

theorem Coherent.addInodeAt_new (absent : fs.inodeCache.Absent a) (v : Fin inodeCacheSize)
    (d : Bool) : Coherent (addInodeAt fs v a d) a ∧ (addInodeAt fs v a d).seen a = fs.seen a := by
  have here : Table.evict fs.inodeTab (fs.inodeCache v) a = fs.inodeTab a :=
    Table.evict_of_ne _ (absent v)
  refine ⟨⟨Table.Single.place_new absent v _ d _,
    Table.Clean.place_new absent v _ fun _ => .of_eq here.symm⟩, ?_⟩
  rw [Fs.seen, Fs.seen, Table.view_of_absent absent, ← here]
  exact Table.view_place_new absent _ v _ d _

theorem seen_open {a : Nat} {p : InodePtr} (opened : openInode fs a = some (p, fs')) :
    fs'.seen a = fs.seen a := by
  cases opened_of_open opened with
  | cached => exact Table.view_congr (Table.touch_key _ _ _) (Table.touch_val _ _ _) _ _
  | table absent => exact (Coherent.addInodeAt_new absent _ false).2

theorem Coherent.addInodeAt (h : Coherent fs a) (v : Fin inodeCacheSize) {b : Nat}
    (absent : fs.inodeCache.Absent b) (d : Bool) :
    Coherent (addInodeAt fs v b d) a ∧ Agree ((addInodeAt fs v b d).seen a) (fs.seen a) := by
  by_cases same : a = b
  · subst same
    obtain ⟨coherent, seen⟩ := Coherent.addInodeAt_new absent v d
    exact ⟨coherent, .of_eq seen⟩
  · exact h.addInodeAt_other v same d

theorem SameInodes.seen (h : SameInodes fs fs') (a : Nat) : fs'.seen a = fs.seen a := by
  rw [Fs.seen, Fs.seen, h.inodeTab, h.inodeCache]

theorem Coherent.sameInodes (h : Coherent fs a) (same : SameInodes fs fs') : Coherent fs' a := by
  refine ⟨?_, ?_⟩
  · rw [same.inodeCache]
    exact h.single
  · rw [same.inodeCache, same.inodeTab]
    exact h.clean

/-- A change of the copy that a pointer leads to, as far as it agrees with the old one. -/
theorem Coherent.onlyAt (h : Coherent fs a) {p : InodePtr} {b : Nat} (only : OnlyAt p fs fs')
    (ptr : PtrTo fs p b) (agree : a = b → Agree (fs'.deref p) (fs.deref p)) :
    Coherent fs' a ∧ Agree (fs'.seen a) (fs.seen a) := by
  have val (s : Fin inodeCacheSize) (key : (fs.inodeCache s).key = a) :
      Agree (fs'.inodeCache s).val (fs.inodeCache s).val := by
    by_cases here : p = .cached s
    · subst here
      exact agree (key.symm.trans ptr)
    · rw [only.slot s here]
      exact .refl _
  have entry : Agree (fs'.inodeTab a) (fs.inodeTab a) := by
    by_cases here : p = .table a
    · subst here
      exact agree ptr
    · rw [only.entry a here]
      exact .refl _
  refine ⟨⟨h.single.congr only.key, fun s key clean => ?_⟩, ?_⟩
  · rw [only.key] at key
    have clean' : (fs.inodeCache s).dirty = false := by
      cases was : (fs.inodeCache s).dirty with
      | false => rfl
      | true =>
          rw [only.dirty s was] at clean
          cases clean
    exact (entry.trans (h.clean s key clean')).trans (val s key).symm
  · rw [Fs.seen, Fs.seen]
    have same := Table.find_congr only.key a
    cases found : fs.inodeCache.find? a with
    | some s =>
        rw [Table.view_of_find found, Table.view_of_find (same.trans found)]
        exact val s (Table.key_of_find found)
    | none =>
        rw [Table.view_of_absent (Table.absent_of_find found),
          Table.view_of_absent (Table.absent_of_find (same.trans found))]
        exact entry

/-- Blocks in use by a file keep their content when every data block does. -/
theorem Inv.unchanged_of_quiet (h : Inv own top fs) (ha : a < top) (coherent : Coherent fs' a)
    (agree : Agree (fs'.seen a) (fs.seen a)) (quiet : Quiet top fs fs') : Unchanged a fs fs' := by
  refine ⟨coherent, agree, fun i hi => ?_⟩
  obtain ⟨low, lt⟩ := h.owned_range ((h.owned_seen ha).owned_used hi)
  exact quiet.lblk _ low lt

theorem Inv.unchanged_browsed (h : Inv own top fs) (ha : a < top) (coherent : Coherent fs a)
    (browsed : Browsed fs fs') : Unchanged a fs fs' := by
  have tab : fs'.inodeTab = fs.inodeTab := by rw [browsed.rest]
  have seen : fs'.seen a = fs.seen a := by
    rw [Fs.seen, Fs.seen, tab]
    exact Table.view_congr browsed.key browsed.val _ _
  refine h.unchanged_of_quiet ha ⟨coherent.single.congr browsed.key, ?_⟩ (.of_eq seen)
    (browsed.quiet top)
  rw [tab]
  exact coherent.clean.congr browsed.key browsed.dirty browsed.val

theorem Inv.unchanged_open (h : Inv own top fs) (ha : a < top) (coherent : Coherent fs a) {b : Nat}
    {p : InodePtr} (opened : Snfs.openInode fs b = some (p, fs')) : Unchanged a fs fs' := by
  obtain ⟨-, -, quiet, -⟩ := h.openInode opened
  have kept : Coherent fs' a ∧ Agree (fs'.seen a) (fs.seen a) := by
    cases opened_of_open opened with
    | cached found =>
        obtain ⟨kept, seen⟩ := coherent.touchInode _
        exact ⟨kept, .of_eq seen⟩
    | table absent => exact coherent.addInodeAt _ absent false
  exact h.unchanged_of_quiet ha kept.1 kept.2 quiet

theorem Inv.unchanged_pin (h : Inv own top fs) (ha : a < top) (coherent : Coherent fs a) {b : Nat}
    (hb : b < top) {d : Bool} (file : d = true → (fs.inodeTab b).type = .file) :
    Unchanged a fs (Snfs.pinInode fs b d).2 := by
  obtain ⟨-, quiet, -⟩ := h.pinInode hb file
  have kept : Coherent (Snfs.pinInode fs b d).2 a ∧
      Agree ((Snfs.pinInode fs b d).2.seen a) (fs.seen a) := by
    rw [Snfs.pinInode]
    cases found : findInodeInCache fs b with
    | some s =>
        obtain ⟨kept, seen⟩ := coherent.touchInode s
        exact ⟨kept, .of_eq seen⟩
    | none => exact coherent.addInodeAt _ (Table.absent_of_find found) d
  exact h.unchanged_of_quiet ha kept.1 kept.2 quiet

theorem Made.seen_other {own' : Ledger} {type : Itype} {dir : Nat} {name : CString}
    (made : Made own own' top type fs dir name fs') (ha : a < top) (ne : a ≠ dir) :
    fs'.seen a = fs.seen a := by
  rw [Fs.seen, Fs.seen, made.inodeCache]
  exact Table.view_store_congr _ (made.tab_other a ha ne)

theorem Made.ne_dir {own' : Ledger} {type : Itype} {dir : Nat} {name : CString}
    (made : Made own own' top type fs dir name fs') (file : (fs.inodeTab a).type = .file) :
    a ≠ dir := by
  rintro rfl
  rw [made.creatable.isDir] at file
  cases file

theorem Made.unchanged {own' : Ledger} {type : Itype} {dir : Nat} {name : CString}
    (made : Made own own' top type fs dir name fs') (h : Inv own top fs) (ha : a < top)
    (file : (fs.inodeTab a).type = .file) (coherent : Coherent fs a) : Unchanged a fs fs' := by
  have ne := made.ne_dir file
  have tab := made.tab_other a ha ne
  refine ⟨⟨made.inodeCache ▸ coherent.single, ?_⟩, .of_eq (made.seen_other ha ne), fun i hi => ?_⟩
  · rw [made.inodeCache]
    exact coherent.clean.store_congr tab
  · have given := (h.owned_seen ha).owned_used hi
    obtain ⟨low, lt⟩ := h.owned_range given
    exact made.lblk low lt (made.ne_page given ne)

theorem Inv.unchanged_same (h : Inv own top fs) (ha : a < top) (coherent : Coherent fs a)
    (same : SameButDirs fs fs') : Unchanged a fs fs' :=
  h.unchanged_browsed ha coherent (.of_same same)

theorem Copied.unchanged {own' : Ledger} {b : Nat} (copied : Copied own own' top (.table b) fs fs')
    (h : Inv own top fs) (ha : a < top) (ne : a ≠ b) (coherent : Coherent fs a) :
    Unchanged a fs fs' := by
  have ptr : PtrTo fs (.table b) b := rfl
  obtain ⟨coherent', agree⟩ := coherent.onlyAt copied.only ptr fun same => absurd same ne
  refine ⟨coherent', agree, fun i hi => ?_⟩
  obtain ⟨low, lt, set, -⟩ := h.ledger.given _ _ _ ((h.owned_seen ha).owned_used hi)
  rcases copied.lblk _ low lt with same | ⟨clear, -⟩
  · exact same
  · rw [clear] at set
    cases set

theorem Inv.unchanged_copy (h : Inv own top fs) (ha : a < top) (file : (fs.inodeTab a).type = .file)
    (coherent : Coherent fs a) {srcJunk dirJunk : Nat} {srcpath tgtpath : CString}
    (noZero : (0 : UInt8) ∉ tgtpath) (room : Room fs (inodeNumBlks + 1)) {ok : Bool}
    (result : fsCopy fs srcJunk dirJunk srcpath tgtpath = some (ok, fs')) :
    Unchanged a fs fs' := by
  have found {paths : Option (Nat × Nat × CString)} {fs₁ : Fs}
      (looked : Snfs.copyPaths fs srcJunk dirJunk srcpath tgtpath = some (paths, fs₁)) :
      Unchanged a fs fs₁ := by
    refine (copyPaths_keeps (P := fun s => Inv own top s ∧ Unchanged a fs s) ?_ ?_
      ⟨h, .refl coherent⟩ looked).2
    · rintro s dir name ⟨inv, kept⟩ - -
      have same := fsiDirSearch_same s dir name
      exact ⟨same.inv inv, kept.trans (inv.unchanged_same ha kept.coherent same)⟩
    · rintro s b p s' ⟨inv, kept⟩ opened
      exact ⟨(inv.openInode opened).2.1, kept.trans (inv.unchanged_open ha kept.coherent opened)⟩
  cases h.fsCopy_ends noZero room result with
  | noPaths paths => exact found paths
  | notMade paths h₁ _ _ searched =>
      exact (found paths).trans (h₁.unchanged_same ha (found paths).coherent searched.same)
  | made paths h₁ quiet₁ hsrc _ _ made pinned h₃ quiet₃ _ copied =>
      have ne : a ≠ top := Nat.ne_of_lt ha
      have ha' : a < top + 1 := Nat.lt_succ_of_lt ha
      have kept₂ := (found paths).trans
        (made.unchanged h₁ ha ((quiet₁.type a).trans file) (found paths).coherent)
      have pinned₁ := made.inv.unchanged_pin ha' kept₂.coherent (Nat.lt_succ_of_lt hsrc)
        (d := false) (by simp)
      have kept₃ := made.inv.unchanged_of_quiet ha'
        (by rw [pinned]; exact (pinned₁.coherent.addInodeAt_other _ ne true).1)
        (by rw [pinned]; exact (pinned₁.coherent.addInodeAt_other _ ne true).2.trans pinned₁.agree)
        quiet₃
      exact kept₂.trans (kept₃.trans (copied.unchanged h₃ ha' ne kept₃.coherent))

theorem Inv.unchanged_write_failed (h : Inv own top fs) (ha : a < top) (coherent : Coherent fs a)
    {file offset : Nat} {data : List UInt8} (short : data.length ≤ 1024)
    (room : Room fs (demand fs (.write file offset data)))
    (result : fsWrite fs file offset data = (false, fs')) : Unchanged a fs fs' := by
  have ends := h.fsWrite_ends file offset short room
  rw [result] at ends
  cases ends with
  | unused => exact .refl coherent
  | refused opened => exact h.unchanged_open ha coherent opened
  | full opened _ _ _ alloc =>
      obtain ⟨-, h₁, -, ptr, -⟩ := h.openInode opened
      have kept₁ := h.unchanged_open ha coherent opened
      have type := alloc.inv.type_deref (alloc.only.ptrTo ptr)
      rw [alloc.frame.type, ← h₁.type_deref ptr] at type
      obtain ⟨coherent₂, agree₂⟩ := kept₁.coherent.onlyAt alloc.only ptr fun _ =>
        ⟨type, alloc.size, fun i hi => alloc.below i (by rwa [Inode.used, ← alloc.size])⟩
      refine kept₁.trans ⟨coherent₂, agree₂, fun i hi => ?_⟩
      obtain ⟨low, inside⟩ := h₁.owned_range ((h₁.owned_seen ha).owned_used hi)
      exact alloc.lblk _ low inside

theorem Coherent.writeSize_other (coherent : Coherent fs a) {p : InodePtr} {b : Nat}
    (ptr : PtrTo fs p b) (ne : a ≠ b) (size : Nat) :
    Coherent (writeSize fs b p size) a ∧ Agree ((writeSize fs b p size).seen a) (fs.seen a) := by
  have only := (onlyAt_assign fs p { fs.deref p with size := size }).trans
    (onlyAt_markDirty _ p)
  obtain ⟨coherent₁, agree₁⟩ := coherent.onlyAt only ptr fun same => absurd same ne
  cases p with
  | cached s => exact ⟨coherent₁, agree₁⟩
  | table e =>
      obtain ⟨coherent₂, agree₂⟩ := coherent₁.addInodeAt_other _ ne true
      exact ⟨coherent₂, agree₂.trans agree₁⟩

theorem Inv.unchanged_write_other (h : Inv own top fs) (ha : a < top) (coherent : Coherent fs a)
    {file : Nat} (ne : a ≠ file) (offset : Nat) {data : List UInt8} (short : data.length ≤ 1024)
    (room : Room fs (demand fs (.write file offset data))) :
    Unchanged a fs (fsWrite fs file offset data).2 := by
  -- the blocks written to belong to the file
  have bytes {own' : Ledger} {p : InodePtr} {fs₁ fs₂ : Fs} (h₁ : Inv own top fs₁)
      (stored : Stored own own' top p file (writePos (fs.seen file) offset) data fs₁ fs₂)
      (i : Nat) (hi : i < (fs₁.seen a).used) :
      fs₂.lblk ((fs₁.seen a).blocks i) = fs₁.lblk ((fs₁.seen a).blocks i) := by
    have given := (h₁.owned_seen ha).owned_used hi
    obtain ⟨low, inside⟩ := h₁.owned_range given
    refine stored.other _ low inside fun j _ last same => ?_
    have given' := stored.given j (Nat.lt_of_lt_of_le last (Nat.le_max_right _ _))
    rw [← same, stored.le _ _ given] at given'
    cases given'
    exact ne rfl
  have ends := h.fsWrite_ends file offset short room
  cases result : fsWrite fs file offset data with
  | mk ok fs' =>
      rw [result] at ends
      cases ends with
      | unused | refused | full => exact h.unchanged_write_failed ha coherent short room result
      | inside opened _ _ stored same =>
          obtain ⟨-, h₁, -⟩ := h.openInode opened
          have kept₁ := h.unchanged_open ha coherent opened
          exact kept₁.trans
            ⟨kept₁.coherent.sameInodes same, .of_eq (same.seen a), bytes h₁ stored⟩
      | extended opened grows stored =>
          obtain ⟨lt, h₁, quiet₁, ptr, -⟩ := h.openInode opened
          have kept₁ := h.unchanged_open ha coherent opened
          obtain ⟨coherent₂, agree₂⟩ := kept₁.coherent.onlyAt stored.only ptr
            fun same => absurd same ne
          have kept₂ : Unchanged a _ _ := ⟨coherent₂, agree₂, bytes h₁ stored⟩
          obtain ⟨coherent₃, agree₃⟩ := coherent₂.writeSize_other (stored.only.ptrTo ptr) ne
            (writePos (fs.seen file) offset + data.length)
          have type₂ := (stored.frame.type file).trans ((quiet₁.type file).trans grows.isFile)
          obtain ⟨-, quiet⟩ := stored.inv.writeSize lt (stored.only.ptrTo ptr) type₂ grows.fits
            fun i hi => stored.given i (by omega)
          exact kept₁.trans (kept₂.trans
            (stored.inv.unchanged_of_quiet ha coherent₃ agree₃ quiet))

def WritesTo (a : Nat) : FsOp × FsResult → Prop
  | (.write file _ _, .written true) => file = a
  | _ => False

theorem WritesTo.written {op : FsOp} {res : FsResult} (writes : WritesTo a (op, res))
    (next : fsStep fs op = some (res, fs')) :
    ∃ offset data, op = .write a offset data ∧ fsWrite fs a offset data = (true, fs') := by
  cases op with
  | write file offset data =>
      cases result : fsWrite fs file offset data with
      | mk ok fs₁ =>
          simp only [fsStep, result] at next
          cases next
          cases ok with
          | false => exact writes.elim
          | true =>
              cases writes
              exact ⟨offset, data, rfl, result⟩
  | _ => exact writes.elim

/-- A call leaves every file as it was that it does not write to. -/
theorem Inv.unchanged_step (h : Inv own top fs) (ha : a < top)
    (file : (fs.inodeTab a).type = .file) (coherent : Coherent fs a) {op : FsOp} (fits : op.Fits)
    (room : Room fs (demand fs op)) {res : FsResult} (next : fsStep fs op = some (res, fs'))
    (other : ¬ WritesTo a (op, res)) : Unchanged a fs fs' := by
  have make {type : Itype} (kind : type = .dir ∨ type = .file) {dir : Nat} {name : CString}
      (noZero : (0 : UInt8) ∉ name) (room : Room fs 1) :
      Unchanged a fs (Snfs.fsMake type fs dir name).2 := by
    rcases h.fsMake type kind dir noZero room with ⟨fs₁, stop, searched⟩ | ⟨own₁, fs₁, done, made⟩
    · rw [stop]
      exact h.unchanged_same ha coherent searched.same
    · rw [done]
      exact made.unchanged h ha file coherent
  cases op with
  | lookup path =>
      simp only [fsStep] at next
      cases next
      exact h.unchanged_same ha coherent (fsLookup_same fs path)
  | getAttrs file =>
      obtain ⟨⟨attrs, fs₁⟩, got, same⟩ := Option.map_eq_some_iff.mp next
      cases same
      exact (fsGetAttrs_keeps (P := fun s => Inv own top s ∧ Unchanged a fs s)
        (fun s b p s' holds opened => ⟨(holds.1.openInode opened).2.1,
          holds.2.trans (holds.1.unchanged_open ha holds.2.coherent opened)⟩)
        ⟨h, .refl coherent⟩ got).2
  | read file offset count =>
      simp only [fsStep] at next
      cases next
      rcases h.fsRead_cases file offset count with ⟨-, stop⟩ | ⟨p, fs₁, opened, ⟨-, stop⟩ |
        ⟨-, fs₂, done, -, quiet₂, same₂⟩⟩
      · rw [stop]
        exact .refl coherent
      · rw [stop]
        exact h.unchanged_open ha coherent opened
      · rw [done]
        have kept₁ := h.unchanged_open ha coherent opened
        exact kept₁.trans ((h.openInode opened).2.1.unchanged_of_quiet ha
          (kept₁.coherent.sameInodes same₂) (.of_eq (same₂.seen a)) quiet₂)
  | write file offset data =>
      have apart (ne : a ≠ file) := h.unchanged_write_other ha coherent ne offset fits room
      cases result : fsWrite fs file offset data with
      | mk ok fs₁ =>
          simp only [fsStep, result] at next apart
          cases next
          cases ok with
          | false => exact h.unchanged_write_failed ha coherent fits room result
          | true => exact apart fun same => other same.symm
  | create dir name =>
      simp only [fsStep] at next
      cases next
      exact make (.inr rfl) fits room
  | mkdir dir name =>
      simp only [fsStep] at next
      cases next
      exact make (.inl rfl) fits room
  | readdir dir maxentries =>
      simp only [fsStep] at next
      cases next
      rcases fsReaddir_state fs dir maxentries with same | ⟨p, fs₁, opened, listed⟩
      · rw [same]
        exact .refl coherent
      · have kept₁ := h.unchanged_open ha coherent opened
        exact kept₁.trans ((h.openInode opened).2.1.unchanged_browsed ha kept₁.coherent listed)
  | copy srcJunk dirJunk srcpath tgtpath =>
      obtain ⟨⟨ok, fs₁⟩, done, same⟩ := Option.map_eq_some_iff.mp next
      cases same
      exact h.unchanged_copy ha file coherent fits.2.1 room done

theorem Made.coherent_new {own' : Ledger} {type : Itype} {dir : Nat} {name : CString}
    (made : Made own own' top type fs dir name fs') (h : Inv own top fs) :
    fs'.inodeCache.Absent top ∧ Coherent fs' top ∧ fs'.seen top = fsiInodeInit type := by
  have absent : fs'.inodeCache.Absent top := by
    intro s key
    rw [made.inodeCache] at key
    exact absurd key (Nat.ne_of_lt (h.inodes.key_lt s))
  refine ⟨absent, ⟨.of_absent absent, fun s key => absurd key (absent s)⟩, ?_⟩
  rw [Fs.seen, Table.view_of_absent absent, made.tab_new]

def Fs.Caches (fs : Fs) (a : Nat) : Prop := ∃ s, (fs.inodeCache s).key = a

theorem Fs.Caches.congr (cached : fs.Caches a)
    (key : ∀ s, (fs'.inodeCache s).key = (fs.inodeCache s).key) : fs'.Caches a := by
  obtain ⟨s, here⟩ := cached
  exact ⟨s, (key s).trans here⟩

theorem caches_open {p : InodePtr} (opened : openInode fs a = some (p, fs')) : fs'.Caches a := by
  cases opened_of_open opened with
  | cached found => exact ⟨_, (Table.touch_key _ _ _ _).trans (Table.key_of_find found)⟩
  | table => exact ⟨_, by rw [addInodeToCache, addInodeAt_self]⟩

theorem Inv.caches_write (h : Inv own top fs) (ha : a < top) (offset : Nat) {data : List UInt8}
    (short : data.length ≤ 1024) (room : Room fs (demand fs (.write a offset data))) :
    (fsWrite fs a offset data).2.Caches a := by
  have ends := h.fsWrite_ends a offset short room
  generalize fsWrite fs a offset data = result at ends
  cases ends with
  | unused out => omega
  | refused opened => exact caches_open opened
  | full opened _ _ _ alloc => exact (caches_open opened).congr alloc.only.key
  | inside opened _ _ _ same => exact (caches_open opened).congr fun s => by rw [same.inodeCache]
  | @extended p _ _ _ opened _ stored =>
      cases p with
      | cached s =>
          refine ((caches_open opened).congr stored.only.key).congr fun t => ?_
          simp only [Snfs.writeSize, Fs.markDirty, Fs.assign, Table.write_key]
      | table b => exact ⟨_, by rw [Snfs.writeSize, addInodeToCache, addInodeAt_self]⟩

theorem Inv.caches_read (h : Inv own top fs) (ha : a < top) (offset count : Nat) :
    (fsRead fs a offset count).2.Caches a := by
  rcases h.fsRead_cases a offset count with ⟨out, -⟩ | ⟨p, fs₁, opened, ⟨-, stop⟩ |
    ⟨-, fs₂, done, -, -, same⟩⟩
  · omega
  · rw [stop]
    exact caches_open opened
  · rw [done]
    exact (caches_open opened).congr fun s => by rw [same.inodeCache]

theorem Inv.caches_getAttrs (h : Inv own top fs) (ha : a < top) {res : FsResult}
    (next : fsStep fs (.getAttrs a) = some (res, fs')) : fs'.Caches a := by
  obtain ⟨⟨attrs, fs₁⟩, got, same⟩ := Option.map_eq_some_iff.mp next
  cases same
  rcases h.fsGetAttrs_cases a with ⟨out, -⟩ | ⟨p, fs₂, opened, result⟩
  · omega
  · rw [result] at got
    obtain ⟨x, -, same⟩ := Option.map_eq_some_iff.mp got
    cases same
    exact caches_open opened

end Snfs
