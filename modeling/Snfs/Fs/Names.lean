import Snfs.Fs.Freshness
import Mathlib.Data.List.Nodup

/-!
What the directories say through the caches: the search for a name, the
uniqueness of names and the listing. All three hold on the device's terms in
every run whose creations leave the caches true, and fail as soon as one does
not: `fs_create` and `fs_mkdir` refresh no cached page and no cached inode of the
directory that they add to.
-/

namespace Snfs

open Slots Runs

/-- A condition on the call of `fs_create` or `fs_mkdir` that an operation makes, if it makes one. -/
def OnCreate (P : Fs → Nat → CString → Prop) (fs : Fs) (op : FsOp) : Prop :=
  match createCall fs op with
  | some (_, s, dir, name) => P s dir name
  | none => True

/-- A call with arguments and with blocks enough, whose creation meets the condition. -/
def Admits (P : Fs → Nat → CString → Prop) (fs : Fs) (op : FsOp) : Prop :=
  op.Fits ∧ Room fs (demand fs op) ∧ OnCreate P fs op

section Decidable
variable {P : Fs → Nat → CString → Prop} [∀ fs dir name, Decidable (P fs dir name)]

instance (fs : Fs) (op : FsOp) : Decidable (OnCreate P fs op) :=
  match call : createCall fs op with
  | some (_, s, dir, name) => decidable_of_iff (P s dir name) (by rw [OnCreate, call])
  | none => .isTrue (by rw [OnCreate, call]; trivial)

instance (fs : Fs) (op : FsOp) : Decidable (Admits P fs op) :=
  inferInstanceAs (Decidable (_ ∧ _ ∧ OnCreate P fs op))

end Decidable

instance (fs : Fs) (dir : Nat) (name : CString) : Decidable (Creatable fs dir name) :=
  decidable_of_iff (dir < itabSize ∧ name ≠ [] ∧ name.length < fsMaxFnameSz ∧
      bmapIsset fs.inodeBmap dir = true ∧ (fs.inodeTab dir).type = .dir)
    ⟨fun h => ⟨h.1, h.2.1, h.2.2.1, h.2.2.2.1, h.2.2.2.2⟩,
      fun h => ⟨h.dir_lt, h.nonempty, h.short, h.inUse, h.isDir⟩⟩

instance (fs : Fs) (dir : Nat) (name : CString) : Decidable (CanAdd fs dir name) :=
  decidable_of_iff (Creatable fs dir name ∧
      (fsiBmapFindFree fs.inodeBmap itabSize).isSome = true ∧
      (growDir fs (fs.inodeTab dir)).isSome = true)
    ⟨fun h => ⟨h.1, h.2.1, h.2.2⟩, fun h => ⟨h.toCreatable, h.freeInode, h.freeBlock⟩⟩

theorem OnCreate.of_call {P : Fs → Nat → CString → Prop} {fs : Fs} {op : FsOp}
    (h : OnCreate P fs op) {type : Itype} {s : Fs} {dir : Nat} {name : CString}
    (call : createCall fs op = some (type, s, dir, name)) : P s dir name := by
  rw [OnCreate, call] at h
  exact h

variable {own : Ledger} {top : Nat} {fs fs' : Fs} {num : Nat} {clock : Nat → Int} {boot s : Fs}
  {trace : List (FsOp × FsResult)} {dir : Nat}

/-- A new entry goes to a directory of full pages. -/
def AddsToNewPage (fs : Fs) (dir : Nat) (name : CString) : Prop :=
  CanAdd fs dir name → plainSearch fs dir name = none → (fs.inodeTab dir).size % blockSize = 0

instance (fs : Fs) (dir : Nat) (name : CString) : Decidable (AddsToNewPage fs dir name) :=
  inferInstanceAs (Decidable (_ → _ → _))

def EmptyOrSame (v c : Inode) : Prop := v.size = 0 ∨ v = c

private theorem emptyOrSame_shows : ShowsDirs EmptyOrSame := ⟨fun _ => .inr rfl, fun _ _ h => h⟩

theorem AddsToNewPage.keepsFresh {name : CString} (guard : AddsToNewPage fs dir name)
    (fresh : DirsFresh EmptyOrSame fs) : KeepsFresh EmptyOrSame fs dir name := by
  intro can absent
  have isDir : IsDir fs dir := ⟨can.inUse, can.isDir⟩
  have aligned := guard can absent
  have empty : (fs.inodeTab dir).size = 0 := by
    have size := fresh.size dir isDir
    simp only [blockSize] at aligned
    omega
  refine ⟨aligned, fun s key c => ?_⟩
  have copy := fresh.copy s
  rw [key] at copy
  rcases copy isDir with zero | same
  · exact .inl zero
  · exact .inl (by rw [same, empty])

/-- In a run that adds entries to directories of full pages only, the cached search gives what the
device holds. -/
theorem fsiDirSearch_eq_plainSearch (data : 10 ≤ num) (unwrapped : num * blockSize < 2 ^ 32)
    (started : fsBoot num clock = some boot)
    (run : Run (Guarded (fun s e => Admits AddsToNewPage s e.1) FsNext) boot trace s)
    (isDir : IsDir s dir) {name : CString} (nonempty : name ≠ []) :
    (fsiDirSearch s dir name).1 = plainSearch s dir name := by
  have formatted := fsBoot_formatted data unwrapped started
  obtain ⟨own, top, inv, fresh⟩ := run.invariant
    (I := fun s => ∃ own top, Inv own top s ∧ DirsFresh EmptyOrSame s)
    ⟨_, 2, formatted.inv data, formatted.dirsFresh data⟩
    (by
      rintro s ⟨op, res⟩ s' ⟨own, top, inv, fresh⟩ ⟨⟨fits, room, create⟩, next⟩
      exact fresh.step emptyOrSame_shows inv fits room
        (fun _ _ _ _ call fresh => (create.of_call call).keepsFresh fresh) next)
  obtain ⟨s', search, -⟩ := fresh.search inv isDir nonempty
  rw [search]

/-- One file in the root and one in a new directory. -/
theorem fsiDirSearch_eq_plainSearch_two_dirs :
    ∃ trace s, fsAfter 16 (fun _ => 1) [.mkdir 1 [100], .create 2 [102]] = some (trace, s) ∧
      (fsiDirSearch s 2 [102]).1 = some 3 := by
  have boots : ((fsBoot 16 fun _ => 1).bind fun boot =>
      (execute fsStep boot [.mkdir 1 [100], .create 2 [102]]).map fun r =>
        (decide (Meets fsStep (Admits AddsToNewPage) boot [.mkdir 1 [100], .create 2 [102]]),
          decide (IsDir r.2 2), plainSearch r.2 2 [102])) = some (true, true, some 3) := by
    decide +kernel
  obtain ⟨boot, started, facts⟩ := Option.bind_eq_some_iff.mp boots
  obtain ⟨⟨trace, s⟩, calls, facts⟩ := Option.map_eq_some_iff.mp facts
  simp only [Prod.mk.injEq] at facts
  obtain ⟨met, isDir, plain⟩ := facts
  have search := fsiDirSearch_eq_plainSearch (by decide) (by decide) started
    (run_of_execute calls (of_decide_eq_true met)) (of_decide_eq_true isDir) (show [102] ≠ [] by simp)
  exact ⟨trace, s, by rw [fsAfter, started]; exact calls, search.trans plain⟩

/-- The second file made in the root is on the device and is not found. -/
theorem created_file_not_found :
    ¬ ∀ num clock trace s dir name, 10 ≤ num → FsRun num clock trace s → IsDir s dir →
      name ≠ [] → name.length ≤ 13 → (fsiDirSearch s dir name).1 = plainSearch s dir name := by
  intro agrees
  have facts : (fsAfter 16 (fun _ => 1) [.create 1 [97], .create 1 [98]]).map (fun r =>
      (decide (IsDir r.2 1), (fsiDirSearch r.2 1 [98]).1, plainSearch r.2 1 [98])) =
        some (true, none, some 3) := by decide +kernel
  obtain ⟨⟨trace, s⟩, calls, facts⟩ := Option.map_eq_some_iff.mp facts
  simp only [Prod.mk.injEq] at facts
  have agree := agrees 16 _ _ s 1 [98] (by decide) (FsRun.of_calls calls (by simp [FsOp.Fits]))
    (of_decide_eq_true facts.1) (by simp) (by simp)
  rw [facts.2.1, facts.2.2] at agree
  cases agree

def NamesUnique (fs : Fs) : Prop := ∀ d, IsDir fs d → ((dirEntries fs d).map Prod.fst).Nodup

def LacksName (fs : Fs) (dir : Nat) (name : CString) (k : Nat) (s : Fin dirCacheSize) : Prop :=
  (fs.dirCache s).dirNum = dir ∧
    (fs.dirCache s).blockNum = (fs.inodeTab dir).blocks (k / dirPageEntries) ∧
    findInPage (fs.dirCache s).entries
      (min dirPageEntries (numEntries fs dir - dirPageEntries * (k / dirPageEntries))) name = none

instance (fs : Fs) (dir : Nat) (name : CString) (k : Nat) (s : Fin dirCacheSize) :
    Decidable (LacksName fs dir name k s) :=
  inferInstanceAs (Decidable (_ ∧ _ ∧ _ = none))

/-- The device has an entry for the name and a cached copy of its page has none. -/
def Hides (fs : Fs) (dir : Nat) (name : CString) : Prop :=
  ∃ k, k < numEntries fs dir ∧ (entryAt fs dir k).1 = name ∧ ∃ s, LacksName fs dir name k s

instance (fs : Fs) (dir : Nat) (name : CString) : Decidable (Hides fs dir name) :=
  inferInstanceAs (Decidable (∃ k, k < numEntries fs dir ∧ (entryAt fs dir k).1 = name ∧
    ∃ s, LacksName fs dir name k s))

/-- A page comes from a slot for it or from the device; slots for other pages stay. -/
theorem loadDirPage_cases (fs : Fs) (dir : Nat) {b : Nat} (inside : b < fs.numBlocks) :
    ∃ page fs', loadDirPage fs dir b = some (page, fs') ∧ SameButDirs fs fs' ∧
      ((∃ s, (fs.dirCache s).dirNum = dir ∧ (fs.dirCache s).blockNum = b ∧
        (fs.dirCache s).entries = page) ∨ fs.blocks.content b = page) ∧
      ∀ s, (fs'.dirCache s).blockNum ≠ b →
        ∃ time, fs'.dirCache s = { fs.dirCache s with lastAccess := time } := by
  rw [loadDirPage]
  split
  · rename_i s found
    have here := of_findDirSlot found
    simp only [Bool.and_eq_true, beq_iff_eq] at here
    exact ⟨_, _, rfl, rfl, .inl ⟨s, here.1, here.2, rfl⟩, fun t _ => touchDir_slot fs s t⟩
  · rw [Blocks.read_of_lt inside]
    refine ⟨_, _, rfl, rfl, .inr rfl, fun t other => ?_⟩
    simp only [addDirAt] at other ⊢
    by_cases here : t = oldest fun i => (fs.dirCache i).lastAccess
    · rw [here, Function.update_self] at other
      exact absurd rfl other
    · exact ⟨(fs.dirCache t).lastAccess, Function.update_of_ne here _ _⟩

/-- A page loop that ends without the name has seen every page without it: in a slot for the page
or on the device. -/
theorem searchPages_missed {file : CString} {cachedDir : Option (Fin dirCacheSize)}
    {fuel iblock num : Nat} (result : (searchPages dir file cachedDir fuel iblock num fs).1 = none)
    (enough : num ≤ fuel)
    (inside : ∀ i, 32 * i < num → (fs.inodeTab dir).blocks (iblock + i) < fs.numBlocks)
    (apart : ∀ i j, i < j → 32 * j < num →
      (fs.inodeTab dir).blocks (iblock + j) ≠ (fs.inodeTab dir).blocks (iblock + i))
    {i : Nat} (hi : 32 * i < num) :
    (∃ s, (fs.dirCache s).dirNum = dir ∧
      (fs.dirCache s).blockNum = (fs.inodeTab dir).blocks (iblock + i) ∧
      findInPage (fs.dirCache s).entries (min 32 (num - 32 * i)) file = none) ∨
    findInPage (fs.blocks.content ((fs.inodeTab dir).blocks (iblock + i)))
      (min 32 (num - 32 * i)) file = none := by
  induction fuel generalizing iblock num fs i with
  | zero => omega
  | succ fuel ih =>
      obtain ⟨page, fs₁, loaded, same, source, others⟩ :=
        loadDirPage_cases fs dir (inside 0 (by omega))
      rw [Nat.add_zero] at loaded
      rw [searchPages, if_neg (by omega), loaded] at result
      cases missed : findInPage page (min dirPageEntries num) file with
      | some j =>
          simp only [missed] at result
          cases result
      | none =>
          simp only [missed] at result
          cases i with
          | zero =>
              rw [Nat.mul_zero, Nat.sub_zero]
              rcases source with ⟨s, here, block, rfl⟩ | rfl
              · exact .inl ⟨s, here, block, missed⟩
              · exact .inr missed
          | succ i =>
              have tab : fs₁.inodeTab = fs.inodeTab := by rw [same]
              have blocks : fs₁.blocks = fs.blocks := by rw [same]
              have index (j : Nat) : iblock + 1 + j = iblock + (j + 1) := by omega
              have rest := ih result (by simp only [dirPageEntries]; omega)
                (by
                  intro j hj
                  simp only [dirPageEntries] at hj
                  rw [tab, index, Fs.numBlocks, blocks]
                  exact inside (j + 1) (by omega))
                (by
                  intro j k lt hk
                  simp only [dirPageEntries] at hk
                  rw [tab, index, index]
                  exact apart (j + 1) (k + 1) (by omega) (by omega))
                (i := i) (by simp only [dirPageEntries]; omega)
              have limit : num - dirPageEntries - 32 * i = num - 32 * (i + 1) := by
                simp only [dirPageEntries]
                omega
              rw [tab, blocks, index, limit] at rest
              refine rest.imp_left fun found => ?_
              obtain ⟨s, here, block, lacks⟩ := found
              have other := apart 0 (i + 1) (by omega) hi
              obtain ⟨time, slot⟩ := others s (by rw [block]; exact other)
              rw [slot] at here block lacks
              exact ⟨s, here, block, lacks⟩

/-- A search misses a name that the device has only if a cached page lacks it. -/
theorem Inv.hides_of_missed (h : Inv own top fs) (isDir : IsDir fs dir) {name : CString}
    (missed : (fsiDirSearch fs dir name).1 = none) (listed : name ∈ (dirEntries fs dir).map Prod.fst) :
    Hides fs dir name := by
  obtain ⟨lt, type⟩ := h.isDir_iff.mp isDir
  obtain ⟨entry, member, rfl⟩ := List.mem_map.mp listed
  obtain ⟨k, hk, rfl⟩ := List.mem_map.mp member
  have hk := List.mem_range.mp hk
  have size := h.tree.size_eq lt type
  have used (i : Nat) (hi : 32 * i < numEntries fs dir) : i < (fs.inodeTab dir).used := by
    rw [Inode.lt_used]
    omega
  refine ⟨k, hk, rfl, ?_⟩
  -- the page loop starts in this state or after the first lookup has touched a slot
  obtain ⟨cachedDir, fs₁, tab, blocks, slots, loop⟩ : ∃ cachedDir fs₁,
      fs₁.inodeTab = fs.inodeTab ∧ fs₁.blocks = fs.blocks ∧
      (∀ s, ∃ time, fs₁.dirCache s = { fs.dirCache s with lastAccess := time }) ∧
      (searchPages dir (entryAt fs dir k).1 cachedDir (numEntries fs dir) 0 (numEntries fs dir)
        fs₁).1 = none := by
    rw [fsiDirSearch] at missed
    dsimp only at missed
    split at missed
    · exact ⟨_, fs, rfl, rfl, fun s => ⟨(fs.dirCache s).lastAccess, rfl⟩, missed⟩
    · rename_i s _
      split at missed
      · cases missed
      · exact ⟨_, fs.touchDir s, rfl, rfl, touchDir_slot fs s, missed⟩
  have found := searchPages_missed loop (Nat.le_refl _)
    (by
      intro i hi
      rw [tab, Nat.zero_add, Fs.numBlocks, blocks]
      exact (h.owned_range (h.dir_owned lt (used i hi))).2)
    (by
      intro i j lt' hj same
      rw [tab, Nat.zero_add, Nat.zero_add] at same
      have given := h.dir_owned lt (used j hj)
      rw [same, h.dir_owned lt (used i (by omega))] at given
      simp only [Option.some.injEq, Prod.mk.injEq, true_and] at given
      omega)
    (i := k / 32) (by omega)
  rw [tab, blocks, Nat.zero_add] at found
  rcases found with ⟨s, here, block, lacks⟩ | lacks
  · obtain ⟨time, slot⟩ := slots s
    rw [slot] at here block lacks
    exact ⟨s, here, block, lacks⟩
  · rw [findInPage, List.find?_range_eq_none] at lacks
    have there := lacks (k % 32) (by omega)
    simp [entryAt, entryPage, dirPageEntries] at there

theorem NamesUnique.frame (unique : NamesUnique fs) (frame : Frame top fs fs')
    (bound : ∀ d, IsDir fs' d → d < top) : NamesUnique fs' := by
  intro d isDir
  have lt := bound d isDir
  rw [IsDir, frame.inodeBmap, frame.type] at isDir
  rw [frame.dirEntries lt isDir.2]
  exact unique d isDir

theorem NamesUnique.made {own' : Ledger} {type : Itype} {name : CString} (unique : NamesUnique fs)
    (h : Inv own top fs) (made : Made own own' top type fs dir name fs')
    (guard : ¬ Hides fs dir name) : NamesUnique fs' := by
  intro d isDir
  have bound := (made.inv.isDir_iff.mp isDir).1
  by_cases new : d = top
  · rw [new, made.entries_new]
    exact List.nodup_nil
  · have lt : d < top := by omega
    have old : IsDir fs d := h.isDir_iff.mpr ⟨lt, (made.type_old lt).symm.trans isDir.2⟩
    by_cases here : d = dir
    · rw [here] at old
      obtain ⟨fs₁, search, -⟩ := made.missed
      rw [here, made.entries_dir, List.map_append, List.map_singleton, List.nodup_append]
      refine ⟨unique _ old, List.nodup_singleton _, fun x hx y hy same => ?_⟩
      rw [List.mem_singleton] at hy
      subst hy same
      exact guard (h.hides_of_missed old (by rw [search]) hx)
    · rw [made.entries_other d lt here]
      exact unique d old

/-- The name is in no page whose cached copy lacks it. -/
def NotHidden (fs : Fs) (dir : Nat) (name : CString) : Prop :=
  CanAdd fs dir name → ¬ Hides fs dir name

instance (fs : Fs) (dir : Nat) (name : CString) : Decidable (NotHidden fs dir name) :=
  inferInstanceAs (Decidable (_ → ¬ _))

theorem NamesUnique.step (unique : NamesUnique fs) (h : Inv own top fs) {op : FsOp}
    (guard : Admits NotHidden fs op) {res : FsResult} (next : fsStep fs op = some (res, fs')) :
    ∃ own' top', Inv own' top' fs' ∧ NamesUnique fs' := by
  obtain ⟨fits, room, create⟩ := guard
  obtain ⟨own', top', kept⟩ := h.step fits room next
  refine ⟨own', top', kept.inv, ?_⟩
  have created : NamesUnique (afterCreate fs op) := by
    rcases h.afterCreate_cases fits room with quiet |
      ⟨own₁, type, s, dir, name, call, inv, quiet, -, made⟩
    · refine unique.frame quiet.toFrame fun d isDir => ?_
      rw [IsDir, quiet.inodeBmap, quiet.type] at isDir
      exact (h.isDir_iff.mp isDir).1
    · have guard := create.of_call call ⟨made.creatable, by rw [made.freeInode]; rfl, made.freeBlock⟩
      have before := unique.frame quiet.toFrame fun d isDir => (inv.isDir_iff.mp isDir).1
      exact before.made inv made guard
  refine created.frame kept.frame fun d isDir => (kept.inv.isDir_iff.mp isDir).1

/-- In a run in which no creation finds the name hidden by a cached page, names are unique. -/
theorem names_unique (data : 10 ≤ num) (unwrapped : num * blockSize < 2 ^ 32)
    (started : fsBoot num clock = some boot)
    (run : Run (Guarded (fun s e => Admits NotHidden s e.1) FsNext) boot trace s) :
    NamesUnique s := by
  have formatted := fsBoot_formatted data unwrapped started
  have root (d : Nat) : dirEntries boot d = [] := by
    refine dirEntries_zero ?_
    rw [formatted.inodeTab, Function.update_apply]
    split <;> rfl
  obtain ⟨own, top, -, unique⟩ := run.invariant
    (I := fun s => ∃ own top, Inv own top s ∧ NamesUnique s)
    ⟨_, 2, formatted.inv data, fun d _ => by rw [root]; exact List.nodup_nil⟩
    (by
      rintro s ⟨op, res⟩ s' ⟨own, top, inv, unique⟩ ⟨guard, next⟩
      exact unique.step inv guard next)
  exact unique

/-- Two files; the third call finds the first one. -/
theorem names_unique_two_files :
    ∃ trace s, fsAfter 16 (fun _ => 1)
        [.create 1 [97], .create 1 [98], .create 1 [97]] = some (trace, s) ∧
      ((dirEntries s 1).map Prod.fst).Nodup := by
  have boots : ((fsBoot 16 fun _ => 1).bind fun boot =>
      (execute fsStep boot [.create 1 [97], .create 1 [98], .create 1 [97]]).map fun r =>
        (decide (Meets fsStep (Admits NotHidden) boot
          [.create 1 [97], .create 1 [98], .create 1 [97]]), decide (IsDir r.2 1))) =
      some (true, true) := by
    decide +kernel
  obtain ⟨boot, started, facts⟩ := Option.bind_eq_some_iff.mp boots
  obtain ⟨⟨trace, s⟩, calls, facts⟩ := Option.map_eq_some_iff.mp facts
  simp only [Prod.mk.injEq] at facts
  have unique := names_unique (by decide) (by decide) started
    (run_of_execute calls (of_decide_eq_true facts.1))
  exact ⟨trace, s, by rw [fsAfter, started]; exact calls, unique 1 (of_decide_eq_true facts.2)⟩

/-- The root gets a second file of the same name, since the cached page is from before the first. -/
theorem created_file_twice :
    ¬ ∀ num clock trace s, 10 ≤ num → FsRun num clock trace s → NamesUnique s := by
  intro unique
  have facts : (fsAfter 16 (fun _ => 1) [.create 1 [97], .create 1 [98], .create 1 [98]]).map
      (fun r => (decide (IsDir r.2 1), (dirEntries r.2 1).map Prod.fst)) =
        some (true, [[97], [98], [98]]) := by decide +kernel
  obtain ⟨⟨trace, s⟩, calls, facts⟩ := Option.map_eq_some_iff.mp facts
  simp only [Prod.mk.injEq] at facts
  have nodup := unique 16 _ _ s (by decide) (FsRun.of_calls calls (by simp [FsOp.Fits])) 1
    (of_decide_eq_true facts.1)
  rw [facts.2] at nodup
  exact absurd nodup (by decide)

/-- A new entry goes to a directory of full pages whose inode is not cached. -/
def AddsUncached (fs : Fs) (dir : Nat) (name : CString) : Prop :=
  CanAdd fs dir name → plainSearch fs dir name = none →
    (fs.inodeTab dir).size % blockSize = 0 ∧ ∀ s, (fs.inodeCache s).key ≠ dir

instance (fs : Fs) (dir : Nat) (name : CString) : Decidable (AddsUncached fs dir name) :=
  inferInstanceAs (Decidable (_ → _ → _ ∧ _))

theorem eq_shows : ShowsDirs Eq := ⟨fun _ => rfl, fun _ _ h => .inr h⟩

/-- In a run that adds entries only to directories of full pages whose inodes are not cached, the
listing is the device's, as long as asked for, and the attributes give its length. -/
theorem fsReaddir_eq_dirEntries (data : 10 ≤ num) (unwrapped : num * blockSize < 2 ^ 32)
    (started : fsBoot num clock = some boot)
    (run : Run (Guarded (fun s e => Admits AddsUncached s e.1) FsNext) boot trace s)
    (isDir : IsDir s dir) :
    (∀ max : Nat, (fsReaddir s dir max).1 = some (((dirEntries s dir).take max).map (listed s))) ∧
    (∀ entry, entry ∈ dirEntries s dir →
      (listed s entry).type = .dir ∨ (listed s entry).type = .file) ∧
    (fsGetAttrs s dir).map Prod.fst = some (some
      ⟨dir, .dir, (s.inodeTab dir).size, (dirEntries s dir).length⟩) := by
  have formatted := fsBoot_formatted data unwrapped started
  obtain ⟨own, top, inv, fresh⟩ := run.invariant
    (I := fun s => ∃ own top, Inv own top s ∧ DirsFresh Eq s)
    ⟨_, 2, formatted.inv data, formatted.dirsFresh data⟩
    (by
      rintro s ⟨op, res⟩ s' ⟨own, top, inv, fresh⟩ ⟨⟨fits, room, create⟩, next⟩
      refine fresh.step eq_shows inv fits room (fun _ _ _ _ call _ can absent => ?_) next
      obtain ⟨aligned, uncached⟩ := create.of_call call can absent
      exact ⟨aligned, fun t key => absurd key (uncached t)⟩)
  have seen := fresh.seen eq_shows isDir
  have lt := (inv.isDir_iff.mp isDir).1
  have length : (dirEntries s dir).length = numEntries s dir := by simp [dirEntries]
  refine ⟨fun max => ?_, fun entry member => ?_, ?_⟩
  · obtain ⟨s', result, -⟩ := fresh.readdir eq_shows inv isDir max
    have cut : (dirEntries s dir).take max =
        (dirEntries s dir).take (min ((s.inodeTab dir).size / dentrySize) max) := by
      rw [List.take_eq_take_min, length, numEntries, Nat.min_comm]
    rw [result, seen, cut]
  · obtain ⟨low, lt⟩ := inv.entry_range isDir member
    exact inv.inodes.kind _ (by omega) lt
  · rcases inv.fsGetAttrs_cases dir with ⟨out, -⟩ | ⟨p, s₁, -, reported⟩
    · omega
    · rw [reported, seen, attrsOf, isDir.2, length, numEntries]
      rfl

/-- A directory in the root and a file in it, both listed. -/
theorem fsReaddir_eq_dirEntries_two_dirs :
    ∃ trace s, fsAfter 16 (fun _ => 1) [.mkdir 1 [100], .create 2 [102]] = some (trace, s) ∧
      (fsReaddir s 1 5).1 = some [⟨[100], .dir⟩] ∧ (fsReaddir s 2 5).1 = some [⟨[102], .file⟩] := by
  have boots : ((fsBoot 16 fun _ => 1).bind fun boot =>
      (execute fsStep boot [.mkdir 1 [100], .create 2 [102]]).map fun r =>
        (decide (Meets fsStep (Admits AddsUncached) boot [.mkdir 1 [100], .create 2 [102]]),
          decide (IsDir r.2 1 ∧ IsDir r.2 2), ((dirEntries r.2 1).take 5).map (listed r.2),
            ((dirEntries r.2 2).take 5).map (listed r.2))) =
      some (true, true, [⟨[100], .dir⟩], [⟨[102], .file⟩]) := by
    decide +kernel
  obtain ⟨boot, started, facts⟩ := Option.bind_eq_some_iff.mp boots
  obtain ⟨⟨trace, s⟩, calls, facts⟩ := Option.map_eq_some_iff.mp facts
  simp only [Prod.mk.injEq] at facts
  obtain ⟨met, dirs, root, sub⟩ := facts
  have dirs := of_decide_eq_true dirs
  have run := run_of_execute calls (of_decide_eq_true met)
  have listing₁ := (fsReaddir_eq_dirEntries (by decide) (by decide) started run dirs.1).1 5
  have listing₂ := (fsReaddir_eq_dirEntries (by decide) (by decide) started run dirs.2).1 5
  refine ⟨trace, s, by rw [fsAfter, started]; exact calls, ?_, ?_⟩
  · rw [← root]
    exact listing₁
  · rw [← sub]
    exact listing₂

/-- The second file made in the root is listed without name and type. -/
theorem created_file_listed_blank :
    ¬ ∀ num clock trace s dir, 10 ≤ num → FsRun num clock trace s → IsDir s dir → ∀ max : Nat,
      (fsReaddir s dir max).1 = some (((dirEntries s dir).take max).map (listed s)) := by
  intro lists
  have facts : (fsAfter 16 (fun _ => 1) [.create 1 [97], .create 1 [98]]).map (fun r =>
      (decide (IsDir r.2 1), (fsReaddir r.2 1 5).1, ((dirEntries r.2 1).take 5).map (listed r.2))) =
        some (true, some [⟨[97], .file⟩, ⟨[], .clear⟩], [⟨[97], .file⟩, ⟨[98], .file⟩]) := by
    decide +kernel
  obtain ⟨⟨trace, s⟩, calls, facts⟩ := Option.map_eq_some_iff.mp facts
  simp only [Prod.mk.injEq] at facts
  have listing := lists 16 _ _ s 1 (by decide) (FsRun.of_calls calls (by simp [FsOp.Fits]))
    (of_decide_eq_true facts.1) 5
  rw [facts.2.2] at listing
  have same := facts.2.1.symm.trans listing
  exact absurd same (by decide)

end Snfs
