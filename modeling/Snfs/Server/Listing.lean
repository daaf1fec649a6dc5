import Snfs.Fs.Bounds
import Snfs.Server.Handlers

/-!
The arrays that a listing fills: `entries` of `snfs_readdir`, to which
`fs_readdir` writes without asking for its length, and the list of the response.
Both have `MAX_READDIR_ENTRIES` elements. The checked handler gives no value
where the code would write behind the end of an array, read an element that was
not written, or index `blocks` with 10 or more.
-/

namespace Snfs

open Runs

universe u

variable {α : Type u}

/-- An array of `MAX_READDIR_ENTRIES` elements; `none` is an element not written yet. -/
abbrev Cells (α : Type u) : Type u := Nat → Option α

/-- `array[i] = x` inside the array. -/
def Cells.put? (cells : Cells α) (i : Nat) (x : α) : Option (Cells α) :=
  if i < maxReaddirEntries then some (Function.update cells i (some x)) else none

def Cells.ofList (xs : List α) : Cells α := fun i => xs[i]?

theorem Cells.put?_ofList {xs : List α} (room : xs.length < 64) (x : α) :
    (Cells.ofList xs).put? xs.length x = some (Cells.ofList (xs ++ [x])) := by
  rw [Cells.put?, if_pos (show xs.length < maxReaddirEntries from room), Option.some.injEq]
  funext i
  by_cases here : i = xs.length
  · rw [here, Function.update_self, Cells.ofList, List.getElem?_concat_length]
  · rw [Function.update_of_ne here, Cells.ofList, Cells.ofList]
    by_cases below : i < xs.length
    · rw [List.getElem?_append_left below]
    · rw [List.getElem?_eq_none (by omega), List.getElem?_eq_none (by simp; omega)]

def listEntriesChecked (page : Block) :
    (n i ientry : Nat) → Cells FileName → Fs → Option ((Nat × Cells FileName) × Fs)
  | 0, _, ientry, entries, fs => some ((ientry, entries), fs)
  | n + 1, i, ientry, entries, fs =>
    let (type, fs) := entryType fs (entryInodeid page i)
    (entries.put? ientry ⟨entryName page i, type⟩).bind fun entries =>
      listEntriesChecked page n (i + 1) (ientry + 1) entries fs

def listPagesChecked (dir : Nat) (idir : InodePtr) : (fuel iblock num ientry : Nat) →
    Cells FileName → Fs → Option (Option (Nat × Cells FileName) × Fs)
  | 0, _, _, ientry, entries, fs => some (some (ientry, entries), fs)
  | fuel + 1, iblock, num, ientry, entries, fs =>
    if num = 0 then some (some (ientry, entries), fs)
    else
      ((fs.deref idir).block? iblock).bind fun blockNum =>
        match loadDirPage fs dir blockNum with
        | none => some (none, fs)
        | some (page, fs) =>
          (listEntriesChecked page (min dirPageEntries num) 0 ientry entries fs).bind fun r =>
            listPagesChecked dir idir fuel (iblock + 1) (num - dirPageEntries) r.1.1 r.1.2 r.2

/-- `fs_readdir` with `*numentries` and the array that it leaves. -/
def fsReaddirChecked (fs : Fs) (dir : Nat) (maxentries : Int) :
    Option (Option (Nat × Cells FileName) × Fs) :=
  if itabSize ≤ dir ∨ maxentries < 0 then some (none, fs)
  else
    match openInode fs dir with
    | none => some (none, fs)
    | some (idir, fs) =>
      if (fs.deref idir).type ≠ .dir then some (none, fs)
      else
        let num := min ((fs.deref idir).size / dentrySize) maxentries.toNat
        listPagesChecked dir idir num 0 num 0 (Cells.ofList []) fs

/-- The list of the response, from index `i` on. The inner `none` is the call of `exit`. -/
def fillList (entries : Cells FileName) :
    (n i : Nat) → Cells SnfsDirEntry → Option (Option (Cells SnfsDirEntry))
  | 0, _, list => some (some list)
  | n + 1, i, list =>
    (entries i).bind fun entry =>
      match snfsDirEntry entry with
      | none => some none
      | some filled => (list.put? i filled).bind fun list => fillList entries n (i + 1) list

/-- `snfs_readdir`: the count sent back and the list, `none` for `RES_ERROR`. Around these, `none`
is the call of `exit`, and around that a failed check. -/
def snfsReaddirChecked (fs : Fs) (dir maxentries : Nat) :
    Option (Option (Option (Nat × Cells SnfsDirEntry) × Fs)) :=
  (fsReaddirChecked fs dir (asInt maxentries)).bind fun
    | (none, fs) => some (some (none, fs))
    | (some (numentries, entries), fs) =>
      (fillList entries numentries 0 (Cells.ofList [])).map fun filled =>
        filled.map fun list => (some (numentries, list), fs)

private theorem length_listEntries (page : Block) (n i : Nat) (fs : Fs) :
    (listEntries page n i fs).1.length = n := by
  induction n generalizing i fs with
  | zero => rfl
  | succ n ih =>
      rw [listEntries, List.length_cons, ih]

private theorem listEntriesChecked_eq (page : Block) {n i : Nat} {names : List FileName}
    (room : names.length + n ≤ 64) (fs : Fs) :
    listEntriesChecked page n i names.length (.ofList names) fs =
      some ((names.length + n, .ofList (names ++ (listEntries page n i fs).1)),
        (listEntries page n i fs).2) := by
  induction n generalizing i names fs with
  | zero =>
      rw [listEntriesChecked, listEntries, List.append_nil]
      rfl
  | succ n ih =>
      rw [listEntriesChecked, listEntries]
      dsimp only
      rw [Cells.put?_ofList (by omega), Option.bind_some]
      have rest := @ih (i + 1) (names ++ [⟨entryName page i,
        (entryType fs (entryInodeid page i)).1⟩]) (by simp; omega)
        (entryType fs (entryInodeid page i)).2
      rw [List.length_append, List.length_singleton] at rest
      rw [rest, List.append_assoc, List.singleton_append, Nat.add_assoc, Nat.add_comm 1 n]

private theorem listPagesChecked_eq (dir : Nat) (idir : InodePtr) {fuel iblock num : Nat}
    {names : List FileName} (room : names.length + num ≤ 64) (pages : 32 * iblock + num ≤ 320)
    (fs : Fs) :
    listPagesChecked dir idir fuel iblock num names.length (.ofList names) fs =
      some ((listPages dir idir fuel iblock num fs).1.map fun more =>
          ((names ++ more).length, Cells.ofList (names ++ more)),
        (listPages dir idir fuel iblock num fs).2) := by
  induction fuel generalizing iblock num names fs with
  | zero =>
      rw [listPagesChecked, listPages]
      simp
  | succ fuel ih =>
      rw [listPagesChecked, listPages]
      split
      · simp
      rename_i more
      rw [Inode.block?_of_lt (by omega), Option.bind_some]
      cases loadDirPage fs dir ((fs.deref idir).blocks iblock) with
      | none => rfl
      | some loaded =>
          obtain ⟨page, fs₁⟩ := loaded
          have count := length_listEntries page (min dirPageEntries num) 0 fs₁
          simp only [dirPageEntries] at count ⊢
          rw [listEntriesChecked_eq page (by omega), Option.bind_some]
          have rest := @ih (iblock + 1) (num - 32)
            (names ++ (listEntries page (min 32 num) 0 fs₁).1)
            (by rw [List.length_append, count]; omega) (by omega)
            (listEntries page (min 32 num) 0 fs₁).2
          rw [List.length_append, count] at rest
          rw [rest, Option.map_map]
          simp only [Function.comp_def, List.append_assoc]

private theorem fillList_eq {names : List FileName} {n : Nat} {list : List SnfsDirEntry}
    (all : list.length + n = names.length) (room : names.length ≤ 64) :
    fillList (.ofList names) n list.length (.ofList list) =
      some (((names.drop list.length).mapM snfsDirEntry).map fun more =>
        Cells.ofList (list ++ more)) := by
  induction n generalizing list with
  | zero =>
      rw [fillList, List.drop_of_length_le (by omega)]
      simp
  | succ n ih =>
      have lt : list.length < names.length := by omega
      have written : Cells.ofList names list.length = some names[list.length] :=
        List.getElem?_eq_getElem lt
      rw [fillList, written, Option.bind_some, List.drop_eq_getElem_cons lt, List.mapM_cons]
      cases snfsDirEntry names[list.length] with
      | none => rfl
      | some filled =>
          dsimp only [Option.bind_eq_bind, Option.bind_some]
          rw [Cells.put?_ofList (by omega), Option.bind_some]
          have rest := @ih (list ++ [filled]) (by simp; omega)
          rw [List.length_append, List.length_singleton] at rest
          rw [rest]
          cases (names.drop (list.length + 1)).mapM snfsDirEntry with
          | none => rfl
          | some more => simp

variable {own : Ledger} {top : Nat} {fs : Fs}

/-- A copy of a directory's inode counts at most one entry for each inode but two. -/
theorem Inv.seen_entries_le (h : Inv own top fs) (copies : DirCopies Older fs) {d : Nat}
    (isDir : IsDir fs d) : (fs.seen d).size / dentrySize ≤ 62 := by
  have lt := (h.isDir_iff.mp isDir).1
  have all := h.tree.numEntries_le lt isDir.2
  have older := Nat.div_le_div_right (c := dentrySize) (copies.seen Older.refl isDir).size_le
  have small : top ≤ 64 := h.inodes.le_size
  rw [numEntries] at all
  omega

theorem Inv.fsReaddirChecked (h : Inv own top fs) (copies : DirCopies Older fs) (dir : Nat)
    (maxentries : Int) : fsReaddirChecked fs dir maxentries =
      some ((Snfs.fsReaddir fs dir maxentries).1.map fun names =>
        (names.length, Cells.ofList names), (Snfs.fsReaddir fs dir maxentries).2) := by
  rw [Snfs.fsReaddirChecked, Snfs.fsReaddir]
  split
  · rfl
  cases opened : Snfs.openInode fs dir with
  | none => rfl
  | some pair =>
      obtain ⟨p, fs₁⟩ := pair
      dsimp only
      split
      · rfl
      rename_i type
      obtain ⟨lt, -, -, -, copy, -⟩ := h.openInode opened
      have isDir : IsDir fs dir :=
        h.isDir_iff.mpr ⟨lt, by rw [← h.type_seen, ← copy]; exact not_not.mp type⟩
      have few := h.seen_entries_le copies isDir
      rw [← copy] at few
      have room : ([] : List FileName).length +
          min ((fs₁.deref p).size / dentrySize) maxentries.toNat ≤ 64 := by
        rw [List.length_nil]
        omega
      exact listPagesChecked_eq dir p room (by omega) fs₁

theorem length_of_mapM {β : Type} {f : α → Option β} {xs : List α} {ys : List β}
    (mapped : xs.mapM f = some ys) : ys.length = xs.length := by
  induction xs generalizing ys with
  | nil =>
      cases mapped
      rfl
  | cons x xs ih =>
      rw [List.mapM_cons] at mapped
      obtain ⟨y, -, mapped⟩ := Option.bind_eq_some_iff.mp mapped
      obtain ⟨ys', rest, same⟩ := Option.bind_eq_some_iff.mp mapped
      cases same
      rw [List.length_cons, List.length_cons, ih rest]

theorem Cells.isSome_ofList (xs : List α) (i : Nat) :
    (Cells.ofList xs i).isSome = true ↔ i < xs.length := by
  simp [Cells.ofList]

theorem Cells.filterMap_ofList (xs : List α) :
    (List.range xs.length).filterMap (Cells.ofList xs) = xs := by
  induction xs with
  | nil => rfl
  | cons x xs ih =>
      rw [List.length_cons, List.range_succ_eq_map, List.filterMap_cons]
      simp only [Cells.ofList, List.getElem?_cons_zero, List.filterMap_map, Function.comp_def,
        List.getElem?_cons_succ]
      exact congrArg (x :: ·) ih

/-- The outcome of the handler that the checks let through: a count and a list with as many
elements filled in, from the first one on. -/
def Counted (listing : Option (Option (Nat × Cells SnfsDirEntry) × Fs)) : Prop :=
  ∀ count list fs', listing = some (some (count, list), fs') →
    count ≤ maxReaddirEntries ∧ ∀ i, (list i).isSome = true ↔ i < count

def listingReply (listing : Option (Option (Nat × Cells SnfsDirEntry) × Fs)) :
    Option (Option Reply × Fs) :=
  listing.map fun r => (r.1.map fun body => .readdir ((List.range body.1).filterMap body.2), r.2)

theorem Inv.snfsReaddirChecked (h : Inv own top fs) (ok : CachesOk fs) (dir maxentries : Nat) :
    ∃ listing, snfsReaddirChecked fs dir maxentries = some listing ∧ Counted listing ∧
      snfsReaddir fs dir maxentries = listingReply listing := by
  have checked := h.fsReaddirChecked ok.copies dir (asInt maxentries)
  have listing := h.fsReaddir_eq ok.pages ok.copies dir (asInt maxentries)
  rw [Snfs.snfsReaddirChecked, checked, snfsReaddir, Option.bind_some]
  cases result : Snfs.fsReaddir fs dir (asInt maxentries) with
  | mk names fs₁ =>
      rw [result] at listing
      cases names with
      | none => exact ⟨_, rfl, by simp [Counted], rfl⟩
      | some names =>
          have few : names.length ≤ 64 := by
            dsimp only at listing
            split at listing
            · rename_i asked
              cases listing
              have bound := h.seen_entries_le ok.copies asked.1
              rw [List.length_map, List.length_range, listLength]
              omega
            · cases listing
          have all : ([] : List SnfsDirEntry).length + names.length = names.length :=
            Nat.zero_add _
          have filled := fillList_eq all few
          rw [List.length_nil, List.drop_zero] at filled
          dsimp only [Option.map_some]
          rw [filled]
          refine ⟨_, rfl, ?_, ?_⟩
          · intro count list fs' same
            cases mapped : names.mapM snfsDirEntry with
            | none =>
                rw [mapped] at same
                cases same
            | some entries =>
                rw [mapped] at same
                cases same
                refine ⟨few, fun i => ?_⟩
                dsimp only
                rw [List.nil_append, Cells.isSome_ofList, length_of_mapM mapped]
          · cases mapped : names.mapM snfsDirEntry with
            | none => rfl
            | some entries =>
                simp only [Option.map_some, listingReply, List.nil_append, Option.some.injEq,
                  Prod.mk.injEq, and_true, Reply.readdir.injEq]
                rw [← length_of_mapM mapped, Cells.filterMap_ofList]

/-- Every sequence of requests leaves the file system sound. -/
theorem requests_sound {num : Nat} {clock : Nat → Int} {boot : Fs}
    {trace : List ((Req × Junk) × (Res × Nat))} (data : 10 ≤ num) (small : num ≤ 4096)
    (started : fsBoot num clock = some boot)
    (run : Run (Next serveRequest) boot trace fs) :
    Sound fs := by
  have formatted := fsBoot_formatted data (by omega) started
  refine (run.invariant (I := fun s => Sound s ∧ s.numBlocks = num)
    ⟨⟨_, 2, formatted.inv data, formatted.cachesOk data⟩, formatted.numBlocks⟩ ?_).1
  rintro s ⟨e, answer⟩ s' ⟨⟨own', top', inv, ok⟩, size⟩ next
  have served : serveRequest s e = some (answer, s') := next
  rw [serveRequest] at served
  split at served
  · rename_i call handled
    obtain ⟨⟨reply, s₁⟩, result, same⟩ := Option.map_eq_some_iff.mp served
    cases same
    have kept := handle_sound inv ok (handledCall_taken handled) (room_of_le (size ▸ small) _) result
    exact ⟨kept.1, kept.2.trans size⟩
  · cases served
    exact ⟨⟨own', top', inv, ok⟩, size⟩

/-- Whatever directory and count a request names, the listing stays inside its arrays, and the
count sent back is the number of elements filled in. -/
theorem listing_stays_in_arrays {num : Nat} {clock : Nat → Int} {boot : Fs}
    {trace : List ((Req × Junk) × (Res × Nat))} (data : 10 ≤ num) (small : num ≤ 4096)
    (started : fsBoot num clock = some boot)
    (run : Run (Next serveRequest) boot trace fs)
    (dir cmax : Nat) :
    ∃ listing, snfsReaddirChecked fs dir cmax = some listing ∧ Counted listing ∧
      snfsReaddir fs dir cmax = listingReply listing := by
  obtain ⟨own, top, inv, ok⟩ := requests_sound data small started run
  exact inv.snfsReaddirChecked ok dir cmax

/-- A root with one file, listed with a count that is far above the arrays' length. -/
theorem listing_stays_in_arrays_root :
    ∃ trace fs, (fsBoot 16 fun _ => 1).bind (fun boot =>
        execute serveRequest boot [requested (.create 1 [97])]) = some (trace, fs) ∧
      ∃ listing, snfsReaddirChecked fs 1 (2 ^ 31 - 1) = some listing ∧ Counted listing ∧
        snfsReaddir fs 1 (2 ^ 31 - 1) = listingReply listing := by
  have boots : ((fsBoot 16 fun _ => 1).bind fun boot =>
      execute serveRequest boot [requested (.create 1 [97])]).isSome = true := by
    decide +kernel
  obtain ⟨⟨trace, fs⟩, served⟩ := Option.isSome_iff_exists.mp boots
  obtain ⟨boot, started, calls⟩ := Option.bind_eq_some_iff.mp served
  exact ⟨trace, fs, served, listing_stays_in_arrays (by decide) (by decide) started
    (run_of_executed calls) 1 _⟩

end Snfs
