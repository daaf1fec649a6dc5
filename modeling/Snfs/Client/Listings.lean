import Snfs.Client.Resolving
import Snfs.Client.Writing
import Snfs.Server.Listing

/-!
`my_listdir` of `snfs_lib/myfs.c`: the memory that it allocates for its caller and what the
caller reads there. Over the socket the names are those of entries of the directory that
the path leads to, or empty where the server lists from a page that it has not seen since.
-/

namespace Snfs

open Runs

section Call
variable {σ : Type}

def RemoteCall.readdir (remote : RemoteCall σ) (s : σ) (dir : Int) (cmax : Nat) :
    Option (List SnfsDirEntry) × σ :=
  match remote s (.readdir dir cmax) with
  | (.ok (.readdir list), s) => (some list, s)
  | (_, s) => (none, s)

/-- The copying loop: `fnames` is at `pos` of the allocated block. `none` is a `strcpy` that writes
behind the end of the block. -/
def copyNames : List SnfsDirEntry → (pos : Nat) → (block : List UInt8) → Option (List UInt8)
  | [], _, block => some block
  | entry :: rest, pos, block =>
    if pos + (entry.name.length + 1) ≤ block.length then
      copyNames rest (pos + (entry.name.length + 1)) (overwrite block pos (entry.name ++ [0]))
    else none

structure DirListing where
  filenames : List UInt8
  numFiles : Nat

/-- The listing of a directory, where `malloc` says what an allocated block of some size holds. The
inner `none` is the return value -1, the outer one a write behind the block. -/
def listDir (remote : RemoteCall σ) (malloc : Nat → List UInt8) (s : σ) (dir : Int) :
    Option (Option DirListing × σ) :=
  match remote.readdir s dir maxReaddirEntries with
  | (none, s) => some (none, s)
  | (some list, s) =>
    (copyNames list 0 (malloc ((maxFileNameSize + 1) * list.length))).map fun filenames =>
      (some ⟨filenames, list.length⟩, s)

def myListdir (remote : RemoteCall σ) (malloc : Nat → List UInt8) (lib : Lib) (s : σ)
    (path : CString) : Option (Option DirListing × σ) :=
  if !lib.libInitted then some (none, s)
  else if myparse path ≠ 0 then some (none, s)
  else if path = [slash] then listDir remote malloc s 1
  else
    match remote.lookup s path with
    | (.ok (dir, _), s) => listDir remote malloc s dir
    | (.error _, s) => some (none, s)

end Call

def namesIn : (n : Nat) → (bytes : List UInt8) → List CString
  | 0, _ => []
  | n + 1, bytes =>
    bytes.takeWhile (· ≠ 0) :: namesIn n ((bytes.dropWhile (· ≠ 0)).drop 1)

def namesStored (list : List SnfsDirEntry) : List UInt8 :=
  list.flatMap fun entry => entry.name ++ [0]

private theorem takeWhile_name {name : CString} (noZero : (0 : UInt8) ∉ name) (rest : List UInt8) :
    (name ++ 0 :: rest).takeWhile (· ≠ 0) = name ∧
      (name ++ 0 :: rest).dropWhile (· ≠ 0) = 0 :: rest := by
  induction name with
  | nil => simp
  | cons c name ih =>
      have here : c ≠ 0 := fun zero => noZero (zero ▸ List.mem_cons_self)
      obtain ⟨taken, dropped⟩ := ih fun member => noZero (List.mem_cons_of_mem c member)
      simp only [List.cons_append, List.takeWhile_cons, List.dropWhile_cons, ne_eq, here,
        not_false_eq_true, decide_true, if_true, dropped, and_true]
      exact congrArg (c :: ·) taken

private theorem namesIn_stored {list : List SnfsDirEntry}
    (noZero : ∀ entry ∈ list, (0 : UInt8) ∉ entry.name) (rest : List UInt8) :
    namesIn list.length (namesStored list ++ rest) = list.map SnfsDirEntry.name := by
  induction list with
  | nil => rfl
  | cons entry list ih =>
      have bytes : namesStored (entry :: list) ++ rest =
          entry.name ++ 0 :: (namesStored list ++ rest) := by
        simp [namesStored]
      obtain ⟨taken, dropped⟩ := takeWhile_name (noZero entry List.mem_cons_self)
        (namesStored list ++ rest)
      rw [List.length_cons, namesIn, bytes, taken, dropped, List.drop_one, List.tail_cons,
        ih fun other member => noZero other (List.mem_cons_of_mem entry member), List.map_cons]

private theorem copyNames_eq {list : List SnfsDirEntry} {pos : Nat} {block : List UInt8}
    (room : pos + (namesStored list).length ≤ block.length) :
    copyNames list pos block = some (overwrite block pos (namesStored list)) := by
  induction list generalizing pos block with
  | nil => rw [copyNames, namesStored, List.flatMap_nil, overwrite_nil]
  | cons entry list ih =>
      have stored : namesStored (entry :: list) = (entry.name ++ [0]) ++ namesStored list := rfl
      have first : (entry.name ++ [0]).length = entry.name.length + 1 := List.length_append
      rw [stored, List.length_append, first] at room
      have length : (overwrite block pos (entry.name ++ [0])).length = block.length := by
        rw [length_overwrite (by omega), first]
        exact Nat.max_eq_left (by omega)
      rw [copyNames, if_pos (by omega), ih (by omega), stored, ← first, overwrite_append (by omega)]

private theorem length_namesStored_le {list : List SnfsDirEntry}
    (short : ∀ entry ∈ list, entry.name.length ≤ maxFileNameSize) :
    (namesStored list).length ≤ (maxFileNameSize + 1) * list.length := by
  induction list with
  | nil => exact Nat.zero_le _
  | cons entry list ih =>
      have here := short entry List.mem_cons_self
      have rest := ih fun other member => short other (List.mem_cons_of_mem entry member)
      have bound : maxFileNameSize = 14 := rfl
      rw [namesStored] at rest
      rw [namesStored, List.flatMap_cons, List.length_append, List.length_append,
        List.length_singleton, List.length_cons, Nat.mul_succ]
      omega

/-- Names that fit their field fit the block, and the caller reads them in order. -/
theorem copyNames_names {list : List SnfsDirEntry} {malloc : Nat → List UInt8}
    (mallocs : ∀ n, (malloc n).length = n)
    (fit : ∀ entry ∈ list, (0 : UInt8) ∉ entry.name ∧ entry.name.length ≤ maxFileNameSize) :
    ∃ filenames, copyNames list 0 (malloc ((maxFileNameSize + 1) * list.length)) = some filenames ∧
      namesIn list.length filenames = list.map SnfsDirEntry.name := by
  have room := length_namesStored_le fun entry member => (fit entry member).2
  refine ⟨_, copyNames_eq (by rw [mallocs, Nat.zero_add]; exact room), ?_⟩
  rw [overwrite, List.take_zero, List.nil_append]
  exact namesIn_stored (fun entry member => (fit entry member).1) _

section Served
variable {num : Nat} {clock : Nat → Int} {fs₀ fs fs' : Fs} {s : Session}

private theorem mem_of_mapM {α β : Type} {f : α → Option β} {xs : List α} {ys : List β}
    (mapped : xs.mapM f = some ys) {y : β} (member : y ∈ ys) : ∃ x ∈ xs, f x = some y := by
  induction xs generalizing ys with
  | nil =>
      cases mapped
      cases member
  | cons x xs ih =>
      rw [List.mapM_cons] at mapped
      obtain ⟨y', first, mapped⟩ := Option.bind_eq_some_iff.mp mapped
      obtain ⟨ys', rest, same⟩ := Option.bind_eq_some_iff.mp mapped
      cases same
      rcases List.mem_cons.mp member with rfl | later
      · exact ⟨x, List.mem_cons_self, first⟩
      · obtain ⟨z, inside, made⟩ := ih rest later
        exact ⟨z, List.mem_cons_of_mem x inside, made⟩

private theorem snfsDirEntry_name {name : FileName} {entry : SnfsDirEntry}
    (made : snfsDirEntry name = some entry) :
    entry.name = name.name ∧ entry.len = name.name.length ∧ entry.type ≤ 2 := by
  rw [snfsDirEntry] at made
  split at made <;> cases made
  · exact ⟨rfl, rfl, Nat.le_succ 1⟩
  · exact ⟨rfl, rfl, Nat.le_refl 2⟩

structure NamedIn (fs : Fs) (d : Nat) (list : List SnfsDirEntry) : Prop where
  isDir : IsDir fs d
  length_le : list.length ≤ (dirEntries fs d).length
  limits : ∀ entry ∈ list, entry.Limits
  home : ∀ entry ∈ list, entry.name = [] ∨ ∃ a, HasEntry fs d (entry.name, a)

theorem NamedIn.grows {d : Nat} {list : List SnfsDirEntry} (names : NamedIn fs d list)
    (grows : Grows fs fs') : NamedIn fs' d list := by
  obtain ⟨more, entries, -⟩ := grows.entries d names.isDir
  refine ⟨grows.isDir names.isDir, ?_, names.limits, fun entry member => ?_⟩
  · rw [entries, List.length_append]
    exact Nat.le_add_right_of_le names.length_le
  · exact (names.home entry member).imp_right fun ⟨a, has⟩ => ⟨a, grows.hasEntry has⟩

theorem Inv.snfsReaddir_names {own : Ledger} {top : Nat} (h : Inv own top fs) (sighted : Sighted fs)
    (caches : CachesOk fs) (fit : NamesFit fs) {d cmax : Nat} {reply : Reply}
    (done : snfsReaddir fs d cmax = some (some reply, fs')) :
    ∃ list, reply = .readdir list ∧ NamedIn fs d list := by
  rw [snfsReaddir] at done
  have sound names (shown : (Snfs.fsReaddir fs d (asInt cmax)).1 = some names) :=
    sighted.readdir_sound h caches shown
  cases listed : Snfs.fsReaddir fs d (asInt cmax) with
  | mk names fs₁ =>
      rw [listed] at done sound
      cases names with
      | none => cases done
      | some names =>
          obtain ⟨list, mapped, same⟩ := Option.map_eq_some_iff.mp done
          cases same
          obtain ⟨isDir, few, home⟩ := sound names rfl
          refine ⟨list, rfl, isDir, (length_of_mapM mapped).trans_le few, fun entry member => ?_,
            fun entry member => ?_⟩
          all_goals
            obtain ⟨name, inside, made⟩ := mem_of_mapM mapped member
            obtain ⟨same, length, type⟩ := snfsDirEntry_name made
          · have bound : fsMaxFnameSz = maxFileNameSize := rfl
            have isName : IsName name.name := by
              rcases home name inside with empty | ⟨e, has, rfl⟩
              · rw [empty]
                exact ⟨List.not_mem_nil, by decide⟩
              · exact ⟨(fit d isDir e has).2.2, bound ▸ (fit d isDir e has).2.1⟩
            have short := isName.2
            have small : maxFileNameSize = 14 := rfl
            exact ⟨same ▸ isName, by omega, by omega⟩
          · rw [same]
            rcases home name inside with empty | ⟨e, has, rfl⟩
            · exact .inl empty
            · exact .inr ⟨e.2, isDir, has⟩

theorem Session.Serves.readdir (data : 10 ≤ num) (unwrapped : num * blockSize < 2 ^ 32)
    (serves : s.Serves num clock fs₀) {d : Nat} (small : d < 64) :
    ∃ s', s'.Serves num clock fs₀ ∧ (remoteCall.readdir s d maxReaddirEntries = (none, s') ∨
      ∃ list fs', remoteCall.readdir s d maxReaddirEntries = (some list, s') ∧
        s'.server = some fs' ∧ NamedIn fs' d list) := by
  have named {fs reply fs'} (reached : Reached num clock fs)
      (done : snfsReaddir fs d maxReaddirEntries = some (some reply, fs')) :
      ∃ list, reply = .readdir list ∧ NamedIn fs d list := by
    obtain ⟨_, _, inv, sighted, caches, fit⟩ := reached.facts data unwrapped
    exact inv.snfsReaddir_names sighted caches fit done
  obtain ⟨s', serves', ⟨failed, -⟩ | ⟨fs, reply, fs', returned, alive, -, reached, grows, done⟩⟩ :=
    serves.answered data unwrapped (show Call.Limits (.readdir d maxReaddirEntries) from
      ⟨⟨by omega, by omega⟩, by decide⟩) (show IsInodeid d from ⟨by omega, by omega⟩)
      (fun fs _ _ => ⟨trivial, .inr (Nat.zero_le _)⟩) fun fs _ reply fs' reached done => by
        rw [Call.handle, Int.toNat_natCast] at done
        obtain ⟨list, rfl, names⟩ := named reached done
        obtain ⟨_, _, inv, -⟩ := reached.facts data unwrapped
        have all := inv.tree.numEntries_le (inv.isDir_iff.mp names.isDir).1 names.isDir.2
        have few := names.length_le
        have most := inv.inodes.le_size
        have bound : maxReaddirEntries = itabSize := rfl
        rw [dirEntries, List.length_map, List.length_range] at few
        exact ⟨by omega, names.limits⟩
  · exact ⟨s', serves', .inl (by rw [RemoteCall.readdir, failed])⟩
  · rw [Call.handle, Int.toNat_natCast] at done
    obtain ⟨list, rfl, names⟩ := named reached done
    exact ⟨s', serves', .inr ⟨list, fs', by rw [RemoteCall.readdir, returned], alive,
      names.grows grows⟩⟩

end Served

/-- What `my_listdir` gives its caller is in the directory that the path leads to. -/
structure DirListing.Names (l : DirListing) (path : CString) (fs : Fs) (d : Nat) : Prop where
  passes : Passes (HasEntry fs) 1 (components path) d
  isDir : IsDir fs d
  numFiles_le : l.numFiles ≤ (dirEntries fs d).length
  home : ∀ name ∈ namesIn l.numFiles l.filenames, name = [] ∨ ∃ a, HasEntry fs d (name, a)

section Runs
variable {num : Nat} {clock : Nat → Int} {boot fs₀ fs : Fs}
  {trace : List ((Req × Junk) × (Res × Nat))} {s : Session}

/-- The rest of `my_listdir`, of a directory that a path leads to. -/
theorem Session.Serves.listed (data : 10 ≤ num) (unwrapped : num * blockSize < 2 ^ 32)
    (serves : s.Serves num clock fs) {d : Nat} (small : d < 64) {path : CString}
    (passes : Passes (HasEntry fs) 1 (components path) d) {malloc : Nat → List UInt8}
    (mallocs : ∀ n, (malloc n).length = n) :
    ∃ listing s', listDir remoteCall malloc s d = some (listing, s') ∧
      ∀ l ∈ listing, ∃ fs', s'.server = some fs' ∧ Grows fs fs' ∧ l.Names path fs' d := by
  rw [listDir]
  obtain ⟨s', serves', failed | ⟨list, fs', sent, alive, names⟩⟩ :=
    serves.readdir data unwrapped small
  · rw [failed]
    exact ⟨none, s', rfl, fun l inside => by cases inside⟩
  rw [sent]
  obtain ⟨filenames, copied, read⟩ := copyNames_names mallocs fun entry member =>
    ⟨(names.limits entry member).1.1, Nat.le_of_lt (names.limits entry member).1.2⟩
  have grows := (serves' fs' alive).2
  dsimp only
  rw [copied]
  refine ⟨some ⟨filenames, list.length⟩, s', rfl, ?_⟩
  rintro l ⟨⟩
  refine ⟨fs', alive, grows, grows.passes passes, names.isDir, names.length_le,
    fun name member => ?_⟩
  rw [read] at member
  obtain ⟨entry, inside, rfl⟩ := List.mem_map.mp member
  exact names.home entry inside

/-- Whatever clients have done to the server: `my_listdir` writes nothing behind the block that it
allocates, and where it returns 0 each name in the block is that of an entry of the directory that
the path leads to, or empty. -/
theorem my_listdir_names_entries (data : 10 ≤ num) (unwrapped : num * blockSize < 2 ^ 32)
    (started : fsBoot num clock = some boot)
    (run : Run (Guarded (fun s e => RequestMeets Within s e.1) (Next serveRequest)) boot trace fs)
    (alive : s.server = some fs) {path : CString} (noZero : (0 : UInt8) ∉ path)
    (short : path.length ≤ maxFileNameSize) {malloc : Nat → List UInt8}
    (mallocs : ∀ n, (malloc n).length = n) (lib : Lib) :
    ∃ listing s', myListdir remoteCall malloc lib s path = some (listing, s') ∧
      ∀ l ∈ listing, ∃ fs' d, s'.server = some fs' ∧ Grows fs fs' ∧ l.Names path fs' d := by
  have serves := s.serves_of_run started run alive
  rw [myListdir]
  split
  · exact ⟨none, s, rfl, fun l inside => by cases inside⟩
  split
  · exact ⟨none, s, rfl, fun l inside => by cases inside⟩
  rename_i accepted
  have rules := rules_of_accepted (not_not.mp accepted)
  by_cases root : path = [slash]
  · rw [if_pos root]
    have here : Passes (HasEntry fs) 1 (components path) 1 := by
      rw [root]
      exact .here 1
    obtain ⟨listing, s', ends, told⟩ := serves.listed data unwrapped (by decide) here mallocs
    refine ⟨listing, s', ends, fun l inside => ?_⟩
    obtain ⟨fs', alive', names⟩ := told l inside
    exact ⟨fs', 1, alive', names⟩
  · rw [if_neg root]
    obtain ⟨s₁, serves₁, -, failed | ⟨d, fsize, fs₁, found, alive₁, low, passes⟩⟩ :=
      serves.lookup data unwrapped noZero short fun bare => root (rules.eq_root bare)
    · rw [failed]
      exact ⟨none, s₁, rfl, fun l inside => by cases inside⟩
    · rw [found]
      obtain ⟨from₁, grows⟩ := serves₁.now alive₁
      obtain ⟨listing, s', ends, told⟩ := from₁.listed data unwrapped low passes mallocs
      refine ⟨listing, s', ends, fun l inside => ?_⟩
      obtain ⟨fs', alive', grows', names⟩ := told l inside
      exact ⟨fs', d, alive', grows.trans grows', names⟩

end Runs

/-- A directory with a file is listed. -/
theorem my_listdir_names_entries_dir :
    ∃ fs s' fs' d, ∃ l : DirListing,
      ((fsBoot 16 fun _ => 1).bind fun boot => (execute serveRequest boot
        [requested (.mkdir 1 [100]), requested (.create 2 [102])]).map Prod.snd) = some fs ∧
      myListdir remoteCall (fun n => List.replicate n 0) myInitLib (sessionWith fs) [47, 100] =
        some (some l, s') ∧ namesIn l.numFiles l.filenames = [[102]] ∧ s'.server = some fs' ∧
      l.Names [47, 100] fs' d := by
  have boots : ((fsBoot 16 fun _ => 1).bind fun boot =>
      (execute serveRequest boot [requested (.mkdir 1 [100]), requested (.create 2 [102])]).bind
        fun r => (myListdir remoteCall (fun n => List.replicate n 0) myInitLib (sessionWith r.2)
          [47, 100]).map fun listed =>
            (decide (Meets serveRequest (RequestMeets Within) boot
              [requested (.mkdir 1 [100]), requested (.create 2 [102])]),
              listed.1.map fun l => namesIn l.numFiles l.filenames)) =
      some (true, some [[102]]) := by decide +kernel
  obtain ⟨boot, started, facts⟩ := Option.bind_eq_some_iff.mp boots
  obtain ⟨⟨trace, fs⟩, served, facts⟩ := Option.bind_eq_some_iff.mp facts
  obtain ⟨⟨listing, s'⟩, listed, facts⟩ := Option.map_eq_some_iff.mp facts
  simp only [Prod.mk.injEq, decide_eq_true_eq] at facts
  obtain ⟨met, names⟩ := facts
  obtain ⟨l, rfl, read⟩ := Option.map_eq_some_iff.mp names
  obtain ⟨listing, s₁, ends, told⟩ := my_listdir_names_entries (s := sessionWith fs)
    (by decide) (by decide) started
    (run_of_execute served met) rfl (show (0 : UInt8) ∉ [47, 100] by decide) (by decide)
    (fun n => List.length_replicate (a := (0 : UInt8))) myInitLib
  rw [listed] at ends
  cases ends
  obtain ⟨fs', d, alive, -, home⟩ := told l rfl
  exact ⟨fs, s', fs', d, l, by rw [started, Option.bind_some, served]; rfl, listed, read, alive,
    home⟩

end Snfs
