import Snfs.Fs.Volume
import Snfs.Fs.Freshness

/-!
The walk of `fs_lookup` as the source has it, token by token, over any search of
a directory, against a tree of directories that says where a path leads. The
search takes part in the state: it is any function that answers, from any state
it may be called in, as the entries of the tree say.
-/

namespace Snfs

/-- `strtok(_, "/")`: the next token of the line and what the call after it goes on with. -/
def strtok (line : CString) : Option (CString × CString) :=
  let rest := line.dropWhile (· == slash)
  if rest = [] then none
  else some (rest.takeWhile (· != slash), (rest.dropWhile (· != slash)).tail)

theorem components_cons_slash (line : CString) : components (slash :: line) = components line := by
  simp [components, List.splitOn_cons_eq_if_modifyHead]

private theorem components_dropWhile (line : CString) :
    components (line.dropWhile (· == slash)) = components line := by
  induction line with
  | nil => rfl
  | cons c line ih =>
      rw [List.dropWhile_cons]
      by_cases same : c = slash
      · subst same
        rw [if_pos (by simp), ih, components_cons_slash]
      · rw [if_neg (by simpa using same)]

private theorem components_token {line : CString} (some : line ≠ [])
    (starts : ∀ c ∈ line.head?, c ≠ slash) :
    components line =
      line.takeWhile (· != slash) :: components (line.dropWhile (· != slash)).tail := by
  have token : line.takeWhile (· != slash) ≠ [] := by
    cases line with
    | nil => exact absurd rfl some
    | cons c line => simp [starts c rfl]
  have free : slash ∉ line.takeWhile (· != slash) := fun member => by
    have kept := List.all_eq_true.mp List.all_takeWhile slash member
    simp at kept
  have whole := List.takeWhile_append_dropWhile (p := (· != slash)) (l := line)
  cases after : line.dropWhile (· != slash) with
  | nil =>
      rw [after, List.append_nil] at whole
      rw [whole] at free token ⊢
      rw [components, List.splitOn_eq_singleton free, List.filter_cons_of_pos (by simpa using token)]
      rfl
  | cons c rest =>
      have ends : c = slash := by
        have first := List.head_dropWhile_not (p := (· != slash)) (l := line) (by rw [after]; simp)
        simpa [after] using first
      subst ends
      rw [after] at whole
      have split : components line =
          line.takeWhile (· != slash) :: components rest := by
        rw [components, ← whole, List.splitOn_append_cons_self_of_not_mem free,
          List.filter_cons_of_pos (by simpa using token), whole]
        rfl
      rw [split, List.tail_cons]

/-- The components are the tokens that repeated calls give. -/
theorem components_strtok (line : CString) :
    components line = match strtok line with
      | none => []
      | some (token, rest) => token :: components rest := by
  rw [← components_dropWhile line, strtok]
  by_cases none : line.dropWhile (· == slash) = []
  · rw [if_pos none, none]
    rfl
  · rw [if_neg none]
    refine components_token none fun c first => ?_
    have head := List.head_dropWhile_not (p := (· == slash)) (l := line) none
    rw [List.head?_eq_some_head none, Option.mem_some_iff] at first
    simpa [first] using head

theorem strtok_length {line token rest : CString} (h : strtok line = some (token, rest)) :
    rest.length < line.length := by
  rw [strtok] at h
  split at h
  · cases h
  · rename_i some
    simp only [Option.some.injEq, Prod.mk.injEq] at h
    rw [← h.2]
    have first : (line.dropWhile (· == slash)).length ≤ line.length :=
      (List.dropWhile_suffix _).length_le
    have second : ((line.dropWhile (· == slash)).dropWhile (· != slash)).length ≤
        (line.dropWhile (· == slash)).length := (List.dropWhile_suffix _).length_le
    have pos : 0 < (line.dropWhile (· == slash)).length := List.length_pos_iff.mpr some
    rw [List.length_tail]
    omega

theorem strtok_parts {line token rest : CString} (h : strtok line = some (token, rest)) :
    token ≠ [] ∧ token.length + rest.length ≤ line.length ∧
      (rest ≠ [] → token.length + rest.length < line.length) := by
  have first := components_strtok line
  rw [h] at first
  have nonempty : token ≠ [] := by
    rintro rfl
    exact components_nonempty line (by rw [first]; exact List.mem_cons_self)
  rw [strtok] at h
  split at h
  · cases h
  · simp only [Option.some.injEq, Prod.mk.injEq] at h
    obtain ⟨rfl, rfl⟩ := h
    have front : (line.dropWhile (· == slash)).length ≤ line.length :=
      (List.dropWhile_suffix _).length_le
    have whole := congrArg List.length
      (List.takeWhile_append_dropWhile (p := (· != slash)) (l := line.dropWhile (· == slash)))
    rw [List.length_append] at whole
    refine ⟨nonempty, ?_, fun some => ?_⟩
    · rw [List.length_tail]
      omega
    · have pos := List.length_pos_iff.mpr some
      rw [List.length_tail] at pos ⊢
      omega

theorem components_append (before after : CString) :
    components (before ++ slash :: after) = components before ++ components after := by
  rw [components, List.splitOn_append_cons_self, List.filter_append]
  rfl

theorem components_name {name : CString} (nonempty : name ≠ []) (noSlash : slash ∉ name) :
    components name = [name] := by
  rw [components, List.splitOn_eq_singleton noSlash, List.filter_cons_of_pos (by simpa using nonempty)]
  rfl

theorem splitLast_append {parent name : CString} (noSlash : slash ∉ name) :
    splitLast (parent ++ slash :: name) = some (parent, name) := by
  have kept : ((parent ++ slash :: name).reverse.takeWhile (· != slash)).reverse = name := by
    have all : ∀ c ∈ name.reverse, (c != slash) = true := fun c member => by
      rw [bne_iff_ne]
      rintro rfl
      exact noSlash (List.mem_reverse.mp member)
    rw [List.reverse_append, List.reverse_cons, List.append_assoc,
      List.takeWhile_append_of_pos all]
    simp
  have length : (parent ++ slash :: name).length - name.length - 1 = parent.length := by
    rw [List.length_append, List.length_cons]
    omega
  rw [splitLast, if_pos (by simp)]
  simp only [kept, length, List.take_left]

/-- The two tests that `fs_lookup` makes of an inode that it walks through. -/
theorem dir_tests {α : Type} (fs : Fs) (dir : Nat) (x y : α) :
    (if !bmapIsset fs.inodeBmap dir then x
      else if (fs.inodeTab dir).type ≠ .dir then x else y) = if IsDir fs dir then y else x := by
  by_cases used : bmapIsset fs.inodeBmap dir = true
  · by_cases isDir : (fs.inodeTab dir).type = .dir <;> simp [IsDir, used, isDir]
  · simp [IsDir, used]

section Walk

variable (search : Fs → Nat → CString → Option Nat × Fs)

/-- The loop of `fs_lookup`: `i` tokens are behind it, `line` is what `strtok` goes on with, and
`fuel ≥` its length. -/
def lookupLoop : (fuel i dir : Nat) → (fileid : Option Nat) → (line : CString) → Fs →
    (Int × Option Nat) × Fs
  | 0, _, _, fileid, _, fs => ((1, fileid), fs)
  | fuel + 1, i, dir, fileid, line, fs =>
    match strtok line with
    | none => ((1, fileid), fs)
    | some (token, line) =>
      let i := i + 1
      let dir := if i = 1 then 1 else dir
      if !bmapIsset fs.inodeBmap dir then ((-1, fileid), fs)
      else if (fs.inodeTab dir).type ≠ .dir then ((-1, fileid), fs)
      else
        match search fs dir token with
        | (none, fs) => ((0, fileid), fs)
        | (some fid, fs) => lookupLoop fuel i fid (some fid) line fs

/-- `fs_lookup` with a search in place of `fsi_dir_search`. -/
def lookupBy (fs : Fs) (file : CString) : (Int × Option Nat) × Fs :=
  if file.head? ≠ some slash then ((-1, none), fs)
  else lookupLoop search file.length 0 0 none file fs

def walk : (dir : Nat) → (fileid : Option Nat) → List CString → Fs → (Int × Option Nat) × Fs
  | _, fileid, [], fs => ((1, fileid), fs)
  | dir, fileid, token :: rest, fs =>
    if IsDir fs dir then
      match search fs dir token with
      | (none, fs) => ((0, fileid), fs)
      | (some fid, fs) => walk fid (some fid) rest fs
    else ((-1, fileid), fs)

private theorem lookupLoop_eq {fuel i dir : Nat} {fileid : Option Nat} {line : CString} {fs : Fs}
    (enough : line.length ≤ fuel) :
    lookupLoop search fuel i dir fileid line fs =
      walk search (if i = 0 then 1 else dir) fileid (components line) fs := by
  induction fuel generalizing i dir fileid line fs with
  | zero =>
      have empty : line = [] := List.length_eq_zero_iff.mp (Nat.le_zero.mp enough)
      subst empty
      rfl
  | succ fuel ih =>
      rw [lookupLoop, components_strtok line]
      cases token : strtok line with
      | none => rfl
      | some next =>
          have shorter := strtok_length token
          simp only [walk, dir_tests]
          rw [show (if i + 1 = 1 then 1 else dir) = if i = 0 then 1 else dir by simp]
          congr 1
          split
          · rfl
          · rw [ih (by omega), if_neg (Nat.succ_ne_zero i)]

theorem lookupBy_eq {fs : Fs} {path : CString} (rooted : path.head? = some slash) :
    lookupBy search fs path = walk search 1 none (components path) fs := by
  rw [lookupBy, if_neg (not_not.mpr rooted), lookupLoop_eq search (Nat.le_refl _), if_pos rfl]

end Walk

private theorem walk_fsiDirSearch (dir : Nat) (fileid : Option Nat) (tokens : List CString)
    (fs : Fs) :
    walk fsiDirSearch dir fileid tokens fs = lookupFrom dir fileid tokens fs := by
  induction tokens generalizing dir fileid fs with
  | nil => rfl
  | cons token rest ih =>
      rw [walk, lookupFrom, dir_tests]
      rcases fsiDirSearch fs dir token with ⟨_ | fid, fs'⟩
      · rfl
      · simp only [ih]

/-- The walk over the search of the directory cache and the pages is `fs_lookup`. -/
theorem lookupBy_fsiDirSearch (fs : Fs) (path : CString) :
    lookupBy fsiDirSearch fs path = fsLookup fs path := by
  rw [fsLookup]
  by_cases rooted : path.head? = some slash
  · rw [lookupBy_eq fsiDirSearch rooted, if_neg (not_not.mpr rooted), walk_fsiDirSearch]
  · rw [lookupBy, if_pos rooted, if_pos rooted]

structure DirTree where
  IsDir : Nat → Prop
  entries : Nat → List (CString × Nat)

def treeOf (fs : Fs) : DirTree := ⟨IsDir fs, dirEntries fs⟩

namespace DirTree

def entry (tree : DirTree) (dir : Nat) (name : CString) : Option Nat :=
  searchEntries (tree.entries dir) name

inductive Leads (tree : DirTree) : (a : Nat) → List CString → (b : Nat) → Prop
  | here (a : Nat) : Leads tree a [] a
  | down {a b c : Nat} {name : CString} {names : List CString} (dir : tree.IsDir a)
      (entry : tree.entry a name = some b) (rest : Leads tree b names c) :
      Leads tree a (name :: names) c

/-- What a lookup of the path is to return and to store. -/
structure Resolves (tree : DirTree) (path : CString) (result : Int × Option Nat) : Prop where
  found : ∀ a, tree.Leads 1 (components path) a → result = (1, some a)
  missing : ∀ done name rest dir, components path = done ++ name :: rest →
    tree.Leads 1 done dir → tree.IsDir dir → tree.entry dir name = none → result.1 = 0
  notDir : ∀ done name rest a, components path = done ++ name :: rest →
    tree.Leads 1 done a → ¬ tree.IsDir a → result.1 = -1

/-- The search answers as the tree says from every state of `I`, and leaves one of `I`. -/
structure Answers (tree : DirTree) (search : Fs → Nat → CString → Option Nat × Fs)
    (I : Fs → Prop) : Prop where
  isDir : ∀ fs, I fs → ∀ a, Snfs.IsDir fs a ↔ tree.IsDir a
  found : ∀ fs, I fs → ∀ dir name, tree.IsDir dir → name ≠ [] →
    (search fs dir name).1 = tree.entry dir name
  kept : ∀ fs, I fs → ∀ dir name, tree.IsDir dir → name ≠ [] → I (search fs dir name).2

variable {tree : DirTree} {search : Fs → Nat → CString → Option Nat × Fs} {I : Fs → Prop}

theorem Answers.step (answers : tree.Answers search I) {fs : Fs} (holds : I fs) {dir : Nat}
    (isDir : tree.IsDir dir) {name : CString} (nonempty : name ≠ []) :
    ∃ fs', search fs dir name = (tree.entry dir name, fs') ∧ I fs' :=
  ⟨_, Prod.ext (answers.found fs holds dir name isDir nonempty) rfl,
    answers.kept fs holds dir name isDir nonempty⟩

theorem Answers.walk (answers : tree.Answers search I) {a b : Nat} {done : List CString}
    (leads : tree.Leads a done b) (nonempty : [] ∉ done) {fs : Fs} (holds : I fs)
    (fileid : Option Nat) :
    ∃ fs', I fs' ∧ ∀ rest, Snfs.walk search a fileid (done ++ rest) fs =
      Snfs.walk search b (if done = [] then fileid else some b) rest fs' := by
  induction leads generalizing fileid fs with
  | here a => exact ⟨fs, holds, fun rest => rfl⟩
  | @down a b c name names dir entry leads ih =>
      have some : name ≠ [] := fun empty => nonempty (empty ▸ List.mem_cons_self)
      have more : [] ∉ names := fun member => nonempty (List.mem_cons_of_mem name member)
      obtain ⟨fs', searched, holds'⟩ := answers.step holds dir some
      obtain ⟨fs'', holds'', walked⟩ := ih more holds' (Option.some b)
      refine ⟨fs'', holds'', fun rest => ?_⟩
      rw [List.cons_append, Snfs.walk, if_pos ((answers.isDir fs holds a).mpr dir), searched, entry]
      simp only [walked rest, reduceCtorEq, if_false]
      by_cases last : names = []
      · subst last
        cases leads
        rfl
      · rw [if_neg last]

end DirTree

/-- A string that begins at the root and fits the buffer `line`. -/
structure RootPath (path : CString) : Prop where
  rooted : path.head? = some slash
  short : path.length < maxPathNameSize
  noZero : (0 : UInt8) ∉ path

section Lookup

open DirTree

variable {tree : DirTree} {search : Fs → Nat → CString → Option Nat × Fs} {I : Fs → Prop}

/-- A lookup of a path with components goes where it leads, says 0 at a missing name and -1 at a
file on the way. -/
theorem DirTree.Answers.lookup (answers : tree.Answers search I) {fs : Fs} (holds : I fs)
    {path : CString} (rooted : path.head? = some slash) (named : components path ≠ []) :
    tree.Resolves path (lookupBy search fs path).1 := by
  have nonempty := components_nonempty path
  rw [lookupBy_eq search rooted]
  constructor
  · intro a leads
    obtain ⟨fs', -, walked⟩ := answers.walk leads nonempty holds none
    have result := walked []
    rw [List.append_nil, if_neg named] at result
    rw [result]
    rfl
  · intro done name rest dir split leads isDir missing
    rw [split] at nonempty ⊢
    have before : [] ∉ done := fun member => nonempty (List.mem_append_left _ member)
    have some : name ≠ [] := fun empty => nonempty (by simp [empty])
    obtain ⟨fs', holds', walked⟩ := answers.walk leads before holds none
    obtain ⟨fs'', searched, -⟩ := answers.step holds' isDir some
    rw [walked, Snfs.walk, if_pos ((answers.isDir fs' holds' dir).mpr isDir), searched, missing]
  · intro done name rest a split leads file
    rw [split] at nonempty ⊢
    have before : [] ∉ done := fun member => nonempty (List.mem_append_left _ member)
    obtain ⟨fs', holds', walked⟩ := answers.walk leads before holds none
    rw [walked, Snfs.walk, if_neg fun isDir => file ((answers.isDir fs' holds' a).mp isDir)]

def searchDevice (fs : Fs) (dir : Nat) (name : CString) : Option Nat × Fs :=
  (plainSearch fs dir name, fs)

private theorem searchDevice_answers (fs : Fs) : (treeOf fs).Answers searchDevice (· = fs) where
  isDir := by
    rintro s rfl a
    exact Iff.rfl
  found := by
    rintro s rfl dir name - -
    rfl
  kept := by
    rintro s rfl dir name - -
    rfl

/-- `fsi_dir_search` answers so as long as the directory cache shows the pages. -/
theorem Inv.answers {own : Ledger} {top : Nat} {fs : Fs} (h : Inv own top fs) :
    (treeOf fs).Answers fsiDirSearch fun s => SameButDirs fs s ∧ DirsFresh Eq s where
  isDir := by
    rintro s ⟨same, -⟩ a
    rw [same]
    exact Iff.rfl
  found := by
    rintro s ⟨same, fresh⟩ dir name isDir nonempty
    have isDir' : IsDir s dir := by rw [same]; exact isDir
    obtain ⟨s', searched, -, -⟩ := fresh.search (same.inv h) isDir' nonempty
    rw [searched, same]
    rfl
  kept := by
    rintro s ⟨same, fresh⟩ dir name isDir nonempty
    have isDir' : IsDir s dir := by rw [same]; exact isDir
    obtain ⟨s', searched, same', fresh'⟩ := fresh.search (same.inv h) isDir' nonempty
    rw [searched]
    exact ⟨same.trans same', fresh'⟩

/-- Where the directory cache shows the pages, `fs_lookup` goes where the path leads. -/
theorem DirsFresh.fsLookup_resolves {own : Ledger} {top : Nat} {fs : Fs} (fresh : DirsFresh Eq fs)
    (h : Inv own top fs) {path : CString} (rooted : path.head? = some slash)
    (named : components path ≠ []) : (treeOf fs).Resolves path (fsLookup fs path).1 := by
  rw [← lookupBy_fsiDirSearch]
  exact h.answers.lookup ⟨.refl fs, fresh⟩ rooted named

/-- The lookup does what the tree says exactly if the path has a component: for the others it says 1
and stores no number. -/
theorem lookup_follows_iff (answers : tree.Answers search I) {fs : Fs} (holds : I fs)
    {path : CString} (isPath : RootPath path) :
    tree.Resolves path (lookupBy search fs path).1 ↔ components path ≠ [] := by
  constructor
  · intro resolves bare
    have root := resolves.found 1 (bare ▸ .here 1)
    rw [lookupBy_eq search isPath.rooted, bare, walk] at root
    cases root
  · exact answers.lookup holds isPath.rooted

/-- `"/d/f"` on a file system with a directory `d` that holds a file `f`. -/
theorem lookup_follows_iff_file_in_dir :
    ∃ trace s, fsAfter 16 (fun _ => 1) [.mkdir 1 [100], .create 2 [102]] = some (trace, s) ∧
      (treeOf s).Leads 1 (components [47, 100, 47, 102]) 3 ∧
      (lookupBy searchDevice s [47, 100, 47, 102]).1 = (1, some 3) := by
  have facts : (fsAfter 16 (fun _ => 1) [.mkdir 1 [100], .create 2 [102]]).map (fun r =>
      (decide (IsDir r.2 1 ∧ IsDir r.2 2), plainSearch r.2 1 [100], plainSearch r.2 2 [102])) =
        some (true, some 2, some 3) := by decide +kernel
  obtain ⟨⟨trace, s⟩, calls, facts⟩ := Option.map_eq_some_iff.mp facts
  simp only [Prod.mk.injEq, decide_eq_true_eq] at facts
  obtain ⟨⟨root, isDir⟩, first, second⟩ := facts
  have split : components [47, 100, 47, 102] = [[100], [102]] := by decide
  have leads : (treeOf s).Leads 1 (components [47, 100, 47, 102]) 3 := by
    rw [split]
    exact .down root first (.down isDir second (.here 3))
  have isPath : RootPath [47, 100, 47, 102] := ⟨rfl, by decide, by decide⟩
  have resolves := (lookup_follows_iff (searchDevice_answers s) rfl isPath).mpr (by simp [split])
  exact ⟨trace, s, calls, leads, resolves.found 3 leads⟩

/-- `"/"` on a new file system: 1 is returned, and the number of the root is not stored. -/
theorem lookup_of_root_sets_nothing :
    ∃ fs, fsBoot 16 (fun _ => 1) = some fs ∧ (treeOf fs).Answers searchDevice (· = fs) ∧
      RootPath [slash] ∧ (lookupBy searchDevice fs [slash]).1 = (1, none) ∧
      ¬ (treeOf fs).Resolves [slash] (lookupBy searchDevice fs [slash]).1 := by
  have boots : (fsBoot 16 fun _ => 1).isSome = true := by decide +kernel
  obtain ⟨fs, started⟩ := Option.isSome_iff_exists.mp boots
  have bare : components [slash] = [] := by decide
  have result : (lookupBy searchDevice fs [slash]).1 = (1, none) := by
    rw [lookupBy_eq searchDevice rfl, bare, walk]
  refine ⟨fs, started, searchDevice_answers fs, ⟨rfl, by decide, by decide⟩, result, ?_⟩
  rw [result]
  intro resolves
  have root := resolves.found 1 (bare ▸ .here 1)
  cases root

end Lookup

end Snfs
