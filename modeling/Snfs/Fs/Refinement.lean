import Snfs.Fs.Usage
import Snfs.Fs.Volume

/-!
The file system against the volume. As long as the caches show files and
directories as they are, every call returns what it returns on the volume and
leaves the volume's next state. Two runs of the same calls then differ in
nothing, whatever the clock says and whichever entries the caches drop.
-/

namespace Snfs

open Slots Runs

variable {own : Ledger} {top : Nat} {fs fs' : Fs} {a : Nat}

def nodeOf (fs : Fs) (a : Nat) : Option Node :=
  match (fs.inodeTab a).type with
  | .dir => some (.dir (dirEntries fs a))
  | .file => some (.file (content fs a))
  | _ => none

def volumeOf (top : Nat) (fs : Fs) : Volume :=
  { nodes := fun a => if a < top then nodeOf fs a else none
    nextId := top
    free := freeBits fs.blkBmap fs.numBlocks }

/-- The caches show every file and every directory as it is. -/
structure Shown (top : Nat) (fs : Fs) : Prop where
  files : FilesCoherent top fs
  dirs : DirsFresh Eq fs

theorem nodes_dir (h : Inv own top fs) (isDir : IsDir fs a) :
    (volumeOf top fs).nodes a = some (.dir (dirEntries fs a)) := by
  simp only [volumeOf, if_pos (h.isDir_iff.mp isDir).1, nodeOf, isDir.2]

theorem nodes_file (lt : a < top) (isFile : (fs.inodeTab a).type = .file) :
    (volumeOf top fs).nodes a = some (.file (content fs a)) := by
  simp only [volumeOf, if_pos lt, nodeOf, isFile]

/-- A number is not in use or 0, or it is that of a directory or of a file. -/
theorem Inv.node_cases (h : Inv own top fs) (a : Nat) :
    ((a = 0 ∨ top ≤ a) ∧ (volumeOf top fs).nodes a = none) ∨
    (IsDir fs a ∧ (volumeOf top fs).nodes a = some (.dir (dirEntries fs a))) ∨
    (a < top ∧ (fs.inodeTab a).type = .file ∧
      (volumeOf top fs).nodes a = some (.file (Snfs.content fs a))) := by
  by_cases out : top ≤ a
  · exact .inl ⟨.inr out, by simp only [volumeOf, if_neg (Nat.not_lt.mpr out)]⟩
  have lt := Nat.not_le.mp out
  by_cases zero : a = 0
  · subst zero
    refine .inl ⟨.inl rfl, ?_⟩
    simp only [volumeOf, if_pos lt, nodeOf, h.inodes.zero]
  · rcases h.inodes.kind a (Nat.pos_of_ne_zero zero) lt with isDir | isFile
    · have dir := h.isDir_iff.mpr ⟨lt, isDir⟩
      exact .inr (.inl ⟨dir, nodes_dir h dir⟩)
    · exact .inr (.inr ⟨lt, isFile, nodes_file lt isFile⟩)

theorem nodeOf_frame (frame : Frame top fs fs') (lt : a < top)
    (same : (fs.inodeTab a).type = .file → content fs' a = content fs a) :
    nodeOf fs' a = nodeOf fs a := by
  rw [nodeOf, nodeOf, frame.type]
  split
  · rename_i isDir
    rw [frame.dirEntries lt isDir]
  · rename_i isFile
    rw [same isFile]
  · rfl

private theorem volumeOf_same (same : SameButDirs fs fs') : volumeOf top fs' = volumeOf top fs := by
  rw [same]
  rfl

/-- What reads only shows the same volume after it. -/
theorem volumeOf_quiet (quiet : Quiet top fs fs')
    (files : ∀ a, a < top → (fs.inodeTab a).type = .file → content fs' a = content fs a) :
    volumeOf top fs' = volumeOf top fs := by
  have nodes : (fun a => if a < top then nodeOf fs' a else none) =
      fun a => if a < top then nodeOf fs a else none := by
    funext a
    split
    · rename_i lt
      exact nodeOf_frame quiet.toFrame lt (files a lt)
    · rfl
  rw [volumeOf, volumeOf, nodes, quiet.blkBmap, quiet.numBlocks]

theorem DirsFresh.lookupFrom (fresh : DirsFresh Eq fs) (h : Inv own top fs) (dir : Nat)
    (id : Option Nat) {tokens : List CString} (nonempty : [] ∉ tokens) :
    (Snfs.lookupFrom dir id tokens fs).1 = (volumeOf top fs).lookupFrom dir id tokens := by
  induction tokens generalizing fs dir id with
  | nil => rfl
  | cons token rest ih =>
      rw [List.mem_cons, not_or] at nonempty
      rw [Snfs.lookupFrom, Volume.lookupFrom]
      rcases h.node_cases dir with ⟨out, node⟩ | ⟨isDir, node⟩ | ⟨lt, isFile, node⟩
      · have notDir : ¬ IsDir fs dir := by
          rintro isDir
          rw [nodes_dir h isDir] at node
          cases node
        by_cases inUse : bmapIsset fs.inodeBmap dir = true
        · have other : (fs.inodeTab dir).type ≠ .dir := fun type => notDir ⟨inUse, type⟩
          simp only [inUse, node, other, Bool.not_true, Bool.false_eq_true, if_false, ne_eq,
            not_false_eq_true, if_true]
        · simp only [inUse, node, Bool.not_false, if_true]
      · obtain ⟨fs₁, found, same, fresh₁⟩ := fresh.search h isDir (Ne.symm nonempty.1)
        have searched : plainSearch fs dir token = searchEntries (dirEntries fs dir) token := rfl
        simp only [isDir.1, isDir.2, node, found, searched, Bool.not_true, Bool.false_eq_true,
          if_false, ne_eq, not_true_eq_false]
        cases searchEntries (dirEntries fs dir) token with
        | none => rfl
        | some fid =>
            rw [← volumeOf_same same]
            exact ih fresh₁ (same.inv h) fid (some fid) nonempty.2
      · have inUse : bmapIsset fs.inodeBmap dir = true := by
          rw [h.inodes.inUse]
          exact decide_eq_true lt
        simp [inUse, node, isFile]

theorem DirsFresh.lookup (fresh : DirsFresh Eq fs) (h : Inv own top fs) (path : CString) :
    (fsLookup fs path).1 = (volumeOf top fs).lookup path := by
  rw [fsLookup, Volume.lookup]
  split
  · rfl
  · exact fresh.lookupFrom h 1 none (components_nonempty path)

theorem Shown.getAttrs (shown : Shown top fs) (h : Inv own top fs) (a : Nat) :
    (Snfs.fsGetAttrs fs a).map Prod.fst = (volumeOf top fs).getAttrs a := by
  rw [Volume.getAttrs]
  rcases h.node_cases a with ⟨out, node⟩ | ⟨isDir, node⟩ | ⟨lt, isFile, node⟩
  · rcases h.fsGetAttrs_cases a with ⟨above, none⟩ | ⟨p, fs₁, opened, reported⟩
    · have pos := h.top_pos
      rw [none, node, if_neg (by omega)]
      rfl
    · obtain ⟨lt, -⟩ := h.openInode opened
      have zero : a = 0 := by omega
      subst zero
      have type : (fs.seen 0).type = .clear := (h.type_seen 0).trans h.inodes.zero
      rw [reported, attrsOf, type, if_pos rfl]
      rfl
  · rcases h.fsGetAttrs_cases a with ⟨above, -⟩ | ⟨p, fs₁, -, reported⟩
    · exact absurd (h.isDir_iff.mp isDir).1 (Nat.not_lt.mpr above)
    · have seen := shown.dirs.seen eq_shows isDir
      have length : (dirEntries fs a).length = numEntries fs a := by simp [dirEntries]
      have size := h.tree.size_eq (h.isDir_iff.mp isDir).1 isDir.2
      rw [reported, seen, attrsOf, isDir.2, node, if_neg (h.dir_ne_zero isDir)]
      simp only [Option.map_some, length]
      rw [← size]
      rfl
  · rw [(h.reports lt isFile).1, node, if_neg]
    rintro rfl
    rw [h.inodes.zero] at isFile
    cases isFile

theorem Inv.read_volume (h : Inv own top fs) (a offset count : Nat) :
    (fsRead fs a offset count).1 = (volumeOf top fs).read a offset count := by
  rw [Volume.read]
  by_cases file : a < top ∧ (fs.inodeTab a).type = .file
  · rw [(h.reports file.1 file.2).2, nodes_file file.1 file.2]
  · have none : (fsRead fs a offset count).1 = none := by
      rcases h.fsRead_cases a offset count with ⟨-, stop⟩ | ⟨p, fs₁, opened, ⟨-, stop⟩ | ⟨isFile, -⟩⟩
      · rw [stop]
      · rw [stop]
      · exact absurd ⟨(h.openInode opened).1, isFile⟩ file
    rw [none]
    rcases h.node_cases a with ⟨-, node⟩ | ⟨-, node⟩ | ⟨lt, isFile, -⟩
    · rw [node]
    · rw [node]
    · exact absurd ⟨lt, isFile⟩ file

theorem Shown.readdir (shown : Shown top fs) (h : Inv own top fs) (dir : Nat) (maxentries : Int) :
    (Snfs.fsReaddir fs dir maxentries).1 = (volumeOf top fs).readdir dir maxentries := by
  have small := h.inodes.le_size
  rw [Volume.readdir]
  by_cases isDir : IsDir fs dir
  swap
  · have none : (Snfs.fsReaddir fs dir maxentries).1 = none := by
      rw [Snfs.fsReaddir]
      split
      · rfl
      · cases opened : Snfs.openInode fs dir with
        | none => rfl
        | some pair =>
            obtain ⟨p, fs₁⟩ := pair
            obtain ⟨lt, -, -, -, copy, -⟩ := h.openInode opened
            have type : (fs₁.deref p).type ≠ .dir := by
              rw [copy, h.type_seen]
              exact fun type => isDir (h.isDir_iff.mpr ⟨lt, type⟩)
            simp only [if_pos type]
    rw [none]
    rcases h.node_cases dir with ⟨-, node⟩ | ⟨here, -⟩ | ⟨-, -, node⟩
    · rw [node]
    · exact absurd here isDir
    · rw [node]
  · rw [nodes_dir h isDir]
    by_cases neg : maxentries < 0
    · simp only [Snfs.fsReaddir, neg, or_true, if_true]
    · obtain ⟨max, rfl⟩ := Int.eq_ofNat_of_zero_le (Int.not_lt.mp neg)
      obtain ⟨fs₁, result, -⟩ := shown.dirs.readdir eq_shows h isDir max
      have length : (dirEntries fs dir).length = numEntries fs dir := by simp [dirEntries]
      have cut : (dirEntries fs dir).take max =
          (dirEntries fs dir).take (min ((fs.inodeTab dir).size / dentrySize) max) := by
        rw [List.take_eq_take_min, length, numEntries, Nat.min_comm]
      rw [result, shown.dirs.seen eq_shows isDir, ← cut]
      simp only [if_neg neg, Int.toNat_natCast, Option.some.injEq]
      refine List.map_congr_left fun entry member => ?_
      obtain ⟨low, lt⟩ := h.entry_range isDir (List.mem_of_mem_take member)
      have type : (volumeOf top fs).nodeType entry.2 = (fs.inodeTab entry.2).type := by
        rcases h.inodes.kind entry.2 (by omega) lt with dir | file
        · simp only [Volume.nodeType, nodes_dir h (h.isDir_iff.mpr ⟨lt, dir⟩), dir]
          rfl
        · simp only [Volume.nodeType, nodes_file lt file, file]
          rfl
      rw [listed, type]

theorem SameButDirs.growDir (same : SameButDirs fs fs') (dir : Nat) :
    Snfs.growDir fs' (fs'.inodeTab dir) = Snfs.growDir fs (fs.inodeTab dir) := by
  rw [same]
  rfl

theorem SameButDirs.inodeBmap (same : SameButDirs fs fs') : fs'.inodeBmap = fs.inodeBmap := by
  rw [same]

theorem fsMake_isSome (type : Itype) (fs : Fs) (dir : Nat) (name : CString) :
    (fsMake type fs dir name).1.isSome = true ↔
      CanAdd fs dir name ∧ (fsiDirSearch fs dir name).1 = none := by
  have same := fsiDirSearch_same fs dir name
  constructor
  · intro made
    rcases fsMake_cases type fs dir name with ⟨fs₁, stop, -⟩ |
      ⟨fs₁, finode, idir, blkBmap, ok, missed, free, grow, -⟩
    · rw [stop] at made
      cases made
    · replace same : SameButDirs fs fs₁ := by rwa [missed] at same
      rw [same.inodeBmap] at free
      rw [same.growDir] at grow
      exact ⟨⟨ok, by rw [free]; rfl, by rw [grow]; rfl⟩, by rw [missed]⟩
  · rintro ⟨can, missed⟩
    obtain ⟨finode, free⟩ := Option.isSome_iff_exists.mp can.freeInode
    obtain ⟨⟨idir, blkBmap⟩, grow⟩ := Option.isSome_iff_exists.mp can.freeBlock
    have short := can.short
    have length : ¬ (name.length = 0 ∨ fsMaxFnameSz < name.length + 1) := by
      rintro (zero | long)
      · exact can.nonempty (List.eq_nil_of_length_eq_zero zero)
      · omega
    rw [fsMake, if_neg (Nat.not_le.mpr can.dir_lt), if_neg length, can.inUse, can.isDir]
    cases search : fsiDirSearch fs dir name with
    | mk found fs₁ =>
        rw [search] at missed
        replace same : SameButDirs fs fs₁ := by rwa [search] at same
        subst missed
        rw [← same.inodeBmap] at free
        rw [← same.growDir] at grow
        simp only [free, grow]
        rfl

theorem freeBits_pos_iff {bmap : Block} {size : Nat} :
    (fsiBmapFindFree bmap size).isSome = true ↔ 0 < freeBits bmap size := by
  rw [freeBits, List.length_pos_iff_exists_mem, fsiBmapFindFree, List.find?_isSome]
  simp only [List.mem_filter]

/-- A creation gets what it needs if an inode is free and, for a new page, a block. -/
theorem Inv.canAdd_iff (h : Inv own top fs) {dir : Nat} (isDir : IsDir fs dir) (name : CString) :
    CanAdd fs dir name ↔ (name ≠ [] ∧ name.length < fsMaxFnameSz) ∧ top < itabSize ∧
      Volume.pageFor (dirEntries fs dir) ≤ freeBits fs.blkBmap fs.numBlocks := by
  obtain ⟨lt, type⟩ := h.isDir_iff.mp isDir
  have size := h.tree.size_eq lt type
  have small := h.inodes.le_size
  have length : (dirEntries fs dir).length = numEntries fs dir := by simp [dirEntries]
  have inode : (fsiBmapFindFree fs.inodeBmap itabSize).isSome = true ↔ top < itabSize := by
    rw [fsiBmapFindFree, List.find?_isSome]
    constructor
    · rintro ⟨a, member, clear⟩
      rw [h.inodes.inUse] at clear
      have := List.mem_range.mp member
      have : ¬ a < top := by simpa using clear
      omega
    · intro free
      refine ⟨top, List.mem_range.mpr free, ?_⟩
      rw [h.inodes.inUse]
      simp
  have block : (Snfs.growDir fs (fs.inodeTab dir)).isSome = true ↔
      Volume.pageFor (dirEntries fs dir) ≤ freeBits fs.blkBmap fs.numBlocks := by
    rw [Volume.pageFor, length, Snfs.growDir]
    by_cases full : (fs.inodeTab dir).size % 512 = 0
    · rw [if_pos full, if_pos (by simp only [dirPageEntries]; omega), Option.isSome_map,
        freeBits_pos_iff]
      exact Iff.rfl
    · rw [if_neg full, if_neg (by simp only [dirPageEntries]; omega)]
      simp
  rw [← inode, ← block]
  constructor
  · rintro ⟨⟨-, nonempty, short, -, -⟩, free, grow⟩
    exact ⟨⟨nonempty, short⟩, free, grow⟩
  · rintro ⟨⟨nonempty, short⟩, free, grow⟩
    exact ⟨⟨by omega, nonempty, short, isDir.1, type⟩, free, grow⟩

theorem Inv.make_volume (h : Inv own top fs) (type : Itype) (dir : Nat) (name : CString) :
    (volumeOf top fs).make type dir name =
      if IsDir fs dir ∧ CanAdd fs dir name ∧ plainSearch fs dir name = none
        then (some top, (volumeOf top fs).addEntry type dir (dirEntries fs dir) name)
        else (none, volumeOf top fs) := by
  rw [Volume.make]
  by_cases isDir : IsDir fs dir
  · rw [nodes_dir h isDir]
    have can := h.canAdd_iff isDir name
    have searched : plainSearch fs dir name = searchEntries (dirEntries fs dir) name := rfl
    simp only [can, searched, isDir, true_and]
    by_cases named : name ≠ [] ∧ name.length < fsMaxFnameSz
    swap
    · rw [if_pos (by by_contra other; exact named ⟨fun e => other (.inl e), by omega⟩),
        if_neg fun all => named all.1.1]
    rw [if_neg (by rintro (empty | long); exacts [named.1 empty, absurd named.2 (by omega)])]
    by_cases absent : searchEntries (dirEntries fs dir) name = none
    swap
    · rw [if_pos (Option.isSome_iff_ne_none.mpr absent), if_neg fun all => absent all.2]
    rw [if_neg (by simp [absent])]
    by_cases enough : top < itabSize ∧
        Volume.pageFor (dirEntries fs dir) ≤ freeBits fs.blkBmap fs.numBlocks
    · have free : ¬ (itabSize ≤ (volumeOf top fs).nextId ∨
          (volumeOf top fs).free < Volume.pageFor (dirEntries fs dir)) := by
        rintro (many | few)
        · exact absurd enough.1 (Nat.not_lt.mpr many)
        · exact absurd enough.2 (Nat.not_le.mpr few)
      rw [if_neg free, if_pos ⟨⟨named, enough⟩, absent⟩]
      rfl
    · have full : itabSize ≤ (volumeOf top fs).nextId ∨
          (volumeOf top fs).free < Volume.pageFor (dirEntries fs dir) := by
        by_contra other
        rw [not_or] at other
        exact enough ⟨Nat.not_le.mp other.1, Nat.not_lt.mp other.2⟩
      rw [if_pos full, if_neg fun all => enough all.1.2]
  · rw [if_neg fun all => isDir all.1]
    rcases h.node_cases dir with ⟨-, node⟩ | ⟨here, -⟩ | ⟨-, -, node⟩
    · rw [node]
    · exact absurd here isDir
    · rw [node]

theorem Shown.make_result (shown : Shown top fs) (h : Inv own top fs) {type : Itype}
    (kind : type = .dir ∨ type = .file) (dir : Nat) {name : CString}
    (noZero : (0 : UInt8) ∉ name) (room : Room fs 1) :
    (Snfs.fsMake type fs dir name).1 = ((volumeOf top fs).make type dir name).1 := by
  have made := fsMake_isSome type fs dir name
  have same : (CanAdd fs dir name ∧ (fsiDirSearch fs dir name).1 = none) ↔
      IsDir fs dir ∧ CanAdd fs dir name ∧ plainSearch fs dir name = none := by
    constructor
    · rintro ⟨can, missed⟩
      have isDir : IsDir fs dir := ⟨can.inUse, can.isDir⟩
      obtain ⟨fs₁, found, -⟩ := shown.dirs.search h isDir can.nonempty
      exact ⟨isDir, can, by rwa [found] at missed⟩
    · rintro ⟨isDir, can, missed⟩
      obtain ⟨fs₁, found, -⟩ := shown.dirs.search h isDir can.nonempty
      exact ⟨can, by rwa [found]⟩
  rw [same] at made
  rw [h.make_volume]
  rcases h.fsMake type kind dir noZero room with ⟨fs₁, stop, -⟩ | ⟨own₁, fs₁, done, -⟩
  · rw [stop] at made ⊢
    rw [if_neg fun all => Bool.noConfusion (made.mpr all)]
  · rw [done] at made ⊢
    rw [if_pos (made.mp rfl)]

theorem Made.free_count {own' : Ledger} {type : Itype} {dir : Nat} {name : CString}
    (made : Made own own' top type fs dir name fs') (h : Inv own top fs) (room : Room fs 1) :
    freeBits fs'.blkBmap fs'.numBlocks =
      freeBits fs.blkBmap fs.numBlocks - Volume.pageFor (dirEntries fs dir) := by
  have size := h.tree.size_eq made.dir_lt made.creatable.isDir
  have length : (dirEntries fs dir).length = numEntries fs dir := by simp [dirEntries]
  obtain ⟨idir, grow, -⟩ := made.grown
  rw [made.numBlocks, Volume.pageFor, length]
  rw [growDir] at grow
  by_cases full : (fs.inodeTab dir).size % 512 = 0
  · rw [if_pos full] at grow
    rw [if_pos (by simp only [dirPageEntries]; omega)]
    obtain ⟨b, found, same⟩ := Option.map_eq_some_iff.mp grow
    simp only [Prod.mk.injEq] at same
    obtain ⟨inside, clear, -⟩ := findFree_spec found
    have one := freeBits_set (room.found found) inside clear
    rw [← same.2]
    omega
  · rw [if_neg full] at grow
    rw [if_neg (by simp only [dirPageEntries]; omega)]
    simp only [Option.some.injEq, Prod.mk.injEq] at grow
    rw [← grow.2, Nat.sub_zero]

theorem content_empty (empty : (fs.seen a).size = 0) : content fs a = [] :=
  List.eq_nil_of_length_eq_zero ((length_content fs a).trans empty)

/-- What a call that writes to no file leaves, where it adds no entry. -/
theorem Shown.volume_same (shown : Shown top fs) (h : Inv own top fs) {op : FsOp} (fits : op.Fits)
    (room : Room fs (demand fs op)) {res : FsResult} (next : fsStep fs op = some (res, fs'))
    (noWrite : ∀ file offset data, op ≠ .write file offset data)
    (empty : ∀ c ∈ copySource fs op, c.size = 0) {own' : Ledger} {top' : Nat}
    (kept : StepKept own own' top top' fs op fs') (quiet : Quiet top fs (afterCreate fs op)) :
    volumeOf top' fs' = volumeOf top fs := by
  have other (a : Nat) : ¬ WritesTo a (op, res) := by
    cases op with
    | write file offset data => exact absurd rfl (noWrite file offset data)
    | _ => exact id
  have same : top' = top := by
    have inUse (a : Nat) : a < top' ↔ a < top := by
      rw [← decide_eq_decide, ← kept.inv.inodes.inUse, kept.frame.inodeBmap, quiet.inodeBmap,
        h.inodes.inUse]
    have := (inUse top).not.mpr (Nat.lt_irrefl top)
    have := (inUse top').not.mp (Nat.lt_irrefl top')
    omega
  subst same
  have frame : Frame top' fs fs' := quiet.toFrame.trans kept.frame
  refine Volume.ext (funext fun a => ?_) rfl ?_
  · simp only [volumeOf]
    split
    · rename_i lt
      refine nodeOf_frame frame lt fun isFile => ?_
      exact (h.unchanged_step lt isFile (shown.files a lt isFile) fits room next (other a)).content
    · rfl
  · simp only [volumeOf]
    rw [h.step_blkBmap fits room next noWrite empty, quiet.blkBmap, frame.numBlocks]

/-- What such a call leaves where it adds an entry. -/
theorem Shown.volume_made (shown : Shown top fs) (h : Inv own top fs) {op : FsOp} (fits : op.Fits)
    (room : Room fs (demand fs op)) {res : FsResult} (next : fsStep fs op = some (res, fs'))
    (noWrite : ∀ file offset data, op ≠ .write file offset data)
    (empty : ∀ c ∈ copySource fs op, c.size = 0) {own₁ : Ledger} {type : Itype} {s : Fs} {dir : Nat}
    {name : CString} (kind : type = .dir ∨ type = .file) (inv : Inv own top s)
    (quiet : Quiet top fs s) (room₁ : Room s 1)
    (made : Made own own₁ top type s dir name (afterCreate fs op)) {top' : Nat}
    (inv' : ∃ own', Inv own' top' fs') :
    volumeOf top' fs' = (volumeOf top fs).addEntry type dir (dirEntries fs dir) name := by
  have other (a : Nat) : ¬ WritesTo a (op, res) := by
    cases op with
    | write file offset data => exact absurd rfl (noWrite file offset data)
    | _ => exact id
  obtain ⟨own', top₁, kept, new⟩ := h.step_new fits room next
  obtain ⟨_, inv'⟩ := inv'
  obtain rfl := inv'.top_unique kept.inv
  have same : top₁ = top + 1 := by
    have inUse (a : Nat) : a < top₁ ↔ a < top + 1 := by
      rw [← decide_eq_decide, ← kept.inv.inodes.inUse, kept.frame.inodeBmap,
        made.inv.inodes.inUse]
    have := (inUse (top + 1)).not.mpr (Nat.lt_irrefl _)
    have := (inUse top₁).not.mp (Nat.lt_irrefl _)
    omega
  subst same
  have lt := made.dir_lt
  have isDir : (fs.inodeTab dir).type = .dir := (quiet.type dir).symm.trans made.creatable.isDir
  have entries : dirEntries s dir = dirEntries fs dir := quiet.dirEntries lt isDir
  refine Volume.ext (funext fun a => ?_) rfl ?_
  · simp only [volumeOf, Volume.addEntry, Volume.put, Function.update_apply]
    by_cases isNew : a = top
    · subst isNew
      have type' : (fs'.inodeTab a).type = type := by
        rw [kept.frame.type, made.tab_new]
        rfl
      rw [if_pos (Nat.lt_succ_self a), if_pos rfl, nodeOf, type']
      rcases kind with rfl | rfl
      · simp only [Volume.emptyNode, Option.some.injEq, Node.dir.injEq]
        have there : ((afterCreate fs op).inodeTab a).type = .dir := by
          rw [made.tab_new]
          rfl
        rw [kept.frame.dirEntries (Nat.lt_succ_self a) there, made.entries_new]
      · simp only [Volume.emptyNode, Option.some.injEq, Node.file.injEq]
        exact content_empty (new a (Nat.le_refl a) (Nat.lt_succ_self a)).2
    · rw [if_neg isNew]
      by_cases out : a < top
      swap
      · rw [if_neg (by omega), if_neg (by omega), if_neg out]
      · rw [if_pos (Nat.lt_succ_of_lt out), if_pos out]
        by_cases here : a = dir
        · subst here
          have there : (fs'.inodeTab a).type = .dir := by
            rw [kept.frame.type, made.type_dir]
          rw [if_pos rfl, nodeOf, there]
          simp only [Option.some.injEq, Node.dir.injEq]
          rw [kept.frame.dirEntries (Nat.lt_succ_of_lt out) made.type_dir, made.entries_dir, entries]
        · rw [if_neg here, nodeOf, nodeOf, kept.type a out]
          split
          · rename_i type
            have there : ((afterCreate fs op).inodeTab a).type = .dir := by
              rw [made.type_old out, quiet.type, type]
            rw [kept.frame.dirEntries (Nat.lt_succ_of_lt out) there, made.entries_other a out here,
              quiet.dirEntries out type]
          · rename_i type
            rw [(h.unchanged_step out type (shown.files a out type) fits room next
              (other a)).content]
          · rfl
  · simp only [volumeOf, Volume.addEntry, Volume.put, Nat.sub_zero]
    rw [h.step_blkBmap fits room next noWrite empty, kept.frame.numBlocks,
      made.free_count inv room₁, quiet.blkBmap, quiet.numBlocks, entries]

/-- `fs_write` on the volume, in terms of the inode that the operations see. -/
theorem write_volume (lt : a < top) (isFile : (fs.inodeTab a).type = .file) (offset : Nat)
    (data : List UInt8) :
    (volumeOf top fs).write a offset data =
      if inodeNumBlks - (fs.seen a).used <
          blocksNeeded (fs.seen a) (writePos (fs.seen a) offset + data.length)
        then (false, volumeOf top fs)
      else if freeBits fs.blkBmap fs.numBlocks <
          blocksNeeded (fs.seen a) (writePos (fs.seen a) offset + data.length)
        then (false, { volumeOf top fs with free := 0 })
      else (true, (volumeOf top fs).put a
        (.file (overwrite (content fs a) (min offset (content fs a).length) data))
        (blocksNeeded (fs.seen a) (writePos (fs.seen a) offset + data.length))) := by
  rw [Volume.write, nodes_file lt isFile]
  simp only [length_content]
  rfl

theorem Shown.write (shown : Shown top fs) (h : Inv own top fs) (file offset : Nat)
    {data : List UInt8} (short : data.length ≤ 1024)
    (room : Room fs (demand fs (.write file offset data)))
    (safe : ¬ ExtendsUncached fs (.write file offset data)) {ok : Bool}
    (result : fsWrite fs file offset data = (ok, fs')) :
    (volumeOf top fs).write file offset data = (ok, volumeOf top fs') := by
  obtain ⟨own', kept⟩ := h.step_write file offset short room
  have other (a : Nat) (lt : a < top) (isFile : (fs.inodeTab a).type = .file) (ne : a ≠ file) :
      content fs' a = content fs a := by
    have unchanged := h.unchanged_write_other lt (shown.files a lt isFile) ne offset short room
    rw [result] at unchanged
    exact unchanged.content
  rw [result] at kept
  have frame : Frame top fs fs' := kept.frame
  have opens {p : InodePtr} {fs₁ : Fs} (opened : Snfs.openInode fs file = some (p, fs₁)) :
      volumeOf top fs₁ = volumeOf top fs := by
    obtain ⟨-, -, quiet₁, -⟩ := h.openInode opened
    exact volumeOf_quiet quiet₁ fun a lt isFile =>
      (h.unchanged_open lt (shown.files a lt isFile) opened).content
  have ends := h.fsWrite_ends file offset short room
  rw [result] at ends
  by_cases known : file < top ∧ (fs.inodeTab file).type = .file
  swap
  · -- nothing is written to what is no file
    have nothing : (volumeOf top fs).write file offset data = (false, volumeOf top fs) := by
      rw [Volume.write]
      rcases h.node_cases file with ⟨-, node⟩ | ⟨-, node⟩ | ⟨lt, isFile, -⟩
      · rw [node]
      · rw [node]
      · exact absurd ⟨lt, isFile⟩ known
    rw [nothing]
    cases ends with
    | unused => rfl
    | refused opened => rw [opens opened]
    | full opened isFile => exact absurd ⟨(h.openInode opened).1, isFile⟩ known
    | inside opened isFile => exact absurd ⟨(h.openInode opened).1, isFile⟩ known
    | extended opened grows => exact absurd ⟨(h.openInode opened).1, grows.isFile⟩ known
  obtain ⟨lt, isFile⟩ := known
  have coherent := shown.files file lt isFile
  rw [write_volume lt isFile]
  -- a write that returns 0
  have wrote (done : ok = true) :
      (true, (volumeOf top fs).put file
        (.file (overwrite (content fs file) (min offset (content fs file).length) data))
        (blocksNeeded (fs.seen file) (writePos (fs.seen file) offset + data.length))) =
          (ok, volumeOf top fs') := by
    subst done
    obtain ⟨-, bytes⟩ := h.write_self lt coherent short room safe result
    obtain ⟨_, p, fs₁, fs₂, quiet₁, copy, stored, quiet₂, -, -⟩ :=
      h.write_inode lt coherent short room safe result
    have count := stored.free
    rw [copy, ← quiet₂.blkBmap, ← quiet₂.numBlocks, quiet₁.blkBmap, quiet₁.numBlocks] at count
    rw [Prod.mk.injEq]
    refine ⟨rfl, Eq.symm ?_⟩
    refine Volume.ext (funext fun a => ?_) rfl ?_
    · simp only [volumeOf, Volume.put, Function.update_apply]
      by_cases here : a = file
      · subst here
        rw [if_pos lt, if_pos rfl, nodeOf, frame.type, isFile, bytes]
      · rw [if_neg here]
        split
        · rename_i lt
          exact nodeOf_frame frame lt fun isFile => other a lt isFile here
        · rfl
    · simp only [volumeOf, Volume.put]
      omega
  cases ends with
  | unused out => exact absurd lt (Nat.not_lt.mpr out)
  | refused opened why => rw [if_pos (why isFile), opens opened]
  | full opened _ fits few _ left =>
      rw [if_neg (Nat.not_lt.mpr fits), if_pos few, Prod.mk.injEq]
      refine ⟨rfl, Eq.symm ?_⟩
      refine Volume.ext (funext fun a => ?_) rfl left
      simp only [volumeOf]
      split
      · rename_i lt
        refine nodeOf_frame frame lt fun isFile => ?_
        exact (h.unchanged_write_failed lt (shown.files a lt isFile) short room result).content
      · rfl
  | inside _ _ le =>
      have none : blocksNeeded (fs.seen file) (writePos (fs.seen file) offset + data.length) = 0 :=
        Nat.sub_eq_zero_of_le (offsetToBlocks_mono le)
      rw [none, if_neg (Nat.not_lt_zero _), if_neg (Nat.not_lt_zero _), ← none]
      exact wrote rfl
  | extended _ grows =>
      have used := (h.owned_seen lt).used_le
      have last := offsetToBlocks_le.mpr (show _ ≤ 512 * 10 from grows.fits)
      have fits : ¬ inodeNumBlks - (fs.seen file).used <
          blocksNeeded (fs.seen file) (writePos (fs.seen file) offset + data.length) := by
        rw [blocksNeeded]
        simp only [inodeNumBlks] at *
        omega
      rw [if_neg fits, if_neg (Nat.not_lt.mpr grows.free)]
      exact wrote rfl

structure SameShown (own : Ledger) (top : Nat) (fs fs' : Fs) : Prop where
  inv : Inv own top fs'
  shown : Shown top fs'
  volume : volumeOf top fs' = volumeOf top fs

theorem SameShown.same {s : Fs} (h : SameShown own top fs s) (same : SameButDirs s fs')
    (fresh : DirsFresh Eq fs') : SameShown own top fs fs' := by
  refine ⟨same.inv h.inv, ⟨fun a lt isFile => ?_, fresh⟩, (volumeOf_same same).trans h.volume⟩
  rw [(same.quiet top).type] at isFile
  exact (h.inv.unchanged_same lt (h.shown.files a lt isFile) same).coherent

theorem SameShown.opens {s : Fs} (h : SameShown own top fs s) {p : InodePtr}
    (opened : openInode s a = some (p, fs')) : SameShown own top fs fs' := by
  obtain ⟨-, inv, quiet, -⟩ := h.inv.openInode opened
  have unchanged (a : Nat) (lt : a < top) (isFile : (s.inodeTab a).type = .file) :=
    h.inv.unchanged_open lt (h.shown.files a lt isFile) opened
  refine ⟨inv, ⟨fun a lt isFile => ?_, ?_⟩, ?_⟩
  · rw [quiet.type] at isFile
    exact (unchanged a lt isFile).coherent
  · exact h.shown.dirs.calm h.inv (h.inv.calm_open opened) eq_shows.refl
  · exact (volumeOf_quiet quiet fun a lt isFile => (unchanged a lt isFile).content).trans h.volume

theorem SameShown.lookup {s : Fs} (h : SameShown own top fs s) (path : CString) :
    (fsLookup s path).1 = (volumeOf top fs).lookup path ∧
      SameShown own top fs (fsLookup s path).2 := by
  refine ⟨by rw [h.shown.dirs.lookup h.inv, h.volume], ?_⟩
  exact h.same (fsLookup_same s path) ((dirsFresh_kept eq_shows).lookup h.inv h.shown.dirs path)

theorem SameShown.getAttrs {s : Fs} (h : SameShown own top fs s) (a : Nat) :
    (Snfs.fsGetAttrs s a).map Prod.fst = (volumeOf top fs).getAttrs a ∧
      ∀ attrs s', Snfs.fsGetAttrs s a = some (attrs, s') → SameShown own top fs s' := by
  refine ⟨by rw [h.shown.getAttrs h.inv, h.volume], fun attrs s' got => ?_⟩
  rcases h.inv.fsGetAttrs_cases a with ⟨-, stop⟩ | ⟨p, s₁, opened, reported⟩
  · rw [got] at stop
    cases stop
    exact h
  · rw [got] at reported
    obtain ⟨_, -, same⟩ := Option.map_eq_some_iff.mp reported.symm
    cases same
    exact h.opens opened

theorem Shown.copyPaths (shown : Shown top fs) (h : Inv own top fs) (srcJunk dirJunk : Nat)
    (srcpath tgtpath : CString) :
    (Snfs.copyPaths fs srcJunk dirJunk srcpath tgtpath).map Prod.fst =
        (volumeOf top fs).copyPaths srcJunk dirJunk srcpath tgtpath ∧
      ∀ paths s, Snfs.copyPaths fs srcJunk dirJunk srcpath tgtpath = some (paths, s) →
        SameShown own top fs s := by
  have start : SameShown own top fs fs := ⟨h, shown, rfl⟩
  rw [Snfs.copyPaths, Volume.copyPaths]
  obtain ⟨look, same₁⟩ := start.lookup srcpath
  rw [← look]
  generalize fsLookup fs srcpath = looked at same₁
  obtain ⟨⟨found, srcId⟩, fs₁⟩ := looked
  simp only at same₁ ⊢
  by_cases missing : found ≤ 0
  · rw [if_pos missing, if_pos missing]
    exact ⟨rfl, fun paths s done => by cases done; exact same₁⟩
  rw [if_neg missing, if_neg missing]
  obtain ⟨attrs, same₂⟩ := same₁.getAttrs (srcId.getD srcJunk)
  rw [← attrs]
  generalize Snfs.fsGetAttrs fs₁ (srcId.getD srcJunk) = got at same₂
  rcases got with _ | ⟨_ | attrs, fs₂⟩
  · exact ⟨rfl, fun paths s done => by cases done⟩
  · exact ⟨rfl, fun paths s done => by cases done; exact same₂ _ _ rfl⟩
  replace same₂ := same₂ _ _ rfl
  simp only [Option.map_some]
  by_cases other : attrs.type ≠ .file
  · rw [if_pos other, if_pos other]
    exact ⟨rfl, fun paths s done => by cases done; exact same₂⟩
  rw [if_neg other, if_neg other]
  rcases splitLast tgtpath with _ | ⟨targetDir, name⟩
  · exact ⟨rfl, fun paths s done => by cases done; exact same₂⟩
  obtain ⟨look, same₃⟩ := same₂.lookup targetDir
  simp only
  rw [← look]
  generalize fsLookup fs₂ targetDir = looked at same₃
  obtain ⟨⟨found, dirId⟩, fs₃⟩ := looked
  simp only at same₃ ⊢
  by_cases missing : found ≤ 0
  · rw [if_pos missing, if_pos missing]
    exact ⟨rfl, fun paths s done => by cases done; exact same₃⟩
  rw [if_neg missing, if_neg missing]
  exact ⟨rfl, fun paths s done => by cases done; exact same₃⟩

theorem Volume.write_nil {v : Volume} (empty : v.nodes a = some (.file [])) :
    v.write a 0 [] = (true, v) := by
  rw [Volume.write, empty]
  simp only [List.length_nil, Nat.min_self, Nat.add_zero, Nat.sub_self, Nat.not_lt_zero, if_false,
    Prod.mk.injEq, true_and]
  refine Volume.ext (funext fun b => ?_) rfl (Nat.sub_zero _)
  simp only [Volume.put, Function.update_apply]
  split
  · rename_i same
    rw [same, empty]
    rfl
  · rfl

/-- The condition on a call under which it leaves the caches true. -/
def KeepsShown (fs : Fs) (op : FsOp) : Prop :=
  KeepsFiles fs op ∧ OnCreate AddsUncached fs op ∧ ∀ c ∈ copySource fs op, c.size = 0

instance (fs : Fs) (op : FsOp) : Decidable (KeepsShown fs op) :=
  inferInstanceAs (Decidable (_ ∧ _ ∧ ∀ c ∈ copySource fs op, _))

theorem Shown.step (shown : Shown top fs) (h : Inv own top fs) {op : FsOp} {res : FsResult}
    (guard : KeepsShown fs op) (next : fsStep fs op = some (res, fs')) :
    ∃ own' top', StepKept own own' top top' fs op fs' ∧ Shown top' fs' := by
  obtain ⟨keeps, create, -⟩ := guard
  obtain ⟨own', top', kept, files⟩ := shown.files.step h keeps next
  refine ⟨own', top', kept, files, ?_⟩
  obtain ⟨_, _, -, fresh⟩ := shown.dirs.step eq_shows h keeps.1 keeps.2.1
    (fun _ _ _ _ call _ can absent => by
      obtain ⟨aligned, uncached⟩ := create.of_call call can absent
      exact ⟨aligned, fun t key => absurd key (uncached t)⟩) next
  exact fresh

/-- What a creation returns and leaves, where the call changes nothing else that is seen. -/
theorem SameShown.make {s : Fs} (same : SameShown own top fs s) (shown : Shown top fs)
    (h : Inv own top fs) {op : FsOp} (guard : KeepsShown fs op) {res : FsResult}
    (next : fsStep fs op = some (res, fs'))
    (noWrite : ∀ file offset data, op ≠ .write file offset data) {type : Itype} {dir : Nat}
    {name : CString} (kind : type = .dir ∨ type = .file)
    (call : createCall fs op = some (type, s, dir, name)) (quiet : Quiet top fs s)
    (noZero : (0 : UInt8) ∉ name) (room : Room s 1) {own' : Ledger} {top' : Nat}
    (kept : StepKept own own' top top' fs op fs') :
    (volumeOf top fs).make type dir name =
      ((Snfs.fsMake type s dir name).1, volumeOf top' fs') := by
  obtain ⟨keeps, -, empty⟩ := guard
  have result := same.shown.make_result same.inv kind dir noZero room
  have after : afterCreate fs op = (Snfs.fsMake type s dir name).2 := by rw [afterCreate, call]
  have make := same.inv.make_volume type dir name
  rw [make] at result
  rw [same.volume] at make
  rcases same.inv.fsMake type kind dir noZero room with ⟨s', stop, searched⟩ | ⟨own₁, s', done, made⟩
  · rw [stop] at after result ⊢
    have none : ¬ (IsDir s dir ∧ CanAdd s dir name ∧ plainSearch s dir name = none) := by
      intro all
      rw [if_pos all] at result
      cases result
    rw [make, if_neg none]
    rw [shown.volume_same h keeps.1 keeps.2.1 next noWrite empty kept
      (by rw [after]; exact quiet.trans (searched.same.quiet top))]
  · rw [done] at after result ⊢
    have added : IsDir s dir ∧ CanAdd s dir name ∧ plainSearch s dir name = none := by
      by_contra none
      rw [if_neg none] at result
      cases result
    have entries := quiet.dirEntries made.dir_lt
      ((quiet.type dir).symm.trans made.creatable.isDir)
    rw [make, if_pos added, entries]
    rw [shown.volume_made h keeps.1 keeps.2.1 next noWrite empty kind same.inv quiet room
      (by rw [after]; exact made) ⟨own', kept.inv⟩]

/-- One call returns what it returns on the volume and leaves the volume's next state. -/
theorem Shown.step_volume (shown : Shown top fs) (h : Inv own top fs) {op : FsOp} {res : FsResult}
    (guard : KeepsShown fs op) (next : fsStep fs op = some (res, fs')) {own' : Ledger} {top' : Nat}
    (kept : StepKept own own' top top' fs op fs') :
    volumeStep (volumeOf top fs) op = some (res, volumeOf top' fs') := by
  obtain ⟨⟨fits, room, safe⟩, -, empty⟩ := id guard
  have same (none : createCall fs op = none)
      (noWrite : ∀ file offset data, op ≠ .write file offset data) :
      volumeOf top' fs' = volumeOf top fs := by
    refine shown.volume_same h fits room next noWrite empty kept ?_
    rw [afterCreate, none]
    exact .refl top fs
  cases op with
  | lookup path =>
      rw [same rfl (by simp), volumeStep, ← shown.dirs.lookup h]
      simp only [fsStep] at next
      cases next
      rfl
  | getAttrs file =>
      obtain ⟨⟨attrs, fs₁⟩, got, eq⟩ := Option.map_eq_some_iff.mp next
      cases eq
      rw [same rfl (by simp), volumeStep, ← shown.getAttrs h, got]
      rfl
  | read file offset count =>
      rw [same rfl (by simp), volumeStep, ← h.read_volume]
      simp only [fsStep] at next
      cases next
      rfl
  | write file offset data =>
      cases result : fsWrite fs file offset data with
      | mk ok fs₁ =>
          simp only [fsStep, result] at next
          cases next
          obtain ⟨_, kept'⟩ := h.step_write file offset fits room
          rw [result] at kept'
          obtain rfl := kept'.inv.top_unique kept.inv
          rw [volumeStep, shown.write h file offset fits room safe result]
  | create dir name =>
      have make := SameShown.make ⟨h, shown, rfl⟩ shown h guard next (by simp) (.inr rfl) rfl
        (.refl top fs) fits room kept
      simp only [fsStep] at next
      cases next
      rw [volumeStep, make]
      rfl
  | mkdir dir name =>
      have make := SameShown.make ⟨h, shown, rfl⟩ shown h guard next (by simp) (.inl rfl) rfl
        (.refl top fs) fits room kept
      simp only [fsStep] at next
      cases next
      rw [volumeStep, make]
      rfl
  | readdir dir maxentries =>
      rw [same rfl (by simp), volumeStep, ← shown.readdir h]
      simp only [fsStep] at next
      cases next
      rfl
  | copy srcJunk dirJunk srcpath tgtpath =>
      obtain ⟨⟨ok, fs₁⟩, done, eq⟩ := Option.map_eq_some_iff.mp next
      cases eq
      obtain ⟨found, shows⟩ := shown.copyPaths h srcJunk dirJunk srcpath tgtpath
      rw [volumeStep, Volume.copy, ← found]
      -- the creation in the call
      have make {src dir : Nat} {name : CString} {s : Fs}
          (paths : Snfs.copyPaths fs srcJunk dirJunk srcpath tgtpath = some (some (src, dir, name), s))
          (quiet : Quiet top fs s) :=
        (shows _ _ paths).make shown h guard next (by simp) (.inr rfl)
          (show createCall fs (.copy srcJunk dirJunk srcpath tgtpath) = some (.file, s, dir, name) by
            rw [createCall, paths]) quiet
          (fun zero => fits.2.1 (by
            obtain ⟨-, -, named⟩ := h.copyPaths paths
            obtain ⟨-, -, _, split⟩ := named src dir name rfl
            exact mem_of_splitLast split zero))
          ((room.mono (show 1 ≤ inodeNumBlks + 1 by decide)).congr quiet.numBlocks quiet.blkBmap) kept
      cases h.fsCopy_ends fits.2.1 room done with
      | noPaths paths _ _ =>
          rw [same (by rw [createCall, paths]) (by simp)]
          simp only [paths, Option.map_some]
      | notMade paths _ quiet create =>
          rw [paths]
          simp only [Option.map_some, make paths quiet]
          rw [show fsMake .file = fsCreate from rfl, create]
          rfl
      | @made src dir name s s' _ _ _ _ _ paths inv quiet hsrc isFile create made _ _ _ copy copied =>
          obtain ⟨absent, -, -⟩ := made.coherent_new inv
          have init : (s'.inodeTab top).size = 0 := by
            rw [made.tab_new]
            rfl
          simp only [copySource, paths, Option.mem_some_iff, forall_eq'] at empty
          have none : (volumeOf top fs).read src 0 (inodeNumBlks * blockSize) = some [] := by
            rw [← (shows _ _ paths).volume, Volume.read, nodes_file hsrc isFile, content_empty empty]
            rfl
          rw [← made.seen_other hsrc (made.ne_dir isFile)] at empty
          have true := (copyInode_empty absent (Nat.ne_of_lt hsrc) init empty).1
          rw [copy] at true
          obtain ⟨own₁, top₁, kept₁, new⟩ := h.step_new fits room next
          obtain rfl := kept₁.inv.top_unique kept.inv
          obtain rfl := kept.inv.top_unique copied.inv
          have node : (volumeOf (top + 1) fs').nodes top = some (.file []) := by
            have isNew : (fs'.inodeTab top).type = .file := by
              rw [← copied.inv.type_seen, (made.coherent_target inv hsrc ‹_› copied).2]
              rfl
            rw [nodes_file (Nat.lt_succ_self top) isNew,
              content_empty (new top (Nat.le_refl top) (Nat.lt_succ_self top)).2]
          rw [paths]
          simp only [Option.map_some, make paths quiet]
          rw [show fsMake .file = fsCreate from rfl, create]
          simp only [none, Option.getD_some, Volume.write_nil node, Option.map_some]
          exact congrArg (fun b => some (FsResult.copied b, volumeOf (top + 1) fs')) true.symm

/-- The caches of the file system show the volume. -/
def Shows (fs : Fs) (v : Volume) : Prop :=
  ∃ own top, Inv own top fs ∧ Shown top fs ∧ v = volumeOf top fs

private theorem shows_simulates : Simulates fsStep volumeStep Shows KeepsShown := by
  rintro fs v op ⟨own, top, h, shown, rfl⟩ guard
  cases next : fsStep fs op with
  | some pair =>
      obtain ⟨res, fs'⟩ := pair
      obtain ⟨own', top', kept, shown'⟩ := shown.step h guard next
      rw [shown.step_volume h guard next kept]
      exact .some ⟨rfl, own', top', kept.inv, shown', rfl⟩
  | none =>
      -- the call ends the process
      have none : volumeStep (volumeOf top fs) op = none := by
        cases op with
        | getAttrs file =>
            rw [volumeStep, ← shown.getAttrs h, Option.map_eq_none_iff.mp next]
            rfl
        | copy srcJunk dirJunk srcpath tgtpath =>
            obtain ⟨found, -⟩ := shown.copyPaths h srcJunk dirJunk srcpath tgtpath
            rw [volumeStep, Volume.copy, ← found]
            replace next := Option.map_eq_none_iff.mp next
            rw [fsCopy] at next
            split at next
            · rename_i paths
              rw [paths]
              rfl
            · cases next
            · split at next <;> cases next
        | _ => cases next
      rw [none]
      exact .none

theorem Formatted.shows {num : Nat} {clock : Nat → Int} (h : Formatted num clock fs)
    (data : 10 ≤ num) : Shows fs (.formatted num) := by
  have inv := h.inv data
  refine ⟨_, 2, inv, ⟨inv.filesCoherent_two, h.dirsFresh data⟩, ?_⟩
  refine Volume.ext (funext fun a => ?_) rfl ?_
  · simp only [Volume.formatted, Function.update_apply]
    rcases inv.node_cases a with ⟨out, node⟩ | ⟨isDir, node⟩ | ⟨lt, isFile, -⟩
    · rw [node, if_neg (by omega)]
    · have root : a = 1 := by
        have := (inv.isDir_iff.mp isDir).1
        have := inv.dir_ne_zero isDir
        omega
      subst root
      have empty : (fs.inodeTab 1).size = 0 := by
        rw [h.inodeTab, Function.update_self]
        rfl
      rw [node, dirEntries_zero empty, if_pos rfl]
    · obtain rfl | rfl : a = 0 ∨ a = 1 := by omega
      · rw [inv.inodes.zero] at isFile
        cases isFile
      · rw [inv.inodes.root] at isFile
        cases isFile
  · obtain ⟨k, rfl⟩ := Nat.exists_eq_add_of_le data
    have low : (List.range 10).filter (fun b => !bmapIsset fs.blkBmap b) = [] := by
      refine List.filter_eq_nil_iff.mpr fun b member => ?_
      rw [h.blkBmap]
      simpa using List.mem_range.mp member
    have high : ((List.range k).map (10 + ·)).filter (fun b => !bmapIsset fs.blkBmap b) =
        (List.range k).map (10 + ·) := by
      refine List.filter_eq_self.mpr fun b member => ?_
      obtain ⟨i, -, rfl⟩ := List.mem_map.mp member
      rw [h.blkBmap]
      simp
    simp only [Volume.formatted, volumeOf]
    rw [h.numBlocks, freeBits, List.range_add, List.filter_append, low, high]
    simp

section Runs
variable {num : Nat} {clock clock' : Nat → Int} {boot boot' s s' : Fs}
  {trace trace' : List (FsOp × FsResult)}

/-- Two runs of the same calls, each of which leaves the caches true, return the same, and so does
a call more, whatever the two clocks say. -/
theorem results_ignore_clock (data : 10 ≤ num) (unwrapped : num * blockSize < 2 ^ 32)
    (started : fsBoot num clock = some boot) (started' : fsBoot num clock' = some boot')
    (run : Run (Guarded (fun s e => KeepsShown s e.1) FsNext) boot trace s)
    (run' : Run (Guarded (fun s e => KeepsShown s e.1) FsNext) boot' trace' s')
    (same : trace.map Prod.fst = trace'.map Prod.fst) :
    trace = trace' ∧ ∀ op, KeepsShown s op → KeepsShown s' op →
      (fsStep s op).map Prod.fst = (fsStep s' op).map Prod.fst :=
  shows_simulates.same_results ((fsBoot_formatted data unwrapped started).shows data)
    ((fsBoot_formatted data unwrapped started').shows data) run run' same

end Runs

/-- The bytes of a file under a clock that stands still and under one that goes on. -/
theorem results_ignore_clock_one_file :
    ∃ trace s s', fsAfter 16 (fun _ => 1)
        [.mkdir 1 [100], .create 2 [102], .getAttrs 3, .write 3 0 [7], .read 3 0 5] =
          some (trace, s) ∧
      fsAfter 16 (fun k => k + 1)
        [.mkdir 1 [100], .create 2 [102], .getAttrs 3, .write 3 0 [7], .read 3 0 5] =
          some (trace, s') := by
  have boots (clock : Nat → Int) (facts : ((fsBoot 16 clock).bind fun boot =>
      (execute fsStep boot
          [.mkdir 1 [100], .create 2 [102], .getAttrs 3, .write 3 0 [7], .read 3 0 5]).map fun r =>
        (decide (Meets fsStep KeepsShown boot
            [.mkdir 1 [100], .create 2 [102], .getAttrs 3, .write 3 0 [7], .read 3 0 5]),
          r.1.map Prod.fst)) =
      some (true, [.mkdir 1 [100], .create 2 [102], .getAttrs 3, .write 3 0 [7], .read 3 0 5])) :
      ∃ boot trace s, fsBoot 16 clock = some boot ∧ fsAfter 16 clock
        [.mkdir 1 [100], .create 2 [102], .getAttrs 3, .write 3 0 [7], .read 3 0 5] =
          some (trace, s) ∧
        Run (Guarded (fun s e => KeepsShown s e.1) FsNext) boot trace s ∧ trace.map Prod.fst =
          [.mkdir 1 [100], .create 2 [102], .getAttrs 3, .write 3 0 [7], .read 3 0 5] := by
    obtain ⟨boot, started, facts⟩ := Option.bind_eq_some_iff.mp facts
    obtain ⟨⟨trace, s⟩, calls, facts⟩ := Option.map_eq_some_iff.mp facts
    simp only [Prod.mk.injEq] at facts
    exact ⟨boot, trace, s, started, by rw [fsAfter, started]; exact calls,
      run_of_execute calls (of_decide_eq_true facts.1), facts.2⟩
  obtain ⟨boot, trace, s, started, calls, run, ops⟩ := boots (fun _ => 1) (by decide +kernel)
  obtain ⟨boot', trace', s', started', calls', run', ops'⟩ :=
    boots (fun k => k + 1) (by decide +kernel)
  obtain ⟨rfl, -⟩ := results_ignore_clock (by decide) (by decide) started started' run run'
    (ops.trans ops'.symm)
  exact ⟨trace, s, s', calls, calls'⟩

/-- Whether the old or the new copy of a written inode is dropped depends on the clock. -/
theorem reported_size_depends_on_clock :
    ¬ ∀ num clock clock' trace trace' s s', 10 ≤ num →
      (∀ k, 0 < clock k ∧ clock k ≤ clock (k + 1)) →
      (∀ k, 0 < clock' k ∧ clock' k ≤ clock' (k + 1)) → FsRun num clock trace s →
      FsRun num clock' trace' s' → trace.map Prod.fst = trace'.map Prod.fst → trace = trace' := by
  intro same
  have facts : ((fsAfter 16 (fun _ => 1) [.create 1 [97], .create 1 [98], .create 1 [99],
        .write 2 0 [7], .getAttrs 3, .getAttrs 4, .getAttrs 2, .getAttrs 1, .getAttrs 2]).bind
      fun r => (fsAfter 16 (fun k => k + 1) [.create 1 [97], .create 1 [98], .create 1 [99],
        .write 2 0 [7], .getAttrs 3, .getAttrs 4, .getAttrs 2, .getAttrs 1, .getAttrs 2]).map
      fun r' => (decide (r.1.map Prod.fst = r'.1.map Prod.fst), decide (r.1 = r'.1))) =
      some (true, false) := by decide +kernel
  obtain ⟨⟨trace, s⟩, calls, facts⟩ := Option.bind_eq_some_iff.mp facts
  obtain ⟨⟨trace', s'⟩, calls', facts⟩ := Option.map_eq_some_iff.mp facts
  simp only [Prod.mk.injEq] at facts
  refine absurd (same 16 _ _ trace trace' s s' (by decide) (fun k => ⟨by decide, by decide⟩)
    (fun k => ⟨?_, ?_⟩) (FsRun.of_calls calls (by simp [FsOp.Fits]))
    (FsRun.of_calls calls' (by simp [FsOp.Fits])) (of_decide_eq_true facts.1))
    (of_decide_eq_false facts.2)
  · show (0 : Int) < k + 1
    omega
  · show (k : Int) + 1 ≤ (k + 1 : Nat) + 1
    omega

end Snfs
