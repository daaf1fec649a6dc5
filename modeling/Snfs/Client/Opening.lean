import Snfs.Client.Serving
import Snfs.Client.Splitting

/-!
The descriptor that `my_open` makes against a server with a tree of files. Its size is what
the last lookup that was answered stored: that of the file itself, or of the directory in
which the file is then made.
-/

namespace Snfs

variable {σ : Type} {remote : RemoteCall σ} {volume : σ → Volume} {v : Volume} {name : CString}

/-- The new descriptor has the size of the node that was opened and both offsets zero, and a read
through it ends. -/
structure Started (remote : RemoteCall σ) (volume : σ → Volume) (lib : Lib)
    (opened : Int × Lib × σ) : Prop where
  size : ∃ (a : Nat) (node : Node), opened.1 = a ∧ (volume opened.2.2).nodes a = some node ∧
    opened.2.1 = { lib with
      openFilesList := lib.openFilesList ++ [⟨a, node.size, 0, 0⟩]
      openFiles := lib.openFiles + 1 }
  read : queueNodeGet lib.openFilesList opened.1 = none → ∀ buffer numBytes, numBytes < 2 ^ 32 →
    ∃ fuel result, myRead remote fuel opened.2.1 opened.2.2 opened.1 buffer numBytes = some result

def OpensRight (v : Volume) (name : CString) (flags : Int) : Prop :=
  ∀ (σ : Type) (remote : RemoteCall σ) (volume : σ → Volume), Conforms remote volume →
    ∀ (lib : Lib) (s : σ), volume s = v → (myOpen remote lib s name flags).1 ≠ -1 →
      Started remote volume lib (myOpen remote lib s name flags)

/-- The directory that `my_open` looks up: as much is cut off the path as its longest component
takes up with a slash. -/
def dirPath (name : CString) : CString := name.take (name.length - ((lastName name).length + 1))

/-- The path leads nowhere, and a file can be made for it in a directory that is not empty. -/
structure MakesInFull (v : Volume) (name : CString) : Prop where
  missing : ∀ a node, ¬ v.Names (name.take maxFileNameSize) a node
  several : 1 < (components name).length
  parent : ∃ d entries, v.Names ((dirPath name).take maxFileNameSize) d (.dir entries) ∧
    entries ≠ [] ∧ 16 * (entries.length + 1) < 2 ^ 32 ∧ (v.make .file d (lastName name)).1.isSome

private theorem length_component_of_several {path c : CString} (rooted : path.head? = some slash)
    (several : 1 < (components path).length) (member : c ∈ components path) :
    c.length + 3 ≤ path.length := by
  obtain ⟨tail, rfl⟩ := List.head?_eq_some_iff.mp rooted
  rw [components_cons_slash, components_strtok] at several member
  cases token : strtok tail with
  | none =>
      rw [token] at member
      cases member
  | some next =>
      obtain ⟨nonempty, -, more⟩ := strtok_parts token
      have pos := List.length_pos_iff.mpr nonempty
      rw [token] at several member
      simp only [List.length_cons, List.mem_cons] at several member
      obtain ⟨d, inside⟩ := List.exists_mem_of_length_pos (l := components next.2) (by omega)
      have other := (component_within inside).length_le
      have dpos : 0 < d.length := List.length_pos_iff.mpr fun empty =>
        components_nonempty next.2 (empty ▸ inside)
      have rest := more (List.length_pos_iff.mp (by omega))
      rw [List.length_cons]
      rcases member with rfl | later
      · omega
      · have := (component_within later).length_le
        omega

/-- More than the slash of a path keeps a component. -/
theorem PathRules.components_take (rules : PathRules name) {n : Nat} (two : 2 ≤ n)
    (long : 2 ≤ name.length) : components (name.take n) ≠ [] := by
  intro bare
  obtain ⟨tail, rfl⟩ := List.head?_eq_some_iff.mp rules.rooted
  cases tail with
  | nil => simp at long
  | cons c tail =>
      obtain ⟨k, rfl⟩ : ∃ k, n = k + 2 := ⟨n - 2, by omega⟩
      have here : c = slash := eq_slash_of_no_component bare (by simp)
      exact rules.noDouble ⟨[], tail, by rw [here]; rfl⟩

theorem PathRules.two_le_length (rules : PathRules name) (named : components name ≠ []) :
    2 ≤ name.length := by
  obtain ⟨c, member⟩ := List.exists_mem_of_ne_nil _ named
  have pos : 0 < c.length := List.length_pos_iff.mpr fun empty =>
    components_nonempty name (empty ▸ member)
  obtain ⟨tail, rfl⟩ := List.head?_eq_some_iff.mp rules.rooted
  rw [components_cons_slash] at member
  have := (component_within member).length_le
  rw [List.length_cons]
  omega

theorem PathRules.components_dirPath (rules : PathRules name)
    (several : 1 < (components name).length) :
    components ((dirPath name).take maxFileNameSize) ≠ [] := by
  have bound : maxFileNameSize = 14 := rfl
  have long : (lastName name).length + 3 ≤ name.length := by
    have three : 3 ≤ name.length := by
      obtain ⟨c, member⟩ := List.exists_mem_of_length_pos (l := components name) (by omega)
      exact Nat.le_trans (Nat.le_add_left 3 _)
        (length_component_of_several rules.rooted several member)
    have le : (lastName name).length ≤ name.length - 3 :=
      (Buf.length_foldl_overlay _ _).mpr ⟨Nat.zero_le _, fun c member => by
        have := length_component_of_several rules.rooted several member
        omega⟩
    omega
  rw [dirPath, List.take_take]
  exact rules.components_take (by omega) (by omega)

theorem queueNodeGet_enqueue {lib : Lib} {a : Int} {size : Nat}
    (none : queueNodeGet lib.openFilesList a = none) :
    queueNodeGet (lib.enqueue a size).openFilesList a = some ⟨a, size, 0, 0⟩ := by
  rw [queueNodeGet] at none
  rw [queueNodeGet, Lib.enqueue, List.find?_append, none, Option.none_or,
    List.find?_cons_of_pos (by simp)]

/-- A read ends when the descriptor has the size of its node. -/
theorem read_of_enqueue (conforms : Conforms remote volume) {lib : Lib} {s : σ}
    (fits : (volume s).Fits) (initted : lib.libInitted = true) {a : Nat} {node : Node}
    (isNode : (volume s).nodes a = some node)
    (none : queueNodeGet lib.openFilesList a = none) (buffer : CallerMemory) {numBytes : Nat}
    (asked : numBytes < 2 ^ 32) :
    ∃ fuel result, myRead remote fuel (lib.enqueue a node.size) s a buffer numBytes =
      some result := by
  have found : queueNodeGet (lib.enqueue a node.size).openFilesList a = some ⟨a, node.size, 0, 0⟩ :=
    queueNodeGet_enqueue none
  have initted' : (lib.enqueue a node.size).libInitted = true := initted
  have small := fits.size a node isNode
  by_cases empty : node.size = 0
  · refine ⟨0, (0, buffer, lib.enqueue a node.size, s), ?_⟩
    rw [myRead, initted', found]
    simp [empty, intWord]
  · have before : intWord 0 < node.size := Nat.pos_of_ne_zero empty
    cases node with
    | file bytes =>
        obtain ⟨fuel, buffer', s', ends, -⟩ := myRead_ends (conforms.servesFile fits isNode) initted'
          found (show IsInt 0 from ⟨by decide, by decide⟩) rfl small before
          (show intWord 0 + numBytes < 2 ^ 32 by simpa [intWord] using asked) buffer rfl
        exact ⟨fuel, _, ends⟩
    | dir entries =>
        refine ⟨1, ?_⟩
        rw [myRead_eq initted' found before small asked buffer s rfl]
        generalize (if intWord 0 + numBytes < 2 ^ 32 then
          FileDesc.available ⟨a, (Node.dir entries).size, 0, 0⟩ numBytes else numBytes) = n
        cases n with
        | zero => exact ⟨_, rfl⟩
        | succ n =>
            obtain ⟨s', failed⟩ := conforms.read_dir fits isNode (intWord 0)
              (min (min (n + 1) maxReadData) (n + 1))
            rw [readChunks]
            simp only [failed]
            exact ⟨_, rfl⟩

private theorem ready_of_opened {lib : Lib} {s : σ} {flags : Int}
    (opened : (myOpen remote lib s name flags).1 ≠ -1) :
    lib.libInitted = true ∧ ¬ maxOpenFiles ≤ lib.openFiles ∧ myparse name = 0 := by
  rw [myOpen] at opened
  split at opened
  · exact absurd rfl opened
  · rename_i initted
    split at opened
    · exact absurd rfl opened
    · rename_i room
      split at opened
      · exact absurd rfl opened
      · rename_i accepted
        exact ⟨by simpa using initted, room, not_not.mp accepted⟩

theorem rules_of_accepted (accepted : myparse name = 0) : PathRules name := by
  have short : name.length < maxPathNameSize := by
    by_contra long
    rw [myparse, if_pos (.inl (Nat.not_lt.mp long))] at accepted
    cases accepted
  by_contra breaks
  rw [myparse_eq short, if_neg breaks] at accepted
  cases accepted

def parentHandle : Except Int (Int × Nat) → Int
  | .ok (dir, _) => dir
  | .error dir => dir

def parentSize : Except Int (Int × Nat) → Nat
  | .ok (_, fsize) => fsize
  | .error _ => 0

section Open
variable {lib : Lib} {s s₁ s₂ : σ} {flags : Int} (initted : lib.libInitted = true)
  (room : ¬ maxOpenFiles ≤ lib.openFiles) (accepted : myparse name = 0)
include initted room accepted

theorem myOpen_found {fh : Int} {fsize : Nat}
    (found : remote.lookup s name = (.ok (fh, fsize), s₁)) :
    myOpen remote lib s name flags = (fh, lib.enqueue fh fsize, s₁) := by
  simp only [myOpen, initted, room, accepted, found, Bool.not_true, Bool.false_eq_true, if_false,
    ne_eq, not_true_eq_false]

theorem myOpen_missing {word : Int} (failed : remote.lookup s name = (.error word, s₁))
    {parent : Except Int (Int × Nat)}
    (looked : remote.lookup s₁ (splitName name).2.2 = (parent, s₂)) :
    myOpen remote lib s name flags =
      if flags = oCreate then
        match remote.create s₂ (if (splitName name).1 = 1 then 1 else parentHandle parent)
          (splitName name).2.1 with
        | (some fh, s) => (fh, lib.enqueue fh (parentSize parent), s)
        | (none, s) => (-1, lib, s)
      else (-1, lib, s₂) := by
  simp only [myOpen, initted, room, accepted, failed, looked, Bool.not_true, Bool.false_eq_true,
    if_false, ne_eq, not_true_eq_false]
  cases parent <;> rfl

end Open

/-- A path that leads nowhere: a file is made in what the second lookup has stored, or nothing. -/
theorem myOpen_missing_cases (conforms : Conforms remote volume) {lib : Lib} {s s₁ : σ}
    (flags : Int) (fits : (volume s).Fits) (initted : lib.libInitted = true)
    (room : ¬ maxOpenFiles ≤ lib.openFiles) (accepted : myparse name = 0)
    (same : volume s₁ = volume s) {word : Int}
    (failed : remote.lookup s name = (.error word, s₁)) :
    (∃ s', volume s' = volume s ∧ myOpen remote lib s name flags = (-1, lib, s')) ∨
    ∃ parent a s', flags = oCreate ∧ (volume s').Fits ∧
      ((∃ (d : Nat) (node : Node), (volume s).nodes d = some node ∧
          (components ((splitName name).2.2.take maxFileNameSize) ≠ [] →
            (volume s).Names ((splitName name).2.2.take maxFileNameSize) d node) ∧
          parent = .ok ((d : Int), node.size)) ∨ ∃ word, parent = .error word) ∧
      (volume s).make .file (asInodeid (if (splitName name).1 = 1 then 1 else parentHandle parent))
        ((splitName name).2.1.take (maxFileNameSize - 1)) = (some a, volume s') ∧
      myOpen remote lib s name flags = ((a : Int), lib.enqueue a (parentSize parent), s') := by
  have fits₁ : (volume s₁).Fits := same ▸ fits
  obtain ⟨s₂, same₂, answered⟩ := conforms.lookup_cases fits₁ (splitName name).2.2
  obtain ⟨parent, looked, stored⟩ : ∃ parent,
      remote.lookup s₁ (splitName name).2.2 = (parent, s₂) ∧
      ((∃ (d : Nat) (node : Node), (volume s).nodes d = some node ∧
          (components ((splitName name).2.2.take maxFileNameSize) ≠ [] →
            (volume s).Names ((splitName name).2.2.take maxFileNameSize) d node) ∧
          parent = .ok ((d : Int), node.size)) ∨ ∃ word, parent = .error word) := by
    rw [same] at answered
    rcases answered with ⟨d, node, isNode, leads, here⟩ | ⟨-, word, here⟩
    · exact ⟨_, here, .inl ⟨d, node, isNode, leads, rfl⟩⟩
    · exact ⟨_, here, .inr ⟨word, rfl⟩⟩
  have v₂ := same₂.trans same
  have fits₂ : (volume s₂).Fits := v₂ ▸ fits
  have eq := @myOpen_missing _ remote _ lib s s₁ s₂ flags initted room accepted word failed _ looked
  by_cases create : flags = oCreate
  · rw [if_pos create] at eq
    obtain ⟨s₃, fits₃, ⟨a, made, created⟩ | ⟨same₃, none⟩⟩ := conforms.create_cases fits₂
      (if (splitName name).1 = 1 then 1 else parentHandle parent) (splitName name).2.1
    · rw [created] at eq
      rw [v₂] at made
      exact .inr ⟨parent, a, s₃, create, fits₃, stored, made, eq⟩
    · rw [none] at eq
      exact .inl ⟨s₃, same₃.trans v₂, eq⟩
  · rw [if_neg create] at eq
    exact .inl ⟨s₂, v₂, eq⟩

private theorem splitName_few (few : ¬ 1 < (components name).length) :
    (splitName name).1 = (components name).length ∧ (splitName name).2.2 = name := by
  have count : (splitTokens name.length name 0 .zero).1 = (components name).length := by
    rw [splitTokens_eq (Nat.le_refl _), Nat.zero_add]
  simp only [splitName, count, if_neg few, true_and]

private theorem splitName_root (rules : PathRules name) (bare : components name = []) :
    (splitName name).2.1 = [] := by
  obtain ⟨tail, rfl⟩ := List.head?_eq_some_iff.mp rules.rooted
  cases tail with
  | nil => decide
  | cons c tail =>
      have here : c = slash := eq_slash_of_no_component bare (by simp)
      exact absurd ⟨[], tail, by rw [here]; rfl⟩ rules.noDouble

private theorem started_of_made (conforms : Conforms remote volume) {lib : Lib}
    (initted : lib.libInitted = true) {s : σ} (fits : (volume s).Fits) {d a : Nat} {file : CString}
    (made : v.make .file d file = (some a, volume s)) :
    Started remote volume lib (a, lib.enqueue a 0, s) := by
  obtain ⟨entries, -, rfl, -, -, after⟩ := Volume.make_some made
  have node : (volume s).nodes v.nextId = some (.file []) := by
    rw [after, Volume.nodes_addEntry, if_pos rfl]
    rfl
  exact ⟨⟨v.nextId, .file [], rfl, node, rfl⟩, fun none buffer numBytes asked =>
    read_of_enqueue conforms fits initted node none buffer asked⟩

private theorem room_of_made {d a : Nat} {file : CString} {v' : Volume} (fits : v.Fits)
    (fits' : v'.Fits)
    (made : v.make .file d file = (some a, v')) :
    ∃ entries, v.nodes d = some (.dir entries) ∧ 16 * (entries.length + 1) < 2 ^ 32 := by
  obtain ⟨entries, isDir, -, -, -, rfl⟩ := Volume.make_some made
  have old : d ≠ v.nextId := by
    rintro rfl
    rw [fits.fresh v.nextId (Nat.le_refl _)] at isDir
    cases isDir
  have after : (v.addEntry .file d entries file).nodes d =
      some (.dir (entries ++ [(file, v.nextId)])) := by
    rw [Volume.nodes_addEntry, if_neg old, if_pos rfl]
  have small := fits'.size d _ after
  rw [Node.size, List.length_append, List.length_singleton] at small
  exact ⟨entries, isDir, small⟩

/-- The size that is left is zero unless the file is made in a directory that is not empty. -/
theorem parentSize_of_made (fits : v.Fits) {v' : Volume} (fits' : v'.Fits) (rules : PathRules name)
    (noZero : (0 : UInt8) ∉ name)
    (missing : ∀ a node, ¬ v.Names (name.take maxFileNameSize) a node) {d a : Nat} {node : Node}
    (isNode : v.nodes d = some node)
    (leads : components ((splitName name).2.2.take maxFileNameSize) ≠ [] →
      v.Names ((splitName name).2.2.take maxFileNameSize) d node)
    (made : v.make .file (asInodeid (if (splitName name).1 = 1 then 1 else (d : Int)))
      ((splitName name).2.1.take (maxFileNameSize - 1)) = (some a, v'))
    (full : ¬ MakesInFull v name) : node.size = 0 := by
  by_cases several : 1 < (components name).length
  · have split := rules.splitName_many noZero several
    have name13 := rules.lastName_length
    have number := asInodeid_natCast (fits.number d node isNode)
    rw [split, if_neg (Nat.ne_of_gt several), number] at made
    rw [split] at leads
    rw [List.take_of_length_le (show (lastName name).length ≤ maxFileNameSize - 1 from name13)] at made
    obtain ⟨entries, isDir, room⟩ := room_of_made fits fits' made
    obtain rfl : node = .dir entries := Option.some.inj (isNode.symm.trans isDir)
    by_contra some
    refine full ⟨missing, several, d, entries, leads (rules.components_dirPath several), ?_, room, ?_⟩
    · rintro rfl
      exact some rfl
    · rw [made]
      rfl
  · obtain ⟨count, same⟩ := splitName_few several
    by_cases bare : components name = []
    · obtain ⟨-, -, -, -, named, -⟩ := Volume.make_some made
      exact absurd (by rw [splitName_root rules bare]; rfl) named
    · rw [same] at leads
      exact absurd (leads (rules.components_take (by decide) (rules.two_le_length bare)))
        (missing d node)

private theorem open_of_makes (fits : v.Fits) (rules : PathRules name) (noZero : (0 : UInt8) ∉ name)
    (several : 1 < (components name).length) (named : components name ≠ [])
    (accepted : myparse name = 0)
    (missing : ∀ a node, ¬ v.Names (name.take maxFileNameSize) a node) {d a : Nat}
    {entries : List (CString × Nat)} {v' : Volume}
    (parent : v.Names ((dirPath name).take maxFileNameSize) d (.dir entries))
    (room : 16 * (entries.length + 1) < 2 ^ 32)
    (made : v.make .file d (lastName name) = (some a, v')) :
    myOpen volumeServer myInitLib v name oCreate =
      ((a : Int), myInitLib.enqueue a (16 * entries.length), v') := by
  have split := rules.splitName_many noZero several
  obtain ⟨s₁, word, same, failed⟩ := volumeServer_conforms.lookup_of_missing (s := v) fits
    (rules.components_take (by decide) (rules.two_le_length named)) missing
  obtain ⟨s₂, same₂, looked⟩ := volumeServer_conforms.lookup_of_names (s := v) fits parent
  obtain rfl : v = s₁ := same.symm
  obtain rfl : v = s₂ := same₂.symm
  have number := asInodeid_natCast (fits.number d _ parent.node)
  have short : (lastName name).take (maxFileNameSize - 1) = lastName name :=
    List.take_of_length_le rules.lastName_length
  have small : a < 64 := by
    obtain ⟨-, -, -, small, -⟩ := Volume.make_some made
    exact small
  have created : volumeServer.create v d (lastName name) = (some (a : Int), v') := by
    simp only [RemoteCall.create, volumeServer, number, parent.node, room, short, made, if_true,
      asInt_of_lt (show a < 2 ^ 31 by omega)]
  have dir : (splitName name).2.2 = dirPath name := by
    rw [split]
    rfl
  rw [← dir] at looked
  rw [myOpen_missing rfl (by decide) accepted failed looked, if_pos rfl, split,
    if_neg (Nat.ne_of_gt several)]
  simp only [parentHandle, parentSize, created, Node.size]

/-- In a directory with entries, the server above shows the wrong size. -/
theorem MakesInFull.not_opensRight (full : MakesInFull v name) (fits : v.Fits)
    (noZero : (0 : UInt8) ∉ name) (accepted : myparse name = 0) : ¬ OpensRight v name oCreate := by
  intro right
  obtain ⟨d, entries, parent, some, room, makes⟩ := full.parent
  obtain ⟨a, v', made⟩ : ∃ a v', v.make .file d (lastName name) = (Option.some a, v') := by
    rcases makes' : v.make .file d (lastName name) with ⟨_ | a, v'⟩
    · rw [makes'] at makes
      cases makes
    · exact ⟨a, v', rfl⟩
  have named : components name ≠ [] := List.length_pos_iff.mp (by have := full.several; omega)
  have opened := open_of_makes fits (rules_of_accepted accepted) noZero full.several named accepted
    full.missing parent room made
  have started := right Volume volumeServer id volumeServer_conforms myInitLib v rfl
    (by rw [opened]; exact fun same => by have := Int.natCast_nonneg a; omega)
  rw [opened] at started
  obtain ⟨b, node, here, isNode, lists⟩ := started.size
  obtain ⟨entries', isDir, rfl, -, -, rfl⟩ := Volume.make_some made
  obtain rfl : v.nextId = b := Int.natCast_inj.mp here
  dsimp only [id] at isNode
  rw [Volume.nodes_addEntry, if_pos rfl] at isNode
  simp only [Lib.enqueue, myInitLib, Lib.mk.injEq, List.nil_append, List.cons.injEq,
    FileDesc.mk.injEq, and_true, true_and] at lists
  rw [← Option.some.inj isNode] at lists
  have empty : entries.length = 0 := by
    have zero : (Volume.emptyNode .file).size = 0 := rfl
    omega
  exact some (List.length_eq_zero_iff.mp empty)

private theorem started_of_missing (conforms : Conforms remote volume) {lib : Lib} {s s₁ : σ}
    {flags : Int}
    (fits : (volume s).Fits) (noZero : (0 : UInt8) ∉ name) (accepted : myparse name = 0)
    (initted : lib.libInitted = true) (room : ¬ maxOpenFiles ≤ lib.openFiles)
    (same : volume s₁ = volume s)
    (missing : ∀ a node, ¬ (volume s).Names (name.take maxFileNameSize) a node) {word : Int}
    (failed : remote.lookup s name = (.error word, s₁))
    (full : ¬ (flags = oCreate ∧ MakesInFull (volume s) name))
    (opened : (myOpen remote lib s name flags).1 ≠ -1) :
    Started remote volume lib (myOpen remote lib s name flags) := by
  rcases myOpen_missing_cases conforms flags fits initted room accepted same failed with
    ⟨s', -, none⟩ | ⟨parent, a, s', create, fits', stored, made, eq⟩
  · exact absurd (by rw [none]) opened
  · have size : parentSize parent = 0 := by
      rcases stored with ⟨d, node, isNode, leads, rfl⟩ | ⟨word, rfl⟩
      · exact parentSize_of_made fits fits' (rules_of_accepted accepted) noZero missing isNode leads
          made fun full' => full ⟨create, full'⟩
      · rfl
    rw [eq, size]
    exact started_of_made conforms initted fits' made

/-- A descriptor begins with the size of its file unless the file is made in a directory with
entries. -/
theorem my_open_starts_right_iff (fits : v.Fits) (noZero : (0 : UInt8) ∉ name)
    (accepted : myparse name = 0) (flags : Int) :
    OpensRight v name flags ↔ ¬ (flags = oCreate ∧ MakesInFull v name) := by
  constructor
  · rintro right ⟨rfl, full⟩
    exact full.not_opensRight fits noZero accepted right
  · rintro full σ remote volume conforms lib s rfl opened
    obtain ⟨initted, room, -⟩ := ready_of_opened opened
    obtain ⟨s₁, same, ⟨a, node, isNode, -, found⟩ | ⟨missing, word, failed⟩⟩ :=
      conforms.lookup_cases fits name
    · rw [myOpen_found initted room accepted found]
      rw [← same] at isNode fits
      exact ⟨⟨a, node, rfl, isNode, rfl⟩, fun none buffer numBytes asked =>
        read_of_enqueue conforms fits initted isNode none buffer asked⟩
    · exact started_of_missing conforms fits noZero accepted initted room same missing failed full
        opened

def fileInDir : Volume where
  nodes a := match a with
    | 1 => some (.dir [([100], 2)])
    | 2 => some (.dir [([120], 3)])
    | 3 => some (.file [])
    | _ => none
  nextId := 4
  free := 100

theorem fileInDir_fits : fileInDir.Fits := by
  refine ⟨fun a node isNode => ?_, fun a node isNode => ?_, fun a later => ?_⟩
  · rcases a with _ | _ | _ | _ | a <;> first | omega | cases isNode
  · rcases a with _ | _ | _ | _ | a <;> cases isNode <;> decide
  · have four : 4 ≤ a := later
    obtain ⟨k, rfl⟩ := Nat.exists_eq_add_of_le' four
    rfl

theorem my_open_starts_right_iff_file : OpensRight fileInDir [47, 100, 47, 120] oCreate :=
  (my_open_starts_right_iff fileInDir_fits (by decide) (by decide) oCreate).mpr fun full =>
    full.2.missing 3 (.file []) ⟨by decide, rfl⟩

/-- The new file `"/d/y"` gets the size of the directory. -/
theorem open_takes_size_of_directory :
    fileInDir.Fits ∧ myparse [47, 100, 47, 121] = 0 ∧
      (myOpen volumeServer myInitLib fileInDir [47, 100, 47, 121] oCreate).2.1.openFilesList =
        [⟨4, 16, 0, 0⟩] ∧
      ¬ OpensRight fileInDir [47, 100, 47, 121] oCreate := by
  refine ⟨fileInDir_fits, by decide, by decide, fun right => ?_⟩
  have started := right Volume volumeServer id volumeServer_conforms myInitLib fileInDir rfl (by decide)
  obtain ⟨a, node, here, isNode, lists⟩ := started.size
  obtain rfl : 4 = a := Int.natCast_inj.mp here
  have empty : node.size = 0 := by
    obtain rfl : Node.file [] = node := Option.some.inj isNode
    rfl
  have sizes := congrArg (fun lib => lib.openFilesList.map FileDesc.size) lists
  rw [empty] at sizes
  exact absurd sizes (by decide)

end Snfs
