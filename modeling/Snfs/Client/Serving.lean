import Snfs.Client.Reading
import Snfs.Fs.Volume

/-!
A server as the library sees it: it answers from a volume. A path leads to a node as far
as the message for it goes, a handle is the number of a node, and a file can be written
or made, or not.
-/

namespace Snfs

variable {σ : Type} {remote : RemoteCall σ} {volume : σ → Volume}

def Node.size : Node → Nat
  | .dir entries => 16 * entries.length
  | .file bytes => bytes.length

def asInodeid (fhandle : Int) : Nat := intWord fhandle % 2 ^ 16

theorem asInodeid_natCast {a : Nat} (small : a < 2 ^ 16) : asInodeid a = a := by
  rw [asInodeid, intWord]
  omega

namespace Volume

structure Names (v : Volume) (path : CString) (a : Nat) (node : Node) : Prop where
  found : v.lookup path = (1, some a)
  node : v.nodes a = some node

/-- The numbers of nodes are values of `inodeid_t` and their sizes of `unsigned`, and those from the
next one on are free. -/
structure Fits (v : Volume) : Prop where
  number : ∀ a node, v.nodes a = some node → a < 2 ^ 16
  size : ∀ a node, v.nodes a = some node → node.size < 2 ^ 32
  fresh : ∀ a, v.nextId ≤ a → v.nodes a = none

variable {v v' : Volume}

theorem Names.unique {path : CString} {a b : Nat} {node node' : Node} (one : v.Names path a node)
    (other : v.Names path b node') : a = b ∧ node = node' := by
  have same := one.found.symm.trans other.found
  simp only [Prod.mk.injEq, Option.some.injEq, true_and] at same
  have nodes := one.node.symm.trans (same ▸ other.node)
  exact ⟨same, Option.some.inj nodes⟩

theorem Names.component {path : CString} {a : Nat} {node : Node} (names : v.Names path a node) :
    components path ≠ [] := by
  intro bare
  have found := names.found
  rw [lookup, bare] at found
  split at found <;> simp [lookupFrom] at found

/-- What is made is empty, has the next number and is one more entry of its directory. -/
theorem make_some {type : Itype} {dir a : Nat} {name : CString}
    (made : v.make type dir name = (some a, v')) :
    ∃ entries, v.nodes dir = some (.dir entries) ∧ a = v.nextId ∧ a < itabSize ∧ name ≠ [] ∧
      v' = v.addEntry type dir entries name := by
  rw [make] at made
  split at made
  · rename_i entries node
    split at made
    · cases made
    · rename_i named
      split at made
      · cases made
      · split at made
        · cases made
        · rename_i room
          obtain ⟨rfl, rfl⟩ : v.nextId = a ∧ v.addEntry type dir entries name = v' := by
            simpa using made
          exact ⟨entries, node, rfl, by omega, fun empty => named (.inl empty), rfl⟩
  · cases made

theorem nodes_addEntry (v : Volume) (type : Itype) (dir : Nat) (entries : List (CString × Nat))
    (name : CString) (b : Nat) :
    (v.addEntry type dir entries name).nodes b = if b = v.nextId then some (emptyNode type)
      else if b = dir then some (.dir (entries ++ [(name, v.nextId)])) else v.nodes b := by
  simp only [addEntry, put, Function.update_apply]

theorem nodes_addEntry_ne_none {b : Nat} (some : v.nodes b ≠ none) (type : Itype) (dir : Nat)
    (entries : List (CString × Nat)) (name : CString) :
    (v.addEntry type dir entries name).nodes b ≠ none := by
  rw [nodes_addEntry]
  by_cases new : b = v.nextId
  · rw [if_pos new]
    exact Option.some_ne_none _
  · rw [if_neg new]
    by_cases here : b = dir
    · rw [if_pos here]
      exact Option.some_ne_none _
    · rw [if_neg here]
      exact some

theorem nodes_put_ne_none {b : Nat} (some : v.nodes b ≠ none) (a : Nat) (node : Node) (k : Nat) :
    (v.put a node k).nodes b ≠ none := by
  simp only [put, Function.update_apply]
  by_cases here : b = a
  · rw [if_pos here]
    exact Option.some_ne_none _
  · rw [if_neg here]
    exact some

theorem Fits.make (fits : v.Fits) {type : Itype} {dir a : Nat} {name : CString}
    {entries : List (CString × Nat)} (isDir : v.nodes dir = some (.dir entries))
    (room : 16 * (entries.length + 1) < 2 ^ 32) (made : v.make type dir name = (some a, v')) :
    v'.Fits := by
  obtain ⟨entries', isDir', rfl, small, -, rfl⟩ := make_some made
  obtain rfl : entries' = entries := by
    rw [isDir] at isDir'
    simpa using isDir'.symm
  have bound : itabSize = 64 := rfl
  have empty : (emptyNode type).size = 0 := by cases type <;> rfl
  have next : (v.addEntry type dir entries' name).nextId = v.nextId + 1 := rfl
  refine ⟨fun b node isNode => ?_, fun b node isNode => ?_, fun b later => ?_⟩
  · rw [nodes_addEntry] at isNode
    split at isNode
    · omega
    · split at isNode
      · rename_i here
        exact here ▸ fits.number dir _ isDir
      · exact fits.number b node isNode
  · rw [nodes_addEntry] at isNode
    split at isNode
    · rw [← Option.some.inj isNode]
      omega
    · split at isNode
      · rw [← Option.some.inj isNode, Node.size, List.length_append, List.length_singleton]
        exact room
      · exact fits.size b node isNode
  · rw [next] at later
    have taken : dir ≠ b := by
      rintro rfl
      rw [fits.fresh dir (by omega)] at isDir
      cases isDir
    rw [nodes_addEntry, if_neg (by omega), if_neg (Ne.symm taken)]
    exact fits.fresh b (by omega)

theorem Fits.put (fits : v.Fits) {a k : Nat} {node node' : Node} (isNode : v.nodes a = some node)
    (small : node'.size < 2 ^ 32) : (v.put a node' k).Fits := by
  have nodes (b : Nat) : (v.put a node' k).nodes b = if b = a then some node' else v.nodes b := by
    simp only [Volume.put, Function.update_apply]
  refine ⟨fun b other isNode' => ?_, fun b other isNode' => ?_, fun b later => ?_⟩
  · rw [nodes] at isNode'
    split at isNode'
    · rename_i here
      exact here ▸ fits.number a node isNode
    · exact fits.number b other isNode'
  · rw [nodes] at isNode'
    split at isNode'
    · exact Option.some.inj isNode' ▸ small
    · exact fits.size b other isNode'
  · have taken : a ≠ b := by
      rintro rfl
      rw [fits.fresh a later] at isNode
      cases isNode
    rw [nodes, if_neg (Ne.symm taken)]
    exact fits.fresh b later

end Volume

/-- An answer that fits a volume, and the volume after it. A path without a name may lead to any
node, and a write or a creation may fail. -/
inductive Volume.Answers (v : Volume) : Call → Except Nat Reply → Volume → Prop
  | found {path : CString} {a : Nat} {node : Node} :
      v.Names (path.take maxFileNameSize) a node →
      v.Answers (.lookup path) (.ok (.lookup a node.size)) v
  | unnamed {path : CString} {a : Nat} {node : Node} :
      components (path.take maxFileNameSize) = [] → v.nodes a = some node →
      v.Answers (.lookup path) (.ok (.lookup a node.size)) v
  | missing {path : CString} {word : Nat} :
      (∀ a node, ¬ v.Names (path.take maxFileNameSize) a node) →
      v.Answers (.lookup path) (.error word) v
  | read {fhandle : Int} {offset count : Nat} {bytes more : List UInt8} :
      v.nodes (asInodeid fhandle) = some (.file bytes) →
      (piece bytes offset count ++ more).length = count →
      v.Answers (.read fhandle offset count)
        (.ok (.read (piece bytes offset count ++ more) (piece bytes offset count).length)) v
  | unread {fhandle : Int} {offset count word : Nat} :
      (∀ bytes, v.nodes (asInodeid fhandle) ≠ some (.file bytes)) →
      v.Answers (.read fhandle offset count) (.error word) v
  | written {fhandle : Int} {offset blocks : Nat} {bytes data : List UInt8} :
      v.nodes (asInodeid fhandle) = some (.file bytes) →
      v.Answers (.write fhandle offset data.length data)
        (.ok (.write (overwrite bytes (min offset bytes.length) data).length))
        (v.put (asInodeid fhandle) (.file (overwrite bytes (min offset bytes.length) data)) blocks)
  | unwritten {fhandle : Int} {offset count word free : Nat} {data : List UInt8} :
      v.Answers (.write fhandle offset count data) (.error word) { v with free := free }
  | created {dir : Int} {name : CString} {a : Nat} {v' : Volume} :
      v.make .file (asInodeid dir) (name.take (maxFileNameSize - 1)) = (some a, v') →
      v.Answers (.create dir name) (.ok (.create a)) v'
  | uncreated {dir : Int} {name : CString} {word : Nat} :
      v.Answers (.create dir name) (.error word) v

def Call.OfFiles : Call → Prop
  | .lookup _ | .read _ _ _ | .write _ _ _ _ | .create _ _ => True
  | _ => False

/-- What lies behind the stubs has a volume, which every answer fits. -/
def Conforms (remote : RemoteCall σ) (volume : σ → Volume) : Prop :=
  ∀ s call, call.OfFiles → (volume s).Fits →
    (volume s).Answers call (remote s call).1 (volume (remote s call).2) ∧
      (volume (remote s call).2).Fits

namespace Conforms

variable {s : σ}

theorem lookup_cases (conforms : Conforms remote volume) (fits : (volume s).Fits) (path : CString) :
    ∃ s', volume s' = volume s ∧
      ((∃ a node, (volume s).nodes a = some node ∧
          (components (path.take maxFileNameSize) ≠ [] →
            (volume s).Names (path.take maxFileNameSize) a node) ∧
          remote.lookup s path = (.ok (a, node.size), s')) ∨
        ((∀ a node, ¬ (volume s).Names (path.take maxFileNameSize) a node) ∧
          ∃ word, remote.lookup s path = (.error word, s'))) := by
  obtain ⟨answered, -⟩ := conforms s (.lookup path) trivial fits
  simp only [RemoteCall.lookup]
  generalize remote s (.lookup path) = sent at answered ⊢
  obtain ⟨answer, s'⟩ := sent
  dsimp only at answered ⊢
  generalize after : volume s' = w at answered
  have handle {a : Nat} {node : Node} (isNode : (volume s).nodes a = some node) :
      asInt a = (a : Int) := asInt_of_lt (by have := fits.number a node isNode; omega)
  cases answered with
  | found names =>
      refine ⟨s', after, .inl ⟨_, _, names.node, fun _ => names, ?_⟩⟩
      simp only [handle names.node]
  | unnamed bare isNode =>
      refine ⟨s', after, .inl ⟨_, _, isNode, fun named => absurd bare named, ?_⟩⟩
      simp only [handle isNode]
  | missing none => exact ⟨s', after, .inr ⟨none, _, rfl⟩⟩

theorem lookup_of_names (conforms : Conforms remote volume) (fits : (volume s).Fits)
    {path : CString} {a : Nat} {node : Node}
    (names : (volume s).Names (path.take maxFileNameSize) a node) :
    ∃ s', volume s' = volume s ∧ remote.lookup s path = (.ok (a, node.size), s') := by
  obtain ⟨s', same, ⟨b, node', -, leads, answer⟩ | ⟨none, -⟩⟩ := conforms.lookup_cases fits path
  · obtain ⟨rfl, rfl⟩ := names.unique (leads names.component)
    exact ⟨s', same, answer⟩
  · exact absurd names (none a node)

theorem lookup_of_missing (conforms : Conforms remote volume) (fits : (volume s).Fits)
    {path : CString} (named : components (path.take maxFileNameSize) ≠ [])
    (none : ∀ a node, ¬ (volume s).Names (path.take maxFileNameSize) a node) :
    ∃ s' word, volume s' = volume s ∧ remote.lookup s path = (.error word, s') := by
  obtain ⟨s', same, ⟨a, node, -, leads, -⟩ | ⟨-, word, answer⟩⟩ := conforms.lookup_cases fits path
  · exact absurd (leads named) (none a node)
  · exact ⟨s', word, same, answer⟩

theorem create_cases (conforms : Conforms remote volume) (fits : (volume s).Fits) (dir : Int)
    (name : CString) :
    ∃ s', (volume s').Fits ∧
      ((∃ a, (volume s).make .file (asInodeid dir) (name.take (maxFileNameSize - 1)) =
          (some a, volume s') ∧ remote.create s dir name = (some (a : Int), s')) ∨
        (volume s' = volume s ∧ remote.create s dir name = (none, s'))) := by
  obtain ⟨answered, fits'⟩ := conforms s (.create dir name) trivial fits
  simp only [RemoteCall.create]
  generalize remote s (.create dir name) = sent at answered fits' ⊢
  obtain ⟨answer, s'⟩ := sent
  dsimp only at answered fits' ⊢
  generalize after : volume s' = w at answered
  cases answered with
  | created made =>
      rename_i a
      have small : a < 64 := by
        obtain ⟨-, -, -, small, -⟩ := Volume.make_some made
        exact small
      refine ⟨s', fits', .inl ⟨a, after ▸ made, ?_⟩⟩
      simp only [asInt_of_lt (show a < 2 ^ 31 by omega)]
  | uncreated => exact ⟨s', fits', .inr ⟨after, rfl⟩⟩

theorem servesFile (conforms : Conforms remote volume) {v : Volume} (fits : v.Fits) {a : Nat}
    {bytes : List UInt8} (file : v.nodes a = some (.file bytes)) :
    ServesFile remote (fun s => volume s = v) a bytes := by
  rintro s rfl offset count -
  obtain ⟨answered, -⟩ := conforms s (.read a offset count) trivial fits
  have number : asInodeid a = a := asInodeid_natCast (fits.number a _ file)
  simp only [RemoteCall.read]
  generalize remote s (.read a offset count) = sent at answered ⊢
  obtain ⟨answer, s'⟩ := sent
  dsimp only at answered ⊢
  generalize after : volume s' = w at answered
  cases answered with
  | read file' length =>
      rename_i bytes' more
      obtain rfl : bytes' = bytes := by
        rw [number, file] at file'
        simpa using file'.symm
      exact ⟨more, s', after, rfl, length⟩
  | unread none =>
      rw [number] at none
      exact absurd file (none bytes)

theorem read_dir (conforms : Conforms remote volume) (fits : (volume s).Fits) {a : Nat}
    {entries : List (CString × Nat)} (isDir : (volume s).nodes a = some (.dir entries))
    (offset count : Nat) :
    ∃ s', remote.read s a offset count = (none, s') := by
  obtain ⟨answered, -⟩ := conforms s (.read a offset count) trivial fits
  have number : asInodeid a = a := asInodeid_natCast (fits.number a _ isDir)
  simp only [RemoteCall.read]
  generalize remote s (.read a offset count) = sent at answered ⊢
  obtain ⟨answer, s'⟩ := sent
  dsimp only at answered ⊢
  generalize volume s' = w at answered
  cases answered with
  | read file length =>
      rw [number, isDir] at file
      cases file
  | unread none => exact ⟨s', rfl⟩

end Conforms

def volumeServer : RemoteCall Volume
  | v, .lookup path =>
    match v.lookup (path.take maxFileNameSize) with
    | (1, some a) =>
      match v.nodes a with
      | some node => (.ok (.lookup a node.size), v)
      | none => (.error 0, v)
    | _ => (.error 0, v)
  | v, .read fhandle offset count =>
    match v.nodes (asInodeid fhandle) with
    | some (.file bytes) =>
      let data := piece bytes offset count
      (.ok (.read (data ++ List.replicate (count - data.length) 0) data.length), v)
    | _ => (.error 0, v)
  | v, .write fhandle offset count buffer =>
    match v.nodes (asInodeid fhandle) with
    | some (.file bytes) =>
      let bytes := overwrite bytes (min offset bytes.length) buffer
      if count = buffer.length ∧ bytes.length < 2 ^ 32 then
        (.ok (.write bytes.length), v.put (asInodeid fhandle) (.file bytes) 0)
      else (.error 0, v)
    | _ => (.error 0, v)
  | v, .create dir name =>
    match v.nodes (asInodeid dir) with
    | some (.dir entries) =>
      if 16 * (entries.length + 1) < 2 ^ 32 then
        match v.make .file (asInodeid dir) (name.take (maxFileNameSize - 1)) with
        | (some a, v) => (.ok (.create a), v)
        | (none, _) => (.error 0, v)
      else (.error 0, v)
    | _ => (.error 0, v)
  | v, _ => (.error 0, v)

theorem volumeServer_conforms : Conforms volumeServer id := by
  intro v call ofFiles fits
  cases call with
  | lookup path =>
      simp only [volumeServer, id]
      split
      · rename_i a found
        cases node : v.nodes a with
        | some node' => exact ⟨.found ⟨found, node⟩, fits⟩
        | none =>
            refine ⟨.missing fun b node' names => ?_, fits⟩
            have same := names.found.symm.trans found
            simp only [Prod.mk.injEq, Option.some.injEq, true_and] at same
            have isNode := names.node
            rw [same, node] at isNode
            cases isNode
      · rename_i none
        exact ⟨.missing fun b node names => none b names.found, fits⟩
  | read fhandle offset count =>
      simp only [volumeServer, id]
      split
      · rename_i bytes file
        refine ⟨.read file ?_, fits⟩
        have le : (piece bytes offset count).length ≤ count := by
          rw [length_piece]
          exact Nat.min_le_left _ _
        rw [List.length_append, List.length_replicate, Nat.add_sub_cancel' le]
      · rename_i other
        exact ⟨.unread fun bytes file => other bytes file, fits⟩
  | write fhandle offset count buffer =>
      simp only [volumeServer, id]
      split
      · rename_i bytes file
        split
        · rename_i small
          obtain ⟨rfl, small⟩ := small
          exact ⟨.written file, fits.put file small⟩
        · exact ⟨.unwritten, fits⟩
      · exact ⟨.unwritten, fits⟩
  | create dir name =>
      simp only [volumeServer, id]
      split
      · rename_i entries isDir
        split
        · rename_i room
          split
          · rename_i a v' made
            exact ⟨.created made, fits.make isDir room made⟩
          · exact ⟨.uncreated, fits⟩
        · exact ⟨.uncreated, fits⟩
      · exact ⟨.uncreated, fits⟩
  | mkdir | readdir | copy => exact absurd ofFiles id

end Snfs
