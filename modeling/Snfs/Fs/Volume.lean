import Snfs.Fs.Contents

/-!
What the file system is for: numbered nodes that are directories of named entries
or files of bytes, and a supply of blocks. There are no caches here, no clock and
no block numbers, so a run of calls has one outcome.
-/

namespace Snfs

open Runs

inductive Node where
  | dir (entries : List (CString × Nat))
  | file (bytes : List UInt8)

def Node.type : Node → Itype
  | .dir _ => .dir
  | .file _ => .file

/-- `nextId` is the number of the next node and `free` the number of blocks left. -/
@[ext] structure Volume where
  nodes : Nat → Option Node
  nextId : Nat
  free : Nat

def searchEntries (entries : List (CString × Nat)) (name : CString) : Option Nat :=
  (entries.find? fun e => e.1 == name).map Prod.snd

namespace Volume

/-- The node `a` becomes `node` and takes `blocks` of the blocks left. -/
def put (v : Volume) (a : Nat) (node : Node) (blocks : Nat) : Volume :=
  { v with nodes := Function.update v.nodes a (some node), free := v.free - blocks }

def lookupFrom (v : Volume) : (dir : Nat) → (id : Option Nat) → List CString → Int × Option Nat
  | _, id, [] => (1, id)
  | dir, id, token :: rest =>
    match v.nodes dir with
    | some (.dir entries) =>
      match searchEntries entries token with
      | none => (0, id)
      | some fid => v.lookupFrom fid (some fid) rest
    | _ => (-1, id)

def lookup (v : Volume) (path : CString) : Int × Option Nat :=
  if path.head? ≠ some slash then (-1, none) else v.lookupFrom 1 none (components path)

/-- The call on number 0 ends the process. -/
def getAttrs (v : Volume) (a : Nat) : Option (Option FileAttrs) :=
  if a = 0 then none
  else match v.nodes a with
    | some (.dir entries) => some (some ⟨a, .dir, 16 * entries.length, entries.length⟩)
    | some (.file bytes) => some (some ⟨a, .file, bytes.length, -1⟩)
    | none => some none

def read (v : Volume) (a offset count : Nat) : Option (List UInt8) :=
  match v.nodes a with
  | some (.file bytes) => some ((bytes.drop offset).take count)
  | _ => none

/-- A write for which there are not enough blocks uses up those that are left. -/
def write (v : Volume) (a offset : Nat) (data : List UInt8) : Bool × Volume :=
  match v.nodes a with
  | some (.file bytes) =>
    let pos := min offset bytes.length
    let more := offsetToBlocks (pos + data.length) - offsetToBlocks bytes.length
    if inodeNumBlks - offsetToBlocks bytes.length < more then (false, v)
    else if v.free < more then (false, { v with free := 0 })
    else (true, v.put a (.file (overwrite bytes pos data)) more)
  | _ => (false, v)

def emptyNode : Itype → Node
  | .dir => .dir []
  | _ => .file []

/-- A directory takes a block for every 32 entries. -/
def pageFor (entries : List (CString × Nat)) : Nat :=
  if entries.length % dirPageEntries = 0 then 1 else 0

def addEntry (v : Volume) (type : Itype) (dir : Nat) (entries : List (CString × Nat))
    (name : CString) : Volume :=
  { (v.put dir (.dir (entries ++ [(name, v.nextId)])) (pageFor entries)).put v.nextId
      (emptyNode type) 0 with nextId := v.nextId + 1 }

def make (v : Volume) (type : Itype) (dir : Nat) (name : CString) : Option Nat × Volume :=
  match v.nodes dir with
  | some (.dir entries) =>
    if name = [] ∨ fsMaxFnameSz ≤ name.length then (none, v)
    else if (searchEntries entries name).isSome then (none, v)
    else if itabSize ≤ v.nextId ∨ v.free < pageFor entries then (none, v)
    else (some v.nextId, v.addEntry type dir entries name)
  | _ => (none, v)

def nodeType (v : Volume) (a : Nat) : Itype := ((v.nodes a).map Node.type).getD .unknown

def readdir (v : Volume) (dir : Nat) (maxentries : Int) : Option (List FileName) :=
  match v.nodes dir with
  | some (.dir entries) =>
    if maxentries < 0 then none
    else some ((entries.take maxentries.toNat).map fun e => ⟨e.1, v.nodeType e.2⟩)
  | _ => none

def copyPaths (v : Volume) (srcJunk dirJunk : Nat) (srcpath tgtpath : CString) :
    Option (Option (Nat × Nat × CString)) :=
  let (found, srcId) := v.lookup srcpath
  if found ≤ 0 then some none
  else
    let src := srcId.getD srcJunk
    match v.getAttrs src with
    | none => none
    | some none => some none
    | some (some attrs) =>
      if attrs.type ≠ .file then some none
      else
        match splitLast tgtpath with
        | none => some none
        | some (targetDir, name) =>
          let (found, dirId) := v.lookup targetDir
          if found ≤ 0 then some none else some (some (src, dirId.getD dirJunk, name))

def copy (v : Volume) (srcJunk dirJunk : Nat) (srcpath tgtpath : CString) :
    Option (Bool × Volume) :=
  match v.copyPaths srcJunk dirJunk srcpath tgtpath with
  | none => none
  | some none => some (false, v)
  | some (some (src, dir, name)) =>
    match v.make .file dir name with
    | (none, v) => some (false, v)
    | (some new, v') => some (v'.write new 0 ((v.read src 0 (inodeNumBlks * blockSize)).getD []))

/-- A new volume has an empty root, node 1; ten blocks are not for nodes. -/
def formatted (numBlocks : Nat) : Volume :=
  { nodes := Function.update (fun _ => none) 1 (some (.dir []))
    nextId := 2
    free := numBlocks - 10 }

end Volume

def volumeStep (v : Volume) : FsOp → Option (FsResult × Volume)
  | .lookup path => let (code, id) := v.lookup path; some (.looked code id, v)
  | .getAttrs file => (v.getAttrs file).map fun attrs => (.attrs attrs, v)
  | .read file offset count => some (.data (v.read file offset count), v)
  | .write file offset data => let (ok, v) := v.write file offset data; some (.written ok, v)
  | .create dir name => let (id, v) := v.make .file dir name; some (.made id, v)
  | .mkdir dir name => let (id, v) := v.make .dir dir name; some (.made id, v)
  | .readdir dir maxentries => some (.listed (v.readdir dir maxentries), v)
  | .copy srcJunk dirJunk srcpath tgtpath =>
      (v.copy srcJunk dirJunk srcpath tgtpath).map fun (ok, v) => (.copied ok, v)

end Snfs
