import Snfs.Client.Pathnames
import Snfs.Server.Handlers

/-!
The files of `snfs_lib/myfs.c`: the list of open files and the calls `my_open`,
`my_read`, `my_write`, `my_close` and `my_mkdir` over the stubs of `snfs_api.c`. What
lies behind the stubs is any function from a state and a call to an answer, so a server
may fail or change at any call.

A descriptor is found by the first entry of the list with its number; the offsets are
of type `int` and wrap around.
-/

namespace Snfs

/-- The stubs over what lies behind them: the outputs of a call with `STAT_OK`, or `STAT_ERROR` and
the word `body.lookup.file` of the response, which `snfs_lookup` stores nevertheless. -/
abbrev RemoteCall (σ : Type) : Type := σ → Call → Except Nat Reply × σ

variable {σ : Type}

namespace RemoteCall

variable (remote : RemoteCall σ) (s : σ)

def lookup (pathname : CString) : Except Int (Int × Nat) × σ :=
  match remote s (.lookup pathname) with
  | (.ok (.lookup file fsize), s) => (.ok (asInt file, fsize), s)
  | (.ok _, s) => (.error 0, s)
  | (.error file, s) => (.error (asInt file), s)

/-- `snfs_read`: the bytes copied to the buffer and `*nread` as a word. -/
def read (fhandle : Int) (offset count : Nat) : Option (List UInt8 × Nat) × σ :=
  match remote s (.read fhandle offset count) with
  | (.ok (.read data nread), s) => (some (data, nread), s)
  | (_, s) => (none, s)

def write (fhandle : Int) (offset : Nat) (data : List UInt8) : Option Nat × σ :=
  match remote s (.write fhandle offset data.length data) with
  | (.ok (.write fsize), s) => (some fsize, s)
  | (_, s) => (none, s)

def create (dir : Int) (name : CString) : Option Int × σ :=
  match remote s (.create dir name) with
  | (.ok (.create file), s) => (some (asInt file), s)
  | (_, s) => (none, s)

def mkdir (dir : Int) (name : CString) : Option Int × σ :=
  match remote s (.mkdir dir name) with
  | (.ok (.mkdir newdirid), s) => (some (asInt newdirid), s)
  | (_, s) => (none, s)

end RemoteCall

abbrev maxOpenFiles : Int := 10

abbrev oCreate : Int := 1

structure FileDesc where
  fileId : Int
  size : Nat
  readOffset : Int
  writeOffset : Int
deriving DecidableEq, Repr

/-- The variables of the library; `Open_files_list` holds pointers to the descriptors, here the
descriptors themselves. -/
structure Lib where
  libInitted : Bool
  openFilesList : List FileDesc
  openFiles : Int
deriving DecidableEq, Repr

def myInitLib : Lib := ⟨true, [], 0⟩

def queueNodeGet (queue : List FileDesc) (fileId : Int) : Option FileDesc :=
  queue.find? fun fd => fd.fileId == fileId

/-- The list after the descriptor that `queue_node_get` finds has been changed through its
pointer. -/
def queueNodeSet : (queue : List FileDesc) → (fileId : Int) → FileDesc → List FileDesc
  | [], _, _ => []
  | fd :: rest, fileId, fdesc =>
    if fd.fileId = fileId then fdesc :: rest else fd :: queueNodeSet rest fileId fdesc

def queueNodeRemove (queue : List FileDesc) (fileId : Int) : List FileDesc :=
  queue.eraseP fun fd => fd.fileId == fileId

def wrapInt (x : Int) : Int := asInt (intWord x)

/-- The token loop of `my_open` and `my_mkdir`: `i` and `newfilename`, with `fuel ≥` the length of
what `strtok` goes on with. -/
def splitTokens : (fuel : Nat) → (line : CString) → (i : Nat) → Buf maxFileNameSize →
    Nat × Buf maxFileNameSize
  | 0, _, i, newfilename => (i, newfilename)
  | fuel + 1, line, i, newfilename =>
    match strtok line with
    | none => (i, newfilename)
    | some (token, line) => splitTokens fuel line (i + 1) (newfilename.splice 0 token)

/-- How `my_open` and `my_mkdir` take a path apart: `i`, `newfilename` and `newdirname`. The
buffers are clear before, and `strncpy` does not copy a zero. -/
def splitName (name : CString) : Nat × CString × CString :=
  let (i, newfilename) := splitTokens name.length name 0 .zero
  if 1 < i then
    let newfilename := newfilename.cstr 0 maxFileNameSize
    (i, newfilename, name.take (name.length - (newfilename.length + 1)))
  else (i, (newfilename.splice 0 (name.drop 1)).cstr 0 maxFileNameSize, name)

def Lib.enqueue (lib : Lib) (fileFh : Int) (fsize : Nat) : Lib :=
  { lib with
    openFilesList := lib.openFilesList ++ [⟨fileFh, fsize, 0, 0⟩]
    openFiles := lib.openFiles + 1 }

section Calls

variable (remote : RemoteCall σ)

def myOpen (lib : Lib) (s : σ) (name : CString) (flags : Int) : Int × Lib × σ :=
  if !lib.libInitted then (-1, lib, s)
  else if maxOpenFiles ≤ lib.openFiles then (-1, lib, s)
  else if myparse name ≠ 0 then (-1, lib, s)
  else
    let (i, newfilename, newdirname) := splitName name
    match remote.lookup s name with
    | (.ok (fileFh, fsize), s) => (fileFh, lib.enqueue fileFh fsize, s)
    | (.error _, s) =>
      let (parent, s) := remote.lookup s newdirname
      -- a lookup that fails stores a handle but no size
      let (dir, fsize) := match parent with
        | .ok (dir, fsize) => (dir, fsize)
        | .error dir => (dir, 0)
      let dir := if i = 1 then 1 else dir
      if flags = oCreate then
        match remote.create s dir newfilename with
        | (some fileFh, s) => (fileFh, lib.enqueue fileFh fsize, s)
        | (none, s) => (-1, lib, s)
      else (-1, lib, s)

def myMkdir (lib : Lib) (s : σ) (dirname : CString) : Int × σ :=
  if !lib.libInitted then (-1, s)
  else if myparse dirname ≠ 0 then (-1, s)
  else
    match remote.lookup s dirname with
    | (.ok _, s) => (-1, s)
    | (.error _, s) =>
      let (i, newfilename, newdirname) := splitName dirname
      let (dir, s) :=
        if i = 1 then (some 1, s)
        else
          match remote.lookup s newdirname with
          | (.ok (dir, _), s) => (some dir, s)
          | (.error _, s) => (none, s)
      match dir with
      | none => (-1, s)
      | some dir =>
        match remote.mkdir s dir newfilename with
        | (some _, s) => (0, s)
        | (none, s) => (-1, s)

abbrev CallerMemory : Type := Int → UInt8

def CallerMemory.store (mem : CallerMemory) (pos : Int) (xs : List UInt8) : CallerMemory :=
  fun k => if pos ≤ k ∧ k < pos + xs.length then xs.getD (k - pos).toNat 0 else mem k

structure ReadEnd (σ : Type) where
  result : Int
  buffer : CallerMemory
  fdesc : FileDesc
  state : σ

/-- The loop of `my_read` with `fuel` requests at most; `none` when they do not end it. -/
def readChunks (fileId : Int) : (fuel numBytes rBytes : Nat) → (counter : Int) → CallerMemory →
    FileDesc → σ → Option (ReadEnd σ)
  | _, 0, _, counter, buffer, fdesc, s => some ⟨counter, buffer, fdesc, s⟩
  | 0, _ + 1, _, _, _, _, _ => none
  | fuel + 1, numBytes + 1, rBytes, counter, buffer, fdesc, s =>
    let rBytes := min rBytes (numBytes + 1)
    match remote.read s fileId (intWord fdesc.readOffset) rBytes with
    | (none, s) => some ⟨-1, buffer, fdesc, s⟩
    | (some (data, nread), s) =>
      readChunks fileId fuel (u32 (numBytes + 1 + 2 ^ 32 - nread)) rBytes
        (wrapInt (counter + asInt nread)) (buffer.store counter data)
        { fdesc with readOffset := wrapInt (fdesc.readOffset + asInt nread) } s

/-- `my_read` with `fuel` requests at most: the result, the caller's memory, the library and what
lies behind the stubs. -/
def myRead (fuel : Nat) (lib : Lib) (s : σ) (fileId : Int) (buffer : CallerMemory)
    (numBytes : Nat) : Option (Int × CallerMemory × Lib × σ) :=
  if !lib.libInitted then some (-1, buffer, lib, s)
  else
    match queueNodeGet lib.openFilesList fileId with
    | none => some (-1, buffer, lib, s)
    | some fdesc =>
      let offset := intWord fdesc.readOffset
      if offset = fdesc.size then some (0, buffer, lib, s)
      else
        let numBytes :=
          if fdesc.size < u32 (offset + numBytes) then u32 (fdesc.size + 2 ^ 32 - offset)
          else numBytes
        (readChunks remote fileId fuel numBytes (min numBytes maxReadData) 0 buffer fdesc s).map
          fun r => (r.result, r.buffer,
            { lib with openFilesList := queueNodeSet lib.openFilesList fileId r.fdesc }, r.state)

/-- The loop of `my_write`, with `rest` still to be written and `fuel ≥ rest.length`. -/
def writeChunks (fileId : Int) : (fuel wBytes : Nat) → (counter : Int) → (rest : List UInt8) →
    FileDesc → σ → Int × FileDesc × σ
  | 0, _, counter, _, fdesc, s => (counter, fdesc, s)
  | fuel + 1, wBytes, counter, rest, fdesc, s =>
    if rest = [] then (counter, fdesc, s)
    else
      let wBytes := min wBytes rest.length
      match remote.write s fileId (intWord fdesc.writeOffset) (rest.take wBytes) with
      | (none, s) => (-1, fdesc, s)
      | (some fsize, s) =>
        writeChunks fileId fuel wBytes (wrapInt (counter + asInt wBytes)) (rest.drop wBytes)
          { fdesc with size := fsize, writeOffset := wrapInt (fdesc.writeOffset + asInt wBytes) } s

def myWrite (lib : Lib) (s : σ) (fileId : Int) (data : List UInt8) : Int × Lib × σ :=
  if !lib.libInitted then (-1, lib, s)
  else
    match queueNodeGet lib.openFilesList fileId with
    | none => (-1, lib, s)
    | some fdesc =>
      let (result, fdesc, s) :=
        writeChunks remote fileId data.length (min data.length maxWriteData) 0 data fdesc s
      (result, { lib with openFilesList := queueNodeSet lib.openFilesList fileId fdesc }, s)

end Calls

def myClose (lib : Lib) (fileId : Int) : Int × Lib :=
  if !lib.libInitted then (-1, lib)
  else
    match queueNodeGet lib.openFilesList fileId with
    | none => (-1, lib)
    | some _ =>
      (0, { lib with
        openFilesList := queueNodeRemove lib.openFilesList fileId
        openFiles := lib.openFiles - 1 })

end Snfs
