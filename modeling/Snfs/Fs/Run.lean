import Snfs.Fs.Ops
import Snfs.Library.Runs

/-!
The file system as a state machine: one operation after the other on a file
system made by `fs_new` and one `fs_format`. A step pairs an operation with its
result; an operation that ends the process has no step.
-/

namespace Snfs

open Runs

inductive FsOp where
  | lookup (path : CString)
  | getAttrs (file : Nat)
  | read (file offset count : Nat)
  | write (file offset : Nat) (data : List UInt8)
  | create (dir : Nat) (name : CString)
  | mkdir (dir : Nat) (name : CString)
  | readdir (dir : Nat) (maxentries : Int)
  | copy (srcJunk dirJunk : Nat) (srcpath tgtpath : CString)
deriving DecidableEq, Repr

inductive FsResult where
  | looked (code : Int) (fileid : Option Nat)
  | attrs (attrs : Option FileAttrs)
  | data (bytes : Option (List UInt8))
  | written (ok : Bool)
  | made (id : Option Nat)
  | listed (entries : Option (List FileName))
  | copied (ok : Bool)
deriving DecidableEq, Repr

/-- One call; `none` when the process ends in it. -/
def fsStep (fs : Fs) : FsOp → Option (FsResult × Fs)
  | .lookup path => let ((code, id), fs) := fsLookup fs path; some (.looked code id, fs)
  | .getAttrs file => (fsGetAttrs fs file).map fun (attrs, fs) => (.attrs attrs, fs)
  | .read file offset count =>
      let (bytes, fs) := fsRead fs file offset count; some (.data bytes, fs)
  | .write file offset data => let (ok, fs) := fsWrite fs file offset data; some (.written ok, fs)
  | .create dir name => let (id, fs) := fsCreate fs dir name; some (.made id, fs)
  | .mkdir dir name => let (id, fs) := fsMkdir fs dir name; some (.made id, fs)
  | .readdir dir maxentries =>
      let (entries, fs) := fsReaddir fs dir maxentries; some (.listed entries, fs)
  | .copy srcJunk dirJunk srcpath tgtpath =>
      (fsCopy fs srcJunk dirJunk srcpath tgtpath).map fun (ok, fs) => (.copied ok, fs)

def fsBoot (numBlocks : Nat) (clock : Nat → Int) : Option Fs :=
  (fsNew numBlocks clock).map fsFormat

def fsAfter (numBlocks : Nat) (clock : Nat → Int) (ops : List FsOp) :
    Option (List (FsOp × FsResult) × Fs) :=
  (fsBoot numBlocks clock).bind fun boot => execute fsStep boot ops

def FsNext : Fs → FsOp × FsResult → Fs → Prop := Next fsStep

/-- The two parts of a target path fit the buffers that `fs_copy` copies them to. -/
def PartsFit : Option (CString × CString) → Prop
  | some (dir, name) => dir.length < fsMaxFnameSz ∧ name.length < fsMaxFnameSz
  | none => True

instance : DecidablePred PartsFit
  | some (dir, name) =>
      inferInstanceAs (Decidable (dir.length < fsMaxFnameSz ∧ name.length < fsMaxFnameSz))
  | none => .isTrue trivial

/-- The arguments that the request handlers and the path buffers of `fs_copy` allow. -/
def FsOp.Fits : FsOp → Prop
  | .lookup path => (0 : UInt8) ∉ path
  | .write _ _ data => data.length ≤ 1024
  | .create _ name => (0 : UInt8) ∉ name
  | .mkdir _ name => (0 : UInt8) ∉ name
  | .copy _ _ srcpath tgtpath =>
      (0 : UInt8) ∉ srcpath ∧ (0 : UInt8) ∉ tgtpath ∧ components srcpath ≠ [] ∧
        PartsFit (splitLast tgtpath)
  | _ => True

instance : DecidablePred FsOp.Fits
  | .lookup path => inferInstanceAs (Decidable ((0 : UInt8) ∉ path))
  | .write _ _ data => inferInstanceAs (Decidable (data.length ≤ 1024))
  | .create _ name => inferInstanceAs (Decidable ((0 : UInt8) ∉ name))
  | .mkdir _ name => inferInstanceAs (Decidable ((0 : UInt8) ∉ name))
  | .copy _ _ srcpath tgtpath => inferInstanceAs (Decidable ((0 : UInt8) ∉ srcpath ∧
      (0 : UInt8) ∉ tgtpath ∧ components srcpath ≠ [] ∧ PartsFit (splitLast tgtpath)))
  | .getAttrs _ => .isTrue trivial
  | .read _ _ _ => .isTrue trivial
  | .readdir _ _ => .isTrue trivial

def FsRun (numBlocks : Nat) (clock : Nat → Int) (trace : List (FsOp × FsResult)) (fs : Fs) : Prop :=
  ∃ boot, fsBoot numBlocks clock = some boot ∧
    Run (Guarded (fun _ e => e.1.Fits) FsNext) boot trace fs

theorem FsRun.of_calls {numBlocks : Nat} {clock : Nat → Int} {ops : List FsOp} {fs : Fs}
    {trace : List (FsOp × FsResult)} (calls : fsAfter numBlocks clock ops = some (trace, fs))
    (fits : ∀ op ∈ ops, op.Fits) : FsRun numBlocks clock trace fs := by
  obtain ⟨boot, started, calls⟩ := Option.bind_eq_some_iff.mp calls
  exact ⟨boot, started, run_of_execute calls (meets_of_forall fits boot)⟩

/-- The call of `fs_create` or `fs_mkdir` that an operation makes: the type of the new inode, the
state in which it is called, the directory and the name. -/
def createCall (fs : Fs) : FsOp → Option (Itype × Fs × Nat × CString)
  | .create dir name => some (.file, fs, dir, name)
  | .mkdir dir name => some (.dir, fs, dir, name)
  | .copy srcJunk dirJunk srcpath tgtpath =>
      match copyPaths fs srcJunk dirJunk srcpath tgtpath with
      | some (some (_, dir, name), fs) => some (.file, fs, dir, name)
      | _ => none
  | _ => none

/-- The state after that call, or at the start of an operation that makes none. -/
def afterCreate (fs : Fs) (op : FsOp) : Fs :=
  match createCall fs op with
  | some (type, fs, dir, name) => (fsMake type fs dir name).2
  | none => fs

end Snfs
