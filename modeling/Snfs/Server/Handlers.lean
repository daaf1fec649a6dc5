import Snfs.Fs.Pages
import Snfs.Server.Messages

/-!
The handlers of `snfs_server/snfs.c` over the file system: each takes its
arguments from a request, calls the file system and fills in the response. The
body of a response with `RES_ERROR` is left clear here, where the code may leave
in it what a failed `fs_read` has read.

Two handlers can end the process. `snfs_lookup` and `fs_copy` pass a variable to
`fs_get_attrs` that `fs_lookup` leaves alone for a path without components, and
inode 0 is neither a directory nor a file; `snfs_readdir` meets an entry without
an inode when it lists a cached page older than the directory's inode.
-/

namespace Snfs

open Runs

/-- What the variables `fileid` of `snfs_lookup` and `src_inode` and `dir_inode` of `fs_copy` hold
when they are declared. -/
structure Junk where
  fileid : Nat
  srcInode : Nat
  dirInode : Nat

/-- A handler gives the outputs of a response with `RES_OK`, or `none` for `RES_ERROR`. Around it,
`none` is a call of `exit(-1)`. -/
def snfsLookup (fs : Fs) (fileid : Nat) (file : CString) : Option (Option Reply × Fs) :=
  let ((found, id), fs) := fsLookup fs file
  if found ≠ 1 then some (none, fs)
  else
    let fileid := id.getD fileid
    match fsGetAttrs fs fileid with
    | none => none
    | some (none, fs) => some (none, fs)
    | some (some attrs, fs) => some (some (.lookup fileid attrs.size), fs)

def snfsRead (fs : Fs) (file offset count : Nat) : Option Reply × Fs :=
  if maxReadData < count then (none, fs)
  else
    match fsRead fs file offset count with
    | (none, fs) => (none, fs)
    | (some data, fs) => (some (.read data data.length), fs)

def snfsWrite (fs : Fs) (file offset count : Nat) (data : List UInt8) :
    Option (Option Reply × Fs) :=
  if maxWriteData < count then some (none, fs)
  else
    match fsWrite fs file offset data with
    | (false, fs) => some (none, fs)
    | (true, fs) =>
      match fsGetAttrs fs file with
      | none => none
      | some (none, fs) => some (none, fs)
      | some (some attrs, fs) => some (some (.write attrs.size), fs)

def snfsCreate (fs : Fs) (dir : Nat) (name : CString) : Option Reply × Fs :=
  let (fileid, fs) := fsCreate fs dir name
  (fileid.map .create, fs)

def snfsMkdir (fs : Fs) (dir : Nat) (name : CString) : Option Reply × Fs :=
  let (dirid, fs) := fsMkdir fs dir name
  (dirid.map .mkdir, fs)

/-- An entry of the response; `none` is an entry that is neither a directory nor a file. -/
def snfsDirEntry (entry : FileName) : Option SnfsDirEntry :=
  match entry.type with
  | .dir => some ⟨entry.name, entry.name.length, 1⟩
  | .file => some ⟨entry.name, entry.name.length, 2⟩
  | _ => none

def asInt (x : Nat) : Int := if x < 2 ^ 31 then x else (x : Int) - 2 ^ 32

def snfsReaddir (fs : Fs) (dir maxentries : Nat) : Option (Option Reply × Fs) :=
  match fsReaddir fs dir (asInt maxentries) with
  | (none, fs) => some (none, fs)
  | (some entries, fs) => (entries.mapM snfsDirEntry).map fun list => (some (.readdir list), fs)

def snfsCopy (fs : Fs) (srcInode dirInode : Nat) (srcpath tgtpath : CString) :
    Option (Option Reply × Fs) :=
  (fsCopy fs srcInode dirInode srcpath tgtpath).map fun (ok, fs) =>
    (if ok then some .copy else none, fs)

def Call.handle (fs : Fs) (junk : Junk) : Call → Option (Option Reply × Fs)
  | .lookup pathname => snfsLookup fs junk.fileid pathname
  | .read fhandle offset count => some (snfsRead fs fhandle.toNat offset count)
  | .write fhandle offset count buffer => snfsWrite fs fhandle.toNat offset count buffer
  | .create dir name => some (snfsCreate fs dir.toNat name)
  | .mkdir dir name => some (snfsMkdir fs dir.toNat name)
  | .readdir dir cmax => snfsReaddir fs dir.toNat cmax
  | .copy srcpath tgtpath => snfsCopy fs junk.srcInode junk.dirInode srcpath tgtpath

def response (type : SnfsMsgType) : Option Reply → Res × Nat
  | some reply => reply.res
  | none => (⟨type.code, 0, resError, .zero⟩, msgResHeadSize + resBodySize type)

def snfsPing : Res × Nat :=
  (⟨SnfsMsgType.ping.code, 0, resOk, Buf.splice .zero 0 [104, 101, 108, 108, 111, 0]⟩,
    msgResHeadSize + resBodySize .ping)

/-- A request served: the response, or `none` when the process ends. -/
def serveRequest (fs : Fs) (e : Req × Junk) : Option ((Res × Nat) × Fs) :=
  match handledCall e.1 with
  | some call =>
      (call.handle fs e.2).map fun (reply, fs) => (serve e.1 (response call.type reply), fs)
  | none => some (serve e.1 snfsPing, fs)

/-- The call into the file system that a handler makes first. -/
def Call.op (junk : Junk) : Call → FsOp
  | .lookup pathname => .lookup pathname
  | .read fhandle offset count => .read fhandle.toNat offset count
  | .write fhandle offset _ buffer => .write fhandle.toNat offset buffer
  | .create dir name => .create dir.toNat name
  | .mkdir dir name => .mkdir dir.toNat name
  | .readdir dir cmax => .readdir dir.toNat (asInt cmax)
  | .copy srcpath tgtpath => .copy junk.srcInode junk.dirInode srcpath tgtpath

def Call.PathsFit : Call → Prop
  | .lookup pathname => pathname.length < maxPathNameSize
  | .copy srcpath tgtpath => srcpath.length < maxPathNameSize ∧ tgtpath.length < maxPathNameSize ∧
      PartsFit (splitLast tgtpath)
  | _ => True

/-- Such a request, or one without paths, that looks for no block past the last bit of the block
bitmap. -/
def Admissible (fs : Fs) (e : Req × Junk) : Prop :=
  match handledCall e.1 with
  | some call => call.PathsFit ∧ Room fs (demand fs (call.op e.2))
  | none => True

/-- A listing of the directory comes upon an entry without an inode: on a cached page that is
older than the inode whose size says how many entries there are. -/
def ListsBlank (fs : Fs) (dir : Nat) (maxentries : Int) : Prop :=
  IsDir fs dir ∧ ∃ k, k < listLength fs dir maxentries ∧
    entryInodeid (listedPage fs dir (fs.seen dir) (k / 32)) (k % 32) = 0

/-- A path that `fs_lookup` accepts without storing anything. -/
def NoComponent (path : CString) : Prop := path.head? = some slash ∧ components path = []

/-- The requests that do not end the process. -/
def Call.Spares (fs : Fs) (junk : Junk) : Call → Prop
  | .lookup pathname => NoComponent pathname → junk.fileid ≠ 0
  | .copy srcpath _ => NoComponent srcpath → junk.srcInode ≠ 0
  | .readdir dir cmax => ¬ ListsBlank fs dir.toNat (asInt cmax)
  | _ => True

def Spares (fs : Fs) (e : Req × Junk) : Prop :=
  match handledCall e.1 with
  | some call => call.Spares fs e.2
  | none => True

section Decidable

instance : DecidablePred Call.PathsFit
  | .lookup pathname => inferInstanceAs (Decidable (pathname.length < maxPathNameSize))
  | .copy srcpath tgtpath => inferInstanceAs (Decidable (srcpath.length < maxPathNameSize ∧
      tgtpath.length < maxPathNameSize ∧ PartsFit (splitLast tgtpath)))
  | .read _ _ _ | .write _ _ _ _ | .create _ _ | .mkdir _ _ | .readdir _ _ => .isTrue trivial

instance (fs : Fs) (e : Req × Junk) : Decidable (Admissible fs e) :=
  match handled : handledCall e.1 with
  | some call => decidable_of_iff (call.PathsFit ∧ Room fs (demand fs (call.op e.2)))
      (by rw [Admissible, handled])
  | none => .isTrue (by rw [Admissible, handled]; trivial)

instance (fs : Fs) (dir : Nat) (maxentries : Int) : Decidable (ListsBlank fs dir maxentries) :=
  inferInstanceAs (Decidable (_ ∧ ∃ k, k < listLength fs dir maxentries ∧ _ = 0))

instance (path : CString) : Decidable (NoComponent path) :=
  inferInstanceAs (Decidable (_ ∧ _))

instance (fs : Fs) (junk : Junk) : DecidablePred (Call.Spares fs junk)
  | .lookup pathname => inferInstanceAs (Decidable (NoComponent pathname → junk.fileid ≠ 0))
  | .copy srcpath _ => inferInstanceAs (Decidable (NoComponent srcpath → junk.srcInode ≠ 0))
  | .readdir dir cmax => inferInstanceAs (Decidable (¬ ListsBlank fs dir.toNat (asInt cmax)))
  | .read _ _ _ | .write _ _ _ _ | .create _ _ | .mkdir _ _ => .isTrue trivial

instance (fs : Fs) (e : Req × Junk) : Decidable (Spares fs e) :=
  match handled : handledCall e.1 with
  | some call => decidable_of_iff (call.Spares fs e.2) (by rw [Spares, handled])
  | none => .isTrue (by rw [Spares, handled]; trivial)

end Decidable

/-- What a handler can count on: strings end where the first zero is, and data was sent in one
message. -/
def Call.Taken : Call → Prop
  | .lookup pathname => (0 : UInt8) ∉ pathname
  | .write _ _ _ buffer => buffer.length ≤ maxWriteData
  | .create _ name => (0 : UInt8) ∉ name
  | .mkdir _ name => (0 : UInt8) ∉ name
  | .copy srcpath tgtpath => (0 : UInt8) ∉ srcpath ∧ (0 : UInt8) ∉ tgtpath
  | _ => True

private theorem handlerArgs_taken {req : Buf msgReqSize} {type : SnfsMsgType} {call : Call}
    (args : handlerArgs req type = some call) : call.Taken := by
  cases type <;> cases args
  case lookup => exact Buf.zero_not_mem_cstr _ _ _
  case read => trivial
  case write =>
      rw [Call.Taken, List.length_take, Buf.length_slice]
      exact Nat.min_le_right _ _
  case create => exact Buf.zero_not_mem_cstr _ _ _
  case mkdir => exact Buf.zero_not_mem_cstr _ _ _
  case readdir => trivial
  case copy => exact ⟨Buf.zero_not_mem_cstr _ _ _, Buf.zero_not_mem_cstr _ _ _⟩

theorem handledCall_taken {r : Req} {call : Call} (handled : handledCall r = some call) :
    call.Taken := by
  obtain ⟨type, -, args⟩ := Option.bind_eq_some_iff.mp handled
  exact handlerArgs_taken args

variable {own : Ledger} {top : Nat} {fs fs' : Fs}

def Sound (fs : Fs) : Prop := ∃ own top, Inv own top fs ∧ CachesOk fs

private theorem sound_getAttrs (sound : Sound fs) {file : Nat} {attrs : Option FileAttrs}
    (result : fsGetAttrs fs file = some (attrs, fs')) : Sound fs' := by
  obtain ⟨own, top, h, ok⟩ := sound
  exact ⟨own, top, (h.fsGetAttrs result).1, cachesOk_kept.calm h ok (h.calm_getAttrs result)⟩

/-- A handler calls the file system once and may ask for the attributes of an inode after that. -/
theorem handle_keeps {P : Fs → Prop} (here : P fs) {call : Call} {junk : Junk}
    (stepped : ∀ res s, fsStep fs (call.op junk) = some (res, s) → P s)
    (attrs : ∀ s file attrs s', P s → fsGetAttrs s file = some (attrs, s') → P s')
    {reply : Option Reply} (handled : call.handle fs junk = some (reply, fs')) : P fs' := by
  cases call with
  | lookup pathname =>
      have looked : P (fsLookup fs pathname).2 := stepped _ _ rfl
      rw [Call.handle, snfsLookup] at handled
      rcases fsLookup fs pathname with ⟨⟨found, id⟩, fs₁⟩
      dsimp only at handled looked
      split at handled
      · cases handled
        exact looked
      · split at handled
        · cases handled
        · rename_i result
          cases handled
          exact attrs _ _ _ _ looked result
        · rename_i result
          cases handled
          exact attrs _ _ _ _ looked result
  | read fhandle offset count =>
      have read : P (fsRead fs fhandle.toNat offset count).2 := stepped _ _ rfl
      rw [Call.handle, snfsRead, Option.some.injEq] at handled
      split at handled
      · cases handled
        exact here
      · split at handled
        · rename_i result
          rw [result] at read
          cases handled
          exact read
        · rename_i result
          rw [result] at read
          cases handled
          exact read
  | write fhandle offset count buffer =>
      have written : P (fsWrite fs fhandle.toNat offset buffer).2 := stepped _ _ rfl
      rw [Call.handle, snfsWrite] at handled
      split at handled
      · cases handled
        exact here
      · split at handled
        · rename_i result
          rw [result] at written
          cases handled
          exact written
        · rename_i result
          rw [result] at written
          split at handled
          · cases handled
          · rename_i asked
            cases handled
            exact attrs _ _ _ _ written asked
          · rename_i asked
            cases handled
            exact attrs _ _ _ _ written asked
  | create dir name =>
      rw [Call.handle, snfsCreate, Option.some.injEq] at handled
      cases handled
      exact stepped _ _ rfl
  | mkdir dir name =>
      rw [Call.handle, snfsMkdir, Option.some.injEq] at handled
      cases handled
      exact stepped _ _ rfl
  | readdir dir cmax =>
      have listed : P (fsReaddir fs dir.toNat (asInt cmax)).2 := stepped _ _ rfl
      rw [Call.handle, snfsReaddir] at handled
      split at handled
      · rename_i result
        rw [result] at listed
        cases handled
        exact listed
      · rename_i result
        rw [result] at listed
        obtain ⟨_, -, same⟩ := Option.map_eq_some_iff.mp handled
        cases same
        exact listed
  | copy srcpath tgtpath =>
      rw [Call.handle, snfsCopy] at handled
      obtain ⟨⟨done, fs₁⟩, result, same⟩ := Option.map_eq_some_iff.mp handled
      cases same
      exact stepped (.copied done) _ (by rw [Call.op, fsStep, result]; rfl)

/-- Only the paths of `fs_copy` may be other than the operations want them. -/
theorem Call.op_fits {call : Call} (taken : call.Taken) (junk : Junk) (other : call.type ≠ .copy) :
    (call.op junk).Fits := by
  cases call with
  | lookup _ | write _ _ _ _ | create _ _ | mkdir _ _ => exact taken
  | read _ _ _ | readdir _ _ => trivial
  | copy _ _ => exact absurd rfl other

/-- The call into the file system keeps the invariant; the paths of `fs_copy` may have no
component. -/
theorem Inv.step_call (h : Inv own top fs) {call : Call} (taken : call.Taken) {junk : Junk}
    (room : Room fs (demand fs (call.op junk))) {res : FsResult}
    (next : fsStep fs (call.op junk) = some (res, fs')) :
    ∃ own' top', StepKept own own' top top' fs (call.op junk) fs' := by
  cases call with
  | copy srcpath tgtpath =>
      obtain ⟨⟨done, fs₁⟩, result, same⟩ := Option.map_eq_some_iff.mp next
      cases same
      exact h.step_copy taken.2 room result
  | lookup _ | write _ _ _ _ | create _ _ | mkdir _ _ | read _ _ _ | readdir _ _ =>
      exact h.step (Call.op_fits taken junk (by simp [Call.type])) room next

private theorem cachesOk_call (h : Inv own top fs) (ok : CachesOk fs) {call : Call}
    (taken : call.Taken)
    {junk : Junk} (room : Room fs (demand fs (call.op junk))) {res : FsResult}
    (next : fsStep fs (call.op junk) = some (res, fs')) : CachesOk fs' := by
  have made (own' : Ledger) (type : Itype) (s : Fs) (dir : Nat) (name : CString) (s' : Fs)
      (hs : Inv own top s) (oks : CachesOk s) (made : Made own own' top type s dir name s') :
      CachesOk s' :=
    oks.made hs made
  cases call with
  | copy srcpath tgtpath =>
      obtain ⟨⟨done, fs₁⟩, result, same⟩ := Option.map_eq_some_iff.mp next
      cases same
      exact cachesOk_kept.copy h ok taken.2 room
        (fun _ _ _ _ _ _ _ hs oks => made _ _ _ _ _ _ hs oks) result
  | lookup _ | write _ _ _ _ | create _ _ | mkdir _ _ | read _ _ _ | readdir _ _ =>
      exact cachesOk_kept.step h ok (Call.op_fits taken junk (by simp [Call.type])) room
        (fun _ _ _ _ _ _ _ => made _ _ _ _ _ _) next

/-- A handler that returns leaves the file system sound and its device as long as it was. -/
theorem handle_sound (h : Inv own top fs) (ok : CachesOk fs) {call : Call} (taken : call.Taken)
    {junk : Junk} (room : Room fs (demand fs (call.op junk))) {reply : Option Reply}
    (handled : call.handle fs junk = some (reply, fs')) :
    Sound fs' ∧ fs'.numBlocks = fs.numBlocks := by
  refine handle_keeps (P := fun s => Sound s ∧ s.numBlocks = fs.numBlocks)
    ⟨⟨own, top, h, ok⟩, rfl⟩ (fun res s next => ?_) (fun s file attrs s' sound result => ?_) handled
  · obtain ⟨own', top', kept⟩ := h.step_call taken room next
    exact ⟨⟨own', top', kept.inv, cachesOk_call h ok taken room next⟩, kept.numBlocks⟩
  · obtain ⟨own', top', h', -⟩ := sound.1
    exact ⟨sound_getAttrs sound.1 result, (h'.fsGetAttrs result).2.1.numBlocks.trans sound.2⟩

/-- `fs_get_attrs` ends the process on inode 0 only. -/
theorem Inv.fsGetAttrs_eq_none (h : Inv own top fs) (file : Nat) :
    Snfs.fsGetAttrs fs file = none ↔ file = 0 := by
  rcases h.fsGetAttrs_cases file with ⟨out, stop⟩ | ⟨p, fs₁, opened, reported⟩
  · rw [stop]
    have pos := h.top_pos
    exact iff_of_false (by simp) (by omega)
  · have lt := (h.openInode opened).1
    rw [reported, Option.map_eq_none_iff, attrsOf, h.type_seen]
    by_cases zero : file = 0
    · rw [zero, h.inodes.zero]
      simp
    · rcases h.inodes.kind file (Nat.pos_of_ne_zero zero) lt with dir | isFile
      · rw [dir]
        simp [zero]
      · rw [isFile]
        simp [zero]

private theorem looked_eq_zero (h : Inv own top fs) (ok : CachesOk fs) (path : CString) (junk : Nat)
    (found : Option Nat) (result : (fsLookup fs path).1 = (1, found)) :
    found.getD junk = 0 ↔ NoComponent path ∧ junk = 0 := by
  rcases ok.pages.fsLookup h result with ⟨none, rfl⟩ | ⟨a, rfl, low, -⟩
  · have starts : path.head? = some slash := by
      rw [fsLookup] at result
      split at result
      · cases result
      · rename_i starts
        exact not_not.mp starts
    exact (and_iff_right ⟨starts, none⟩).symm
  · have components : ¬ NoComponent path := fun none => by
      rw [fsLookup, if_neg (not_not.mpr none.1), none.2] at result
      cases result
    exact iff_of_false (by simp only [Option.getD_some]; omega) fun h => components h.1

private theorem fsLookup_noComponent (fs : Fs) {path : CString} (none : NoComponent path) :
    fsLookup fs path = ((1, Option.none), fs) := by
  rw [fsLookup, if_neg (not_not.mpr none.1), none.2]
  rfl

private theorem snfsLookup_eq_none (h : Inv own top fs) (ok : CachesOk fs) (path : CString)
    (junk : Nat) :
    snfsLookup fs junk path = none ↔ NoComponent path ∧ junk = 0 := by
  have same := fsLookup_same fs path
  have zero := looked_eq_zero h ok path junk
  have bare := fun none : NoComponent path => fsLookup_noComponent fs none
  rw [snfsLookup]
  rcases looked : fsLookup fs path with ⟨⟨found, id⟩, fs₁⟩
  rw [looked] at same zero bare
  dsimp only at same zero ⊢
  by_cases code : found ≠ 1
  · rw [if_pos code]
    refine iff_of_false (by simp) fun none => code ?_
    have result := bare none.1
    cases result
    rfl
  · obtain rfl : found = 1 := not_not.mp code
    rw [if_neg code, ← zero id rfl, ← (same.inv h).fsGetAttrs_eq_none]
    split <;> simp_all

private theorem copyPaths_eq_none (h : Inv own top fs) (ok : CachesOk fs)
    (srcpath tgtpath : CString)
    (srcJunk dirJunk : Nat) :
    copyPaths fs srcJunk dirJunk srcpath tgtpath = none ↔ NoComponent srcpath ∧ srcJunk = 0 := by
  have same := fsLookup_same fs srcpath
  have zero := looked_eq_zero h ok srcpath srcJunk
  have bare := fun none : NoComponent srcpath => fsLookup_noComponent fs none
  have codes := fsLookup_code fs srcpath
  rw [copyPaths]
  rcases looked : fsLookup fs srcpath with ⟨⟨found, id⟩, fs₁⟩
  rw [looked] at same zero bare codes
  dsimp only at same zero codes ⊢
  rcases codes with missed | rfl
  · rw [if_pos missed]
    refine iff_of_false (by simp) fun none => ?_
    have result := bare none.1
    cases result
    exact absurd missed (by decide)
  · rw [if_neg (by decide), ← zero id rfl, ← (same.inv h).fsGetAttrs_eq_none]
    split
    · rename_i ends
      exact iff_of_true rfl ends
    · rename_i reported
      simp [reported]
    · rename_i reported
      rw [reported]
      refine iff_of_false ?_ (by simp)
      split
      · simp
      · split
        · simp
        · split <;> simp

private theorem snfsCopy_eq_none (h : Inv own top fs) (ok : CachesOk fs) (srcpath tgtpath : CString)
    (srcInode dirInode : Nat) : snfsCopy fs srcInode dirInode srcpath tgtpath = none ↔
      NoComponent srcpath ∧ srcInode = 0 := by
  rw [snfsCopy, Option.map_eq_none_iff, ← copyPaths_eq_none h ok srcpath tgtpath srcInode dirInode,
    fsCopy]
  split
  · rename_i ends
    exact iff_of_true rfl ends
  · rename_i paths
    simp [paths]
  · rename_i paths
    rw [paths]
    refine iff_of_false ?_ (by simp)
    split <;> simp

theorem snfsWrite_isSome (h : Inv own top fs) {file offset count : Nat} {data : List UInt8}
    (short : data.length ≤ 1024) (room : Room fs (demand fs (.write file offset data))) :
    snfsWrite fs file offset count data ≠ none := by
  obtain ⟨own', kept⟩ := h.step_write file offset short room
  rw [snfsWrite]
  split
  · simp
  · split
    · simp
    · rename_i fs₁ result
      rw [result] at kept
      have isFile : (fs.inodeTab file).type = .file := by
        have ends := h.fsWrite_ends file offset short room
        rw [result] at ends
        cases ends with
        | inside _ isFile => exact isFile
        | extended _ grows => exact grows.isFile
      have nonzero : file ≠ 0 := fun zero => by
        rw [zero, h.inodes.zero] at isFile
        cases isFile
      have ends : fsGetAttrs fs₁ file ≠ none := fun none =>
        nonzero ((kept.inv.fsGetAttrs_eq_none file).mp none)
      split
      · rename_i none
        exact absurd none ends
      · simp
      · simp

private theorem mapM_eq_none {α β : Type} {f : α → Option β} {xs : List α} :
    xs.mapM f = none ↔ ∃ x ∈ xs, f x = none := by
  induction xs with
  | nil => simp
  | cons x xs ih =>
      rw [List.mapM_cons]
      cases here : f x with
      | none => simp [here]
      | some y =>
          cases rest : xs.mapM f with
          | none => simpa [here, rest] using ih.mp rest
          | some ys => simpa [here, rest] using ih

private theorem snfsDirEntry_eq_none (h : Inv own top fs) {page : Block}
    (ok : PageOk fs.inodeBmap page)
    {j : Nat} (hj : j < dirPageEntries) :
    snfsDirEntry (listedEntry fs page j) = none ↔ entryInodeid page j = 0 := by
  rw [snfsDirEntry, listedEntry, listed]
  rcases ok j hj with ⟨-, blank⟩ | ⟨low, set⟩
  · simp only [blank, h.inodes.zero]
  · rcases h.inodes.kind _ (Nat.le_of_lt low) (h.lt_top set) with dir | isFile
    · simp only [dir]
      exact iff_of_false (by simp) (by omega)
    · simp only [isFile]
      exact iff_of_false (by simp) (by omega)

private theorem snfsReaddir_eq_none (h : Inv own top fs) (ok : CachesOk fs) (dir maxentries : Nat) :
    snfsReaddir fs dir maxentries = none ↔ ListsBlank fs dir (asInt maxentries) := by
  have listing := h.fsReaddir_eq ok.pages ok.copies dir (asInt maxentries)
  rw [snfsReaddir]
  rcases result : fsReaddir fs dir (asInt maxentries) with ⟨names, fs₁⟩
  rw [result] at listing
  dsimp only at listing
  by_cases lists : IsDir fs dir ∧ 0 ≤ asInt maxentries
  · rw [if_pos lists] at listing
    subst listing
    simp only [Option.map_eq_none_iff, mapM_eq_none, List.mem_map, List.mem_range, ListsBlank]
    constructor
    · rintro ⟨entry, ⟨k, hk, rfl⟩, blank⟩
      have page := h.listedPage_ok ok.pages ok.copies lists.1 hk
      exact ⟨lists.1, k, hk, (snfsDirEntry_eq_none h page (Nat.mod_lt _ (by decide))).mp blank⟩
    · rintro ⟨isDir, k, hk, blank⟩
      have page := h.listedPage_ok ok.pages ok.copies isDir hk
      exact ⟨_, ⟨k, hk, rfl⟩, (snfsDirEntry_eq_none h page (Nat.mod_lt _ (by decide))).mpr blank⟩
  · rw [if_neg lists] at listing
    subst listing
    refine iff_of_false (by simp) fun ⟨isDir, k, hk, _⟩ => lists ⟨isDir, ?_⟩
    have positive := Nat.lt_of_lt_of_le hk (Nat.min_le_right _ _)
    omega

/-- A handler returns exactly if the request is one of those spared. -/
theorem handle_isSome_iff (h : Inv own top fs) (ok : CachesOk fs) {call : Call} (taken : call.Taken)
    {junk : Junk} (room : Room fs (demand fs (call.op junk))) :
    (call.handle fs junk).isSome = true ↔ call.Spares fs junk := by
  rw [Option.isSome_iff_ne_none]
  cases call with
  | lookup pathname =>
      rw [Call.handle, Call.Spares, ne_eq, snfsLookup_eq_none h ok, not_and]
  | read fhandle offset count => simp [Call.handle, Call.Spares]
  | write fhandle offset count buffer =>
      exact iff_of_true (snfsWrite_isSome h taken room) trivial
  | create dir name => simp [Call.handle, Call.Spares]
  | mkdir dir name => simp [Call.handle, Call.Spares]
  | readdir dir cmax => rw [Call.handle, Call.Spares, ne_eq, snfsReaddir_eq_none h ok]
  | copy srcpath tgtpath =>
      rw [Call.handle, Call.Spares, ne_eq, snfsCopy_eq_none h ok, not_and]

theorem serveRequest_sound (sound : Sound fs) {e : Req × Junk} (admissible : Admissible fs e)
    {answer : Res × Nat} (served : serveRequest fs e = some (answer, fs')) : Sound fs' := by
  obtain ⟨own, top, h, ok⟩ := id sound
  rw [serveRequest] at served
  rw [Admissible] at admissible
  split at served
  · rename_i call handled
    rw [handled] at admissible
    obtain ⟨⟨reply, fs₁⟩, result, same⟩ := Option.map_eq_some_iff.mp served
    cases same
    exact (handle_sound h ok (handledCall_taken handled) admissible.2 result).1
  · cases served
    exact sound

private theorem serveRequest_isSome_iff (sound : Sound fs) {e : Req × Junk}
    (admissible : Admissible fs e) : (serveRequest fs e).isSome = true ↔ Spares fs e := by
  obtain ⟨own, top, h, ok⟩ := sound
  rw [serveRequest, Spares]
  rw [Admissible] at admissible
  split at admissible
  · rename_i call handled
    simp only [Option.isSome_map]
    exact handle_isSome_iff h ok (handledCall_taken handled) admissible.2
  · simp

/-- In every state that handled requests lead to, a request is answered exactly if it is not one
of those that end the process. -/
theorem request_answered_iff {num : Nat} {clock : Nat → Int} {boot : Fs}
    {trace : List ((Req × Junk) × (Res × Nat))} (data : 10 ≤ num)
    (unwrapped : num * blockSize < 2 ^ 32) (started : fsBoot num clock = some boot)
    (run : Run (Guarded (fun s e => Admissible s e.1) (Next serveRequest)) boot trace fs)
    {e : Req × Junk} (admissible : Admissible fs e) :
    (serveRequest fs e).isSome = true ↔ Spares fs e := by
  have formatted := fsBoot_formatted data unwrapped started
  have sound : Sound fs := run.invariant (I := Sound)
    ⟨_, 2, formatted.inv data, formatted.cachesOk data⟩
    fun _ _ _ sound next => serveRequest_sound sound next.1 next.2
  exact serveRequest_isSome_iff sound admissible

/-- The request of a client stub, served with variables that hold 9 when they are declared. -/
def requested (call : Call) : Req × Junk := (srvRecvRequest ⟨[], call.sent 0⟩, ⟨9, 9, 9⟩)

theorem request_answered_listing :
    ∃ trace fs, (fsBoot 16 fun _ => 1).bind (fun boot =>
        execute serveRequest boot [requested (.create 1 [97])]) = some (trace, fs) ∧
      (serveRequest fs (requested (.readdir 1 64))).isSome = true := by
  have boots : ((fsBoot 16 fun _ => 1).bind fun boot =>
      (execute serveRequest boot [requested (.create 1 [97])]).map fun r =>
        (decide (Meets serveRequest Admissible boot [requested (.create 1 [97])]),
          decide (Admissible r.2 (requested (.readdir 1 64))),
          decide (Spares r.2 (requested (.readdir 1 64))))) = some (true, true, true) := by
    decide +kernel
  obtain ⟨boot, started, facts⟩ := Option.bind_eq_some_iff.mp boots
  obtain ⟨⟨trace, fs⟩, served, facts⟩ := Option.map_eq_some_iff.mp facts
  simp only [Prod.mk.injEq] at facts
  obtain ⟨met, admissible, spared⟩ := facts
  refine ⟨trace, fs, by rw [started]; exact served, ?_⟩
  exact (request_answered_iff (by decide) (by decide) started
    (run_of_execute served (of_decide_eq_true met)) (of_decide_eq_true admissible)).mpr
      (of_decide_eq_true spared)

private theorem serveRequest_requested {call : Call} (limits : call.Limits) (carried : call.Carried)
    (fs : Fs) : serveRequest fs (requested call) = (call.handle fs ⟨9, 9, 9⟩).map fun r =>
      (serve (requested call).1 (response call.type r.1), r.2) := by
  have handled : handledCall (requested call).1 = some call :=
    (handledCall_eq_iff limits 0 []).mpr carried
  rw [serveRequest, handled]
  rfl

private theorem admissible_requested {call : Call} (limits : call.Limits) (carried : call.Carried)
    (fits : call.PathsFit) {fs : Fs} (room : Room fs (demand fs (call.op ⟨9, 9, 9⟩))) :
    Admissible fs (requested call) := by
  have handled : handledCall (requested call).1 = some call :=
    (handledCall_eq_iff limits 0 []).mpr carried
  rw [Admissible, handled]
  exact ⟨fits, room⟩

private theorem run_requested {boot : Fs} {trace : List ((Req × Junk) × (Res × Nat))}
    (run : Run (Guarded (fun s e => Admissible s e.1) (Next serveRequest)) boot trace fs)
    {call : Call} (limits : call.Limits) (carried : call.Carried) (fits : call.PathsFit)
    (room : Room fs (demand fs (call.op ⟨9, 9, 9⟩))) {r : Option Reply × Fs}
    (handled : call.handle fs ⟨9, 9, 9⟩ = some r) :
    ∃ trace, Run (Guarded (fun s e => Admissible s e.1) (Next serveRequest)) boot trace r.2 := by
  have next := serveRequest_requested limits carried fs
  rw [handled] at next
  exact ⟨_, run.snoc (e := (requested call, _))
    ⟨admissible_requested limits carried fits room, next⟩⟩

/-- The cached page of the root is older than its second file, and the listing ends the server. -/
theorem listing_ends_server :
    ¬ ∀ num clock boot trace fs e, 10 ≤ num → fsBoot num clock = some boot →
      Run (Guarded (fun s e => Admissible s e.1) (Next serveRequest)) boot trace fs →
      Admissible fs e → (serveRequest fs e).isSome = true := by
  intro answered
  have first : (Call.create 1 [97]).Limits := ⟨by decide, by decide, by decide⟩
  have second : (Call.create 1 [98]).Limits := ⟨by decide, by decide, by decide⟩
  have list : (Call.readdir 1 64).Limits := ⟨by decide, by decide⟩
  have root : IsInodeid 1 := ⟨by decide, by decide⟩
  have boots : ((fsBoot 16 fun _ => 1).bind fun boot =>
      ((Call.create 1 [97]).handle boot ⟨9, 9, 9⟩).bind fun r₁ =>
        ((Call.create 1 [98]).handle r₁.2 ⟨9, 9, 9⟩).map fun r₂ =>
          (decide (Room boot 1), decide (Room r₁.2 1),
            ((Call.readdir 1 64).handle r₂.2 ⟨9, 9, 9⟩).isSome)) = some (true, true, false) := by
    decide +kernel
  obtain ⟨boot, started, facts⟩ := Option.bind_eq_some_iff.mp boots
  obtain ⟨r₁, create₁, facts⟩ := Option.bind_eq_some_iff.mp facts
  obtain ⟨r₂, create₂, facts⟩ := Option.map_eq_some_iff.mp facts
  simp only [Prod.mk.injEq] at facts
  obtain ⟨room₁, room₂, ends⟩ := facts
  obtain ⟨_, run⟩ := run_requested .nil first root trivial (of_decide_eq_true room₁) create₁
  obtain ⟨_, run⟩ := run_requested run second root trivial (of_decide_eq_true room₂) create₂
  have answer := answered 16 _ boot _ r₂.2 (requested (.readdir 1 64)) (by decide) started run
    (admissible_requested list root trivial (.inr (Nat.zero_le _)))
  rw [serveRequest_requested list root, Option.isSome_map, ends] at answer
  cases answer

end Snfs
