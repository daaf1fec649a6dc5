import Snfs.Fs.Reachable
import Snfs.Server.Handlers

/-!
The handlers by the calls that they make of the file system. A handler makes one call, and
after a lookup or a write it may ask for the attributes of an inode; what it puts in the
response depends on what these two return. So a run of requests is a run of calls, and what
holds after every run of calls holds of the server.
-/

namespace Snfs

open Runs

/-- What is left to do for a handler: to send a response, or to ask for the attributes of an inode
first. -/
inductive Pending where
  | send (reply : Option Reply)
  | ask (file : Nat) (reply : FileAttrs → Reply)

/-- The counts that the handlers of `snfs_read` and `snfs_write` refuse. -/
def Call.Refused : Call → Prop
  | .read _ _ count => maxReadData < count
  | .write _ _ count _ => maxWriteData < count
  | _ => False

instance : DecidablePred Call.Refused
  | .read _ _ count => inferInstanceAs (Decidable (maxReadData < count))
  | .write _ _ count _ => inferInstanceAs (Decidable (maxWriteData < count))
  | .lookup _ | .create _ _ | .mkdir _ _ | .readdir _ _ | .copy _ _ => .isFalse id

/-- What the handler for a call makes of the result of its first call; `none` is a call of
`exit(-1)`. -/
def Call.pending (junk : Junk) : Call → FsResult → Option Pending
  | .lookup _, .looked found id =>
      if found ≠ 1 then some (.send none)
      else
        let fileid := id.getD junk.fileid
        some (.ask fileid fun attrs => .lookup fileid attrs.size)
  | .read _ _ _, .data bytes => some (.send (bytes.map fun data => .read data data.length))
  | .write _ _ _ _, .written false => some (.send none)
  | .write fhandle _ _ _, .written true =>
      some (.ask fhandle.toNat fun attrs => .write attrs.size)
  | .create _ _, .made fileid => some (.send (fileid.map .create))
  | .mkdir _ _, .made dirid => some (.send (dirid.map .mkdir))
  | .readdir _ _, .listed none => some (.send none)
  | .readdir _ _, .listed (some entries) =>
      (entries.mapM snfsDirEntry).map fun list => .send (some (.readdir list))
  | .copy _ _, .copied ok => some (.send (if ok then some .copy else none))
  | _, _ => none

def attrsReply (reply : FileAttrs → Reply) : FsResult → Option Reply
  | .attrs attrs => attrs.map reply
  | _ => none

def Pending.run (fs : Fs) : Pending → Option (Option Reply × Fs)
  | .send reply => some (reply, fs)
  | .ask file reply =>
    match fsStep fs (.getAttrs file) with
    | none => none
    | some (res, fs) => some (attrsReply reply res, fs)

/-- A handler by the calls that it makes of the file system. -/
def Call.handleByCalls (fs : Fs) (junk : Junk) (call : Call) : Option (Option Reply × Fs) :=
  if call.Refused then some (none, fs)
  else
    match fsStep fs (call.op junk) with
    | none => none
    | some (res, fs) =>
      match call.pending junk res with
      | none => none
      | some pending => pending.run fs

theorem Call.handle_eq (fs : Fs) (junk : Junk) (call : Call) :
    call.handle fs junk = call.handleByCalls fs junk := by
  cases call with
  | lookup pathname =>
      rw [Call.handle, snfsLookup, handleByCalls,
        if_neg (show ¬ Call.Refused (.lookup pathname) from id)]
      simp only [op, fsStep]
      rcases fsLookup fs pathname with ⟨⟨found, id⟩, fs₁⟩
      dsimp only [pending]
      by_cases missed : found ≠ 1
      · rw [if_pos missed, if_pos missed]
        rfl
      · rw [if_neg missed, if_neg missed]
        dsimp only [Pending.run, fsStep]
        rcases fsGetAttrs fs₁ (id.getD junk.fileid) with _ | ⟨_ | attrs, fs₂⟩ <;> rfl
  | read fhandle offset count =>
      rw [Call.handle, snfsRead, handleByCalls]
      by_cases refused : maxReadData < count
      · rw [if_pos refused, if_pos (show Call.Refused (.read fhandle offset count) from refused)]
      · rw [if_neg refused, if_neg (show ¬ Call.Refused (.read fhandle offset count) from refused)]
        simp only [op, fsStep]
        rcases fsRead fs fhandle.toNat offset count with ⟨_ | data, fs₁⟩ <;> rfl
  | write fhandle offset count buffer =>
      rw [Call.handle, snfsWrite, handleByCalls]
      by_cases refused : maxWriteData < count
      · rw [if_pos refused,
          if_pos (show Call.Refused (.write fhandle offset count buffer) from refused)]
      · rw [if_neg refused,
          if_neg (show ¬ Call.Refused (.write fhandle offset count buffer) from refused)]
        simp only [op, fsStep]
        rcases fsWrite fs fhandle.toNat offset buffer with ⟨_ | _, fs₁⟩
        · rfl
        · dsimp only [pending, Pending.run, fsStep]
          rcases fsGetAttrs fs₁ fhandle.toNat with _ | ⟨_ | attrs, fs₂⟩ <;> rfl
  | create dir name => rfl
  | mkdir dir name => rfl
  | readdir dir cmax =>
      rw [Call.handle, snfsReaddir, handleByCalls,
        if_neg (show ¬ Call.Refused (.readdir dir cmax) from id)]
      simp only [op, fsStep]
      rcases fsReaddir fs dir.toNat (asInt cmax) with ⟨_ | entries, fs₁⟩
      · rfl
      · dsimp only [pending]
        cases entries.mapM snfsDirEntry <;> rfl
  | copy srcpath tgtpath =>
      rw [Call.handle, snfsCopy, handleByCalls,
        if_neg (show ¬ Call.Refused (.copy srcpath tgtpath) from id)]
      simp only [op, fsStep]
      rcases fsCopy fs junk.srcInode junk.dirInode srcpath tgtpath with _ | ⟨ok, fs₁⟩ <;> rfl

/-- What a handler can have done: it has refused the count, or sent what it made of a result, or
asked for attributes in between. -/
theorem Call.handle_cases {fs fs' : Fs} {junk : Junk}
    {call : Call} {reply : Option Reply}
    (handled : call.handle fs junk = some (reply, fs')) :
    (call.Refused ∧ reply = none ∧ fs' = fs) ∨
    (∃ res, ¬ call.Refused ∧ fsStep fs (call.op junk) = some (res, fs') ∧
      call.pending junk res = some (.send reply)) ∨
    ∃ res fs₁ file make res', ¬ call.Refused ∧ fsStep fs (call.op junk) = some (res, fs₁) ∧
      call.pending junk res = some (.ask file make) ∧
      fsStep fs₁ (.getAttrs file) = some (res', fs') ∧ reply = attrsReply make res' := by
  rw [Call.handle_eq, handleByCalls] at handled
  by_cases refused : call.Refused
  · rw [if_pos refused] at handled
    cases handled
    exact .inl ⟨refused, rfl, rfl⟩
  rw [if_neg refused] at handled
  split at handled
  · cases handled
  rename_i res fs₁ stepped
  split at handled
  · cases handled
  rename_i pending rest
  cases pending with
  | send reply =>
      cases handled
      exact .inr (.inl ⟨res, refused, stepped, rest⟩)
  | ask file make =>
      rw [Pending.run] at handled
      split at handled
      · cases handled
      rename_i res' fs₂ asked
      cases handled
      exact .inr (.inr ⟨res, fs₁, file, make, res', refused, stepped, rest, asked, rfl⟩)

/-- The first call that a request leads to meets the condition. -/
def RequestMeets (guard : Fs → FsOp → Prop) (fs : Fs) (e : Req × Junk) : Prop :=
  match handledCall e.1 with
  | some call => call.Refused ∨ guard fs (call.op e.2)
  | none => True

instance {guard : Fs → FsOp → Prop} [∀ fs op, Decidable (guard fs op)] (fs : Fs) (e : Req × Junk) :
    Decidable (RequestMeets guard fs e) :=
  match handled : handledCall e.1 with
  | some call => decidable_of_iff (call.Refused ∨ guard fs (call.op e.2))
      (by rw [RequestMeets, handled])
  | none => .isTrue (by rw [RequestMeets, handled]; trivial)

theorem RequestMeets.mono {guard guard' : Fs → FsOp → Prop}
    (le : ∀ fs op, guard fs op → guard' fs op) {fs : Fs} {e : Req × Junk}
    (met : RequestMeets guard fs e) : RequestMeets guard' fs e := by
  rw [RequestMeets] at met ⊢
  split at met
  · exact met.imp_right (le fs _)
  · trivial

section Runs
variable {guard : Fs → FsOp → Prop} {fs fs' : Fs}

/-- The calls of a handler, where the question for attributes adds nothing to the condition. -/
theorem run_of_handled (asks : ∀ fs file, guard fs (.getAttrs file)) {call : Call} {junk : Junk}
    (met : call.Refused ∨ guard fs (call.op junk)) {reply : Option Reply}
    (handled : call.handle fs junk = some (reply, fs')) :
    ∃ calls, Run (Guarded (fun s e => guard s e.1) FsNext) fs calls fs' := by
  rcases call.handle_cases handled with ⟨-, -, rfl⟩ | ⟨res, admitted, stepped, -⟩ |
    ⟨res, fs₁, file, make, res', admitted, stepped, -, next, -⟩
  · exact ⟨_, .nil⟩
  · exact ⟨_, Run.nil.snoc (e := (call.op junk, res)) ⟨met.resolve_left admitted, stepped⟩⟩
  · have first : Run (Guarded (fun s e => guard s e.1) FsNext) fs [(call.op junk, res)] fs₁ :=
      Run.nil.snoc (e := (call.op junk, res)) ⟨met.resolve_left admitted, stepped⟩
    have asked : FsNext fs₁ (.getAttrs file, res') fs' := next
    exact ⟨_, first.snoc ⟨asks fs₁ file, asked⟩⟩

private theorem run_of_served (asks : ∀ fs file, guard fs (.getAttrs file)) {e : Req × Junk}
    (met : RequestMeets guard fs e) {res : Res × Nat}
    (served : serveRequest fs e = some (res, fs')) :
    ∃ calls, Run (Guarded (fun s e => guard s e.1) FsNext) fs calls fs' := by
  rw [serveRequest] at served
  rw [RequestMeets] at met
  split at served
  · rename_i call handled
    rw [handled] at met
    obtain ⟨⟨reply, fs₁⟩, done, same⟩ := Option.map_eq_some_iff.mp served
    cases same
    exact run_of_handled asks met done
  · cases served
    exact ⟨_, .nil⟩

/-- A run of requests is a run of calls. -/
theorem run_of_requests (asks : ∀ fs file, guard fs (.getAttrs file)) {boot : Fs}
    {trace : List ((Req × Junk) × (Res × Nat))}
    (run : Run (Guarded (fun s e => RequestMeets guard s e.1) (Next serveRequest)) boot trace fs) :
    ∃ calls, Run (Guarded (fun s e => guard s e.1) FsNext) boot calls fs :=
  run.invariant (I := fun s => ∃ calls, Run (Guarded (fun s e => guard s e.1) FsNext) boot calls s)
    ⟨_, .nil⟩ fun s e s' ⟨calls, before⟩ ⟨met, next⟩ => by
      obtain ⟨calls', after⟩ := run_of_served asks met next
      exact ⟨calls ++ calls', before.append after⟩

end Runs

theorem within_getAttrs (fs : Fs) (file : Nat) : Within fs (.getAttrs file) :=
  ⟨trivial, .inr (Nat.zero_le _)⟩

theorem Inv.numBlocks_run {own : Ledger} {top : Nat} {fs fs' : Fs} (h : Inv own top fs)
    {calls : List (FsOp × FsResult)}
    (run : Run (Guarded (fun s e => Within s e.1) FsNext) fs calls fs') :
    fs'.numBlocks = fs.numBlocks := by
  obtain ⟨-, -, -, same⟩ := run.invariant
    (I := fun s => ∃ own top, Inv own top s ∧ s.numBlocks = fs.numBlocks) ⟨own, top, h, rfl⟩
    fun s e s' ⟨own, top, inv, same⟩ ⟨within, next⟩ => by
      obtain ⟨own', top', kept⟩ := inv.step within.1 within.2 next
      exact ⟨own', top', kept.inv, kept.numBlocks.trans same⟩
  exact same

theorem Inv.numBlocks_handled {own : Ledger} {top : Nat} {fs fs' : Fs} (h : Inv own top fs)
    {call : Call} {junk : Junk} (within : Within fs (call.op junk)) {reply : Option Reply}
    (handled : call.handle fs junk = some (reply, fs')) : fs'.numBlocks = fs.numBlocks := by
  obtain ⟨calls, run⟩ := run_of_handled within_getAttrs (.inr within) handled
  exact h.numBlocks_run run

end Snfs
