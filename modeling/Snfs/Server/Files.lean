import Snfs.Fs.Contents
import Snfs.Server.Operations

/-!
What requests and responses say about files, whoever sent them. The byte list of a file
can be read off the requests that made it and wrote to it and the responses to them, and
every later response about the file is the one that the byte list gives.
-/

namespace Snfs

open Runs

/-- What a call whose response has this status and body says about the files. -/
def replyStep (files : FileModel) (call : Call) (res : Res) : FileModel :=
  match call with
  | .create _ _ =>
      if res.status = resOk then Function.update files (res.body.word 0) (some []) else files
  | .write fhandle offset _ buffer =>
      if res.status = resOk then
        Function.update files fhandle.toNat
          ((files fhandle.toNat).map fun xs => overwrite xs (min offset xs.length) buffer)
      else files
  | _ => files

def requestStep (files : FileModel) (e : (Req × Junk) × (Res × Nat)) : FileModel :=
  match handledCall e.1.1 with
  | some call => replyStep files call e.2.1
  | none => files

def requestModel (trace : List ((Req × Junk) × (Res × Nat))) : FileModel :=
  trace.foldl requestStep fun _ => none

/-- The response to a read is that of the bytes, to the last byte of the message. A write to the
file is refused or gives the new length, and a lookup that leads to the file gives its length. -/
def CallAgrees (files : FileModel) (r : Req) (res : Res × Nat) : Call → Prop
  | .read fhandle offset count =>
      ∀ xs, files fhandle.toNat = some xs → res = serve r (response .read
        (if maxReadData < count then none
        else some (.read ((xs.drop offset).take count) ((xs.drop offset).take count).length)))
  | .write fhandle offset _ buffer =>
      ∀ xs, files fhandle.toNat = some xs → res = serve r (response .write none) ∨
        res = serve r (Reply.write (overwrite xs (min offset xs.length) buffer).length).res
  | .lookup _ =>
      res.1.status = resOk → ∀ xs, files (res.1.body.word 0) = some xs →
        res.1.body.word 4 = xs.length
  | _ => True

def ResponseAgrees (files : FileModel) (e : (Req × Junk) × (Res × Nat)) : Prop :=
  ∀ call ∈ handledCall e.1.1, CallAgrees files e.1.1 e.2 call

private theorem requestModel_concat (trace : List ((Req × Junk) × (Res × Nat)))
    (e : (Req × Junk) × (Res × Nat)) :
    requestModel (trace ++ [e]) = requestStep (requestModel trace) e := by
  simp [requestModel]

variable {own : Ledger} {top : Nat} {fs fs' : Fs} {files : FileModel}

theorem serve_handled {r : Req} {call : Call} (handled : handledCall r = some call)
    (answer : Res × Nat) : serve r answer = ({ answer.1 with sn := r.sn }, answer.2) := by
  obtain ⟨type, found, -⟩ := Option.bind_eq_some_iff.mp handled
  rw [serve, found]

theorem serve_reply {r : Req} {call : Call} (handled : handledCall r = some call) (reply : Reply) :
    (serve r (response call.type (some reply))).1.status = resOk ∧
      (serve r (response call.type (some reply))).1.body = reply.body := by
  rw [serve_handled handled]
  exact ⟨rfl, rfl⟩

private theorem keepsFiles_getAttrs (fs : Fs) (file : Nat) : KeepsFiles fs (.getAttrs file) :=
  ⟨trivial, .inr (Nat.zero_le _), id⟩

theorem Tracks.asked (tracks : Tracks top fs files) (h : Inv own top fs) {file : Nat}
    {res : FsResult} (next : fsStep fs (.getAttrs file) = some (res, fs')) :
    (∃ own' top', Inv own' top' fs' ∧ Tracks top' fs' files) ∧ ∃ attrs, res = .attrs attrs ∧
      (∀ x ∈ attrs, file < 2 ^ 32 ∧ x.size < 2 ^ 32) ∧
      ∀ xs, files file = some xs → attrs = some ⟨file, .file, xs.length, -1⟩ := by
  have agrees := tracks.result h next
  refine ⟨tracks.step h (keepsFiles_getAttrs fs file) next, ?_⟩
  obtain ⟨⟨attrs, fs₁⟩, got, same⟩ := Option.map_eq_some_iff.mp next
  cases same
  refine ⟨attrs, rfl, fun x reported => ?_, agrees⟩
  rcases h.fsGetAttrs_cases file with ⟨-, stop⟩ | ⟨p, fs₂, opened, result⟩
  · rw [stop] at got
    cases got
    cases reported
  · obtain ⟨lt, -⟩ := h.openInode opened
    have small := h.inodes.le_size
    have size := (h.owned_seen lt).size_le
    rw [result] at got
    obtain ⟨y, filled, same⟩ := Option.map_eq_some_iff.mp got
    cases same
    cases reported
    refine ⟨Nat.lt_of_lt_of_le lt (Nat.le_trans small (by decide)), ?_⟩
    have same : x.size = (fs.seen file).size := by
      rw [attrsOf] at filled
      split at filled <;> cases filled <;> rfl
    omega

/-- What a handled request does to the files of the model, and what its response says of them. -/
theorem Tracks.handled (tracks : Tracks top fs files) (h : Inv own top fs) {r : Req} {junk : Junk}
    {call : Call} (asked : handledCall r = some call)
    (guard : call.Refused ∨ KeepsFiles fs (call.op junk)) {reply : Option Reply}
    (handled : call.handle fs junk = some (reply, fs')) :
    (∃ own' top', Inv own' top' fs' ∧
      Tracks top' fs' (replyStep files call (serve r (response call.type reply)).1)) ∧
    CallAgrees files r (serve r (response call.type reply)) call := by
  have refusal : (serve r (response call.type none)).1.status ≠ resOk := by
    rw [serve_handled asked]
    exact show resError ≠ resOk by decide
  rcases call.handle_cases handled with ⟨refused, rfl, rfl⟩ | ⟨res, admitted, stepped, rest⟩ |
    ⟨res, fs₁, file, make, res', admitted, stepped, rest, next, rfl⟩
  · -- the count is too high
    cases call with
    | read fhandle offset count =>
        refine ⟨⟨own, top, h, tracks⟩, fun xs _ => ?_⟩
        rw [if_pos (show maxReadData < count from refused)]
        rfl
    | write fhandle offset count buffer =>
        refine ⟨⟨own, top, h, ?_⟩, fun xs _ => .inl rfl⟩
        rw [replyStep, if_neg refusal]
        exact tracks
    | lookup _ | create _ _ | mkdir _ _ | readdir _ _ | copy _ _ => exact refused.elim
  · have kept := tracks.step h (guard.resolve_left admitted) stepped
    have agrees := tracks.result h stepped
    cases call with
    | lookup pathname =>
        simp only [Call.op, fsStep] at stepped
        generalize fsLookup fs pathname = result at stepped
        cases stepped
        refine ⟨kept, fun ok => ?_⟩
        rw [Call.pending] at rest
        split at rest
        · cases rest
          exact absurd ok refusal
        · cases rest
    | read fhandle offset count =>
        simp only [Call.op, fsStep] at stepped
        generalize fsRead fs fhandle.toNat offset count = result at stepped
        cases stepped
        cases rest
        refine ⟨kept, fun xs listed => ?_⟩
        rw [if_neg (show ¬ maxReadData < count from admitted), agrees xs listed]
        rfl
    | write fhandle offset count buffer =>
        cases result : fsWrite fs fhandle.toNat offset buffer with
        | mk ok fs₁ =>
            simp only [Call.op, fsStep, result] at stepped
            cases stepped
            cases ok with
            | true => cases rest
            | false =>
                cases rest
                refine ⟨?_, fun xs _ => .inl rfl⟩
                rw [replyStep, if_neg refusal]
                exact kept
    | create dir name =>
        refine ⟨?_, trivial⟩
        rcases h.fsMake .file (.inr rfl) dir.toNat
          ((guard.resolve_left admitted).1) ((guard.resolve_left admitted).2.1) with
          ⟨fs₁, stop, -⟩ | ⟨own₁, fs₁, done, made⟩
        · simp only [Call.op, fsStep, fsCreate, stop] at stepped
          cases stepped
          cases rest
          rw [replyStep, Option.map_none, if_neg refusal]
          exact kept
        · simp only [Call.op, fsStep, fsCreate, done] at stepped
          cases stepped
          cases rest
          have free : top < 64 := made.free
          have sent := serve_reply asked (.create top)
          have id : (Reply.create top).body.word 0 = top :=
            Buf.word_putWord _ (by decide) (by omega)
          rw [replyStep, Option.map_some, if_pos sent.1, sent.2, id]
          exact kept
    | mkdir dir name =>
        simp only [Call.op, fsStep] at stepped
        generalize fsMkdir fs dir.toNat name = result at stepped
        cases stepped
        exact ⟨kept, trivial⟩
    | readdir dir cmax =>
        simp only [Call.op, fsStep] at stepped
        generalize fsReaddir fs dir.toNat (asInt cmax) = result at stepped
        cases stepped
        exact ⟨kept, trivial⟩
    | copy srcpath tgtpath =>
        obtain ⟨result, -, same⟩ := Option.map_eq_some_iff.mp stepped
        cases same
        exact ⟨kept, trivial⟩
  · have kept := tracks.step h (guard.resolve_left admitted) stepped
    obtain ⟨own₁, top₁, h₁, tracks₁⟩ := kept
    obtain ⟨kept, attrs, rfl, bounds, told⟩ := tracks₁.asked h₁ next
    cases call with
    | lookup pathname =>
        simp only [Call.op, fsStep] at stepped
        generalize fsLookup fs pathname = result at stepped
        cases stepped
        rw [Call.pending] at rest
        split at rest
        · cases rest
        cases rest
        refine ⟨kept, fun ok xs listed => ?_⟩
        cases attrs with
        | none => exact absurd ok refusal
        | some x =>
            obtain ⟨id, size⟩ := bounds x rfl
            rw [attrsReply, Option.map_some, (serve_reply asked _).2] at listed ⊢
            generalize result.1.2.getD junk.fileid = file at listed told id ⊢
            have stored : (Reply.lookup file x.size).body.word 0 = file := by
              rw [Reply.body, Buf.word_putWord_other _ _ (by decide),
                Buf.word_putWord _ (by decide) id]
            rw [stored] at listed
            cases told xs listed
            exact Buf.word_putWord _ (by decide) size
    | write fhandle offset count buffer =>
        cases wrote : fsWrite fs fhandle.toNat offset buffer with
        | mk ok fs₂ =>
            simp only [Call.op, fsStep, wrote] at stepped
            cases stepped
            cases ok with
            | false => cases rest
            | true =>
                cases rest
                obtain ⟨own₂, top₂, h₂, tracks₂⟩ := kept
                rw [Call.op, modelStep] at tracks₂ told
                cases attrs with
                | none =>
                    refine ⟨⟨own₂, top₂, h₂, ?_⟩, fun xs _ => .inl rfl⟩
                    have other : files fhandle.toNat = none := by
                      cases listed : files fhandle.toNat with
                      | none => rfl
                      | some xs =>
                          have now := told _ (by rw [Function.update_self, listed, Option.map_some])
                          cases now
                    rw [other, Option.map_none, ← other, Function.update_eq_self] at tracks₂
                    rw [attrsReply, Option.map_none, replyStep, if_neg refusal]
                    exact tracks₂
                | some x =>
                    rw [attrsReply, Option.map_some, replyStep, if_pos (serve_reply asked _).1]
                    refine ⟨⟨own₂, top₂, h₂, tracks₂⟩, fun xs listed => .inr ?_⟩
                    have now := told (overwrite xs (min offset xs.length) buffer) (by
                      rw [Function.update_self, listed, Option.map_some])
                    cases now
                    rfl
    | read _ _ _ | create _ _ | mkdir _ _ | copy _ _ => cases res <;> cases rest
    | readdir dir cmax =>
        cases res with
        | listed entries =>
            cases entries with
            | none => cases rest
            | some entries =>
                obtain ⟨_, _, sent⟩ := Option.map_eq_some_iff.mp rest
                cases sent
        | looked _ _ | attrs _ | data _ | written _ | made _ | copied _ => cases rest

theorem Tracks.served (tracks : Tracks top fs files) (h : Inv own top fs) {e : Req × Junk}
    (guard : RequestMeets KeepsFiles fs e) {res : Res × Nat}
    (served : serveRequest fs e = some (res, fs')) :
    (∃ own' top', Inv own' top' fs' ∧ Tracks top' fs' (requestStep files (e, res))) ∧
      ResponseAgrees files (e, res) := by
  rw [serveRequest] at served
  rw [RequestMeets] at guard
  cases asked : handledCall e.1 with
  | none =>
      rw [asked] at served
      cases served
      refine ⟨⟨own, top, h, by rwa [requestStep, asked]⟩, fun call handled => ?_⟩
      rw [asked] at handled
      cases handled
  | some call =>
      rw [asked] at served guard
      obtain ⟨⟨reply, fs₁⟩, handled, same⟩ := Option.map_eq_some_iff.mp served
      cases same
      obtain ⟨kept, agrees⟩ := tracks.handled h asked guard handled
      refine ⟨by rwa [requestStep, asked], fun call' handled' => ?_⟩
      rw [asked] at handled'
      cases handled'
      exact agrees

section Runs
variable {num : Nat} {clock : Nat → Int} {boot : Fs} {trace : List ((Req × Junk) × (Res × Nat))}

theorem tracks_requests (data : 10 ≤ num) (unwrapped : num * blockSize < 2 ^ 32)
    (started : fsBoot num clock = some boot)
    (run : Run (Guarded (fun s e => RequestMeets KeepsFiles s e.1) (Next serveRequest)) boot trace
      fs) :
    fs.numBlocks = num ∧ ∃ own top, Inv own top fs ∧ Tracks top fs (requestModel trace) := by
  have formatted := fsBoot_formatted data unwrapped started
  obtain ⟨calls, within⟩ := run_of_requests within_getAttrs
    (run.mono fun _ _ _ ⟨met, next⟩ => ⟨met.mono fun _ _ kept => ⟨kept.1, kept.2.1⟩, next⟩)
  refine ⟨((formatted.inv data).numBlocks_run within).trans formatted.numBlocks, ?_⟩
  refine run.trace_invariant (I := fun trace s => ∃ own top, Inv own top s ∧
    Tracks top s (requestModel trace))
    ⟨_, 2, formatted.inv data, fun a xs listed => by cases listed⟩ ?_
  rintro trace s ⟨e, res⟩ s' ⟨own, top, inv, tracks⟩ ⟨guard, next⟩
  rw [requestModel_concat]
  exact (tracks.served inv guard next).1

/-- Whatever clients have sent, in any order: as long as no write extends a file whose inode is not
cached, every response about a file that a request has made is the one that follows from the
requests and the responses so far. -/
theorem responses_follow_files (data : 10 ≤ num) (unwrapped : num * blockSize < 2 ^ 32)
    (started : fsBoot num clock = some boot)
    (run : Run (Guarded (fun s e => RequestMeets KeepsFiles s e.1) (Next serveRequest)) boot trace
      fs)
    {e : Req × Junk} (guard : RequestMeets KeepsFiles fs e) {res : Res × Nat}
    (served : serveRequest fs e = some (res, fs')) :
    ResponseAgrees (requestModel trace) (e, res) := by
  obtain ⟨-, own, top, inv, tracks⟩ := tracks_requests data unwrapped started run
  exact (tracks.served inv guard served).2

end Runs

def fileRequests : List (Req × Junk) :=
  [requested (.create 1 [102]), requested (.lookup [47, 102]), requested (.write 2 0 3 [1, 2, 3])]

theorem responses_follow_files_read :
    ∃ trace fs res fs', (fsBoot 16 fun _ => 1).bind (fun boot =>
        execute serveRequest boot fileRequests) = some (trace, fs) ∧
      serveRequest fs (requested (.read 2 1 5)) = some (res, fs') ∧
      res = serve (requested (.read 2 1 5)).1 (Reply.read [2, 3] 2).res := by
  have boots : ((fsBoot 16 fun _ => 1).bind fun boot =>
      (execute serveRequest boot fileRequests).map fun r =>
        (decide (Meets serveRequest (RequestMeets KeepsFiles) boot fileRequests),
          decide (RequestMeets KeepsFiles r.2 (requested (.read 2 1 5))),
          (serveRequest r.2 (requested (.read 2 1 5))).isSome, requestModel r.1 2)) =
      some (true, true, true, some [1, 2, 3]) := by decide +kernel
  obtain ⟨boot, started, facts⟩ := Option.bind_eq_some_iff.mp boots
  obtain ⟨⟨trace, fs⟩, served, facts⟩ := Option.map_eq_some_iff.mp facts
  simp only [Prod.mk.injEq, decide_eq_true_eq] at facts
  obtain ⟨met, guard, answered, model⟩ := facts
  obtain ⟨⟨res, fs'⟩, answer⟩ := Option.isSome_iff_exists.mp answered
  have agrees := responses_follow_files (by decide) (by decide) started (run_of_execute served met)
    guard answer
  have handled : handledCall (requested (.read 2 1 5)).1 = some (.read 2 1 5) := by decide +kernel
  refine ⟨trace, fs, res, fs', by rw [started, Option.bind_some, served], answer, ?_⟩
  exact agrees _ handled [1, 2, 3] model

end Snfs
