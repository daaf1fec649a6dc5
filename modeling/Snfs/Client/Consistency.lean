import Snfs.Client.Making
import Snfs.Client.Network

/-!
The whole system, as its client sees it: the calls of the stubs go through the socket, the
ring and the threads of the server to the handlers and the caches of the file system, and what
they return is what byte lists would give that are changed by the calls of the client only.
-/

namespace Snfs

open Runs

def returnStep (files : FileModel) : Call × Except Nat Reply → FileModel
  | (.create _ _, .ok (.create file)) => Function.update files file (some [])
  | (.write fhandle offset _ buffer, .ok (.write _)) =>
      Function.update files fhandle.toNat
        ((files fhandle.toNat).map fun xs => overwrite xs (min offset xs.length) buffer)
  | _ => files

def returnModel (returns : List (Call × Except Nat Reply)) : FileModel :=
  returns.foldl returnStep fun _ => none

/-- A read of a file succeeds and returns its bytes; a write that succeeds returns the new length,
and a lookup that leads to the file its length. -/
def Follows (files : FileModel) : Call × Except Nat Reply → Prop
  | (.read fhandle offset count, .ok (.read data nread)) =>
      ∀ xs, files fhandle.toNat = some xs →
        data.take nread = piece xs offset count ∧ nread = (piece xs offset count).length
  | (.read fhandle _ _, .error _) => files fhandle.toNat = none
  | (.write fhandle offset _ buffer, .ok (.write fsize)) =>
      ∀ xs, files fhandle.toNat = some xs →
        fsize = (overwrite xs (min offset xs.length) buffer).length
  | (.lookup _, .ok (.lookup file fsize)) => ∀ xs, files file = some xs → fsize = xs.length
  | _ => True

/-- A call with arguments that the messages have room for, which is no write that extends a file
whose inode is not cached. -/
def Session.Keeps (s : Session) (call : Call) : Prop :=
  call.Limits ∧ call.Carried ∧ ∀ fs ∈ s.server, KeepsFiles fs (call.op (s.junk s.sent))

variable {s s' : Session} {fs fs' : Fs} {files : FileModel} {call : Call}
  {result : Except Nat Reply}

private theorem returnModel_concat (returns : List (Call × Except Nat Reply))
    (e : Call × Except Nat Reply) :
    returnModel (returns ++ [e]) = returnStep (returnModel returns) e := by
  simp [returnModel]

structure Answered (s : Session) (files : FileModel) (call : Call) (result : Except Nat Reply)
    (s' : Session) (fs fs' : Fs) (reply : Option Reply) : Prop where
  alive : s.server = some fs
  handled : call.handle fs (s.junk s.sent) = some (reply, fs')
  result : result = call.returned s.sn
    (srvSendResponse (serve (s.request call) (response call.type reply)))
  holds : s'.Holds (replyStep files call (serve (s.request call) (response call.type reply)).1)
  agrees : CallAgrees files (s.request call)
    (serve (s.request call) (response call.type reply)) call

theorem Session.Holds.answered (holds : s.Holds files) (keeps : s.Keeps call)
    (called : Called s (call, result) s') :
    ∃ fs fs' reply, Answered s files call result s' fs fs' reply := by
  obtain ⟨limits, carried, guard⟩ := keeps
  obtain ⟨returned, up⟩ := called
  obtain ⟨fs, own, top, alive, inv, tracks⟩ := holds
  have asked := Session.handled limits carried s
  cases done : call.handle fs (s.junk s.sent) with
  | none =>
      simp only [remoteCall, alive, serveRequest, asked, done, Option.map_none, Prod.mk.injEq]
        at returned
      rw [← returned.2] at up
      cases up
  | some r =>
      obtain ⟨reply, fs'⟩ := r
      obtain ⟨answer, rfl, same, kept, agrees⟩ := remoteCall_tracks alive inv tracks limits carried
        (guard fs alive) done
      rw [same] at returned
      obtain ⟨rfl, rfl⟩ := Prod.mk.inj returned
      exact ⟨fs, fs', reply, alive, done, rfl, kept, agrees⟩

namespace Answered

variable {reply : Option Reply}

theorem refused (h : Answered s files call result s' fs fs' none) (keeps : s.Keeps call) :
    result = .error 0 ∧
      replyStep files call (serve (s.request call) (response call.type none)).1 = files := by
  have asked := Session.handled keeps.1 keeps.2.1 s
  refine ⟨h.result.trans (returned_error call.type asked), ?_⟩
  have refusal : (serve (s.request call) (response call.type none)).1.status ≠ resOk := by
    rw [serve_handled asked]
    exact show resError ≠ resOk by decide
  generalize (serve (s.request call) (response call.type none)).1 = res at refusal ⊢
  cases call with
  | create | write => rw [replyStep, if_neg refusal]
  | lookup | read | mkdir | readdir | copy => rfl

theorem replied (h : Answered s files call result s' fs fs' reply) (keeps : s.Keeps call)
    {reply' : Reply} (gives : call.Gives reply')
    (same : serve (s.request call) (response call.type reply) =
      serve (s.request call) reply'.res) : result = .ok reply' := by
  rw [h.result, same]
  exact returned_reply keeps.1 gives s

end Answered

theorem Session.Holds.called_read (holds : s.Holds files) {fhandle : Int} {offset count : Nat}
    (keeps : s.Keeps (.read fhandle offset count))
    (called : Called s (.read fhandle offset count, result) s') :
    s'.Holds files ∧ Follows files (.read fhandle offset count, result) := by
  obtain ⟨fs, fs', reply, h⟩ := holds.answered keeps called
  have kept := h.holds
  generalize (serve _ (response (Call.read fhandle offset count).type reply)).1 = res at kept
  refine ⟨kept, ?_⟩
  cases listed : files fhandle.toNat with
  | none =>
      rcases result with _ | (_ | _ | _ | _ | _ | _ | _) <;>
        first | exact listed | exact fun xs some => by rw [listed] at some; cases some | trivial
  | some xs =>
      have short : (piece xs offset count).length ≤ count := by
        rw [length_piece]
        exact Nat.min_le_left _ _
      have size := holds.length_le listed
      have bytes : (piece xs offset count).length ≤ 5120 := by
        rw [length_piece]
        omega
      have same := h.agrees xs listed
      rw [if_neg (Nat.not_lt.mpr keeps.1.2.2)] at same
      have padded : (Reply.read (piece xs offset count) (piece xs offset count).length).res =
          (Reply.read (piece xs offset count ++
            List.replicate (count - (piece xs offset count).length) 0)
              (piece xs offset count).length).res := by
        rw [Reply.res, Reply.res, body_padded]
        rfl
      have gives : Call.Gives (.read fhandle offset count) (.read (piece xs offset count ++
          List.replicate (count - (piece xs offset count).length) 0)
            (piece xs offset count).length) := by
        refine ⟨?_, by omega⟩
        rw [List.length_append, List.length_replicate, Nat.add_sub_cancel' short]
      rw [h.replied keeps gives (same.trans (congrArg _ padded))]
      intro ys listed'
      cases listed.symm.trans listed'
      exact ⟨List.take_left, rfl⟩

theorem Session.Holds.called_write (holds : s.Holds files) {fhandle : Int} {offset count : Nat}
    {buffer : List UInt8} (keeps : s.Keeps (.write fhandle offset count buffer))
    (called : Called s (.write fhandle offset count buffer, result) s') :
    s'.Holds (returnStep files (.write fhandle offset count buffer, result)) ∧
      Follows files (.write fhandle offset count buffer, result) := by
  obtain ⟨fs, fs', reply, h⟩ := holds.answered keeps called
  have asked := Session.handled keeps.1 keeps.2.1 s
  have kept := h.holds
  cases listed : files fhandle.toNat with
  | none =>
      have step : Function.update files fhandle.toNat
          ((files fhandle.toNat).map fun xs => overwrite xs (min offset xs.length) buffer) =
          files := by
        rw [listed, Option.map_none, ← listed, Function.update_eq_self]
      rw [replyStep, step, ite_self] at kept
      have same : returnStep files (.write fhandle offset count buffer, result) = files := by
        rcases result with _ | (_ | _ | _ | _ | _ | _ | _) <;> first | exact step | rfl
      refine ⟨same.symm ▸ kept, ?_⟩
      rcases result with _ | (_ | _ | _ | _ | _ | _ | _) <;>
        first | exact fun xs some => by rw [listed] at some; cases some | exact True.intro
  | some xs =>
      have size := holds.length_le listed
      have short : buffer.length ≤ maxWriteData := keeps.1.2.2.2.trans_le keeps.1.2.2.1
      have bound : maxWriteData = 1024 := rfl
      rcases h.agrees xs listed with same | same
      · have refusal : (serve (s.request (.write fhandle offset count buffer))
            (response .write none)).1.status ≠ resOk := by
          rw [serve_handled asked]
          exact show resError ≠ resOk by decide
        rw [same, replyStep, if_neg refusal] at kept
        rw [h.result, same, returned_error .write asked]
        exact ⟨kept, trivial⟩
      · have long : (overwrite xs (min offset xs.length) buffer).length < 2 ^ 32 := by
          rw [length_overwrite (Nat.min_le_right _ _)]
          omega
        have told (ys : List UInt8) (listed' : files fhandle.toNat = some ys) :
            (overwrite xs (min offset xs.length) buffer).length =
              (overwrite ys (min offset ys.length) buffer).length := by
          cases listed.symm.trans listed'
          rfl
        generalize (overwrite xs (min offset xs.length) buffer).length = n at same long told
        have ok : (serve (s.request (.write fhandle offset count buffer))
            (Reply.write n).res).1.status = resOk := by
          rw [serve_handled asked]
          rfl
        rw [same, replyStep, if_pos ok] at kept
        rw [h.replied keeps
          (show Call.Gives (.write fhandle offset count buffer) (.write n) from long) same]
        exact ⟨kept, told⟩

theorem Session.Holds.called_create (holds : s.Holds files) {dir : Int} {name : CString}
    (keeps : s.Keeps (.create dir name)) (called : Called s (.create dir name, result) s') :
    s'.Holds (returnStep files (.create dir name, result)) ∧
      Follows files (.create dir name, result) := by
  obtain ⟨fs, fs', reply, h⟩ := holds.answered keeps called
  have asked := Session.handled keeps.1 keeps.2.1 s
  have kept := h.holds
  obtain ⟨fs₀, own, top, alive, inv, -⟩ := holds
  cases alive.symm.trans h.alive
  have given : reply = none ∨ ∃ a < 64, reply = some (.create a) := by
    obtain ⟨noZero, room, -⟩ := keeps.2.2 fs h.alive
    cases made : fsMake .file fs dir.toNat name with
    | mk id fs₁ =>
        have handled : some (id.map Reply.create, fs₁) = some (reply, fs') := by
          rw [← h.handled, Call.handle, snfsCreate, fsCreate, made]
        cases handled
        rcases inv.fsMake_one (.inr rfl) noZero room made with ⟨rfl, -⟩ | ⟨a, rfl, low, -⟩
        · exact .inl rfl
        · exact .inr ⟨a, low, rfl⟩
  rcases given with rfl | ⟨a, low, rfl⟩
  · obtain ⟨rfl, same⟩ := h.refused keeps
    rw [same] at kept
    exact ⟨kept, trivial⟩
  · obtain ⟨ok, body⟩ := serve_reply asked (.create a)
    have id : (Reply.create a).body.word 0 = a := Buf.word_putWord _ (by decide) (by omega)
    rw [replyStep, if_pos ok, body, id] at kept
    rw [h.replied keeps (show Call.Gives (.create dir name) (.create a) from
      Nat.lt_trans low (by decide)) rfl]
    exact ⟨kept, trivial⟩

theorem Session.Holds.called_lookup (holds : s.Holds files) {path : CString}
    (keeps : s.Keeps (.lookup path)) (called : Called s (.lookup path, result) s') :
    s'.Holds files ∧ Follows files (.lookup path, result) := by
  obtain ⟨fs, fs', reply, h⟩ := holds.answered keeps called
  have asked := Session.handled keeps.1 keeps.2.1 s
  have kept := h.holds
  generalize replied : (serve _ (response (Call.lookup path).type reply)).1 = res at kept
  refine ⟨kept, ?_⟩
  obtain ⟨fs₀, own, top, alive, inv, -⟩ := holds
  cases alive.symm.trans h.alive
  have given : reply = none ∨ ∃ id < 64, ∃ size ≤ 5120, reply = some (.lookup id size) := by
    have looked := fsLookup_same fs path
    have handled := h.handled
    rw [Call.handle, snfsLookup] at handled
    generalize fsLookup fs path = found at looked handled
    obtain ⟨⟨code, id⟩, fs₁⟩ := found
    dsimp only at looked handled
    have inv₁ := looked.inv inv
    split at handled
    · cases handled
      exact .inl rfl
    rcases inv₁.fsGetAttrs_cases (id.getD (s.junk s.sent).fileid) with
      ⟨-, stopped⟩ | ⟨p, fs₂, opened, asked⟩
    · rw [stopped] at handled
      cases handled
      exact .inl rfl
    · obtain ⟨lt, -⟩ := inv₁.openInode opened
      have small := inv₁.inodes.le_size
      have size := (inv₁.owned_seen lt).size_le
      cases told : attrsOf (id.getD (s.junk s.sent).fileid)
          (fs₁.seen (id.getD (s.junk s.sent).fileid)) with
      | none =>
          rw [asked, told] at handled
          cases handled
      | some attrs =>
          rw [asked, told, Option.map_some] at handled
          cases handled
          exact .inr ⟨_, Nat.lt_of_lt_of_le lt small, _, (size_of_attrsOf told).trans_le size, rfl⟩
  rcases given with rfl | ⟨id, low, size, small, rfl⟩
  · obtain ⟨rfl, -⟩ := h.refused keeps
    trivial
  · rw [h.replied keeps (show Call.Gives (.lookup path) (.lookup id size) from
      ⟨by omega, by omega⟩) rfl]
    obtain ⟨ok, body⟩ := serve_reply asked (.lookup id size)
    have file : (Reply.lookup id size).body.word 0 = id := by
      rw [Reply.body, Buf.word_putWord_other _ _ (by decide)]
      exact Buf.word_putWord _ (by decide) (by omega)
    have fsize : (Reply.lookup id size).body.word 4 = size :=
      Buf.word_putWord _ (by decide) (by omega)
    have told := h.agrees
    rw [CallAgrees] at told
    have told := told ok
    rw [body, file, fsize] at told
    exact told

/-- A call that has returned has followed the files, and says what has become of them. -/
theorem Session.Holds.called (holds : s.Holds files) (keeps : s.Keeps call)
    (called : Called s (call, result) s') :
    s'.Holds (returnStep files (call, result)) ∧ Follows files (call, result) := by
  cases call with
  | lookup path => exact holds.called_lookup keeps called
  | read fhandle offset count => exact holds.called_read keeps called
  | write fhandle offset count buffer => exact holds.called_write keeps called
  | create dir name => exact holds.called_create keeps called
  | mkdir | readdir | copy =>
      obtain ⟨fs, fs', reply, h⟩ := holds.answered keeps called
      have kept := h.holds
      generalize (serve _ (response _ reply)).1 = res at kept
      exact ⟨kept, trivial⟩

instance : (call : Call) → Decidable call.Limits
  | .lookup _ => inferInstanceAs (Decidable (_ ∧ _))
  | .read _ _ _ => inferInstanceAs (Decidable (IsInt _ ∧ _ ∧ _))
  | .write _ _ _ _ => inferInstanceAs (Decidable (IsInt _ ∧ _ ∧ _ ∧ _))
  | .create _ _ | .mkdir _ _ => inferInstanceAs (Decidable (IsInt _ ∧ _ ∧ _))
  | .readdir _ _ => inferInstanceAs (Decidable (IsInt _ ∧ _))
  | .copy _ _ => inferInstanceAs (Decidable ((_ ∧ _) ∧ _ ∧ _))

instance : (call : Call) → Decidable call.Carried
  | .lookup _ => inferInstanceAs (Decidable (_ ≤ _))
  | .read _ _ _ | .write _ _ _ _ | .create _ _ | .mkdir _ _ | .readdir _ _ =>
      inferInstanceAs (Decidable (_ ≤ _ ∧ _ < _))
  | .copy _ _ => .isTrue trivial

instance (s : Session) (call : Call) : Decidable (s.Keeps call) :=
  inferInstanceAs (Decidable (_ ∧ _ ∧ ∀ fs ∈ _, KeepsFiles fs _))

theorem Session.holds_of_run {returns : List (Call × Except Nat Reply)}
    (holds : s.Holds fun _ => none)
    (run : Run (Guarded (fun s e => s.Keeps e.1) Called) s returns s') :
    s'.Holds (returnModel returns) := by
  refine run.trace_invariant (I := fun returns s => s.Holds (returnModel returns)) holds ?_
  rintro returns s ⟨call, result⟩ s' before ⟨keeps, called⟩
  rw [returnModel_concat]
  exact (before.called keeps called).1

theorem Session.holds_boot {num : Nat} {clock : Nat → Int} {boot : Fs} (data : 10 ≤ num)
    (unwrapped : num * blockSize < 2 ^ 32) (started : fsBoot num clock = some boot)
    (addr : SockAddr) (junk : Nat → Junk) :
    Session.Holds (fun _ => none) ⟨addr, 0, some boot, junk⟩ :=
  ⟨boot, _, 2, rfl, (fsBoot_formatted data unwrapped started).inv data,
    fun a xs listed => by cases listed⟩

/-- Whatever the threads of the server do and in whatever order: what the calls of the client return
of the files that it has made is what byte lists give that only its own calls change, as
long as no write extends a file whose inode is not cached. -/
theorem network_returns_follow_files {n num : Nat} {clock : Nat → Int} {boot : Fs} {addr : SockAddr}
    {junk : Nat → Junk} {trace : List (NetworkAction n × Option (Call × Except Nat Reply))}
    {s : Network n} (data : 10 ≤ num) (unwrapped : num * blockSize < 2 ^ 32)
    (started : fsBoot num clock = some boot)
    (run : Run (Guarded (fun s e => s.CallMeets Session.Keeps e.1) (Next networkStep))
      (networkInit n addr boot junk) trace s)
    {before after : List (Call × Except Nat Reply)} {e : Call × Except Nat Reply}
    (shown : returned trace = before ++ e :: after) : Follows (returnModel before) e := by
  obtain ⟨_, session, -, calls, -⟩ := oneAtATime_run run
  rw [shown] at calls
  obtain ⟨s₁, s₂, prior, keeps, called⟩ := calls.split
  have holds := Session.holds_of_run (Session.holds_boot data unwrapped started addr junk) prior
  exact (holds.called keeps called).2

def callAlone (call : Call) : List (NetworkAction 2) :=
  [.call call, .thread .producerEnter, .thread .producerReceive, .thread (.consumerEnter 1 none),
    .serve 1, .receive]

def fileCalls : List (NetworkAction 2) :=
  .thread (.consumerEnter 0 none) :: callAlone (.create 1 [102]) ++ callAlone (.lookup [47, 102]) ++
    callAlone (.write 2 0 3 [1, 2, 3]) ++ callAlone (.read 2 1 5)

theorem network_returns_follow_files_read : ∃ boot trace, ∃ s : Network 2, ∃ before bytes nread,
    fsBoot 16 (fun _ => 1) = some boot ∧
    Run (Guarded (fun s e => s.CallMeets Session.Keeps e.1) (Next networkStep))
      (networkInit 2 [99] boot fun _ => ⟨9, 9, 9⟩) trace s ∧
    returned trace = before ++ [(.read 2 1 5, .ok (.read bytes nread))] ∧
    bytes.take nread = [2, 3] := by
  have boots : ((fsBoot 16 fun _ => 1).bind fun boot =>
      (execute networkStep (networkInit 2 [99] boot fun _ => ⟨9, 9, 9⟩) fileCalls).map fun r =>
        (decide (Meets networkStep (Network.CallMeets Session.Keeps)
          (networkInit 2 [99] boot fun _ => ⟨9, 9, 9⟩) fileCalls),
          decide ((returned r.1).drop 3 = [(.read 2 1 5, .ok (.read [2, 3, 0, 0, 0] 2))]),
          returnModel ((returned r.1).take 3) 2)) = some (true, true, some [1, 2, 3]) := by
    decide +kernel
  obtain ⟨boot, started, facts⟩ := Option.bind_eq_some_iff.mp boots
  obtain ⟨⟨trace, s⟩, moved, facts⟩ := Option.map_eq_some_iff.mp facts
  simp only [Prod.mk.injEq, decide_eq_true_eq] at facts
  obtain ⟨met, last, model⟩ := facts
  have run := run_of_execute moved met
  have shown : returned trace = (returned trace).take 3 ++
      [(.read 2 1 5, .ok (.read [2, 3, 0, 0, 0] 2))] := by
    rw [← last, List.take_append_drop]
  have follows := network_returns_follow_files (by decide) (by decide) started run shown
  exact ⟨boot, trace, s, _, _, _, started, run, shown, (follows [1, 2, 3] model).1⟩

end Snfs
