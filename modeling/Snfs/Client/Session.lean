import Snfs.Client.Reading
import Snfs.Server.Files

/-!
A client process with one thread, the socket and the server process behind it: the stubs
make requests of a call, the handlers answer them from the file system, and a stub returns
what it makes of the response. What reads, writes and lookups return of a file is said by
the byte list that the requests so far have made of it.
-/

namespace Snfs

open Runs

/-- `sent` counts the requests of `remote_call`; `none` is a server process that has ended. What
the variables of a handler hold is anything for every request. -/
structure Session where
  addr : SockAddr
  sent : Nat
  server : Option Fs
  junk : Nat → Junk

namespace Session

def sn (s : Session) : Nat := u32 s.sent

def request (s : Session) (call : Call) : Req := srvRecvRequest ⟨s.addr, call.sent s.sn⟩

def answered (s : Session) (fs : Fs) : Session := { s with sent := s.sent + 1, server := some fs }

end Session

def Call.returned (call : Call) (sn : Nat) (bytes : List UInt8) : Except Nat Reply :=
  match call.result sn bytes with
  | some reply => .ok reply
  | none => .error ((resBody (Buf.splice .zero 0 bytes)).word 0)

/-- A call of a stub. A server that has ended answers nobody; `STAT_ERROR` stands for that. -/
def remoteCall : RemoteCall Session := fun s call =>
  match s.server with
  | none => (.error 0, { s with sent := s.sent + 1 })
  | some fs =>
    match serveRequest fs (s.request call, s.junk s.sent) with
    | none => (.error 0, { s with sent := s.sent + 1, server := none })
    | some (answer, fs) => (call.returned s.sn (srvSendResponse answer), s.answered fs)

variable {s : Session} {fs fs' : Fs} {call : Call}

theorem Session.sn_lt (s : Session) : s.sn < 2 ^ 32 := Nat.mod_lt _ (by decide)

theorem remoteCall_eq (alive : s.server = some fs) {answer : Res × Nat}
    (served : serveRequest fs (s.request call, s.junk s.sent) = some (answer, fs')) :
    remoteCall s call = (call.returned s.sn (srvSendResponse answer), s.answered fs') := by
  rw [remoteCall, alive]
  simp only [served]

theorem Session.handled (limits : call.Limits) (carried : call.Carried) (s : Session) :
    handledCall (s.request call) = some call :=
  (handledCall_eq_iff limits s.sn s.addr).mpr carried

theorem returned_reply (limits : call.Limits) {reply : Reply} (gives : call.Gives reply)
    (s : Session) : call.returned s.sn (srvSendResponse (serve (s.request call) reply.res)) =
      .ok reply := by
  rw [Call.returned, Session.request, call.result_served limits gives s.sn_lt]

private theorem status_received (res : Res) {n : Nat} (long : msgResHeadSize ≤ n) :
    (Buf.splice .zero 0 (srvSendResponse (res, n)) : Buf msgResSize).word 8 =
      intWord res.status := by
  rw [srvSendResponse, Buf.splice_slice, Buf.word_cut _ (Nat.le_trans (by decide) long),
    word_message _ (by decide), Buf.word_putWord _ (by decide) (intWord_lt _)]

theorem returned_error (type : SnfsMsgType) (handled : handledCall (s.request call) = some call) :
    call.returned s.sn (srvSendResponse (serve (s.request call) (response type none))) =
      .error 0 := by
  rw [serve_handled handled, response]
  have status := status_received ⟨type.code, (s.request call).sn, resError, .zero⟩
    (Nat.le_add_right msgResHeadSize (resBodySize type))
  have body : (resBody (Buf.splice .zero 0 (srvSendResponse (⟨type.code, (s.request call).sn,
      resError, .zero⟩, msgResHeadSize + resBodySize type)))).word 0 = 0 := by
    rw [srvSendResponse, Buf.splice_slice, resBody_sent]
    simp only [Buf.word, Buf.get_cut, Buf.get_zero, ite_self]
    rfl
  generalize srvSendResponse _ = bytes at status body ⊢
  have refused : call.result s.sn bytes = none := by
    simp only [Call.result, status, show intWord resError ≠ intWord resOk by decide, ne_eq,
      not_false_eq_true, if_true, ite_self]
  rw [Call.returned, refused]
  exact congrArg Except.error body

/-- The bytes behind those read are zero in the response. -/
theorem body_padded (data : List UInt8) (n k : Nat) :
    (Reply.read (data ++ List.replicate k 0) n).body = (Reply.read data n).body := by
  have same : (Buf.splice .zero 0 (data ++ List.replicate k 0) : Buf msgResBodySize) =
      Buf.splice .zero 0 data := by
    refine Buf.ext_get fun i hi => ?_
    rw [Buf.get_splice _ _ _ hi, Buf.get_splice _ _ _ hi, Buf.get_zero, List.length_append,
      List.length_replicate, Nat.sub_zero]
    by_cases inside : i < data.length
    · rw [if_pos (by omega), if_pos (by omega), List.getD_append _ _ _ _ inside]
    · rw [if_neg (show ¬ (0 ≤ i ∧ i < 0 + data.length) by omega)]
      split
      · rw [List.getD_append_right _ _ _ _ (by omega), List.getD_replicate]
        omega
      · rfl
  rw [Reply.body, Reply.body, same]

def Session.Holds (files : FileModel) (s : Session) : Prop :=
  ∃ fs own top, s.server = some fs ∧ Inv own top fs ∧ Tracks top fs files

/-- No write to the file is one that extends a file whose inode is not cached. -/
def Session.Caches (a : Nat) (s : Session) : Prop :=
  ∀ fs ∈ s.server, fs.numBlocks ≤ bmapBits ∧ fs.Caches a

variable {files : FileModel} {a : Nat} {bytes : List UInt8}

theorem Session.Holds.handle_lt (holds : s.Holds files) (listed : files a = some bytes) :
    a < 2 ^ 16 := by
  obtain ⟨fs, own, top, -, inv, tracks⟩ := holds
  exact Nat.lt_of_lt_of_le (tracks a bytes listed).1 (Nat.le_trans inv.inodes.le_size (by decide))

theorem Session.Holds.length_le (holds : s.Holds files) (listed : files a = some bytes) :
    bytes.length ≤ 5120 := by
  obtain ⟨fs, own, top, -, inv, tracks⟩ := holds
  obtain ⟨lt, -, -, same⟩ := tracks a bytes listed
  rw [← same, length_content]
  exact (inv.owned_seen lt).size_le

/-- A call that reaches its handler unchanged and keeps the files. -/
theorem remoteCall_tracks {own : Ledger} {top : Nat} (alive : s.server = some fs)
    (h : Inv own top fs) (tracks : Tracks top fs files) (limits : call.Limits)
    (carried : call.Carried) (guard : KeepsFiles fs (call.op (s.junk s.sent)))
    {reply : Option Reply} (done : call.handle fs (s.junk s.sent) = some (reply, fs')) :
    ∃ answer, answer = serve (s.request call) (response call.type reply) ∧
      remoteCall s call = (call.returned s.sn (srvSendResponse answer), s.answered fs') ∧
      (s.answered fs').Holds (replyStep files call answer.1) ∧
      CallAgrees files (s.request call) answer call := by
  have handled := Session.handled limits carried s
  have served : serveRequest fs (s.request call, s.junk s.sent) =
      some (serve (s.request call) (response call.type reply), fs') := by
    rw [serveRequest, handled]
    simp only [done, Option.map_some]
  obtain ⟨⟨own', top', inv, tracks'⟩, agrees⟩ := tracks.handled h handled (.inr guard) done
  exact ⟨_, rfl, remoteCall_eq alive served, ⟨fs', own', top', rfl, inv, tracks'⟩, agrees⟩

theorem Session.Holds.read (holds : s.Holds files) (cached : s.Caches a)
    (listed : files a = some bytes) {offset count : Nat} (word : offset < 2 ^ 32)
    (le : count ≤ maxReadData) :
    ∃ s', (s'.Holds files ∧ s'.Caches a) ∧ remoteCall.read s a offset count =
      (some (piece bytes offset count ++
          List.replicate (count - (piece bytes offset count).length) 0,
        (piece bytes offset count).length), s') := by
  have small := holds.handle_lt listed
  have size := holds.length_le listed
  have short : (piece bytes offset count).length ≤ count := by
    rw [length_piece]
    exact Nat.min_le_left _ _
  have room : maxReadData = 1024 := rfl
  obtain ⟨fs, own, top, alive, inv, tracks⟩ := holds
  have limits : Call.Limits (.read a offset count) := ⟨⟨by omega, by omega⟩, word, le⟩
  have state : (snfsRead fs a offset count).2 = (fsRead fs a offset count).2 := by
    rw [snfsRead, if_neg (Nat.not_lt.mpr le)]
    split <;> rename_i result <;> rw [result]
  have done : Call.handle fs (s.junk s.sent) (.read a offset count) =
      some ((snfsRead fs a offset count).1, (fsRead fs a offset count).2) := by
    rw [Call.handle, Int.toNat_natCast, ← state]
  obtain ⟨answer, -, called, kept, agrees⟩ := remoteCall_tracks alive inv tracks limits
    (show Call.Carried (.read a offset count) from ⟨by omega, by omega⟩)
    ⟨trivial, .inr (Nat.zero_le _), id⟩ done
  have cached' : (s.answered (fsRead fs a offset count).2).Caches a := by
    rintro fs' ⟨⟩
    obtain ⟨own', top', after⟩ := inv.step (show FsOp.Fits (.read a offset count) from trivial)
      (.inr (Nat.zero_le _)) rfl
    exact ⟨after.numBlocks ▸ (cached fs alive).1,
      inv.caches_read (tracks a bytes listed).1 offset count⟩
  have reply : answer = serve (s.request (.read a offset count))
      (Reply.read (piece bytes offset count ++
        List.replicate (count - (piece bytes offset count).length) 0)
        (piece bytes offset count).length).res := by
    rw [agrees bytes listed, if_neg (Nat.not_lt.mpr le), Reply.res, body_padded]
    rfl
  have gives : Call.Gives (.read a offset count) (.read (piece bytes offset count ++
      List.replicate (count - (piece bytes offset count).length) 0)
      (piece bytes offset count).length) := by
    refine ⟨?_, by omega⟩
    rw [List.length_append, List.length_replicate, Nat.add_sub_cancel' short]
  rw [reply, returned_reply limits gives] at called
  exact ⟨_, ⟨kept, cached'⟩, by rw [RemoteCall.read, called]⟩

private theorem caches_handled {own : Ledger} {top : Nat} {junk : Junk} (h : Inv own top fs)
    (ha : a < top)
    {offset : Nat} {data : List UInt8} (short : data.length ≤ 1024)
    (room : Room fs (demand fs (.write a offset data))) {reply : Option Reply}
    (handled : Call.handle fs junk (.write a offset data.length data) =
      some (reply, fs')) : fs'.Caches a := by
  rcases Call.handle_cases handled with ⟨refused, -, -⟩ | ⟨res, -, stepped, -⟩ |
    ⟨res, fs₁, file, make, res', -, stepped, rest, next, -⟩
  · exact absurd refused (Nat.not_lt.mpr short)
  · cases stepped
    exact h.caches_write ha offset short room
  · obtain ⟨_, _, kept⟩ := h.step (show FsOp.Fits (.write a offset data) from short) room stepped
    cases wrote : fsWrite fs a offset data with
    | mk ok fs₂ =>
        simp only [Call.op, Int.toNat_natCast, fsStep, wrote] at stepped
        cases stepped
        cases ok with
        | false => cases rest
        | true =>
            cases rest
            exact kept.inv.caches_getAttrs (Nat.lt_of_lt_of_le ha kept.top_le) next

theorem Session.Holds.write (holds : s.Holds files) (cached : s.Caches a)
    (listed : files a = some bytes) {offset : Nat} {data : List UInt8} (word : offset < 2 ^ 32)
    (short : data.length ≤ maxWriteData) :
    (∃ s', remoteCall s (.write a offset data.length data) =
        (.ok (.write (overwrite bytes (min offset bytes.length) data).length), s') ∧
      s'.Holds (Function.update files a
        (some (overwrite bytes (min offset bytes.length) data))) ∧ s'.Caches a) ∨
    ∃ w s', remoteCall s (.write a offset data.length data) = (.error w, s') ∧ s'.Holds files ∧
      s'.Caches a := by
  have small := holds.handle_lt listed
  have size := holds.length_le listed
  have bound : maxWriteData = 1024 := rfl
  obtain ⟨fs, own, top, alive, inv, tracks⟩ := holds
  obtain ⟨whole, slot⟩ := cached fs alive
  have lt := (tracks a bytes listed).1
  have room : Room fs (demand fs (.write a offset data)) := .inl whole
  have limits : Call.Limits (.write a offset data.length data) :=
    ⟨⟨by omega, by omega⟩, word, short, rfl⟩
  have carried : Call.Carried (.write a offset data.length data) := ⟨by omega, by omega⟩
  have guard : KeepsFiles fs (Call.op (s.junk s.sent) (.write a offset data.length data)) :=
    ⟨short, room, fun out => by
      obtain ⟨t, key⟩ := slot
      exact out.1 t key⟩
  obtain ⟨⟨reply, fs'⟩, done⟩ : ∃ result,
      Call.handle fs (s.junk s.sent) (.write a offset data.length data) = some result :=
    Option.ne_none_iff_exists'.mp (snfsWrite_isSome inv short room)
  obtain ⟨answer, same, called, kept, agrees⟩ := remoteCall_tracks alive inv tracks limits carried
    guard done
  have cached' : (s.answered fs').Caches a := by
    rintro fs'' ⟨⟩
    refine ⟨?_, caches_handled inv lt short room done⟩
    rw [inv.numBlocks_handled ⟨guard.1, guard.2.1⟩ done]
    exact whole
  have asked := Session.handled limits carried s
  rcases agrees bytes listed with none | some
  · refine .inr ?_
    have returned := returned_error .write asked
    have refused : answer.1.status ≠ resOk := by
      rw [none, serve_handled asked]
      exact show resError ≠ resOk by decide
    rw [replyStep, if_neg refused] at kept
    refine ⟨0, _, ?_, kept, cached'⟩
    rw [called, none, returned]
  · refine .inl ?_
    have long : (overwrite bytes (min offset bytes.length) data).length < 2 ^ 32 := by
      rw [length_overwrite (Nat.min_le_right _ _)]
      omega
    have ok : answer.1.status = resOk := by
      rw [some, serve_handled asked]
      rfl
    rw [replyStep, if_pos ok, Int.toNat_natCast, listed, Option.map_some] at kept
    refine ⟨_, ?_, kept, cached'⟩
    rw [called, some, returned_reply limits (show Call.Gives (.write a offset data.length data)
      (.write (overwrite bytes (min offset bytes.length) data).length) from long)]

/-- A lookup through the socket of a path that leads to the file. -/
theorem Session.lookup {own : Ledger} {top : Nat} (alive : s.server = some fs) (h : Inv own top fs)
    (tracks : Tracks top fs files) (whole : fs.numBlocks ≤ bmapBits) {name : CString}
    (noZero : (0 : UInt8) ∉ name) (short : name.length ≤ maxFileNameSize)
    (found : (fsLookup fs name).1 = (1, some a)) (listed : files a = some bytes) :
    ∃ s', remoteCall.lookup s name = (.ok (a, bytes.length), s') ∧ s'.Holds files ∧
      s'.Caches a := by
  have guard : KeepsFiles fs (.lookup name) := ⟨noZero, .inr (Nat.zero_le _), id⟩
  obtain ⟨fs₁, looked⟩ : ∃ fs₁, fsLookup fs name = ((1, some a), fs₁) := ⟨_, Prod.ext found rfl⟩
  have stepped : fsStep fs (.lookup name) = some (.looked 1 (some a), fs₁) := by
    rw [fsStep, looked]
  obtain ⟨own₁, top₁, h₁, tracks₁⟩ := tracks.step h guard stepped
  obtain ⟨lt, isFile, -, same⟩ := tracks₁ a bytes listed
  obtain ⟨⟨attrs, fs₂⟩, got, told⟩ := Option.map_eq_some_iff.mp (h₁.reports lt isFile).1
  cases told
  rw [same] at got
  have done : Call.handle fs (s.junk s.sent) (.lookup name) =
      some (some (.lookup a bytes.length), fs₂) := by
    rw [Call.handle, snfsLookup, looked]
    simp only [ne_eq, not_true_eq_false, if_false, Option.getD_some, got]
  have holds : s.Holds files := ⟨fs, own, top, alive, h, tracks⟩
  have small := holds.handle_lt listed
  have size := holds.length_le listed
  have limits : Call.Limits (.lookup name) := ⟨noZero, Nat.lt_of_le_of_lt short (by decide)⟩
  obtain ⟨answer, rfl, called, kept, -⟩ := remoteCall_tracks alive h tracks limits short guard done
  refine ⟨s.answered fs₂, ?_, kept, ?_⟩
  · rw [RemoteCall.lookup, called, response, returned_reply limits
      (show Call.Gives (.lookup name) (.lookup a bytes.length) from ⟨by omega, by omega⟩)]
    simp only [asInt_of_lt (show a < 2 ^ 31 by omega)]
  · rintro fs' ⟨⟩
    have within : Within fs (Call.op (s.junk s.sent) (.lookup name)) := ⟨guard.1, guard.2.1⟩
    refine ⟨?_, h₁.caches_getAttrs lt (by rw [fsStep, got]; rfl)⟩
    rw [h.numBlocks_handled within done]
    exact whole

def sessionWith (fs : Fs) : Session := ⟨[], 0, some fs, fun _ => ⟨9, 9, 9⟩⟩

end Snfs
