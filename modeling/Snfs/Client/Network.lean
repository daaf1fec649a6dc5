import Snfs.Client.Session
import Snfs.Server.Progress

/-!
A client process with one thread and the server with all its threads. The client waits for
the response before it makes the next request, so one request at most is on its way through
the socket, the ring and a consumer, and no handler runs while another one does: a consumer
serves its request in one step. For the client the server is one that answers every call
before it does anything else. But it may also be one that never answers.
-/

namespace Snfs

open Runs

/-- `waiting` is the call in `recvfrom` with the serial number of its request, `socket` the
client's. `served` counts the requests that handlers have been called for. -/
structure Network (n : Nat) where
  addr : SockAddr
  sent : Nat
  waiting : Option (Call × Nat)
  socket : List (List UInt8)
  threads : Server n
  fs : Fs
  served : Nat
  junk : Nat → Junk

inductive NetworkAction (n : Nat) where
  | call (call : Call)
  | thread (a : Action n)
  | serve (i : Fin n)
  | receive

variable {n : Nat}

def Output.delivered : Output → List (List UInt8)
  | .sent _ res ressz => [srvSendResponse (res, ressz)]
  | _ => []

namespace Network

/-- The first half of `remote_call`. -/
def send (s : Network n) (call : Call) : Option (Network n) :=
  match s.waiting with
  | some _ => none
  | none =>
    (serverStep s.threads (.send ⟨s.addr, call.sent (u32 s.sent)⟩)).map fun (_, threads) =>
      { s with sent := s.sent + 1, waiting := some (call, u32 s.sent), threads := threads }

def thread (s : Network n) : Action n → Option (Network n)
  | .send _ | .consumerRespond _ _ => none
  | a => (serverStep s.threads a).map fun (_, threads) => { s with threads := threads }

def serve (s : Network n) (i : Fin n) : Option (Network n) :=
  match s.threads.consumer i with
  | .serving (some req) =>
    match serveRequest s.fs (req, s.junk s.served) with
    | none => none
    | some (answer, fs) =>
      (serverStep s.threads (.consumerRespond i answer)).map fun (o, threads) =>
        { s with
          threads := threads
          fs := fs
          served := s.served + 1
          socket := s.socket ++ o.delivered }
  | _ => none

/-- The second half of `remote_call`, and what the stub returns. -/
def receive (s : Network n) : Option ((Call × Except Nat Reply) × Network n) :=
  match s.waiting, s.socket with
  | some (call, sn), bytes :: rest =>
    some ((call, call.returned sn bytes), { s with waiting := none, socket := rest })
  | _, _ => none

end Network

/-- A step shows the call that has returned, if one has. -/
def networkStep (s : Network n) :
    NetworkAction n → Option (Option (Call × Except Nat Reply) × Network n)
  | .call call => (s.send call).map fun s => (none, s)
  | .thread a => (s.thread a).map fun s => (none, s)
  | .serve i => (s.serve i).map fun s => (none, s)
  | .receive => s.receive.map fun (returned, s) => (some returned, s)

def networkInit (n : Nat) (addr : SockAddr) (fs : Fs) (junk : Nat → Junk) : Network n :=
  ⟨addr, 0, none, [], serverInit n, fs, 0, junk⟩

def returned (trace : List (NetworkAction n × Option (Call × Except Nat Reply))) :
    List (Call × Except Nat Reply) :=
  trace.filterMap Prod.snd

/-- A call with nothing before its return but its request and its response, and a server process
that is still there. -/
def Called (s : Session) (e : Call × Except Nat Reply) (s' : Session) : Prop :=
  remoteCall s e.1 = (e.2, s') ∧ s'.server.isSome

variable {t t' : Server n} {queue : List Req} {a : Action n} {o : Output}

def underway (t : Server n) (queue : List Req) : List Req :=
  t.socket.map srvRecvRequest ++ (queue ++ held t)

theorem QueueInv.passes (inv : QueueInv t queue) (step : Stepped t a o t')
    (unsent : sendOf (a, o) = none) (unanswered : responseOf (a, o) = none)
    (nonempty : ∀ d ∈ t.socket, (srvRecvRequest d).reqsz ≠ 0) :
    ∃ queue', QueueInv t' queue' ∧ (underway t' queue').Perm (underway t queue) := by
  obtain ⟨queue', inv', moves⟩ := inv.step step
  refine ⟨queue', inv', ?_⟩
  cases step with
  | send d => cases unsent
  | @wake w waits =>
      obtain rfl := moves
      have woken := woken_wake t w
      rw [underway, woken.socket, held_congr woken.held, underway]
  | full ready full | polls ready room | again polling none =>
      obtain rfl := moves
      exact .refl _
  | @dropped d rest polling first empty =>
      exact absurd empty (nonempty d (by rw [first]; exact List.mem_cons_self))
  | @put d rest polling first filled =>
      obtain rfl := moves
      have woken := woken_signalall (received t rest (srvRecvRequest d))
      have same : held (received t rest (srvRecvRequest d)) = held t := rfl
      rw [underway, woken.socket, held_congr woken.held, same, underway, first, List.map_cons]
      simp only [received, List.append_assoc, List.cons_append, List.nil_append]
      rw [← List.append_assoc]
      exact List.perm_middle.trans (by rw [List.append_assoc])
  | @waits i signalled free ready none =>
      obtain rfl := moves
      have same : held { t with consumer := Function.update t.consumer i .waiting } = held t := by
        refine held_congr fun j => ?_
        by_cases here : j = i
        · subst here
          simp only [Function.update_self, ready]
          rfl
        · simp only [Function.update_of_ne here]
      rw [underway, same, underway]
  | @got _ i signalled free ready some signal =>
      obtain ⟨req, first, rfl⟩ := moves
      have woken := woken_signal signal
      have gained : (held t').Perm (req :: held t) := by
        rw [held_congr woken.held]
        refine held_gain (i := i) ?_ ?_ fun j ne => ?_
        · rw [ready]
          rfl
        · simp only [taken, Function.update_self, first]
          rfl
        · simp only [taken, Function.update_of_ne ne]
      rw [underway, woken.socket, underway]
      refine List.Perm.append_left _ ((gained.append_left queue').trans ?_)
      exact List.perm_middle
  | responded handled serving => cases unanswered

theorem QueueInv.answers (inv : QueueInv t queue) {i : Fin n} {req : Req} {handled : Res × Nat}
    (serving : t.consumer i = .serving (some req))
    (next : ServerNext t (.consumerRespond i handled, o) t') :
    QueueInv t' queue ∧ o = .sent req.cliaddr (serve req handled).1 (serve req handled).2 ∧
      (underway t queue).Perm (req :: underway t' queue) := by
  obtain ⟨queue', inv', moves⟩ := inv.step (stepped_of_next next)
  cases stepped_of_next next with
  | @responded _ req' handled serving' =>
      rw [serving] at serving'
      cases serving'
      obtain rfl := moves
      refine ⟨inv', rfl, ?_⟩
      have lost : (held t).Perm (req :: held { t with
          consumer := Function.update t.consumer i .ready }) := by
        refine held_gain (i := i) ?_ ?_ fun j ne => ?_
        · simp only [Function.update_self]
          rfl
        · rw [serving]
          rfl
        · simp only [Function.update_of_ne ne]
      rw [underway, underway, ← List.append_assoc, ← List.append_assoc]
      exact (lost.append_left _).trans List.perm_middle

inductive Network.Moved (s : Network n) :
    NetworkAction n → Option (Call × Except Nat Reply) → Network n →
    Prop where
  | call {call : Call} (idle : s.waiting = none) : Network.Moved s (.call call) none
      { s with
        sent := s.sent + 1
        waiting := some (call, u32 s.sent)
        threads := { s.threads with
          socket := s.threads.socket ++ [⟨s.addr, call.sent (u32 s.sent)⟩] } }
  | thread {a : Action n} {o : Output} {threads : Server n} (step : Stepped s.threads a o threads)
      (unsent : sendOf (a, o) = none) (unanswered : responseOf (a, o) = none) :
      Network.Moved s (.thread a) none { s with threads := threads }
  | serve {i : Fin n} {req : Req} {answer : Res × Nat} {fs : Fs} {o : Output} {threads : Server n}
      (serving : s.threads.consumer i = .serving (some req))
      (served : serveRequest s.fs (req, s.junk s.served) = some (answer, fs))
      (next : ServerNext s.threads (.consumerRespond i answer, o) threads) :
      Network.Moved s (.serve i) none { s with
        threads := threads
        fs := fs
        served := s.served + 1
        socket := s.socket ++ o.delivered }
  | receive {call : Call} {sn : Nat} {bytes : List UInt8} {rest : List (List UInt8)}
      (waiting : s.waiting = some (call, sn)) (first : s.socket = bytes :: rest) :
      Network.Moved s .receive (some (call, call.returned sn bytes))
        { s with waiting := none, socket := rest }

variable {s s' : Network n}

theorem moved_of_next {e : NetworkAction n × Option (Call × Except Nat Reply)}
    (next : Next networkStep s e s') : Network.Moved s e.1 e.2 s' := by
  obtain ⟨a, r⟩ := e
  simp only [Next] at next
  cases a with
  | call call =>
      obtain ⟨s₁, sent, same⟩ := Option.map_eq_some_iff.mp next
      cases same
      rw [Network.send] at sent
      split at sent
      · cases sent
      · rename_i idle
        cases sent
        exact .call idle
  | thread a =>
      obtain ⟨s₁, ran, same⟩ := Option.map_eq_some_iff.mp next
      cases same
      cases a with
      | send d => cases ran
      | consumerRespond i handled => cases ran
      | wake _ | producerEnter | producerReceive | consumerEnter _ _ =>
          obtain ⟨⟨o, threads⟩, stepped, same⟩ := Option.map_eq_some_iff.mp ran
          cases same
          have step := stepped_of_next stepped
          refine .thread step ?_ ?_
          · rfl
          · cases step <;> rfl
  | serve i =>
      obtain ⟨s₁, served, same⟩ := Option.map_eq_some_iff.mp next
      cases same
      rw [Network.serve] at served
      split at served
      · rename_i req serving
        split at served
        · cases served
        · rename_i answer fs answered
          obtain ⟨⟨o, threads⟩, stepped, same⟩ := Option.map_eq_some_iff.mp served
          cases same
          exact .serve serving answered stepped
      · cases served
  | receive =>
      obtain ⟨⟨shown, s₁⟩, received, same⟩ := Option.map_eq_some_iff.mp next
      cases same
      rw [Network.receive] at received
      split at received
      · rename_i call sn bytes rest waiting first
        cases received
        exact .receive waiting first
      · cases received

/-- What the client has seen so far when nothing is on its way. -/
def Network.session (s : Network n) : Session := ⟨s.addr, s.sent, some s.fs, s.junk⟩

/-- The call that the client makes, if it makes one, meets `G`. -/
def Network.CallMeets (G : Session → Call → Prop) (s : Network n) : NetworkAction n → Prop
  | .call call => G s.session call
  | .thread _ | .serve _ | .receive => True

instance (G : Session → Call → Prop) [∀ s call, Decidable (G s call)] (s : Network n) :
    (a : NetworkAction n) → Decidable (s.CallMeets G a)
  | .call call => inferInstanceAs (Decidable (G s.session call))
  | .thread _ | .serve _ | .receive => .isTrue trivial

/-- Where the call is that the client waits for, if any: `reqs` is underway, and `session` is what
the calls before have led to. It is a call that meets `G` there. -/
inductive Turn (G : Session → Call → Prop) (s : Network n) :
    (session : Session) → (reqs : List Req) → Prop where
  | idle (idle : s.waiting = none) (empty : s.socket = []) (all : s.served = s.sent) :
      Turn G s s.session []
  | asked {call : Call} {session : Session} (waiting : s.waiting = some (call, session.sn))
      (empty : s.socket = []) (before : session = ⟨s.addr, s.served, some s.fs, s.junk⟩)
      (one : s.sent = s.served + 1) (meets : G session call) :
      Turn G s session [session.request call]
  | answered {call : Call} {session : Session} {fs : Fs} {answer : Res × Nat}
      (waiting : s.waiting = some (call, session.sn)) (alive : session.server = some fs)
      (served : serveRequest fs (session.request call, session.junk session.sent) =
        some (answer, s.fs))
      (response : s.socket = [srvSendResponse answer]) (after : s.session = session.answered s.fs)
      (all : s.served = s.sent) (meets : G session call) : Turn G s session []

/-- The calls that have returned are calls one after the other, and what is underway is the
request of the one that has not. -/
def OneAtATime (G : Session → Call → Prop) (init : Session)
    (returns : List (Call × Except Nat Reply)) (s : Network n) : Prop :=
  ∃ queue session, QueueInv s.threads queue ∧
    Run (Guarded (fun s e => G s e.1) Called) init returns session ∧
    Turn G s session (underway s.threads queue)

variable {G : Session → Call → Prop} {init session : Session}
  {returns : List (Call × Except Nat Reply)} {reqs : List Req}

private theorem reqsz_sent (call : Call) (sn : Nat) (addr : SockAddr) :
    (srvRecvRequest ⟨addr, call.sent sn⟩).reqsz ≠ 0 := by
  have size : 8 ≤ call.reqsz := Nat.le_add_right _ _
  have length : (call.sent sn).length = call.reqsz := Buf.length_slice _ _ _
  rw [ne_eq, reqsz_eq_zero, ← List.length_eq_zero_iff, length]
  omega

private theorem serve_serve (r : Req) (handled : Res × Nat) :
    Snfs.serve r (Snfs.serve r handled) = Snfs.serve r handled := by
  unfold Snfs.serve
  dsimp only
  split <;> rfl

private theorem served_answer {fs fs' : Fs} {e : Req × Junk} {answer : Res × Nat}
    (served : serveRequest fs e = some (answer, fs')) : Snfs.serve e.1 answer = answer := by
  rw [serveRequest] at served
  split at served
  · obtain ⟨_, -, same⟩ := Option.map_eq_some_iff.mp served
    cases same
    exact serve_serve e.1 _
  · cases served
    exact serve_serve e.1 _

theorem Turn.nonempty (turn : Turn G s session reqs) {r : Req} (member : r ∈ reqs) :
    r.reqsz ≠ 0 := by
  cases turn with
  | idle | answered => cases member
  | @asked call =>
      rw [List.mem_singleton.mp member]
      exact reqsz_sent call session.sn session.addr

/-- The turn does not depend on where in the server the request is. -/
theorem Turn.threads (turn : Turn G s session reqs) (threads : Server n) :
    Turn G { s with threads := threads } session reqs := by
  cases turn with
  | idle idle empty all =>
      exact .idle (s := { s with threads := threads }) idle empty all
  | asked waiting empty before one meets => exact .asked waiting empty before one meets
  | answered waiting alive served response after all meets =>
      exact .answered waiting alive served response after all meets

theorem Turn.perm {reqs' : List Req} (turn : Turn G s session reqs) (perm : reqs'.Perm reqs) :
    Turn G s session reqs' := by
  cases turn with
  | idle idle empty all => exact List.perm_nil.mp perm ▸ .idle idle empty all
  | asked waiting empty before one meets =>
      exact List.perm_singleton.mp perm ▸ .asked waiting empty before one meets
  | answered waiting alive served response after all meets =>
      exact List.perm_nil.mp perm ▸ .answered waiting alive served response after all meets

theorem OneAtATime.step (h : OneAtATime G init returns s) {a : NetworkAction n}
    {r : Option (Call × Except Nat Reply)} (moved : Network.Moved s a r s')
    (meets : s.CallMeets G a) : OneAtATime G init (returns ++ r.toList) s' := by
  obtain ⟨queue, session, inv, run, turn⟩ := h
  cases moved with
  | @call call idle =>
      have sent : ServerNext s.threads (.send ⟨s.addr, call.sent (u32 s.sent)⟩, .none)
          { s.threads with
            socket := s.threads.socket ++ [⟨s.addr, call.sent (u32 s.sent)⟩] } := rfl
      obtain ⟨queue', inv', rfl⟩ := inv.step (stepped_of_next sent)
      refine ⟨queue', session, inv', by simpa using run, ?_⟩
      generalize before : underway s.threads queue' = reqs at turn
      cases turn with
      | asked waiting | answered waiting =>
          rw [waiting] at idle
          cases idle
      | idle _ empty all =>
          obtain ⟨socket, rest⟩ := List.append_eq_nil_iff.mp before
          have now : underway { s.threads with
              socket := s.threads.socket ++ [⟨s.addr, call.sent (u32 s.sent)⟩] } queue' =
              [s.session.request call] := by
            rw [underway, List.map_append, socket, List.nil_append]
            exact congrArg ([s.session.request call] ++ ·) rest
          rw [now]
          exact .asked rfl empty (by rw [Network.session, all]) (by rw [all]) meets
  | @thread a o threads step unsent unanswered =>
      obtain ⟨queue', inv', perm⟩ := inv.passes step unsent unanswered fun d member =>
        turn.nonempty (List.mem_append_left _ (List.mem_map_of_mem member))
      exact ⟨queue', session, inv', by simpa using run, (turn.perm perm).threads threads⟩
  | @serve i req answer fs o threads serving served next =>
      obtain ⟨inv', rfl, perm⟩ := inv.answers serving next
      refine ⟨queue, session, inv', by simpa using run, ?_⟩
      generalize underway s.threads queue = reqs at turn perm
      cases turn with
      | idle | answered => exact absurd (List.nil_perm.mp perm) (List.cons_ne_nil _ _)
      | asked waiting empty before one meets =>
          obtain ⟨same, none⟩ := List.cons.inj (List.singleton_perm.mp perm)
          rw [← none]
          subst same before
          refine .answered waiting rfl served ?_ ?_ one.symm meets
          · simp only [empty, List.nil_append, Output.delivered, served_answer served]
          · simp only [Network.session, Session.answered, one]
  | @receive call sn bytes rest waiting first =>
      generalize before : underway s.threads queue = reqs at turn
      cases turn with
      | idle idle =>
          rw [waiting] at idle
          cases idle
      | asked _ empty =>
          rw [first] at empty
          cases empty
      | answered waiting' alive served response after all asked =>
          rw [waiting] at waiting'
          cases waiting'
          rw [first] at response
          cases response
          refine ⟨queue, session.answered s.fs, inv, run.snoc ⟨asked, ?_, rfl⟩, ?_⟩
          · rw [remoteCall_eq alive served]
          · rw [before, ← after]
            exact .idle (s := { s with waiting := none, socket := [] }) rfl rfl all

private theorem oneAtATime_init (addr : SockAddr) (fs : Fs) (junk : Nat → Junk) :
    OneAtATime G ⟨addr, 0, some fs, junk⟩ [] (networkInit n addr fs junk) := by
  refine ⟨[], ⟨addr, 0, some fs, junk⟩, queueInv_init n, .nil, ?_⟩
  have none : held (serverInit n) = [] := List.filterMap_eq_nil_iff.mpr fun _ _ => rfl
  have empty : underway (serverInit n) [] = [] := none
  exact empty.symm ▸ .idle (s := networkInit n addr fs junk) rfl rfl rfl

theorem Turn.length_le (turn : Turn G s session reqs) : reqs.length ≤ 1 := by
  cases turn with
  | idle | answered => exact Nat.zero_le 1
  | asked => exact Nat.le_refl 1

section Runs
variable {addr : SockAddr} {fs : Fs} {junk : Nat → Junk}
  {trace : List (NetworkAction n × Option (Call × Except Nat Reply))}

/-- In a run in which every call meets `G` when it is made, it does when it is served. -/
theorem oneAtATime_run
    (run : Run (Guarded (fun s e => s.CallMeets G e.1) (Next networkStep))
      (networkInit n addr fs junk) trace s) :
    OneAtATime G ⟨addr, 0, some fs, junk⟩ (returned trace) s := by
  refine run.trace_invariant
    (I := fun trace s => OneAtATime G ⟨addr, 0, some fs, junk⟩ (returned trace) s)
    (oneAtATime_init addr fs junk) fun trace s e s' before ⟨meets, next⟩ => ?_
  have shown : returned (trace ++ [e]) = returned trace ++ e.2.toList := by
    rw [returned, List.filterMap_append, ← returned]
    cases r : e.2 <;> simp [r]
  rw [shown]
  exact before.step (moved_of_next next) meets

private theorem callMeets_any (s : Network n) (a : NetworkAction n) :
    s.CallMeets (fun _ _ => True) a := by
  cases a with
  | call | thread | serve | receive => trivial

private theorem oneAtATime_any (run : Run (Next networkStep) (networkInit n addr fs junk) trace s) :
    OneAtATime (fun _ _ => True) ⟨addr, 0, some fs, junk⟩ (returned trace) s :=
  oneAtATime_run (run.mono fun _ _ _ next => ⟨callMeets_any _ _, next⟩)

/-- Whatever the threads of the server do and in whatever order, no handler runs while another one
does, and what the calls of the client return is what they return when each is served before
anything else happens; so are the files that they leave behind. -/
theorem calls_return_in_turn (run : Run (Next networkStep) (networkInit n addr fs junk) trace s) :
    ∃ session, Run Called ⟨addr, 0, some fs, junk⟩ (returned trace) session ∧
      (s.waiting = none → session = s.session) ∧ (held s.threads).length ≤ 1 := by
  obtain ⟨queue, session, inv, calls, turn⟩ := oneAtATime_any run
  refine ⟨session, calls.mono fun _ _ _ => And.right, fun idle => ?_, ?_⟩
  · generalize underway s.threads queue = reqs at turn
    cases turn with
    | idle => rfl
    | asked waiting | answered waiting =>
        rw [idle] at waiting
        cases waiting
  · have one := turn.length_le
    rw [underway, List.length_append, List.length_append] at one
    omega

end Runs

/-- A file is made while the other consumer waits. -/
theorem calls_return_in_turn_create : ∃ boot trace, ∃ s : Network 2, ∃ session file,
    fsBoot 16 (fun _ => 1) = some boot ∧
    Run (Next networkStep) (networkInit 2 [99] boot fun _ => ⟨9, 9, 9⟩) trace s ∧
    returned trace = [(.create 1 [102], .ok (.create file))] ∧
    Run Called ⟨[99], 0, some boot, fun _ => ⟨9, 9, 9⟩⟩ (returned trace) session ∧
    session = s.session := by
  have boots : ((fsBoot 16 fun _ => 1).bind fun boot =>
      (execute networkStep (networkInit 2 [99] boot fun _ => ⟨9, 9, 9⟩)
        [.thread (.consumerEnter 0 none), .call (.create 1 [102]), .thread .producerEnter,
          .thread .producerReceive, .thread (.consumerEnter 1 none), .serve 1, .receive]).map
        fun r => (decide (r.2.waiting = none), returned r.1)) =
      some (true, [(.create 1 [102], .ok (.create 2))]) := by decide +kernel
  obtain ⟨boot, started, facts⟩ := Option.bind_eq_some_iff.mp boots
  obtain ⟨⟨trace, s⟩, moved, facts⟩ := Option.map_eq_some_iff.mp facts
  simp only [Prod.mk.injEq, decide_eq_true_eq] at facts
  have run := run_of_executed moved
  obtain ⟨session, calls, same, -⟩ := calls_return_in_turn run
  exact ⟨boot, trace, s, session, 2, started, run, facts.2, calls, same facts.1⟩

structure Asked (s : Network n) (call : Call) (sn : Nat) (queue : List Req) : Prop where
  waiting : s.waiting = some (call, sn)
  empty : s.socket = []
  inv : QueueInv s.threads queue
  underway : underway s.threads queue = [srvRecvRequest ⟨s.addr, call.sent sn⟩]

variable {call : Call} {sn : Nat}

theorem OneAtATime.asked (h : OneAtATime G init returns s) (waiting : s.waiting = some (call, sn))
    (empty : s.socket = []) : ∃ queue, Asked s call sn queue := by
  obtain ⟨queue, session, inv, -, turn⟩ := h
  refine ⟨queue, waiting, empty, inv, ?_⟩
  generalize underway s.threads queue = reqs at turn
  cases turn with
  | idle idle =>
      rw [waiting] at idle
      cases idle
  | asked waiting' _ before =>
      rw [waiting] at waiting'
      cases waiting'
      rw [Session.request, before]
  | answered _ _ _ response =>
      rw [empty] at response
      cases response

theorem Stalled.availableReqs (stalled : Stalled t) (step : Stepped t a o t') :
    t'.availableReqs = t.availableReqs := by
  obtain ⟨polling, empty⟩ := stalled
  cases step with
  | send | full | polls | again | dropped | waits | responded => rfl
  | @wake w waits => exact (woken_wake t w).availableReqs
  | put _ first =>
      rw [empty] at first
      cases first
  | got free => exact absurd polling free

def Returns (s : Network n) (call : Call) : Prop :=
  ∃ more s' r, Run (Next networkStep) s more s' ∧ returned more = [(call, r)]

theorem Returns.of_step {a : NetworkAction n} (next : Next networkStep s (a, none) s')
    (h : Returns s' call) : Returns s call := by
  obtain ⟨more, s₁, r, run, shown⟩ := h
  exact ⟨[(a, none)] ++ more, s₁, r, (Run.nil.snoc next).append run, shown⟩

theorem Network.next_thread {threads : Server n} (next : ServerNext s.threads (a, o) threads)
    (unsent : sendOf (a, o) = none) (unanswered : responseOf (a, o) = none) :
    Next networkStep s (.thread a, none) { s with threads := threads } := by
  cases a with
  | send => cases unsent
  | consumerRespond =>
      cases stepped_of_next next
      cases unanswered
  | wake _ | producerEnter | producerReceive | consumerEnter _ _ =>
      rw [ServerNext, Next] at next
      simp only [Next, networkStep, Network.thread, next, Option.map_some]

private theorem returns_of_received (waiting : s.waiting = some (call, sn))
    (arrived : s.socket ≠ []) :
    Returns s call := by
  obtain ⟨bytes, rest, first⟩ := List.exists_cons_of_ne_nil arrived
  have next : Next networkStep s (.receive, some (call, call.returned sn bytes))
      { s with waiting := none, socket := rest } := by
    simp only [Next, networkStep, Network.receive, waiting, first, Option.map_some]
  exact ⟨_, _, _, Run.nil.snoc next, rfl⟩

theorem Stepped.socket_of_enter {i : Fin n} {signalled : Option (Thread n)}
    (step : Stepped t (.consumerEnter i signalled) o t') : t'.socket = t.socket := by
  cases step with
  | waits => rfl
  | got _ _ _ signal => exact (woken_signal signal).socket

theorem Stepped.after_receive (step : Stepped t .producerReceive o t') :
    t'.socket = t.socket.tail ∧ held t' = held t := by
  cases step with
  | again _ none => exact ⟨by rw [none, List.tail_nil], rfl⟩
  | dropped _ first => exact ⟨by rw [first, List.tail_cons], rfl⟩
  | @put d rest _ first =>
      have woken := woken_signalall (received t rest (srvRecvRequest d))
      exact ⟨by rw [woken.socket, first]; rfl, held_congr woken.held⟩

def HandlerReturns (s : Network n) (call : Call) (sn : Nat) : Prop :=
  (serveRequest s.fs (srvRecvRequest ⟨s.addr, call.sent sn⟩, s.junk s.served)).isSome

instance (s : Network n) (call : Call) (sn : Nat) : Decidable (HandlerReturns s call sn) :=
  inferInstanceAs (Decidable (_ = true))

namespace Asked

variable {queue : List Req}

theorem one (asked : Asked s call sn queue) :
    s.threads.socket.length + (queue.length + (held s.threads).length) = 1 := by
  have all := congrArg List.length asked.underway
  rwa [Snfs.underway, List.length_append, List.length_append, List.length_map] at all

theorem thread (asked : Asked s call sn queue) {threads : Server n}
    (next : ServerNext s.threads (a, o) threads) (unsent : sendOf (a, o) = none)
    (unanswered : responseOf (a, o) = none) :
    ∃ queue', Asked { s with threads := threads } call sn queue' := by
  obtain ⟨queue', inv', perm⟩ := asked.inv.passes (stepped_of_next next) unsent unanswered
    fun d member => by
      have here : srvRecvRequest d ∈ Snfs.underway s.threads queue :=
        List.mem_append_left _ (List.mem_map_of_mem member)
      rw [asked.underway, List.mem_singleton] at here
      rw [here]
      exact reqsz_sent call sn s.addr
  rw [asked.underway, List.perm_singleton] at perm
  exact ⟨queue', asked.waiting, asked.empty, inv', perm⟩

theorem serves (asked : Asked s call sn queue) (handler : HandlerReturns s call sn)
    (taken : held s.threads ≠ []) : Returns s call := by
  obtain ⟨req, member⟩ := List.exists_mem_of_ne_nil _ taken
  obtain ⟨i, -, image⟩ := List.mem_filterMap.mp member
  have serving : s.threads.consumer i = .serving (some req) := by
    cases pc : s.threads.consumer i with
    | ready | waiting =>
        rw [pc] at image
        cases image
    | serving ptr =>
        rw [pc] at image
        exact congrArg Consumer.serving image
  have here : req ∈ Snfs.underway s.threads queue :=
    List.mem_append_right _ (List.mem_append_right _ member)
  rw [asked.underway, List.mem_singleton] at here
  obtain ⟨⟨answer, fs⟩, served⟩ := Option.isSome_iff_exists.mp handler
  rw [← here] at served
  have next : Next networkStep s (.serve i, none) { s with
      threads := { s.threads with consumer := Function.update s.threads.consumer i .ready }
      fs := fs
      served := s.served + 1
      socket := s.socket ++ [srvSendResponse (Snfs.serve req answer)] } := by
    simp only [Next, networkStep, Network.serve, serving, served, serverStep, consumerRespond,
      Option.map_some]
    rfl
  exact .of_step next (returns_of_received asked.waiting (by simp))

theorem takes (asked : Asked s call sn queue) (workers : 0 < n) (handler : HandlerReturns s call sn)
    (ring : queue ≠ []) (free : s.threads.producer ≠ .polling) : Returns s call := by
  obtain ⟨req, rest, rfl⟩ := List.exists_cons_of_ne_nil ring
  have inv := asked.inv
  have one := asked.one
  rw [List.length_cons] at one
  have idle : held s.threads = [] := List.length_eq_zero_iff.mp (by omega)
  have ready : s.threads.consumer ⟨0, workers⟩ = .ready := by
    cases pc : s.threads.consumer ⟨0, workers⟩ with
    | ready => rfl
    | waiting => cases inv.consumerWaits _ pc
    | serving ptr =>
        cases ptr with
        | none => exact absurd pc (inv.serving _)
        | some req =>
            have member : req ∈ held s.threads :=
              List.mem_filterMap.mpr ⟨_, List.mem_finRange _, by rw [pc]; rfl⟩
            rw [idle] at member
            cases member
  obtain ⟨signalled, threads, next, inv', -⟩ := inv.takes free ready
  obtain ⟨queue', asked'⟩ := asked.thread next rfl rfl
  refine .of_step (Network.next_thread next rfl rfl) (asked'.serves handler fun none => ?_)
  have one' := asked'.one
  have socket := (stepped_of_next next).socket_of_enter
  have count := asked'.inv.count.symm.trans inv'.count
  dsimp only at one' none
  rw [none, socket, List.length_nil] at one'
  omega

private theorem receives (asked : Asked s call sn queue) (workers : 0 < n)
    (handler : HandlerReturns s call sn) (polling : s.threads.producer = .polling)
    (socket : s.threads.socket ≠ []) : Returns s call := by
  have one := asked.one
  have pos := List.length_pos_iff.mpr socket
  obtain ⟨o, threads, more, next, other, inv', free⟩ := asked.inv.leaves polling socket
  have unanswered : responseOf (Action.producerReceive (n := n), o) = none := by
    cases stepped_of_next next <;> rfl
  obtain ⟨queue', asked'⟩ := asked.thread next rfl unanswered
  refine .of_step (Network.next_thread next rfl unanswered)
    (asked'.takes workers handler (fun none => ?_) free)
  have one' := asked'.one
  obtain ⟨rest, same⟩ := (stepped_of_next next).after_receive
  dsimp only at one' none
  rw [none, rest, same, List.length_tail, List.length_nil] at one'
  omega

theorem enters (asked : Asked s call sn queue) (workers : 0 < n)
    (handler : HandlerReturns s call sn) (socket : s.threads.socket ≠ []) : Returns s call := by
  have one := asked.one
  have pos := List.length_pos_iff.mpr socket
  have count := asked.inv.count
  cases pc : s.threads.producer with
  | polling => exact asked.receives workers handler pc socket
  | waiting =>
      have full := asked.inv.producerWaits pc
      simp only [ringSize] at full
      omega
  | ready =>
      have next : ServerNext s.threads (.producerEnter, .none)
          { s.threads with producer := .polling } := by
        have room : s.threads.availableReqs ≠ ringSize := by
          simp only [ringSize]
          omega
        simp only [ServerNext, Next, serverStep, producerEnter, pc, if_neg room]
      obtain ⟨queue', asked'⟩ := asked.thread next rfl rfl
      exact .of_step (Network.next_thread next rfl rfl)
        (asked'.receives workers handler rfl socket)

end Asked

end Snfs
