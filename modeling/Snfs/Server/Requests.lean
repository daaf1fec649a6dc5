import Snfs.Server.Queue

/-!
Every request is served once and in order. A run accounts for each datagram: it
is still on the socket or it was received; if it was not empty, its request is
in the ring, or a consumer holds it, or it has been answered.
-/

namespace Snfs

open Rings Runs

variable {n : Nat} {s s' : Server n} {a : Action n} {o : Output}
  {trace : List (Action n × Output)}

def sendOf (e : Action n × Output) : Option Datagram :=
  match e.1 with
  | .send d => some d
  | _ => none

def putOf (e : Action n × Output) : Option Req :=
  match e.2 with
  | .put req => some req
  | _ => none

def gotOf (e : Action n × Output) : Option (Option Req) :=
  match e.2 with
  | .got ptr => some ptr
  | _ => none

def responseOf (e : Action n × Output) : Option (SockAddr × Res) :=
  match e.2 with
  | .sent cliaddr res _ => some (cliaddr, res)
  | _ => none

def sends (trace : List (Action n × Output)) : List Datagram := trace.filterMap sendOf

def puts (trace : List (Action n × Output)) : List Req := trace.filterMap putOf

def gots (trace : List (Action n × Output)) : List (Option Req) := trace.filterMap gotOf

def responses (trace : List (Action n × Output)) : List (SockAddr × Res) :=
  trace.filterMap responseOf

private theorem filterMap_concat {α β : Type} (f : α → Option β) (xs : List α) (x : α) :
    (xs ++ [x]).filterMap f = xs.filterMap f ++ (f x).toList := by
  cases h : f x <;> simp [h]

@[simp] theorem sends_concat (e : Action n × Output) :
    sends (trace ++ [e]) = sends trace ++ (sendOf e).toList := filterMap_concat _ _ _

@[simp] theorem puts_concat (e : Action n × Output) :
    puts (trace ++ [e]) = puts trace ++ (putOf e).toList := filterMap_concat _ _ _

@[simp] theorem gots_concat (e : Action n × Output) :
    gots (trace ++ [e]) = gots trace ++ (gotOf e).toList := filterMap_concat _ _ _

@[simp] theorem responses_concat (e : Action n × Output) :
    responses (trace ++ [e]) = responses trace ++ (responseOf e).toList := filterMap_concat _ _ _

/-- The response goes to the sender of the request and has its serial number. -/
def Answers (req : Req) (response : SockAddr × Res) : Prop :=
  response.1 = req.cliaddr ∧ response.2.sn = req.sn

def Consumer.held : Consumer → Option Req
  | .serving req => req
  | _ => none

def held (s : Server n) : List Req := (List.finRange n).filterMap fun i => (s.consumer i).held

private theorem filterMap_gain {ι α : Type} {l : List ι} {f g : ι → Option α} {i : ι} {x : α}
    (nodup : l.Nodup) (member : i ∈ l) (before : f i = none) (after : g i = some x)
    (others : ∀ j, j ≠ i → g j = f j) : (l.filterMap g).Perm (x :: l.filterMap f) := by
  induction l with
  | nil => cases member
  | cons j l ih =>
      have nodup' := List.nodup_cons.mp nodup
      rcases List.mem_cons.mp member with rfl | rest
      · have same : l.filterMap g = l.filterMap f := by
          refine List.filterMap_congr fun k hk => others k ?_
          rintro rfl
          exact nodup'.1 hk
        rw [List.filterMap_cons_some after, List.filterMap_cons_none before, same]
      · have ne : j ≠ i := by
          rintro rfl
          exact nodup'.1 rest
        have tail := ih nodup'.2 rest
        cases image : f j with
        | none =>
            rwa [List.filterMap_cons_none ((others j ne).trans image),
              List.filterMap_cons_none image]
        | some y =>
            rw [List.filterMap_cons_some ((others j ne).trans image),
              List.filterMap_cons_some image]
            exact (tail.cons y).trans (List.Perm.swap x y _)

theorem held_gain {i : Fin n} {req : Req} (before : (s.consumer i).held = none)
    (after : (s'.consumer i).held = some req)
    (others : ∀ j, j ≠ i → (s'.consumer j).held = (s.consumer j).held) :
    (held s').Perm (req :: held s) :=
  filterMap_gain (List.nodup_finRange n) (List.mem_finRange i) before after others

theorem held_congr (same : ∀ i, (s'.consumer i).held = (s.consumer i).held) :
    held s' = held s :=
  List.filterMap_congr fun i _ => same i

theorem Woken.held (h : Woken s s') (i : Fin n) :
    (s'.consumer i).held = (s.consumer i).held := by
  rcases h.consumer i with same | ⟨waiting, ready⟩
  · rw [same]
  · rw [waiting, ready]
    rfl

/-- Where the datagrams of a run are: `drawn` from the socket, `out` of the ring, in the `queue`,
`answered`. -/
structure Accounts (trace : List (Action n × Output)) (s : Server n) (drawn : List Datagram)
    (out queue answered : List Req) : Prop where
  inv : QueueInv s queue
  sends : sends trace = drawn ++ s.socket
  drawn : puts trace = (drawn.filter fun d => d.bytes ≠ []).map srvRecvRequest
  puts : puts trace = out ++ queue
  gots : gots trace = out.map some
  held : (answered ++ held s).Perm out
  answers : List.Forall₂ Answers answered (responses trace)

theorem reqsz_eq_zero {d : Datagram} : (srvRecvRequest d).reqsz = 0 ↔ d.bytes = [] := by
  rw [← List.length_eq_zero_iff]
  simp only [srvRecvRequest, msgReqSize]
  omega

variable {drawn : List Datagram} {out queue answered : List Req}

/-- A step that shows nothing and leaves the socket and the consumers' requests alone. -/
theorem Accounts.quiet (h : Accounts trace s drawn out queue answered) (inv : QueueInv s' queue)
    (client : sendOf (a, Output.none) = none) (socket : s'.socket = s.socket)
    (same : ∀ i, (s'.consumer i).held = (s.consumer i).held) :
    Accounts (trace ++ [(a, .none)]) s' drawn out queue answered := by
  refine ⟨inv, ?_, ?_, ?_, ?_, ?_, ?_⟩
  · rw [sends_concat, client, socket, h.sends]
    simp
  · simpa [putOf] using h.drawn
  · simpa [putOf] using h.puts
  · simpa [gotOf] using h.gots
  · rw [held_congr same]
    exact h.held
  · simpa [responseOf] using h.answers

theorem Accounts.step (h : Accounts trace s drawn out queue answered) (step : Stepped s a o s') :
    ∃ drawn' out' queue' answered',
      Accounts (trace ++ [(a, o)]) s' drawn' out' queue' answered' := by
  obtain ⟨queue', inv', moves⟩ := h.inv.step step
  cases step with
  | send d =>
      obtain rfl := moves
      refine ⟨drawn, out, queue', answered, inv', ?_, ?_, ?_, ?_, h.held, ?_⟩
      · simp [sendOf, h.sends]
      · simpa [putOf] using h.drawn
      · simpa [putOf] using h.puts
      · simpa [gotOf] using h.gots
      · simpa [responseOf] using h.answers
  | @wake t waits =>
      obtain rfl := moves
      have woken := woken_wake s t
      exact ⟨drawn, out, queue', answered, h.quiet inv' rfl woken.socket woken.held⟩
  | full ready full | polls ready room =>
      obtain rfl := moves
      exact ⟨drawn, out, queue', answered, h.quiet inv' rfl rfl fun _ => rfl⟩
  | again polling none =>
      obtain rfl := moves
      exact ⟨drawn, out, queue', answered, h.quiet inv' rfl rfl fun _ => rfl⟩
  | @dropped d rest polling first empty =>
      obtain rfl := moves
      have bytes := reqsz_eq_zero.mp empty
      refine ⟨drawn ++ [d], out, queue', answered, inv', ?_, ?_, ?_, ?_, h.held, ?_⟩
      · simp [sendOf, h.sends, first]
      · simpa [putOf, bytes] using h.drawn
      · simpa [putOf] using h.puts
      · simpa [gotOf] using h.gots
      · simpa [responseOf] using h.answers
  | @put d rest polling first nonempty =>
      obtain rfl := moves
      have bytes : d.bytes ≠ [] := fun empty => nonempty (reqsz_eq_zero.mpr empty)
      have woken := woken_signalall (received s rest (srvRecvRequest d))
      refine ⟨drawn ++ [d], out, _, answered, inv', ?_, ?_, ?_, ?_, ?_, ?_⟩
      · rw [woken.socket]
        simp [sendOf, h.sends, first, received]
      · simpa [putOf, bytes] using h.drawn
      · rw [puts_concat, h.puts, List.append_assoc]
        rfl
      · simpa [gotOf] using h.gots
      · rw [held_congr woken.held]
        exact h.held
      · simpa [responseOf] using h.answers
  | @waits i signalled free ready none =>
      obtain rfl := moves
      refine ⟨drawn, out, queue', answered, h.quiet inv' rfl rfl fun j => ?_⟩
      by_cases here : j = i
      · subst here
        simp only [Function.update_self, ready]
        rfl
      · simp only [Function.update_of_ne here]
  | @got _ i signalled free ready some signal =>
      obtain ⟨req, first, rfl⟩ := moves
      have woken := woken_signal signal
      have gained : (Snfs.held s').Perm (req :: Snfs.held s) := by
        rw [held_congr woken.held]
        refine held_gain (i := i) ?_ ?_ fun j ne => ?_
        · rw [ready]
          rfl
        · simp only [taken, Function.update_self, first]
          rfl
        · simp only [taken, Function.update_of_ne ne]
      refine ⟨drawn, out ++ [req], queue', answered, inv', ?_, ?_, ?_, ?_, ?_, ?_⟩
      · rw [woken.socket, sends_concat, h.sends]
        simp [sendOf, taken]
      · simpa [putOf] using h.drawn
      · simpa [putOf] using h.puts
      · simp [gotOf, h.gots, first]
      · refine (gained.append_left answered).trans ?_
        refine List.perm_middle.trans ?_
        exact (h.held.cons req).trans (List.perm_append_singleton req out).symm
      · simpa [responseOf] using h.answers
  | @responded i req handled serving =>
      obtain rfl := moves
      have lost : (Snfs.held s).Perm (req :: Snfs.held { s with
          consumer := Function.update s.consumer i .ready }) := by
        refine held_gain (i := i) ?_ ?_ fun j ne => ?_
        · simp only [Function.update_self]
          rfl
        · rw [serving]
          rfl
        · simp only [Function.update_of_ne ne]
      refine ⟨drawn, out, queue', answered ++ [req], inv', ?_, ?_, ?_, ?_, ?_, ?_⟩
      · simpa [sendOf] using h.sends
      · simpa [putOf] using h.drawn
      · simpa [putOf] using h.puts
      · simpa [gotOf] using h.gots
      · rw [List.append_assoc, List.singleton_append]
        exact (lost.append_left answered).symm.trans h.held
      · rw [responses_concat]
        exact List.rel_append h.answers (.cons ⟨rfl, rfl⟩ .nil)

theorem ServerRun.accounts (run : ServerRun n trace s) :
    ∃ drawn out queue answered, Accounts trace s drawn out queue answered := by
  refine run.trace_invariant (I := fun trace s =>
    ∃ drawn out queue answered, Accounts trace s drawn out queue answered) ?_ ?_
  · refine ⟨[], [], [], [], queueInv_init n, rfl, rfl, rfl, rfl, ?_, .nil⟩
    have none : held (serverInit n) = [] := List.filterMap_eq_nil_iff.mpr fun _ _ => rfl
    rw [none]
    exact .refl []
  · rintro trace s ⟨a, o⟩ s' ⟨drawn, out, queue, answered, accounts⟩ next
    exact accounts.step (stepped_of_next next)

/-- The requests of the nonempty datagrams go through the ring once each and in order, whatever
the schedule: those received are those taken out and those in the ring, as many as
`available_reqs` says; what is put overwrites none of them; and each response answers another
request taken out. -/
theorem requests_served_once (run : ServerRun n trace s) :
    ∃ (drawn : List Datagram) (out queue answered : List Req),
      sends trace = drawn ++ s.socket ∧
      puts trace = (drawn.filter fun d => d.bytes ≠ []).map srvRecvRequest ∧
      puts trace = out ++ queue ∧ gots trace = out.map some ∧
      s.availableReqs = (puts trace).length - (gots trace).length ∧
      0 ≤ s.availableReqs ∧ s.availableReqs ≤ ringSize ∧
      (∀ j (h : j < queue.length), s.ring.slots (s.ring.pos j) = some queue[j]) ∧
      (∀ req s', ServerNext s (.producerReceive, .put req) s' →
        ∀ j, j < queue.length → s.ring.pos j ≠ s.ring.putPos) ∧
      answered.Subperm out ∧ List.Forall₂ Answers answered (responses trace) := by
  obtain ⟨drawn, out, queue, answered, accounts⟩ := run.accounts
  have inv := accounts.inv
  have count := inv.count
  have le := inv.le
  refine ⟨drawn, out, queue, answered, accounts.sends, accounts.drawn, accounts.puts,
    accounts.gots, ?_, by omega, by omega, fun j h => ?_, fun req s' next j h => ?_, ?_,
    accounts.answers⟩
  · rw [accounts.puts, accounts.gots, List.length_append, List.length_map]
    omega
  · have slot := inv.ring.slot j (by rwa [List.length_map])
    rwa [List.getElem_map] at slot
  · cases stepped_of_next next with
    | put polling =>
        exact inv.ring.putPos_ne (by rw [List.length_map]; exact inv.room polling)
          (by rwa [List.length_map])
  · exact (List.sublist_append_left answered (held s)).subperm.trans accounts.held.subperm

/-- A ping is received, taken out by the second of two consumers and answered. -/
theorem requests_served_once_ping :
    ∃ trace s, ServerRun 2 trace s ∧ (responses trace).map (fun r => (r.1, r.2.sn)) = [([99], 7)] ∧
      ∃ out answered, gots trace = out.map some ∧ answered.Subperm out ∧
        List.Forall₂ Answers answered (responses trace) := by
  have facts : (execute serverStep (serverInit 2) [.send ⟨[99], [1, 0, 0, 0, 7, 0, 0, 0]⟩,
      .producerEnter, .producerReceive, .consumerEnter 1 none,
      .consumerRespond 1 (⟨1, 0, 0, .zero⟩, 12)]).map
        (fun r => (responses r.1).map fun r => (r.1, r.2.sn)) = some [([99], 7)] := by
    decide +kernel
  obtain ⟨⟨trace, s⟩, steps, sent⟩ := Option.map_eq_some_iff.mp facts
  have run : ServerRun 2 trace s := run_of_steps steps
  obtain ⟨drawn, out, queue, answered, -, -, -, got, -, -, -, -, -, sub, answers⟩ :=
    requests_served_once run
  exact ⟨trace, s, run, sent, out, answered, got, sub, answers⟩

end Snfs
