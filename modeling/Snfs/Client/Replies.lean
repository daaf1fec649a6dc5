import Mathlib.Data.List.Nodup
import Mathlib.Logic.Function.Basic
import Mathlib.Tactic.Push
import Snfs.Library.Runs

/-!
The threads of a client in `remote_call`: they share one socket, and each takes the
datagram that comes first. The serial numbers of requests are distinct, and the server
answers every request once, in any order. A datagram that does not have the serial
number of the thread that takes it is lost.
-/

namespace Snfs

open Runs

variable {ι α : Type}

/-- The threads `ι` of a client and the server. A thread that waits in `recvfrom` has the serial
number of its request; a response is its serial number and the rest of it. -/
structure Callers (ι α : Type) where
  waiting : ι → Option Nat
  used : List Nat
  requests : List Nat
  socket : List (Nat × α)

inductive CallersAction (ι α : Type) where
  | send (i : ι) (sn : Nat)
  | answer (sn : Nat) (body : α)
  | receive (i : ι)

/-- `remote_call` returns the response, or -1, which is `none`. -/
inductive CallersOutput (α : Type) where
  | quiet
  | returned (sn : Nat) (body : Option α)

namespace Callers

def init : Callers ι α := ⟨fun _ => none, [], [], []⟩

/-- A thread takes no response to the request of another one. -/
def OwnFirst (s : Callers ι α) : CallersAction ι α → Prop
  | .receive i => ∀ sn body rest, s.socket = (sn, body) :: rest → s.waiting i = some sn
  | _ => True

instance (s : Callers ι α) : (a : CallersAction ι α) → [DecidableEq ι] → Decidable (OwnFirst s a)
  | .send _ _, _ | .answer _ _, _ => .isTrue trivial
  | .receive i, _ =>
    decidable_of_iff (∀ a ∈ s.socket.head?, s.waiting i = some a.1)
      ⟨fun own sn body rest socket => own (sn, body) (by rw [socket]; rfl), fun own a first => by
        obtain ⟨rest, socket⟩ := List.head?_eq_some_iff.mp first
        exact own a.1 a.2 rest socket⟩

def Alone (s : Callers ι α) : CallersAction ι α → Prop
  | .send _ _ => ∀ i, s.waiting i = none
  | _ => True

def answers (trace : List (CallersAction ι α × CallersOutput α)) : List (Nat × α) :=
  trace.filterMap fun e =>
    match e.1 with
    | .answer sn body => some (sn, body)
    | _ => none

def returns (trace : List (CallersAction ι α × CallersOutput α)) : List (Nat × Option α) :=
  trace.filterMap fun e =>
    match e.2 with
    | .returned sn body => some (sn, body)
    | .quiet => none

/-- Every call that has returned has returned the answer to its request, every answer is returned or
is still on the socket for its caller, and the request of a caller that waits is not answered or its
answer is on the socket, where nothing else is. -/
structure Delivered (trace : List (CallersAction ι α × CallersOutput α)) (s : Callers ι α) :
    Prop where
  own : ∀ r ∈ returns trace, ∃ body, r.2 = some body ∧ (r.1, body) ∈ answers trace
  kept : ∀ a ∈ answers trace, (a.1, some a.2) ∈ returns trace ∨
    a ∈ s.socket ∧ ∃ i, s.waiting i = some a.1
  waits : ∀ i sn, s.waiting i = some sn → sn ∈ s.requests ∨ ∃ body, (sn, body) ∈ s.socket
  sent : ∀ a ∈ s.socket, a ∈ answers trace

/-- The serial numbers of the requests that have not been answered, or whose answers are on the
socket. -/
def outstanding (s : Callers ι α) : List Nat := s.requests ++ s.socket.map Prod.fst

/-- Every thread that waits has an outstanding request of its own, and these are all. -/
structure Matched (s : Callers ι α) : Prop where
  distinct : s.outstanding.Nodup
  waiting : ∀ i sn, s.waiting i = some sn → sn ∈ s.outstanding
  owner : ∀ sn ∈ s.outstanding, ∃ i, s.waiting i = some sn
  single : ∀ i j sn, s.waiting i = some sn → s.waiting j = some sn → i = j
  used : ∀ sn ∈ s.outstanding, sn ∈ s.used

variable {s s' : Callers ι α} {trace : List (CallersAction ι α × CallersOutput α)}

theorem answers_snoc (e : CallersAction ι α × CallersOutput α) :
    answers (trace ++ [e]) = answers trace ++
      (match e.1 with | .answer sn body => [(sn, body)] | _ => []) := by
  rw [answers, List.filterMap_append]
  rcases e with ⟨_ | _ | _, _⟩ <;> rfl

theorem returns_snoc (e : CallersAction ι α × CallersOutput α) :
    returns (trace ++ [e]) = returns trace ++
      (match e.2 with | .returned sn body => [(sn, body)] | .quiet => []) := by
  rw [returns, List.filterMap_append]
  rcases e with ⟨_, _ | _⟩ <;> rfl

/-- The requests and the answers together do not change when one is answered. -/
theorem outstanding_answer {sn : Nat} (body : α) (asked : sn ∈ s.requests) :
    (outstanding { s with
      requests := s.requests.erase sn
      socket := s.socket ++ [(sn, body)] }).Perm s.outstanding := by
  rw [outstanding, outstanding, List.map_append, ← List.append_assoc]
  refine List.perm_append_comm.trans ?_
  have back : (sn :: s.requests.erase sn).Perm s.requests := (List.perm_cons_erase asked).symm
  simpa using back.append_right (s.socket.map Prod.fst)

theorem Matched.answer {sn : Nat} {body : α} (matched : Matched s) (asked : sn ∈ s.requests) :
    Matched { s with
      requests := s.requests.erase sn
      socket := s.socket ++ [(sn, body)] } := by
  have perm := outstanding_answer body asked
  exact ⟨perm.nodup_iff.mpr matched.distinct,
    fun j k waits => perm.mem_iff.mpr (matched.waiting j k waits),
    fun k member => matched.owner k (perm.mem_iff.mp member), matched.single,
    fun k member => matched.used k (perm.mem_iff.mp member)⟩

theorem Matched.waits (matched : Matched s) (i : ι) (sn : Nat) (waiting : s.waiting i = some sn) :
    sn ∈ s.requests ∨ ∃ body, (sn, body) ∈ s.socket := by
  rcases List.mem_append.mp (matched.waiting i sn waiting) with asked | answered
  · exact .inl asked
  · obtain ⟨⟨sn, body⟩, member, rfl⟩ := List.mem_map.mp answered
    exact .inr ⟨body, member⟩

theorem Matched.caller (matched : Matched s) {a : Nat × α} (member : a ∈ s.socket) :
    ∃ i, s.waiting i = some a.1 :=
  matched.owner a.1 (List.mem_append_right _ (List.mem_map_of_mem member))

private theorem matched_init : Matched (init : Callers ι α) := by
  refine ⟨List.nodup_nil, fun _ _ waits => ?_, fun _ member => ?_, fun _ _ _ waits => ?_,
    fun _ member => ?_⟩
  · cases waits
  · cases member
  · cases waits
  · cases member

private theorem delivered_init : Delivered [] (init : Callers ι α) := by
  refine ⟨fun _ member => ?_, fun _ member => ?_, fun _ _ waits => ?_, fun _ member => ?_⟩
  · cases member
  · cases member
  · cases waits
  · cases member

variable [DecidableEq ι]

def step (s : Callers ι α) : CallersAction ι α → Option (CallersOutput α × Callers ι α)
  | .send i sn =>
    if s.waiting i = none ∧ sn ∉ s.used then
      some (.quiet, { s with
        waiting := Function.update s.waiting i (some sn)
        used := sn :: s.used
        requests := s.requests ++ [sn] })
    else none
  | .answer sn body =>
    if sn ∈ s.requests then
      some (.quiet, { s with
        requests := s.requests.erase sn
        socket := s.socket ++ [(sn, body)] })
    else none
  | .receive i =>
    match s.waiting i, s.socket with
    | some sn, (resSn, body) :: rest =>
      some (.returned sn (if resSn ≠ sn then none else some body),
        { s with waiting := Function.update s.waiting i none, socket := rest })
    | _, _ => none

inductive Stepped (s : Callers ι α) : CallersAction ι α → CallersOutput α → Callers ι α → Prop
  | send {i : ι} {sn : Nat} : s.waiting i = none → sn ∉ s.used →
      Stepped s (.send i sn) .quiet { s with
        waiting := Function.update s.waiting i (some sn)
        used := sn :: s.used
        requests := s.requests ++ [sn] }
  | answer {sn : Nat} {body : α} : sn ∈ s.requests →
      Stepped s (.answer sn body) .quiet { s with
        requests := s.requests.erase sn
        socket := s.socket ++ [(sn, body)] }
  | receive {i : ι} {sn resSn : Nat} {body : α} {rest : List (Nat × α)} :
      s.waiting i = some sn → s.socket = (resSn, body) :: rest →
      Stepped s (.receive i) (.returned sn (if resSn ≠ sn then none else some body))
        { s with waiting := Function.update s.waiting i none, socket := rest }

theorem stepped_of_next {e : CallersAction ι α × CallersOutput α} (next : Next step s e s') :
    Stepped s e.1 e.2 s' := by
  obtain ⟨action, output⟩ := e
  rw [Next] at next
  cases action with
  | send i sn =>
      rw [step] at next
      split at next
      · rename_i ready
        cases next
        exact .send ready.1 ready.2
      · cases next
  | answer sn body =>
      rw [step] at next
      split at next
      · rename_i asked
        cases next
        exact .answer asked
      · cases next
  | receive i =>
      rw [step] at next
      split at next
      · rename_i sn resSn body rest waiting socket
        cases next
        exact .receive waiting socket
      · cases next

theorem waiting_send {i j : ι} {sn k : Nat} (idle : s.waiting i = none) :
    Function.update s.waiting i (some sn) j = some k ↔ j = i ∧ k = sn ∨ s.waiting j = some k := by
  by_cases same : j = i
  · subst same
    rw [Function.update_self, idle]
    simp [eq_comm]
  · rw [Function.update_of_ne same]
    simp [same]

theorem waiting_receive {i j : ι} {k : Nat} :
    Function.update s.waiting i none j = some k ↔ j ≠ i ∧ s.waiting j = some k := by
  by_cases same : j = i
  · subst same
    rw [Function.update_self]
    simp
  · rw [Function.update_of_ne same]
    simp [same]

theorem Matched.send {i : ι} {sn : Nat} (matched : Matched s) (idle : s.waiting i = none)
    (fresh : sn ∉ s.used) :
    Matched { s with
      waiting := Function.update s.waiting i (some sn)
      used := sn :: s.used
      requests := s.requests ++ [sn] } := by
  have perm : (s.requests ++ [sn] ++ s.socket.map Prod.fst).Perm (sn :: s.outstanding) := by
    rw [outstanding, List.append_assoc]
    exact List.perm_middle
  have mem {k : Nat} : k ∈ s.requests ++ [sn] ++ s.socket.map Prod.fst ↔ k = sn ∨ k ∈ s.outstanding :=
    perm.mem_iff.trans List.mem_cons
  have new : sn ∉ s.outstanding := fun member => fresh (matched.used sn member)
  refine ⟨perm.nodup_iff.mpr (List.nodup_cons.mpr ⟨new, matched.distinct⟩), fun j k waits => ?_,
    fun k member => ?_, fun j l k first second => ?_, fun k member => ?_⟩
  · refine mem.mpr ?_
    rcases (waiting_send idle).mp waits with ⟨-, same⟩ | old
    · exact .inl same
    · exact .inr (matched.waiting j k old)
  · rcases mem.mp member with same | old
    · exact ⟨i, (waiting_send idle).mpr (.inl ⟨rfl, same⟩)⟩
    · obtain ⟨j, waits⟩ := matched.owner k old
      exact ⟨j, (waiting_send idle).mpr (.inr waits)⟩
  · rcases (waiting_send idle).mp first with ⟨here, same⟩ | old <;>
      rcases (waiting_send idle).mp second with ⟨here', same'⟩ | old'
    · rw [here, here']
    · exact absurd (same ▸ matched.waiting l k old') new
    · exact absurd (same' ▸ matched.waiting j k old) new
    · exact matched.single j l k old old'
  · rcases mem.mp member with rfl | old
    · exact List.mem_cons_self
    · exact List.mem_cons_of_mem _ (matched.used k old)

theorem Matched.receive {i : ι} {sn : Nat} {body : α} {rest : List (Nat × α)} (matched : Matched s)
    (waits : s.waiting i = some sn) (socket : s.socket = (sn, body) :: rest) :
    Matched { s with waiting := Function.update s.waiting i none, socket := rest } := by
  have perm : s.outstanding.Perm (sn :: (s.requests ++ rest.map Prod.fst)) := by
    rw [outstanding, socket]
    exact List.perm_middle
  have mem {k : Nat} : k ∈ s.outstanding ↔ k = sn ∨ k ∈ s.requests ++ rest.map Prod.fst :=
    perm.mem_iff.trans List.mem_cons
  obtain ⟨gone, distinct⟩ := List.nodup_cons.mp (perm.nodup_iff.mp matched.distinct)
  refine ⟨distinct, fun j k waits' => ?_, fun k member => ?_, fun j l k first second => ?_,
    fun k member => matched.used k (mem.mpr (.inr member))⟩
  · obtain ⟨other, old⟩ := waiting_receive.mp waits'
    refine (mem.mp (matched.waiting j k old)).resolve_left fun same => other ?_
    exact matched.single j i sn (same ▸ old) waits
  · obtain ⟨j, old⟩ := matched.owner k (mem.mpr (.inr member))
    refine ⟨j, waiting_receive.mpr ⟨?_, old⟩⟩
    rintro rfl
    rw [waits, Option.some.injEq] at old
    exact gone (old ▸ member)
  · exact matched.single j l k (waiting_receive.mp first).2 (waiting_receive.mp second).2

theorem Matched.step {e : CallersAction ι α × CallersOutput α} (matched : Matched s)
    (own : OwnFirst s e.1) (next : Next step s e s') : Matched s' := by
  obtain ⟨action, output⟩ := e
  cases stepped_of_next next with
  | send idle fresh => exact matched.send idle fresh
  | answer asked => exact matched.answer asked
  | receive waits socket =>
      obtain rfl : _ = _ := Option.some.inj (waits.symm.trans (own _ _ _ socket))
      exact matched.receive waits socket

theorem Delivered.step {e : CallersAction ι α × CallersOutput α} (delivered : Delivered trace s)
    (matched : Matched s) (own : OwnFirst s e.1) (next : Next Callers.step s e s') :
    Delivered (trace ++ [e]) s' := by
  have matched' := matched.step own next
  obtain ⟨action, output⟩ := e
  cases stepped_of_next next with
  | @send i sn idle fresh =>
      refine ⟨?_, fun a member => ?_, matched'.waits, ?_⟩ <;>
        simp only [answers_snoc, returns_snoc, List.append_nil] at *
      · exact delivered.own
      · exact (delivered.kept a member).imp_right fun held => ⟨held.1, matched'.caller held.1⟩
      · exact delivered.sent
  | @answer sn body asked =>
      refine ⟨?_, fun a member => ?_, matched'.waits, fun a member => ?_⟩ <;>
        simp only [answers_snoc, returns_snoc, List.append_nil] at *
      · intro r returned
        obtain ⟨body', same, answered⟩ := delivered.own r returned
        exact ⟨body', same, List.mem_append_left _ answered⟩
      · rcases List.mem_append.mp member with old | new
        · exact (delivered.kept a old).imp_right fun held =>
            ⟨List.mem_append_left _ held.1, matched'.caller (List.mem_append_left _ held.1)⟩
        · exact .inr ⟨List.mem_append_right _ new, matched'.caller (List.mem_append_right _ new)⟩
      · rcases List.mem_append.mp member with old | new
        · exact List.mem_append_left _ (delivered.sent a old)
        · exact List.mem_append_right _ new
  | @receive i sn resSn body rest waits socket =>
      obtain rfl : resSn = sn := Option.some.inj ((own _ _ _ socket).symm.trans waits)
      have inside {a : Nat × α} : a ∈ s.socket ↔ a = (resSn, body) ∨ a ∈ rest := by
        rw [socket, List.mem_cons]
      refine ⟨fun r returned => ?_, fun a member => ?_, matched'.waits, fun a member => ?_⟩ <;>
        simp only [answers_snoc, returns_snoc, List.append_nil, ne_eq, not_true_eq_false,
          if_false] at *
      · rcases List.mem_append.mp returned with old | new
        · exact delivered.own r old
        · obtain rfl := List.mem_singleton.mp new
          exact ⟨body, rfl, delivered.sent _ (inside.mpr (.inl rfl))⟩
      · rcases delivered.kept a member with returned | ⟨held, -⟩
        · exact .inl (List.mem_append_left _ returned)
        · rcases inside.mp held with rfl | later
          · exact .inl (List.mem_append_right _ (List.mem_singleton_self _))
          · exact .inr ⟨later, matched'.caller later⟩
      · exact delivered.sent a (inside.mpr (.inr member))

theorem matched_and_delivered (run : Run (Guarded (fun s e => OwnFirst s e.1) (Next Callers.step))
    init trace s) : Matched s ∧ Delivered trace s :=
  run.trace_invariant (I := fun trace s => Matched s ∧ Delivered trace s)
    ⟨matched_init, delivered_init⟩
    fun _ _ _ _ held next => ⟨held.1.step next.1 next.2, held.2.step held.1 next.1 next.2⟩

/-- As long as no thread takes the answer to another one's request, every answer reaches its caller. -/
theorem replies_delivered (run : Run (Guarded (fun s e => OwnFirst s e.1) (Next Callers.step))
    init trace s) : Delivered trace s :=
  (matched_and_delivered run).2

/-- When a thread waits alone, the first response on the socket is its own. -/
theorem ownFirst_of_alone {e : CallersAction ι α × CallersOutput α} (matched : Matched s)
    (single : ∀ i j m n, s.waiting i = some m → s.waiting j = some n → i = j)
    (next : Next Callers.step s e s') : OwnFirst s e.1 := by
  obtain ⟨action, output⟩ := e
  cases stepped_of_next next with
  | send | answer => trivial
  | @receive i sn resSn body rest waits socket =>
      intro sn' body' rest' socket'
      obtain ⟨j, other⟩ := matched.caller (a := (sn', body')) (by rw [socket']; exact List.mem_cons_self)
      rw [single i j _ _ waits other, other]

private theorem single_step {e : CallersAction ι α × CallersOutput α}
    (single : ∀ i j m n, s.waiting i = some m → s.waiting j = some n → i = j) (alone : Alone s e.1)
    (next : Next Callers.step s e s') :
    ∀ i j m n, s'.waiting i = some m → s'.waiting j = some n → i = j := by
  obtain ⟨action, output⟩ := e
  cases stepped_of_next next with
  | send idle fresh =>
      intro j l m n first second
      rcases (waiting_send idle).mp first with ⟨here, -⟩ | old
      · rcases (waiting_send idle).mp second with ⟨here', -⟩ | old'
        · rw [here, here']
        · rw [alone l] at old'
          cases old'
      · rw [alone j] at old
        cases old
  | answer asked => exact single
  | receive waits socket =>
      intro j l m n first second
      exact single j l m n (waiting_receive.mp first).2 (waiting_receive.mp second).2

theorem replies_delivered_of_alone
    (run : Run (Guarded (fun s e => Alone s e.1) (Next Callers.step)) init trace s) :
    Delivered trace s := by
  have held : (∀ i j m n, s.waiting i = some m → s.waiting j = some n → i = j) ∧
      Run (Guarded (fun s e => OwnFirst s e.1) (Next Callers.step)) init trace s := by
    induction run with
    | nil => exact ⟨fun _ _ _ _ waits => (by cases waits), .nil⟩
    | snoc _ next ih =>
        obtain ⟨single, run⟩ := ih
        have own := ownFirst_of_alone (matched_and_delivered run).1 single next.2
        exact ⟨single_step single next.1 next.2, run.snoc ⟨own, next.2⟩⟩
  exact (matched_and_delivered held.2).2

def inOrder : List (CallersAction Bool Nat) :=
  [.send false 0, .send true 1, .answer 0 7, .answer 1 8, .receive false, .receive true]

theorem replies_delivered_in_order :
    ∃ trace s, execute Callers.step init inOrder = some (trace, s) ∧ Delivered trace s := by
  have ran : (execute Callers.step init inOrder).isSome = true := by decide
  have own : Meets Callers.step OwnFirst init inOrder := by decide
  obtain ⟨⟨trace, s⟩, executed⟩ := Option.isSome_iff_exists.mp ran
  exact ⟨trace, s, executed, replies_delivered (run_of_execute executed own)⟩

def outOfOrder : List (CallersAction Bool Nat) :=
  [.send false 0, .send true 1, .answer 0 7, .receive true]

/-- The second thread returns -1, and the answer to the first one's request is gone. -/
theorem reply_taken_by_other_thread :
    ¬ ∀ (trace : List (CallersAction Bool Nat × CallersOutput Nat)) (s : Callers Bool Nat),
      Run (Next Callers.step) init trace s → Delivered trace s := by
  intro delivered
  have executed : (execute Callers.step init outOfOrder).isSome = true := by decide
  obtain ⟨⟨trace, s⟩, executed⟩ := Option.isSome_iff_exists.mp executed
  have taken := delivered trace s (run_of_executed executed)
  have result : returns trace = [(1, none)] := by
    cases executed
    rfl
  obtain ⟨_, same, _⟩ := taken.own (1, none) (by rw [result]; exact List.mem_cons_self)
  cases same

end Callers

end Snfs
