import Snfs.Server.Requests

/-!
What the threads wait for. No wakeup on the condition is lost: who waits waits
for something that is not there. But the producer polls the socket inside the
monitor, and when it does so with a request in the ring and without a datagram on
the socket, the request waits for the next client.
-/

namespace Snfs

open Rings Runs

variable {n : Nat} {s s' : Server n} {queue : List Req} {a : Action n} {o : Output}
  {trace : List (Action n × Output)}

theorem ServerRun.queueInv (run : ServerRun n trace s) : ∃ queue, QueueInv s queue := by
  refine run.invariant (I := fun s => ∃ queue, QueueInv s queue) ⟨[], queueInv_init n⟩ ?_
  rintro s ⟨a, o⟩ s' ⟨queue, inv⟩ next
  obtain ⟨queue', inv', -⟩ := inv.step (stepped_of_next next)
  exact ⟨queue', inv'⟩

private theorem producer_waits : s.waits .producer = true ↔ s.producer = .waiting := by
  simp [Server.waits]

private theorem consumer_waits {i : Fin n} :
    s.waits (.consumer i) = true ↔ s.consumer i = .waiting := by
  cases pc : s.consumer i <;> simp [Server.waits, Consumer.isWaiting, pc]

/-- A consumer waits only for a request, the producer only for a slot of a full ring; so they do
not all wait. -/
theorem no_lost_wakeup (run : ServerRun n trace s) :
    (∀ i, s.waits (.consumer i) → s.availableReqs = 0) ∧
    (s.waits .producer → s.availableReqs = ringSize ∧ ∀ i, ¬ s.waits (.consumer i)) ∧
    (0 < n → ∃ t, ¬ s.waits t) := by
  obtain ⟨queue, inv⟩ := run.queueInv
  have count := inv.count
  have empty (i : Fin n) (waits : s.waits (.consumer i) = true) : queue = [] :=
    inv.consumerWaits i (consumer_waits.mp waits)
  have full (waits : s.waits .producer = true) : queue.length = ringSize :=
    inv.producerWaits (producer_waits.mp waits)
  have apart (i : Fin n) (waits : s.waits .producer = true) : ¬ s.waits (.consumer i) := by
    intro waits'
    have none := congrArg List.length (empty i waits')
    rw [full waits] at none
    cases none
  refine ⟨fun i waits => ?_, fun waits => ⟨?_, fun i => apart i waits⟩, fun workers => ?_⟩
  · rw [count, empty i waits]
    rfl
  · rw [count, full waits]
  · by_cases waits : s.waits .producer = true
    · exact ⟨.consumer ⟨0, workers⟩, apart _ waits⟩
    · exact ⟨.producer, waits⟩

/-- The first of two consumers waits, the producer polls. -/
theorem no_lost_wakeup_idle :
    ∃ trace s, ServerRun 2 trace s ∧ s.waits (.consumer 0) ∧ s.availableReqs = 0 ∧
      ¬ s.waits .producer := by
  have facts : (execute serverStep (serverInit 2)
      [.consumerEnter 0 none, .producerEnter]).map (fun r => r.2.waits (.consumer 0)) =
        some true := by decide +kernel
  obtain ⟨⟨trace, s⟩, steps, waits⟩ := Option.map_eq_some_iff.mp facts
  have run : ServerRun 2 trace s := run_of_steps steps
  obtain ⟨consumers, producer, -⟩ := no_lost_wakeup run
  exact ⟨trace, s, run, waits, consumers 0 waits, fun waits' => (producer waits').2 0 waits⟩

/-- The first slots of the ring are the first requests of the queue. -/
theorem QueueInv.slots (inv : QueueInv s queue) {k : Nat} (le : k ≤ queue.length) :
    ((List.range k).map fun j => s.ring.slots (s.ring.pos j)) = (queue.take k).map some := by
  refine List.ext_getElem (by simp [le]) fun j hj hj' => ?_
  rw [List.length_map, List.length_range] at hj
  have slot := inv.ring.slot j (by rw [List.length_map]; omega)
  simpa using slot

/-- The steps that the threads take by themselves: no client sends, nobody wakes spuriously. -/
def Action.own : Action n → Prop
  | .send _ => False
  | .wake _ => False
  | _ => True

/-- The threads can, by themselves, take the first requests of the ring out of it, and in this
order. -/
def Dequeues (s : Server n) (reqs : List (Option Req)) : Prop :=
  ∃ steps s', Run ServerNext s steps s' ∧ (∀ e ∈ steps, e.1.own) ∧ gots steps = reqs

private theorem exists_signal (s : Server n) : ∃ signalled s', s.signal signalled = some s' := by
  by_cases nobody : s.waits .producer ∨ ∃ i, s.waits (.consumer i)
  · rcases nobody with waits | ⟨i, waits⟩
    · exact ⟨some .producer, s.wake .producer, by rw [Server.signal, if_pos waits]⟩
    · exact ⟨some (.consumer i), s.wake (.consumer i), by rw [Server.signal, if_pos waits]⟩
  · exact ⟨none, s, by rw [Server.signal, if_neg nobody]⟩

theorem QueueInv.takes {req : Req} {i : Fin n} (inv : QueueInv s (req :: queue))
    (free : s.producer ≠ .polling) (ready : s.consumer i = .ready) :
    ∃ signalled s', ServerNext s (.consumerEnter i signalled, .got (some req)) s' ∧
      QueueInv s' queue ∧ s'.producer ≠ .polling := by
  obtain ⟨signalled, s', signal⟩ := exists_signal (taken s i)
  obtain ⟨inv', first⟩ := inv.got free signal
  have some : s.availableReqs ≠ 0 := by
    rw [inv.count, List.length_cons]
    omega
  refine ⟨signalled, s', ?_, inv', fun polling => free ((woken_signal signal).producer_polling
    polling)⟩
  simp only [ServerNext, Next, serverStep, consumerEnter]
  split
  · exact absurd ‹_› free
  · rw [if_neg some, Option.map_eq_some_iff]
    exact ⟨s', signal, by rw [← first]⟩
  · rename_i other
    exact (other ready).elim

/-- As long as the monitor can be had, a consumer can take the first request, after it has
answered the one it serves. -/
theorem QueueInv.serves {req : Req} (inv : QueueInv s (req :: queue)) (workers : 0 < n)
    (free : s.producer ≠ .polling) :
    ∃ steps s', Run ServerNext s steps s' ∧ (∀ e ∈ steps, e.1.own) ∧ gots steps = [some req] ∧
      QueueInv s' queue ∧ s'.producer ≠ .polling := by
  cases pc : s.consumer ⟨0, workers⟩ with
  | ready =>
      obtain ⟨signalled, s', next, inv', free'⟩ := inv.takes free pc
      exact ⟨_, s', Run.nil.snoc next, by simp [Action.own], rfl, inv', free'⟩
  | waiting => cases inv.consumerWaits _ pc
  | serving held =>
      cases held with
      | none => exact absurd pc (inv.serving _)
      | some served =>
          let handled : Res × Nat := (⟨0, 0, 0, .zero⟩, 0)
          have answered : ServerNext s (.consumerRespond ⟨0, workers⟩ handled,
              .sent served.cliaddr (serve served handled).1 (serve served handled).2)
              { s with consumer := Function.update s.consumer ⟨0, workers⟩ .ready } := by
            simp only [ServerNext, Next, serverStep, consumerRespond, pc]
          obtain ⟨queue', inv', rfl⟩ := inv.step (stepped_of_next answered)
          obtain ⟨signalled, s', next, inv'', free'⟩ :=
            inv'.takes free (Function.update_self _ _ _)
          exact ⟨_, s', (Run.nil.snoc answered).snoc next, by simp [Action.own], rfl, inv'', free'⟩

theorem QueueInv.drains (inv : QueueInv s queue) (workers : 0 < n) (free : s.producer ≠ .polling)
    {k : Nat} (le : k ≤ queue.length) : Dequeues s ((queue.take k).map some) := by
  induction k generalizing s queue with
  | zero => exact ⟨[], s, .nil, nofun, by simp [gots]⟩
  | succ k ih =>
      cases queue with
      | nil => cases le
      | cons req queue =>
          obtain ⟨steps, s₁, run, own, got, inv₁, free₁⟩ := inv.serves workers free
          obtain ⟨steps', s₂, run', own', gots'⟩ := ih inv₁ free₁ (Nat.le_of_succ_le_succ le)
          refine ⟨steps ++ steps', s₂, run.append run', fun e member => ?_, ?_⟩
          · rcases List.mem_append.mp member with first | last
            · exact own e first
            · exact own' e last
          · rw [gots, List.filterMap_append, ← gots, ← gots, got, gots']
            rfl

/-- A producer that polls a socket with a datagram leaves the monitor, and the queue as it was or
longer. -/
theorem QueueInv.leaves (inv : QueueInv s queue) (polling : s.producer = .polling)
    (datagram : s.socket ≠ []) :
    ∃ o s' more, ServerNext s (.producerReceive, o) s' ∧ (∀ ptr, o ≠ .got ptr) ∧
      QueueInv s' (queue ++ more) ∧ s'.producer ≠ .polling := by
  cases first : s.socket with
  | nil => exact absurd first datagram
  | cons d rest =>
      by_cases empty : (srvRecvRequest d).reqsz = 0
      · have next : ServerNext s (.producerReceive, .none)
            { s with socket := rest, producer := .ready } := by
          simp only [ServerNext, Next, serverStep, producerReceive, polling, first, if_pos empty]
        obtain ⟨queue', inv', rfl⟩ := inv.step (stepped_of_next next)
        exact ⟨_, _, [], next, by simp, by rwa [List.append_nil], by simp⟩
      · have next : ServerNext s (.producerReceive, .put (srvRecvRequest d))
            (received s rest (srvRecvRequest d)).signalall := by
          simp only [ServerNext, Next, serverStep, producerReceive, polling, first, if_neg empty]
          rfl
        exact ⟨_, _, [srvRecvRequest d], next, by simp, inv.put polling,
          by simp [Server.signalall, received, Producer.wake]⟩

/-- A request in the ring can be taken out unless the producer polls an empty socket. -/
theorem QueueInv.dequeues (inv : QueueInv s queue) (workers : 0 < n)
    (datagram : s.producer = .polling → s.socket ≠ []) {k : Nat} (le : k ≤ queue.length) :
    Dequeues s ((queue.take k).map some) := by
  by_cases polling : s.producer = .polling
  · obtain ⟨o, s₁, more, next, quiet, inv₁, free⟩ := inv.leaves polling (datagram polling)
    have le' : k ≤ (queue ++ more).length := by
      rw [List.length_append]
      omega
    obtain ⟨steps, s₂, run, own, got⟩ := inv₁.drains workers free le'
    refine ⟨[(.producerReceive, o)] ++ steps, s₂, (Run.nil.snoc next).append run,
      fun e member => ?_, ?_⟩
    · rcases List.mem_append.mp member with first | last
      · rw [List.mem_singleton.mp first]
        trivial
      · exact own e last
    · have none : gotOf (Action.producerReceive (n := n), o) = Option.none := by
        cases o with
        | got ptr => exact absurd rfl (quiet ptr)
        | none | put req | sent cliaddr res ressz => rfl
      rw [List.take_append_of_le_length le] at got
      rw [gots, List.singleton_append, List.filterMap_cons_none none, ← gots, got]
  · exact inv.drains workers polling le

def Stalled (s : Server n) : Prop := s.producer = .polling ∧ s.socket = []

theorem Stalled.step (stalled : Stalled s) (step : Stepped s a o s')
    (quiet : sendOf (a, o) = none) : Stalled s' ∧ gotOf (a, o) = none := by
  obtain ⟨polling, empty⟩ := stalled
  cases step with
  | send d => cases quiet
  | @wake t waits =>
      have woken := woken_wake s t
      refine ⟨⟨?_, woken.socket.trans empty⟩, rfl⟩
      rcases woken.producer with same | ⟨waiting, -⟩
      · rw [same, polling]
      · rw [polling] at waiting
        cases waiting
  | full ready | polls ready =>
      rw [polling] at ready
      cases ready
  | again polling none => exact ⟨⟨polling, none⟩, rfl⟩
  | dropped polling first | put polling first =>
      rw [empty] at first
      cases first
  | waits signalled free | got free => exact absurd polling free
  | responded handled serving => exact ⟨⟨polling, empty⟩, rfl⟩

/-- As long as no datagram arrives, nothing is taken out. -/
theorem Stalled.run {steps : List (Action n × Output)} (stalled : Stalled s)
    (run : Run ServerNext s steps s') (quiet : sends steps = []) :
    Stalled s' ∧ gots steps = [] := by
  induction run with
  | nil => exact ⟨stalled, rfl⟩
  | @snoc steps s₁ s₂ e run next ih =>
      rw [sends_concat, List.append_eq_nil_iff] at quiet
      obtain ⟨stalled₁, none⟩ := ih quiet.1
      obtain ⟨stalled₂, none'⟩ := stalled₁.step (stepped_of_next next)
        (Option.toList_eq_nil_iff.mp quiet.2)
      refine ⟨stalled₂, ?_⟩
      rw [gots_concat, none, none']
      rfl

/-- The producer enters the monitor only with a datagram to receive, unless the ring is empty, or
full, so that it waits. -/
def EntersToReceive (s : Server n) : Action n → Prop
  | .producerEnter => s.availableReqs = 0 ∨ s.availableReqs = ringSize ∨ s.socket ≠ []
  | _ => True

instance (s : Server n) : DecidablePred (EntersToReceive s)
  | .producerEnter => inferInstanceAs (Decidable (_ ∨ _ ∨ _))
  | .send _ | .wake _ | .producerReceive | .consumerEnter _ _ | .consumerRespond _ _ =>
      .isTrue trivial

/-- Who polls has a datagram to receive or holds no request back. -/
def HoldsNothingBack (s : Server n) : Prop :=
  s.producer = .polling → s.availableReqs = 0 ∨ s.socket ≠ []

theorem HoldsNothingBack.step (h : HoldsNothingBack s) (enters : EntersToReceive s a)
    (step : Stepped s a o s') : HoldsNothingBack s' := by
  intro polling
  cases step with
  | send d => exact .inr (by simp)
  | @wake t waits =>
      have woken := woken_wake s t
      rw [woken.availableReqs, woken.socket]
      exact h (woken.producer_polling polling)
  | full | dropped => cases polling
  | put => cases (woken_signalall _).producer_polling polling
  | polls ready room =>
      rcases enters with none | full | datagram
      · exact .inl none
      · exact absurd full room
      · exact .inr datagram
  | again | responded => exact h polling
  | waits signalled free => exact absurd polling free
  | got free ready some signal => exact absurd ((woken_signal signal).producer_polling polling) free

/-- Entering otherwise stalls, with a request in the ring. -/
theorem stalled_of_enters (enters : ¬ EntersToReceive s a) (step : Stepped s a o s') :
    Stalled s' ∧ s'.availableReqs ≠ 0 := by
  cases step with
  | full ready full => exact absurd (.inr (.inl full)) enters
  | polls ready room =>
      simp only [EntersToReceive, not_or, not_not] at enters
      exact ⟨⟨rfl, enters.2.2⟩, enters.1⟩
  | send | wake | again | dropped | put | waits | got | responded => exact absurd trivial enters

/-- The request of a client has been put in the ring and the producer polls the empty socket: as
long as no other datagram arrives, none of the five consumers can take the request out. -/
theorem request_waits_for_client :
    ∃ trace s, ServerRun 5 trace s ∧ s.availableReqs = 1 ∧ s.producer = .polling ∧
      s.socket = [] ∧
      ∀ steps s', Run ServerNext s steps s' → sends steps = [] → gots steps = [] := by
  have facts : (execute serverStep (serverInit 5)
      [.send ⟨[99], [1, 0, 0, 0, 7, 0, 0, 0]⟩, .producerEnter, .producerReceive,
        .producerEnter]).map (fun r => (r.2.availableReqs, r.2.producer, r.2.socket.length)) =
        some (1, .polling, 0) := by decide +kernel
  obtain ⟨⟨trace, s⟩, steps, facts⟩ := Option.map_eq_some_iff.mp facts
  simp only [Prod.mk.injEq, List.length_eq_zero_iff] at facts
  obtain ⟨one, polling, empty⟩ := facts
  exact ⟨trace, s, run_of_steps steps, one, polling, empty,
    fun steps' s' more quiet => (Stalled.run ⟨polling, empty⟩ more quiet).2⟩

/-- If the producer enters the monitor only so, no request in the ring has to wait for another
client: the threads by themselves can take all of them out, in their order. -/
theorem queued_request_dequeued (workers : 0 < n)
    (run : Run (Guarded (fun s e => EntersToReceive s e.1) ServerNext) (serverInit n) trace s) :
    (∀ k : Nat, k ≤ s.availableReqs →
      Dequeues s ((List.range k).map fun j => s.ring.slots (s.ring.pos j))) ∧
    ¬ (0 < s.availableReqs ∧ s.producer = .polling ∧ s.socket = []) := by
  obtain ⟨queue, inv⟩ := ServerRun.queueInv (run.mono fun _ _ _ next => next.2)
  have nothing : HoldsNothingBack s := by
    refine run.invariant nofun fun s e s' h next => ?_
    exact h.step next.1 (stepped_of_next next.2)
  refine ⟨fun k le => ?_, fun ⟨pending, polling, empty⟩ => ?_⟩
  · have le' : k ≤ queue.length := by
      rw [inv.count] at le
      omega
    rw [inv.slots le']
    cases k with
    | zero => exact ⟨[], s, .nil, nofun, rfl⟩
    | succ k =>
        refine inv.dequeues workers (fun polling => ?_) le'
        refine (nothing polling).resolve_left fun none => ?_
        rw [none] at le
        omega
  · rcases nothing polling with none | datagram
    · omega
    · exact datagram empty

/-- One of two requests is in the ring, and the producer polls for the other. -/
theorem queued_request_dequeued_two_clients :
    ∃ trace s, ServerRun 5 trace s ∧ s.availableReqs = 1 ∧ s.producer = .polling ∧
      ∃ req, s.ring.slots (s.ring.pos 0) = some req ∧ req.sn = 7 ∧ Dequeues s [some req] := by
  have facts : (execute serverStep (serverInit 5)
      [.send ⟨[99], [1, 0, 0, 0, 7, 0, 0, 0]⟩, .send ⟨[98], [1, 0, 0, 0, 9, 0, 0, 0]⟩,
        .producerEnter, .producerReceive, .producerEnter]).map (fun r =>
          (decide (Meets serverStep EntersToReceive (serverInit 5)
            [.send ⟨[99], [1, 0, 0, 0, 7, 0, 0, 0]⟩, .send ⟨[98], [1, 0, 0, 0, 9, 0, 0, 0]⟩,
              .producerEnter, .producerReceive, .producerEnter]),
            r.2.availableReqs, r.2.producer, (r.2.ring.slots (r.2.ring.pos 0)).map Req.sn)) =
        some (true, 1, .polling, some 7) := by decide +kernel
  obtain ⟨⟨trace, s⟩, steps, facts⟩ := Option.map_eq_some_iff.mp facts
  simp only [Prod.mk.injEq] at facts
  obtain ⟨met, one, polling, first⟩ := facts
  obtain ⟨req, slot, sn⟩ := Option.map_eq_some_iff.mp first
  have run := run_of_execute steps (of_decide_eq_true met)
  have dequeues := (queued_request_dequeued (by decide) run).1 1 (by rw [one]; rfl)
  refine ⟨trace, s, run_of_steps steps, one, polling, req, slot, sn, ?_⟩
  simpa [slot] using dequeues

end Snfs
