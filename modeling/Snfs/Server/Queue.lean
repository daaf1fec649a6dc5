import Snfs.Server.State
import Mathlib.Data.List.Perm.Subperm

/-!
The requests between the producer and the consumers. The ring stands for a queue
of as many requests as `available_reqs` says; who waits on the condition is
decided by its length. What has been received, taken out and answered is read
off the trace.
-/

namespace Snfs

open Rings Runs

variable {n : Nat} {s s' : Server n} {queue : List Req} {a : Action n} {o : Output}

def taken (s : Server n) (i : Fin n) : Server n :=
  { s with
    ring := s.ring.get.2
    availableReqs := s.availableReqs - 1
    consumer := Function.update s.consumer i (.serving s.ring.get.1) }

def received (s : Server n) (rest : List Datagram) (req : Req) : Server n :=
  { s with
    socket := rest
    producer := .ready
    ring := s.ring.put (some req)
    availableReqs := s.availableReqs + 1 }

inductive Stepped : Server n → Action n → Output → Server n → Prop where
  | send (s : Server n) (d : Datagram) :
      Stepped s (.send d) .none { s with socket := s.socket ++ [d] }
  | wake {s : Server n} {t : Thread n} (waits : s.waits t = true) :
      Stepped s (.wake t) .none (s.wake t)
  | full {s : Server n} (ready : s.producer = .ready) (full : s.availableReqs = ringSize) :
      Stepped s .producerEnter .none { s with producer := .waiting }
  | polls {s : Server n} (ready : s.producer = .ready) (room : s.availableReqs ≠ ringSize) :
      Stepped s .producerEnter .none { s with producer := .polling }
  | again {s : Server n} (polling : s.producer = .polling) (none : s.socket = []) :
      Stepped s .producerReceive .none s
  | dropped {s : Server n} {d : Datagram} {rest : List Datagram} (polling : s.producer = .polling)
      (first : s.socket = d :: rest) (empty : (srvRecvRequest d).reqsz = 0) :
      Stepped s .producerReceive .none { s with socket := rest, producer := .ready }
  | put {s : Server n} {d : Datagram} {rest : List Datagram} (polling : s.producer = .polling)
      (first : s.socket = d :: rest) (nonempty : (srvRecvRequest d).reqsz ≠ 0) :
      Stepped s .producerReceive (.put (srvRecvRequest d))
        (received s rest (srvRecvRequest d)).signalall
  | waits {s : Server n} {i : Fin n} (signalled : Option (Thread n)) (free : s.producer ≠ .polling)
      (ready : s.consumer i = .ready) (none : s.availableReqs = 0) :
      Stepped s (.consumerEnter i signalled) .none
        { s with consumer := Function.update s.consumer i .waiting }
  | got {s s' : Server n} {i : Fin n} {signalled : Option (Thread n)}
      (free : s.producer ≠ .polling) (ready : s.consumer i = .ready) (some : s.availableReqs ≠ 0)
      (signal : (taken s i).signal signalled = Option.some s') :
      Stepped s (.consumerEnter i signalled) (.got s.ring.get.1) s'
  | responded {s : Server n} {i : Fin n} {req : Req} (handled : Res × Nat)
      (serving : s.consumer i = .serving (some req)) :
      Stepped s (.consumerRespond i handled)
        (.sent req.cliaddr (serve req handled).1 (serve req handled).2)
        { s with consumer := Function.update s.consumer i .ready }

theorem stepped_of_next (next : ServerNext s (a, o) s') : Stepped s a o s' := by
  simp only [ServerNext, Next] at next
  cases a with
  | send d =>
      cases next
      exact .send s d
  | wake t =>
      simp only [serverStep, Option.ite_none_right_eq_some, Option.some.injEq, Prod.mk.injEq] at next
      obtain ⟨waits, rfl, rfl⟩ := next
      exact .wake waits
  | producerEnter =>
      simp only [serverStep, producerEnter] at next
      split at next
      · rename_i ready
        by_cases full : s.availableReqs = ringSize
        · simp only [if_pos full] at next
          cases next
          exact .full ready full
        · simp only [if_neg full] at next
          cases next
          exact .polls ready full
      · cases next
  | producerReceive =>
      simp only [serverStep, producerReceive] at next
      split at next
      · rename_i polling none
        cases next
        exact .again polling none
      · rename_i d rest polling first
        by_cases empty : (srvRecvRequest d).reqsz = 0
        · rw [if_pos empty] at next
          cases next
          exact .dropped polling first empty
        · rw [if_neg empty] at next
          cases next
          exact .put polling first empty
      · cases next
  | consumerEnter i signalled =>
      simp only [serverStep, consumerEnter] at next
      split at next
      · cases next
      · rename_i ready free
        by_cases none : s.availableReqs = 0
        · rw [if_pos none] at next
          cases next
          exact .waits signalled free ready none
        · rw [if_neg none, Option.map_eq_some_iff] at next
          obtain ⟨after, signal, same⟩ := next
          cases same
          exact .got free ready none signal
      · cases next
  | consumerRespond i handled =>
      simp only [serverStep, consumerRespond] at next
      split at next
      · rename_i req serving
        cases next
        exact .responded handled serving
      · cases next

/-- Some threads that waited are ready, the others are where they were. -/
structure Woken (s s' : Server n) : Prop where
  socket : s'.socket = s.socket
  ring : s'.ring = s.ring
  availableReqs : s'.availableReqs = s.availableReqs
  producer : s'.producer = s.producer ∨ (s.producer = .waiting ∧ s'.producer = .ready)
  consumer : ∀ i, s'.consumer i = s.consumer i ∨
    (s.consumer i = .waiting ∧ s'.consumer i = .ready)

theorem Producer.wake_cases (pc : Producer) :
    pc.wake = pc ∨ (pc = .waiting ∧ pc.wake = .ready) := by
  cases pc <;> simp [wake]

theorem Consumer.wake_cases (pc : Consumer) :
    pc.wake = pc ∨ (pc = .waiting ∧ pc.wake = .ready) := by
  cases pc <;> simp [wake]

theorem woken_wake (s : Server n) (t : Thread n) : Woken s (s.wake t) := by
  cases t with
  | producer => exact ⟨rfl, rfl, rfl, s.producer.wake_cases, fun _ => .inl rfl⟩
  | consumer i =>
      refine ⟨rfl, rfl, rfl, .inl rfl, fun j => ?_⟩
      by_cases here : j = i
      · subst here
        simpa only [Server.wake, Function.update_self] using (s.consumer j).wake_cases
      · exact .inl (Function.update_of_ne here _ _)

theorem woken_signalall (s : Server n) : Woken s s.signalall :=
  ⟨rfl, rfl, rfl, s.producer.wake_cases, fun i => (s.consumer i).wake_cases⟩

theorem woken_signal {signalled : Option (Thread n)} (signal : s.signal signalled = some s') :
    Woken s s' := by
  cases signalled with
  | none =>
      simp only [Server.signal] at signal
      split at signal
      · cases signal
      · cases signal
        exact ⟨rfl, rfl, rfl, .inl rfl, fun _ => .inl rfl⟩
  | some t =>
      simp only [Server.signal, Option.ite_none_right_eq_some, Option.some.injEq] at signal
      rw [← signal.2]
      exact woken_wake s t

namespace Woken

private theorem producer_waiting (h : Woken s s') (waiting : s'.producer = .waiting) :
    s.producer = .waiting := by
  rcases h.producer with same | ⟨-, ready⟩
  · rwa [← same]
  · rw [ready] at waiting
    cases waiting

theorem producer_polling (h : Woken s s') (polling : s'.producer = .polling) :
    s.producer = .polling := by
  rcases h.producer with same | ⟨-, ready⟩
  · rwa [← same]
  · rw [ready] at polling
    cases polling

private theorem consumer_waiting (h : Woken s s') {i : Fin n} (waiting : s'.consumer i = .waiting) :
    s.consumer i = .waiting := by
  rcases h.consumer i with same | ⟨-, ready⟩
  · rwa [← same]
  · rw [ready] at waiting
    cases waiting

theorem serving (h : Woken s s') (i : Fin n) (req : Option Req) :
    s'.consumer i = .serving req ↔ s.consumer i = .serving req := by
  rcases h.consumer i with same | ⟨waiting, ready⟩
  · rw [same]
  · simp [waiting, ready]

end Woken

private theorem producer_signalled {signalled : Option (Thread n)}
    (signal : s.signal signalled = some s')
    (alone : ∀ i, s.consumer i ≠ .waiting) : s'.producer ≠ .waiting := by
  cases signalled with
  | none =>
      simp only [Server.signal] at signal
      split at signal
      · cases signal
      · rename_i nobody
        cases signal
        intro waiting
        exact nobody (.inl (by simp [Server.waits, waiting]))
  | some t =>
      simp only [Server.signal, Option.ite_none_right_eq_some, Option.some.injEq] at signal
      obtain ⟨waits, rfl⟩ := signal
      cases t with
      | producer =>
          simp only [Server.wake]
          cases s.producer <;> simp [Producer.wake]
      | consumer i =>
          have waiting : s.consumer i = .waiting := by
            simp only [Server.waits] at waits
            cases pc : s.consumer i <;> simp_all [Consumer.isWaiting]
          exact absurd waiting (alone i)

/-- The ring holds the queue, a consumer waits only if it is empty and the producer only if it is
full. -/
structure QueueInv (s : Server n) (queue : List Req) : Prop where
  ring : s.ring.Holds (queue.map some)
  count : s.availableReqs = queue.length
  room : s.producer = .polling → queue.length < ringSize
  consumerWaits : ∀ i, s.consumer i = .waiting → queue = []
  producerWaits : s.producer = .waiting → queue.length = ringSize
  serving : ∀ i, s.consumer i ≠ .serving none

theorem QueueInv.le (inv : QueueInv s queue) : queue.length ≤ ringSize := by
  have fits := inv.ring.fits
  rwa [List.length_map] at fits

theorem QueueInv.woken (inv : QueueInv s queue) (woken : Woken s s') : QueueInv s' queue :=
  ⟨woken.ring ▸ inv.ring, woken.availableReqs.trans inv.count,
    fun polling => inv.room (woken.producer_polling polling),
    fun i waiting => inv.consumerWaits i (woken.consumer_waiting waiting),
    fun waiting => inv.producerWaits (woken.producer_waiting waiting),
    fun i serving => inv.serving i ((woken.serving i none).mp serving)⟩

theorem queueInv_init (n : Nat) : QueueInv (serverInit n) [] :=
  ⟨.empty rfl, rfl, nofun, fun _ _ => rfl, nofun, nofun⟩

/-- A consumer found elsewhere than where one was put is another one. -/
theorem consumer_of_update {i j : Fin n} {pc pc' : Consumer}
    (there : Function.update s.consumer i pc j = pc') (ne : pc ≠ pc') : s.consumer j = pc' := by
  by_cases here : j = i
  · subst here
    rw [Function.update_self] at there
    exact absurd there ne
  · rwa [Function.update_of_ne here] at there

/-- What a step does to the queue. -/
def Moves (queue : List Req) (o : Output) (queue' : List Req) : Prop :=
  match o with
  | .put req => queue' = queue ++ [req]
  | .got ptr => ∃ req, ptr = some req ∧ queue = req :: queue'
  | _ => queue' = queue

theorem QueueInv.put {d : Datagram} {rest : List Datagram} (inv : QueueInv s queue)
    (polling : s.producer = .polling) :
    QueueInv (received s rest (srvRecvRequest d)).signalall (queue ++ [srvRecvRequest d]) := by
  have count := inv.count
  have room := inv.room polling
  have woken := woken_signalall (received s rest (srvRecvRequest d))
  refine ⟨?_, ?_, fun polling => ?_, fun i waiting => ?_, fun waiting => ?_, fun i serving => ?_⟩
  · rw [woken.ring, List.map_append]
    exact inv.ring.put (by rwa [List.length_map]) _
  · rw [woken.availableReqs, List.length_append, List.length_singleton]
    simp only [received]
    omega
  · cases woken.producer_polling polling
  · -- everybody has been woken
    simp only [Server.signalall] at waiting
    cases pc : (received s rest (srvRecvRequest d)).consumer i <;>
      simp [pc, Consumer.wake] at waiting
  · cases woken.producer_waiting waiting
  · exact inv.serving i ((woken.serving i none).mp serving)

theorem QueueInv.got {req : Req} {i : Fin n} {signalled : Option (Thread n)}
    (inv : QueueInv s (req :: queue)) (free : s.producer ≠ .polling)
    (signal : (taken s i).signal signalled = some s') :
    QueueInv s' queue ∧ s.ring.get.1 = some req := by
  have count := inv.count
  have woken := woken_signal signal
  obtain ⟨first, ring⟩ := inv.ring.get
  -- with a request in the ring no consumer waits, so the signal reaches the producer if it waits
  have alone (j : Fin n) : (taken s i).consumer j ≠ .waiting := fun waiting =>
    nomatch inv.consumerWaits j (consumer_of_update waiting (by simp))
  refine ⟨⟨?_, ?_, fun polling => ?_, fun j waiting => ?_, fun waiting => ?_, fun j serving => ?_⟩,
    first⟩
  · rw [woken.ring]
    exact ring
  · rw [woken.availableReqs]
    simp only [taken]
    rw [count, List.length_cons]
    omega
  · exact absurd (woken.producer_polling polling) free
  · exact absurd (woken.consumer_waiting waiting) (alone j)
  · exact absurd waiting (producer_signalled signal alone)
  · exact inv.serving j (consumer_of_update ((woken.serving j none).mp serving) (by simp [first]))

theorem QueueInv.step (inv : QueueInv s queue) (step : Stepped s a o s') :
    ∃ queue', QueueInv s' queue' ∧ Moves queue o queue' := by
  have le := inv.le
  have count := inv.count
  cases step with
  | send d =>
      exact ⟨queue, ⟨inv.ring, inv.count, inv.room, inv.consumerWaits, inv.producerWaits,
        inv.serving⟩, rfl⟩
  | wake waits => exact ⟨queue, inv.woken (woken_wake s _), rfl⟩
  | full ready full =>
      exact ⟨queue, ⟨inv.ring, inv.count, nofun, inv.consumerWaits, fun _ => by omega,
        inv.serving⟩, rfl⟩
  | polls ready room =>
      exact ⟨queue, ⟨inv.ring, inv.count, fun _ => by omega, inv.consumerWaits, nofun,
        inv.serving⟩, rfl⟩
  | again polling none => exact ⟨queue, inv, rfl⟩
  | dropped polling first empty =>
      exact ⟨queue, ⟨inv.ring, inv.count, nofun, inv.consumerWaits, nofun, inv.serving⟩, rfl⟩
  | put polling first nonempty => exact ⟨_, inv.put polling, rfl⟩
  | waits signalled free ready none =>
      have empty : queue = [] := List.length_eq_zero_iff.mp (by omega)
      exact ⟨queue, ⟨inv.ring, inv.count, inv.room, fun _ _ => empty, inv.producerWaits,
        fun j serving => inv.serving j (consumer_of_update serving (by simp))⟩, rfl⟩
  | got free ready some signal =>
      cases queue with
      | nil => exact absurd inv.count some
      | cons req queue' =>
          obtain ⟨inv', first⟩ := inv.got free signal
          exact ⟨queue', inv', req, first, rfl⟩
  | responded handled serving =>
      exact ⟨queue, ⟨inv.ring, inv.count, inv.room,
        fun j waiting => inv.consumerWaits j (consumer_of_update waiting (by simp)),
        inv.producerWaits,
        fun j serving => inv.serving j (consumer_of_update serving (by simp))⟩, rfl⟩

end Snfs
