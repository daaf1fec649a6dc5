import Snfs.Library.Buffer
import Snfs.Library.Ring
import Snfs.Library.Runs

/-!
The threads of `snfs_server/server.c`: one `thread_producer` that takes
datagrams from the socket and puts them in the ring, and `n` threads
`thread_consumer` that take them out, serve them and answer. They share one
monitor with one condition.

A step is what a thread does between two points at which another thread may
run: from entering the monitor, or from being woken in it, to the next wait or
to leaving it. The producer polls the socket inside the monitor, so its entering
and its receiving are two steps, and no consumer enters in between. A consumer
serves its request outside the monitor; what the handlers do there to the file
system is no part of this model, so a handler may give any response. An error of
`recvfrom` or of `sendto` ends the process: there is no step.
-/

namespace Snfs

open Rings Runs

abbrev ringSize : Nat := 10

instance : NeZero ringSize := ⟨by decide⟩

abbrev msgReqSize : Nat := 1044

abbrev msgResBodySize : Nat := 1540

abbrev msgResHeadSize : Nat := 12

/-- The path in a `struct sockaddr_un`. -/
abbrev SockAddr : Type := List UInt8

inductive SnfsMsgType where
  | null
  | ping
  | lookup
  | read
  | write
  | create
  | mkdir
  | readdir
  | copy
deriving DecidableEq, Repr

def SnfsMsgType.code : SnfsMsgType → Nat
  | .null => 0
  | .ping => 1
  | .lookup => 2
  | .read => 3
  | .write => 4
  | .create => 5
  | .mkdir => 6
  | .readdir => 7
  | .copy => 8

/-- The request types that the table `Service` has handlers for. -/
def service : List SnfsMsgType :=
  [.ping, .lookup, .read, .write, .create, .mkdir, .readdir, .copy]

def resUnknown : Int := -2

structure Datagram where
  sender : SockAddr
  bytes : List UInt8

structure Req where
  req : Buf msgReqSize
  reqsz : Nat
  cliaddr : SockAddr

def msgWord (msg : Buf msgReqSize) (pos : Nat) : Nat :=
  (msg.get pos).toNat + 256 * (msg.get (pos + 1)).toNat + 256 ^ 2 * (msg.get (pos + 2)).toNat +
    256 ^ 3 * (msg.get (pos + 3)).toNat

def Req.type (r : Req) : Nat := msgWord r.req 0

def Req.sn (r : Req) : Nat := msgWord r.req 4

structure Res where
  type : Nat
  sn : Nat
  status : Int
  body : Buf msgResBodySize

/-- `srv_recv_request` into a cleared descriptor. What does not fit the request is lost. -/
def srvRecvRequest (d : Datagram) : Req :=
  { req := Buf.splice .zero 0 d.bytes
    reqsz := min d.bytes.length msgReqSize
    cliaddr := d.sender }

/-- The response to a request and its size: `handled` is what the handler found for the request
has given. -/
def serve (r : Req) (handled : Res × Nat) : Res × Nat :=
  let answer : Res × Nat :=
    match service.find? fun type => type.code == r.type with
    | none => (⟨0, 0, resUnknown, .zero⟩, msgResHeadSize)
    | some _ => handled
  ({ answer.1 with sn := r.sn }, answer.2)

/-- A thread that has been woken is ready again: it takes the monitor like one that enters it and
checks the same condition. -/
inductive Producer where
  | ready
  | waiting
  | polling
deriving DecidableEq

/-- While it serves, a consumer holds the pointer `req_d`. -/
inductive Consumer where
  | ready
  | waiting
  | serving (req : Option Req)

inductive Thread (n : Nat) where
  | producer
  | consumer (i : Fin n)

/-- `ring` holds pointers, null at first, with the positions of `get_req` and `put_req`. -/
structure Server (n : Nat) where
  socket : List Datagram
  ring : Ring ringSize (Option Req)
  availableReqs : Int
  producer : Producer
  consumer : Fin n → Consumer

def serverInit (n : Nat) : Server n :=
  { socket := []
    ring := ⟨fun _ => none, 0, 0⟩
    availableReqs := 0
    producer := .ready
    consumer := fun _ => .ready }

def Producer.wake : Producer → Producer
  | .waiting => .ready
  | pc => pc

def Consumer.wake : Consumer → Consumer
  | .waiting => .ready
  | pc => pc

def Consumer.isWaiting : Consumer → Bool
  | .waiting => true
  | _ => false

namespace Server

variable {n : Nat}

def waits (s : Server n) : Thread n → Bool
  | .producer => s.producer == .waiting
  | .consumer i => (s.consumer i).isWaiting

def wake (s : Server n) : Thread n → Server n
  | .producer => { s with producer := s.producer.wake }
  | .consumer i => { s with consumer := Function.update s.consumer i (s.consumer i).wake }

def signal (s : Server n) : Option (Thread n) → Option (Server n)
  | some t => if s.waits t then some (s.wake t) else none
  | none => if s.waits .producer ∨ ∃ i, s.waits (.consumer i) then none else some s

def signalall (s : Server n) : Server n :=
  { s with producer := s.producer.wake, consumer := fun i => (s.consumer i).wake }

end Server

/-- The choices of the scheduler: a client sends a datagram, a thread wakes spuriously, a thread
runs. The signal of a consumer may wake any thread that waits. -/
inductive Action (n : Nat) where
  | send (d : Datagram)
  | wake (t : Thread n)
  | producerEnter
  | producerReceive
  | consumerEnter (i : Fin n) (signalled : Option (Thread n))
  | consumerRespond (i : Fin n) (handled : Res × Nat)

inductive Output where
  | none
  | put (req : Req)
  | got (req : Option Req)
  | sent (cliaddr : SockAddr) (res : Res) (ressz : Nat)

variable {n : Nat}

def producerEnter (s : Server n) : Option (Output × Server n) :=
  match s.producer with
  | .ready =>
      some (.none,
        { s with producer := if s.availableReqs = ringSize then .waiting else .polling })
  | _ => none

/-- `thread_producer` in `my_recvfrom` and after it. Without a datagram it polls again; an empty
one is dropped. -/
def producerReceive (s : Server n) : Option (Output × Server n) :=
  match s.producer, s.socket with
  | .polling, [] => some (.none, s)
  | .polling, d :: rest =>
    let s := { s with socket := rest, producer := .ready }
    let req := srvRecvRequest d
    if req.reqsz = 0 then some (.none, s)
    else
      let s := { s with ring := s.ring.put (some req), availableReqs := s.availableReqs + 1 }
      some (.put req, s.signalall)
  | _, _ => none

def consumerEnter (s : Server n) (i : Fin n) (signalled : Option (Thread n)) :
    Option (Output × Server n) :=
  match s.producer, s.consumer i with
  | .polling, _ => none
  | _, .ready =>
    if s.availableReqs = 0 then
      some (.none, { s with consumer := Function.update s.consumer i .waiting })
    else
      let (req, ring) := s.ring.get
      let s := { s with
        ring := ring
        availableReqs := s.availableReqs - 1
        consumer := Function.update s.consumer i (.serving req) }
      (s.signal signalled).map fun s => (.got req, s)
  | _, _ => none

/-- `thread_consumer` serves the request, answers and frees it. A null pointer would end the
process. -/
def consumerRespond (s : Server n) (i : Fin n) (handled : Res × Nat) :
    Option (Output × Server n) :=
  match s.consumer i with
  | .serving (some req) =>
    let (res, ressz) := serve req handled
    some (.sent req.cliaddr res ressz,
      { s with consumer := Function.update s.consumer i .ready })
  | _ => none

def serverStep (s : Server n) : Action n → Option (Output × Server n)
  | .send d => some (.none, { s with socket := s.socket ++ [d] })
  | .wake t => if s.waits t then some (.none, s.wake t) else none
  | .producerEnter => producerEnter s
  | .producerReceive => producerReceive s
  | .consumerEnter i signalled => consumerEnter s i signalled
  | .consumerRespond i handled => consumerRespond s i handled

def ServerNext : Server n → Action n × Output → Server n → Prop := Next serverStep

def ServerRun (n : Nat) : List (Action n × Output) → Server n → Prop :=
  Run ServerNext (serverInit n)

theorem run_of_steps {s s' : Server n} {actions : List (Action n)}
    {trace : List (Action n × Output)}
    (executed : execute serverStep s actions = some (trace, s')) : Run ServerNext s trace s' := by
  have run := run_of_execute executed (meets_of_forall (fun _ _ => trivial) s)
  exact run.mono fun _ _ _ next => next.2

end Snfs
