import Snfs.Library.Filing
import Snfs.Library.Runs
import Mathlib.Algebra.Group.Nat.Defs
import Mathlib.Tactic.Simps.Basic

/-!
The user-level threads of `sthread_lib/sthread_user.c`. A thread is the number of
its allocation, the main thread being 0; threads are never freed while the process
lives, so in 32 bits of address space `tid_gen` stays far below its bound.
The queues are lists here: `Threads/Queue.lean` shows that those of `queue.c` are.

A call runs up to the point where it returns or gives up the processor. There the
caller's context is saved, which is the place in the code from which it goes on,
and another thread is resumed from its own. `sthread_schedule` chooses that
thread; `sleep`, `lock` and `wait` take the first of `exe_thr_list` instead.

A mutex or a monitor is in the state in which its `init` leaves it until it is
used, so all of them exist from the start. The routine of a thread is the calls it
makes. `int` and `long` have 32 bits.
-/

namespace Snfs.Threads

open Filing Runs

/-- `sthread_mutex_t`: one of its own, or the one inside a monitor. -/
inductive Mutex where
  | own (n : Nat)
  | mon (n : Nat)
  deriving DecidableEq

/-- The queues, by the variable or the field that points to them. -/
inductive Queue where
  | exeThrList
  | deadThrList
  | sleepThrList
  | joinThrList
  | zombieThrList
  | mutex (lock : Mutex)
  | monitor (mon : Nat)
  deriving DecidableEq

/-- `sthread_ctx_t`: where the thread goes on. -/
inductive Ctx where
  | blank
  | start
  | yield
  | exit
  | join (thread : Nat)
  | sleep
  | lock (lock : Mutex)
  | wait (mon : Nat)
  deriving DecidableEq

structure Thread where
  savedCtx : Ctx
  wakeTime : Int
  joinTid : Nat
  joinRet : Nat
  tid : Nat
  prioridadeBase : Int
  prioridadeAtual : Int
  quantum : Int
  nice : Int
  prioridadeFixa : Int

structure Sys where
  thread : Nat → Thread
  count : Nat
  queue : Queue → List Nat
  activeThr : Nat
  tidGen : Nat
  clock : Int
  activeRq : Nat → List Nat
  expiredRq : Nat → List Nat
  /-- The `thr` of a mutex. -/
  thr : Mutex → Option Nat

/-- What a call returns, and for `join` what it leaves in `*value_ptr`. -/
inductive Ret where
  | void
  | int (value : Int)
  | thread (value : Option Nat)
  | join (value : Int) (valuePtr : Option Nat)
  deriving DecidableEq

inductive Outcome where
  | returns (value : Ret) (s : Sys)
  /-- `active_thr = sthread_schedule()`, and the switch. -/
  | schedules (s : Sys) (ctx : Ctx)
  /-- `active_thr = queue_remove(exe_thr_list)`, and the switch. -/
  | takesFirst (s : Sys) (ctx : Ctx)
  /-- The process ends. -/
  | exits (status : Int)
  | undefined

def wrap (x : Int) : Int := x.bmod (2 ^ 32)

def quantumBase : Int := 5
def maxPrioridades : Nat := 15
def prioridadeFixa : Int := 4
def clockTick : Int := 100

namespace Sys

def active (s : Sys) : Thread := s.thread s.activeThr

@[simps] def setThread (s : Sys) (t : Nat) (th : Thread) : Sys :=
  { s with thread := Function.update s.thread t th }

@[simps] def queueInsert (s : Sys) (q : Queue) (t : Nat) : Sys := { s with queue := put s.queue q t }

/-- `while (!queue_is_empty(q)) { .. }`, which takes every thread off a queue, does `found` to
those that match and collects the others in `tmp_queue`; `flag` says that one has matched. -/
def drain (matching : Thread → Bool) (found : Nat → Sys → Sys) :
    (list tmpQueue : List Nat) → (flag : Bool) → Sys → List Nat × Bool × Sys
  | [], tmpQueue, flag, s => (tmpQueue, flag, s)
  | t :: list, tmpQueue, flag, s =>
    if matching (s.thread t) then drain matching found list tmpQueue true (found t s)
    else drain matching found list (tmpQueue ++ [t]) flag s

def drainQueue (s : Sys) (q : Queue) (matching : Thread → Bool) (found : Nat → Sys → Sys) :
    Bool × Sys :=
  let (tmpQueue, flag, s) := drain matching found (s.queue q) [] false s
  (flag, { s with queue := Function.update s.queue q tmpQueue })

end Sys

/-- `sthread_user_init`; `malloc` leaves the fields that are not set as it found them. -/
def sthreadUserInit (malloc : Thread) : Sys where
  thread _ := { malloc with savedCtx := .blank, wakeTime := 0, joinTid := 0, joinRet := 0, tid := 1 }
  count := 1
  queue _ := []
  activeThr := 0
  tidGen := 2
  clock := 1
  activeRq _ := []
  expiredRq _ := []
  thr _ := none

def insertInRunquee (rq : Nat → List Nat) (fila : Nat) (thread : Nat) : Nat → List Nat :=
  put rq fila thread

/-- `sthread_user_create`, where `malloc` says whether the allocation succeeds. -/
def sthreadUserCreate (s : Sys) (priority : Int) (malloc : Bool) : Outcome :=
  if priority < 0 ∨ priority ≥ maxPrioridades then .returns (.thread none) s
  else if malloc = false then .returns (.thread none) s
  else
    let thread := s.count
    let newThread : Thread := {
      savedCtx := .start
      wakeTime := 0
      joinTid := 0
      joinRet := 0
      tid := s.tidGen
      prioridadeBase := priority
      prioridadeAtual := priority
      nice := 0
      quantum := quantumBase
      prioridadeFixa := if priority ≤ prioridadeFixa then 1 else 0 }
    let s := { s.setThread thread newThread with
      count := s.count + 1
      tidGen := s.tidGen + 1
      activeRq := insertInRunquee s.activeRq priority.toNat thread }
    let s := { s.setThread thread { newThread with tid := s.tidGen } with tidGen := s.tidGen + 1 }
    .returns (.thread (some thread)) (s.queueInsert .exeThrList thread)

def setUserId (s : Sys) : Outcome := .returns (.int s.active.tid) s

def sthreadUserNice (s : Sys) (newNice : Int) : Outcome :=
  if newNice < 0 ∨ newNice > 10 then .returns (.int (-1)) s
  else if s.active.prioridadeFixa ≠ 0 then .returns (.int s.active.prioridadeAtual) s
  else
    let novaPrioridade := s.active.prioridadeBase + newNice
    let novaPrioridade := if novaPrioridade < 5 then 5 else novaPrioridade
    let novaPrioridade := if novaPrioridade > 14 then 14 else novaPrioridade
    .returns (.int novaPrioridade) (s.setThread s.activeThr { s.active with nice := newNice })

def sthreadUserYield (s : Sys) : Outcome :=
  .schedules (s.queueInsert .exeThrList s.activeThr) .yield

def wake (t : Nat) (s : Sys) : Sys :=
  (s.setThread t { s.thread t with wakeTime := 0 }).queueInsert .exeThrList t

/-- What `sthread_user_dispatcher` does before it yields. -/
def tick (s : Sys) : Sys :=
  let s := { s with clock := wrap (s.clock + 1) }
  (s.drainQueue .sleepThrList (fun th => th.wakeTime = s.clock) wake).2

def sthreadUserDispatcher (s : Sys) : Outcome := sthreadUserYield (tick s)

def release (ret : Nat) (t : Nat) (s : Sys) : Sys :=
  (s.setThread t { s.thread t with joinRet := ret }).queueInsert .exeThrList t

def sthreadUserExit (s : Sys) (ret : Nat) : Outcome :=
  let (notZombie, s) := s.drainQueue .joinThrList (fun th => th.joinTid = s.active.tid) (release ret)
  let s := s.queueInsert (if notZombie then .deadThrList else .zombieThrList) s.activeThr
  if s.queue .exeThrList = [] then .exits 0 else .schedules s .exit

/-- `sthread_user_join`; the pointer has to be that of a thread. -/
def sthreadUserJoin (s : Sys) (thread : Nat) : Outcome :=
  if s.count ≤ thread then .undefined
  else
    let tid := (s.thread thread).tid
    let (found, s) := s.drainQueue .zombieThrList (fun th => tid = th.tid)
      fun _ s => s.queueInsert .deadThrList thread
    if found then .returns (.join 0 (some (s.thread thread).joinRet)) s
    else if s.active.tid = tid ∨ (s.queue .exeThrList).any (fun t => (s.thread t).tid = tid) ∨
        (s.queue .sleepThrList).any (fun t => (s.thread t).tid = tid) ∨
        (s.queue .joinThrList).any (fun t => (s.thread t).tid = tid) then
      let s := s.setThread s.activeThr { s.active with joinTid := tid }
      .schedules (s.queueInsert .joinThrList s.activeThr) (.join thread)
    else .returns (.join (-1) none) s

/-- The ticks of a time: `10 * time / CLOCK_TICK` for the `int` that is handed over. The compiler
divides by `CLOCK_TICK / 10` and does not form the product, so that nothing overflows. -/
def numTicks (time : Int) : Int := (wrap time).tdiv (clockTick / 10)

def sthreadUserSleep (s : Sys) (time : Int) : Outcome :=
  if numTicks time = 0 then .returns (.int 0) s
  else
    let s := s.setThread s.activeThr { s.active with wakeTime := wrap (s.clock + numTicks time) }
    .takesFirst (s.queueInsert .sleepThrList s.activeThr) .sleep

def sthreadUserMutexLock (s : Sys) (lock : Mutex) : Outcome :=
  match s.thr lock with
  | none => .returns .void { s with thr := Function.update s.thr lock (some s.activeThr) }
  | some _ => .takesFirst (s.queueInsert (.mutex lock) s.activeThr) (.lock lock)

def sthreadUserMutexUnlock (s : Sys) (lock : Mutex) : Sys :=
  if s.thr lock ≠ some s.activeThr then s
  else
    match s.queue (.mutex lock) with
    | [] => { s with thr := Function.update s.thr lock none }
    | t :: _ => { s with
        thr := Function.update s.thr lock (some t)
        queue := put (withdraw s.queue (.mutex lock) t) .exeThrList t }

def sthreadUserMonitorEnter (s : Sys) (mon : Nat) : Outcome := sthreadUserMutexLock s (.mon mon)

def sthreadUserMonitorExit (s : Sys) (mon : Nat) : Sys := sthreadUserMutexUnlock s (.mon mon)

def sthreadUserMonitorWait (s : Sys) (mon : Nat) : Outcome :=
  if s.thr (.mon mon) ≠ some s.activeThr then .returns .void s
  else .takesFirst (sthreadUserMutexUnlock (s.queueInsert (.monitor mon) s.activeThr) (.mon mon))
    (.wait mon)

def sthreadUserMonitorSignal (s : Sys) (mon : Nat) : Sys :=
  if s.thr (.mon mon) ≠ some s.activeThr then s
  else
    match s.queue (.monitor mon) with
    | [] => s
    | t :: _ => { s with queue := put (withdraw s.queue (.monitor mon) t) (.mutex (.mon mon)) t }

inductive Schedule where
  | thread (t : Nat)
  | exits (status : Int)
  /-- The end of the function is reached without a `return`. -/
  | noValue (s : Sys)

def hasHead (rq : Nat → List Nat) : Bool := (List.range maxPrioridades).any fun i => !(rq i).isEmpty

/-- `sthread_user_schedule`: it takes the head of a queue, and then calls `exit(1)`. -/
def sthreadUserSchedule (s : Sys) : Schedule :=
  if hasHead s.activeRq then .exits 1
  else
    let s := { s with activeRq := s.expiredRq, expiredRq := s.activeRq }
    if hasHead s.activeRq then .exits 1 else .noValue s

/-- A scheduler resumes a thread that was put on `exe_thr_list`. -/
structure Scheduler where
  picks : Sys → Nat → Prop
  ready : ∀ {s t}, picks s t → t ∈ s.queue .exeThrList

/-- `sthread_user_schedule` has no `return`. -/
theorem sthreadUserSchedule_returns_no_thread (s : Sys) (t : Nat) :
    sthreadUserSchedule s ≠ .thread t := by
  unfold sthreadUserSchedule
  dsimp only
  split <;> [skip; split] <;> exact Schedule.noConfusion

def ownScheduler : Scheduler where
  picks s t := sthreadUserSchedule s = .thread t
  ready {s t} returned := absurd returned (sthreadUserSchedule_returns_no_thread s t)

def anyReady : Scheduler where
  picks s t := t ∈ s.queue .exeThrList
  ready := id

/-- A call with its arguments; for `create` also what `malloc` does in it. -/
inductive Op where
  | create (priority : Int) (malloc : Bool)
  | setUserId
  | nice (newNice : Int)
  | yield
  | dispatcher
  | exit (ret : Nat)
  | join (thread : Nat)
  | sleep (time : Int)
  | lock (lock : Mutex)
  | unlock (lock : Mutex)
  | enter (mon : Nat)
  | leave (mon : Nat)
  | wait (mon : Nat)
  | signal (mon : Nat)
  deriving DecidableEq

def call (s : Sys) : Op → Outcome
  | .create priority malloc => sthreadUserCreate s priority malloc
  | .setUserId => setUserId s
  | .nice newNice => sthreadUserNice s newNice
  | .yield => sthreadUserYield s
  | .dispatcher => sthreadUserDispatcher s
  | .exit ret => sthreadUserExit s ret
  | .join thread => sthreadUserJoin s thread
  | .sleep time => sthreadUserSleep s time
  | .lock lock => sthreadUserMutexLock s lock
  | .unlock lock => .returns .void (sthreadUserMutexUnlock s lock)
  | .enter mon => sthreadUserMonitorEnter s mon
  | .leave mon => .returns .void (sthreadUserMonitorExit s mon)
  | .wait mon => sthreadUserMonitorWait s mon
  | .signal mon => .returns .void (sthreadUserMonitorSignal s mon)

def Sys.save (s : Sys) (ctx : Ctx) : Sys :=
  s.setThread s.activeThr { s.active with savedCtx := ctx }

@[simps] def Sys.resume (s : Sys) (t : Nat) : Sys :=
  { s with activeThr := t, queue := withdraw s.queue .exeThrList t }

def Sys.resumed (s : Sys) (t : Nat) : Option Ret :=
  match (s.thread t).savedCtx with
  | .blank | .start => none
  | .yield | .exit | .lock _ | .wait _ => some .void
  | .sleep => some (.int 0)
  | .join thread => some (.join 0 (some (s.thread thread).joinRet))

/-- How a call that gives up the processor chooses the thread that gets it. -/
inductive Outcome.Switches (sched : Scheduler) : Outcome → Sys → Ctx → Nat → Prop where
  | schedules {s ctx t} : sched.picks s t → Switches sched (.schedules s ctx) s ctx t
  | takesFirst {s ctx t} : (s.queue .exeThrList).head? = some t →
      Switches sched (.takesFirst s ctx) s ctx t

/-- How a step ends: the call returns, or another thread goes on, which is told what its own
call returns. -/
inductive Ending where
  | returned (value : Ret)
  | switched (t : Nat) (value : Option Ret)
  deriving DecidableEq

structure Event where
  caller : Nat
  op : Op
  ending : Ending
  deriving DecidableEq

inductive Step (sched : Scheduler) : Sys → Event → Sys → Prop where
  | returned {s op value s'} : call s op = .returns value s' →
      Step sched s ⟨s.activeThr, op, .returned value⟩ s'
  | switched {s op u ctx t} : (call s op).Switches sched u ctx t →
      Step sched s ⟨s.activeThr, op, .switched t ((u.save ctx).resumed t)⟩ ((u.save ctx).resume t)

/-- A step that leaves a trace of the events and the states before them. -/
def Traced (sched : Scheduler) (s : Sys) (x : Sys × Event) (s' : Sys) : Prop :=
  x.1 = s ∧ Step sched s x.2 s'

def zeroThread : Thread := ⟨.blank, 0, 0, 0, 0, 0, 0, 0, 0, 0⟩

/-- A step under the scheduler that resumes any ready thread, which is `pick` where
`sthread_schedule` is called. -/
def next (s : Sys) (op : Op) (pick : Nat) : Option (Event × Sys) :=
  match call s op with
  | .returns value s' => some (⟨s.activeThr, op, .returned value⟩, s')
  | .schedules u ctx =>
    if pick ∈ u.queue .exeThrList then
      some (⟨s.activeThr, op, .switched pick ((u.save ctx).resumed pick)⟩, (u.save ctx).resume pick)
    else none
  | .takesFirst u ctx => ((u.queue .exeThrList).head?).map fun t =>
      (⟨s.activeThr, op, .switched t ((u.save ctx).resumed t)⟩, (u.save ctx).resume t)
  | .exits _ | .undefined => none

private theorem step_of_next {s s' : Sys} {op : Op} {pick : Nat} {e : Event}
    (step : next s op pick = some (e, s')) : Step anyReady s e s' := by
  unfold next at step
  cases done : call s op with
  | returns value s' =>
      rw [done] at step
      cases step
      exact .returned done
  | schedules u ctx =>
      rw [done] at step
      simp only [Option.ite_none_right_eq_some] at step
      obtain ⟨ready, same⟩ := step
      cases same
      exact .switched (by rw [done]; exact .schedules ready)
  | takesFirst u ctx =>
      rw [done] at step
      obtain ⟨t, head, same⟩ := Option.map_eq_some_iff.mp step
      cases same
      exact .switched (by rw [done]; exact .takesFirst head)
  | exits status | undefined =>
      rw [done] at step
      cases step

def replay (s : Sys) : List (Op × Nat) → Option (List (Sys × Event) × Sys)
  | [] => some ([], s)
  | (op, pick) :: rest =>
    match next s op pick with
    | none => none
    | some (e, s') => (replay s' rest).map fun r => ((s, e) :: r.1, r.2)

theorem run_of_replay {s s' : Sys} {calls : List (Op × Nat)} {trace : List (Sys × Event)}
    (replayed : replay s calls = some (trace, s')) : Run (Traced anyReady) s trace s' := by
  induction calls generalizing s trace with
  | nil =>
      cases replayed
      exact .nil
  | cons c rest ih =>
      obtain ⟨op, pick⟩ := c
      simp only [replay] at replayed
      split at replayed
      · cases replayed
      · rename_i e s₁ step
        obtain ⟨⟨trace', s₂⟩, rest', same⟩ := Option.map_eq_some_iff.mp replayed
        cases same
        have first : Run (Traced anyReady) s [(s, e)] s₁ := Run.nil.snoc ⟨rfl, step_of_next step⟩
        exact first.append (ih rest')

end Snfs.Threads
