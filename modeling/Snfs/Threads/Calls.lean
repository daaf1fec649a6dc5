import Snfs.Threads.State

/-!
What the calls do to the state. The loops that rebuild a queue are stated by the
state they leave, and every call by the cases it has: `Returns` for a call that
returns, `GivesUp` for one that gives up the processor. Later modules go through
these cases and unfold no call.
-/

namespace Snfs.Threads

open Filing Runs

variable {s s' u : Sys} {sched : Scheduler} {i t : Nat} {q : Queue}

/-- What the calls rely on: queues without repetition, and a `tid` for each thread. -/
structure Tidy (s : Sys) : Prop where
  nodup : ∀ q, (s.queue q).Nodup
  known : ∀ {q i}, i ∈ s.queue q → i < s.count
  active : s.activeThr < s.count
  tid : ∀ i, i < s.count → (s.thread i).tid = 2 * i + 1

/-- The threads that match are marked and put on another queue, in their order. -/
theorem drain_eq {matching : Thread → Bool} {found : Nat → Sys → Sys} {mark : Thread → Thread}
    {into : Queue} {p : Nat → Bool} {list : List Nat} (nodup : list.Nodup) (tmpQueue : List Nat)
    (flag : Bool) (s : Sys) (tests : ∀ t ∈ list, matching (s.thread t) = p t)
    (moves : ∀ t ∈ list, p t = true →
      ∀ u : Sys, found t u = (u.setThread t (mark (u.thread t))).queueInsert into t) :
    Sys.drain matching found list tmpQueue flag s =
      (tmpQueue ++ list.filter (!p ·), flag || list.any p,
        { s with
          thread := fun i => if i ∈ list ∧ p i = true then mark (s.thread i) else s.thread i
          queue := Function.update s.queue into (s.queue into ++ list.filter p) }) := by
  induction list generalizing tmpQueue flag s with
  | nil => simp [Sys.drain]
  | cons t list ih =>
      obtain ⟨new, nodup⟩ := List.nodup_cons.mp nodup
      have moves' : ∀ t ∈ list, _ := fun t' inside => moves t' (List.mem_cons_of_mem t inside)
      have test := tests t List.mem_cons_self
      cases matched : p t with
      | false =>
          rw [Sys.drain, if_neg (by simp [test, matched]),
            ih nodup _ _ s (fun t' inside => tests t' (List.mem_cons_of_mem t inside)) moves']
          have others (i : Nat) : (i ∈ t :: list ∧ p i = true) ↔ i ∈ list ∧ p i = true := by
            rw [List.mem_cons, or_and_right, or_iff_right]
            rintro ⟨rfl, also⟩
            exact Bool.noConfusion (matched.symm.trans also)
          simp only [others]
          simp [matched]
      | true =>
          have first := moves t List.mem_cons_self matched s
          have same : ∀ t' ∈ list, (found t s).thread t' = s.thread t' := by
            intro t' inside
            have apart : t' ≠ t := fun equal => new (equal ▸ inside)
            rw [first]
            exact Function.update_of_ne apart _ _
          rw [Sys.drain, if_pos (test.trans matched), ih nodup _ _ (found t s)
            (fun t' inside => (congrArg matching (same t' inside)).trans
              (tests t' (List.mem_cons_of_mem t inside))) moves']
          have threads (i : Nat) :
              (if i ∈ list ∧ p i = true then mark ((found t s).thread i) else (found t s).thread i) =
                if i ∈ t :: list ∧ p i = true then mark (s.thread i) else s.thread i := by
            rw [first]
            by_cases self : i = t
            · subst self
              simp [new, matched, Sys.setThread, Sys.queueInsert]
            · simp [self, Sys.setThread, Sys.queueInsert]
          simp only [threads]
          rw [first]
          simp [matched, Sys.setThread, Sys.queueInsert, put]

def Thread.awake (th : Thread) : Thread := { th with wakeTime := 0 }

def Thread.released (ret : Nat) (th : Thread) : Thread := { th with joinRet := ret }

@[simps] def Sys.poured (s : Sys) (q into : Queue) (p : Nat → Bool) (mark : Thread → Thread) :
    Sys :=
  { s with
    thread := fun i => if i ∈ s.queue q ∧ p i = true then mark (s.thread i) else s.thread i
    queue := pour s.queue q into p }

theorem Sys.poured_field {α : Type} (f : Thread → α) (mark : Thread → Thread)
    (keeps : ∀ th, f (mark th) = f th) (s : Sys) (q into : Queue) (p : Nat → Bool) (i : Nat) :
    f ((s.poured q into p mark).thread i) = f (s.thread i) := by
  rw [Sys.poured_thread]
  split
  · exact keeps _
  · rfl

theorem drainQueue_eq {matching : Thread → Bool} {found : Nat → Sys → Sys}
    {mark : Thread → Thread} {into : Queue} {p : Nat → Bool} (nodup : (s.queue q).Nodup)
    (apart : q ≠ into) (tests : ∀ t ∈ s.queue q, matching (s.thread t) = p t)
    (moves : ∀ t ∈ s.queue q, p t = true →
      ∀ u : Sys, found t u = (u.setThread t (mark (u.thread t))).queueInsert into t) :
    s.drainQueue q matching found = ((s.queue q).any p, s.poured q into p mark) := by
  rw [Sys.drainQueue, drain_eq nodup [] false s tests moves]
  simp only [Bool.false_or, List.nil_append, Sys.poured, pour]
  rw [Function.update_comm apart.symm]

@[simps] def Sys.created (s : Sys) (priority : Int) : Sys :=
  { s with
    thread := Function.update s.thread s.count {
      savedCtx := .start
      wakeTime := 0
      joinTid := 0
      joinRet := 0
      tid := s.tidGen + 1
      prioridadeBase := priority
      prioridadeAtual := priority
      nice := 0
      quantum := quantumBase
      prioridadeFixa := if priority ≤ prioridadeFixa then 1 else 0 }
    count := s.count + 1
    tidGen := s.tidGen + 2
    queue := put s.queue .exeThrList s.count
    activeRq := put s.activeRq priority.toNat s.count }

theorem sthreadUserCreate_eq (s : Sys) (priority : Int) (malloc : Bool) :
    sthreadUserCreate s priority malloc =
      if priority < 0 ∨ priority ≥ maxPrioridades ∨ malloc = false then .returns (.thread none) s
      else .returns (.thread (some s.count)) (s.created priority) := by
  unfold sthreadUserCreate
  by_cases bad : priority < 0 ∨ priority ≥ maxPrioridades
  · rw [if_pos bad, if_pos (bad.imp_right Or.inl)]
  · rw [if_neg bad]
    by_cases failed : malloc = false
    · rw [if_pos failed, if_pos (Or.inr (Or.inr failed))]
    · have good : ¬ (priority < 0 ∨ priority ≥ maxPrioridades ∨ malloc = false) := by
        rintro (low | high | none)
        · exact bad (Or.inl low)
        · exact bad (Or.inr high)
        · exact failed none
      rw [if_neg failed, if_neg good]
      simp [Sys.setThread, Sys.queueInsert, Sys.created, insertInRunquee]

abbrev Sys.ticked (s : Sys) : Sys := { s with clock := wrap (s.clock + 1) }

theorem tick_eq (h : Tidy s) :
    tick s = s.ticked.poured .sleepThrList .exeThrList
      (fun i => (s.thread i).wakeTime = s.ticked.clock) Thread.awake := by
  have loop : s.ticked.drainQueue .sleepThrList (fun th => th.wakeTime = s.ticked.clock) wake =
      (_, s.ticked.poured .sleepThrList .exeThrList
        (fun i => (s.thread i).wakeTime = s.ticked.clock) Thread.awake) :=
    drainQueue_eq (h.nodup _) (by decide) (fun _ _ => rfl) fun _ _ _ _ => rfl
  exact congrArg Prod.snd loop

/-- The state after the loop of `exit`, with the caller among the dead or the zombies. -/
def Sys.exited (s : Sys) (ret : Nat) : Sys :=
  (s.poured .joinThrList .exeThrList (fun i => (s.thread i).joinTid = s.active.tid)
    (Thread.released ret)).queueInsert
      (if (s.queue .joinThrList).any (fun i => (s.thread i).joinTid = s.active.tid) then
        .deadThrList else .zombieThrList) s.activeThr

private theorem sthreadUserExit_eq (h : Tidy s) (ret : Nat) :
    sthreadUserExit s ret =
      if (s.exited ret).queue .exeThrList = [] then .exits 0
      else .schedules (s.exited ret) .exit := by
  have loop : s.drainQueue .joinThrList (fun th => th.joinTid = s.active.tid) (release ret) =
      (_, s.poured .joinThrList .exeThrList (fun i => (s.thread i).joinTid = s.active.tid)
        (Thread.released ret)) :=
    drainQueue_eq (h.nodup _) (by decide) (fun _ _ => rfl) fun _ _ _ _ => rfl
  rw [sthreadUserExit, loop]
  rfl

theorem activeThr_tick (h : Tidy s) : (tick s).activeThr = s.activeThr := by
  rw [tick_eq h]
  rfl

theorem Tidy.any_tid (h : Tidy s) {target : Nat} (known : target < s.count) :
    (s.queue q).any (fun i => (s.thread i).tid = (s.thread target).tid) = true ↔
      target ∈ s.queue q := by
  rw [List.any_eq_true]
  constructor
  · rintro ⟨i, inside, same⟩
    have tids := of_decide_eq_true same
    rw [h.tid i (h.known inside), h.tid target known] at tids
    obtain rfl : i = target := by omega
    exact inside
  · exact fun inside => ⟨target, inside, decide_eq_true rfl⟩

/-- The threads in which `join` looks for its target. -/
def Sys.Findable (s : Sys) (t : Nat) : Prop :=
  t = s.activeThr ∨ t ∈ s.queue .exeThrList ∨ t ∈ s.queue .sleepThrList ∨ t ∈ s.queue .joinThrList

instance (s : Sys) (t : Nat) : Decidable (s.Findable t) :=
  inferInstanceAs (Decidable (_ ∨ _ ∨ _ ∨ _))

private theorem sthreadUserJoin_eq (h : Tidy s) (target : Nat) :
    sthreadUserJoin s target =
      if s.count ≤ target then .undefined
      else if target ∈ s.queue .zombieThrList then
        .returns (.join 0 (some (s.thread target).joinRet))
          (s.poured .zombieThrList .deadThrList (· == target) id)
      else if s.Findable target then
        .schedules ((s.setThread s.activeThr
          { s.active with joinTid := (s.thread target).tid }).queueInsert .joinThrList s.activeThr)
          (.join target)
      else .returns (.join (-1) none) s := by
  by_cases unknown : s.count ≤ target
  · rw [if_pos unknown, sthreadUserJoin, if_pos unknown]
  have known : target < s.count := Nat.lt_of_not_le unknown
  have same {i : Nat} (low : i < s.count) :
      (s.thread i).tid = (s.thread target).tid ↔ i = target := by
    rw [h.tid i low, h.tid target known]
    omega
  have loop : s.drainQueue .zombieThrList (fun th => (s.thread target).tid = th.tid)
      (fun _ s => s.queueInsert .deadThrList target) =
      ((s.queue .zombieThrList).any (· == target),
        s.poured .zombieThrList .deadThrList (· == target) id) := by
    refine drainQueue_eq (h.nodup _) (by decide) (fun i inside => ?_) fun i inside matched u => ?_
    · rw [Bool.eq_iff_iff, decide_eq_true_iff, beq_iff_eq, eq_comm]
      exact same (h.known inside)
    · obtain rfl : i = target := eq_of_beq matched
      simp [Sys.setThread]
  rw [if_neg unknown, sthreadUserJoin, if_neg unknown]
  dsimp only
  rw [loop]
  by_cases zombie : target ∈ s.queue .zombieThrList
  · simp [zombie]
  · have untouched : s.poured .zombieThrList .deadThrList (· == target) id = s := by
      have none : (s.queue .zombieThrList).filter (· == target) = [] :=
        List.filter_eq_nil_iff.mpr fun i inside matched => zombie (eq_of_beq matched ▸ inside)
      have all : (s.queue .zombieThrList).filter (!· == target) = s.queue .zombieThrList :=
        List.filter_eq_self.mpr fun i inside => by
          have apart : i ≠ target := fun equal => zombie (equal ▸ inside)
          simpa using apart
      simp only [Sys.poured, pour, none, all, List.append_nil, Function.update_eq_self, id,
        ite_self]
    have missing : (s.queue .zombieThrList).any (· == target) = false :=
      List.any_eq_false.mpr fun i inside matched => zombie (eq_of_beq matched ▸ inside)
    have active : s.active.tid = (s.thread target).tid ↔ target = s.activeThr :=
      (same (h.active)).trans eq_comm
    rw [untouched, missing, if_neg zombie, if_neg Bool.false_ne_true]
    by_cases found : s.Findable target
    · rw [if_pos found, if_pos (by rwa [h.any_tid known, h.any_tid known, h.any_tid known, active])]
      rfl
    · rw [if_neg found, if_neg (by rwa [h.any_tid known, h.any_tid known, h.any_tid known, active])]

structure SameThreads (s s' : Sys) : Prop where
  thread : s'.thread = s.thread
  count : s'.count = s.count
  activeThr : s'.activeThr = s.activeThr
  clock : s'.clock = s.clock
  activeRq : s'.activeRq = s.activeRq
  expiredRq : s'.expiredRq = s.expiredRq

theorem sameThreads_unlock (s : Sys) (lock : Mutex) :
    SameThreads s (sthreadUserMutexUnlock s lock) := by
  unfold sthreadUserMutexUnlock
  split
  · exact ⟨rfl, rfl, rfl, rfl, rfl, rfl⟩
  · split <;> exact ⟨rfl, rfl, rfl, rfl, rfl, rfl⟩

theorem sameThreads_signal (s : Sys) (mon : Nat) :
    SameThreads s (sthreadUserMonitorSignal s mon) := by
  unfold sthreadUserMonitorSignal
  split
  · exact ⟨rfl, rfl, rfl, rfl, rfl, rfl⟩
  · split <;> exact ⟨rfl, rfl, rfl, rfl, rfl, rfl⟩

/-- The lists of threads that only `sleep`, `join`, `exit` and a tick touch. -/
def Queue.Listed : Queue → Prop
  | .sleepThrList | .joinThrList | .zombieThrList | .deadThrList => True
  | _ => False

theorem queue_unlock (s : Sys) {lock : Mutex} (listed : q.Listed) :
    (sthreadUserMutexUnlock s lock).queue q = s.queue q := by
  have mutex : q ≠ .mutex lock := fun same => by simp [same, Queue.Listed] at listed
  have exe : q ≠ .exeThrList := fun same => by simp [same, Queue.Listed] at listed
  unfold sthreadUserMutexUnlock
  split
  · rfl
  · split
    · rfl
    · simp [put, withdraw, mutex, exe]

theorem queue_signal (s : Sys) {mon : Nat} (listed : q.Listed) :
    (sthreadUserMonitorSignal s mon).queue q = s.queue q := by
  have monitor : q ≠ .monitor mon := fun same => by simp [same, Queue.Listed] at listed
  have mutex : q ≠ .mutex (.mon mon) := fun same => by simp [same, Queue.Listed] at listed
  unfold sthreadUserMonitorSignal
  split
  · rfl
  · split
    · rfl
    · simp [put, withdraw, mutex, monitor]

theorem savedCtx_save (s : Sys) (ctx : Ctx) :
    ((s.save ctx).thread s.activeThr).savedCtx = ctx := by
  simp [Sys.save]

theorem Sys.save_field {α : Type} (f : Thread → α) {ctx : Ctx}
    (keeps : ∀ th : Thread, f { th with savedCtx := ctx } = f th) (s : Sys) (i : Nat) :
    f ((s.save ctx).thread i) = f (s.thread i) := by
  by_cases self : i = s.activeThr
  · subst self
    simp only [Sys.save, Sys.setThread_thread, Function.update_self]
    exact keeps _
  · simp [Sys.save, self]

theorem Sys.exited_field {α : Type} (f : Thread → α) {ret : Nat}
    (keeps : ∀ th : Thread, f (th.released ret) = f th) (s : Sys) (i : Nat) :
    f ((s.exited ret).thread i) = f (s.thread i) := by
  unfold Sys.exited
  rw [Sys.queueInsert_thread, Sys.poured_field f _ keeps]

theorem save_unlock (s : Sys) (lock : Mutex) (ctx : Ctx) :
    (sthreadUserMutexUnlock s lock).save ctx = sthreadUserMutexUnlock (s.save ctx) lock := by
  by_cases owner : s.thr lock = some s.activeThr
  · cases waiting : s.queue (.mutex lock) <;>
      simp [sthreadUserMutexUnlock, Sys.save, Sys.setThread, Sys.active, owner, waiting]
  · simp [sthreadUserMutexUnlock, Sys.save, owner]

def Op.locks : Op → Option Mutex
  | .lock m => some m
  | .enter mon => some (.mon mon)
  | _ => none

def Op.unlocks : Op → Option Mutex
  | .unlock m => some m
  | .leave mon => some (.mon mon)
  | _ => none

/-- The calls that may return without having done anything. -/
def Op.Idle : Op → Prop
  | .create _ _ | .setUserId | .nice _ | .wait _ => True
  | .sleep time => numTicks time = 0
  | _ => False

inductive Returns (s : Sys) : Op → Ret → Sys → Prop where
  | idle {op value} : op.Idle → (∀ t, value ≠ .thread (some t)) → Returns s op value s
  | created {priority : Int} {malloc : Bool} :
      ¬ (priority < 0 ∨ priority ≥ maxPrioridades ∨ malloc = false) →
      Returns s (.create priority malloc) (.thread (some s.count)) (s.created priority)
  | nice {newNice priority} : Returns s (.nice newNice) (.int priority)
      (s.setThread s.activeThr { s.active with nice := newNice })
  | joined {target} : target ∈ s.queue .zombieThrList →
      Returns s (.join target) (.join 0 (some (s.thread target).joinRet))
        (s.poured .zombieThrList .deadThrList (· == target) id)
  | notFound {target} : target < s.count → target ∉ s.queue .zombieThrList → ¬ s.Findable target →
      Returns s (.join target) (.join (-1) none) s
  | owns {op lock} : op.locks = some lock → s.thr lock = none →
      Returns s op .void { s with thr := Function.update s.thr lock (some s.activeThr) }
  | unlocks {op lock} : op.unlocks = some lock →
      Returns s op .void (sthreadUserMutexUnlock s lock)
  | signals {mon} : Returns s (.signal mon) .void (sthreadUserMonitorSignal s mon)

inductive GivesUp (s : Sys) : Op → Sys → Ctx → Prop where
  | yields : GivesUp s .yield (s.queueInsert .exeThrList s.activeThr) .yield
  | ticks : GivesUp s .dispatcher ((tick s).queueInsert .exeThrList s.activeThr) .yield
  | exits {ret} : GivesUp s (.exit ret) (s.exited ret) .exit
  | joins {target} : target < s.count → target ∉ s.queue .zombieThrList → s.Findable target →
      GivesUp s (.join target) ((s.setThread s.activeThr
        { s.active with joinTid := (s.thread target).tid }).queueInsert .joinThrList s.activeThr)
        (.join target)
  | sleeps {time} : numTicks time ≠ 0 → GivesUp s (.sleep time) ((s.setThread s.activeThr
      { s.active with wakeTime := wrap (s.clock + numTicks time) }).queueInsert .sleepThrList
        s.activeThr) .sleep
  | blocks {op lock} : op.locks = some lock → s.thr lock ≠ none →
      GivesUp s op (s.queueInsert (.mutex lock) s.activeThr) (.lock lock)
  | waits {mon} : s.thr (.mon mon) = some s.activeThr → GivesUp s (.wait mon)
      (sthreadUserMutexUnlock (s.queueInsert (.monitor mon) s.activeThr) (.mon mon)) (.wait mon)

theorem Returns.of_call (h : Tidy s) {op : Op} {value : Ret}
    (returned : call s op = .returns value s') : Returns s op value s' := by
  cases op with
  | create priority malloc =>
      rw [call, sthreadUserCreate_eq] at returned
      split at returned <;> cases returned
      · exact .idle trivial nofun
      · rename_i good
        exact .created good
  | setUserId =>
      cases returned
      exact .idle trivial nofun
  | nice newNice =>
      rw [call, sthreadUserNice] at returned
      split at returned
      · cases returned
        exact .idle trivial nofun
      · split at returned <;> cases returned
        · exact .idle trivial nofun
        · exact .nice
  | yield | dispatcher => cases returned
  | exit ret =>
      rw [call, sthreadUserExit_eq h] at returned
      split at returned <;> cases returned
  | join target =>
      rw [call, sthreadUserJoin_eq h] at returned
      split at returned
      · cases returned
      · rename_i known
        split at returned
        · cases returned
          rename_i zombie
          exact .joined zombie
        · rename_i zombie
          split at returned <;> cases returned
          rename_i found
          exact .notFound (Nat.lt_of_not_le known) zombie found
  | sleep time =>
      rw [call, sthreadUserSleep] at returned
      split at returned <;> cases returned
      rename_i none
      exact .idle none nofun
  | lock lock | enter lock =>
      simp only [call, sthreadUserMonitorEnter, sthreadUserMutexLock] at returned
      split at returned <;> cases returned
      rename_i free
      exact .owns rfl free
  | unlock lock | leave lock =>
      cases returned
      exact .unlocks rfl
  | wait mon =>
      rw [call, sthreadUserMonitorWait] at returned
      split at returned <;> cases returned
      exact .idle trivial nofun
  | signal mon =>
      cases returned
      exact .signals

/-- The state in which a call gives up the processor, and the context that is saved. -/
def Outcome.away : Outcome → Option (Sys × Ctx)
  | .schedules u ctx | .takesFirst u ctx => some (u, ctx)
  | .returns _ _ | .exits _ | .undefined => none

theorem Outcome.Switches.away {o : Outcome} {ctx : Ctx} (h : o.Switches sched u ctx t) :
    o.away = some (u, ctx) ∧ t ∈ u.queue .exeThrList := by
  cases h with
  | schedules picked => exact ⟨rfl, sched.ready picked⟩
  | takesFirst head => exact ⟨rfl, List.mem_of_mem_head? head⟩

theorem GivesUp.of_call (h : Tidy s) {op : Op} {ctx : Ctx}
    (away : (call s op).away = some (u, ctx)) : GivesUp s op u ctx := by
  cases op with
  | create priority malloc =>
      rw [call, sthreadUserCreate_eq] at away
      split at away <;> cases away
  | setUserId | unlock _ | leave _ | signal _ => cases away
  | nice newNice =>
      rw [call, sthreadUserNice] at away
      split at away
      · cases away
      · split at away <;> cases away
  | yield =>
      cases away
      exact .yields
  | dispatcher =>
      cases away
      rw [activeThr_tick h]
      exact .ticks
  | exit ret =>
      rw [call, sthreadUserExit_eq h] at away
      split at away <;> cases away
      exact .exits
  | join target =>
      rw [call, sthreadUserJoin_eq h] at away
      split at away
      · cases away
      · rename_i known
        split at away
        · cases away
        · rename_i zombie
          split at away <;> cases away
          rename_i found
          exact .joins (Nat.lt_of_not_le known) zombie found
  | sleep time =>
      rw [call, sthreadUserSleep] at away
      split at away <;> cases away
      rename_i some
      exact .sleeps some
  | lock lock | enter lock =>
      simp only [call, sthreadUserMonitorEnter, sthreadUserMutexLock] at away
      split at away <;> cases away
      rename_i owned
      exact .blocks rfl (by rw [owned]; exact Option.some_ne_none _)
  | wait mon =>
      rw [call, sthreadUserMonitorWait] at away
      split at away <;> cases away
      rename_i owner
      exact .waits (not_not.mp owner)

/-- A step in a tidy state: the call returns, or gives up the processor to a thread of
`exe_thr_list`. -/
theorem Step.cases (h : Tidy s) {e : Event} (step : Step sched s e s') :
    e.caller = s.activeThr ∧
      ((∃ value, e.ending = .returned value ∧ Returns s e.op value s') ∨
        ∃ u ctx t, GivesUp s e.op u ctx ∧ t ∈ u.queue .exeThrList ∧
          e.ending = .switched t ((u.save ctx).resumed t) ∧ s' = (u.save ctx).resume t) := by
  cases step with
  | returned returned => exact ⟨rfl, Or.inl ⟨_, rfl, .of_call h returned⟩⟩
  | switched switches =>
      obtain ⟨away, ready⟩ := switches.away
      exact ⟨rfl, Or.inr ⟨_, _, _, .of_call h away, ready, rfl, rfl⟩⟩

end Snfs.Threads
