import Snfs.Threads.Invariant

/-!
Mutexes and monitors. An `unlock` hands the mutex to the first thread of its queue,
which runs only later; `wait` moves the owner to the queue of the monitor, and
`signal` moves a thread from there to the queue of the mutex. The runs may contain
any other call, under any scheduler; no thread locks a mutex that it owns.
-/

namespace Snfs.Threads

open Filing Runs

variable {s s' u : Sys} {sched : Scheduler} {malloc : Thread} {trace : List (Sys × Event)}
  {i t : Nat} {e : Event} {m : Mutex} {q : Queue}

def Ctx.mutex? : Ctx → Option Mutex
  | .lock m => some m
  | .wait k => some (.mon k)
  | _ => none

def Awaits (m : Mutex) (q : Queue) : Prop := q = .mutex m ∨ ∃ k, m = .mon k ∧ q = .monitor k

/-- The thread is suspended in `lock` or in `wait`, and is not ready. -/
def Sys.Blocked (s : Sys) (i : Nat) (m : Mutex) : Prop :=
  i < s.count ∧ i ≠ s.activeThr ∧ (s.thread i).savedCtx.mutex? = some m ∧
    i ∉ s.queue .exeThrList

def asks (m : Mutex) (x : Sys × Event) : List Nat :=
  if x.2.op.locks = some m then [x.2.caller]
  else
    match x.2.op with
    | .signal k =>
      if m = .mon k ∧ x.1.thr m = some x.2.caller then (x.1.queue (.monitor k)).take 1 else []
    | _ => []

/-- The threads that have asked for the mutex by `lock`, or for which `signal` has, in order. -/
def asked (m : Mutex) (trace : List (Sys × Event)) : List Nat := trace.flatMap (asks m)

def gains (m : Mutex) (s s' : Sys) : List Nat :=
  if s'.thr m = s.thr m then [] else (s'.thr m).toList

def obtained (m : Mutex) : List Sys → List Nat
  | s :: s' :: rest => gains m s s' ++ obtained m (s' :: rest)
  | _ => []

private theorem obtained_concat (m : Mutex) (states : List Sys) (s s' : Sys) :
    obtained m (states ++ [s, s']) = obtained m (states ++ [s]) ++ gains m s s' := by
  induction states with
  | nil => simp [obtained]
  | cons first states ih =>
      cases states with
      | nil => simp [obtained]
      | cons second states =>
          simp only [List.cons_append, obtained, List.append_assoc] at ih ⊢
          rw [ih]

def SameLocks (s s' : Sys) : Prop :=
  s'.thr = s.thr ∧ ∀ m q, Awaits m q → s'.queue q = s.queue q

theorem awaits_plain (h : Awaits m q) : q ≠ .exeThrList ∧ q ≠ .deadThrList ∧ q ≠ .sleepThrList ∧
    q ≠ .joinThrList ∧ q ≠ .zombieThrList := by
  rcases h with rfl | ⟨_, _, rfl⟩ <;> exact ⟨nofun, nofun, nofun, nofun, nofun⟩

theorem Returns.locks {op : Op} {value : Ret} (returned : Returns s op value s') :
    (SameLocks s s' ∧ op.locks = none ∧ ∀ k, op ≠ .signal k) ∨
      (∃ m, op.locks = some m ∧ s.thr m = none ∧
        s' = { s with thr := Function.update s.thr m (some s.activeThr) }) ∨
      (∃ m, op.unlocks = some m ∧ s' = sthreadUserMutexUnlock s m) ∨
      ∃ k, op = .signal k ∧ s' = sthreadUserMonitorSignal s k := by
  cases returned with
  | idle idle =>
      refine Or.inl ⟨⟨rfl, fun _ _ _ => rfl⟩, ?_⟩
      cases op <;> first | exact False.elim idle | exact ⟨rfl, by simp⟩
  | created =>
      refine Or.inl ⟨⟨rfl, fun m q awaits => ?_⟩, rfl, by simp⟩
      simp [put, (awaits_plain awaits).1]
  | nice => exact Or.inl ⟨⟨rfl, fun _ _ _ => rfl⟩, rfl, by simp⟩
  | joined =>
      refine Or.inl ⟨⟨rfl, fun m q awaits => ?_⟩, rfl, by simp⟩
      simp [pour, awaits_plain awaits]
  | notFound => exact Or.inl ⟨⟨rfl, fun _ _ _ => rfl⟩, rfl, by simp⟩
  | owns locks free => exact Or.inr (Or.inl ⟨_, locks, free, rfl⟩)
  | unlocks unlocks => exact Or.inr (Or.inr (Or.inl ⟨_, unlocks, rfl⟩))
  | signals => exact Or.inr (Or.inr (Or.inr ⟨_, rfl, rfl⟩))

theorem GivesUp.locks (h : Tidy s) {op : Op} {ctx : Ctx} (gives : GivesUp s op u ctx) :
    (SameLocks s u ∧ op.locks = none ∧ ∀ k, op ≠ .signal k) ∨
      (∃ m, op.locks = some m ∧ s.thr m ≠ none ∧ u = s.queueInsert (.mutex m) s.activeThr) ∨
      ∃ k, op = .wait k ∧ s.thr (.mon k) = some s.activeThr ∧
        u = sthreadUserMutexUnlock (s.queueInsert (.monitor k) s.activeThr) (.mon k) := by
  cases gives with
  | yields | joins | sleeps =>
      refine Or.inl ⟨⟨rfl, fun m q awaits => ?_⟩, rfl, by simp⟩
      simp [put, awaits_plain awaits]
  | ticks =>
      refine Or.inl ⟨?_, rfl, by simp⟩
      rw [tick_eq h]
      refine ⟨rfl, fun m q awaits => ?_⟩
      simp [put, pour, awaits_plain awaits]
  | exits =>
      refine Or.inl ⟨⟨rfl, fun m q awaits => ?_⟩, rfl, by simp⟩
      unfold Sys.exited
      split <;> simp [put, pour, awaits_plain awaits]
  | blocks locks owned => exact Or.inr (Or.inl ⟨_, locks, owned, rfl⟩)
  | waits owner => exact Or.inr (Or.inr ⟨_, rfl, owner, rfl⟩)

private theorem sameLocks_resume (ctx : Ctx) (t : Nat) : SameLocks u ((u.save ctx).resume t) := by
  refine ⟨rfl, fun m q awaits => ?_⟩
  simp [withdraw, awaits_plain awaits, Sys.save]

/-- An unlock by the owner: the mutex becomes free, or the first thread of its queue owns it. -/
theorem unlock_cases (owner : s.thr m = some s.activeThr) :
    (s.queue (.mutex m) = [] ∧
      sthreadUserMutexUnlock s m = { s with thr := Function.update s.thr m none }) ∨
    ∃ t rest, s.queue (.mutex m) = t :: rest ∧ sthreadUserMutexUnlock s m = { s with
      thr := Function.update s.thr m (some t)
      queue := put (withdraw s.queue (.mutex m) t) .exeThrList t } := by
  unfold sthreadUserMutexUnlock
  rw [if_neg (not_not.mpr owner)]
  cases waiting : s.queue (.mutex m) with
  | nil => exact Or.inl ⟨rfl, rfl⟩
  | cons t rest => exact Or.inr ⟨t, rest, rfl, rfl⟩

private theorem unlock_other (other : s.thr m ≠ some s.activeThr) :
    sthreadUserMutexUnlock s m = s :=
  if_pos other

/-- No owner waits for what it owns. -/
def Handed (s : Sys) : Prop :=
  ∀ m i, s.thr m = some i → ∀ q, Awaits m q → i ∉ s.queue q

theorem Handed.same (h : Handed s) (same : SameLocks s s') : Handed s' := by
  intro m i owner q awaits
  rw [same.2 m q awaits]
  exact h m i (same.1 ▸ owner) q awaits

/-- After an unlock by the owner, who may wait in the queue of the monitor. -/
theorem Handed.unlock (filed : Filed s.queue)
    (others : ∀ m' i, m' ≠ m → s.thr m' = some i → ∀ q, Awaits m' q → i ∉ s.queue q)
    (owner : s.thr m = some s.activeThr) : Handed (sthreadUserMutexUnlock s m) := by
  rcases unlock_cases owner with ⟨_, same⟩ | ⟨t, rest, waiting, same⟩ <;> rw [same] <;>
    intro m' i owner' q awaits
  · by_cases other : m' = m
    · subst other
      simp at owner'
    · exact others m' i other (by simpa [other] using owner') q awaits
  · have first : t ∈ s.queue (.mutex m) := waiting ▸ List.mem_cons_self
    intro inside
    rcases mem_put.mp inside with inside | ⟨ready, _⟩
    · by_cases other : m' = m
      · subst other
        obtain rfl : t = i := by simpa using owner'
        exact filed.not_mem_withdraw first q inside
      · exact others m' i other (by simpa [other] using owner') q awaits
          (filed.mem_withdraw.mp inside).1
    · exact (awaits_plain awaits).1 ready

theorem Handed.signal (h : Handed s) (filed : Filed s.queue)
    (runs : ∀ q, s.activeThr ∉ s.queue q) (k : Nat) : Handed (sthreadUserMonitorSignal s k) := by
  unfold sthreadUserMonitorSignal
  split
  · exact h
  · rename_i owner
    split
    · exact h
    · rename_i t rest waiting
      have first : t ∈ s.queue (.monitor k) := waiting ▸ List.mem_cons_self
      intro m' i owner' q awaits inside
      rcases mem_put.mp inside with inside | ⟨rfl, rfl⟩
      · exact h m' i owner' q awaits (filed.mem_withdraw.mp inside).1
      · rcases awaits with same | ⟨_, _, same⟩ <;> cases same
        rw [not_not.mp owner] at owner'
        exact runs _ (Option.some.inj owner' ▸ first)

theorem Handed.step (h : Handed s) (placed : Placed s (some s.activeThr))
    (step : Step sched s e s')
    (considerate : ∀ m, e.op.locks = some m → s.thr m ≠ some s.activeThr) :
    Handed s' := by
  have runs := placed.not_mem
  obtain ⟨_, ⟨value, _, returned⟩ | ⟨u, ctx, t, gives, _, _, rfl⟩⟩ := step.cases placed.tidy
  · rcases returned.locks with ⟨same, _⟩ | ⟨m, _, free, rfl⟩ | ⟨m, _, rfl⟩ | ⟨k, _, rfl⟩
    · exact h.same same
    · intro m' i owner q awaits
      by_cases other : m' = m
      · subst other
        obtain rfl : s.activeThr = i := by simpa using owner
        exact runs q
      · exact h m' i (by simpa [other] using owner) q awaits
    · by_cases owner : s.thr m = some s.activeThr
      · exact Handed.unlock placed.filed (fun m' i _ => h m' i) owner
      · rw [unlock_other owner]
        exact h
    · exact h.signal placed.filed runs k
  · refine Handed.same ?_ (sameLocks_resume ctx t)
    rcases gives.locks placed.tidy with ⟨same, _⟩ | ⟨m, locks, _, rfl⟩ | ⟨k, _, owner, rfl⟩
    · exact h.same same
    · intro m' i owner q awaits inside
      rcases mem_put.mp inside with inside | ⟨rfl, rfl⟩
      · exact h m' i owner q awaits inside
      · rcases awaits with same | ⟨_, _, same⟩ <;> cases same
        exact considerate m locks owner
    · refine Handed.unlock (placed.filed.put runs) ?_ owner
      intro m' i other owner' q awaits inside
      rcases mem_put.mp inside with inside | ⟨rfl, rfl⟩
      · exact h m' i owner' q awaits inside
      · rcases awaits with same | ⟨_, same, mon⟩
        · cases same
        · cases mon
          exact other same

private theorem asks_other (locks : e.op.locks = none) (other : ∀ k, e.op ≠ .signal k) (s : Sys) :
    asks m (s, e) = [] := by
  unfold asks
  rw [if_neg (by rw [locks]; exact nofun)]
  split
  · rename_i k signal
    exact absurd signal (other k)
  · rfl

/-- An unlock gives the mutex to the first in line. -/
theorem line_unlock (lock : Mutex)
    (apart : s.thr lock = some s.activeThr → s.activeThr ∉ s.queue (.mutex lock)) :
    s.queue (.mutex m) = gains m s (sthreadUserMutexUnlock s lock) ++
      (sthreadUserMutexUnlock s lock).queue (.mutex m) := by
  by_cases owner : s.thr lock = some s.activeThr
  · rcases unlock_cases owner with ⟨empty, same⟩ | ⟨t, rest, waiting, same⟩ <;> rw [same]
    · by_cases this : m = lock
      · subst this
        simp [gains, owner, empty]
      · simp [gains, this]
    · by_cases this : m = lock
      · subst this
        have new : some t ≠ s.thr m := by
          rw [owner]
          intro same
          exact apart owner (Option.some.inj same ▸ waiting ▸ List.mem_cons_self)
        simp [gains, new, put, withdraw, waiting]
      · simp [gains, this, put, withdraw]
  · rw [unlock_other owner]
    simp [gains]

private theorem asks_lock {lock : Mutex} (locks : e.op.locks = some lock) (s : Sys) :
    asks m (s, e) = if m = lock then [e.caller] else [] := by
  unfold asks
  rw [locks]
  by_cases this : m = lock
  · rw [if_pos (by rw [this]), if_pos this]
  · rw [if_neg fun same => this (Option.some.inj same).symm, if_neg this]
    split
    · rename_i k signal
      rw [signal] at locks
      cases locks
    · rfl

private theorem line_signal (k : Nat) {ending : Ending} :
    s.queue (.mutex m) ++ asks m (s, ⟨s.activeThr, .signal k, ending⟩) =
      gains m s (sthreadUserMonitorSignal s k) ++
        (sthreadUserMonitorSignal s k).queue (.mutex m) := by
  unfold sthreadUserMonitorSignal
  by_cases owner : s.thr (.mon k) = some s.activeThr
  · rw [if_neg (not_not.mpr owner)]
    cases waiting : s.queue (.monitor k) with
    | nil => simp [asks, gains, Op.locks, waiting]
    | cons t rest =>
        by_cases this : m = .mon k
        · subst this
          simp [asks, gains, Op.locks, owner, waiting, put, withdraw]
        · simp [asks, gains, Op.locks, put, withdraw, this]
  · rw [if_pos owner]
    have other : ¬ (m = .mon k ∧ s.thr m = some s.activeThr) := by
      rintro ⟨rfl, same⟩
      exact owner same
    simp [asks, gains, Op.locks, other]

/-- A step puts threads at the end of the line, and the mutex goes to its first. -/
theorem Placed.line (placed : Placed s (some s.activeThr)) (step : Step sched s e s') :
    s.queue (.mutex m) ++ asks m (s, e) = gains m s s' ++ s'.queue (.mutex m) := by
  have runs := placed.not_mem
  obtain ⟨caller, op, ending⟩ := e
  obtain ⟨rfl, ⟨value, _, returned⟩ | ⟨u, ctx, t, gives, _, _, rfl⟩⟩ := step.cases placed.tidy
  · rcases returned.locks with ⟨same, locks, other⟩ | ⟨lock, locks, free, rfl⟩ |
      ⟨lock, unlocks, rfl⟩ | ⟨k, rfl, rfl⟩
    · rw [asks_other locks other, same.2 m _ (Or.inl rfl)]
      simp [gains, same.1]
    · have none : s.queue (.mutex lock) = [] :=
        List.eq_nil_iff_forall_not_mem.mpr fun i inside => placed.owned lock i inside free
      rw [asks_lock locks]
      by_cases this : m = lock
      · subst this
        simp [gains, free, none]
      · simp [gains, this]
    · have line := line_unlock (m := m) lock fun _ => runs _
      rw [← line]
      cases op <;> cases unlocks <;> exact List.append_nil _
    · exact line_signal k
  · have resumed := sameLocks_resume (u := u) ctx t
    have last : gains m s ((u.save ctx).resume t) ++ ((u.save ctx).resume t).queue (.mutex m) =
        gains m s u ++ u.queue (.mutex m) := by
      rw [resumed.2 m _ (Or.inl rfl)]
      simp only [gains, resumed.1]
    rw [last]
    rcases gives.locks placed.tidy with ⟨same, locks, other⟩ | ⟨lock, locks, _, rfl⟩ |
      ⟨k, rfl, owner, rfl⟩
    · rw [asks_other locks other, same.2 m _ (Or.inl rfl)]
      simp [gains, same.1]
    · rw [asks_lock locks]
      by_cases this : m = lock
      · subst this
        simp [gains, put]
      · simp [gains, put, this]
    · have apart :
          s.activeThr ∉ (s.queueInsert (.monitor k) s.activeThr).queue (.mutex (.mon k)) := by
        simpa [put] using runs (.mutex (.mon k))
      have line := line_unlock (m := m) (.mon k) fun _ => apart
      have kept :
          (s.queueInsert (.monitor k) s.activeThr).queue (.mutex m) = s.queue (.mutex m) := by
        simp [put]
      rw [kept] at line
      simpa [asks, Op.locks, gains] using line

private theorem asked_eq (run : Run (Traced sched) (sthreadUserInit malloc) trace s) :
    asked m trace = obtained m (trace.map Prod.fst ++ [s]) ++ s.queue (.mutex m) := by
  induction run with
  | nil => rfl
  | @snoc trace s s' x run next ih =>
      obtain ⟨before, e⟩ := x
      obtain ⟨rfl, step⟩ := next
      have line := (placed_of_run run).line (m := m) step
      have states : (trace ++ [(before, e)]).map Prod.fst ++ [s'] =
          trace.map Prod.fst ++ [before, s'] := by simp
      rw [states, obtained_concat, List.append_assoc, ← line, ← List.append_assoc, ← ih]
      simp [asked]

private theorem handed_of_run (run : Run (Traced sched) (sthreadUserInit malloc) trace s)
    (considerate : ∀ x ∈ trace, ∀ m, x.2.op.locks = some m → x.1.thr m ≠ some x.2.caller) :
    Handed s := by
  induction run with
  | nil =>
      intro m i owner
      cases owner
  | snoc run next ih =>
      obtain ⟨rfl, step⟩ := next
      have placed := placed_of_run run
      have earlier := ih fun x member => considerate x (List.mem_append_left _ member)
      refine earlier.step placed step ?_
      rw [← (step.cases placed.tidy).1]
      exact considerate _ (List.mem_append_right _ (List.mem_singleton_self _))

/-- What holds of the mutexes and the monitors after a run. -/
structure HandsOver (sched : Scheduler) (trace : List (Sys × Event)) (s : Sys) : Prop where
  owned : ∀ m, s.queue (.mutex m) ≠ [] → s.thr m ≠ none
  owner : ∀ m i, s.thr m = some i → ∀ q, Awaits m q → i ∉ s.queue q
  blocked : ∀ i m, s.Blocked i m →
    ∃ q, Awaits m q ∧ (s.queue q).count i = 1 ∧ ∀ q', q' ≠ q → i ∉ s.queue q'
  returns : ∀ e s' m value, Step sched s e s' → e.op.locks = some m →
    e.ending = .returned value → s'.thr m = some e.caller
  resumes : ∀ e s' m t value, Step sched s e s' → e.ending = .switched t value →
    (s'.thread t).savedCtx.mutex? = some m → s'.thr m = some t
  inOrder : ∀ m, asked m trace = obtained m (trace.map Prod.fst ++ [s]) ++ s.queue (.mutex m)

theorem Placed.blocked (h : Placed s (some s.activeThr)) (blocked : s.Blocked i m) :
    ∃ q, Awaits m q ∧ (s.queue q).count i = 1 ∧ ∀ q', q' ≠ q → i ∉ s.queue q' := by
  obtain ⟨known, idle, suspended, ready⟩ := blocked
  obtain ⟨q, inside⟩ := (h.inside i).mpr ⟨known, fun same => idle (Option.some.inj same).symm⟩
  refine ⟨q, ?_, h.filed.count_eq_one inside,
    fun q' other also => other (h.filed.unique also inside)⟩
  have fits := h.fits q i inside
  cases q with
  | exeThrList => exact absurd inside ready
  | deadThrList | zombieThrList | sleepThrList =>
      rw [show (s.thread i).savedCtx = _ from fits] at suspended
      cases suspended
  | joinThrList =>
      obtain ⟨t, _, ctx, _⟩ := fits
      rw [ctx] at suspended
      cases suspended
  | mutex lock =>
      rcases fits with ctx | ⟨k, rfl, ctx⟩ <;> rw [ctx] at suspended <;> cases suspended <;>
        exact Or.inl rfl
  | monitor k =>
      rw [show (s.thread i).savedCtx = _ from fits] at suspended
      cases suspended
      exact Or.inr ⟨k, rfl, rfl⟩

theorem Placed.returns (h : Placed s (some s.activeThr)) (step : Step sched s e s')
    (locks : e.op.locks = some m) {value : Ret} (ending : e.ending = .returned value) :
    s'.thr m = some e.caller := by
  obtain ⟨caller, ⟨value', _, returned⟩ | ⟨u, ctx, t, _, _, switched, _⟩⟩ := step.cases h.tidy
  · rcases returned.locks with ⟨_, none, _⟩ | ⟨lock, same, _, rfl⟩ | ⟨lock, unlocks, _⟩ |
      ⟨k, signal, _⟩
    · rw [none] at locks
      cases locks
    · obtain rfl : lock = m := Option.some.inj (same.symm.trans locks)
      rw [caller]
      exact Function.update_self _ _ _
    · cases op : e.op <;> rw [op] at locks unlocks <;> cases locks <;> cases unlocks
    · rw [signal] at locks
      cases locks
  · rw [ending] at switched
    cases switched

theorem Placed.resumes (h : Placed s (some s.activeThr)) (step : Step sched s e s')
    {value : Option Ret} (ending : e.ending = .switched t value)
    (suspended : (s'.thread t).savedCtx.mutex? = some m) : s'.thr m = some t := by
  obtain ⟨_, ⟨value', returned, _⟩ | ⟨u, ctx, t', gives, ready, switched, rfl⟩⟩ := step.cases h.tidy
  · rw [ending] at returned
    cases returned
  · rw [ending] at switched
    obtain ⟨rfl, _⟩ := Ending.switched.inj switched
    have fits : (u.save ctx).Ready t ((u.save ctx).thread t).savedCtx :=
      (h.gaveUp gives).fits .exeThrList t ready
    have suspended : ((u.save ctx).thread t).savedCtx.mutex? = some m := suspended
    cases point : ((u.save ctx).thread t).savedCtx with
    | lock lock | wait k =>
        rw [point] at fits suspended
        cases suspended
        exact fits
    | _ =>
        rw [point] at suspended
        cases suspended

/-- Mutexes and monitors hand over correctly in every run in which no thread locks a mutex that
it owns. -/
theorem mutexes_hand_over (run : Run (Traced sched) (sthreadUserInit malloc) trace s)
    (considerate : ∀ x ∈ trace, ∀ m, x.2.op.locks = some m → x.1.thr m ≠ some x.2.caller) :
    HandsOver sched trace s := by
  have placed := placed_of_run run
  refine ⟨fun m waiting => ?_, handed_of_run run considerate, fun i m => placed.blocked,
    fun e s' m value step locks ending => placed.returns step locks ending,
    fun e s' m t value step ending suspended => placed.resumes step ending suspended,
    fun m => asked_eq run⟩
  obtain ⟨i, inside⟩ := List.exists_mem_of_ne_nil _ waiting
  exact placed.owned m i inside

/-- A thread waits for the mutex of the main thread and goes on as its owner. -/
theorem mutexes_hand_over_two_threads :
    ∃ trace s, Run (Traced anyReady) (sthreadUserInit zeroThread) trace s ∧
      s.activeThr = 1 ∧ s.thr (.own 0) = some 1 ∧ HandsOver anyReady trace s := by
  have replayed : replay (sthreadUserInit zeroThread)
    [(.create 5 true, 0), (.lock (.own 0), 0), (.yield, 1), (.lock (.own 0), 0),
      (.unlock (.own 0), 0), (.yield, 1)] = some (_, _) := rfl
  refine ⟨_, _, run_of_replay replayed, rfl, rfl, mutexes_hand_over (run_of_replay replayed) ?_⟩
  simp only [List.forall_mem_cons]
  refine ⟨nofun, ?_, nofun, ?_, nofun, nofun, fun _ none => (nomatch none)⟩ <;> rintro m same <;>
    cases same <;> decide

end Snfs.Threads
