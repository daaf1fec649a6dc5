import Snfs.Threads.Invariant

/-!
Joining. A thread that exits leaves its value in the `join_ret` of the threads that
wait for it; `join` returns the `join_ret` of the thread that was joined, which
holds what that thread got from the last one that it waited for itself. A thread
that waits for a mutex or in a monitor is not found.
-/

namespace Snfs.Threads

open Filing Runs

variable {s s' u : Sys} {sched : Scheduler} {malloc : Thread} {trace : List (Sys × Event)}
  {i t target : Nat} {e : Event}

theorem Returns.kept {op : Op} {value : Ret} (returned : Returns s op value s')
    (known : i < s.count) : (s'.thread i).savedCtx = (s.thread i).savedCtx ∧
      (s'.thread i).joinRet = (s.thread i).joinRet := by
  cases returned with
  | idle | notFound | owns => exact ⟨rfl, rfl⟩
  | created => simp [Nat.ne_of_lt known]
  | nice =>
      by_cases self : i = s.activeThr
      · subst self
        simp [Sys.active]
      · simp [self]
  | joined => simp
  | unlocks => rw [(sameThreads_unlock _ _).thread]; exact ⟨rfl, rfl⟩
  | signals => rw [(sameThreads_signal _ _).thread]; exact ⟨rfl, rfl⟩

theorem GivesUp.activeThr (h : Tidy s) {op : Op} {ctx : Ctx} (gives : GivesUp s op u ctx) :
    u.activeThr = s.activeThr := by
  cases gives with
  | yields | exits | joins | sleeps | blocks => rfl
  | ticks => exact activeThr_tick h
  | waits => exact (sameThreads_unlock _ _).activeThr

theorem GivesUp.kept (h : Tidy s) {op : Op} {ctx : Ctx} (gives : GivesUp s op u ctx) (i : Nat) :
    (u.thread i).savedCtx = (s.thread i).savedCtx ∧
      (i ∉ s.queue .joinThrList → (u.thread i).joinRet = (s.thread i).joinRet) := by
  cases gives with
  | yields | blocks => exact ⟨rfl, fun _ => rfl⟩
  | ticks =>
      rw [tick_eq h]
      simp only [Sys.queueInsert_thread]
      exact ⟨s.ticked.poured_field Thread.savedCtx Thread.awake (fun _ => rfl) _ _ _ i,
        fun _ => s.ticked.poured_field Thread.joinRet Thread.awake (fun _ => rfl) _ _ _ i⟩
  | exits =>
      refine ⟨s.exited_field Thread.savedCtx (fun _ => rfl) i, fun outside => ?_⟩
      simp [Sys.exited, outside]
  | joins | sleeps =>
      by_cases self : i = s.activeThr
      · subst self
        simp [Sys.active]
      · simp [self]
  | waits =>
      rw [(sameThreads_unlock _ _).thread]
      exact ⟨rfl, fun _ => rfl⟩

theorem Step.savedCtx (h : Tidy s) (step : Step sched s e s') (known : i < s.count)
    (idle : i ≠ s.activeThr) : (s'.thread i).savedCtx = (s.thread i).savedCtx := by
  obtain ⟨_, ⟨value, _, returned⟩ | ⟨u, ctx, t, gives, _, _, rfl⟩⟩ := step.cases h
  · exact (returned.kept known).1
  · have other : i ≠ u.activeThr := by rwa [gives.activeThr h]
    rw [← (gives.kept h i).1]
    simp [Sys.save, other]

/-- Only a thread in `join` gets a new `join_ret`. -/
theorem Step.joinRet (h : Tidy s) (step : Step sched s e s') (known : i < s.count)
    (outside : i ∉ s.queue .joinThrList) : (s'.thread i).joinRet = (s.thread i).joinRet := by
  obtain ⟨_, ⟨value, _, returned⟩ | ⟨u, ctx, t, gives, _, _, rfl⟩⟩ := step.cases h
  · exact (returned.kept known).2
  · rw [← (gives.kept h i).2 outside]
    exact u.save_field Thread.joinRet (fun _ => rfl) i

theorem Step.count_le (h : Tidy s) (step : Step sched s e s') : s.count ≤ s'.count := by
  obtain ⟨caller, op, ending⟩ := e
  obtain ⟨_, ⟨value, _, returned⟩ | ⟨u, ctx, t, gives, _, _, rfl⟩⟩ := step.cases h
  · cases returned with
    | created => exact Nat.le_succ _
    | idle | nice | joined | notFound | owns => exact Nat.le_refl _
    | unlocks => exact Nat.le_of_eq (sameThreads_unlock _ _).count.symm
    | signals => exact Nat.le_of_eq (sameThreads_signal _ _).count.symm
  · cases gives with
    | yields | exits | joins | sleeps | blocks => exact Nat.le_refl _
    | ticks =>
        rw [tick_eq h]
        exact Nat.le_refl _
    | waits => exact Nat.le_of_eq (sameThreads_unlock (s.queueInsert _ _) _).count.symm

def NotJoined (trace : List (Sys × Event)) (target : Nat) : Prop :=
  ∀ x ∈ trace, x.2.op = .join target → x.2.ending = .returned (.join (-1) none)

/-- Nobody waits for the thread, and if it has exited it is a zombie. -/
def Unclaimed (s : Sys) (target : Nat) : Prop :=
  (s.Gone target → target ∈ s.queue .zombieThrList) ∧
    ∀ i ∈ s.queue .joinThrList, (s.thread i).savedCtx ≠ .join target

/-- Only a `join` that finds it takes a thread from the zombies. -/
theorem Step.zombie (h : Tidy s) (step : Step sched s e s') (zombie : t ∈ s.queue .zombieThrList)
    (fails : e.op = .join t → e.ending = .returned (.join (-1) none)) :
    t ∈ s'.queue .zombieThrList := by
  obtain ⟨caller, op, ending⟩ := e
  obtain ⟨rfl, ⟨value, rfl, returned⟩ | ⟨u, ctx, next, gives, _, _, rfl⟩⟩ := step.cases h
  · cases returned with
    | idle | nice | notFound | owns => exact zombie
    | created => simpa [put] using zombie
    | @joined target found =>
        by_cases self : target = t
        · cases fails (by rw [self])
        · rw [Sys.poured_queue, mem_pour (by decide)]
          exact Or.inl ⟨zombie, fun also => self (eq_of_beq also.2).symm⟩
    | unlocks => rwa [queue_unlock (q := .zombieThrList) s trivial]
    | signals => rwa [queue_signal (q := .zombieThrList) s trivial]
  · suffices there : t ∈ u.queue .zombieThrList by
      simpa [Sys.save, withdraw] using there
    cases gives with
    | yields | joins | sleeps | blocks => simpa [put] using zombie
    | ticks =>
        rw [tick_eq h]
        simpa [put, pour] using zombie
    | exits =>
        refine mem_put.mpr (Or.inl ?_)
        simpa [pour] using zombie
    | waits =>
        rw [queue_unlock (q := .zombieThrList) _ trivial]
        simpa [put] using zombie

/-- A thread comes to `join_thr_list` by a call of `join`. -/
theorem Step.joining (h : Tidy s) (step : Step sched s e s') (joining : i ∈ s'.queue .joinThrList) :
    i ∈ s.queue .joinThrList ∨ i = e.caller ∧ ∃ target, e.op = .join target ∧
      (s'.thread i).savedCtx = .join target ∧ ∀ value, e.ending ≠ .returned value := by
  obtain ⟨caller, op, ending⟩ := e
  obtain ⟨rfl, ⟨value, rfl, returned⟩ | ⟨u, ctx, next, gives, _, rfl, rfl⟩⟩ := step.cases h
  · refine Or.inl ?_
    cases returned with
    | idle | nice | notFound | owns => exact joining
    | created => simpa [put] using joining
    | joined => simpa [pour] using joining
    | unlocks => rwa [queue_unlock (q := .joinThrList) s trivial] at joining
    | signals => rwa [queue_signal (q := .joinThrList) s trivial] at joining
  · have there : i ∈ u.queue .joinThrList := by
      simpa [Sys.save, withdraw] using joining
    cases gives with
    | yields | sleeps | blocks => exact Or.inl (by simpa [put] using there)
    | ticks =>
        rw [tick_eq h] at there
        exact Or.inl (by simpa [put, pour] using there)
    | exits =>
        refine Or.inl ?_
        rcases mem_put.mp there with inside | ⟨same, _⟩
        · rw [Sys.poured_queue, mem_pour (by decide)] at inside
          rcases inside with ⟨inside, _⟩ | ⟨same, _⟩
          · exact inside
          · cases same
        · split at same <;> cases same
    | @joins target =>
        rw [Sys.queueInsert_queue, mem_put] at there
        rcases there with inside | ⟨_, rfl⟩
        · exact Or.inl inside
        · exact Or.inr ⟨rfl, target, rfl, savedCtx_save _ _, by simp⟩
    | waits =>
        rw [queue_unlock (q := .joinThrList) _ trivial] at there
        exact Or.inl (by simpa [put] using there)

/-- A thread that nobody waits for becomes a zombie. -/
theorem Placed.becomes_zombie (h : Placed s (some s.activeThr))
    (nobody : ∀ i ∈ s.queue .joinThrList, (s.thread i).savedCtx ≠ .join s.activeThr) (ret : Nat) :
    s.activeThr ∈ (s.exited ret).queue .zombieThrList := by
  have none :
      (s.queue .joinThrList).any (fun i => (s.thread i).joinTid = s.active.tid) = false := by
    refine List.any_eq_false.mpr fun i inside matched => ?_
    obtain ⟨t, known, suspended, target, _⟩ := h.fits _ i inside
    have same : (s.thread t).tid = s.active.tid := target.symm.trans (of_decide_eq_true matched)
    rw [h.tid t known, Sys.active, h.tid _ (h.alive _ rfl)] at same
    obtain rfl : t = s.activeThr := by omega
    exact nobody i inside suspended
  unfold Sys.exited
  rw [none, if_neg Bool.false_ne_true, Sys.queueInsert_queue, mem_put]
  exact Or.inr ⟨rfl, rfl⟩

theorem Placed.unclaimed (h : Placed s (some s.activeThr)) (unclaimed : Unclaimed s target)
    (step : Step sched s e s')
    (fails : e.op = .join target → e.ending = .returned (.join (-1) none)) :
    Unclaimed s' target := by
  have tidy := h.tidy
  refine ⟨fun gone => ?_, fun i joining suspended => ?_⟩
  · rcases (step.gone tidy target).mp gone with earlier | ⟨rfl, ret, exits⟩
    · exact step.zombie tidy (unclaimed.1 earlier) fails
    · obtain ⟨caller, op, ending⟩ := e
      cases exits
      obtain ⟨rfl, ⟨value, _, returned⟩ | ⟨u, ctx, next, gives, _, _, rfl⟩⟩ := step.cases tidy
      · cases returned with
        | idle idle => exact False.elim idle
        | owns locks => cases locks
        | unlocks unlocks => cases unlocks
      · cases gives with
        | exits => simpa [Sys.save, withdraw] using h.becomes_zombie unclaimed.2 ret
        | blocks locks => cases locks
  · rcases step.joining tidy joining with earlier | ⟨_, other, op, ctx, away⟩
    · have idle : i ≠ s.activeThr := fun same => h.not_mem _ (same ▸ earlier)
      rw [step.savedCtx tidy (h.lt earlier) idle] at suspended
      exact unclaimed.2 i earlier suspended
    · obtain rfl : other = target := Ctx.join.inj (ctx.symm.trans suspended)
      exact away _ (fails op)

private theorem unclaimed_of_run (run : Run (Traced sched) (sthreadUserInit malloc) trace s)
    (fresh : NotJoined trace target) : Unclaimed s target := by
  induction run with
  | nil => exact ⟨fun gone => by cases gone <;> contradiction, fun _ inside => by cases inside⟩
  | snoc run next ih =>
      obtain ⟨rfl, step⟩ := next
      have earlier := ih fun x member => fresh x (List.mem_append_left _ member)
      refine (placed_of_run run).unclaimed earlier step ?_
      exact fresh _ (List.mem_append_right _ (List.mem_singleton_self _))

/-- A thread keeps its `join_ret` from the call of `exit` on. -/
theorem joinRet_of_exit (run : Run (Traced sched) (sthreadUserInit malloc) trace s) {s₁ : Sys}
    {e₁ : Event} (exits : (s₁, e₁) ∈ trace) {ret : Nat} (op : e₁.op = .exit ret) :
    (s.thread e₁.caller).joinRet = (s₁.thread e₁.caller).joinRet := by
  induction run with
  | nil => cases exits
  | snoc run next ih =>
      obtain ⟨rfl, step⟩ := next
      have placed := placed_of_run run
      rcases List.mem_append.mp exits with earlier | last
      · have gone := (exited_iff_gone run _).mp ⟨_, earlier, rfl, ret, op⟩
        rw [← ih earlier]
        refine step.joinRet placed.tidy ?_ fun joining => placed.not_gone joining (by decide) gone
        exact gone.elim placed.lt placed.lt
      · obtain rfl := List.mem_singleton.mp last
        have caller := (step.cases placed.tidy).1
        dsimp only at caller step ⊢
        rw [caller]
        exact step.joinRet placed.tidy placed.tidy.active (placed.not_mem _)

/-- What a step makes a call of the thread return. -/
def answer (i : Nat) (x : Sys × Event) : Option Ret :=
  match x.2.ending with
  | .returned value => if x.2.caller = i then some value else none
  | .switched t value => if t = i then value else none

private theorem answer_returned (i : Nat) (s : Sys) (caller : Nat) (op : Op) (value : Ret) :
    answer i (s, ⟨caller, op, .returned value⟩) = if caller = i then some value else none := rfl

theorem answer_switched (i : Nat) (s : Sys) (caller : Nat) (op : Op) (t : Nat)
    (value : Option Ret) :
    answer i (s, ⟨caller, op, .switched t value⟩) = if t = i then value else none := rfl

/-- What the thread's call returns that is made in the first step. -/
def answerOf (i : Nat) (trace : List (Sys × Event)) : Option Ret := trace.findSome? (answer i)

def Sys.InMonitor (s : Sys) (t : Nat) : Prop :=
  (∃ m, t ∈ s.queue (.mutex m)) ∨ ∃ k, t ∈ s.queue (.monitor k)

/-- How far a call of `join` has got. -/
def JoinState (s : Sys) (i target : Nat) (hidden : Prop) : Option Ret → Prop
  | some value => (value = .join (-1) none ∧ hidden) ∨
      (value = .join 0 (some (s.thread target).joinRet) ∧ ¬ hidden ∧ s.Gone target)
  | none => ¬ hidden ∧ i < s.count ∧ i ≠ s.activeThr ∧ (s.thread i).savedCtx = .join target

/-- A thread that `join` does not find, and that is neither a zombie nor dead, waits for a mutex or
in a monitor. -/
theorem Placed.inMonitor_iff (h : Placed s (some s.activeThr)) (known : t < s.count)
    (live : ¬ s.Gone t) : s.InMonitor t ↔ ¬ s.Findable t := by
  constructor
  · rintro (⟨m, inside⟩ | ⟨k, inside⟩) (rfl | ready | asleep | joining)
    · exact h.not_mem _ inside
    · cases h.filed.unique inside ready
    · cases h.filed.unique inside asleep
    · cases h.filed.unique inside joining
    · exact h.not_mem _ inside
    · cases h.filed.unique inside ready
    · cases h.filed.unique inside asleep
    · cases h.filed.unique inside joining
  · intro hidden
    have idle : t ≠ s.activeThr := fun same => hidden (Or.inl same)
    obtain ⟨q, inside⟩ := (h.inside t).mpr ⟨known, fun same => idle (Option.some.inj same).symm⟩
    cases q with
    | exeThrList => exact absurd (Or.inr (Or.inl inside)) hidden
    | sleepThrList => exact absurd (Or.inr (Or.inr (Or.inl inside))) hidden
    | joinThrList => exact absurd (Or.inr (Or.inr (Or.inr inside))) hidden
    | zombieThrList => exact absurd (Or.inl inside) live
    | deadThrList => exact absurd (Or.inr inside) live
    | mutex m => exact Or.inl ⟨m, inside⟩
    | monitor k => exact Or.inr ⟨k, inside⟩

theorem Placed.not_inMonitor {r : Option Nat} (h : Placed s r) (gone : s.Gone t) :
    ¬ s.InMonitor t := by
  rintro (⟨m, inside⟩ | ⟨k, inside⟩) <;> exact h.not_gone inside ⟨nofun, nofun⟩ gone

theorem Placed.join_starts (h : Placed s (some s.activeThr)) (unclaimed : Unclaimed s target)
    (step : Step sched s e s') (op : e.op = .join target) :
    JoinState s' e.caller target (s.InMonitor target) (answer e.caller (s, e)) := by
  obtain ⟨caller, op', ending⟩ := e
  cases op
  obtain ⟨rfl, ⟨value, rfl, returned⟩ | ⟨u, ctx, next, gives, ready, rfl, rfl⟩⟩ := step.cases h.tidy
  · rw [answer_returned, if_pos rfl]
    cases returned with
    | idle idle => exact False.elim idle
    | joined zombie =>
        refine Or.inr ⟨?_, h.not_inMonitor (Or.inl zombie), (gone_joined s _ _).mpr (Or.inl zombie)⟩
        simp
    | notFound known zombie hidden =>
        refine Or.inl ⟨rfl, (h.inMonitor_iff known ?_).mpr hidden⟩
        exact fun gone => zombie (unclaimed.1 gone)
    | owns locks => cases locks
    | unlocks unlocks => cases unlocks
  · cases gives with
    | joins known zombie found =>
        have live := h.findable_live found
        have other : next ≠ s.activeThr := by
          rintro rfl
          rw [Sys.queueInsert_queue, mem_put] at ready
          rcases ready with inside | ⟨same, _⟩
          · exact h.not_mem _ inside
          · cases same
        rw [answer_switched, if_neg other]
        exact ⟨fun hidden => (h.inMonitor_iff known live).mp hidden found, h.tidy.active,
          other.symm, savedCtx_save _ _⟩
    | blocks locks => cases locks

theorem Placed.join_goes_on (h : Placed s (some s.activeThr)) {hidden : Prop} {value : Option Ret}
    (state : JoinState s i target hidden value) (step : Step sched s e s') :
    JoinState s' i target hidden (value.or (answer i (s, e))) := by
  have tidy := h.tidy
  cases value with
  | some value =>
      rcases state with failed | ⟨rfl, seen, gone⟩
      · exact Or.inl failed
      · have known : target < s.count := gone.elim h.lt h.lt
        have outside : target ∉ s.queue .joinThrList := fun joining =>
          h.not_gone joining (by decide) gone
        refine Or.inr ⟨?_, seen, (step.gone tidy target).mpr (Or.inl gone)⟩
        rw [step.joinRet tidy known outside]
  | none =>
      obtain ⟨seen, known, idle, suspended⟩ := state
      have counted := Nat.lt_of_lt_of_le known (step.count_le tidy)
      have ctx := (step.savedCtx tidy known idle).trans suspended
      obtain ⟨caller, op, ending⟩ := e
      rw [Option.none_or]
      obtain ⟨rfl, ⟨value, rfl, returned⟩ | ⟨u, c, next, gives, ready, rfl, rfl⟩⟩ := step.cases tidy
      · rw [answer_returned, if_neg idle.symm]
        refine ⟨seen, counted, ?_, ctx⟩
        rwa [(h.returned returned).1]
      · by_cases same : next = i
        · subst same
          have ctx : ((u.save c).thread next).savedCtx = .join target := ctx
          have answered : (u.save c).resumed next =
              some (.join 0 (some ((u.save c).thread target).joinRet)) := by
            rw [Sys.resumed, ctx]
          rw [answer_switched, if_pos rfl, answered]
          refine Or.inr ⟨rfl, seen, ?_⟩
          rcases (h.gaveUp gives).joining ready ctx with ⟨other, _⟩ | ⟨_, gone⟩
          · cases other
          · simpa [Sys.Gone, withdraw] using gone
        · rw [answer_switched, if_neg same]
          exact ⟨seen, counted, fun running => same running.symm, ctx⟩

private theorem joinState_of_run {before after : List (Sys × Event)} {s₀ : Sys} {e₀ : Event}
    (run : Run (Traced sched) (sthreadUserInit malloc) (before ++ (s₀, e₀) :: after) s)
    (joins : e₀.op = .join target) (fresh : NotJoined before target) :
    JoinState s e₀.caller target (s₀.InMonitor target)
      (answerOf e₀.caller ((s₀, e₀) :: after)) := by
  generalize parts : before ++ (s₀, e₀) :: after = trace at run
  induction run generalizing after with
  | nil => simp at parts
  | snoc run next ih =>
      obtain ⟨rfl, step⟩ := next
      have placed := placed_of_run run
      rcases List.eq_nil_or_concat after with rfl | ⟨earlier, x, rfl⟩
      · obtain ⟨rfl, same⟩ := List.append_inj' parts rfl
        obtain rfl := List.singleton_inj.mp same
        rw [answerOf, List.findSome?_singleton]
        exact placed.join_starts (unclaimed_of_run run fresh) step joins
      · rw [List.concat_eq_append, ← List.cons_append, ← List.append_assoc] at parts
        obtain ⟨rfl, same⟩ := List.append_inj' parts rfl
        obtain rfl := List.singleton_inj.mp same
        rw [answerOf, List.concat_eq_append, ← List.cons_append, List.findSome?_append,
          List.findSome?_singleton]
        exact placed.join_goes_on (ih rfl) step

/-- The first `join` that finds a thread returns the value of its `exit` exactly when the thread was
not waiting for a mutex or in a monitor, and its own last `join` left it the same value. -/
theorem join_returns_value_iff {before after : List (Sys × Event)} {s₀ s₁ : Sys} {e₀ e₁ : Event}
    {ret : Nat} (run : Run (Traced sched) (sthreadUserInit malloc) (before ++ (s₀, e₀) :: after) s)
    (joins : e₀.op = .join target) (fresh : NotJoined before target)
    (exits : (s₁, e₁) ∈ before ++ (s₀, e₀) :: after) (caller : e₁.caller = target)
    (op : e₁.op = .exit ret) :
    (∀ value, answerOf e₀.caller ((s₀, e₀) :: after) = some value →
      (value = .join 0 (some ret) ↔ ¬ s₀.InMonitor target ∧ (s₁.thread target).joinRet = ret)) ∧
    (answerOf e₀.caller ((s₀, e₀) :: after) = none → e₀.caller ∈ s.queue .exeThrList) := by
  have placed := placed_of_run run
  have state := joinState_of_run run joins fresh
  subst caller
  have kept := joinRet_of_exit run exits op
  constructor
  · intro value answered
    rw [answered] at state
    rcases state with ⟨rfl, hidden⟩ | ⟨rfl, seen, _⟩
    · exact iff_of_false nofun fun also => also.1 hidden
    · rw [kept]
      simp [seen]
  · intro pending
    rw [pending] at state
    obtain ⟨_, known, idle, suspended⟩ := state
    have gone := (exited_iff_gone run _).mp ⟨_, exits, rfl, ret, op⟩
    obtain ⟨q, inside⟩ :=
      (placed.inside _).mpr ⟨known, fun same => idle (Option.some.inj same).symm⟩
    rcases placed.joining inside suspended with ⟨_, _, _, live⟩ | ⟨rfl, _⟩
    · exact absurd gone live
    · exact inside

/-- The main thread waits for thread 1, which waits for thread 2 and exits with the value that it
has got from it. -/
theorem join_returns_value_iff_seven :
    ∃ before s₀ e₀ after s,
      Run (Traced anyReady) (sthreadUserInit zeroThread) (before ++ (s₀, e₀) :: after) s ∧
      e₀.op = .join 1 ∧ answerOf e₀.caller ((s₀, e₀) :: after) = some (.join 0 (some 7)) := by
  have replayed : replay (sthreadUserInit zeroThread)
    [(.create 5 true, 0), (.create 5 true, 0), (.join 1, 1), (.join 2, 2), (.exit 7, 1),
      (.exit 7, 0)] = some ([_, _] ++ (_, _) :: [(_, _), (_, _), (_, _)], _) := rfl
  have run := run_of_replay replayed
  have exits {v w x y z t : Sys × Event} : t ∈ [v, w] ++ x :: [y, z, t] := by simp
  refine ⟨_, _, _, _, _, run, rfl,
    congrArg some (((join_returns_value_iff run rfl ?_ exits rfl rfl).1 _ rfl).mpr ⟨?_, rfl⟩)⟩
  · simp only [NotJoined, List.forall_mem_cons]
    exact ⟨nofun, nofun, fun _ none => (nomatch none)⟩
  · rintro (⟨m, inside⟩ | ⟨k, inside⟩) <;> cases inside

/-- Thread 1 exits with 7 after the main thread has called `join`, and before: the value is lost. -/
theorem exit_value_is_lost :
    (∃ s₀ s₁ s₂ s, Run (Traced anyReady) (sthreadUserInit zeroThread)
      [(s₀, ⟨0, .create 5 true, .returned (.thread (some 1))⟩),
        (s₁, ⟨0, .join 1, .switched 1 none⟩),
        (s₂, ⟨1, .exit 7, .switched 0 (some (.join 0 (some 0)))⟩)] s) ∧
    ∃ s₀ s₁ s₂ s₃ s, Run (Traced anyReady) (sthreadUserInit zeroThread)
      [(s₀, ⟨0, .create 5 true, .returned (.thread (some 1))⟩),
        (s₁, ⟨0, .yield, .switched 1 none⟩),
        (s₂, ⟨1, .exit 7, .switched 0 (some .void)⟩),
        (s₃, ⟨0, .join 1, .returned (.join 0 (some 0))⟩)] s := by
  have joinFirst : replay (sthreadUserInit zeroThread)
    [(.create 5 true, 0), (.join 1, 1), (.exit 7, 0)] = some (_, _) := rfl
  have exitFirst : replay (sthreadUserInit zeroThread)
    [(.create 5 true, 0), (.yield, 1), (.exit 7, 0), (.join 1, 0)] = some (_, _) := rfl
  exact ⟨⟨_, _, _, _, run_of_replay joinFirst⟩, ⟨_, _, _, _, _, run_of_replay exitFirst⟩⟩

end Snfs.Threads
