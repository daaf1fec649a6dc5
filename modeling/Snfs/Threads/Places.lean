import Snfs.Threads.Invariant

/-!
Where the threads are. `sthread_user_create` puts a new thread into a run queue of
`active_rq` and also into `exe_thr_list`, and nothing that goes on takes a thread
out of a run queue. So a created thread is in two places for as long as it has not
exited, or in one while it is the active thread; apart from the run queues every
thread is in one place.
-/

namespace Snfs.Threads

open Filing Runs

variable {s s' u : Sys} {sched : Scheduler} {malloc : Thread} {trace : List (Sys × Event)}
  {i : Nat} {e : Event}

/-- Where a thread can be that has not exited and is not running. -/
inductive Place where
  | activeRq (fila : Nat)
  | expiredRq (fila : Nat)
  | exeThrList
  | sleepThrList
  | joinThrList
  | mutex (lock : Mutex)
  | monitor (mon : Nat)
  deriving DecidableEq

def Sys.threadsAt (s : Sys) : Place → List Nat
  | .activeRq fila => s.activeRq fila
  | .expiredRq fila => s.expiredRq fila
  | .exeThrList => s.queue .exeThrList
  | .sleepThrList => s.queue .sleepThrList
  | .joinThrList => s.queue .joinThrList
  | .mutex lock => s.queue (.mutex lock)
  | .monitor mon => s.queue (.monitor mon)

/-- The thread is the active one and nowhere else, or it is in one place, once. -/
def Sys.InOnePlace (s : Sys) (i : Nat) : Prop :=
  (i = s.activeThr ∧ ∀ p, i ∉ s.threadsAt p) ∨
    (i ≠ s.activeThr ∧ ∃ p, (s.threadsAt p).count i = 1 ∧ ∀ p', p' ≠ p → i ∉ s.threadsAt p')

def Created (trace : List (Sys × Event)) (i : Nat) : Prop :=
  ∃ x ∈ trace, x.2.ending = .returned (.thread (some i))

/-- A created thread stays in its run queue. -/
structure Registered (s : Sys) : Prop where
  enters : ∀ i, 0 < i → i < s.count → ∃ fila, i ∈ s.activeRq fila
  main : ∀ fila, 0 ∉ s.activeRq fila
  expired : ∀ fila, s.expiredRq fila = []

def SameRunQueues (s s' : Sys) : Prop :=
  s'.count = s.count ∧ s'.activeRq = s.activeRq ∧ s'.expiredRq = s.expiredRq

theorem SameThreads.runQueues (h : SameThreads s s') : SameRunQueues s s' :=
  ⟨h.count, h.activeRq, h.expiredRq⟩

theorem GivesUp.sameRunQueues (h : Tidy s) {op : Op} {ctx : Ctx} (gives : GivesUp s op u ctx) :
    SameRunQueues s u := by
  cases gives with
  | yields | exits | joins | sleeps | blocks => exact ⟨rfl, rfl, rfl⟩
  | ticks =>
      rw [tick_eq h]
      exact ⟨rfl, rfl, rfl⟩
  | waits => exact (sameThreads_unlock _ _).runQueues

theorem Returns.runQueues {op : Op} {value : Ret} (returned : Returns s op value s') :
    (∃ priority, value = .thread (some s.count) ∧ s' = s.created priority) ∨
      ((∀ t, value ≠ .thread (some t)) ∧ SameRunQueues s s') := by
  cases returned with
  | idle _ other => exact Or.inr ⟨other, rfl, rfl, rfl⟩
  | @created priority => exact Or.inl ⟨priority, rfl, rfl⟩
  | nice | joined | notFound | owns => exact Or.inr ⟨nofun, rfl, rfl, rfl⟩
  | unlocks => exact Or.inr ⟨nofun, (sameThreads_unlock _ _).runQueues⟩
  | signals => exact Or.inr ⟨nofun, (sameThreads_signal _ _).runQueues⟩

theorem Registered.same (h : Registered s) (same : SameRunQueues s s') : Registered s' := by
  obtain ⟨count, active, expired⟩ := same
  refine ⟨fun i pos known => ?_, fun fila => ?_, fun fila => ?_⟩
  · rw [active]
    exact h.enters i pos (count ▸ known)
  · rw [active]
    exact h.main fila
  · rw [expired]
    exact h.expired fila

theorem Registered.create (h : Registered s) (tidy : Tidy s) (priority : Int) :
    Registered (s.created priority) := by
  refine ⟨fun i pos known => ?_, fun fila => ?_, h.expired⟩
  · rcases Nat.lt_succ_iff_lt_or_eq.mp known with known | rfl
    · obtain ⟨fila, inside⟩ := h.enters i pos known
      exact ⟨fila, mem_put.mpr (Or.inl inside)⟩
    · exact ⟨priority.toNat, mem_put.mpr (Or.inr ⟨rfl, rfl⟩)⟩
  · rw [Sys.created_activeRq, mem_put]
    rintro (inside | ⟨_, none⟩)
    · exact h.main fila inside
    · exact Nat.not_lt_zero _ (none ▸ tidy.active)

theorem Step.runQueues (h : Tidy s) (step : Step sched s e s') :
    (∃ priority, e.ending = .returned (.thread (some s.count)) ∧
      SameRunQueues (s.created priority) s') ∨
      ((∀ t, e.ending ≠ .returned (.thread (some t))) ∧ SameRunQueues s s') := by
  obtain ⟨_, ⟨value, ending, returned⟩ | ⟨u, ctx, t, gives, _, ending, rfl⟩⟩ := step.cases h
  · rw [ending]
    rcases returned.runQueues with ⟨priority, rfl, rfl⟩ | ⟨other, same⟩
    · exact Or.inl ⟨priority, rfl, rfl, rfl, rfl⟩
    · exact Or.inr ⟨fun t same => other t (Ending.returned.inj same), same⟩
  · have same : SameRunQueues s u := gives.sameRunQueues h
    rw [ending]
    exact Or.inr ⟨nofun, same⟩

theorem registered_of_run (run : Run (Traced sched) (sthreadUserInit malloc) trace s) :
    Registered s ∧ ∀ i, Created trace i ↔ 0 < i ∧ i < s.count := by
  induction run with
  | nil =>
      refine ⟨⟨fun i pos known => ?_, nofun, fun _ => rfl⟩, fun i => ?_⟩
      · exact absurd known (Nat.not_lt.mpr pos)
      · simp [Created, sthreadUserInit]
        omega
  | @snoc trace s s' x run next ih =>
      obtain ⟨registered, created⟩ := ih
      obtain ⟨rfl, step⟩ := next
      have tidy := (placed_of_run run).tidy
      have more (i : Nat) : Created (trace ++ [x]) i ↔
          Created trace i ∨ x.2.ending = .returned (.thread (some i)) := by
        simp only [Created, List.mem_append, List.mem_singleton, or_and_right, exists_or,
          exists_eq_left]
      rcases step.runQueues tidy with ⟨priority, ending, same⟩ | ⟨other, same⟩
      · refine ⟨(registered.create tidy priority).same same, fun i => ?_⟩
        rw [more, created, ending, same.1, Sys.created_count]
        have alive := tidy.active
        simp only [Ending.returned.injEq, Ret.thread.injEq, Option.some.injEq]
        omega
      · refine ⟨registered.same same, fun i => ?_⟩
        rw [more, created, or_iff_left (other i), same.1]

def Place.queue? : Place → Option Queue
  | .activeRq _ | .expiredRq _ => none
  | .exeThrList => some .exeThrList
  | .sleepThrList => some .sleepThrList
  | .joinThrList => some .joinThrList
  | .mutex lock => some (.mutex lock)
  | .monitor mon => some (.monitor mon)

theorem Place.threadsAt_eq {p : Place} {q : Queue} (h : p.queue? = some q) (s : Sys) :
    s.threadsAt p = s.queue q := by
  cases p <;> cases h <;> rfl

theorem Place.ext_queue {p p' : Place} {q : Queue} (h : p.queue? = some q)
    (h' : p'.queue? = some q) : p = p' := by
  cases p <;> cases h <;> cases p' <;> cases h' <;> rfl

private theorem exists_place {q : Queue} (live : q ≠ .zombieThrList ∧ q ≠ .deadThrList) :
    ∃ p : Place, p.queue? = some q := by
  cases q with
  | exeThrList => exact ⟨.exeThrList, rfl⟩
  | sleepThrList => exact ⟨.sleepThrList, rfl⟩
  | joinThrList => exact ⟨.joinThrList, rfl⟩
  | mutex lock => exact ⟨.mutex lock, rfl⟩
  | monitor mon => exact ⟨.monitor mon, rfl⟩
  | zombieThrList => exact absurd rfl live.1
  | deadThrList => exact absurd rfl live.2

def Sys.InOneQueue (s : Sys) (i : Nat) : Prop :=
  (i = s.activeThr ∧ ∀ p : Place, p.queue? ≠ none → i ∉ s.threadsAt p) ∨
    (i ≠ s.activeThr ∧ ∃ p : Place, p.queue? ≠ none ∧ (s.threadsAt p).count i = 1 ∧
      ∀ p' : Place, p'.queue? ≠ none → p' ≠ p → i ∉ s.threadsAt p')

theorem Placed.inOneQueue (h : Placed s (some s.activeThr)) (known : i < s.count)
    (live : ¬ s.Gone i) : s.InOneQueue i := by
  by_cases active : i = s.activeThr
  · refine Or.inl ⟨active, fun p some => ?_⟩
    obtain ⟨q, named⟩ := Option.ne_none_iff_exists'.mp some
    rw [Place.threadsAt_eq named, active]
    exact h.not_mem q
  · obtain ⟨q, inside⟩ := (h.inside i).mpr ⟨known, fun same => active (Option.some.inj same).symm⟩
    have apart : q ≠ .zombieThrList ∧ q ≠ .deadThrList := by
      refine ⟨?_, ?_⟩ <;> rintro rfl
      · exact live (Or.inl inside)
      · exact live (Or.inr inside)
    obtain ⟨p, named⟩ := exists_place apart
    have member := Place.threadsAt_eq named s
    refine Or.inr ⟨active, p, by rw [named]; exact Option.some_ne_none q, ?_, fun p' some other => ?_⟩
    · rw [member]
      exact h.filed.count_eq_one inside
    · obtain ⟨q', named'⟩ := Option.ne_none_iff_exists'.mp some
      rw [Place.threadsAt_eq named']
      intro also
      exact other (Place.ext_queue named' (h.filed.unique inside also ▸ named))

/-- Under any scheduler, every thread that has not exited is in one place exactly when every
thread that `sthread_user_create` has made has exited; apart from the run queues each of them
always is. -/
theorem every_thread_in_one_place_iff
    (run : Run (Traced sched) (sthreadUserInit malloc) trace s) :
    ((∀ i, (i = 0 ∨ Created trace i) → ¬ Exited trace i → s.InOnePlace i) ↔
        ∀ i, Created trace i → Exited trace i) ∧
      ∀ i, (i = 0 ∨ Created trace i) → ¬ Exited trace i → s.InOneQueue i := by
  have placed := placed_of_run run
  obtain ⟨registered, created⟩ := registered_of_run run
  have exited := exited_iff_gone run
  have alive : 0 < s.count := Nat.lt_of_le_of_lt (Nat.zero_le _) placed.tidy.active
  have oneQueue : ∀ i, (i = 0 ∨ Created trace i) → ¬ Exited trace i → s.InOneQueue i := by
    intro i known stays
    rw [exited] at stays
    rcases known with rfl | new
    · exact placed.inOneQueue alive stays
    · exact placed.inOneQueue ((created i).mp new).2 stays
  refine ⟨?_, oneQueue⟩
  constructor
  · intro one i new
    by_contra stays
    obtain ⟨pos, known⟩ := (created i).mp new
    obtain ⟨fila, inside⟩ := registered.enters i pos known
    rcases one i (Or.inr new) stays with ⟨_, nowhere⟩ | ⟨waits, p, _, only⟩
    · exact nowhere (.activeRq fila) inside
    · rcases oneQueue i (Or.inr new) stays with ⟨runs, _⟩ | ⟨_, p', some, once, _⟩
      · exact waits runs
      · have there : i ∈ s.threadsAt p' := List.count_pos_iff.mp (by rw [once]; exact Nat.one_pos)
        have first : .activeRq fila = p := by_contra fun other => only _ other inside
        have second : p' = p := by_contra fun other => only _ other there
        rw [second, ← first] at some
        exact some rfl
  · rintro gone i known stays
    obtain rfl : i = 0 := known.resolve_right fun new => stays (gone i new)
    have outside (p : Place) (none : p.queue? = none) : 0 ∉ s.threadsAt p := by
      cases p with
      | activeRq fila => exact registered.main fila
      | expiredRq fila =>
          rw [Sys.threadsAt, registered.expired]
          exact List.not_mem_nil
      | _ => cases none
    rcases oneQueue 0 (Or.inl rfl) stays with ⟨runs, nowhere⟩ | ⟨waits, p, some, once, only⟩
    · refine Or.inl ⟨runs, fun p => ?_⟩
      by_cases none : p.queue? = none
      · exact outside p none
      · exact nowhere p none
    · refine Or.inr ⟨waits, p, once, fun p' other => ?_⟩
      by_cases none : p'.queue? = none
      · exact outside p' none
      · exact only p' none other

/-- The main thread creates one, which exits. -/
theorem every_thread_in_one_place_iff_after_exit :
    ∃ trace s, Run (Traced anyReady) (sthreadUserInit zeroThread) trace s ∧ Created trace 1 ∧
      ∀ i, (i = 0 ∨ Created trace i) → ¬ Exited trace i → s.InOnePlace i := by
  have replayed : replay (sthreadUserInit zeroThread)
    [(.create 5 true, 0), (.yield, 1), (.exit 3, 0)] = some (_, _) := rfl
  refine ⟨_, _, run_of_replay replayed, ?_, ?_⟩
  · exact ⟨_, List.mem_cons_self, rfl⟩
  · refine (every_thread_in_one_place_iff (run_of_replay replayed)).1.mpr ?_
    rintro i ⟨x, member, ending⟩
    simp only [List.mem_cons, List.not_mem_nil, or_false] at member
    rcases member with rfl | rfl | rfl
    · obtain rfl : 1 = i := Option.some.inj (Ret.thread.inj (Ending.returned.inj ending))
      exact ⟨_, List.mem_cons_of_mem _ (List.mem_cons_of_mem _ List.mem_cons_self), rfl, 3, rfl⟩
    · cases ending
    · cases ending

/-- A new thread is in a run queue and in `exe_thr_list`. -/
theorem created_thread_is_queued_twice :
    ∃ trace s, Run (Traced ownScheduler) (sthreadUserInit zeroThread) trace s ∧
      Created trace 1 ∧ ¬ Exited trace 1 ∧ ¬ s.InOnePlace 1 := by
  have step : Step ownScheduler (sthreadUserInit zeroThread)
      ⟨0, .create 5 true, .returned (.thread (some 1))⟩ ((sthreadUserInit zeroThread).created 5) :=
    .returned ((sthreadUserCreate_eq _ 5 true).trans (if_neg (by decide)))
  have run : Run (Traced ownScheduler) (sthreadUserInit zeroThread) [(_, _)] _ :=
    Run.nil.snoc ⟨rfl, step⟩
  refine ⟨_, _, run, ⟨_, List.mem_singleton_self _, rfl⟩, ?_, ?_⟩
  · rintro ⟨x, member, same, ret, exits⟩
    obtain rfl := List.mem_singleton.mp member
    cases exits
  · rintro (⟨active, _⟩ | ⟨_, p, _, only⟩)
    · cases active
    · have first : .activeRq 5 = p := by_contra fun other => only _ other List.mem_cons_self
      have second : .exeThrList = p := by_contra fun other => only _ other List.mem_cons_self
      cases first.trans second.symm

end Snfs.Threads
