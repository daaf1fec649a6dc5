import Snfs.Threads.Joining
import Snfs.Threads.Places

/-!
What a thread sees of the others: nothing. A call in which it gives up the processor returns
as any other call does, with a value that the call may return, however many steps the others
have taken; and a thread runs only from when it has been created until it exits.
-/

namespace Snfs.Threads

open Filing Runs

variable {s s' u : Sys} {sched : Scheduler} {malloc : Thread} {before trace : List (Sys × Event)}
  {x : Sys × Event} {i t : Nat} {e : Event} {op : Op} {ctx : Ctx}

def Event.next (e : Event) : Nat :=
  match e.ending with
  | .returned _ => e.caller
  | .switched t _ => t

def running (trace : List (Sys × Event)) : Nat :=
  match trace.getLast? with
  | none => 0
  | some x => x.2.next

/-- Where a call saves the context. -/
def Op.Saves : Op → Ctx → Prop
  | .yield, .yield | .dispatcher, .yield | .exit _, .exit | .sleep _, .sleep => True
  | .join t, .join t' => t = t'
  | .lock m, .lock m' => m = m'
  | .enter mon, .lock m => m = .mon mon
  | .wait mon, .wait mon' => mon = mon'
  | _, _ => False

/-- What a call returns that has given up the processor. -/
def Op.MayReturn : Op → Ret → Prop
  | .yield, .void | .dispatcher, .void | .lock _, .void | .enter _, .void | .wait _, .void => True
  | .sleep _, .int value => value = 0
  | .join _, .join value ptr => value = 0 ∧ ptr.isSome
  | _, _ => False

/-- The last step of the thread is the call, in which it gave up the processor. -/
def Suspended (trace : List (Sys × Event)) (i : Nat) (op : Op) : Prop :=
  ∃ before x after, trace = before ++ x :: after ∧ x.2.caller = i ∧ x.2.op = op ∧
    (∃ t value, x.2.ending = .switched t value) ∧ ∀ y ∈ after, y.2.caller ≠ i

/-- A thread that has not called anything yet is at its start, and any other is where its last
call has left it. -/
def Viewed (trace : List (Sys × Event)) (s : Sys) (i : Nat) : Prop :=
  ((s.thread i).savedCtx = .start ∧ ∀ x ∈ trace, x.2.caller ≠ i) ∨
    ∃ op, Suspended trace i op ∧ op.Saves (s.thread i).savedCtx

/-- The step is one of the thread that the steps before it have left running, which has not
exited. The thread that goes on has been created and has not exited. If another call returns
to it, that is the one in which it gave up the processor, and else it starts. -/
structure InTurn (before : List (Sys × Event)) (x : Sys × Event) : Prop where
  caller : x.2.caller = running before
  alive : ¬ Exited before x.2.caller
  next : ¬ Exited (before ++ [x]) x.2.next ∧ (x.2.next = 0 ∨ Created before x.2.next)
  resumed : ∀ t value, x.2.ending = .switched t value →
    (value = none ∧ ∀ y ∈ before ++ [x], y.2.caller ≠ t) ∨
      ∃ op ret, value = some ret ∧ Suspended (before ++ [x]) t op ∧ op.MayReturn ret

theorem Suspended.snoc (suspended : Suspended trace i op) (other : x.2.caller ≠ i) :
    Suspended (trace ++ [x]) i op := by
  obtain ⟨before, y, after, rfl, caller, call, gave, quiet⟩ := suspended
  refine ⟨before, y, after ++ [x], by simp, caller, call, gave, fun z member => ?_⟩
  rcases List.mem_append.mp member with member | last
  · exact quiet z member
  · rwa [List.mem_singleton.mp last]

private theorem suspended_last (trace : List (Sys × Event)) {value : Option Ret}
    (ending : x.2.ending = .switched t value) : Suspended (trace ++ [x]) x.2.caller x.2.op :=
  ⟨trace, x, [], rfl, rfl, rfl, ⟨t, value, ending⟩, fun _ none => by cases none⟩

theorem Viewed.snoc (viewed : Viewed trace s i) (other : x.2.caller ≠ i)
    (same : (s'.thread i).savedCtx = (s.thread i).savedCtx) : Viewed (trace ++ [x]) s' i := by
  rcases viewed with ⟨start, silent⟩ | ⟨op, suspended, saves⟩
  · refine .inl ⟨same.trans start, fun y member => ?_⟩
    rcases List.mem_append.mp member with member | last
    · exact silent y member
    · rwa [List.mem_singleton.mp last]
  · exact .inr ⟨op, suspended.snoc other, by rwa [same]⟩

theorem GivesUp.saves (gives : GivesUp s op u ctx) : op.Saves ctx := by
  cases gives with
  | yields | ticks | exits | sleeps => trivial
  | joins | waits => exact rfl
  | blocks locks => cases op <;> cases locks <;> exact rfl

theorem GivesUp.count (h : Tidy s) (gives : GivesUp s op u ctx) : u.count = s.count := by
  cases gives with
  | yields | exits | joins | sleeps | blocks => rfl
  | ticks =>
      rw [tick_eq h]
      rfl
  | waits => exact (sameThreads_unlock _ _).count

theorem GivesUp.viewed (h : Tidy s) (gives : GivesUp s e.op u ctx)
    (views : ∀ i < s.count, i ≠ s.activeThr → Viewed trace s i) (caller : e.caller = s.activeThr)
    {value : Option Ret} (ending : e.ending = .switched t value) (known : i < s.count) :
    Viewed (trace ++ [(s, e)]) (u.save ctx) i := by
  have active := gives.activeThr h
  by_cases self : i = s.activeThr
  · obtain rfl : i = e.caller := self.trans caller.symm
    refine .inr ⟨e.op, suspended_last (x := (s, e)) trace ending, ?_⟩
    rw [caller, ← active, savedCtx_save]
    exact gives.saves
  · refine (views i known self).snoc (fun same => self (same.symm.trans caller)) ?_
    rw [← (gives.kept h i).1]
    simp [Sys.save, active, self]

/-- A call that returns leaves every thread where it is, and the new one at its start. -/
theorem Returns.viewed {value : Ret} (returned : Returns s e.op value s')
    (views : ∀ i < s.count, i ≠ s.activeThr → Viewed trace s i) (caller : e.caller = s.activeThr)
    (callers : ∀ x ∈ trace, x.2.caller < s.count) (active : s.activeThr < s.count)
    (known : i < s'.count) (other : i ≠ s.activeThr) : Viewed (trace ++ [(s, e)]) s' i := by
  by_cases old : i < s.count
  · exact (views i old other).snoc (fun same => other (same.symm.trans caller))
      (returned.kept old).1
  rcases returned.runQueues with ⟨priority, -, rfl⟩ | ⟨-, same⟩
  · obtain rfl : i = s.count := by
      rw [Sys.created_count] at known
      omega
    refine .inl ⟨by simp, fun y member => ?_⟩
    rcases List.mem_append.mp member with member | last
    · exact Nat.ne_of_lt (callers y member)
    · rw [List.mem_singleton.mp last, caller]
      exact Nat.ne_of_lt active
  · rw [same.1] at known
    exact absurd known old

private theorem views_of_run (run : Run (Traced sched) (sthreadUserInit malloc) trace s) :
    (∀ x ∈ trace, x.2.caller < s.count) ∧
      ∀ i < s.count, i ≠ s.activeThr → Viewed trace s i := by
  induction run with
  | nil =>
      refine ⟨List.forall_mem_nil _, fun i known other => ?_⟩
      exact absurd (Nat.lt_one_iff.mp known) other
  | @snoc trace s s' x run next ih =>
      obtain ⟨callers, views⟩ := ih
      obtain ⟨s₀, e⟩ := x
      obtain ⟨same, step⟩ := next
      obtain rfl : s₀ = s := same
      have tidy := (placed_of_run run).tidy
      have more := step.count_le tidy
      obtain ⟨caller, ends⟩ := step.cases tidy
      refine ⟨fun x member => Nat.lt_of_lt_of_le ?_ more, fun i known other => ?_⟩
      · rcases List.mem_append.mp member with member | last
        · exact callers x member
        · rw [List.mem_singleton.mp last, caller]
          exact tidy.active
      · rcases ends with ⟨value, ending, returned⟩ | ⟨u, ctx, t, gives, -, ending, rfl⟩
        · rw [((placed_of_run run).returned returned).1] at other
          exact returned.viewed views caller callers tidy.active known other
        · rw [show ((u.save ctx).resume t).count = u.count from rfl, gives.count tidy] at known
          exact gives.viewed tidy views caller ending known

theorem Event.next_of_step (h : Placed s (some s.activeThr)) (step : Step sched s e s') :
    e.next = s'.activeThr := by
  obtain ⟨caller, ⟨value, ending, returned⟩ | ⟨u, ctx, t, -, -, ending, rfl⟩⟩ := step.cases h.tidy
  · rw [Event.next, ending, (h.returned returned).1]
    exact caller
  · rw [Event.next, ending]
    rfl

private theorem running_of_run (run : Run (Traced sched) (sthreadUserInit malloc) trace s) :
    running trace = s.activeThr := by
  cases run with
  | nil => rfl
  | snoc run next =>
      obtain ⟨rfl, step⟩ := next
      rw [running, List.getLast?_concat]
      exact Event.next_of_step (placed_of_run run) step

/-- The active thread has been created and has not exited. -/
theorem active_of_run (run : Run (Traced sched) (sthreadUserInit malloc) trace s) :
    ¬ Exited trace s.activeThr ∧ (s.activeThr = 0 ∨ Created trace s.activeThr) := by
  have placed := placed_of_run run
  refine ⟨fun exited => ?_, ?_⟩
  · rw [exited_iff_gone run] at exited
    exact exited.elim (placed.not_mem _) (placed.not_mem _)
  · rw [(registered_of_run run).2]
    exact (Nat.eq_zero_or_pos _).imp_right fun pos => ⟨pos, placed.tidy.active⟩

/-- A call that goes on from the context that it has saved returns a value that it may return. -/
theorem Op.Saves.mayReturn (saves : op.Saves ctx) (goesOn : ctx ≠ .exit) {p : Nat} :
    match ctx with
    | .blank | .start => False
    | .yield | .exit | .lock _ | .wait _ => op.MayReturn .void
    | .sleep => op.MayReturn (.int 0)
    | .join _ => op.MayReturn (.join 0 (some p)) := by
  cases op <;> cases ctx <;>
    first | exact saves.elim | exact absurd rfl goesOn | trivial

theorem Viewed.resumed (viewed : Viewed trace s t) (placed : Placed s none)
    (ready : t ∈ s.queue .exeThrList) :
    (s.resumed t = none ∧ ∀ y ∈ trace, y.2.caller ≠ t) ∨
      ∃ op ret, s.resumed t = some ret ∧ Suspended trace t op ∧ op.MayReturn ret := by
  rcases viewed with ⟨start, silent⟩ | ⟨op, suspended, saves⟩
  · exact .inl ⟨by rw [Sys.resumed, start], silent⟩
  have fits : s.Ready t (s.thread t).savedCtx := placed.fits .exeThrList t ready
  have goesOn : (s.thread t).savedCtx ≠ .exit := fun exit => by
    rw [exit] at fits
    exact fits
  refine .inr ⟨op, ?_⟩
  rw [Sys.resumed]
  cases point : (s.thread t).savedCtx with
  | blank | start =>
      rw [point] at saves goesOn
      exact (saves.mayReturn goesOn (p := 0)).elim
  | exit => exact absurd point goesOn
  | yield | lock | wait | sleep =>
      rw [point] at saves goesOn
      exact ⟨_, rfl, suspended, saves.mayReturn goesOn (p := 0)⟩
  | join target =>
      rw [point] at saves goesOn
      exact ⟨_, rfl, suspended, saves.mayReturn goesOn⟩

private theorem inTurn_of_step (run : Run (Traced sched) (sthreadUserInit malloc) before s)
    (step : Step sched s e s') : InTurn before (s, e) := by
  have placed := placed_of_run run
  have tidy := placed.tidy
  have now := active_of_run run
  obtain ⟨stays, known⟩ := active_of_run (run.snoc (e := (s, e)) ⟨rfl, step⟩)
  have goesOn : e.next = s'.activeThr := Event.next_of_step placed step
  obtain ⟨caller, ends⟩ := step.cases tidy
  refine ⟨caller.trans (running_of_run run).symm, caller ▸ now.1, ⟨goesOn ▸ stays, ?_⟩, ?_⟩
  · rcases ends with ⟨value, ending, -⟩ | ⟨u, ctx, t, -, -, ending, -⟩
    · have same : e.next = s.activeThr := by rw [Event.next, ending, caller]
      rw [same]
      exact now.2
    · rw [goesOn]
      refine known.imp_right fun ⟨y, member, created⟩ => ⟨y, ?_, created⟩
      refine (List.mem_append.mp member).resolve_right fun last => ?_
      rw [List.mem_singleton.mp last, ending] at created
      cases created
  · rcases ends with ⟨value, ending, -⟩ | ⟨u, ctx, t, gives, ready, ending, rfl⟩
    · intro t value' switched
      cases ending.symm.trans switched
    · rintro t' value switched
      cases ending.symm.trans switched
      have known : t < s.count := gives.count tidy ▸ (placed.gaveUp gives).lt ready
      have viewed := gives.viewed tidy (views_of_run run).2 caller ending known
      exact viewed.resumed (placed.gaveUp gives) ready

/-- Under any scheduler that resumes threads of `exe_thr_list`: a thread runs only from when it has
been created until it exits, and a call in which it gives up the processor returns to it before
it does anything else. -/
theorem threads_run_in_turn {after : List (Sys × Event)}
    (run : Run (Traced sched) (sthreadUserInit malloc) (before ++ x :: after) s) :
    InTurn before x := by
  obtain ⟨s₁, s₂, first, same, step⟩ := run.split
  obtain ⟨s₀, e⟩ := x
  obtain rfl : s₀ = s₁ := same
  exact inTurn_of_step first step

/-- The main thread yields to one that exits, and goes on. -/
theorem threads_run_in_turn_after_exit : ∃ before x s,
    Run (Traced anyReady) (sthreadUserInit zeroThread) (before ++ x :: []) s ∧
      x.2 = ⟨1, .exit 3, .switched 0 (some .void)⟩ ∧ InTurn before x := by
  have replayed : replay (sthreadUserInit zeroThread)
    [(.create 5 true, 0), (.yield, 1), (.exit 3, 0)] = some ([_, _] ++ _ :: [], _) := rfl
  exact ⟨_, _, _, run_of_replay replayed, rfl, threads_run_in_turn (run_of_replay replayed)⟩

end Snfs.Threads
