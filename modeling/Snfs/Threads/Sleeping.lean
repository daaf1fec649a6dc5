import Snfs.Threads.Invariant
import Mathlib.Data.List.Dedup
import Mathlib.Tactic.NormNum

/-!
Sleeping. `sthread_user_sleep` computes the wake time from the argument and the
clock, and each tick of the dispatcher wakes those whose wake time the clock has
reached. A negative time, or a time that takes the clock past the largest `long`,
can put the wake time at or behind the clock, where no tick finds it.
-/

namespace Snfs.Threads

open Filing Runs

variable {s s' u : Sys} {sched : Scheduler} {malloc : Thread} {trace : List (Sys × Event)}
  {i : Nat} {e : Event}

private theorem concat_sublist_dedup {α : Type} [DecidableEq α] {a : α} {l : List α} {sl : List α}
    (h : sl.Sublist l.dedup) (new : a ∉ sl) : (sl ++ [a]).Sublist (l ++ [a]).dedup := by
  induction l generalizing sl with
  | nil =>
      obtain rfl : sl = [] := List.sublist_nil.mp h
      simp
  | cons b l ih =>
      by_cases again : b ∈ l
      · rw [List.dedup_cons_of_mem again] at h
        rw [List.cons_append, List.dedup_cons_of_mem (List.mem_append_left _ again)]
        exact ih h new
      · rw [List.dedup_cons_of_notMem again] at h
        cases h with
        | cons _ shorter =>
            refine (ih shorter new).trans ?_
            by_cases last : b ∈ l ++ [a]
            · rw [List.cons_append, List.dedup_cons_of_mem last]
            · rw [List.cons_append, List.dedup_cons_of_notMem last]
              exact List.sublist_cons_self _ _
        | cons_cons _ shorter =>
            rename_i sl
            have other : b ≠ a := fun same => new (same ▸ List.mem_cons_self)
            have last : b ∉ l ++ [a] := by
              simp [again, other]
            rw [List.cons_append, List.cons_append, List.dedup_cons_of_notMem last]
            exact (ih shorter fun inside => new (List.mem_cons_of_mem _ inside)).cons_cons b

theorem wrap_eq (x : Int) :
    wrap x = if x % 2 ^ 32 < 2 ^ 31 then x % 2 ^ 32 else x % 2 ^ 32 - 2 ^ 32 := by
  unfold wrap
  rw [Int.bmod_def]
  norm_num

private theorem wrap_range (x : Int) : -2 ^ 31 ≤ wrap x ∧ wrap x < 2 ^ 31 := by
  rw [wrap_eq]
  split <;> omega

/-- The wake time is ahead of the clock: a positive number of ticks does not take the clock past
the end of a `long`, and a negative one takes it past the other end. -/
def NapFits (clock : Int) (time : Int) : Prop :=
  if numTicks time < 0 then clock + numTicks time < -2 ^ 31 else clock + numTicks time < 2 ^ 31

private theorem numTicks_range (time : Int) :
    -214748364 ≤ numTicks time ∧ numTicks time ≤ 214748364 := by
  have range := wrap_range time
  have ten : clockTick / 10 = 10 := rfl
  rw [numTicks, ten]
  rcases Int.le_total 0 (wrap time) with pos | neg
  · rw [Int.tdiv_eq_ediv_of_nonneg pos]
    omega
  · rw [← Int.neg_neg (wrap _), Int.neg_tdiv,
      Int.tdiv_eq_ediv_of_nonneg (Int.neg_nonneg_of_nonpos neg)]
    omega

private theorem napFits_iff {clock time : Int} (range : -2 ^ 31 ≤ clock ∧ clock < 2 ^ 31)
    (some : numTicks time ≠ 0) : clock < wrap (clock + numTicks time) ↔ NapFits clock time := by
  have ticks := numTicks_range time
  rw [wrap_eq]
  unfold NapFits
  split <;> split <;> omega

private theorem lt_of_tick {clock wake : Int} (range : -2 ^ 31 ≤ clock) (ahead : clock < wake)
    (other : wake ≠ wrap (clock + 1)) : wrap (clock + 1) < wake := by
  rw [wrap_eq] at other ⊢
  split <;> rename_i fits <;> simp only [fits, if_true, if_false] at other <;> omega

def StillAsleep (s s' : Sys) (list : List Nat) : Prop :=
  ∀ i ∈ list, (s'.thread i).wakeTime = (s.thread i).wakeTime

inductive SleepStep (s : Sys) (e : Event) (s' : Sys) : Prop where
  | still : (∀ time, e.op = .sleep time → numTicks time = 0) → e.op ≠ .dispatcher →
      s'.queue .sleepThrList = s.queue .sleepThrList → s'.clock = s.clock →
      StillAsleep s s' (s.queue .sleepThrList) → SleepStep s e s'
  | sleeps {time} : e.op = .sleep time → numTicks time ≠ 0 →
      s'.queue .sleepThrList = s.queue .sleepThrList ++ [e.caller] → s'.clock = s.clock →
      (s'.thread e.caller).wakeTime = wrap (s.clock + numTicks time) →
      StillAsleep s s' (s.queue .sleepThrList) → SleepStep s e s'
  | ticks : e.op = .dispatcher →
      s'.queue .sleepThrList = (s.queue .sleepThrList).filter
        (fun i => (s.thread i).wakeTime ≠ wrap (s.clock + 1)) →
      s'.clock = wrap (s.clock + 1) → StillAsleep s s' (s'.queue .sleepThrList) →
      SleepStep s e s'

private theorem wakeTime_resume (ctx : Ctx) (t i : Nat) :
    (((u.save ctx).resume t).thread i).wakeTime = (u.thread i).wakeTime :=
  u.save_field Thread.wakeTime (fun _ => rfl) i

private theorem queue_resume {q : Queue} (ctx : Ctx) (t : Nat) (other : q ≠ .exeThrList) :
    ((u.save ctx).resume t).queue q = u.queue q := by
  simp [Sys.save, withdraw, other]

theorem Returns.sleepers (h : Placed s (some s.activeThr)) {op : Op} {value : Ret}
    (returned : Returns s op value s') : s'.queue .sleepThrList = s.queue .sleepThrList ∧
      s'.clock = s.clock ∧ StillAsleep s s' (s.queue .sleepThrList) := by
  cases returned with
  | idle | notFound | owns => exact ⟨rfl, rfl, fun _ _ => rfl⟩
  | created =>
      refine ⟨by simp [put], rfl, fun i inside => ?_⟩
      have old : i ≠ s.count := Nat.ne_of_lt (h.lt inside)
      simp [old]
  | nice =>
      refine ⟨rfl, rfl, fun i inside => ?_⟩
      have apart : i ≠ s.activeThr := fun same => h.not_mem _ (same ▸ inside)
      simp [apart]
  | joined =>
      exact ⟨by simp [pour], rfl,
        fun i _ => s.poured_field Thread.wakeTime id (fun _ => rfl) _ _ _ i⟩
  | unlocks =>
      have same := sameThreads_unlock s
      exact ⟨queue_unlock s trivial, (same _).clock, fun i _ => by rw [(same _).thread]⟩
  | signals =>
      have same := sameThreads_signal s
      exact ⟨queue_signal s trivial, (same _).clock, fun i _ => by rw [(same _).thread]⟩

theorem Placed.sleepStep (h : Placed s (some s.activeThr)) (step : Step sched s e s') :
    SleepStep s e s' := by
  have awake : s.activeThr ∉ s.queue .sleepThrList := h.not_mem _
  obtain ⟨caller, op, ending⟩ := e
  obtain ⟨rfl, ⟨value, _, returned⟩ | ⟨u, ctx, t, gives, _, _, rfl⟩⟩ := step.cases h.tidy
  · have quiet : (∀ time, op = .sleep time → numTicks time = 0) ∧ op ≠ .dispatcher := by
      refine ⟨?_, ?_⟩ <;> [rintro time rfl; rintro rfl] <;> cases returned with
      | idle idle => exact idle
      | owns locks => cases locks
      | unlocks unlocks => cases unlocks
    obtain ⟨queue, clock, asleep⟩ := returned.sleepers h
    exact .still quiet.1 quiet.2 queue clock asleep
  · have wakeTime (i : Nat) := wakeTime_resume (u := u) ctx t i
    have queue := queue_resume (u := u) (q := .sleepThrList) ctx t (by simp)
    cases gives with
    | yields =>
        refine .still (by simp) (by simp) ?_ rfl fun i _ => wakeTime i
        rw [queue]
        simp [put]
    | ticks =>
        refine .ticks rfl ?_ ?_ ?_
        · rw [queue, tick_eq h.tidy]
          simp [put, pour]
        · rw [tick_eq h.tidy]
          rfl
        · intro i inside
          rw [wakeTime]
          rw [queue, tick_eq h.tidy] at inside
          have stays : (s.thread i).wakeTime ≠ wrap (s.clock + 1) := by
            simp [put, pour] at inside
            exact inside.2
          rw [tick_eq h.tidy]
          simp [stays]
    | exits =>
        refine .still (by simp) (by simp) ?_ rfl fun i _ => ?_
        · rw [queue]
          unfold Sys.exited
          split <;> simp [put, pour]
        · rw [wakeTime]
          exact s.exited_field Thread.wakeTime (fun _ => rfl) i
    | joins =>
        refine .still (by simp) (by simp) ?_ rfl fun i inside => ?_
        · rw [queue]
          simp [put]
        · have apart : i ≠ s.activeThr := fun same => awake (same ▸ inside)
          rw [wakeTime]
          simp [apart]
    | sleeps some =>
        refine .sleeps rfl some ?_ rfl ?_ fun i inside => ?_
        · rw [queue]
          simp [put]
        · rw [wakeTime]
          simp
        · have apart : i ≠ s.activeThr := fun same => awake (same ▸ inside)
          rw [wakeTime]
          simp [apart]
    | blocks locks =>
        refine .still ?_ ?_ ?_ rfl fun i _ => wakeTime i
        · rintro time rfl
          cases locks
        · rintro rfl
          cases locks
        · rw [queue]
          simp [put]
    | @waits k =>
        have same := sameThreads_unlock (s.queueInsert (.monitor k) s.activeThr) (.mon k)
        refine .still (by simp) (by simp) ?_ same.clock fun i _ => ?_
        · rw [queue, queue_unlock (q := .sleepThrList) _ trivial]
          simp [put]
        · rw [wakeTime, same.thread]
          rfl

def napper (x : Sys × Event) : Option Nat :=
  match x.2.op with
  | .sleep time => if numTicks time = 0 then none else some x.2.caller
  | _ => none

def wentToSleep (trace : List (Sys × Event)) : List Nat := trace.filterMap napper

private theorem napper_eq_none {x : Sys × Event}
    (h : ∀ time, x.2.op = .sleep time → numTicks time = 0) :
    napper x = none := by
  unfold napper
  split
  · rename_i time op
    exact if_pos (h time op)
  · rfl

private theorem napper_eq_some {x : Sys × Event} {time : Int} (op : x.2.op = .sleep time)
    (some : numTicks time ≠ 0) : napper x = x.2.caller := by
  unfold napper
  rw [op]
  exact if_neg some

private theorem wentToSleep_concat (trace : List (Sys × Event)) (x : Sys × Event) :
    wentToSleep (trace ++ [x]) = wentToSleep trace ++ (napper x).toList := by
  rw [wentToSleep, List.filterMap_append]
  cases napped : napper x <;> simp [wentToSleep, napped]

/-- No sleeper is missed: their wake times are ahead of the clock in every state, they stay asleep
until the tick at which the clock shows their wake time, and are then put on `exe_thr_list` in the
order in which they last went to sleep. -/
structure SleepersWake (sched : Scheduler) (trace : List (Sys × Event)) (s : Sys) : Prop where
  ahead : ∀ s₁ ∈ trace.map Prod.fst ++ [s], ∀ i ∈ s₁.queue .sleepThrList,
    s₁.clock < (s₁.thread i).wakeTime
  stays : ∀ e s' i, Step sched s e s' → i ∈ s.queue .sleepThrList →
    ¬ (e.op = .dispatcher ∧ s'.clock = (s.thread i).wakeTime) →
    i ∈ s'.queue .sleepThrList ∧ (s'.thread i).wakeTime = (s.thread i).wakeTime
  wakes : (tick s).queue .exeThrList = s.queue .exeThrList ++
      (s.queue .sleepThrList).filter (fun i => (s.thread i).wakeTime = (tick s).clock) ∧
    (tick s).queue .sleepThrList =
      (s.queue .sleepThrList).filter fun i => (s.thread i).wakeTime ≠ (tick s).clock
  inOrder : (s.queue .sleepThrList).Sublist (wentToSleep trace).dedup

theorem clock_range (run : Run (Traced sched) (sthreadUserInit malloc) trace s) :
    -2 ^ 31 ≤ s.clock ∧ s.clock < 2 ^ 31 := by
  induction run with
  | nil =>
      change -2 ^ 31 ≤ (1 : Int) ∧ (1 : Int) < 2 ^ 31
      decide
  | snoc run next ih =>
      obtain ⟨rfl, step⟩ := next
      cases (placed_of_run run).sleepStep step with
      | still _ _ _ clock _ | sleeps _ _ _ clock _ _ =>
          rw [clock]
          exact ih
      | ticks _ _ clock _ =>
          rw [clock]
          exact wrap_range _

private theorem sleepers_inOrder (run : Run (Traced sched) (sthreadUserInit malloc) trace s) :
    (s.queue .sleepThrList).Sublist (wentToSleep trace).dedup := by
  induction run with
  | nil => exact List.nil_sublist _
  | snoc run next ih =>
      obtain ⟨rfl, step⟩ := next
      have placed := placed_of_run run
      rw [wentToSleep_concat]
      cases placed.sleepStep step with
      | still naps _ queue _ _ =>
          rw [queue, napper_eq_none naps, Option.toList_none, List.append_nil]
          exact ih
      | sleeps op some queue _ _ _ =>
          rw [queue, napper_eq_some op some, Option.toList_some]
          refine concat_sublist_dedup ih ?_
          rw [(step.cases placed.tidy).1]
          exact placed.not_mem _
      | ticks op queue _ _ =>
          rw [queue, napper_eq_none (by rw [op]; exact nofun), Option.toList_none, List.append_nil]
          exact List.filter_sublist.trans ih

theorem Placed.stays (h : Placed s (some s.activeThr)) (step : Step sched s e s')
    (asleep : i ∈ s.queue .sleepThrList)
    (early : ¬ (e.op = .dispatcher ∧ s'.clock = (s.thread i).wakeTime)) :
    i ∈ s'.queue .sleepThrList ∧ (s'.thread i).wakeTime = (s.thread i).wakeTime := by
  cases h.sleepStep step with
  | still _ _ queue _ same => exact ⟨queue ▸ asleep, same i asleep⟩
  | sleeps _ _ queue _ _ same => exact ⟨queue ▸ List.mem_append_left _ asleep, same i asleep⟩
  | ticks op queue clock same =>
      have inside : i ∈ s'.queue .sleepThrList := by
        rw [queue, List.mem_filter, decide_eq_true_iff]
        exact ⟨asleep, fun now => early ⟨op, clock.trans now.symm⟩⟩
      exact ⟨inside, same i inside⟩

private theorem ahead_of_naps (run : Run (Traced sched) (sthreadUserInit malloc) trace s)
    (naps : ∀ x ∈ trace, ∀ time, x.2.op = .sleep time → NapFits x.1.clock time) :
    ∀ i ∈ s.queue .sleepThrList, s.clock < (s.thread i).wakeTime := by
  induction run with
  | nil =>
      intro i inside
      cases inside
  | snoc run next ih =>
      obtain ⟨rfl, step⟩ := next
      have earlier := ih fun x member => naps x (List.mem_append_left _ member)
      have last := naps _ (List.mem_append_right _ (List.mem_singleton_self _))
      intro i inside
      cases (placed_of_run run).sleepStep step with
      | still _ _ queue clock same =>
          rw [queue] at inside
          rw [clock, same i inside]
          exact earlier i inside
      | sleeps op some queue clock wake same =>
          rw [queue] at inside
          rw [clock]
          rcases List.mem_append.mp inside with inside | new
          · rw [same i inside]
            exact earlier i inside
          · obtain rfl := List.mem_singleton.mp new
            rw [wake]
            exact (napFits_iff (clock_range run) some).mpr (last _ op)
      | ticks op queue clock same =>
          have wake := same i inside
          rw [queue, List.mem_filter, decide_eq_true_iff] at inside
          obtain ⟨asleep, other⟩ := inside
          rw [wake, clock]
          exact lt_of_tick (clock_range run).1 (earlier i asleep) other

private theorem run_of_visited (run : Run (Traced sched) (sthreadUserInit malloc) trace s)
    {s₁ : Sys}
    (visited : s₁ ∈ trace.map Prod.fst ++ [s]) :
    ∃ trace₁, (∀ x ∈ trace₁, x ∈ trace) ∧
      Run (Traced sched) (sthreadUserInit malloc) trace₁ s₁ := by
  induction run with
  | nil =>
      obtain rfl := List.mem_singleton.mp visited
      exact ⟨[], fun _ none => (by cases none), .nil⟩
  | @snoc trace s s' x run next ih =>
      rcases List.mem_append.mp visited with earlier | last
      · have same : (trace ++ [x]).map Prod.fst = trace.map Prod.fst ++ [s] := by
          simp [next.1]
        obtain ⟨trace₁, part, run₁⟩ := ih (same ▸ earlier)
        exact ⟨trace₁, fun y member => List.mem_append_left _ (part y member), run₁⟩
      · obtain rfl := List.mem_singleton.mp last
        exact ⟨trace ++ [x], fun _ member => member, run.snoc next⟩

/-- A sleep that does not fit leaves its caller at or behind the clock. -/
theorem naps_of_ahead (run : Run (Traced sched) (sthreadUserInit malloc) trace s)
    (ahead : ∀ s₁ ∈ trace.map Prod.fst ++ [s], ∀ i ∈ s₁.queue .sleepThrList,
      s₁.clock < (s₁.thread i).wakeTime) :
    ∀ x ∈ trace, ∀ time, x.2.op = .sleep time → NapFits x.1.clock time := by
  induction run with
  | nil => exact fun _ none => (by cases none)
  | @snoc trace s s' x run next ih =>
      have same : (trace ++ [x]).map Prod.fst = trace.map Prod.fst ++ [s] := by
        simp [next.1]
      have earlier := ih fun s₁ visited => ahead s₁ (List.mem_append_left _ (same ▸ visited))
      intro y member time nap
      rcases List.mem_append.mp member with member | last
      · exact earlier y member time nap
      · obtain rfl := List.mem_singleton.mp last
        obtain ⟨rfl, step⟩ := next
        have range := clock_range run
        cases (placed_of_run run).sleepStep step with
        | still naps _ _ _ _ =>
            unfold NapFits
            rw [naps time nap, Int.add_zero, if_neg (Int.lt_irrefl 0)]
            exact range.2
        | sleeps op some queue clock wake _ =>
            cases op.symm.trans nap
            have asleep : y.2.caller ∈ s'.queue .sleepThrList := by
              rw [queue]
              exact List.mem_append_right _ (List.mem_singleton_self _)
            have now := ahead s' (List.mem_append_right _ (List.mem_singleton_self _)) _ asleep
            rw [clock, wake] at now
            exact (napFits_iff range some).mp now
        | ticks op => cases op.symm.trans nap

/-- No sleeper is missed exactly when every sleep of the run fits. -/
theorem no_sleeper_missed_iff (run : Run (Traced sched) (sthreadUserInit malloc) trace s) :
    SleepersWake sched trace s ↔
      ∀ x ∈ trace, ∀ time, x.2.op = .sleep time → NapFits x.1.clock time := by
  have placed := placed_of_run run
  constructor
  · exact fun wake => naps_of_ahead run wake.ahead
  · refine fun naps => ⟨fun s₁ visited i asleep => ?_, fun e s' i step => placed.stays step, ?_,
      sleepers_inOrder run⟩
    · obtain ⟨trace₁, part, run₁⟩ := run_of_visited run visited
      exact ahead_of_naps run₁ (fun x member => naps x (part x member)) i asleep
    · rw [tick_eq placed.tidy]
      simp [pour]

/-- Thread 1 is left running while the main thread sleeps for two ticks. -/
theorem no_sleeper_missed_iff_two_ticks :
    ∃ trace s, Run (Traced anyReady) (sthreadUserInit zeroThread) trace s ∧
      s.activeThr = 0 ∧ SleepersWake anyReady trace s := by
  have replayed : replay (sthreadUserInit zeroThread)
    [(.create 5 true, 0), (.sleep 20, 0), (.dispatcher, 1), (.dispatcher, 0)] = some (_, _) := rfl
  refine ⟨_, _, run_of_replay replayed, rfl,
    (no_sleeper_missed_iff (run_of_replay replayed)).mpr ?_⟩
  simp only [List.forall_mem_cons]
  refine ⟨nofun, ?_, nofun, nofun, fun _ none => (nomatch none)⟩
  rintro time nap
  cases nap
  unfold NapFits
  decide

/-- A sleep of -10 milliseconds puts the wake time behind the clock. -/
theorem negative_sleep_is_missed :
    ∃ trace s, Run (Traced anyReady) (sthreadUserInit zeroThread) trace s ∧
      s.queue .sleepThrList = [0] ∧ (s.thread 0).wakeTime = 0 ∧ s.clock = 1 := by
  have replayed : replay (sthreadUserInit zeroThread)
    [(.create 5 true, 0), (.sleep (-10), 0)] = some (_, _) := rfl
  exact ⟨_, _, run_of_replay replayed, rfl, rfl, rfl⟩

end Snfs.Threads
