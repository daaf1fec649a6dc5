import Snfs.Threads.Calls

/-!
What holds of the threads in every reached state, whatever the scheduler: a thread
that is not running is in exactly one queue, once, and the context it is suspended
in fits the queue. A thread on `exe_thr_list` that is suspended in `lock` or `wait`
has been handed its mutex, one that is suspended in `join` waits for a thread that
has exited. Run queues are not among these queues; nothing is ever resumed from
one.
-/

namespace Snfs.Threads

open Filing Runs

variable {s s' u : Sys} {sched : Scheduler} {i t : Nat} {q : Queue} {e : Event}

def Sys.Gone (s : Sys) (t : Nat) : Prop :=
  t ∈ s.queue .zombieThrList ∨ t ∈ s.queue .deadThrList

/-- What lets a thread of `exe_thr_list` go on from its context. -/
def Sys.Ready (s : Sys) (i : Nat) : Ctx → Prop
  | .blank | .exit => False
  | .start | .yield | .sleep => True
  | .join t => s.Gone t
  | .lock m => s.thr m = some i
  | .wait k => s.thr (.mon k) = some i

/-- The thread is suspended where the threads of the queue are. -/
def Sys.Fits (s : Sys) (i : Nat) : Queue → Prop
  | .exeThrList => s.Ready i (s.thread i).savedCtx
  | .deadThrList | .zombieThrList => (s.thread i).savedCtx = .exit
  | .sleepThrList => (s.thread i).savedCtx = .sleep
  | .joinThrList => ∃ t < s.count, (s.thread i).savedCtx = .join t ∧
      (s.thread i).joinTid = (s.thread t).tid ∧ ¬ s.Gone t
  | .mutex m => (s.thread i).savedCtx = .lock m ∨ ∃ k, m = .mon k ∧ (s.thread i).savedCtx = .wait k
  | .monitor k => (s.thread i).savedCtx = .wait k

/-- The threads while `running`, if any, is in no queue. -/
structure Placed (s : Sys) (running : Option Nat) : Prop where
  filed : Filed s.queue
  inside : ∀ i, (∃ q, i ∈ s.queue q) ↔ i < s.count ∧ running ≠ some i
  alive : ∀ i, running = some i → i < s.count
  tid : ∀ i, i < s.count → (s.thread i).tid = 2 * i + 1
  tidGen : s.tidGen = 2 * s.count
  owned : ∀ m i, i ∈ s.queue (.mutex m) → s.thr m ≠ none
  fits : ∀ q i, i ∈ s.queue q → s.Fits i q

theorem Sys.Fits.congr (h : s.Fits i q) (ctx : (s'.thread i).savedCtx = (s.thread i).savedCtx)
    (joinTid : (s'.thread i).joinTid = (s.thread i).joinTid)
    (tid : ∀ t < s.count, (s'.thread t).tid = (s.thread t).tid) (count : s.count ≤ s'.count)
    (gone : ∀ t, (s.thread i).savedCtx = .join t → (s'.Gone t ↔ s.Gone t))
    (thr : q = .exeThrList → ∀ m, s.thr m = some i → s'.thr m = some i) : s'.Fits i q := by
  cases q with
  | exeThrList =>
      unfold Sys.Fits at h ⊢
      rw [ctx]
      cases suspended : (s.thread i).savedCtx with
      | blank | exit => exact (suspended ▸ h : s.Ready i _)
      | start | yield | sleep => trivial
      | join t =>
          rw [suspended] at h
          exact (gone t suspended).mpr h
      | lock m =>
          rw [suspended] at h
          exact thr rfl m h
      | wait k =>
          rw [suspended] at h
          exact thr rfl _ h
  | deadThrList | zombieThrList | sleepThrList | monitor => exact ctx.trans h
  | joinThrList =>
      obtain ⟨t, known, suspended, target, live⟩ := h
      refine ⟨t, Nat.lt_of_lt_of_le known count, ctx.trans suspended, ?_, ?_⟩
      · rw [joinTid, target, tid t known]
      · rwa [gone t suspended]
  | mutex m =>
      unfold Sys.Fits at h ⊢
      rwa [ctx]

/-- A change that leaves every thread in some queue. -/
theorem Placed.rearrange {r : Option Nat} (h : Placed s r) (filed : Filed s'.queue)
    (same : ∀ i, (∃ q, i ∈ s'.queue q) ↔ ∃ q, i ∈ s.queue q) (count : s'.count = s.count)
    (tid : ∀ i, (s'.thread i).tid = (s.thread i).tid) (tidGen : s'.tidGen = s.tidGen)
    (owned : ∀ m i, i ∈ s'.queue (.mutex m) → s'.thr m ≠ none)
    (fits : ∀ q i, i ∈ s'.queue q → s'.Fits i q) : Placed s' r where
  filed := filed
  inside i := by rw [same, count, h.inside]
  alive i running := count ▸ h.alive i running
  tid i known := (tid i).trans (h.tid i (count ▸ known))
  tidGen := by rw [tidGen, count, h.tidGen]
  owned := owned
  fits := fits

theorem Placed.init (malloc : Thread) : Placed (sthreadUserInit malloc) (some 0) where
  filed := .nil
  inside i := by
    simp [sthreadUserInit]
    omega
  alive i running := by
    cases running
    exact Nat.one_pos
  tid i known := by
    have main : i = 0 := by simpa [sthreadUserInit] using known
    subst main
    rfl
  tidGen := rfl
  owned _ _ inside := by cases inside
  fits _ _ inside := by cases inside

theorem Placed.not_mem {a : Nat} (h : Placed s (some a)) (q : Queue) : a ∉ s.queue q :=
  fun inside => ((h.inside a).mp ⟨q, inside⟩).2 rfl

theorem Placed.lt {r : Option Nat} (h : Placed s r) (inside : i ∈ s.queue q) : i < s.count :=
  ((h.inside i).mp ⟨q, inside⟩).1

/-- The running thread may be changed in what no other thread reads. -/
theorem Placed.record {a : Nat} (h : Placed s (some a)) {th : Thread}
    (tid : th.tid = (s.thread a).tid) : Placed (s.setThread a th) (some a) := by
  have tids (t : Nat) : ((s.setThread a th).thread t).tid = (s.thread t).tid := by
    by_cases same : t = a
    · subst same
      simpa using tid
    · simp [same]
  refine h.rearrange h.filed (fun _ => Iff.rfl) rfl tids rfl h.owned fun q i inside => ?_
  have apart : i ≠ a := fun same => h.not_mem q (same ▸ inside)
  refine (h.fits q i inside).congr ?_ ?_ (fun t _ => tids t) (Nat.le_refl _) (fun _ _ => Iff.rfl)
    fun _ _ same => same
  · simp [apart]
  · simp [apart]

/-- The running thread is put into a queue, from where it will go on. -/
theorem Placed.park {a : Nat} (h : Placed s (some a))
    (live : q ≠ .zombieThrList ∧ q ≠ .deadThrList) (owned : ∀ m, q = .mutex m → s.thr m ≠ none)
    (fits : (s.queueInsert q a).Fits a q) : Placed (s.queueInsert q a) none where
  filed := h.filed.put h.not_mem
  inside i := by
    refine exists_mem_put.trans ?_
    rw [h.inside]
    have alive := h.alive _ rfl
    constructor
    · rintro (⟨known, _⟩ | rfl)
      · exact ⟨known, nofun⟩
      · exact ⟨alive, nofun⟩
    · rintro ⟨known, _⟩
      by_cases same : i = a
      · exact Or.inr same
      · exact Or.inl ⟨known, fun running => same (Option.some.inj running).symm⟩
  alive _ running := by cases running
  tid := h.tid
  tidGen := h.tidGen
  owned m i inside := by
    rcases mem_put.mp inside with inside | ⟨same, _⟩
    · exact h.owned m i inside
    · exact owned m same.symm
  fits q' i inside := by
    rcases mem_put.mp inside with inside | ⟨rfl, rfl⟩
    · refine (h.fits q' i inside).congr rfl rfl (fun _ _ => rfl) (Nat.le_refl _) ?_
        fun _ _ same => same
      intro t _
      simp [Sys.Gone, put, live.1.symm, live.2.symm]
    · exact fits

theorem Placed.resume (h : Placed u none) (ready : t ∈ u.queue .exeThrList) :
    Placed (u.resume t) (some t) where
  filed := h.filed.withdraw
  inside i := by
    refine (h.filed.exists_mem_withdraw ready).trans ?_
    rw [h.inside]
    simp [eq_comm]
  alive i running := by
    cases running
    exact h.lt ready
  tid := h.tid
  tidGen := h.tidGen
  owned m i inside := by
    rw [Sys.resume_queue, h.filed.mem_withdraw] at inside
    exact h.owned m i inside.1
  fits q i inside := (h.fits q i (h.filed.mem_withdraw.mp inside).1).congr rfl rfl (fun _ _ => rfl)
    (Nat.le_refl _) (fun _ _ => by simp [Sys.Gone, Sys.resume, withdraw]) fun _ _ same => same

theorem Placed.poured {r : Option Nat} (h : Placed s r) {into : Queue} {p : Nat → Bool}
    {mark : Thread → Thread} (apart : q ≠ into)
    (keeps : ∀ th, (mark th).savedCtx = th.savedCtx ∧ (mark th).joinTid = th.joinTid ∧
      (mark th).tid = th.tid)
    (plain : ∀ m, into ≠ .mutex m)
    (gone : ∀ t, (s.poured q into p mark).Gone t ↔ s.Gone t)
    (moved : ∀ i ∈ s.queue q, p i = true → (s.poured q into p mark).Fits i into) :
    Placed (s.poured q into p mark) r := by
  have tid := Sys.poured_field Thread.tid mark (fun th => (keeps th).2.2) s q into p
  refine h.rearrange (h.filed.pour apart) (fun i => exists_mem_pour apart) rfl tid rfl ?_ ?_
  · intro m i inside
    rcases (mem_pour apart).mp inside with ⟨inside, _⟩ | ⟨same, _⟩
    · exact h.owned m i inside
    · exact absurd same.symm (plain m)
  · intro q' i inside
    rcases (mem_pour apart).mp inside with ⟨inside, _⟩ | ⟨rfl, inside, matched⟩
    · exact (h.fits q' i inside).congr
        (Sys.poured_field Thread.savedCtx mark (fun th => (keeps th).1) s q into p i)
        (Sys.poured_field Thread.joinTid mark (fun th => (keeps th).2.1) s q into p i)
        (fun t _ => tid t) (Nat.le_refl _) (fun t _ => gone t) fun _ _ same => same
    · exact moved i inside matched

theorem Placed.tidy (h : Placed s (some s.activeThr)) : Tidy s where
  nodup := h.filed.nodup
  known := h.lt
  active := h.alive _ rfl
  tid := h.tid

theorem Placed.created (h : Placed s (some i)) (priority : Int) :
    Placed (s.created priority) (some i) := by
  have new (q : Queue) : s.count ∉ s.queue q := fun inside => Nat.lt_irrefl _ (h.lt inside)
  have old {t : Nat} (known : t < s.count) :
      (s.created priority).thread t = s.thread t :=
    Function.update_of_ne (Nat.ne_of_lt known) _ _
  have alive := h.alive i rfl
  refine ⟨h.filed.put new, fun t => ?_, fun t running => ?_, fun t known => ?_, ?_, ?_, ?_⟩
  · refine exists_mem_put.trans ?_
    rw [h.inside, Sys.created_count, ne_eq, Option.some_inj]
    omega
  · exact Nat.lt_succ_of_lt (h.alive t running)
  · rcases Nat.lt_succ_iff_lt_or_eq.mp known with known | rfl
    · rw [old known, h.tid t known]
    · simp [h.tidGen]
  · rw [Sys.created_tidGen, Sys.created_count, h.tidGen]
    omega
  · intro m t inside
    rw [Sys.created_queue, mem_put] at inside
    rcases inside with inside | ⟨same, _⟩
    · exact h.owned m t inside
    · cases same
  · intro q t inside
    rcases mem_put.mp inside with inside | ⟨rfl, rfl⟩
    · have known := h.lt inside
      refine (h.fits q t inside).congr (by rw [old known]) (by rw [old known])
        (fun t' known' => by rw [old known']) (Nat.le_succ _) ?_ fun _ _ same => same
      intro t' _
      simp [Sys.Gone, put]
    · simp [Sys.Fits, Sys.Ready]

theorem Placed.ticked {r : Option Nat} (h : Placed s r) : Placed s.ticked r :=
  h.rearrange h.filed (fun _ => Iff.rfl) rfl (fun _ => rfl) rfl h.owned fun q i inside =>
    (h.fits q i inside).congr rfl rfl (fun _ _ => rfl) (Nat.le_refl _) (fun _ _ => Iff.rfl)
      fun _ _ same => same

theorem Placed.afterTick (h : Placed s (some s.activeThr)) :
    Placed (tick s) (some s.activeThr) := by
  rw [tick_eq h.tidy]
  refine h.ticked.poured (by decide) (fun _ => ⟨rfl, rfl, rfl⟩) (fun _ => nofun)
    (fun _ => by simp [Sys.Gone, pour]) fun i inside _ => ?_
  have asleep : (s.thread i).savedCtx = .sleep := h.fits _ i inside
  have ctx := Sys.poured_field Thread.savedCtx Thread.awake (fun _ => rfl) s.ticked
    .sleepThrList .exeThrList (fun i => (s.thread i).wakeTime = s.ticked.clock) i
  change Sys.Ready _ i _
  rw [ctx.trans asleep]
  trivial

theorem Placed.joined {r : Option Nat} (h : Placed s r) (target : Nat) :
    Placed (s.poured .zombieThrList .deadThrList (· == target) id) r := by
  refine h.poured (by decide) (fun _ => ⟨rfl, rfl, rfl⟩) (fun _ => nofun) ?_ ?_
  · intro t
    unfold Sys.Gone
    rw [Sys.poured_queue, Sys.poured_queue, mem_pour (by decide), mem_pour (by decide)]
    simp only [reduceCtorEq, false_and, or_false, not_false_eq_true, and_true, true_and]
    tauto
  · intro i inside _
    exact (Sys.poured_field Thread.savedCtx id (fun _ => rfl) s _ _ _ i).trans (h.fits _ i inside)

theorem Placed.own {r : Option Nat} (h : Placed s r) {lock : Mutex} (free : s.thr lock = none) :
    Placed { s with thr := Function.update s.thr lock (some s.activeThr) } r := by
  refine h.rearrange h.filed (fun _ => Iff.rfl) rfl (fun _ => rfl) rfl ?_ ?_
  · intro m i inside
    by_cases same : m = lock
    · subst same
      simp
    · simpa [same] using h.owned m i inside
  · intro q i inside
    refine (h.fits q i inside).congr rfl rfl (fun _ _ => rfl) (Nat.le_refl _)
      (fun _ _ => Iff.rfl) ?_
    intro _ m owner
    have other : m ≠ lock := by
      rintro rfl
      rw [free] at owner
      cases owner
    simpa [other] using owner

/-- A thread goes from one queue to another one, and a mutex may get it as its owner. -/
theorem Placed.move {r : Option Nat} (h : Placed s r) {source into : Queue}
    {thr : Mutex → Option Nat} (first : t ∈ s.queue source)
    (live : (source ≠ .zombieThrList ∧ source ≠ .deadThrList) ∧
      into ≠ .zombieThrList ∧ into ≠ .deadThrList)
    (owned : ∀ m i, (i ∈ s.queue (.mutex m) ∧ ¬ (.mutex m = source ∧ i = t)) ∨ .mutex m = into →
      thr m ≠ none)
    (kept : ∀ i ∈ s.queue .exeThrList, ∀ m, s.thr m = some i → thr m = some i)
    (fits : Sys.Fits { s with thr := thr, queue := put (withdraw s.queue source t) into t } t
      into) :
    Placed { s with thr := thr, queue := put (withdraw s.queue source t) into t } r := by
  have gone (t' : Nat) : Sys.Gone { s with
      thr := thr, queue := put (withdraw s.queue source t) into t } t' ↔ s.Gone t' := by
    simp [Sys.Gone, put, withdraw, live.1.1.symm, live.1.2.symm, live.2.1.symm, live.2.2.symm]
  refine h.rearrange (h.filed.withdraw.put (h.filed.not_mem_withdraw first)) ?_ rfl (fun _ => rfl)
    rfl ?_ ?_
  · intro i
    refine exists_mem_put.trans ?_
    rw [h.filed.exists_mem_withdraw first]
    constructor
    · rintro (⟨inside, _⟩ | rfl)
      · exact inside
      · exact ⟨_, first⟩
    · intro inside
      by_cases same : i = t
      · exact Or.inr same
      · exact Or.inl ⟨inside, same⟩
  · intro m i inside
    rcases mem_put.mp inside with inside | ⟨same, _⟩
    · exact owned m i (Or.inl (h.filed.mem_withdraw.mp inside))
    · exact owned m i (Or.inr same)
  · intro q i inside
    rcases mem_put.mp inside with inside | ⟨rfl, rfl⟩
    · have member := (h.filed.mem_withdraw.mp inside).1
      refine (h.fits q i member).congr rfl rfl (fun _ _ => rfl) (Nat.le_refl _)
        (fun t' _ => gone t') ?_
      rintro rfl
      exact kept i member
    · exact fits

theorem Placed.unlock {r : Option Nat} (h : Placed s r) (lock : Mutex)
    (idle : s.activeThr ∉ s.queue .exeThrList) : Placed (sthreadUserMutexUnlock s lock) r := by
  unfold sthreadUserMutexUnlock
  split
  · exact h
  · rename_i owner
    have owner : s.thr lock = some s.activeThr := not_not.mp owner
    have kept (next : Option Nat) : ∀ i ∈ s.queue .exeThrList, ∀ m, s.thr m = some i →
        Function.update s.thr lock next m = some i := by
      intro i inside m owns
      have other : m ≠ lock := by
        rintro rfl
        obtain rfl : s.activeThr = i := Option.some.inj (owner.symm.trans owns)
        exact idle inside
      simpa [other] using owns
    cases waiting : s.queue (.mutex lock) with
    | nil =>
        refine h.rearrange h.filed (fun _ => Iff.rfl) rfl (fun _ => rfl) rfl ?_ fun q i inside => ?_
        · intro m i inside
          have other : m ≠ lock := by
            rintro rfl
            rw [waiting] at inside
            cases inside
          simpa [other] using h.owned m i inside
        · refine (h.fits q i inside).congr rfl rfl (fun _ _ => rfl) (Nat.le_refl _)
            (fun _ _ => Iff.rfl) ?_
          rintro rfl
          exact kept none i inside
    | cons t rest =>
        have first : t ∈ s.queue (.mutex lock) := waiting ▸ List.mem_cons_self
        refine h.move first (by simp) ?_ (kept (some t)) ?_
        · rintro m i (⟨inside, _⟩ | same)
          · by_cases same : m = lock
            · subst same
              simp
            · simpa [same] using h.owned m i inside
          · cases same
        · change Sys.Ready _ t (s.thread t).savedCtx
          rcases h.fits _ t first with suspended | ⟨k, rfl, suspended⟩ <;> rw [suspended] <;>
            exact Function.update_self _ _ _

theorem Placed.signal {r : Option Nat} (h : Placed s r) (mon : Nat) :
    Placed (sthreadUserMonitorSignal s mon) r := by
  unfold sthreadUserMonitorSignal
  split
  · exact h
  · rename_i owner
    cases waiting : s.queue (.monitor mon) with
    | nil => exact h
    | cons t rest =>
        have first : t ∈ s.queue (.monitor mon) := waiting ▸ List.mem_cons_self
        refine h.move first (by simp) ?_ (fun _ _ _ owns => owns) (Or.inr ⟨mon, rfl, ?_⟩)
        · rintro m i (⟨inside, _⟩ | same)
          · exact h.owned m i inside
          · cases same
            rw [not_not.mp owner]
            exact Option.some_ne_none _
        · exact h.fits _ t first

theorem Placed.parked (h : Placed s (some s.activeThr)) {ctx : Ctx}
    (live : q ≠ .zombieThrList ∧ q ≠ .deadThrList) (owned : ∀ m, q = .mutex m → s.thr m ≠ none)
    (fits : ((s.queueInsert q s.activeThr).save ctx).Fits s.activeThr q) :
    Placed ((s.queueInsert q s.activeThr).save ctx) none :=
  have saved : Placed (s.save ctx) (some s.activeThr) := h.record rfl
  saved.park live owned fits

theorem Placed.yielded (h : Placed s (some s.activeThr)) :
    Placed ((s.queueInsert .exeThrList s.activeThr).save .yield) none := by
  refine h.parked (by decide) (fun _ => nofun) ?_
  have ctx : (((s.queueInsert .exeThrList s.activeThr).save .yield).thread
      s.activeThr).savedCtx = .yield := savedCtx_save _ _
  change Sys.Ready _ _ _
  rw [ctx]
  trivial

theorem Placed.not_gone {r : Option Nat} (h : Placed s r) (inside : t ∈ s.queue q)
    (live : q ≠ .zombieThrList ∧ q ≠ .deadThrList) : ¬ s.Gone t := by
  rintro (zombie | dead)
  · exact live.1 (h.filed.unique inside zombie)
  · exact live.2 (h.filed.unique inside dead)

theorem Placed.findable_live (h : Placed s (some s.activeThr)) (found : s.Findable t) :
    ¬ s.Gone t := by
  rcases found with rfl | ready | asleep | joining
  · rintro (zombie | dead)
    · exact h.not_mem _ zombie
    · exact h.not_mem _ dead
  · exact h.not_gone ready (by decide)
  · exact h.not_gone asleep (by decide)
  · exact h.not_gone joining (by decide)

/-- A thread that is suspended in `join` waits for the other, or has been released by it. -/
theorem Placed.joining {r : Option Nat} (h : Placed s r) (inside : i ∈ s.queue q)
    (suspended : (s.thread i).savedCtx = .join t) :
    (q = .joinThrList ∧ t < s.count ∧ (s.thread i).joinTid = (s.thread t).tid ∧ ¬ s.Gone t) ∨
      (q = .exeThrList ∧ s.Gone t) := by
  have fits := h.fits q i inside
  cases q with
  | exeThrList =>
      unfold Sys.Fits at fits
      rw [suspended] at fits
      exact Or.inr ⟨rfl, fits⟩
  | joinThrList =>
      obtain ⟨t', known, ctx, target, live⟩ := fits
      obtain rfl : t' = t := Ctx.join.inj (ctx.symm.trans suspended)
      exact Or.inl ⟨rfl, known, target, live⟩
  | deadThrList | zombieThrList | sleepThrList | monitor =>
      exact nomatch suspended.symm.trans fits
  | mutex m =>
      rcases fits with ctx | ⟨_, _, ctx⟩ <;> exact nomatch suspended.symm.trans ctx

private theorem gone_exited (s : Sys) (ret : Nat) (t : Nat) :
    (s.exited ret).Gone t ↔ s.Gone t ∨ t = s.activeThr := by
  unfold Sys.Gone Sys.exited
  rw [Sys.queueInsert_queue, Sys.queueInsert_queue, mem_put, mem_put, Sys.poured_queue,
    Sys.poured_queue, mem_pour (by decide), mem_pour (by decide)]
  split <;> simp <;> tauto

theorem Placed.exited (h : Placed s (some s.activeThr)) (ret : Nat) :
    Placed ((s.exited ret).save .exit) none := by
  have alive := h.alive _ rfl
  have tid (i : Nat) : (((s.exited ret).save .exit).thread i).tid = (s.thread i).tid :=
    ((s.exited ret).save_field Thread.tid (fun _ => rfl) i).trans
      (Sys.exited_field Thread.tid (fun _ => rfl) s i)
  have joinTid (i : Nat) : (((s.exited ret).save .exit).thread i).joinTid = (s.thread i).joinTid :=
    ((s.exited ret).save_field Thread.joinTid (fun _ => rfl) i).trans
      (Sys.exited_field Thread.joinTid (fun _ => rfl) s i)
  have ctx {i : Nat} (other : i ≠ s.activeThr) :
      (((s.exited ret).save .exit).thread i).savedCtx = (s.thread i).savedCtx := by
    exact (congrArg Thread.savedCtx (Function.update_of_ne other _ _)).trans
      (Sys.exited_field Thread.savedCtx (fun _ => rfl) s i)
  have gone (t : Nat) : ((s.exited ret).save .exit).Gone t ↔ s.Gone t ∨ t = s.activeThr :=
    gone_exited s ret t
  refine ⟨?_, fun i => ?_, nofun, fun i known => (tid i).trans (h.tid i known), h.tidGen, ?_, ?_⟩
  · refine (h.filed.pour (by decide)).put fun q inside => ?_
    rcases (mem_pour (by decide)).mp inside with ⟨inside, _⟩ | ⟨_, inside, _⟩ <;>
      exact h.not_mem _ inside
  · refine exists_mem_put.trans ?_
    simp only [Sys.poured_queue]
    rw [exists_mem_pour (by decide), h.inside]
    change _ ↔ i < s.count ∧ none ≠ some i
    by_cases self : i = s.activeThr
    · subst self
      simpa using alive
    · simp [self, Ne.symm self]
  · intro m i inside
    rcases mem_put.mp inside with inside | ⟨same, _⟩
    · rw [Sys.poured_queue, mem_pour (by decide)] at inside
      rcases inside with ⟨inside, _⟩ | ⟨same, _⟩
      · exact h.owned m i inside
      · cases same
    · split at same <;> cases same
  · intro q i inside
    rcases mem_put.mp inside with inside | ⟨rfl, rfl⟩
    · rcases (mem_pour (by decide)).mp inside with ⟨inside, stays⟩ | ⟨rfl, inside, released⟩
      · have other : i ≠ s.activeThr := fun same => h.not_mem q (same ▸ inside)
        refine (h.fits q i inside).congr (ctx other) (joinTid i) (fun t _ => tid t) (Nat.le_refl _)
          (fun t suspended => ?_) fun _ _ owns => owns
        rw [gone, or_iff_left_iff_imp]
        rintro rfl
        rcases h.joining inside suspended with ⟨rfl, _, target, _⟩ | ⟨_, zombie | dead⟩
        · exact absurd ⟨rfl, decide_eq_true target⟩ stays
        · exact absurd zombie (h.not_mem _)
        · exact absurd dead (h.not_mem _)
      · have other : i ≠ s.activeThr := fun same => h.not_mem _ (same ▸ inside)
        obtain ⟨t, known, suspended, target, _⟩ := h.fits _ i inside
        have same : (s.thread t).tid = s.active.tid :=
          target.symm.trans (of_decide_eq_true released)
        rw [h.tid t known, Sys.active, h.tid _ alive] at same
        obtain rfl : t = s.activeThr := by omega
        change Sys.Ready _ i _
        rw [ctx other, suspended]
        exact (gone _).mpr (Or.inr rfl)
    · have exit : (((s.exited ret).save .exit).thread s.activeThr).savedCtx = .exit :=
        savedCtx_save _ _
      split <;> exact exit

/-- A call that returns leaves the caller running. -/
theorem Placed.returned (h : Placed s (some s.activeThr)) {op : Op} {value : Ret}
    (returned : Returns s op value s') :
    s'.activeThr = s.activeThr ∧ Placed s' (some s'.activeThr) := by
  cases returned with
  | idle | notFound => exact ⟨rfl, h⟩
  | created => exact ⟨rfl, h.created _⟩
  | nice => exact ⟨rfl, h.record rfl⟩
  | joined => exact ⟨rfl, h.joined _⟩
  | owns _ free => exact ⟨rfl, h.own free⟩
  | unlocks =>
      rw [(sameThreads_unlock _ _).activeThr]
      exact ⟨rfl, h.unlock _ (h.not_mem _)⟩
  | signals =>
      rw [(sameThreads_signal _ _).activeThr]
      exact ⟨rfl, h.signal _⟩

/-- A call that gives up the processor leaves every thread in a queue. -/
theorem Placed.gaveUp (h : Placed s (some s.activeThr)) {op : Op} {ctx : Ctx}
    (gives : GivesUp s op u ctx) : Placed (u.save ctx) none := by
  cases gives with
  | yields => exact h.yielded
  | ticks =>
      have same := activeThr_tick h.tidy
      have ticked : Placed (tick s) (some (tick s).activeThr) := by
        rw [same]
        exact h.afterTick
      rw [← same]
      exact ticked.yielded
  | exits => exact h.exited _
  | @joins target known _ found =>
      have recorded : Placed (s.setThread s.activeThr
        { s.active with joinTid := (s.thread target).tid }) (some s.activeThr) := h.record rfl
      refine Placed.parked recorded (by decide) (by simp)
        ⟨target, known, savedCtx_save _ _, ?_, ?_⟩
      · by_cases self : target = s.activeThr
        · subst self
          simp [Sys.save, Sys.active]
        · simp [Sys.save, Sys.active, self]
      · have live := h.findable_live found
        simpa [Sys.Gone, Sys.save, put] using live
  | @sleeps time =>
      have recorded : Placed (s.setThread s.activeThr
        { s.active with wakeTime := wrap (s.clock + numTicks time) }) (some s.activeThr) :=
        h.record rfl
      exact Placed.parked recorded (by decide) (by simp) (savedCtx_save _ _)
  | blocks _ owned =>
      refine h.parked (by simp) ?_ (Or.inl (savedCtx_save _ _))
      rintro m same
      cases same
      exact owned
  | @waits mon =>
      rw [save_unlock]
      have parked : Placed ((s.queueInsert (.monitor mon) s.activeThr).save (.wait mon)) none :=
        h.parked (by simp) (by simp) (savedCtx_save _ _)
      refine parked.unlock _ fun ready => h.not_mem .exeThrList ?_
      have ready : s.activeThr ∈ put s.queue (.monitor mon) s.activeThr .exeThrList := ready
      rcases mem_put.mp ready with inside | ⟨same, _⟩
      · exact inside
      · cases same

theorem Placed.step (h : Placed s (some s.activeThr)) (step : Step sched s e s') :
    Placed s' (some s'.activeThr) := by
  obtain ⟨_, ⟨value, _, returned⟩ | ⟨u, ctx, t, gives, ready, _, rfl⟩⟩ := step.cases h.tidy
  · exact (h.returned returned).2
  · exact (h.gaveUp gives).resume ready

variable {malloc : Thread} {trace : List (Sys × Event)}

theorem placed_of_run (run : Run (Traced sched) (sthreadUserInit malloc) trace s) :
    Placed s (some s.activeThr) := by
  refine run.invariant (I := fun s => Placed s (some s.activeThr)) (Placed.init malloc) ?_
  rintro s ⟨_, e⟩ s' h ⟨_, step⟩
  exact h.step step

private theorem gone_unlock (s : Sys) (lock : Mutex) (t : Nat) :
    (sthreadUserMutexUnlock s lock).Gone t ↔ s.Gone t := by
  unfold Sys.Gone
  rw [queue_unlock (q := .zombieThrList) s trivial,
    queue_unlock (q := .deadThrList) s trivial]

private theorem gone_signal (s : Sys) (mon : Nat) (t : Nat) :
    (sthreadUserMonitorSignal s mon).Gone t ↔ s.Gone t := by
  unfold Sys.Gone
  rw [queue_signal (q := .zombieThrList) s trivial,
    queue_signal (q := .deadThrList) s trivial]

theorem gone_joined (s : Sys) (target : Nat) (t : Nat) :
    (s.poured .zombieThrList .deadThrList (· == target) id).Gone t ↔ s.Gone t := by
  unfold Sys.Gone
  rw [Sys.poured_queue, Sys.poured_queue, mem_pour (by decide), mem_pour (by decide)]
  simp only [reduceCtorEq, false_and, or_false, not_false_eq_true, and_true, true_and]
  tauto

private theorem gone_tick (h : Tidy s) (t : Nat) : (tick s).Gone t ↔ s.Gone t := by
  rw [tick_eq h]
  simp [Sys.Gone, pour]

/-- A thread that calls `exit` is among the dead or the zombies from then on, and no other is. -/
theorem Step.gone (h : Tidy s) (step : Step sched s e s') (t : Nat) :
    s'.Gone t ↔ s.Gone t ∨ (t = e.caller ∧ ∃ ret, e.op = .exit ret) := by
  obtain ⟨caller, op, ending⟩ := e
  obtain ⟨rfl, ⟨value, _, returned⟩ | ⟨u, ctx, next, gives, _, _, rfl⟩⟩ := step.cases h
  · have stays : ¬ ∃ ret, op = .exit ret := by
      rintro ⟨ret, rfl⟩
      cases returned with
      | idle idle => exact idle
      | owns locks => cases locks
      | unlocks unlocks => cases unlocks
    rw [or_iff_left fun also => stays also.2]
    cases returned with
    | idle | notFound | owns | nice => rfl
    | created => simp [Sys.Gone, put]
    | joined => exact gone_joined s _ t
    | unlocks => exact gone_unlock s _ t
    | signals => exact gone_signal s _ t
  · have resumed : ((u.save ctx).resume next).Gone t ↔ u.Gone t := by
      simp [Sys.Gone, Sys.save, withdraw]
    rw [resumed]
    cases gives with
    | exits =>
        rw [gone_exited]
        simp
    | ticks => simpa [Sys.Gone, put] using gone_tick h t
    | yields | joins | sleeps => simp [Sys.Gone, put]
    | blocks locks =>
        have stays : ¬ ∃ ret, op = .exit ret := by
          rintro ⟨ret, rfl⟩
          cases locks
        rw [or_iff_left fun also => stays also.2]
        simp [Sys.Gone, put]
    | waits =>
        rw [gone_unlock]
        simp [Sys.Gone, put]

def Exited (trace : List (Sys × Event)) (i : Nat) : Prop :=
  ∃ x ∈ trace, i = x.2.caller ∧ ∃ ret, x.2.op = .exit ret

theorem exited_iff_gone (run : Run (Traced sched) (sthreadUserInit malloc) trace s) (i : Nat) :
    Exited trace i ↔ s.Gone i := by
  induction run with
  | nil => simp [Exited, Sys.Gone, sthreadUserInit]
  | snoc run next ih =>
      obtain ⟨rfl, step⟩ := next
      rw [step.gone (placed_of_run run).tidy, ← ih]
      simp only [Exited, List.mem_append, List.mem_singleton, or_and_right, exists_or,
        exists_eq_left]

end Snfs.Threads
