import Mathlib.Logic.Relation

/-!
Finite runs of a labelled transition system, with the trace of labels they
leave. `Guarded` restricts a system to the steps that meet a condition on the
label and the state before the step, so a run of the guarded system is a run
whose steps all meet it. A step that is computed from an action is a system whose
labels pair the action with what the step returns; `execute` runs it. A computed
system that simulates another one returns what the other returns.
-/

namespace Runs

universe u v
variable {σ : Type u} {ε : Type v}

inductive Run (step : σ → ε → σ → Prop) (start : σ) : List ε → σ → Prop where
  | nil : Run step start [] start
  | snoc {trace : List ε} {s s' : σ} {e : ε} :
      Run step start trace s → step s e s' → Run step start (trace ++ [e]) s'

def Guarded (guard : σ → ε → Prop) (step : σ → ε → σ → Prop) : σ → ε → σ → Prop :=
  fun s e s' => guard s e ∧ step s e s'

variable {step : σ → ε → σ → Prop} {start : σ}

/-- A relation between traces and states that holds at the start and survives every step
holds after every run. -/
theorem Run.trace_invariant {I : List ε → σ → Prop} (init : I [] start)
    (keep : ∀ trace s e s', I trace s → step s e s' → I (trace ++ [e]) s')
    {trace : List ε} {s : σ} (run : Run step start trace s) : I trace s := by
  induction run with
  | nil => exact init
  | snoc _ next ih => exact keep _ _ _ _ ih next

theorem Run.invariant {I : σ → Prop} (init : I start)
    (keep : ∀ s e s', I s → step s e s' → I s') {trace : List ε} {s : σ}
    (run : Run step start trace s) : I s :=
  run.trace_invariant (I := fun _ s => I s) init fun _ s e s' => keep s e s'

theorem Run.mono {step' : σ → ε → σ → Prop} (sub : ∀ s e s', step s e s' → step' s e s')
    {trace : List ε} {s : σ} (run : Run step start trace s) : Run step' start trace s := by
  induction run with
  | nil => exact .nil
  | snoc _ next ih => exact .snoc ih (sub _ _ _ next)

theorem Run.append {trace trace' : List ε} {s s' : σ} (run : Run step start trace s)
    (more : Run step s trace' s') : Run step start (trace ++ trace') s' := by
  induction more with
  | nil => rwa [List.append_nil]
  | snoc _ next ih =>
      rw [← List.append_assoc]
      exact .snoc ih next

/-- The step that a run takes at some place of its trace. -/
theorem Run.split {before after : List ε} {e : ε} {s' : σ}
    (run : Run step start (before ++ e :: after) s') :
    ∃ s₁ s₂, Run step start before s₁ ∧ step s₁ e s₂ := by
  generalize whole : before ++ e :: after = trace at run
  induction run generalizing after with
  | nil => exact absurd whole (List.append_ne_nil_of_right_ne_nil _ (List.cons_ne_nil e after))
  | @snoc trace s s' last run next ih =>
      rcases List.eq_nil_or_concat after with rfl | ⟨rest, e', rfl⟩
      · obtain ⟨rfl, same⟩ := List.append_inj' whole rfl
        cases same
        exact ⟨s, s', run, next⟩
      · rw [List.concat_eq_append, ← List.cons_append, ← List.append_assoc] at whole
        exact ih (List.append_inj' whole rfl).1

section Executable
universe w x
variable {α : Type w} {β : Type x} (step : σ → α → Option (β × σ))

def Next (s : σ) (e : α × β) (s' : σ) : Prop := step s e.1 = some (e.2, s')

def execute (s : σ) : List α → Option (List (α × β) × σ)
  | [] => some ([], s)
  | a :: rest =>
    match step s a with
    | none => none
    | some (b, s') => (execute s' rest).map fun r => ((a, b) :: r.1, r.2)

/-- Every action of the list meets the condition in the state in which it is taken. -/
def Meets (guard : σ → α → Prop) (s : σ) : List α → Prop
  | [] => True
  | a :: rest => guard s a ∧ ∀ next, step s a = some next → Meets guard next.2 rest

instance decidableMeets {guard : σ → α → Prop} [∀ s a, Decidable (guard s a)] :
    ∀ (actions : List α) (s : σ), Decidable (Meets step guard s actions)
  | [], _ => .isTrue trivial
  | a :: rest, s =>
    match next : step s a with
    | none => decidable_of_iff (guard s a)
        ⟨fun met => ⟨met, fun _ other => by simp [next] at other⟩, fun met => met.1⟩
    | some r =>
      have : Decidable (Meets step guard r.2 rest) := decidableMeets rest r.2
      decidable_of_iff (guard s a ∧ Meets step guard r.2 rest)
        ⟨fun met => ⟨met.1, fun _ other => by
          rw [next] at other
          cases other
          exact met.2⟩, fun met => ⟨met.1, met.2 r next⟩⟩

variable {step}

theorem meets_of_forall {guard : α → Prop} {actions : List α} (h : ∀ a ∈ actions, guard a)
    (s : σ) : Meets step (fun _ a => guard a) s actions := by
  induction actions generalizing s with
  | nil => trivial
  | cons a rest ih =>
      exact ⟨h a List.mem_cons_self, fun next _ =>
        ih (fun b member => h b (List.mem_cons_of_mem a member)) next.2⟩

theorem execute_cons {s s' : σ} {a : α} {rest : List α} {trace : List (α × β)}
    (executed : execute step s (a :: rest) = some (trace, s')) :
    ∃ b s₁ trace', step s a = some (b, s₁) ∧ execute step s₁ rest = some (trace', s') ∧
      trace = (a, b) :: trace' := by
  simp only [execute] at executed
  split at executed
  · cases executed
  · rename_i b s₁ next
    obtain ⟨⟨trace', s₂⟩, after, same⟩ := Option.map_eq_some_iff.mp executed
    cases same
    exact ⟨b, s₁, trace', next, after, rfl⟩

/-- Actions that all meet a condition leave a run. -/
theorem run_of_execute {guard : σ → α → Prop} {s s' : σ} {actions : List α}
    {trace : List (α × β)} (executed : execute step s actions = some (trace, s'))
    (meet : Meets step guard s actions) :
    Run (Guarded (fun s e => guard s e.1) (Next step)) s trace s' := by
  induction actions generalizing s trace with
  | nil =>
      cases executed
      exact .nil
  | cons a rest ih =>
      obtain ⟨b, s₁, trace, next, more, rfl⟩ := execute_cons executed
      have first : Run (Guarded (fun s e => guard s e.1) (Next step)) s [(a, b)] s₁ :=
        Run.nil.snoc ⟨meet.1, next⟩
      exact first.append (ih more (meet.2 (b, s₁) next))

theorem run_of_executed {s s' : σ} {actions : List α} {trace : List (α × β)}
    (executed : execute step s actions = some (trace, s')) : Run (Next step) s trace s' :=
  (run_of_execute executed (meets_of_forall (fun _ _ => trivial) s)).mono
    fun _ _ _ next => next.2

end Executable

section Simulation
universe w x y
variable {α : Type w} {β : Type x} {τ : Type y} {step : σ → α → Option (β × σ)}
  {step' : τ → α → Option (β × τ)}

theorem execute_append {s s' : σ} {actions : List α} {trace : List (α × β)}
    (executed : execute step s actions = some (trace, s')) (more : List α) :
    execute step s (actions ++ more) =
      (execute step s' more).map fun r => (trace ++ r.1, r.2) := by
  induction actions generalizing s trace with
  | nil =>
      cases executed
      simp
  | cons a rest ih =>
      obtain ⟨b, s₁, trace, next, after, rfl⟩ := execute_cons executed
      simp only [List.cons_append, execute, next, ih after, Option.map_map]
      rfl

/-- In related states an action returns the same in both systems and leads to related states. -/
def Simulates (step : σ → α → Option (β × σ)) (step' : τ → α → Option (β × τ))
    (R : σ → τ → Prop) (guard : σ → α → Prop) : Prop :=
  ∀ s t a, R s t → guard s a →
    Option.Rel (fun x y => x.1 = y.1 ∧ R x.2 y.2) (step s a) (step' t a)

theorem execute_isSome (total : ∀ s a, (step s a).isSome) (actions : List α) (s : σ) :
    (execute step s actions).isSome := by
  induction actions generalizing s with
  | nil => rfl
  | cons a rest ih =>
      obtain ⟨x, first⟩ := Option.isSome_iff_exists.mp (total s a)
      simpa [execute, first] using ih x.2

variable {R : σ → τ → Prop} {guard : σ → α → Prop}

theorem Simulates.result (h : Simulates step step' R guard) {s : σ} {t : τ} {a : α}
    (related : R s t)
    (met : guard s a) : (step s a).map Prod.fst = (step' t a).map Prod.fst := by
  have rel := h s t a related met
  generalize step s a = x at rel
  generalize step' t a = y at rel
  cases rel with
  | none => rfl
  | some same => exact congrArg some same.1

/-- Related states cannot be told apart by what the actions return. -/
theorem Simulates.results (h : Simulates step step' R fun _ _ => True) {s : σ} {t : τ}
    (related : R s t) (actions : List α) :
    (execute step s actions).map Prod.fst = (execute step' t actions).map Prod.fst := by
  induction actions generalizing s t with
  | nil => rfl
  | cons a rest ih =>
      have rel := h s t a related trivial
      rw [execute, execute]
      generalize step s a = x at rel
      generalize step' t a = y at rel
      cases rel with
      | none => rfl
      | @some x y same =>
          have tails := congrArg (Option.map ((a, x.1) :: ·)) (ih same.2)
          dsimp only
          rw [Option.map_map] at tails ⊢
          rw [Option.map_map, same.1]
          rw [Option.map_map, same.1] at tails
          exact tails

/-- A run of a system is an execution of the system that it simulates. -/
theorem Simulates.execute (h : Simulates step step' R guard) {s s' : σ} {t : τ}
    {trace : List (α × β)} (related : R s t)
    (run : Run (Guarded (fun s e => guard s e.1) (Next step)) s trace s') :
    ∃ t', Runs.execute step' t (trace.map Prod.fst) = some (trace, t') ∧ R s' t' := by
  induction run with
  | nil => exact ⟨t, rfl, related⟩
  | @snoc trace s₁ s₂ e _ next ih =>
      obtain ⟨a, b⟩ := e
      obtain ⟨t₁, before, related₁⟩ := ih
      obtain ⟨met, next⟩ := next
      have rel := h s₁ t₁ a related₁ met
      rw [show step s₁ a = some (b, s₂) from next] at rel
      generalize after : step' t₁ a = y at rel
      cases rel with
      | @some _ pair same =>
          obtain ⟨b', t₂⟩ := pair
          obtain ⟨rfl, related₂⟩ := same
          refine ⟨t₂, ?_, related₂⟩
          rw [List.map_append, execute_append before]
          simp only [List.map_cons, List.map_nil, Runs.execute, after, Option.map_some]

/-- Two runs of the same actions return the same, and so does the next action. -/
theorem Simulates.same_results (h : Simulates step step' R guard) {s₁ s₂ s₁' s₂' : σ} {t : τ}
    {trace₁ trace₂ : List (α × β)} (related₁ : R s₁ t) (related₂ : R s₂ t)
    (run₁ : Run (Guarded (fun s e => guard s e.1) (Next step)) s₁ trace₁ s₁')
    (run₂ : Run (Guarded (fun s e => guard s e.1) (Next step)) s₂ trace₂ s₂')
    (same : trace₁.map Prod.fst = trace₂.map Prod.fst) :
    trace₁ = trace₂ ∧ ∀ a, guard s₁' a → guard s₂' a →
      (step s₁' a).map Prod.fst = (step s₂' a).map Prod.fst := by
  obtain ⟨t₁, done₁, after₁⟩ := h.execute related₁ run₁
  obtain ⟨t₂, done₂, after₂⟩ := h.execute related₂ run₂
  rw [same, done₂] at done₁
  cases done₁
  exact ⟨rfl, fun a met₁ met₂ => (h.result after₁ met₁).trans (h.result after₂ met₂).symm⟩

/-- Where an action returns the same in both systems exactly when it meets the guard, and then
leads to related states, so do the lists of actions. -/
theorem results_eq_iff_meets (total : ∀ s a, (step s a).isSome) (total' : ∀ t a, (step' t a).isSome)
    (agree : ∀ s t a x y, R s t → step s a = some x → step' t a = some y →
      (x.1 = y.1 ↔ guard s a) ∧ (guard s a → R x.2 y.2))
    (actions : List α) {s : σ} {t : τ} (related : R s t) :
    (execute step s actions).map Prod.fst = (execute step' t actions).map Prod.fst ↔
      Meets step guard s actions := by
  induction actions generalizing s t with
  | nil => exact ⟨fun _ => trivial, fun _ => rfl⟩
  | cons a rest ih =>
      obtain ⟨x, first⟩ := Option.isSome_iff_exists.mp (total s a)
      obtain ⟨y, first'⟩ := Option.isSome_iff_exists.mp (total' t a)
      obtain ⟨same, keep⟩ := agree s t a x y related first first'
      obtain ⟨r, done⟩ := Option.isSome_iff_exists.mp (execute_isSome total rest x.2)
      obtain ⟨r', done'⟩ := Option.isSome_iff_exists.mp (execute_isSome total' rest y.2)
      have split : (execute step s (a :: rest)).map Prod.fst =
          (execute step' t (a :: rest)).map Prod.fst ↔ x.1 = y.1 ∧ r.1 = r'.1 := by
        simp [execute, first, first', done, done']
      rw [split]
      constructor
      · intro equal
        have met := same.mp equal.1
        refine ⟨met, fun next now => ?_⟩
        rw [first] at now
        cases now
        refine (ih (keep met)).mp ?_
        rw [done, done', Option.map_some, Option.map_some, equal.2]
      · intro meet
        have rests := (ih (keep meet.1)).mpr (meet.2 x first)
        rw [done, done', Option.map_some, Option.map_some] at rests
        exact ⟨same.mpr meet.1, Option.some.inj rests⟩

end Simulation

end Runs
