import Snfs.Library.Links
import Snfs.Library.Runs

/-!
The thread queues of `sthread_lib/queue.c`. An element that a queue gives up is
kept in one variable for the next insertion into any queue, and is freed only when
that variable is taken. A queue that has become empty keeps its pointer to the
element that was its last; `create_queue` forgets the element that was kept.

Addresses are arbitrary: `malloc` returns any that is not allocated, so one that
was freed before may come back. An access to memory that is not allocated has no
result.
-/

namespace Snfs.Threads

open Links Runs

structure QueueHead (ι : Type) where
  first : Option ι
  last : Option ι

/-- The elements, the queues and `empty_element_ptr`. -/
structure QueueMem (ι κ τ : Type) where
  heap : Heap ι (Option τ)
  queues : κ → Option (QueueHead ι)
  emptyElementPtr : Option ι

section Operations
variable {ι κ τ : Type} [DecidableEq ι] [DecidableEq κ]

/-- `create_queue`, where `malloc` returns `queue`. -/
def createQueue (m : QueueMem ι κ τ) (queue : κ) : Option (QueueMem ι κ τ) :=
  if (m.queues queue).isSome then none
  else some { m with
    queues := Function.update m.queues queue (some ⟨none, none⟩)
    emptyElementPtr := none }

def freeElements : (fuel : Nat) → (pointer : Option ι) → Heap ι (Option τ) →
    Option (Heap ι (Option τ))
  | _, none, heap => some heap
  | 0, some _, _ => none
  | fuel + 1, some a, heap =>
    match heap a with
    | none => none
    | some element => freeElements fuel element.next (Function.update heap a none)

/-- `delete_queue` of a queue of `fuel` elements at most. -/
def deleteQueue (fuel : Nat) (m : QueueMem ι κ τ) (queue : κ) : Option (QueueMem ι κ τ) :=
  match m.queues queue with
  | none => none
  | some q => (freeElements fuel q.first m.heap).map fun heap =>
      { m with heap := heap, queues := Function.update m.queues queue none }

/-- The element that `queue_insert` fills: the one that was kept, or what `malloc` returns. -/
def newElement (m : QueueMem ι κ τ) (malloc : ι) : Option ι :=
  match m.emptyElementPtr with
  | some a => if (m.heap a).isSome then some a else none
  | none => if (m.heap malloc).isSome then none else some malloc

/-- `queue_insert`, where `malloc`, if it is called, returns `malloc`. -/
def queueInsert (m : QueueMem ι κ τ) (malloc : ι) (queue : κ) (thread : Option τ) :
    Option (QueueMem ι κ τ) :=
  match m.queues queue, newElement m malloc with
  | some q, some a =>
    let m := { m with
      heap := Function.update m.heap a (some ⟨thread, none⟩)
      emptyElementPtr := none }
    match q.first with
    | none => some { m with queues := Function.update m.queues queue (some ⟨some a, some a⟩) }
    | some _ =>
      match q.last with
      | none => none
      | some l =>
        match m.heap l with
        | none => none
        | some element => some { m with
            heap := Function.update m.heap l (some ⟨element.item, some a⟩)
            queues := Function.update m.queues queue (some ⟨q.first, some a⟩) }
  | _, _ => none

def queueIsEmpty (m : QueueMem ι κ τ) (queue : κ) : Option Bool :=
  (m.queues queue).map fun q => q.first.isNone

def queueFirst (m : QueueMem ι κ τ) (queue : κ) : Option (Option τ) :=
  (m.queues queue).bind fun q => q.first.bind fun a => (m.heap a).map Cell.item

def queueRemove (m : QueueMem ι κ τ) (queue : κ) : Option (Option τ × QueueMem ι κ τ) :=
  match m.queues queue with
  | none => none
  | some q =>
    match q.first with
    | none => none
    | some a =>
      match m.heap a with
      | none => none
      | some temp =>
        let queues := Function.update m.queues queue (some ⟨temp.next, q.last⟩)
        match m.emptyElementPtr with
        | some _ => some (temp.item,
            { m with heap := Function.update m.heap a none, queues := queues })
        | none => some (temp.item,
            { heap := Function.update m.heap a (some ⟨none, none⟩)
              queues := queues
              emptyElementPtr := some a })

inductive QueueOp (ι κ τ : Type) where
  | create (queue : κ)
  | insert (malloc : ι) (queue : κ) (thread : Option τ)
  | isEmpty (queue : κ)
  | first (queue : κ)
  | remove (queue : κ)
  | delete (queue : κ)

inductive QueueReturn (τ : Type) where
  | done
  | empty (answer : Bool)
  | thread (thread : Option τ)

/-- A call; a queue is deleted only when it is empty. -/
def queueStep (m : QueueMem ι κ τ) :
    QueueOp ι κ τ → Option (QueueReturn τ × QueueMem ι κ τ)
  | .create queue => (createQueue m queue).map fun m => (.done, m)
  | .insert malloc queue thread => (queueInsert m malloc queue thread).map fun m => (.done, m)
  | .isEmpty queue => (queueIsEmpty m queue).map fun answer => (.empty answer, m)
  | .first queue => (queueFirst m queue).map fun thread => (.thread thread, m)
  | .remove queue => (queueRemove m queue).map fun r => (.thread r.1, r.2)
  | .delete queue => (deleteQueue 0 m queue).map fun m => (.done, m)

def Allowed (m : QueueMem ι κ τ) : QueueOp ι κ τ → Prop
  | .insert malloc _ _ => m.emptyElementPtr = none → m.heap malloc = none
  | _ => True

instance [DecidableEq τ] (m : QueueMem ι κ τ) : (op : QueueOp ι κ τ) → Decidable (Allowed m op)
  | .insert malloc _ _ =>
      inferInstanceAs (Decidable (m.emptyElementPtr = none → m.heap malloc = none))
  | .create _ | .isEmpty _ | .first _ | .remove _ | .delete _ => .isTrue trivial

/-- What the calls are for: every queue is a list of its own. -/
def fifoStep (fifo : κ → Option (List (Option τ))) :
    QueueOp ι κ τ → Option (QueueReturn τ × (κ → Option (List (Option τ))))
  | .create queue =>
    if (fifo queue).isSome then none else some (.done, Function.update fifo queue (some []))
  | .insert _ queue thread => (fifo queue).map fun threads =>
      (.done, Function.update fifo queue (some (threads ++ [thread])))
  | .isEmpty queue => (fifo queue).map fun threads => (.empty threads.isEmpty, fifo)
  | .first queue => (fifo queue).bind fun threads =>
      threads.head?.map fun thread => (.thread thread, fifo)
  | .remove queue =>
    match fifo queue with
    | some (thread :: threads) =>
        some (.thread thread, Function.update fifo queue (some threads))
    | _ => none
  | .delete queue =>
    match fifo queue with
    | some [] => some (.done, Function.update fifo queue none)
    | _ => none

/-- The elements of each queue: they spell its threads, no element is in two queues, and the
element that is kept is allocated and in none. -/
structure Queued (m : QueueMem ι κ τ) (fifo : κ → Option (List (Option τ)))
    (cells : κ → List (ι × Option τ)) : Prop where
  closed : ∀ k, m.queues k = none → fifo k = none ∧ cells k = []
  opened : ∀ k q, m.queues k = some q → fifo k = some ((cells k).map Prod.snd)
  chain : ∀ k q, m.queues k = some q → Chain m.heap q.first (cells k) none
  last : ∀ k q, m.queues k = some q → cells k ≠ [] →
    q.last = (cells k).getLast?.map Prod.fst
  apart : ∀ k k' a, a ∈ (cells k).map Prod.fst → a ∈ (cells k').map Prod.fst → k = k'
  kept : ∀ a, m.emptyElementPtr = some a → m.heap a ≠ none
  keptAway : ∀ a, m.emptyElementPtr = some a → ∀ k, a ∉ (cells k).map Prod.fst

variable {m m' : QueueMem ι κ τ} {fifo : κ → Option (List (Option τ))}
  {cells : κ → List (ι × Option τ)} {k : κ}

namespace Queued

omit [DecidableEq ι] [DecidableEq κ] in
theorem allocated (h : Queued m fifo cells) {a : ι} (member : a ∈ (cells k).map Prod.fst) :
    m.heap a ≠ none := by
  cases head : m.queues k with
  | none =>
      rw [(h.closed k head).2] at member
      cases member
  | some q => exact (h.chain k q head).allocated member

omit [DecidableEq ι] in
/-- One queue changes: its elements are its own still, and those of the others stay as they are. -/
theorem change (h : Queued m fifo cells) {q : QueueHead ι} {new : List (ι × Option τ)}
    (queues : m'.queues = Function.update m.queues k (some q))
    (chain : Chain m'.heap q.first new none)
    (last : new ≠ [] → q.last = new.getLast?.map Prod.fst)
    (others : ∀ k' a, k' ≠ k → a ∈ (cells k').map Prod.fst → m'.heap a = m.heap a)
    (own : ∀ a ∈ new.map Prod.fst, ∀ k', k' ≠ k → a ∉ (cells k').map Prod.fst)
    (kept : ∀ a, m'.emptyElementPtr = some a → m'.heap a ≠ none ∧ a ∉ new.map Prod.fst ∧
      ∀ k', k' ≠ k → a ∉ (cells k').map Prod.fst) :
    Queued m' (Function.update fifo k (some (new.map Prod.snd)))
      (Function.update cells k new) := by
  have apart (k' k'' : κ) (a : ι) (ne : k' ≠ k'') (here : a ∈ (Function.update cells k new k').map
      Prod.fst) : a ∉ (Function.update cells k new k'').map Prod.fst := by
    by_cases first : k' = k
    · subst first
      rw [Function.update_self] at here
      rw [Function.update_of_ne ne.symm]
      exact own a here k'' ne.symm
    · rw [Function.update_of_ne first] at here
      by_cases second : k'' = k
      · subst second
        rw [Function.update_self]
        exact fun there => own a there k' first here
      · rw [Function.update_of_ne second]
        exact fun there => ne (h.apart k' k'' a here there)
  have head_of (k' : κ) (q' : QueueHead ι) (head : m'.queues k' = some q') :
      (k' = k ∧ q' = q) ∨ (k' ≠ k ∧ m.queues k' = some q') := by
    rw [queues] at head
    by_cases same : k' = k
    · subst same
      rw [Function.update_self] at head
      exact .inl ⟨rfl, (Option.some.inj head).symm⟩
    · rw [Function.update_of_ne same] at head
      exact .inr ⟨same, head⟩
  refine ⟨fun k' head => ?_, fun k' q' head => ?_, fun k' q' head => ?_, fun k' q' head some_ => ?_,
    fun k' k'' a here there => by_contra fun ne => apart k' k'' a ne here there,
    fun a ptr => (kept a ptr).1, fun a ptr k' => ?_⟩
  · have ne : k' ≠ k := by
      rintro rfl
      rw [queues, Function.update_self] at head
      cases head
    rw [queues, Function.update_of_ne ne] at head
    rw [Function.update_of_ne ne, Function.update_of_ne ne]
    exact h.closed k' head
  · obtain ⟨rfl, rfl⟩ | ⟨ne, before⟩ := head_of k' q' head
    · rw [Function.update_self, Function.update_self]
    · rw [Function.update_of_ne ne, Function.update_of_ne ne]
      exact h.opened k' q' before
  · obtain ⟨rfl, rfl⟩ | ⟨ne, before⟩ := head_of k' q' head
    · rwa [Function.update_self]
    · rw [Function.update_of_ne ne]
      exact (h.chain k' q' before).congr fun a member => others k' a ne member
  · obtain ⟨rfl, rfl⟩ | ⟨ne, before⟩ := head_of k' q' head
    · rw [Function.update_self] at some_ ⊢
      exact last some_
    · rw [Function.update_of_ne ne] at some_ ⊢
      exact h.last k' q' before some_
  · by_cases same : k' = k
    · rw [same, Function.update_self]
      exact (kept a ptr).2.1
    · rw [Function.update_of_ne same]
      exact (kept a ptr).2.2 k' same

omit [DecidableEq ι] [DecidableEq κ] in
private theorem newElement_away (h : Queued m fifo cells) {malloc : ι}
    (free : m.emptyElementPtr = none → m.heap malloc = none) :
    ∃ a, newElement m malloc = some a ∧ ∀ k, a ∉ (cells k).map Prod.fst := by
  rw [newElement]
  cases ptr : m.emptyElementPtr with
  | some b =>
      have held : (m.heap b).isSome := Option.isSome_iff_ne_none.mpr (h.kept b ptr)
      exact ⟨b, if_pos held, h.keptAway b ptr⟩
  | none =>
      have fresh : ¬ (m.heap malloc).isSome := by simp [free ptr]
      exact ⟨malloc, if_neg fresh, fun k member => h.allocated member (free ptr)⟩

theorem insert (h : Queued m fifo cells) {malloc : ι}
    (free : m.emptyElementPtr = none → m.heap malloc = none)
    {q : QueueHead ι} (head : m.queues k = some q) (thread : Option τ) :
    ∃ m' a, queueInsert m malloc k thread = some m' ∧
      Queued m' (Function.update fifo k (some ((cells k ++ [(a, thread)]).map Prod.snd)))
        (Function.update cells k (cells k ++ [(a, thread)])) := by
  obtain ⟨a, made, away⟩ := h.newElement_away free
  have chain := h.chain k q head
  have others (k' : κ) (b : ι) (member : b ∈ (cells k').map Prod.fst) : b ≠ a := by
    rintro rfl
    exact away k' member
  have own (b : ι) (member : b ∈ (cells k ++ [(a, thread)]).map Prod.fst) (k' : κ) (ne : k' ≠ k) :
      b ∉ (cells k').map Prod.fst := by
    rw [List.map_append, List.mem_append] at member
    cases member with
    | inl old => exact fun there => ne (h.apart k' k b there old)
    | inr new =>
        cases List.mem_singleton.mp new
        exact away k'
  cases first : q.first with
  | none =>
      rw [first] at chain
      have empty := chain.eq_nil
      have inserted : queueInsert m malloc k thread = some
          { heap := Function.update m.heap a (some ⟨thread, none⟩)
            queues := Function.update m.queues k (some ⟨some a, some a⟩)
            emptyElementPtr := none } := by
        simp only [queueInsert, head, made, first]
      refine ⟨_, a, inserted, h.change rfl ?_ (fun _ => ?_) (fun k' b _ member => ?_) own
        fun b ptr => (nomatch ptr)⟩
      · rw [empty]
        exact .cons (Function.update_self ..) (.nil none)
      · rw [empty]
        rfl
      · exact Function.update_of_ne (others k' b member) _ _
  | some b =>
      rw [first] at chain
      obtain ⟨l, x, last, member, held, linked⟩ := chain.link (y := thread) (away k)
      have some_ : cells k ≠ [] := by
        intro empty
        rw [empty] at member
        cases member
      have last : q.last = some l := (h.last k q head some_).trans last
      have inserted : queueInsert m malloc k thread = some
          { heap := Function.update (Function.update m.heap a (some ⟨thread, none⟩)) l
              (some ⟨x, some a⟩)
            queues := Function.update m.queues k (some ⟨some b, some a⟩)
            emptyElementPtr := none } := by
        simp only [queueInsert, head, made, first, last, held]
      refine ⟨_, a, inserted, h.change rfl linked (fun _ => by simp) (fun k' b ne there => ?_) own
        fun b ptr => (nomatch ptr)⟩
      have apart : b ≠ l := by
        rintro rfl
        exact ne (h.apart k' k b there member)
      exact (Function.update_of_ne apart _ _).trans (Function.update_of_ne (others k' b there) _ _)

theorem remove (h : Queued m fifo cells) {q : QueueHead ι} (head : m.queues k = some q)
    {a : ι} {x : Option τ} {rest : List (ι × Option τ)} (split : cells k = (a, x) :: rest) :
    ∃ m', queueRemove m k = some (x, m') ∧
      Queued m' (Function.update fifo k (some (rest.map Prod.snd)))
        (Function.update cells k rest) := by
  have chain := h.chain k q head
  have once := chain.nodup
  have last := h.last k q head (by simp [split])
  rw [split] at chain once last
  have away : a ∉ rest.map Prod.fst := (List.nodup_cons.mp once).1
  have member : a ∈ (cells k).map Prod.fst := by simp [split]
  have tail_last (some_ : rest ≠ []) : q.last = rest.getLast?.map Prod.fst := by
    rw [last, List.getLast?_cons_of_ne_nil some_]
  have others (c : Option (Cell ι (Option τ))) (k' : κ) (b : ι) (ne : k' ≠ k)
      (there : b ∈ (cells k').map Prod.fst) : Function.update m.heap a c b = m.heap b := by
    refine Function.update_of_ne ?_ _ _
    rintro rfl
    exact ne (h.apart k' k b there member)
  have own (b : ι) (here : b ∈ rest.map Prod.fst) (k' : κ) (ne : k' ≠ k) :
      b ∉ (cells k').map Prod.fst := fun there =>
    ne (h.apart k' k b there (by rw [split]; exact List.mem_cons_of_mem _ here))
  generalize first : q.first = p at chain
  cases chain with
  | @cons _ _ next _ _ here tail =>
      cases ptr : m.emptyElementPtr with
      | some b =>
          have removed : queueRemove m k = some (x,
              { m with
                heap := Function.update m.heap a none
                queues := Function.update m.queues k (some ⟨next, q.last⟩) }) := by
            simp only [queueRemove, head, first, here, ptr]
          refine ⟨_, removed, h.change rfl (tail.update_other away _) tail_last (others none) own
            fun b' same => ?_⟩
          have keptAway := h.keptAway b' same
          have apart : b' ≠ a := by
            rintro rfl
            exact keptAway k member
          refine ⟨fun freed => h.kept b' same ((Function.update_of_ne apart _ _).symm.trans freed),
            fun there => keptAway k ?_, fun k' _ => keptAway k'⟩
          rw [split]
          exact List.mem_cons_of_mem _ there
      | none =>
          have removed : queueRemove m k = some (x,
              { heap := Function.update m.heap a (some ⟨none, none⟩)
                queues := Function.update m.queues k (some ⟨next, q.last⟩)
                emptyElementPtr := some a }) := by
            simp only [queueRemove, head, first, here, ptr]
          refine ⟨_, removed, h.change rfl (tail.update_other away _) tail_last (others _) own
            fun b' same => ?_⟩
          cases same
          refine ⟨fun freed => ?_, away, fun k' ne there => ne (h.apart k' k a there member)⟩
          cases (Function.update_self ..).symm.trans freed

omit [DecidableEq ι] in
theorem create (h : Queued m fifo cells) (absent : m.queues k = none) :
    ∃ m', createQueue m k = some m' ∧
      Queued m' (Function.update fifo k (some [])) (Function.update cells k []) := by
  have made : createQueue m k = some
      { m with
        queues := Function.update m.queues k (some ⟨none, none⟩)
        emptyElementPtr := none } := by
    rw [createQueue, absent]
    rfl
  exact ⟨_, made, h.change rfl (.nil none) (fun some_ => absurd rfl some_) (fun _ _ _ _ => rfl)
    (fun a member => (by cases member)) fun a ptr => (nomatch ptr)⟩

theorem delete (h : Queued m fifo cells) {q : QueueHead ι} (head : m.queues k = some q)
    (empty : cells k = []) :
    ∃ m', deleteQueue 0 m k = some m' ∧ Queued m' (Function.update fifo k none) cells := by
  have chain := h.chain k q head
  rw [empty] at chain
  have deleted : deleteQueue 0 m k = some { m with queues := Function.update m.queues k none } := by
    rw [deleteQueue, head]
    cases first : q.first with
    | none => simp [first, freeElements]
    | some a =>
        rw [first] at chain
        cases chain
  have before (k' : κ) (q' : QueueHead ι)
      (there : Function.update m.queues k none k' = some q') : k' ≠ k ∧ m.queues k' = some q' := by
    have ne : k' ≠ k := by
      rintro rfl
      rw [Function.update_self] at there
      cases there
    exact ⟨ne, by rwa [Function.update_of_ne ne] at there⟩
  refine ⟨_, deleted, fun k' gone => ?_, fun k' q' there => ?_,
    fun k' q' there => h.chain k' q' (before k' q' there).2,
    fun k' q' there => h.last k' q' (before k' q' there).2, h.apart, h.kept, h.keptAway⟩
  · by_cases same : k' = k
    · subst same
      exact ⟨Function.update_self .., empty⟩
    · rw [Function.update_of_ne same]
      exact h.closed k' ((Function.update_of_ne same _ _).symm.trans gone)
  · obtain ⟨ne, there⟩ := before k' q' there
    rw [Function.update_of_ne ne]
    exact h.opened k' q' there

end Queued

def HoldsFifo (m : QueueMem ι κ τ) (fifo : κ → Option (List (Option τ))) : Prop :=
  ∃ cells, Queued m fifo cells

/-- Every call does to the queues what it does to the lists. -/
theorem queues_simulate_lists :
    Simulates (queueStep (ι := ι) (κ := κ) (τ := τ)) fifoStep HoldsFifo Allowed := by
  rintro m fifo op ⟨cells, h⟩ allowed
  cases op with
  | create k =>
      cases head : m.queues k with
      | none =>
          obtain ⟨m', made, after⟩ := h.create head
          simp only [queueStep, made, fifoStep, (h.closed k head).1]
          exact .some ⟨rfl, _, after⟩
      | some q =>
          simp only [queueStep, createQueue, head, fifoStep, h.opened k q head]
          exact .none
  | insert malloc k thread =>
      cases head : m.queues k with
      | none =>
          simp only [queueStep, queueInsert, head, fifoStep, (h.closed k head).1]
          exact .none
      | some q =>
          obtain ⟨m', a, made, after⟩ := h.insert allowed head thread
          simp only [queueStep, made, fifoStep, h.opened k q head, Option.map_some]
          rw [List.map_append] at after
          exact .some ⟨rfl, _, after⟩
  | isEmpty k =>
      cases head : m.queues k with
      | none =>
          simp only [queueStep, queueIsEmpty, head, fifoStep, (h.closed k head).1]
          exact .none
      | some q =>
          simp only [queueStep, queueIsEmpty, head, fifoStep, h.opened k q head, Option.map_some,
            (h.chain k q head).start]
          refine .some ⟨?_, _, h⟩
          cases cells k <;> rfl
  | first k =>
      cases head : m.queues k with
      | none =>
          simp only [queueStep, queueFirst, head, fifoStep, (h.closed k head).1]
          exact .none
      | some q =>
          have chain := h.chain k q head
          simp only [queueStep, queueFirst, head, fifoStep, h.opened k q head, Option.bind_some]
          generalize q.first = p at chain
          generalize cells k = elements at chain
          cases chain with
          | nil => exact .none
          | cons here _ =>
              simp only [Option.bind_some, here]
              exact .some ⟨rfl, _, h⟩
  | remove k =>
      cases head : m.queues k with
      | none =>
          simp only [queueStep, queueRemove, head, fifoStep, (h.closed k head).1]
          exact .none
      | some q =>
          simp only [queueStep, fifoStep, h.opened k q head]
          cases split : cells k with
          | nil =>
              have start := (h.chain k q head).start
              rw [split] at start
              simp only [queueRemove, head, start]
              exact .none
          | cons c rest =>
              obtain ⟨m', removed, after⟩ := h.remove head split
              simp only [removed, List.map_cons, Option.map_some]
              exact .some ⟨rfl, _, after⟩
  | delete k =>
      cases head : m.queues k with
      | none =>
          simp only [queueStep, deleteQueue, head, fifoStep, (h.closed k head).1]
          exact .none
      | some q =>
          simp only [queueStep, fifoStep, h.opened k q head]
          cases split : cells k with
          | nil =>
              obtain ⟨m', deleted, after⟩ := h.delete head split
              simp only [deleted, List.map_nil, Option.map_some]
              exact .some ⟨rfl, _, after⟩
          | cons c rest =>
              have start := (h.chain k q head).start
              rw [split] at start
              simp only [deleteQueue, head, start]
              exact .none

/-- Memory in which no queue has been created: `empty_element_ptr` is a null pointer. -/
def noQueues (heap : Heap ι (Option τ)) : QueueMem ι κ τ := ⟨heap, fun _ => none, none⟩

omit [DecidableEq ι] [DecidableEq κ] in
private theorem holdsFifo_noQueues (heap : Heap ι (Option τ)) :
    HoldsFifo (noQueues heap : QueueMem ι κ τ) fun _ => none :=
  ⟨fun _ => [], fun _ _ => ⟨rfl, rfl⟩, fun _ _ head => (nomatch head),
    fun _ _ head => (nomatch head), fun _ _ head => (nomatch head),
    fun _ _ _ member => (nomatch member), fun _ ptr => (nomatch ptr), fun _ ptr => (nomatch ptr)⟩

/-- After every sequence of calls on any number of queues each queue holds what a list would hold
that takes new threads at its end and gives them up at its start, every call has returned what
the lists return and the next one will, and the element that is kept can be reached from no
queue and is allocated. -/
theorem queues_are_fifo {heap : Heap ι (Option τ)}
    {trace : List (QueueOp ι κ τ × QueueReturn τ)} {m : QueueMem ι κ τ}
    (run : Run (Guarded (fun m e => Allowed m e.1) (Next queueStep)) (noQueues heap) trace m) :
    ∃ fifo, execute fifoStep (fun _ => none) (trace.map Prod.fst) = some (trace, fifo) ∧
      (∀ k, (m.queues k).isSome = (fifo k).isSome) ∧
      (∀ k q threads, m.queues k = some q → fifo k = some threads →
        Contents m.heap q.first threads) ∧
      (∀ a, m.emptyElementPtr = some a → m.heap a ≠ none ∧
        ∀ k q, m.queues k = some q → ¬ Links.Reaches m.heap q.first a) ∧
      ∀ op, Allowed m op → (queueStep m op).map Prod.fst = (fifoStep fifo op).map Prod.fst := by
  obtain ⟨fifo, executed, cells, h⟩ :=
    queues_simulate_lists.execute (holdsFifo_noQueues heap) run
  refine ⟨fifo, executed, fun k => ?_, fun k q threads head held => ?_,
    fun a ptr => ⟨h.kept a ptr, fun k q head => ?_⟩,
    fun op allowed => queues_simulate_lists.result ⟨cells, h⟩ allowed⟩
  · cases head : m.queues k with
    | none => rw [(h.closed k head).1]; rfl
    | some q => rw [h.opened k q head]; rfl
  · rw [h.opened k q head] at held
    cases held
    exact ⟨cells k, h.chain k q head, rfl⟩
  · rw [(h.chain k q head).reaches_iff]
    exact h.keptAway a ptr k

end Operations

/-- The element that queue 0 gives up is filled for queue 1, and the next one is freed. -/
theorem queues_are_fifo_two_queues :
    ∃ (trace : List (QueueOp Nat Nat Nat × QueueReturn Nat)) (m : QueueMem Nat Nat Nat)
      (q : QueueHead Nat),
      execute queueStep (noQueues fun _ => none) [.create 0, .create 1, .insert 5 0 (some 7),
        .insert 6 0 (some 8), .remove 0, .insert 6 1 (some 9), .insert 4 1 (some 3), .remove 0,
        .remove 1] = some (trace, m) ∧
      m.queues 1 = some q ∧ Contents m.heap q.first [some 3] := by
  obtain ⟨⟨trace, m⟩, executed⟩ : ∃ r : List (QueueOp Nat Nat Nat × QueueReturn Nat) ×
      QueueMem Nat Nat Nat, execute queueStep (noQueues fun _ => none) [.create 0, .create 1,
        .insert 5 0 (some 7), .insert 6 0 (some 8), .remove 0, .insert 6 1 (some 9),
        .insert 4 1 (some 3), .remove 0, .remove 1] = some r := ⟨_, rfl⟩
  obtain ⟨fifo, lists, -, contents, -, -⟩ :=
    queues_are_fifo (run_of_execute executed (by decide))
  cases executed
  cases lists
  exact ⟨_, _, _, rfl, rfl, contents 1 _ _ rfl rfl⟩

end Snfs.Threads
