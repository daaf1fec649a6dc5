import Snfs.Client.Descriptors
import Snfs.Library.Links

/-!
The list of open files as `snfs_lib/queue.c` keeps it, in linked elements, and the
count that `my_open` and `my_close` keep beside it. The elements point to descriptors
whose number is read through the pointer. `malloc` returns any address that is not
allocated; an access to memory that is not allocated has no result, and a loop that
takes more rounds than it is given has none either.
-/

namespace Snfs

open Links Runs

/-- `queue_t`, with the memory that its elements are in. -/
structure FileQueue (ι φ : Type) where
  heap : Heap ι φ
  first : Option ι
  last : Option ι

namespace FileQueue

section Operations
variable {ι φ : Type} [DecidableEq ι] (fileId : φ → Int)

def queueCreate (heap : Heap ι φ) : FileQueue ι φ := ⟨heap, none, none⟩

/-- `queue_enqueue`, where `malloc`, if it is called, returns `malloc`. -/
def queueEnqueue (queue : FileQueue ι φ) (malloc : ι) : Option φ → Option (FileQueue ι φ)
  | none => some queue
  | some fd =>
    if (queue.heap malloc).isSome then none
    else
      let heap := Function.update queue.heap malloc (some ⟨fd, none⟩)
      match queue.first with
      | none => some ⟨heap, some malloc, some malloc⟩
      | some _ =>
        match queue.last with
        | none => none
        | some l =>
          match heap l with
          | none => none
          | some element => some
              ⟨Function.update heap l (some ⟨element.item, some malloc⟩), queue.first, some malloc⟩

def queueDequeue (queue : FileQueue ι φ) : Option (Option φ × FileQueue ι φ) :=
  match queue.first with
  | none => some (none, queue)
  | some a =>
    match queue.heap a with
    | none => none
    | some out =>
      let heap := Function.update queue.heap a none
      if queue.first = queue.last then some (some out.item, ⟨heap, none, none⟩)
      else some (some out.item, ⟨heap, out.next, queue.last⟩)

def findFrom (heap : Heap ι φ) (id : Int) : (fuel : Nat) → (aux : Option ι) → Option (Option φ)
  | _, none => some none
  | 0, some _ => none
  | fuel + 1, some a =>
    match heap a with
    | none => none
    | some element =>
      if fileId element.item = id then some (some element.item)
      else findFrom heap id fuel element.next

def queueNodeGet (fuel : Nat) (queue : FileQueue ι φ) (id : Int) : Option (Option φ) :=
  findFrom fileId queue.heap id fuel queue.first

def queueNodeSearch (fuel : Nat) (queue : FileQueue ι φ) (id : Int) : Option Bool :=
  (findFrom fileId queue.heap id fuel queue.first).map Option.isSome

/-- The loop of `queue_node_remove`, behind the element `aux1`. -/
def removeBehind (queue : FileQueue ι φ) (id : Int) :
    (fuel : Nat) → (aux1 : ι) → (aux2 : Option ι) → Option (Option φ × FileQueue ι φ)
  | _, _, none => some (none, queue)
  | 0, _, some _ => none
  | fuel + 1, aux1, some b =>
    match queue.heap aux1, queue.heap b with
    | some before, some element =>
      if fileId element.item = id then
        let last := if queue.last = some b then some aux1 else queue.last
        let heap := Function.update queue.heap aux1 (some ⟨before.item, element.next⟩)
        some (some element.item, ⟨Function.update heap b none, queue.first, last⟩)
      else removeBehind queue id fuel b element.next
    | _, _ => none

def queueNodeRemove (fuel : Nat) (queue : FileQueue ι φ) (id : Int) :
    Option (Option φ × FileQueue ι φ) :=
  match queue.first with
  | none => some (none, queue)
  | some a =>
    match queue.heap a with
    | none => none
    | some element =>
      if fileId element.item = id then queueDequeue queue
      else removeBehind fileId queue id fuel a element.next

inductive Call (ι φ : Type) where
  | enqueue (malloc : ι) (fd : Option φ)
  | dequeue
  | nodeGet (id : Int)
  | nodeSearch (id : Int)
  | nodeRemove (id : Int)

inductive Answer (φ : Type) where
  | done
  | desc (fd : Option φ)
  | found (answer : Bool)

/-- A call whose loop takes at most `fuel` rounds. -/
def call (fuel : Nat) (queue : FileQueue ι φ) : Call ι φ → Option (Answer φ × FileQueue ι φ)
  | .enqueue malloc fd => (queueEnqueue queue malloc fd).map fun queue => (.done, queue)
  | .dequeue => (queueDequeue queue).map fun r => (.desc r.1, r.2)
  | .nodeGet id => (queueNodeGet fileId fuel queue id).map fun fd => (.desc fd, queue)
  | .nodeSearch id => (queueNodeSearch fileId fuel queue id).map fun answer => (.found answer, queue)
  | .nodeRemove id => (queueNodeRemove fileId fuel queue id).map fun r => (.desc r.1, r.2)

/-- `malloc`, if it is called, returns an address that is not allocated. -/
def Allowed (queue : FileQueue ι φ) : Call ι φ → Prop
  | .enqueue malloc (some _) => queue.heap malloc = none
  | _ => True

instance [DecidableEq φ] (queue : FileQueue ι φ) : (c : Call ι φ) → Decidable (queue.Allowed c)
  | .enqueue malloc (some _) => inferInstanceAs (Decidable (queue.heap malloc = none))
  | .enqueue _ none | .dequeue | .nodeGet _ | .nodeSearch _ | .nodeRemove _ => .isTrue trivial

def Returns (queue : FileQueue ι φ) (e : Call ι φ × Answer φ) (queue' : FileQueue ι φ) : Prop :=
  ∃ fuel, call fileId fuel queue e.1 = some (e.2, queue')

def listCall (fds : List φ) : Call ι φ → Option (Answer φ × List φ)
  | .enqueue _ fd => some (.done, fds ++ fd.toList)
  | .dequeue => some (.desc fds.head?, fds.tail)
  | .nodeGet id => some (.desc (fds.find? fun fd => fileId fd = id), fds)
  | .nodeSearch id => some (.found (fds.any fun fd => fileId fd = id), fds)
  | .nodeRemove id =>
      some (.desc (fds.find? fun fd => fileId fd = id), fds.eraseP fun fd => fileId fd = id)

/-- The elements from the first on, of which the last is the one that `last` points to. -/
structure Spells (queue : FileQueue ι φ) (cells : List (ι × φ)) : Prop where
  chain : Chain queue.heap queue.first cells none
  last : queue.last = cells.getLast?.map Prod.fst

def Holds (queue : FileQueue ι φ) (fds : List φ) : Prop :=
  ∃ cells, queue.Spells cells ∧ cells.map Prod.snd = fds

variable {queue queue' : FileQueue ι φ} {cells : List (ι × φ)} {fileId : φ → Int}

private theorem getLast?_behind {α : Type} {front back : List α} {c : α} (more : back ≠ []) :
    (front ++ c :: back).getLast? = back.getLast? := by
  rw [List.getLast?_append_of_ne_nil _ (List.cons_ne_nil _ _), List.getLast?_cons_of_ne_nil more]

namespace Spells

omit [DecidableEq ι] in
private theorem last_ne (h : queue.Spells cells) (front : List (ι × φ)) {back : List (ι × φ)}
    {a : ι}
    {x : φ} (split : cells = front ++ (a, x) :: back) (more : back ≠ []) : queue.last ≠ some a := by
  have once := h.chain.nodup
  rw [split, List.map_append, List.nodup_append, List.map_cons, List.nodup_cons] at once
  obtain ⟨init, ⟨l, y⟩, rfl⟩ := (List.eq_nil_or_concat' back).resolve_left more
  have last : queue.last = some l := by
    rw [h.last, split, ← List.cons_append, ← List.append_assoc, List.getLast?_concat,
      Option.map_some]
  rw [last]
  rintro same
  cases same
  exact once.2.1.1 (by simp)

theorem enqueue (h : queue.Spells cells) {malloc : ι} (free : queue.heap malloc = none) (fd : φ) :
    ∃ queue', queueEnqueue queue malloc (some fd) = some queue' ∧
      queue'.Spells (cells ++ [(malloc, fd)]) := by
  have away : malloc ∉ cells.map Prod.fst := fun member => h.chain.allocated member free
  have chain := h.chain
  cases first : queue.first with
  | none =>
      rw [first] at chain
      have enqueued : queueEnqueue queue malloc (some fd) = some
          ⟨Function.update queue.heap malloc (some ⟨fd, none⟩), some malloc, some malloc⟩ := by
        simp [queueEnqueue, free, first]
      refine ⟨_, enqueued, ?_, by simp⟩
      rw [chain.eq_nil]
      exact .cons (Function.update_self ..) (.nil none)
  | some b =>
      rw [first] at chain
      obtain ⟨l, x, last, _, held, linked⟩ := chain.link (y := fd) away
      have last : queue.last = some l := h.last.trans last
      have enqueued : queueEnqueue queue malloc (some fd) = some
          ⟨Function.update (Function.update queue.heap malloc (some ⟨fd, none⟩)) l
            (some ⟨x, some malloc⟩), some b, some malloc⟩ := by
        simp [queueEnqueue, free, first, last, held]
      exact ⟨_, enqueued, linked, by simp⟩

theorem dequeue {a : ι} {x : φ} {rest : List (ι × φ)} (h : queue.Spells ((a, x) :: rest)) :
    ∃ queue', queueDequeue queue = some (some x, queue') ∧ queue'.Spells rest := by
  have chain := h.chain
  have away : a ∉ rest.map Prod.fst := (List.nodup_cons.mp chain.nodup).1
  have start : queue.first = some a := chain.start
  rw [start] at chain
  cases chain with
  | @cons _ _ next _ _ here tail =>
      have kept := tail.update_other away none
      by_cases only : rest = []
      · subst only
        have last : queue.last = some a := h.last
        have dequeued : queueDequeue queue =
            some (some x, ⟨Function.update queue.heap a none, none, none⟩) := by
          simp only [queueDequeue, start, here, last, if_true]
        exact ⟨_, dequeued, .nil none, rfl⟩
      · have ne : some a ≠ queue.last := (h.last_ne [] rfl only).symm
        have dequeued : queueDequeue queue =
            some (some x, ⟨Function.update queue.heap a none, next, queue.last⟩) := by
          simp only [queueDequeue, start, here, ne, if_false]
        refine ⟨_, dequeued, kept, ?_⟩
        rw [h.last, List.getLast?_cons_of_ne_nil only]

omit [DecidableEq ι] in
theorem findFrom (fileId : φ → Int) {heap : Heap ι φ} {p : Option ι}
    (chain : Chain heap p cells none) (id : Int) {fuel : Nat} (enough : cells.length ≤ fuel) :
    FileQueue.findFrom fileId heap id fuel p =
      some ((cells.map Prod.snd).find? fun fd => fileId fd = id) := by
  induction cells generalizing p fuel with
  | nil =>
      cases chain
      cases fuel <;> rfl
  | cons c rest ih =>
      cases chain with
      | @cons a x next _ _ here tail =>
          cases fuel with
          | zero => exact absurd enough (by simp)
          | succ fuel =>
              rw [FileQueue.findFrom, here]
              dsimp only
              rw [List.map_cons, List.find?_cons]
              by_cases found : fileId x = id
              · simp [found]
              · rw [if_neg found, ih tail (Nat.le_of_succ_le_succ enough)]
                simp [found]

theorem removeBehind (fileId : φ → Int) {front back : List (ι × φ)} {a : ι} {x : φ} {p : Option ι}
    (h : queue.Spells (front ++ (a, x) :: back)) (tail : Chain queue.heap p back none) (id : Int)
    {fuel : Nat} (enough : back.length ≤ fuel) :
    ∃ queue', FileQueue.removeBehind fileId queue id fuel a p =
        some ((back.map Prod.snd).find? fun fd => fileId fd = id, queue') ∧
      queue'.Spells (front ++ (a, x) :: back.eraseP fun c => fileId c.2 = id) := by
  induction back generalizing front a x p fuel with
  | nil =>
      cases tail
      refine ⟨queue, ?_, h⟩
      cases fuel <;> rfl
  | cons c post ih =>
      cases tail with
      | @cons b y next _ _ here tail =>
          have split : front ++ (a, x) :: (b, y) :: post = (front ++ [(a, x)]) ++ (b, y) :: post := by
            rw [List.append_assoc, List.singleton_append]
          cases fuel with
          | zero => exact absurd enough (by simp)
          | succ fuel =>
              obtain ⟨_, _, there⟩ := h.chain.split
              cases there with
              | cons before _ =>
                  rw [FileQueue.removeBehind, before, here]
                  dsimp only
                  rw [List.map_cons, List.find?_cons]
                  by_cases found : fileId y = id
                  · rw [List.eraseP_cons_of_pos (by simp [found])]
                    simp only [found, if_true, decide_true]
                    refine ⟨_, rfl, h.chain.unlink here, ?_⟩
                    by_cases only : post = []
                    · subst only
                      have last : queue.last = some b := by
                        rw [h.last]
                        simp
                      simp [last]
                    · have ne : queue.last ≠ some b :=
                        h.last_ne (front ++ [(a, x)]) split only
                      rw [if_neg ne, h.last, split, getLast?_behind only, getLast?_behind only]
                  · rw [List.eraseP_cons_of_neg (by simp [found])]
                    simp only [found, if_false, decide_false]
                    rw [split] at h
                    obtain ⟨queue', removed, after⟩ :=
                      ih h tail (Nat.le_of_succ_le_succ enough)
                    rw [List.append_assoc, List.singleton_append] at after
                    exact ⟨queue', removed, after⟩

theorem nodeRemove (fileId : φ → Int) (h : queue.Spells cells) (id : Int) {fuel : Nat}
    (enough : cells.length ≤ fuel) :
    ∃ queue', queueNodeRemove fileId fuel queue id =
        some ((cells.map Prod.snd).find? fun fd => fileId fd = id, queue') ∧
      queue'.Spells (cells.eraseP fun c => fileId c.2 = id) := by
  cases cells with
  | nil =>
      have start : queue.first = none := h.chain.start
      exact ⟨queue, by rw [queueNodeRemove, start]; rfl, h⟩
  | cons c rest =>
      obtain ⟨a, x⟩ := c
      have start : queue.first = some a := h.chain.start
      have chain := h.chain
      rw [start] at chain
      cases chain with
      | cons here tail =>
          rw [queueNodeRemove, start]
          dsimp only
          rw [here]
          dsimp only
          rw [List.map_cons, List.find?_cons]
          by_cases found : fileId x = id
          · rw [List.eraseP_cons_of_pos (by simp [found])]
            simp only [found, if_true, decide_true]
            exact h.dequeue
          · rw [List.eraseP_cons_of_neg (by simp [found])]
            simp only [found, if_false, decide_false]
            exact removeBehind fileId (show queue.Spells ([] ++ (a, x) :: rest) from h) tail id
              (Nat.le_of_succ_le enough)

end Spells

omit [DecidableEq ι] in
private theorem findFrom_mono {heap : Heap ι φ} {id : Int} {fuel more : Nat} {p : Option ι}
    {r : Option φ} (ends : findFrom fileId heap id fuel p = some r) (le : fuel ≤ more) :
    findFrom fileId heap id more p = some r := by
  induction fuel generalizing p more with
  | zero =>
      cases p with
      | none => cases more <;> exact ends
      | some a => cases ends
  | succ fuel ih =>
      cases p with
      | none => cases more <;> exact ends
      | some a =>
          obtain ⟨more, rfl⟩ := Nat.exists_eq_add_of_le' (Nat.lt_of_lt_of_le fuel.succ_pos le)
          rw [findFrom] at ends ⊢
          cases here : heap a with
          | none =>
              rw [here] at ends
              cases ends
          | some element =>
              simp only [here] at ends ⊢
              split
              · rwa [if_pos ‹_›] at ends
              · rw [if_neg ‹_›] at ends
                exact ih ends (Nat.le_of_succ_le_succ le)

private theorem removeBehind_mono {id : Int} {fuel more : Nat} {a : ι} {p : Option ι}
    {r : Option φ × FileQueue ι φ} (ends : removeBehind fileId queue id fuel a p = some r)
    (le : fuel ≤ more) : removeBehind fileId queue id more a p = some r := by
  induction fuel generalizing a p more with
  | zero =>
      cases p with
      | none => cases more <;> exact ends
      | some b => cases ends
  | succ fuel ih =>
      cases p with
      | none => cases more <;> exact ends
      | some b =>
          obtain ⟨more, rfl⟩ := Nat.exists_eq_add_of_le' (Nat.lt_of_lt_of_le fuel.succ_pos le)
          rw [removeBehind] at ends ⊢
          split at ends
          · split
            · rwa [if_pos ‹_›] at ends
            · rw [if_neg ‹_›] at ends
              exact ih ends (Nat.le_of_succ_le_succ le)
          · cases ends

/-- More rounds than a loop takes change nothing. -/
theorem call_mono {fuel more : Nat} {c : Call ι φ} {r : Answer φ × FileQueue ι φ}
    (ends : call fileId fuel queue c = some r) (le : fuel ≤ more) :
    call fileId more queue c = some r := by
  cases c with
  | enqueue malloc fd => exact ends
  | dequeue => exact ends
  | nodeGet id =>
      obtain ⟨fd, found, rfl⟩ := Option.map_eq_some_iff.mp ends
      exact Option.map_eq_some_iff.mpr ⟨fd, findFrom_mono found le, rfl⟩
  | nodeSearch id =>
      obtain ⟨answer, searched, rfl⟩ := Option.map_eq_some_iff.mp ends
      obtain ⟨fd, found, rfl⟩ := Option.map_eq_some_iff.mp searched
      exact Option.map_eq_some_iff.mpr
        ⟨_, Option.map_eq_some_iff.mpr ⟨fd, findFrom_mono found le, rfl⟩, rfl⟩
  | nodeRemove id =>
      obtain ⟨r, removed, rfl⟩ := Option.map_eq_some_iff.mp ends
      refine Option.map_eq_some_iff.mpr ⟨r, ?_, rfl⟩
      rw [queueNodeRemove] at removed ⊢
      split
      · rwa [‹queue.first = none›] at removed
      · rename_i a first
        rw [first] at removed
        dsimp only at removed
        split
        · rename_i gone
          rwa [gone] at removed
        · rename_i element here
          rw [here] at removed
          dsimp only at removed
          split
          · rwa [if_pos ‹_›] at removed
          · rw [if_neg ‹_›] at removed
            exact removeBehind_mono removed le

/-- Every call does to the queue what it does to the list, in as many rounds at most as there are
descriptors. -/
theorem Holds.call (fileId : φ → Int) {fds : List φ} (h : queue.Holds fds) {c : Call ι φ}
    (allowed : queue.Allowed c) {fuel : Nat} (enough : fds.length ≤ fuel) :
    ∃ answer queue' fds', FileQueue.call fileId fuel queue c = some (answer, queue') ∧
      listCall fileId fds c = some (answer, fds') ∧ queue'.Holds fds' := by
  obtain ⟨cells, spells, rfl⟩ := h
  rw [List.length_map] at enough
  cases c with
  | enqueue malloc fd =>
      cases fd with
      | none =>
          exact ⟨_, queue, _, rfl, rfl, cells, spells, by rw [Option.toList, List.append_nil]⟩
      | some fd =>
          obtain ⟨queue', enqueued, after⟩ := spells.enqueue allowed fd
          exact ⟨_, queue', _, by rw [FileQueue.call, enqueued]; rfl, rfl, _, after,
            by rw [List.map_append]; rfl⟩
  | dequeue =>
      cases cells with
      | nil =>
          have start : queue.first = none := spells.chain.start
          exact ⟨_, queue, _, by rw [FileQueue.call, queueDequeue, start]; rfl, rfl, [], spells, rfl⟩
      | cons c rest =>
          obtain ⟨queue', dequeued, after⟩ := spells.dequeue
          exact ⟨_, queue', _, by rw [FileQueue.call, dequeued]; rfl, rfl, rest, after, rfl⟩
  | nodeGet id =>
      have found := Spells.findFrom fileId spells.chain id enough
      exact ⟨_, queue, _, by rw [FileQueue.call, queueNodeGet, found]; rfl, rfl, cells, spells, rfl⟩
  | nodeSearch id =>
      have found := Spells.findFrom fileId spells.chain id enough
      refine ⟨_, queue, _, by rw [FileQueue.call, queueNodeSearch, found]; rfl, ?_, cells, spells,
        rfl⟩
      rw [listCall, List.isSome_find?]
  | nodeRemove id =>
      obtain ⟨queue', removed, after⟩ := Spells.nodeRemove fileId spells id enough
      exact ⟨_, queue', _, by rw [FileQueue.call, removed]; rfl, rfl, _, after,
        by rw [List.eraseP_map]; rfl⟩

structure IsList (queue : FileQueue ι φ) (fds : List φ) : Prop where
  ends : queue.first = none ↔ queue.last = none
  reached : ∀ l, queue.last = some l →
    Links.Reaches queue.heap queue.first l ∧ ∃ fd, queue.heap l = some ⟨fd, none⟩
  contents : Contents queue.heap queue.first fds

omit [DecidableEq ι] in
theorem Holds.isList {fds : List φ} (h : queue.Holds fds) : queue.IsList fds := by
  obtain ⟨cells, spells, rfl⟩ := h
  refine ⟨?_, fun l last => ?_, cells, spells.chain, rfl⟩
  · rw [spells.chain.start, spells.last]
    cases cells <;> simp
  · rw [spells.last] at last
    obtain ⟨⟨_, x⟩, member, rfl⟩ := Option.map_eq_some_iff.mp last
    obtain ⟨front, rfl⟩ := List.getLast?_eq_some_iff.mp member
    refine ⟨(spells.chain.reaches_iff _).mpr (by simp), x, ?_⟩
    obtain ⟨_, -, back⟩ := spells.chain.split
    cases back with
    | cons here tail =>
        cases tail
        exact here

omit [DecidableEq ι] in
private theorem holds_create (heap : Heap ι φ) : (queueCreate heap).Holds [] :=
  ⟨[], ⟨.nil none, rfl⟩, rfl⟩

/-- After a sequence of calls on a new queue it holds what the list holds after them. -/
theorem holds_run {heap : Heap ι φ} {trace : List (Call ι φ × Answer φ)}
    (run : Run (Guarded (fun queue e => queue.Allowed e.1) (Returns fileId)) (queueCreate heap)
      trace queue) :
    ∃ fds, execute (listCall fileId) [] (trace.map Prod.fst) = some (trace, fds) ∧
      queue.Holds fds := by
  refine run.trace_invariant (I := fun trace queue => ∃ fds,
    execute (listCall fileId) [] (trace.map Prod.fst) = some (trace, fds) ∧ queue.Holds fds)
    ⟨[], rfl, holds_create heap⟩ fun trace queue e queue' before next => ?_
  obtain ⟨fds, executed, holds⟩ := before
  obtain ⟨allowed, fuel, returned⟩ := next
  obtain ⟨answer, after, fds', called, listed, holds'⟩ :=
    Holds.call fileId holds allowed (Nat.le_max_right fuel fds.length)
  rw [call_mono returned (Nat.le_max_left fuel fds.length)] at called
  cases called
  refine ⟨fds', ?_, holds'⟩
  rw [List.map_append, execute_append executed]
  simp only [List.map_cons, List.map_nil, execute, listed, Option.map_some]

end Operations

end FileQueue

inductive OpenClose where
  | myOpen (name : CString) (flags : Int)
  | myClose (fileId : Int)

/-- A call of the library, over what lies behind its stubs. -/
def openCloseStep {σ : Type} (remote : RemoteCall σ) :
    Lib × σ → OpenClose → Option (Int × (Lib × σ))
  | (lib, s), .myOpen name flags => some (myOpen remote lib s name flags)
  | (lib, s), .myClose fileId => some ((myClose lib fileId).1, (myClose lib fileId).2, s)

/-- The count is the length of the list, within its limit. -/
def Lib.Counted (lib : Lib) : Prop :=
  lib.openFiles = lib.openFilesList.length ∧ lib.openFiles ≤ maxOpenFiles

variable {σ : Type} {remote : RemoteCall σ}

private theorem myOpen_lib (remote : RemoteCall σ) (lib : Lib) (s : σ) (name : CString)
    (flags : Int) :
    (myOpen remote lib s name flags).2.1 = lib ∨ (lib.openFiles < maxOpenFiles ∧
      ∃ fh fsize, (myOpen remote lib s name flags).2.1 = lib.enqueue fh fsize) := by
  by_cases ready : lib.libInitted = true ∧ ¬ maxOpenFiles ≤ lib.openFiles ∧ myparse name = 0
  · obtain ⟨initted, room, accepted⟩ := ready
    cases looked : remote.lookup s name with
    | mk found s₁ =>
        cases found with
        | ok r =>
            rw [myOpen_found initted room accepted looked]
            exact .inr ⟨Int.not_le.mp room, _, _, rfl⟩
        | error word =>
            rw [myOpen_missing initted room accepted looked rfl]
            split
            · split
              · exact .inr ⟨Int.not_le.mp room, _, _, rfl⟩
              · exact .inl rfl
            · exact .inl rfl
  · exact .inl (by rw [myOpen_refused ready])

theorem Lib.Counted.open {lib : Lib} (h : lib.Counted) (s : σ) (name : CString) (flags : Int) :
    (myOpen remote lib s name flags).2.1.Counted := by
  obtain same | ⟨room, fh, fsize, opened⟩ := myOpen_lib remote lib s name flags
  · rwa [same]
  · rw [opened]
    refine ⟨?_, Int.add_one_le_iff.mpr room⟩
    rw [Lib.enqueue, List.length_append, h.1]
    rfl

theorem Lib.Counted.close {lib : Lib} (h : lib.Counted) (fileId : Int) :
    (myClose lib fileId).2.Counted := by
  rw [myClose]
  split
  · exact h
  · split
    · exact h
    · rename_i fd found
      have first : lib.openFilesList.find? (fun d => d.fileId == fileId) = some fd := found
      have member := List.mem_of_find?_eq_some first
      have named := List.find?_some first
      have length : (queueNodeRemove lib.openFilesList fileId).length =
          lib.openFilesList.length - 1 :=
        List.length_eraseP_of_mem member named
      have some_ := List.length_pos_of_mem member
      obtain ⟨count, limit⟩ := h
      refine ⟨?_, ?_⟩
      · change lib.openFiles - 1 = ((queueNodeRemove lib.openFilesList fileId).length : Int)
        omega
      · change lib.openFiles - 1 ≤ maxOpenFiles
        omega

/-- After every sequence of calls on a new queue the linked elements are the list that the same
calls make of an empty list, each call has returned what it returns there, and the next one
returns; and after every sequence of `my_open` and `my_close` on a library that has been
initialised once, whatever lies behind the stubs, the count of open files is the length of the
list and within the limit. -/
theorem open_files_are_listed :
    (∀ (ι φ : Type) [DecidableEq ι] (fileId : φ → Int) (heap : Heap ι φ)
      (trace : List (FileQueue.Call ι φ × FileQueue.Answer φ)) (queue : FileQueue ι φ),
      Run (Guarded (fun queue e => queue.Allowed e.1) (FileQueue.Returns fileId))
        (FileQueue.queueCreate heap) trace queue →
      ∃ fds, execute (FileQueue.listCall fileId) [] (trace.map Prod.fst) = some (trace, fds) ∧
        queue.IsList fds ∧ ∀ c, queue.Allowed c →
          ∃ answer queue', FileQueue.Returns fileId queue (c, answer) queue') ∧
    ∀ (σ : Type) (remote : RemoteCall σ) (s : σ) (trace : List (OpenClose × Int)) (lib : Lib)
      (s' : σ), Run (Next (openCloseStep remote)) (myInitLib, s) trace (lib, s') → lib.Counted := by
  constructor
  · intro ι φ _ fileId heap trace queue run
    obtain ⟨fds, executed, holds⟩ := FileQueue.holds_run run
    refine ⟨fds, executed, holds.isList, fun c allowed => ?_⟩
    obtain ⟨answer, queue', -, called, -⟩ := holds.call fileId allowed (Nat.le_refl _)
    exact ⟨answer, queue', _, called⟩
  · intro σ remote s trace lib s' run
    refine run.invariant (I := fun r => r.1.Counted) ⟨rfl, Int.zero_le_ofNat 10⟩
      fun r e r' h next => ?_
    obtain ⟨lib, s⟩ := r
    obtain ⟨c, result⟩ := e
    have next : openCloseStep remote (lib, s) c = some (result, r') := next
    cases c with
    | myOpen name flags =>
        have after := congrArg (fun r => r.2.1) (Option.some.inj next)
        exact (show r'.1 = _ from after.symm) ▸ h.open s name flags
    | myClose fileId =>
        have after := congrArg (fun r => r.2.1) (Option.some.inj next)
        exact (show r'.1 = _ from after.symm) ▸ h.close fileId

/-- The last of two descriptors is removed and a third one appended; a file is opened and closed
over stubs that always answer with handle 2. -/
theorem open_files_are_listed_last_removed :
    (∃ (trace : List (FileQueue.Call Nat Int × FileQueue.Answer Int)) (queue : FileQueue Nat Int),
      execute (FileQueue.call id 2) (FileQueue.queueCreate fun _ => none)
        [.enqueue 4 (some 10), .enqueue 6 (some 20), .nodeRemove 20, .enqueue 5 (some 30)] =
          some (trace, queue) ∧ queue.IsList [10, 30]) ∧
    (myClose (myInitLib.enqueue 2 0) 2).2.Counted := by
  constructor
  · obtain ⟨⟨trace, queue⟩, executed⟩ :
        ∃ r : List (FileQueue.Call Nat Int × FileQueue.Answer Int) × FileQueue Nat Int,
        execute (FileQueue.call id 2) (FileQueue.queueCreate fun _ => none)
          [.enqueue 4 (some 10), .enqueue 6 (some 20), .nodeRemove 20, .enqueue 5 (some 30)] =
            some r := ⟨_, rfl⟩
    have run : Run (Guarded (fun queue e => queue.Allowed e.1) (Next (FileQueue.call id 2))) _ trace
        queue := run_of_execute executed (by decide)
    obtain ⟨fds, listed, isList, -⟩ := open_files_are_listed.1 Nat Int id _ _ _
      (run.mono fun _ _ _ next => ⟨next.1, 2, next.2⟩)
    cases executed
    cases listed
    exact ⟨_, _, rfl, isList⟩
  · let remote : RemoteCall Unit := fun _ _ => (.ok (.lookup 2 0), ())
    have run : Run (Next (openCloseStep remote)) (myInitLib, ())
        [(.myOpen [47, 97] 0, 2), (.myClose 2, 0)] ((myClose (myInitLib.enqueue 2 0) 2).2, ()) :=
      (Run.nil.snoc (show Next (openCloseStep remote) (myInitLib, ()) (.myOpen [47, 97] 0, 2)
        (myInitLib.enqueue 2 0, ()) by rfl)).snoc rfl
    exact open_files_are_listed.2 Unit remote () _ _ _ run

end Snfs
