import Mathlib.Data.List.Basic
import Mathlib.Logic.Function.Basic

/-!
Singly linked cells in a memory that allocates and frees them. A `Chain` spells
the cells from one pointer to another with what they hold; the lemmas say which
chains survive a write, and what becomes of a chain when a cell is linked in behind
its last one or taken out behind any of them.
-/

namespace Links

universe u v

structure Cell (ι : Type u) (α : Type v) where
  item : α
  next : Option ι
deriving DecidableEq

/-- The cells by their addresses; `none` is an address at which no cell is allocated. -/
abbrev Heap (ι : Type u) (α : Type v) : Type (max u v) := ι → Option (Cell ι α)

variable {ι : Type u} {α : Type v}

inductive Chain (heap : Heap ι α) : Option ι → List (ι × α) → Option ι → Prop where
  | nil (p : Option ι) : Chain heap p [] p
  | cons {a : ι} {x : α} {next q : Option ι} {cells : List (ι × α)} :
      heap a = some ⟨x, next⟩ → Chain heap next cells q →
      Chain heap (some a) ((a, x) :: cells) q

inductive Reaches (heap : Heap ι α) : Option ι → ι → Prop where
  | here (a : ι) : Reaches heap (some a) a
  | next {a b : ι} {c : Cell ι α} :
      heap b = some c → Reaches heap c.next a → Reaches heap (some b) a

def Contents (heap : Heap ι α) (p : Option ι) (items : List α) : Prop :=
  ∃ cells, Chain heap p cells none ∧ cells.map Prod.snd = items

variable {heap heap' : Heap ι α} {p q r : Option ι} {cells : List (ι × α)}

namespace Chain

theorem congr (h : Chain heap p cells q) (same : ∀ a ∈ cells.map Prod.fst, heap' a = heap a) :
    Chain heap' p cells q := by
  induction h with
  | nil p => exact .nil p
  | cons here _ ih =>
      refine .cons ((same _ List.mem_cons_self).trans here) (ih fun a member => ?_)
      exact same a (List.mem_cons_of_mem _ member)

theorem append {more : List (ι × α)} (h : Chain heap p cells q) (h' : Chain heap q more r) :
    Chain heap p (cells ++ more) r := by
  induction h with
  | nil p => exact h'
  | cons here _ ih => exact .cons here (ih h')

theorem split {more : List (ι × α)} (h : Chain heap p (cells ++ more) r) :
    ∃ q, Chain heap p cells q ∧ Chain heap q more r := by
  induction cells generalizing p with
  | nil => exact ⟨p, .nil p, h⟩
  | cons c rest ih =>
      cases h with
      | cons here tail =>
          obtain ⟨q, front, back⟩ := ih tail
          exact ⟨q, .cons here front, back⟩

theorem start (h : Chain heap p cells none) : p = cells.head?.map Prod.fst := by
  cases h with
  | nil p => rfl
  | cons here tail => rfl

theorem eq_nil (h : Chain heap none cells none) : cells = [] := by
  cases cells with
  | nil => rfl
  | cons c rest => cases h.start

theorem eq_concat {a : ι} (h : Chain heap (some a) cells none) :
    ∃ front l x, cells = front ++ [(l, x)] := by
  rcases List.eq_nil_or_concat' cells with rfl | ⟨front, ⟨l, x⟩, split⟩
  · cases h.start
  · exact ⟨front, l, x, split⟩

theorem allocated (h : Chain heap p cells q) {a : ι} (member : a ∈ cells.map Prod.fst) :
    heap a ≠ none := by
  induction h with
  | nil p => cases member
  | cons here _ ih =>
      cases member with
      | head => rw [here]; exact Option.some_ne_none _
      | tail _ member => exact ih member

theorem unique {cells' : List (ι × α)} (h : Chain heap p cells none)
    (h' : Chain heap p cells' none) : cells = cells' := by
  induction cells generalizing p cells' with
  | nil =>
      cases h
      cases h'
      rfl
  | cons c rest ih =>
      cases h with
      | cons here tail =>
          cases h' with
          | cons here' tail' =>
              cases here.symm.trans here'
              rw [ih tail tail']

/-- A chain that ends visits no cell twice. -/
theorem nodup (h : Chain heap p cells none) : (cells.map Prod.fst).Nodup := by
  induction cells generalizing p with
  | nil => exact List.nodup_nil
  | cons c rest ih =>
      cases h with
      | @cons a x next _ _ here tail =>
          refine List.nodup_cons.mpr ⟨fun again => ?_, ih tail⟩
          obtain ⟨⟨b, y⟩, member, same⟩ := List.mem_map.mp again
          cases same
          -- the chain from the second visit on is the chain from the first
          obtain ⟨front, back, rfl⟩ := List.append_of_mem member
          obtain ⟨_, -, again⟩ := split tail
          cases again with
          | cons here' after =>
              have whole := (Chain.cons here tail).unique (.cons here' after)
              have length := congrArg List.length whole
              simp only [List.length_cons, List.length_append] at length
              omega

/-- The links lead to the cells of the chain and to no others. -/
theorem reaches_iff (h : Chain heap p cells none) (a : ι) :
    Reaches heap p a ↔ a ∈ cells.map Prod.fst := by
  generalize ends : (none : Option ι) = q at h
  induction h with
  | nil p =>
      subst ends
      exact ⟨fun reached => (by cases reached), fun member => (by cases member)⟩
  | cons here _ ih =>
      constructor
      · intro reached
        cases reached with
        | here => exact List.mem_cons_self
        | next here' further =>
            cases here.symm.trans here'
            exact List.mem_cons_of_mem _ ((ih ends).mp further)
      · intro member
        cases member with
        | head => exact .here _
        | tail _ member => exact .next here ((ih ends).mpr member)

variable [DecidableEq ι]

theorem update_other (h : Chain heap p cells q) {a : ι} (away : a ∉ cells.map Prod.fst)
    (c : Option (Cell ι α)) : Chain (Function.update heap a c) p cells q :=
  h.congr fun b member => Function.update_of_ne (by rintro rfl; exact away member) _ _

/-- A new cell is allocated and linked behind the last one. -/
theorem link {a b : ι} {y : α} (h : Chain heap (some b) cells none)
    (away : a ∉ cells.map Prod.fst) :
    ∃ l x, cells.getLast?.map Prod.fst = some l ∧ l ∈ cells.map Prod.fst ∧
      Function.update heap a (some ⟨y, none⟩) l = some ⟨x, none⟩ ∧
      Chain (Function.update (Function.update heap a (some ⟨y, none⟩)) l (some ⟨x, some a⟩))
        (some b) (cells ++ [(a, y)]) none := by
  obtain ⟨front, l, x, rfl⟩ := h.eq_concat
  have once := h.nodup
  rw [List.map_append, List.nodup_append] at once
  have member : l ∈ (front ++ [(l, x)]).map Prod.fst := by simp
  have ne : l ≠ a := by
    rintro rfl
    exact away member
  rw [List.map_append, List.mem_append, not_or] at away
  obtain ⟨q, before, back⟩ := h.split
  cases back with
  | cons here tail =>
      cases tail
      refine ⟨l, x, by simp, member, by rwa [Function.update_of_ne ne], ?_⟩
      rw [List.append_assoc]
      refine ((before.update_other away.1 _).update_other (fun again => ?_) _).append
        (.cons (Function.update_self ..) (.cons ?_ (.nil none)))
      · exact once.2.2 l again l List.mem_cons_self rfl
      · rw [Function.update_of_ne ne.symm, Function.update_self]

/-- The cell behind `a` is taken out and freed. -/
theorem unlink {front back : List (ι × α)} {a b : ι} {x y : α}
    (h : Chain heap p (front ++ (a, x) :: (b, y) :: back) none) {next : Option ι}
    (here : heap b = some ⟨y, next⟩) :
    Chain (Function.update (Function.update heap a (some ⟨x, next⟩)) b none) p
      (front ++ (a, x) :: back) none := by
  have once := h.nodup
  rw [List.map_append, List.nodup_append, List.map_cons, List.map_cons, List.nodup_cons,
    List.nodup_cons] at once
  obtain ⟨-, ⟨away_a, away_b, -⟩, apart⟩ := once
  have ne : a ≠ b := fun same => away_a (same ▸ List.mem_cons_self)
  obtain ⟨q, before, rest⟩ := h.split
  cases rest with
  | cons _ rest =>
      cases rest with
      | cons here' after =>
          cases here.symm.trans here'
          refine ((before.update_other (fun member => ?_) _).update_other (fun member => ?_)
            _).append (.cons ?_ ((after.update_other (fun member => ?_) _).update_other away_b _))
          · exact apart a member a List.mem_cons_self rfl
          · exact apart b member b (List.mem_cons_of_mem _ List.mem_cons_self) rfl
          · rw [Function.update_of_ne ne, Function.update_self]
          · exact away_a (List.mem_cons_of_mem _ member)

end Chain

end Links
