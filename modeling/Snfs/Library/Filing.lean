import Mathlib.Data.List.Nodup
import Mathlib.Logic.Function.Basic

/-!
A family of lists that holds a thing at most once in all. Things are put at the
end of one list, withdrawn from one list, or poured: those of one list that meet a
condition go to the end of another, in their order. What is where afterwards is
stated by membership, so a user of the family never looks at the lists.
-/

namespace Filing

universe u v
variable {κ : Type u} {α : Type v} [DecidableEq κ]

structure Filed (lists : κ → List α) : Prop where
  nodup : ∀ k, (lists k).Nodup
  unique : ∀ {a k k'}, a ∈ lists k → a ∈ lists k' → k = k'

def put (lists : κ → List α) (k : κ) (a : α) : κ → List α :=
  Function.update lists k (lists k ++ [a])

def withdraw [DecidableEq α] (lists : κ → List α) (k : κ) (a : α) : κ → List α :=
  Function.update lists k ((lists k).erase a)

def pour (lists : κ → List α) (source target : κ) (p : α → Bool) : κ → List α :=
  Function.update (Function.update lists source ((lists source).filter (!p ·))) target
    (lists target ++ (lists source).filter p)

variable {lists : κ → List α} {k k' : κ} {a b : α}

@[simp] theorem mem_put : b ∈ put lists k a k' ↔ b ∈ lists k' ∨ k' = k ∧ b = a := by
  unfold put
  by_cases same : k' = k
  · subst same
    simp
  · simp [same]

theorem Filed.mem_withdraw [DecidableEq α] (h : Filed lists) :
    b ∈ withdraw lists k a k' ↔ b ∈ lists k' ∧ ¬ (k' = k ∧ b = a) := by
  unfold withdraw
  by_cases same : k' = k
  · subst same
    rw [Function.update_self, (h.nodup k').mem_erase_iff]
    grind
  · simp [same]

theorem mem_pour {source target : κ} {p : α → Bool} (apart : source ≠ target) :
    b ∈ pour lists source target p k ↔
      (b ∈ lists k ∧ ¬ (k = source ∧ p b = true)) ∨
        (k = target ∧ b ∈ lists source ∧ p b = true) := by
  unfold pour
  by_cases into : k = target
  · subst into
    simp [Ne.symm apart]
  · by_cases outOf : k = source
    · subst outOf
      simp [apart]
    · simp [into, outOf]

theorem exists_mem_put : (∃ k', b ∈ put lists k a k') ↔ (∃ k', b ∈ lists k') ∨ b = a := by
  simp only [mem_put, exists_or, exists_eq_left]

theorem Filed.exists_mem_withdraw [DecidableEq α] (h : Filed lists) (inside : a ∈ lists k) :
    (∃ k', b ∈ withdraw lists k a k') ↔ (∃ k', b ∈ lists k') ∧ b ≠ a := by
  constructor
  · rintro ⟨k', still⟩
    obtain ⟨member, other⟩ := h.mem_withdraw.mp still
    refine ⟨⟨k', member⟩, ?_⟩
    rintro rfl
    exact other ⟨h.unique member inside, rfl⟩
  · rintro ⟨⟨k', member⟩, other⟩
    exact ⟨k', h.mem_withdraw.mpr ⟨member, fun same => other same.2⟩⟩

theorem exists_mem_pour {source target : κ} {p : α → Bool} (apart : source ≠ target) :
    (∃ k, b ∈ pour lists source target p k) ↔ ∃ k, b ∈ lists k := by
  constructor
  · rintro ⟨k, member⟩
    rcases (mem_pour apart).mp member with ⟨member, _⟩ | ⟨_, member, _⟩
    · exact ⟨k, member⟩
    · exact ⟨source, member⟩
  · rintro ⟨k, member⟩
    by_cases moves : k = source ∧ p b = true
    · exact ⟨target, (mem_pour apart).mpr (Or.inr ⟨rfl, moves.1 ▸ member, moves.2⟩)⟩
    · exact ⟨k, (mem_pour apart).mpr (Or.inl ⟨member, moves⟩)⟩

omit [DecidableEq κ] in
theorem Filed.nil : Filed (fun _ : κ => ([] : List α)) where
  nodup _ := List.nodup_nil
  unique inside := by cases inside

theorem Filed.put (h : Filed lists) (new : ∀ k, a ∉ lists k) : Filed (put lists k a) where
  nodup k' := by
    unfold Filing.put
    by_cases same : k' = k
    · subst same
      rw [Function.update_self]
      exact List.nodup_append.mpr ⟨h.nodup k', List.nodup_singleton a, by
        intro b inside c last equal
        cases List.mem_singleton.mp last
        exact new k' (equal ▸ inside)⟩
    · rw [Function.update_of_ne same]
      exact h.nodup k'
  unique inside inside' := by
    rw [mem_put] at inside inside'
    rcases inside with inside | ⟨rfl, rfl⟩ <;> rcases inside' with inside' | ⟨rfl, same⟩
    · exact h.unique inside inside'
    · exact absurd (same ▸ inside) (new _)
    · exact absurd inside' (new _)
    · rfl

theorem Filed.withdraw [DecidableEq α] (h : Filed lists) : Filed (withdraw lists k a) where
  nodup k' := by
    unfold Filing.withdraw
    by_cases same : k' = k
    · subst same
      rw [Function.update_self]
      exact (h.nodup k').erase a
    · rw [Function.update_of_ne same]
      exact h.nodup k'
  unique inside inside' :=
    h.unique (h.mem_withdraw.mp inside).1 (h.mem_withdraw.mp inside').1

theorem Filed.not_mem_withdraw [DecidableEq α] (h : Filed lists) (inside : a ∈ lists k) (k' : κ) :
    a ∉ Filing.withdraw lists k a k' := by
  intro still
  obtain ⟨also, other⟩ := h.mem_withdraw.mp still
  exact other ⟨h.unique also inside, rfl⟩

theorem Filed.pour {source target : κ} {p : α → Bool} (h : Filed lists) (apart : source ≠ target) :
    Filed (pour lists source target p) where
  nodup k' := by
    unfold Filing.pour
    by_cases into : k' = target
    · subst into
      rw [Function.update_self]
      refine List.nodup_append.mpr ⟨h.nodup k', (h.nodup source).filter p, ?_⟩
      intro b inside c poured equal
      subst equal
      exact apart (h.unique (List.mem_of_mem_filter poured) inside)
    · rw [Function.update_of_ne into]
      by_cases outOf : k' = source
      · subst outOf
        rw [Function.update_self]
        exact (h.nodup k').filter _
      · rw [Function.update_of_ne outOf]
        exact h.nodup k'
  unique {b k₁ k₂} inside inside' := by
    rw [mem_pour apart] at inside inside'
    rcases inside with ⟨inside, stays⟩ | ⟨rfl, inside, moves⟩ <;>
      rcases inside' with ⟨inside', stays'⟩ | ⟨rfl, inside', moves'⟩
    · exact h.unique inside inside'
    · exact absurd ⟨h.unique inside inside', moves'⟩ stays
    · exact absurd ⟨h.unique inside' inside, moves⟩ stays'
    · rfl

omit [DecidableEq κ] in
theorem Filed.count_eq_one [DecidableEq α] (h : Filed lists) (inside : a ∈ lists k) :
    (lists k).count a = 1 :=
  List.count_eq_one_of_mem (h.nodup k) inside

end Filing
