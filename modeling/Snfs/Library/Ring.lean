import Mathlib.Algebra.Group.Fin.Basic
import Mathlib.Algebra.GroupWithZero.Nat
import Mathlib.Logic.Function.Basic

/-!
A ring of `n` slots with a position to take from and a position to put to, each
one step further round the ring after every use. It does not count what it
holds: its user does. `Holds` says that the ring stands for a queue; putting
into a ring that is not full and taking from one that is not empty are the
operations of the queue.
-/

namespace Rings

universe u
variable {n : Nat} [NeZero n] {α : Type u}

structure Ring (n : Nat) (α : Type u) where
  slots : Fin n → α
  getPos : Fin n
  putPos : Fin n

namespace Ring

def put (r : Ring n α) (x : α) : Ring n α :=
  { r with slots := Function.update r.slots r.putPos x, putPos := r.putPos + 1 }

def get (r : Ring n α) : α × Ring n α := (r.slots r.getPos, { r with getPos := r.getPos + 1 })

/-- The position `j` steps behind the one to take from. -/
def pos (r : Ring n α) (j : Nat) : Fin n := r.getPos + Fin.ofNat n j

structure Holds (r : Ring n α) (queue : List α) : Prop where
  fits : queue.length ≤ n
  putPos : r.putPos = r.pos queue.length
  slot : ∀ j (h : j < queue.length), r.slots (r.pos j) = queue[j]

private theorem ofNat_succ (j : Nat) : Fin.ofNat n (j + 1) = Fin.ofNat n j + 1 := by
  ext
  simp [Fin.val_add, Nat.add_mod]

theorem pos_zero (r : Ring n α) : r.pos 0 = r.getPos := by
  simp [pos]

theorem pos_succ (r : Ring n α) (j : Nat) : r.pos (j + 1) = r.pos j + 1 := by
  rw [pos, pos, ofNat_succ, add_assoc]

theorem pos_injective (r : Ring n α) {i j : Nat} (hi : i < n) (hj : j < n)
    (same : r.pos i = r.pos j) : i = j := by
  have same := congrArg Fin.val (add_left_cancel same)
  simpa [Nat.mod_eq_of_lt hi, Nat.mod_eq_of_lt hj] using same

theorem pos_get (r : Ring n α) (j : Nat) : r.get.2.pos j = r.pos (j + 1) := by
  rw [pos_succ, pos, pos, get, add_assoc, add_assoc, add_comm 1]

namespace Holds

theorem empty {r : Ring n α} (same : r.putPos = r.getPos) : r.Holds [] :=
  ⟨Nat.zero_le n, by rw [same, List.length_nil, pos_zero], fun j h => absurd h (Nat.not_lt_zero j)⟩

/-- What is put goes to a slot that holds nothing of the queue. -/
theorem putPos_ne {r : Ring n α} {queue : List α} (h : r.Holds queue) (room : queue.length < n)
    {j : Nat} (hj : j < queue.length) : r.pos j ≠ r.putPos := by
  rw [h.putPos]
  intro same
  exact absurd (r.pos_injective (Nat.lt_trans hj room) room same) (Nat.ne_of_lt hj)

theorem put {r : Ring n α} {queue : List α} (h : r.Holds queue) (room : queue.length < n) (x : α) :
    (r.put x).Holds (queue ++ [x]) := by
  refine ⟨?_, ?_, fun j hj => ?_⟩
  · rw [List.length_append, List.length_singleton]
    exact room
  · rw [List.length_append, List.length_singleton, pos_succ]
    exact congrArg (· + 1) h.putPos
  · have place : (r.put x).pos j = r.pos j := rfl
    rw [place, Ring.put]
    by_cases old : j < queue.length
    · rw [List.getElem_append_left old, ← h.slot j old]
      exact Function.update_of_ne (h.putPos_ne room old) _ _
    · have last : j = queue.length := by
        rw [List.length_append, List.length_singleton] at hj
        omega
      subst last
      rw [← h.putPos, List.getElem_concat_length rfl]
      exact Function.update_self _ _ _

theorem get {r : Ring n α} {x : α} {queue : List α} (h : r.Holds (x :: queue)) :
    r.get.1 = x ∧ r.get.2.Holds queue := by
  refine ⟨?_, Nat.le_of_succ_le h.fits, ?_, fun j hj => ?_⟩
  · have first := h.slot 0 (Nat.zero_lt_succ _)
    rwa [pos_zero] at first
  · rw [pos_get]
    exact h.putPos
  · rw [pos_get]
    exact h.slot (j + 1) (Nat.succ_lt_succ hj)

end Holds

end Ring

end Rings
