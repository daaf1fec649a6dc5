import Snfs.Library.Buffer

/-!
Strings that are copied without their terminating zero to the start of a buffer, one
over the other, as `strncpy` with the length of its source does. The buffer was clear
before, so it always holds a string: the last one copied, and behind it what is left of
longer ones.
-/

namespace Buf

variable {n : Nat} {b : Buf n}

/-- The buffer holds the bytes and zeros behind them. -/
def Holds (b : Buf n) (xs : List UInt8) : Prop := ∀ k, b.get k = xs.getD k 0

def overlay (old new : List UInt8) : List UInt8 := new ++ old.drop new.length

theorem getD_overlay (old new : List UInt8) (k : Nat) :
    (overlay old new).getD k 0 = if k < new.length then new.getD k 0 else old.getD k 0 := by
  by_cases inside : k < new.length
  · rw [if_pos inside, overlay, List.getD_append _ _ _ _ inside]
  · have le := Nat.not_lt.mp inside
    rw [if_neg inside, overlay, List.getD_append_right _ _ _ _ le, List.getD_eq_getElem?_getD,
      List.getElem?_drop, Nat.add_sub_cancel' le, List.getD_eq_getElem?_getD]

theorem holds_zero : (zero : Buf n).Holds [] := fun k => by simp

theorem Holds.splice {xs ys : List UInt8} (holds : b.Holds xs) (fits : ys.length ≤ n) :
    (b.splice 0 ys).Holds (overlay xs ys) := by
  intro k
  rw [getD_overlay]
  by_cases inside : k < n
  · rw [get_splice b 0 ys inside, Nat.zero_add, Nat.sub_zero, holds k]
    simp
  · have le := Nat.not_lt.mp inside
    rw [get_of_le _ le, if_neg (by omega), ← holds k, get_of_le _ le]

theorem Holds.cstr {xs : List UInt8} {len : Nat} (holds : b.Holds xs) (free : (0 : UInt8) ∉ xs)
    (short : xs.length < len) : b.cstr 0 len = xs := by
  refine cstr_of_stored short free (fun k hk => ?_) ?_
  · rw [Nat.zero_add, holds, List.getD_eq_getElem _ _ hk]
  · rw [Nat.zero_add, holds, List.getD_eq_default _ _ (Nat.le_refl _)]

theorem getElem_cstr {start len k : Nat} (h : k < (b.cstr start len).length) :
    (b.cstr start len)[k] = b.get (start + k) := by
  have inside : k < (b.slice start len).length :=
    Nat.lt_of_lt_of_le h (List.takeWhile_prefix _).length_le
  rw [← getElem_slice b start len k inside]
  exact (List.takeWhile_prefix _).getElem h

private theorem getD_takeWhile (xs : List UInt8) :
    xs.getD (xs.takeWhile (· != 0)).length 0 = 0 := by
  induction xs with
  | nil => rfl
  | cons x xs ih =>
      by_cases zero : x = 0
      · subst zero
        rfl
      · rw [List.takeWhile_cons_of_pos (by simpa using zero), List.length_cons, List.getD_cons_succ, ih]

theorem get_cstr_length {start len : Nat} (short : (b.cstr start len).length < len) :
    b.get (start + (b.cstr start len).length) = 0 := by
  have inside : (b.cstr start len).length < (b.slice start len).length := by
    rw [length_slice]
    exact short
  rw [← getElem_slice b start len _ inside, ← List.getD_eq_getElem _ 0 inside]
  exact getD_takeWhile _

/-- A string is shorter than a buffer exactly if there is a zero within the length of the buffer. -/
theorem length_cstr_lt_iff {start len m : Nat} (le : m ≤ len) :
    (b.cstr start len).length < m ↔ ∃ z, z < m ∧ b.get (start + z) = 0 := by
  constructor
  · intro short
    exact ⟨_, short, get_cstr_length (Nat.lt_of_lt_of_le short le)⟩
  · rintro ⟨z, inside, zero⟩
    by_contra long
    have here : z < (b.cstr start len).length := by omega
    have char := List.getElem_mem here
    rw [getElem_cstr, zero] at char
    exact zero_not_mem_cstr b start len char

theorem length_overlay (old new : List UInt8) :
    (overlay old new).length = max new.length old.length := by
  rw [overlay, List.length_append, List.length_drop]
  omega

theorem overlay_eq_right {old new : List UInt8} :
    overlay old new = new ↔ old.length ≤ new.length := by
  rw [overlay, List.append_right_eq_self, List.drop_eq_nil_iff]

theorem mem_overlay {old new : List UInt8} {c : UInt8} (member : c ∈ overlay old new) :
    c ∈ new ∨ c ∈ old :=
  (List.mem_append.mp member).imp_right fun h => List.mem_of_mem_drop h

theorem length_foldl_overlay {m : Nat} (all : List (List UInt8)) (first : List UInt8) :
    (all.foldl overlay first).length ≤ m ↔ first.length ≤ m ∧ ∀ xs ∈ all, xs.length ≤ m := by
  induction all generalizing first with
  | nil => simp
  | cons xs all ih =>
      rw [List.foldl_cons, ih, length_overlay, List.forall_mem_cons, Nat.max_le]
      tauto

theorem mem_foldl_overlay {all : List (List UInt8)} {first : List UInt8} {c : UInt8}
    (member : c ∈ all.foldl overlay first) : c ∈ first ∨ ∃ xs ∈ all, c ∈ xs := by
  induction all generalizing first with
  | nil => exact .inl member
  | cons xs all ih =>
      rcases ih member with first' | ⟨ys, rest, inside⟩
      · rcases mem_overlay first' with here | before
        · exact .inr ⟨xs, List.mem_cons_self, here⟩
        · exact .inl before
      · exact .inr ⟨ys, List.mem_cons_of_mem xs rest, inside⟩

/-- The last one is what the buffer holds exactly if none is longer. -/
theorem foldl_overlay_eq_last (before : List (List UInt8)) (last : List UInt8) :
    (before ++ [last]).foldl overlay [] = last ↔ ∀ xs ∈ before ++ [last], xs.length ≤ last.length := by
  rw [List.foldl_append, List.foldl_cons, List.foldl_nil, overlay_eq_right, length_foldl_overlay,
    List.forall_mem_append, List.forall_mem_singleton]
  simp

end Buf
