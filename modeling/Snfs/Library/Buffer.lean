import Mathlib.Data.List.Basic
import Mathlib.Data.List.GetD
import Mathlib.Tactic.IntervalCases

/-!
Byte buffers of a fixed length, as C programs use them: indexed reads, the
copy of a run of bytes into or out of a buffer, bitmaps kept in the bytes and
strings kept in fixed-length fields. A read outside the buffer gives zero and a
copy outside it is dropped; the lemmas carry the bounds under which neither
happens.
-/

def Buf (n : Nat) : Type := Fin n → UInt8

namespace Buf

variable {n : Nat}

def zero : Buf n := fun _ => 0

def get (b : Buf n) (i : Nat) : UInt8 := if h : i < n then b ⟨i, h⟩ else 0

def slice (b : Buf n) (start num : Nat) : List UInt8 :=
  (List.range num).map fun k => b.get (start + k)

def splice (b : Buf n) (start : Nat) (xs : List UInt8) : Buf n :=
  fun i => if start ≤ i.val ∧ i.val < start + xs.length then xs.getD (i.val - start) 0 else b i

/-- Bit `i` of a bitmap: bit `i % 8` of byte `i / 8`. -/
def bit (b : Buf n) (i : Nat) : Bool := (b.get (i / 8)).toNat.testBit (i % 8)

def setBit (b : Buf n) (i : Nat) : Buf n :=
  fun j => if j.val = i / 8 then b j ||| ((1 : UInt8) <<< UInt8.ofNat (i % 8)) else b j

/-- The string in the field of `len` bytes at `start`: its bytes before the first zero. -/
def cstr (b : Buf n) (start len : Nat) : List UInt8 :=
  (b.slice start len).takeWhile (· != 0)

theorem get_of_lt (b : Buf n) {i : Nat} (h : i < n) : b.get i = b ⟨i, h⟩ := by
  simp [get, h]

theorem get_of_le (b : Buf n) {i : Nat} (h : n ≤ i) : b.get i = 0 := by
  simp [get, Nat.not_lt.mpr h]

theorem ext_get {b c : Buf n} (h : ∀ i, i < n → b.get i = c.get i) : b = c := by
  funext i
  have hi := h i i.isLt
  rwa [get_of_lt b i.isLt, get_of_lt c i.isLt] at hi

@[simp] theorem get_zero (i : Nat) : (zero : Buf n).get i = 0 := by
  simp [get, zero]

theorem get_splice (b : Buf n) (start : Nat) (xs : List UInt8) {i : Nat} (h : i < n) :
    (b.splice start xs).get i =
      if start ≤ i ∧ i < start + xs.length then xs.getD (i - start) 0 else b.get i := by
  simp [get, splice, h]

@[simp] theorem length_slice (b : Buf n) (start num : Nat) :
    (b.slice start num).length = num := by
  simp [slice]

theorem getElem_slice (b : Buf n) (start num k : Nat) (h : k < (b.slice start num).length) :
    (b.slice start num)[k] = b.get (start + k) := by
  simp [slice]

theorem slice_congr {b c : Buf n} {start num : Nat}
    (h : ∀ k, k < num → b.get (start + k) = c.get (start + k)) :
    b.slice start num = c.slice start num := by
  apply List.map_congr_left
  intro k hk
  exact h k (List.mem_range.mp hk)

theorem bit_of_le (b : Buf n) {i : Nat} (h : 8 * n ≤ i) : b.bit i = false := by
  rw [bit, get_of_le b (by omega)]
  simp

@[simp] theorem bit_zero (i : Nat) : (zero : Buf n).bit i = false := by
  simp [bit]

private theorem testBit_shifted_one {k j : Nat} (hk : k < 8) (hj : j < 8) :
    ((1 : UInt8) <<< UInt8.ofNat k).toNat.testBit j = decide (k = j) := by
  interval_cases k <;> interval_cases j <;> rfl

/-- Setting one bit of a bitmap leaves every other bit alone. -/
theorem bit_setBit (b : Buf n) {i : Nat} (h : i < 8 * n) (j : Nat) :
    (b.setBit i).bit j = (b.bit j || decide (i = j)) := by
  by_cases hj : j / 8 < n
  · by_cases same : j / 8 = i / 8
    · have hbyte : (b.setBit i).get (j / 8) =
          b.get (j / 8) ||| ((1 : UInt8) <<< UInt8.ofNat (i % 8)) := by
        have hi : i / 8 < n := by omega
        simp [get, setBit, same, hi]
      have index : (i = j) ↔ (i % 8 = j % 8) := by omega
      rw [bit, hbyte, UInt8.toNat_or, Nat.testBit_or,
        testBit_shifted_one (Nat.mod_lt i (by omega)) (Nat.mod_lt j (by omega))]
      simp only [bit, index]
    · have hbyte : (b.setBit i).get (j / 8) = b.get (j / 8) := by
        simp [get, setBit, hj, same]
      have index : i ≠ j := by rintro rfl; exact same rfl
      simp [bit, hbyte, index]
  · have index : i ≠ j := by omega
    rw [bit_of_le _ (by omega), bit_of_le _ (by omega)]
    simp [index]

/-- Setting a bit clears none, wherever it lies. -/
theorem bit_setBit_mono (b : Buf n) (i : Nat) {j : Nat} (set : b.bit j = true) :
    (b.setBit i).bit j = true := by
  by_cases h : i < 8 * n
  · rw [bit_setBit b h, set, Bool.true_or]
  · have same : b.setBit i = b := by
      funext k
      have hk := k.isLt
      rw [setBit, if_neg (by omega)]
    rwa [same]

theorem ext_bit {b c : Buf n} (h : ∀ i, i < 8 * n → b.bit i = c.bit i) : b = c := by
  apply ext_get
  intro k hk
  apply UInt8.toNat_inj.mp
  apply Nat.eq_of_testBit_eq
  intro j
  by_cases hj : j < 8
  · have bits := h (8 * k + j) (by omega)
    rwa [bit, bit, show (8 * k + j) / 8 = k by omega, show (8 * k + j) % 8 = j by omega] at bits
  · have high (x : UInt8) : x.toNat.testBit j = false :=
      Nat.testBit_lt_two_pow (Nat.lt_of_lt_of_le x.toNat_lt
        (Nat.pow_le_pow_right (by decide) (Nat.not_lt.mp hj)))
    rw [high, high]

theorem cstr_congr {b c : Buf n} {start len : Nat}
    (h : ∀ k, k < len → b.get (start + k) = c.get (start + k)) :
    b.cstr start len = c.cstr start len := by
  rw [cstr, cstr, slice_congr h]

theorem zero_not_mem_cstr (b : Buf n) (start len : Nat) : (0 : UInt8) ∉ b.cstr start len := by
  intro member
  simpa using List.all_eq_true.mp List.all_takeWhile 0 member

theorem cstr_eq_nil {b : Buf n} {start len : Nat} (h : b.get start = 0) :
    b.cstr start len = [] := by
  cases len with
  | zero => rfl
  | succ len => simp [cstr, slice, List.range_succ_eq_map, h]

private theorem takeWhile_terminated (xs ys : List UInt8) (h : (0 : UInt8) ∉ xs) :
    (xs ++ 0 :: ys).takeWhile (· != 0) = xs := by
  induction xs with
  | nil => simp
  | cons x xs ih =>
      have hx : x ≠ 0 := fun e => h (e ▸ List.mem_cons_self)
      have hxs : (0 : UInt8) ∉ xs := fun m => h (List.mem_cons_of_mem x m)
      simp [hx, ih hxs]

/-- A string shorter than its field is read back as it was stored. -/
theorem cstr_of_stored {b : Buf n} {start len : Nat} {xs : List UInt8}
    (room : xs.length < len) (free : (0 : UInt8) ∉ xs)
    (stored : ∀ k (h : k < xs.length), b.get (start + k) = xs[k])
    (ends : b.get (start + xs.length) = 0) : b.cstr start len = xs := by
  have split : b.slice start len =
      xs ++ 0 :: b.slice (start + xs.length + 1) (len - xs.length - 1) := by
    apply List.ext_getElem
    · simp; omega
    · intro k hk hk'
      rw [getElem_slice]
      rcases Nat.lt_trichotomy k xs.length with lt | eq | gt
      · rw [List.getElem_append_left lt]; exact stored k lt
      · subst eq; simp [ends]
      · rw [List.getElem_append_right (by omega)]
        obtain ⟨m, rfl⟩ := Nat.exists_eq_add_of_lt gt
        simp only [show xs.length + m + 1 - xs.length = m + 1 by omega, List.getElem_cons_succ,
          getElem_slice]
        congr 1
        omega
  rw [cstr, split, takeWhile_terminated xs _ free]

end Buf
