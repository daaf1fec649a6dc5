import Snfs.Library.Buffer

/-!
Messages in byte buffers: 32-bit words, little endian, and what is left of a
message when only its first bytes are sent and the receiver's buffer was clear.
A field that lies within the bytes sent arrives as it was; what lies behind them
reads as zero.
-/

def wordBytes (w : Nat) : List UInt8 :=
  [UInt8.ofNat w, UInt8.ofNat (w / 256), UInt8.ofNat (w / 256 ^ 2), UInt8.ofNat (w / 256 ^ 3)]

def wordOf (bytes : List UInt8) : Nat := bytes.foldr (fun byte high => byte.toNat + 256 * high) 0

theorem wordOf_wordBytes {w : Nat} (small : w < 2 ^ 32) : wordOf (wordBytes w) = w := by
  simp only [wordOf, wordBytes, List.foldr_cons, List.foldr_nil, UInt8.toNat_ofNat']
  omega

namespace Buf

variable {n : Nat}

def word (b : Buf n) (pos : Nat) : Nat :=
  (b.get pos).toNat + 256 * (b.get (pos + 1)).toNat + 256 ^ 2 * (b.get (pos + 2)).toNat +
    256 ^ 3 * (b.get (pos + 3)).toNat

def putWord (b : Buf n) (pos w : Nat) : Buf n := b.splice pos (wordBytes w)

/-- The first `k` bytes, the rest clear. -/
def cut (b : Buf n) (k : Nat) : Buf n := fun i => if i.val < k then b i else 0

theorem get_splice_other (b : Buf n) {start : Nat} {xs : List UInt8} {i : Nat}
    (apart : i < start ∨ start + xs.length ≤ i) : (b.splice start xs).get i = b.get i := by
  by_cases h : i < n
  · rw [get_splice b start xs h, if_neg (by omega)]
  · rw [get_of_le _ (Nat.not_lt.mp h), get_of_le _ (Nat.not_lt.mp h)]

theorem get_splice_self (b : Buf n) {start : Nat} {xs : List UInt8} {k : Nat} (hk : k < xs.length)
    (fits : start + xs.length ≤ n) : (b.splice start xs).get (start + k) = xs[k] := by
  rw [get_splice b start xs (by omega), if_pos ⟨by omega, by omega⟩, Nat.add_sub_cancel_left,
    List.getD_eq_getElem _ _ hk]

theorem slice_splice_self (b : Buf n) {start num : Nat} {xs : List UInt8} (le : num ≤ xs.length)
    (fits : start + xs.length ≤ n) : (b.splice start xs).slice start num = xs.take num := by
  apply List.ext_getElem
  · rw [length_slice, List.length_take, Nat.min_eq_left le]
  · intro k hk hk'
    rw [length_slice] at hk
    rw [getElem_slice, get_splice_self b (by omega) fits, List.getElem_take]

theorem slice_splice_other (b : Buf n) {start num pos : Nat} {xs : List UInt8}
    (apart : start + num ≤ pos ∨ pos + xs.length ≤ start) :
    (b.splice pos xs).slice start num = b.slice start num :=
  slice_congr fun _ _ => get_splice_other b (by omega)

theorem take_slice (b : Buf n) (start : Nat) {num k : Nat} (le : k ≤ num) :
    (b.slice start num).take k = b.slice start k := by
  apply List.ext_getElem
  · rw [List.length_take, length_slice, length_slice, Nat.min_eq_left le]
  · intro i _ _
    rw [List.getElem_take, getElem_slice, getElem_slice]

@[simp] theorem length_wordBytes (w : Nat) : (wordBytes w).length = 4 := rfl

theorem word_congr {m : Nat} {b : Buf n} {c : Buf m} {pos pos' : Nat}
    (h : ∀ k, k < 4 → b.get (pos + k) = c.get (pos' + k)) : b.word pos = c.word pos' := by
  have h0 := h 0 (by decide)
  rw [Nat.add_zero, Nat.add_zero] at h0
  rw [word, word, h0, h 1 (by decide), h 2 (by decide), h 3 (by decide)]

theorem word_splice_other (b : Buf n) {pos start : Nat} {xs : List UInt8}
    (apart : pos + 4 ≤ start ∨ start + xs.length ≤ pos) :
    (b.splice start xs).word pos = b.word pos :=
  word_congr fun _ _ => get_splice_other b (by omega)

theorem word_putWord_other (b : Buf n) {pos pos' : Nat} (w : Nat)
    (apart : pos + 4 ≤ pos' ∨ pos' + 4 ≤ pos) : (b.putWord pos' w).word pos = b.word pos :=
  word_splice_other b apart

theorem word_putWord (b : Buf n) {pos w : Nat} (fits : pos + 4 ≤ n) (small : w < 2 ^ 32) :
    (b.putWord pos w).word pos = w := by
  have byte (k : Nat) (hk : k < 4) : (b.putWord pos w).get (pos + k) = (wordBytes w)[k] :=
    get_splice_self b hk fits
  have byte0 := byte 0 (by decide)
  rw [Nat.add_zero] at byte0
  rw [word, byte0, byte 1 (by decide), byte 2 (by decide), byte 3 (by decide)]
  simp only [wordBytes, List.getElem_cons_zero, List.getElem_cons_succ, UInt8.toNat_ofNat']
  omega

theorem get_cut (b : Buf n) (k i : Nat) : (b.cut k).get i = if i < k then b.get i else 0 := by
  by_cases h : i < n
  · rw [get_of_lt _ h, get_of_lt _ h, cut]
  · rw [get_of_le _ (Nat.not_lt.mp h), get_of_le _ (Nat.not_lt.mp h), ite_self]

/-- What a clear buffer holds after the first `k` bytes of a message were received into it. -/
theorem splice_slice (b : Buf n) (k : Nat) : (zero : Buf n).splice 0 (b.slice 0 k) = b.cut k := by
  refine ext_get fun i hi => ?_
  rw [get_splice _ _ _ hi, get_cut, length_slice]
  by_cases inside : i < k
  · rw [if_pos (by omega), if_pos inside, Nat.sub_zero,
      List.getD_eq_getElem _ _ (by rwa [length_slice]), getElem_slice, Nat.zero_add]
  · rw [if_neg (by omega), if_neg inside, get_zero]

theorem word_cut (b : Buf n) {k pos : Nat} (inside : pos + 4 ≤ k) :
    (b.cut k).word pos = b.word pos :=
  word_congr fun _ _ => by rw [get_cut, if_pos (by omega)]

theorem word_stored {w : Nat} (small : w < 2 ^ 32) {b : Buf n} (fits : 4 ≤ n) :
    ((b.putWord 0 w).cut 4).word 0 = w := by
  rw [word_cut _ (by decide), word_putWord _ fits small]

theorem slice_cut (b : Buf n) {k start num : Nat} (inside : start + num ≤ k) :
    (b.cut k).slice start num = b.slice start num :=
  slice_congr fun _ _ => by rw [get_cut, if_pos (by omega)]

/-- A string stored at `start` is read back as far as it was sent. -/
theorem cstr_cut_stored (b : Buf n) {k start len : Nat} {xs : List UInt8} (free : (0 : UInt8) ∉ xs)
    (fits : start + xs.length + 1 ≤ n) (inside : start ≤ k) (room : xs.length < len) :
    ((b.splice start (xs ++ [0])).cut k).cstr start len = xs.take (k - start) := by
  have length : (xs ++ [(0 : UInt8)]).length = xs.length + 1 := by simp
  have stored (j : Nat) (hj : j < (xs ++ [(0 : UInt8)]).length) :
      (b.splice start (xs ++ [0])).get (start + j) = (xs ++ [(0 : UInt8)])[j] :=
    get_splice_self b hj (by rw [length]; omega)
  refine cstr_of_stored (by rw [List.length_take]; omega)
    (fun zero => free (List.mem_of_mem_take zero)) (fun j hj => ?_) ?_
  · rw [List.length_take] at hj
    rw [get_cut, if_pos (by omega), stored j (by omega), List.getElem_take,
      List.getElem_append_left (by omega)]
  · rw [List.length_take, get_cut]
    by_cases all : xs.length < k - start
    · rw [Nat.min_eq_right (Nat.le_of_lt all), if_pos (by omega), stored _ (by omega)]
      simp
    · rw [Nat.min_eq_left (Nat.not_lt.mp all), if_neg (by omega)]

theorem cstr_of_slice {b : Buf n} {start len : Nat} {xs : List UInt8} (free : (0 : UInt8) ∉ xs)
    (room : xs.length < len) (stored : b.slice start (xs.length + 1) = xs ++ [0]) :
    b.cstr start len = xs := by
  have byte (k : Nat) (hk : k < xs.length + 1) : b.get (start + k) = (xs ++ [0]).getD k 0 := by
    rw [← stored, List.getD_eq_getElem _ _ (by rwa [length_slice]), getElem_slice]
  refine cstr_of_stored room free (fun k hk => ?_) ?_
  · rw [byte k (by omega), List.getD_eq_getElem _ _ (by rw [List.length_append]; omega),
      List.getElem_append_left hk]
  · rw [byte _ (by omega)]
    simp

end Buf
