import Mathlib.Data.Fin.Tuple.Basic
import Mathlib.Logic.Function.Basic
import Mathlib.Order.Defs.Unbundled

/-!
Write-back caches with a fixed number of slots over a backing store. A slot
names the key it caches, holds a value, says whether the value still has to be
written to the store, and carries the time of its last use. Lookup takes the
first slot with the key; insertion replaces one slot and writes its old value
back when it was dirty.

`view` is the value the cache and its store stand for at a key. The lemmas say
when an operation on the slots leaves it alone at a key: the key sits in at most
one slot (`Single`), and a clean slot agrees with the store (`Clean`) up to the
relation under which values are compared.
-/

namespace Slots

universe u v
variable {κ : Type u} {ν : Type v} {n : Nat}

/-- The slot that a scan for the smallest stamp ends with: the first of the smallest. -/
def oldest (stamp : Fin (n + 1) → Int) : Fin (n + 1) :=
  (List.finRange (n + 1)).foldl (fun best i => if stamp i < stamp best then i else best) 0

/-- A first slot that no other is older than is the one that the scan ends with. -/
theorem oldest_eq_zero {stamp : Fin (n + 1) → Int} (least : ∀ i, stamp 0 ≤ stamp i) :
    oldest stamp = 0 := by
  unfold oldest
  induction List.finRange (n + 1) with
  | nil => rfl
  | cons i rest ih =>
      rw [List.foldl_cons, if_neg (Int.not_lt.mpr (least i))]
      exact ih

structure Slot (κ : Type u) (ν : Type v) where
  key : κ
  val : ν
  dirty : Bool
  lastAccess : Int

abbrev Table (n : Nat) (κ : Type u) (ν : Type v) : Type (max u v) := Fin n → Slot κ ν

namespace Table

def touch (t : Table n κ ν) (s : Fin n) (now : Int) : Table n κ ν :=
  Function.update t s { t s with lastAccess := now }

def write (t : Table n κ ν) (s : Fin n) (x : ν) (d : Bool) : Table n κ ν :=
  Function.update t s { t s with val := x, dirty := d }

def place (t : Table n κ ν) (s : Fin n) (k : κ) (x : ν) (d : Bool) (now : Int) : Table n κ ν :=
  Function.update t s ⟨k, x, d, now⟩

@[simp] theorem touch_key (t : Table n κ ν) (s : Fin n) (now : Int) (i : Fin n) :
    (t.touch s now i).key = (t i).key := by
  by_cases h : i = s <;> simp [touch, h]

@[simp] theorem touch_val (t : Table n κ ν) (s : Fin n) (now : Int) (i : Fin n) :
    (t.touch s now i).val = (t i).val := by
  by_cases h : i = s <;> simp [touch, h]

@[simp] theorem touch_dirty (t : Table n κ ν) (s : Fin n) (now : Int) (i : Fin n) :
    (t.touch s now i).dirty = (t i).dirty := by
  by_cases h : i = s <;> simp [touch, h]

@[simp] theorem write_key (t : Table n κ ν) (s : Fin n) (x : ν) (d : Bool) (i : Fin n) :
    (t.write s x d i).key = (t i).key := by
  by_cases h : i = s <;> simp [write, h]

theorem write_val (t : Table n κ ν) (s : Fin n) (x : ν) (d : Bool) (i : Fin n) :
    (t.write s x d i).val = if i = s then x else (t i).val := by
  by_cases h : i = s <;> simp [write, h]

theorem write_dirty (t : Table n κ ν) (s : Fin n) (x : ν) (d : Bool) (i : Fin n) :
    (t.write s x d i).dirty = if i = s then d else (t i).dirty := by
  by_cases h : i = s <;> simp [write, h]

@[simp] theorem place_self (t : Table n κ ν) (s : Fin n) (k : κ) (x : ν) (d : Bool) (now : Int) :
    t.place s k x d now s = ⟨k, x, d, now⟩ := by
  simp [place]

theorem place_of_ne (t : Table n κ ν) {s i : Fin n} (h : i ≠ s) (k : κ) (x : ν) (d : Bool)
    (now : Int) : t.place s k x d now i = t i := by
  simp [place, h]

@[simp] theorem touch_touch (t : Table n κ ν) (s : Fin n) (now later : Int) :
    (t.touch s now).touch s later = t.touch s later := by
  simp [touch]

theorem touch_write_touch (t : Table n κ ν) (s : Fin n) (now later : Int) (x : ν) (d : Bool) :
    ((t.touch s now).write s x d).touch s later = (t.write s x d).touch s later := by
  simp [touch, write]

@[simp] theorem place_touch (t : Table n κ ν) (s : Fin n) (k : κ) (x : ν) (d : Bool)
    (now later : Int) : (t.touch s now).place s k x d later = t.place s k x d later := by
  simp [place, touch]

def Absent (t : Table n κ ν) (k : κ) : Prop := ∀ i, (t i).key ≠ k

def Single (t : Table n κ ν) (k : κ) : Prop := ∀ i j, (t i).key = k → (t j).key = k → i = j

/-- A clean slot for the key agrees with the store. -/
def Clean (R : ν → ν → Prop) (t : Table n κ ν) (store : κ → ν) (k : κ) : Prop :=
  ∀ i, (t i).key = k → (t i).dirty = false → R (store k) (t i).val

theorem Single.of_absent {t : Table n κ ν} {k : κ} (h : t.Absent k) : t.Single k :=
  fun i _ hi => absurd hi (h i)

theorem Single.congr {t t' : Table n κ ν} {k : κ} (h : t.Single k)
    (hk : ∀ i, (t' i).key = (t i).key) : t'.Single k :=
  fun i j hi hj => h i j (hk i ▸ hi) (hk j ▸ hj)

theorem Absent.place {t : Table n κ ν} {k k' : κ} (h : t.Absent k') (ne : k' ≠ k) (s : Fin n)
    (x : ν) (d : Bool) (now : Int) : (t.place s k x d now).Absent k' := by
  intro i hi
  by_cases same : i = s
  · subst same
    rw [place_self] at hi
    exact ne hi.symm
  · rw [place_of_ne t same] at hi
    exact h i hi

/-- After an insertion the new key sits in its slot alone. -/
theorem Single.place_new {t : Table n κ ν} {k : κ} (h : t.Absent k) (s : Fin n) (x : ν)
    (d : Bool) (now : Int) : (t.place s k x d now).Single k := by
  have at_s (i : Fin n) (hi : (t.place s k x d now i).key = k) : i = s := by
    by_contra ne
    rw [place_of_ne t ne] at hi
    exact h i hi
  intro i j hi hj
  rw [at_s i hi, at_s j hj]

theorem Single.place_other {t : Table n κ ν} {k k' : κ} (h : t.Single k') (ne : k' ≠ k)
    (s : Fin n) (x : ν) (d : Bool) (now : Int) : (t.place s k x d now).Single k' := by
  have moved (i : Fin n) (hi : (t.place s k x d now i).key = k') : (t i).key = k' := by
    by_cases same : i = s
    · subst same
      rw [place_self] at hi
      exact absurd hi.symm ne
    · rwa [place_of_ne t same] at hi
  exact fun i j hi hj => h i j (moved i hi) (moved j hj)

theorem Clean.store_congr {R : ν → ν → Prop} {t : Table n κ ν} {store store' : κ → ν} {k : κ}
    (clean : t.Clean R store k) (h : store' k = store k) : t.Clean R store' k := by
  intro i hi hd
  rw [h]
  exact clean i hi hd

theorem Clean.congr {R : ν → ν → Prop} {t t' : Table n κ ν} {store : κ → ν} {k : κ}
    (clean : t.Clean R store k)
    (hk : ∀ i, (t' i).key = (t i).key) (hd : ∀ i, (t' i).dirty = (t i).dirty)
    (hv : ∀ i, (t' i).val = (t i).val) : t'.Clean R store k := by
  intro i hi h
  rw [hv]
  exact clean i (hk i ▸ hi) (hd i ▸ h)

variable [DecidableEq κ]

def find? (t : Table n κ ν) (k : κ) : Option (Fin n) := Fin.find? fun i => decide ((t i).key = k)

/-- What the store holds once the slot's value has been written back if it was dirty. -/
def evict (store : κ → ν) (s : Slot κ ν) : κ → ν :=
  if s.dirty then Function.update store s.key s.val else store

/-- The value at a key: the cached one if there is one, else the store's. -/
def view (t : Table n κ ν) (store : κ → ν) (k : κ) : ν :=
  match t.find? k with
  | some s => (t s).val
  | none => store k

theorem key_of_find {t : Table n κ ν} {k : κ} {s : Fin n} (h : t.find? k = some s) :
    (t s).key = k :=
  of_decide_eq_true (Fin.find?_eq_some_iff.mp h).1

theorem absent_of_find {t : Table n κ ν} {k : κ} (h : t.find? k = none) : t.Absent k :=
  fun i => of_decide_eq_false (Fin.find?_eq_none_iff.mp h i)

theorem find_of_absent {t : Table n κ ν} {k : κ} (h : t.Absent k) : t.find? k = none :=
  Fin.find?_eq_none_iff.mpr fun i => decide_eq_false (h i)

theorem find_of_single {t : Table n κ ν} {k : κ} (h : t.Single k) {s : Fin n}
    (hs : (t s).key = k) : t.find? k = some s := by
  cases found : t.find? k with
  | none => exact absurd hs (absent_of_find found s)
  | some i => rw [h i s (key_of_find found) hs]

theorem find_congr {t t' : Table n κ ν} (h : ∀ i, (t' i).key = (t i).key) (k : κ) :
    t'.find? k = t.find? k := by
  simp only [find?, h]

theorem view_of_find {t : Table n κ ν} {k : κ} {s : Fin n} (h : t.find? k = some s)
    (store : κ → ν) : t.view store k = (t s).val := by
  simp [view, h]

theorem view_of_single {t : Table n κ ν} {k : κ} (h : t.Single k) {s : Fin n}
    (hs : (t s).key = k) (store : κ → ν) : t.view store k = (t s).val :=
  view_of_find (find_of_single h hs) store

theorem view_of_absent {t : Table n κ ν} {k : κ} (h : t.Absent k) (store : κ → ν) :
    t.view store k = store k := by
  simp [view, find_of_absent h]

theorem view_store_congr (t : Table n κ ν) {store store' : κ → ν} {k : κ}
    (h : store' k = store k) : t.view store' k = t.view store k := by
  simp only [view, h]

theorem view_congr {t t' : Table n κ ν} (hk : ∀ i, (t' i).key = (t i).key)
    (hv : ∀ i, (t' i).val = (t i).val) (store : κ → ν) (k : κ) :
    t'.view store k = t.view store k := by
  simp only [view, find_congr hk, hv]

theorem evict_of_ne (store : κ → ν) {s : Slot κ ν} {k : κ} (h : s.key ≠ k) :
    evict store s k = store k := by
  by_cases hd : s.dirty <;> simp [evict, hd, Function.update_of_ne h.symm]

theorem evict_of_dirty (store : κ → ν) {s : Slot κ ν} (h : s.dirty = true) :
    evict store s s.key = s.val := by
  simp [evict, h]

theorem evict_of_clean (store : κ → ν) {s : Slot κ ν} (h : s.dirty = false) :
    evict store s = store := by
  simp [evict, h]

/-- An insertion over a slot of another key, several copies or not. -/
theorem view_place_apart {t : Table n κ ν} {k k' : κ} {s : Fin n} (ne : k' ≠ k)
    (here : (t s).key ≠ k') (store : κ → ν) (x : ν) (d : Bool) (now : Int) :
    (t.place s k x d now).view (evict store (t s)) k' = t.view store k' := by
  have same : (t.place s k x d now).find? k' = t.find? k' := by
    refine congrArg Fin.find? (funext fun i => ?_)
    by_cases new : i = s
    · subst new
      rw [place_self, decide_eq_false ne.symm, decide_eq_false here]
    · rw [place_of_ne t new]
  cases found : t.find? k' with
  | some i =>
      have moved : i ≠ s := fun e => here (e ▸ key_of_find found)
      rw [view_of_find (same.trans found), view_of_find found, place_of_ne t moved]
  | none =>
      rw [view_of_absent (absent_of_find (same.trans found)),
        view_of_absent (absent_of_find found), evict_of_ne store here]

section Relation
variable {R : ν → ν → Prop}

/-- What a slot holds is, up to the relation, what its eviction leaves in the store. -/
theorem evict_related [Std.Refl R] {t : Table n κ ν} {store : κ → ν} {s : Fin n}
    (h : t.Clean R store (t s).key) : R (evict store (t s) (t s).key) (t s).val := by
  cases hd : (t s).dirty with
  | true => rw [evict_of_dirty store hd]; exact Std.Refl.refl _
  | false => rw [evict_of_clean store hd]; exact h s rfl hd

/-- An insertion leaves the view alone at every other key, whichever slot it replaces. -/
theorem view_place_other [Std.Refl R] {t : Table n κ ν} {store : κ → ν} {k k' : κ}
    (single : t.Single k') (clean : t.Clean R store k') (ne : k' ≠ k) (s : Fin n) (x : ν)
    (d : Bool) (now : Int) :
    R ((t.place s k x d now).view (evict store (t s)) k') (t.view store k') := by
  by_cases here : (t s).key = k'
  · -- the evicted slot is the one that held the key: the store now has its value
    have gone : (t.place s k x d now).Absent k' := by
      intro i hi
      by_cases same : i = s
      · subst same
        rw [place_self] at hi
        exact ne hi.symm
      · rw [place_of_ne t same] at hi
        exact same (single i s hi here)
    rw [view_of_absent gone, view_of_single single here]
    subst here
    exact evict_related clean
  · rw [view_place_apart ne here]
    exact Std.Refl.refl _

theorem view_place_new {t : Table n κ ν} {k : κ} (h : t.Absent k) (store : κ → ν) (s : Fin n)
    (x : ν) (d : Bool) (now : Int) : (t.place s k x d now).view store k = x := by
  rw [view_of_single (Single.place_new h s x d now) (s := s) (by simp)]
  simp

theorem Clean.place_other {t : Table n κ ν} {store : κ → ν} {k k' : κ}
    (clean : t.Clean R store k') (single : t.Single k') (ne : k' ≠ k) (s : Fin n) (x : ν)
    (d : Bool) (now : Int) : (t.place s k x d now).Clean R (evict store (t s)) k' := by
  intro i hi hd
  by_cases same : i = s
  · subst same
    rw [place_self] at hi
    exact absurd hi.symm ne
  · rw [place_of_ne t same] at hi hd ⊢
    have other : (t s).key ≠ k' := fun e => same (single i s hi e)
    rw [evict_of_ne store other]
    exact clean i hi hd

/-- A key that was not cached keeps its value in the store, so the new slot may be clean
when it holds that value. -/
theorem Clean.place_new {t : Table n κ ν} {store : κ → ν} {k : κ} (absent : t.Absent k)
    (s : Fin n) {x : ν} {d : Bool} (now : Int) (agree : d = false → R (store k) x) :
    (t.place s k x d now).Clean R (evict store (t s)) k := by
  intro i hi hd
  by_cases same : i = s
  · subst same
    rw [place_self] at hd ⊢
    rw [evict_of_ne store (absent i)]
    exact agree hd
  · rw [place_of_ne t same] at hi
    exact absurd hi (absent i)

end Relation

theorem view_write_self {t : Table n κ ν} {k : κ} {s : Fin n} (h : t.find? k = some s)
    (store : κ → ν) (x : ν) (d : Bool) : (t.write s x d).view store k = x := by
  have found : (t.write s x d).find? k = some s := by
    rw [find_congr (fun i => write_key t s x d i), h]
  rw [view_of_find found, write_val]
  simp

theorem view_write_other {t : Table n κ ν} {k : κ} {s : Fin n} (h : (t s).key ≠ k)
    (store : κ → ν) (x : ν) (d : Bool) : (t.write s x d).view store k = t.view store k := by
  have same := find_congr (fun i => write_key t s x d i) k
  cases found : t.find? k with
  | none => rw [view_of_absent (absent_of_find (same.trans found)),
      view_of_absent (absent_of_find found)]
  | some i =>
      have moved : i ≠ s := fun e => h (e ▸ key_of_find found)
      rw [view_of_find (same.trans found), view_of_find found, write_val]
      simp [moved]

end Table

end Slots
