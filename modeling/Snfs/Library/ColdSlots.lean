import Snfs.Library.Slots

/-!
Caches whose slots start out alike: several slots claim one key before any of them
has been filled. A predicate tells these slots, the cold ones, from those in use.
`Tracks` relates such a cache and its store to the values they should stand for at
a key: at most one slot in use claims the key, a lookup finds it, and it holds the
value; while only cold slots claim the key, the store holds it.
-/

namespace Slots.Table

universe u v
variable {κ : Type u} {ν : Type v} {n : Nat} [DecidableEq κ]

structure Tracks (cold : Slot κ ν → Prop) (t : Table n κ ν) (store truth : κ → ν) (k : κ) :
    Prop where
  cold_store : (∀ i, (t i).key = k → cold (t i)) → store k = truth k
  live_val : ∀ i, (t i).key = k → ¬ cold (t i) → (t i).val = truth k
  live_clean : ∀ i, (t i).key = k → ¬ cold (t i) → (t i).dirty = false → store k = truth k
  live_first : ∀ i, (t i).key = k → ¬ cold (t i) → t.find? k = some i

theorem find_place_first {t : Table n κ ν} {k k' : κ} {s i : Fin n} (ne : k' ≠ k)
    (first : t.find? k' = some i) (other : i ≠ s) (x : ν) (d : Bool) (now : Int) :
    (t.place s k x d now).find? k' = some i := by
  obtain ⟨here, before⟩ := Fin.find?_eq_some_iff.mp first
  refine Fin.find?_eq_some_iff.mpr ⟨?_, fun j lt => ?_⟩
  · rwa [place_of_ne t other]
  · by_cases new : j = s
    · subst new
      rw [place_self]
      exact decide_eq_false ne.symm
    · rw [place_of_ne t new]
      exact before j lt

variable {cold : Slot κ ν → Prop} {t : Table n κ ν} {store truth : κ → ν} {k : κ}

namespace Tracks

theorem of_cold (all : ∀ i, cold (t i)) (same : store k = truth k) :
    Tracks cold t store truth k where
  cold_store _ := same
  live_val i _ live := absurd (all i) live
  live_clean i _ live := absurd (all i) live
  live_first i _ live := absurd (all i) live

theorem congr {store' truth' : κ → ν} (h : Tracks cold t store truth k)
    (stored : store' k = store k) (right : truth' k = truth k) :
    Tracks cold t store' truth' k where
  cold_store all := by rw [stored, right, h.cold_store all]
  live_val i key live := by rw [right, h.live_val i key live]
  live_clean i key live unwritten := by rw [stored, right, h.live_clean i key live unwritten]
  live_first := h.live_first

theorem store_of_absent (h : Tracks cold t store truth k) (absent : t.find? k = none) :
    store k = truth k :=
  h.cold_store fun i key => absurd key (absent_of_find absent i)

/-- A lookup that finds a cold slot says that no slot in use claims the key. -/
theorem store_of_cold (h : Tracks cold t store truth k) {s : Fin n} (found : t.find? k = some s)
    (isCold : cold (t s)) : store k = truth k := by
  refine h.cold_store fun i key => ?_
  by_contra live
  have first := h.live_first i key live
  rw [found] at first
  cases first
  exact live isCold

theorem val_of_live (h : Tracks cold t store truth k) {s : Fin n} (found : t.find? k = some s)
    (live : ¬ cold (t s)) : (t s).val = truth k :=
  h.live_val s (key_of_find found) live

variable (clean : ∀ s, cold s → s.dirty = false)
include clean

theorem touch (h : Tracks cold t store truth k) {k' : κ} {s : Fin n} (found : t.find? k' = some s)
    (right : k' = k → (t s).val = truth k) (now : Int) :
    Tracks cold (t.touch s now) store truth k := by
  have other {i : Fin n} (ne : i ≠ s) : t.touch s now i = t i := Function.update_of_ne ne _ _
  have here : (t s).key = k → t.find? k = some s := fun key =>
    (key_of_find found).symm.trans key ▸ found
  have finds : (t.touch s now).find? k = t.find? k := find_congr (fun i => touch_key t s now i) k
  refine ⟨fun all => ?_, fun i key live => ?_, fun i key live unwritten => ?_, fun i key live => ?_⟩
  · by_cases held : ∃ i, (t i).key = k ∧ ¬ cold (t i)
    · obtain ⟨i, key, live⟩ := held
      have isCold := all i ((touch_key t s now i).trans key)
      exact h.live_clean i key live ((touch_dirty t s now i).symm.trans (clean _ isCold))
    · exact h.cold_store fun i key => by_contra fun live => held ⟨i, key, live⟩
  · rw [touch_key] at key
    rw [touch_val]
    by_cases same : i = s
    · subst same
      exact right ((key_of_find found).symm.trans key)
    · rw [other same] at live
      exact h.live_val i key live
  · rw [touch_key] at key
    rw [touch_dirty] at unwritten
    by_cases isCold : cold (t i)
    · by_cases same : i = s
      · subst same
        exact h.store_of_cold (here key) isCold
      · rw [other same] at live
        exact absurd isCold live
    · exact h.live_clean i key isCold unwritten
  · rw [touch_key] at key
    rw [finds]
    by_cases same : i = s
    · subst same
      exact here key
    · rw [other same] at live
      exact h.live_first i key live

theorem write (h : Tracks cold t store truth k) {k' : κ} {s : Fin n} (found : t.find? k' = some s)
    (x : ν) : Tracks cold (t.write s x true) store (Function.update truth k' x) k := by
  have other {i : Fin n} (ne : i ≠ s) : t.write s x true i = t i := Function.update_of_ne ne _ _
  have finds : (t.write s x true).find? k = t.find? k :=
    find_congr (fun i => write_key t s x true i) k
  have live_s : ¬ cold (t.write s x true s) := fun isCold => by
    have unwritten := clean _ isCold
    rw [write_dirty, if_pos rfl] at unwritten
    cases unwritten
  by_cases same : k = k'
  · subst same
    have only (i : Fin n) (key : (t i).key = k) (live : ¬ cold (t.write s x true i)) : i = s := by
      by_contra ne
      rw [other ne] at live
      have first := h.live_first i key live
      rw [found] at first
      cases first
      exact ne rfl
    refine ⟨fun all => absurd (all s ?_) live_s, fun i key live => ?_,
      fun i key live unwritten => ?_, fun i key live => ?_⟩
    · rw [write_key, key_of_find found]
    all_goals
      rw [write_key] at key
      cases only i key live
    · rw [write_val, if_pos rfl, Function.update_self]
    · rw [write_dirty, if_pos rfl] at unwritten
      cases unwritten
    · rw [finds, found]
  · have apart {i : Fin n} (key : (t i).key = k) : i ≠ s := by
      rintro rfl
      exact same (key.symm.trans (key_of_find found))
    have truth_k : Function.update truth k' x k = truth k := Function.update_of_ne same _ _
    refine ⟨fun all => ?_, fun i key live => ?_, fun i key live unwritten => ?_,
      fun i key live => ?_⟩
    · rw [truth_k]
      refine h.cold_store fun i key => ?_
      have isCold := all i ((write_key t s x true i).trans key)
      rwa [other (apart key)] at isCold
    all_goals
      rw [write_key] at key
      rw [other (apart key)] at live
    · rw [other (apart key), truth_k]
      exact h.live_val i key live
    · rw [other (apart key)] at unwritten
      rw [truth_k]
      exact h.live_clean i key live unwritten
    · rw [finds]
      exact h.live_first i key live

/-- The key that an insertion brings in. -/
theorem place_new {truth' : κ → ν} (absent : t.Absent k) (s : Fin n) (x : ν)
    (d : Bool) (now : Int) (right : x = truth' k) (stored : d = false → store k = truth' k) :
    Tracks cold (t.place s k x d now) (evict store (t s)) truth' k := by
  have only (i : Fin n) (key : (t.place s k x d now i).key = k) : i = s := by
    by_contra ne
    rw [place_of_ne t ne] at key
    exact absent i key
  have single : (t.place s k x d now).Single k := .place_new absent s x d now
  refine ⟨fun all => ?_, fun i key _ => ?_, fun i key _ unwritten => ?_, fun i key _ =>
    find_of_single single key⟩
  · rw [evict_of_ne store (absent s)]
    have isCold := all s (by rw [place_self])
    rw [place_self] at isCold
    exact stored (clean _ isCold)
  · cases only i key
    rwa [place_self]
  · cases only i key
    rw [place_self] at unwritten
    rw [evict_of_ne store (absent s)]
    exact stored unwritten

/-- A key that an insertion does not bring in, whichever slot it replaces. -/
theorem place_other (h : Tracks cold t store truth k) {k' : κ} (ne : k ≠ k') (s : Fin n) (x : ν)
    (d : Bool) (now : Int) : Tracks cold (t.place s k' x d now) (evict store (t s)) truth k := by
  have moved {i : Fin n} (key : (t.place s k' x d now i).key = k) : i ≠ s := by
    rintro rfl
    rw [place_self] at key
    exact ne key.symm
  have stored (same : store k = truth k) : evict store (t s) k = truth k := by
    by_cases here : (t s).key = k
    · subst here
      by_cases isCold : cold (t s)
      · rw [evict_of_clean store (clean _ isCold), same]
      · cases written : (t s).dirty with
        | false => rw [evict_of_clean store written, same]
        | true => rw [evict_of_dirty store written, h.live_val s rfl isCold]
    · rw [evict_of_ne store here, same]
  refine ⟨fun all => ?_, fun i key live => ?_, fun i key live unwritten => ?_, fun i key live => ?_⟩
  · by_cases here : (t s).key = k ∧ ¬ cold (t s)
    · -- the slot in use is the one that is replaced
      obtain ⟨rfl, live⟩ := here
      cases written : (t s).dirty with
      | false => exact stored (h.live_clean s rfl live written)
      | true => rw [evict_of_dirty store written, h.live_val s rfl live]
    · refine stored (h.cold_store fun i key => ?_)
      by_contra live
      have away : i ≠ s := by
        rintro rfl
        exact here ⟨key, live⟩
      have isCold := all i (by rwa [place_of_ne t away])
      rw [place_of_ne t away] at isCold
      exact live isCold
  all_goals
    have away := moved key
    rw [place_of_ne t away] at key live
  · rw [place_of_ne t away]
    exact h.live_val i key live
  · rw [place_of_ne t away] at unwritten
    exact stored (h.live_clean i key live unwritten)
  · exact find_place_first ne (h.live_first i key live) away x d now

end Tracks

end Slots.Table
