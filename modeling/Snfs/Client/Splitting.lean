import Mathlib.Data.List.TakeWhile
import Snfs.Client.Library
import Snfs.Library.Strings

/-!
What `my_open` and `my_mkdir` make of a path: the name that they ask the server to make
and the path of the directory in which they look for it. The buffer for the name is not
cleared between the tokens, so what is left in it of a longer one lengthens the name and
shortens the path of the directory.
-/

namespace Snfs

open Buf

variable {σ : Type}

def RemoteCall.logged (remote : RemoteCall σ) : RemoteCall (σ × List Call) := fun (s, log) call =>
  ((remote s call).1, (remote s call).2, log ++ [call])

section Logged
variable (remote : RemoteCall σ) (s : σ) (log : List Call)

end Logged

theorem splitTokens_eq {fuel : Nat} {line : CString} (enough : line.length ≤ fuel) (i : Nat)
    (b : Buf maxFileNameSize) :
    splitTokens fuel line i b =
      (i + (components line).length, (components line).foldl (fun b token => b.splice 0 token) b) := by
  induction fuel generalizing line i b with
  | zero =>
      have empty : line = [] := List.length_eq_zero_iff.mp (Nat.le_zero.mp enough)
      subst empty
      rfl
  | succ fuel ih =>
      rw [splitTokens, components_strtok line]
      cases token : strtok line with
      | none => rfl
      | some next =>
          have shorter := strtok_length token
          simp only [ih (show next.2.length ≤ fuel by omega), List.length_cons, List.foldl_cons]
          rw [Nat.add_assoc, Nat.add_comm 1]

private theorem holds_tokens {tokens : List CString} (short : ∀ t ∈ tokens, t.length ≤ 13)
    {b : Buf maxFileNameSize} {xs : CString} (holds : b.Holds xs) :
    (tokens.foldl (fun b token => b.splice 0 token) b).Holds (tokens.foldl overlay xs) := by
  induction tokens generalizing b xs with
  | nil => exact holds
  | cons token tokens ih =>
      obtain ⟨fits, rest⟩ := List.forall_mem_cons.mp short
      exact ih rest (holds.splice (Nat.le_succ_of_le fits))

private theorem strtok_within {line token rest : CString} (cut : strtok line = some (token, rest)) :
    token <:+: line ∧ rest <:+: line := by
  rw [strtok] at cut
  split at cut
  · cases cut
  · simp only [Option.some.injEq, Prod.mk.injEq] at cut
    obtain ⟨rfl, rfl⟩ := cut
    have inside : line.dropWhile (· == slash) <:+: line := (List.dropWhile_suffix _).isInfix
    constructor
    · exact (List.takeWhile_prefix _).isInfix.trans inside
    · exact (List.tail_suffix _).isInfix.trans ((List.dropWhile_suffix _).isInfix.trans inside)

theorem component_within {path name : CString} (member : name ∈ components path) :
    name <:+: path := by
  induction length : path.length using Nat.strong_induction_on generalizing path with
  | _ n ih =>
      rw [components_strtok] at member
      cases token : strtok path with
      | none =>
          rw [token] at member
          cases member
      | some next =>
          have shorter := strtok_length token
          obtain ⟨first, rest⟩ := strtok_within token
          rw [token, List.mem_cons] at member
          rcases member with rfl | later
          · exact first
          · exact (ih next.2.length (by omega) later rfl).trans rest

/-- A path that does not end in a slash is that of a directory, a slash and a name. -/
theorem exists_parent {path : CString} (rooted : path.head? = some slash)
    (closed : path.getLast? ≠ some slash) :
    ∃ parent last, path = parent ++ slash :: last ∧ last ≠ [] ∧ slash ∉ last := by
  have member : slash ∈ path.reverse := List.mem_reverse.mpr (List.mem_of_mem_head? rooted)
  obtain ⟨last, parent, split, noSlash⟩ := List.eq_append_cons_of_mem member
  have whole : path = parent.reverse ++ slash :: last.reverse := by
    rw [← List.reverse_reverse path, split]
    simp
  refine ⟨parent.reverse, last.reverse, whole, ?_, by simpa using noSlash⟩
  rintro empty
  rw [empty] at whole
  exact closed (by rw [whole]; simp)

theorem eq_slash_of_no_component {path : CString} (bare : components path = []) {c : UInt8}
    (member : c ∈ path) : c = slash := by
  rw [components_strtok, strtok] at bare
  split at bare
  · rename_i none
    split at none
    · rename_i slashes
      simpa using List.dropWhile_eq_nil_iff.mp slashes c member
    · cases none
  · cases bare

/-- A path with one component and without a double slash is a slash and a name. -/
theorem parent_of_single {parent : CString} (bare : components parent = [])
    (noDouble : ¬ [slash, slash] <:+: parent ++ [slash]) : parent = [] := by
  by_contra some
  have last := List.dropLast_append_getLast some
  rw [← last, eq_slash_of_no_component bare (List.getLast_mem some), List.append_assoc] at noDouble
  exact noDouble (List.suffix_append _ _).isInfix

def lastName (name : CString) : CString := (components name).foldl overlay []

variable {name parent last : CString}

theorem PathRules.holds (rules : PathRules name) :
    (splitTokens name.length name 0 .zero).2.Holds (lastName name) := by
  rw [splitTokens_eq (Nat.le_refl _)]
  exact holds_tokens rules.names holds_zero

theorem lastName_free (noZero : (0 : UInt8) ∉ name) : (0 : UInt8) ∉ lastName name := by
  intro zero
  rcases mem_foldl_overlay zero with none | ⟨n, member, inside⟩
  · cases none
  · exact noZero ((component_within member).subset inside)

theorem PathRules.lastName_length (rules : PathRules name) : (lastName name).length ≤ 13 :=
  (length_foldl_overlay _ _).mpr ⟨Nat.zero_le _, rules.names⟩

theorem PathRules.splitName_many (rules : PathRules name) (noZero : (0 : UInt8) ∉ name)
    (many : 1 < (components name).length) :
    splitName name = ((components name).length, lastName name,
      name.take (name.length - ((lastName name).length + 1))) := by
  have read := rules.holds.cstr (lastName_free noZero) (Nat.lt_succ_of_le rules.lastName_length)
  have count : (splitTokens name.length name 0 .zero).1 = (components name).length := by
    rw [splitTokens_eq (Nat.le_refl _), Nat.zero_add]
  simp only [splitName, count, if_pos many, read]

/-- A path that `myparse` accepts, taken apart at its last slash. -/
structure Parted (name parent last : CString) : Prop where
  whole : name = parent ++ slash :: last
  nonempty : last ≠ []
  noSlash : slash ∉ last
  rules : PathRules name
  noZero : (0 : UInt8) ∉ name

namespace Parted

theorem components (h : Parted name parent last) :
    Snfs.components name = Snfs.components parent ++ [last] := by
  rw [h.whole, components_append, components_name h.nonempty h.noSlash]

theorem getLast (h : Parted name parent last) : (Snfs.components name).getLast? = some last := by
  rw [h.components, List.getLast?_concat]

theorem before (h : Parted name parent last) :
    (splitLast name).map Prod.fst = some parent := by
  rw [h.whole, splitLast_append h.noSlash]
  rfl

theorem lastName_eq (h : Parted name parent last) :
    lastName name = last ↔ ∀ n ∈ Snfs.components name, n.length ≤ last.length := by
  rw [lastName, h.components, foldl_overlay_eq_last]

theorem single (h : Parted name parent last) (one : (Snfs.components name).length = 1) :
    parent = [] := by
  rw [h.components, List.length_append, List.length_singleton] at one
  refine parent_of_single (List.length_eq_zero_iff.mp (by omega)) fun double => ?_
  exact h.rules.noDouble (double.trans ⟨[], last, by rw [h.whole]; simp⟩)

private theorem lastName_single (h : Parted name parent last)
    (one : (Snfs.components name).length = 1) :
    lastName name = last := by
  rw [h.lastName_eq, h.components, h.single one]
  simp [Snfs.components]

theorem splitName_single (h : Parted name parent last)
    (one : (Snfs.components name).length = 1) : splitName name = (1, last, name) := by
  have stored := h.lastName_single one
  have length := h.rules.lastName_length
  have free := lastName_free h.noZero
  have holds := h.rules.holds
  rw [stored] at length free holds
  have fits : last.length ≤ maxFileNameSize := Nat.le_succ_of_le length
  have last_over := holds.splice fits
  rw [overlay_eq_right.mpr (Nat.le_refl _)] at last_over
  have read := last_over.cstr free (Nat.lt_succ_of_le length)
  have count : (splitTokens name.length name 0 .zero).1 = 1 := by
    rw [splitTokens_eq (Nat.le_refl _), Nat.zero_add, one]
  have rest : name.drop 1 = last := by
    rw [h.whole, h.single one, List.nil_append, List.drop_one, List.tail_cons]
  simp only [splitName, count, Nat.lt_irrefl, if_false, rest, read]

end Parted

end Snfs
