import Mathlib.Data.List.Infix
import Snfs.Fs.Paths
import Snfs.Server.Messages

/-!
The path names of `snfs_lib/myfs.c`: `myparse`, which the functions of the library
call first, against the grammar that its tests spell out. The test for a slash at the
end looks at the terminating zero.
-/

namespace Snfs

abbrev space : UInt8 := 32

/-- The loop of `myparse`: `line` is what `strtok` goes on with, and `fuel ≥` its length. -/
def parseTokens : (fuel : Nat) → (line : CString) → Int
  | 0, _ => 0
  | fuel + 1, line =>
    match strtok line with
    | none => 0
    | some (token, line) =>
      if maxFileNameSize - 1 < token.length then -1 else parseTokens fuel line

/-- `myparse`. A string is followed by its zero, which `line[strlen(pathname)]` is. -/
def myparse (pathname : CString) : Int :=
  let line := pathname
  if maxPathNameSize ≤ line.length ∨ line.length < 1 then -1
  else if space ∈ line ∨ [slash, slash] <:+: line ∨ line.head? ≠ some slash then -1
  else if pathname.length ≠ 0 ∧ (line ++ [0])[pathname.length]? = some slash then -1
  else parseTokens line.length line

/-- The rules for path names but the one about the last character. -/
structure PathRules (path : CString) : Prop where
  rooted : path.head? = some slash
  noSpace : space ∉ path
  noDouble : ¬ [slash, slash] <:+: path
  names : ∀ name ∈ components path, name.length ≤ 13

instance (path : CString) : Decidable (PathRules path) :=
  decidable_of_iff (path.head? = some slash ∧ space ∉ path ∧ ¬ [slash, slash] <:+: path ∧
      ∀ name ∈ components path, name.length ≤ 13)
    ⟨fun h => ⟨h.1, h.2.1, h.2.2.1, h.2.2.2⟩, fun h => ⟨h.1, h.2, h.3, h.4⟩⟩

structure PathGrammar (path : CString) : Prop extends PathRules path where
  closed : path.getLast? = some slash → path = [slash]

structure EndsInSlash (path : CString) : Prop where
  rules : PathRules path
  last : path.getLast? = some slash
  named : path ≠ [slash]

private theorem parseTokens_eq {fuel : Nat} {line : CString} (enough : line.length ≤ fuel) :
    parseTokens fuel line = if ∀ name ∈ components line, name.length ≤ 13 then 0 else -1 := by
  induction fuel generalizing line with
  | zero =>
      have empty : line = [] := List.length_eq_zero_iff.mp (Nat.le_zero.mp enough)
      subst empty
      rfl
  | succ fuel ih =>
      rw [parseTokens, components_strtok line]
      cases token : strtok line with
      | none => simp
      | some next =>
          have shorter := strtok_length token
          simp only [List.forall_mem_cons]
          by_cases long : maxFileNameSize - 1 < next.1.length
          · have not : ¬ next.1.length ≤ 13 := Nat.not_le.mpr long
            rw [if_pos long, if_neg fun names => not names.1]
          · have le : next.1.length ≤ 13 := Nat.not_lt.mp long
            rw [if_neg long, ih (by omega)]
            simp [le]

/-- The parser goes by the rules, and not by the last character. -/
theorem myparse_eq {path : CString} (short : path.length < maxPathNameSize) :
    myparse path = if PathRules path then 0 else -1 := by
  have terminator : (path ++ [0])[path.length]? ≠ some slash := by
    rw [List.getElem?_append_right (Nat.le_refl _), Nat.sub_self]
    decide
  simp only [myparse, Nat.not_le.mpr short, false_or, terminator, and_false, if_false,
    parseTokens_eq (Nat.le_refl _)]
  by_cases rules : PathRules path
  · have pos : ¬ path.length < 1 := by
      have some := List.ne_nil_of_mem (List.mem_of_mem_head? rules.rooted)
      have := List.length_pos_iff.mpr some
      omega
    rw [if_pos rules, if_neg pos, if_neg (by simp [rules.noSpace, rules.noDouble, rules.rooted]),
      if_pos rules.names]
  · rw [if_neg rules]
    split
    · rfl
    · split
      · rfl
      · rename_i early
        simp only [not_or, not_not] at early
        rw [if_neg fun names => rules ⟨early.2.2, early.1, early.2.1, names⟩]

theorem PathRules.grammar_iff {path : CString} (rules : PathRules path) :
    PathGrammar path ↔ ¬ EndsInSlash path := by
  refine ⟨fun grammar ends => ends.named (grammar.closed ends.last), fun closed => ⟨rules, ?_⟩⟩
  intro last
  by_contra named
  exact closed ⟨rules, last, named⟩

/-- `myparse` decides the grammar on every path but those that end in a slash behind a name. -/
theorem myparse_grammar_iff {path : CString} (short : path.length < maxPathNameSize) :
    ((myparse path = 0 ↔ PathGrammar path) ∧ (¬ PathGrammar path → myparse path = -1)) ↔
      ¬ EndsInSlash path := by
  rw [myparse_eq short]
  by_cases rules : PathRules path
  · rw [if_pos rules, ← rules.grammar_iff]
    by_cases grammar : PathGrammar path <;> simp [grammar]
  · rw [if_neg rules]
    have grammar : ¬ PathGrammar path := fun h => rules h.toPathRules
    have closed : ¬ EndsInSlash path := fun h => rules h.rules
    simp [grammar, closed]

theorem myparse_grammar_iff_two_names :
    (myparse [47, 97, 47, 98] = 0 ↔ PathGrammar [47, 97, 47, 98]) ∧
      (¬ PathGrammar [47, 97, 47, 98] → myparse [47, 97, 47, 98] = -1) :=
  (myparse_grammar_iff (by decide)).mpr fun ends => absurd ends.last (by decide)

/-- `"/a/"` is accepted. -/
theorem myparse_accepts_trailing_slash :
    myparse [47, 97, 47] = 0 ∧ ¬ PathGrammar [47, 97, 47] :=
  ⟨by decide, fun grammar => absurd (grammar.closed rfl) (by decide)⟩

end Snfs
