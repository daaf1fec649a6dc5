import Snfs.Fs.Paths
import Snfs.Fs.Sightings

/-!
Several `fs_lookup` at once, step by step: a step is a call of `strtok` or a search of a
directory. `strtok` keeps one position for all of them, so a lookup goes on in the path of
the one that has called it last. Where each goes on from its own position and the searches
answer as the directories do, every lookup returns what it returns alone; the directory
cache may change hands between them, since it hides no entry that it has not hidden before.
-/

namespace Snfs

open Runs

variable {ι : Type}

/-- Where a lookup is: before `strtok(line)`, with a token to be searched for, before
`strtok(NULL)`, or at its end. -/
inductive LookupPc where
  | start
  | token (i dir : Nat) (fileid : Option Nat) (token : CString)
  | next (i dir : Nat) (fileid : Option Nat)
  | done (code : Int) (fileid : Option Nat)
deriving DecidableEq

def LookupPc.isDone : LookupPc → Bool
  | .done _ _ => true
  | _ => false

/-- A lookup. No step looks at `left`, which is what its last `strtok` has left. -/
structure LookupCall where
  file : CString
  pc : LookupPc
  left : CString

/-- `saved` is what `strtok` goes on with, in the path of `user`. -/
structure Lookups (ι : Type) where
  saved : CString
  user : Option ι
  fs : Fs
  call : ι → LookupCall

/-- The directory that the next token is searched for in, when `i` are behind. -/
def dirOf (i dir : Nat) : Nat := if i + 1 = 1 then 1 else dir

namespace Lookups

def start (files : ι → CString) (fs : Fs) : Lookups ι :=
  ⟨[], none, fs, fun i => ⟨files i, .start, []⟩⟩

variable [DecidableEq ι]

def set (s : Lookups ι) (j : ι) (call : LookupCall) : Lookups ι :=
  { s with call := Function.update s.call j call }

/-- `strtok`, with what it goes on with; `fileid` is returned when there is no token. -/
def token (s : Lookups ι) (j : ι) (line : CString) (i dir : Nat) (fileid : Option Nat) : Lookups ι :=
  let call := s.call j
  match strtok line with
  | none =>
    { s with saved := [], user := some j }.set j { call with pc := .done 1 fileid, left := [] }
  | some (token, rest) =>
    { s with saved := rest, user := some j }.set j
      { call with pc := .token i dir fileid token, left := rest }

def step (s : Lookups ι) (j : ι) : Option (Unit × Lookups ι) :=
  let call := s.call j
  match call.pc with
  | .start =>
    if call.file.head? ≠ some slash then some ((), s.set j { call with pc := .done (-1) none })
    else some ((), s.token j call.file 0 0 none)
  | .token i dir fileid token =>
    let dir := dirOf i dir
    if !bmapIsset s.fs.inodeBmap dir then
      some ((), s.set j { call with pc := .done (-1) fileid })
    else if (s.fs.inodeTab dir).type ≠ .dir then
      some ((), s.set j { call with pc := .done (-1) fileid })
    else
      match fsiDirSearch s.fs dir token with
      | (none, fs) => some ((), { s with fs := fs }.set j { call with pc := .done 0 fileid })
      | (some fid, fs) =>
        some ((), { s with fs := fs }.set j { call with pc := .next (i + 1) fid (some fid) })
  | .next i dir fileid => some ((), s.token j s.saved i dir fileid)
  | .done _ _ => none

/-- The lookup has returned, and its path is gone. -/
def Returned (s : Lookups ι) (j : ι) : Prop := (s.call j).pc.isDone = true

/-- `strtok(NULL)` goes on with what the lookup's own last call has left, and not in the path of a
lookup that has returned. -/
def KeepsPosition (s : Lookups ι) (j : ι) : Prop :=
  match (s.call j).pc with
  | .next _ _ _ => s.saved = (s.call j).left ∧ ∀ k ∈ s.user, k ≠ j → ¬ s.Returned k
  | _ => True

instance (s : Lookups ι) (j : ι) : Decidable (s.KeepsPosition j) :=
  match pc : (s.call j).pc with
  | .next _ _ _ =>
    have : DecidablePred s.Returned := fun k => inferInstanceAs (Decidable ((s.call k).pc.isDone = true))
    decidable_of_iff (s.saved = (s.call j).left ∧ ∀ k ∈ s.user, k ≠ j → ¬ s.Returned k)
      (by rw [KeepsPosition, pc])
  | .start | .token _ _ _ _ | .done _ _ => .isTrue (by rw [KeepsPosition, pc]; trivial)

/-- Every lookup that has returned has returned what it returns alone. -/
def Undisturbed (files : ι → CString) (fs : Fs) (s : Lookups ι) : Prop :=
  ∀ j code fileid, (s.call j).pc = .done code fileid → (code, fileid) = (fsLookup fs (files j)).1

end Lookups

def DirTree.search (tree : DirTree) (fs : Fs) (dir : Nat) (name : CString) : Option Nat × Fs :=
  (tree.entry dir name, fs)

section Tree
variable {tree : DirTree} {I : Fs → Prop} {fs s : Fs}

end Tree

def LookupCall.alone (tree : DirTree) (fs : Fs) (c : LookupCall) : Int × Option Nat :=
  match c.pc with
  | .start => (lookupBy tree.search fs c.file).1
  | .token i dir fileid token =>
      (walk tree.search (dirOf i dir) fileid (token :: components c.left) fs).1
  | .next i dir fileid => (walk tree.search (dirOf i dir) fileid (components c.left) fs).1
  | .done code fileid => (code, fileid)

namespace Lookups

variable {files : ι → CString} {fs : Fs} {s s' : Lookups ι} {tree : DirTree} {I : Fs → Prop}

/-- Through the tree every lookup goes on to what it returns alone, and the searches still answer. -/
structure OnTheWay (tree : DirTree) (I : Fs → Prop) (files : ι → CString) (fs : Fs)
    (s : Lookups ι) : Prop where
  alone : ∀ j, (s.call j).alone tree fs = (fsLookup fs (files j)).1
  token : ∀ j i dir fileid token, (s.call j).pc = .token i dir fileid token → token ≠ []
  fs : I s.fs

variable [DecidableEq ι]

@[simp] theorem call_set_self (s : Lookups ι) (j : ι) (call : LookupCall) :
    (s.set j call).call j = call := Function.update_self ..

private theorem call_set_ne (s : Lookups ι) {j k : ι} (other : k ≠ j) (call : LookupCall) :
    (s.set j call).call k = s.call k := Function.update_of_ne other ..

theorem OnTheWay.set (h : OnTheWay tree I files fs s) {t : Lookups ι} (calls : t.call = s.call)
    (holds : I t.fs) {j : ι} {call : LookupCall}
    (named : ∀ i dir fileid token, call.pc = .token i dir fileid token → token ≠ [])
    (alone : call.alone tree fs = (s.call j).alone tree fs) :
    OnTheWay tree I files fs (t.set j call) := by
  refine ⟨fun k => ?_, fun k => ?_, holds⟩
  · by_cases here : k = j
    · subst here
      rw [call_set_self, alone]
      exact h.alone k
    · rw [call_set_ne t here, calls]
      exact h.alone k
  · by_cases here : k = j
    · subst here
      rw [call_set_self]
      exact named
    · rw [call_set_ne t here, calls]
      exact h.token k

theorem OnTheWay.strtok (h : OnTheWay tree I files fs s) {j : ι} {line : CString} {i dir : Nat}
    {fileid : Option Nat} (goesOn : (s.call j).alone tree fs =
      (walk tree.search (dirOf i dir) fileid (components line) fs).1) :
    OnTheWay tree I files fs (s.token j line i dir fileid) := by
  rw [components_strtok line] at goesOn
  rw [Lookups.token]
  cases token : Snfs.strtok line with
  | none =>
      rw [token] at goesOn
      exact h.set (t := { s with saved := [], user := some j }) rfl h.fs
        (fun _ _ _ _ same => by cases same) goesOn.symm
  | some next =>
      rw [token] at goesOn
      refine h.set (t := { s with saved := next.2, user := some j }) rfl h.fs
        (fun _ _ _ _ same => ?_) goesOn.symm
      cases same
      exact (strtok_parts token).1

theorem OnTheWay.search (answers : tree.Answers fsiDirSearch I) (first : I fs)
    (h : OnTheWay tree I files fs s) {j : ι} {i dir : Nat} {fileid : Option Nat} {token : CString}
    (pc : (s.call j).pc = .token i dir fileid token) (next : s.step j = some ((), s')) :
    OnTheWay tree I files fs s' := by
  have named := h.token j i dir fileid token pc
  rw [step, pc] at next
  dsimp only at next
  have alone : (s.call j).alone tree fs = (walk tree.search (dirOf i dir) fileid
      (token :: components (s.call j).left) fs).1 := by
    rw [LookupCall.alone, pc]
  have same := (answers.isDir s.fs h.fs (dirOf i dir)).trans
    (answers.isDir fs first (dirOf i dir)).symm
  rw [dir_tests] at next
  rw [walk] at alone
  by_cases dirs : IsDir s.fs (dirOf i dir)
  · rw [if_pos dirs] at next
    rw [if_pos (same.mp dirs), DirTree.search] at alone
    obtain ⟨fs', searched, kept⟩ :=
      answers.step h.fs ((answers.isDir s.fs h.fs _).mp dirs) named
    rw [searched] at next
    cases found : tree.entry (dirOf i dir) token with
    | none =>
        rw [found] at next alone
        simp only [Option.some.injEq, Prod.mk.injEq, true_and] at next
        subst next
        exact h.set (t := { s with fs := fs' }) rfl kept (fun _ _ _ _ same => by cases same)
          alone.symm
    | some fid =>
        rw [found] at next alone
        simp only [Option.some.injEq, Prod.mk.injEq, true_and] at next
        subst next
        exact h.set (t := { s with fs := fs' }) rfl kept (fun _ _ _ _ same => by cases same)
          alone.symm
  · rw [if_neg dirs] at next
    rw [if_neg fun own => dirs (same.mpr own)] at alone
    simp only [Option.some.injEq, Prod.mk.injEq, true_and] at next
    subst next
    exact h.set rfl h.fs (fun _ _ _ _ same => by cases same) alone.symm

theorem OnTheWay.step (answers : tree.Answers fsiDirSearch I) (first : I fs)
    (h : OnTheWay tree I files fs s) {j : ι} (position : s.KeepsPosition j)
    (next : s.step j = some ((), s')) : OnTheWay tree I files fs s' := by
  cases pc : (s.call j).pc with
  | start =>
      rw [Lookups.step, pc] at next
      dsimp only at next
      have alone : (s.call j).alone tree fs = (lookupBy tree.search fs (s.call j).file).1 := by
        rw [LookupCall.alone, pc]
      by_cases rooted : (s.call j).file.head? = some slash
      · rw [if_neg (not_not.mpr rooted)] at next
        simp only [Option.some.injEq, Prod.mk.injEq, true_and] at next
        subst next
        rw [lookupBy_eq tree.search rooted] at alone
        exact h.strtok alone
      · rw [if_pos rooted] at next
        simp only [Option.some.injEq, Prod.mk.injEq, true_and] at next
        subst next
        rw [lookupBy, if_pos rooted] at alone
        exact h.set rfl h.fs (fun _ _ _ _ same => by cases same) alone.symm
  | token i dir fileid token => exact h.search answers first pc next
  | next i dir fileid =>
      rw [Lookups.step, pc] at next
      rw [KeepsPosition, pc] at position
      simp only [Option.some.injEq, Prod.mk.injEq, true_and] at next
      subst next
      refine h.strtok ?_
      rw [position.1, LookupCall.alone, pc]
  | done code fileid =>
      rw [Lookups.step, pc] at next
      cases next

end Lookups

namespace Lookups

end Lookups

end Snfs
