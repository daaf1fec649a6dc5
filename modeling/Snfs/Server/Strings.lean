import Snfs.Fs.Paths
import Snfs.Library.Strings
import Snfs.Server.Handlers

/-!
The paths in a datagram. No handler measures them: a path reaches to the next zero in the
request, or to the end of it.
-/

namespace Snfs

def Datagram.byte (d : Datagram) (k : Nat) : UInt8 := d.bytes.getD k 0

def Datagram.EndsWithin (d : Datagram) (pos m : Nat) : Prop := ∃ z, z < m ∧ d.byte (pos + z) = 0

/-- The first zero from a place on is the one `z` bytes behind it. -/
def Datagram.EndsAt (d : Datagram) (pos z : Nat) : Prop :=
  d.byte (pos + z) = 0 ∧ ∀ k, k < z → d.byte (pos + k) ≠ 0

/-- The last slash among the `z` bytes from a place on is the one `p` bytes behind it. -/
def Datagram.LastSlash (d : Datagram) (pos z p : Nat) : Prop :=
  p < z ∧ d.byte (pos + p) = slash ∧ ∀ q, p < q → q < z → d.byte (pos + q) ≠ slash

/-- The strings of the datagram end where the buffers for them do, or before: the path of a
`snfs_lookup`; both paths of a `snfs_copy`, and the parts of the second one on both sides of its last
slash. -/
structure Datagram.StringsEnd (d : Datagram) : Prop where
  lookup : (srvRecvRequest d).type = SnfsMsgType.lookup.code → d.EndsWithin 8 maxPathNameSize
  source : (srvRecvRequest d).type = SnfsMsgType.copy.code → d.EndsWithin 8 maxPathNameSize
  target : (srvRecvRequest d).type = SnfsMsgType.copy.code → d.EndsWithin 208 maxPathNameSize
  parts : (srvRecvRequest d).type = SnfsMsgType.copy.code → ∀ z p, d.EndsAt 208 z →
    d.LastSlash 208 z p → p < fsMaxFnameSz ∧ z - (p + 1) < fsMaxFnameSz

/-- The paths that the handlers get out of the datagram fit the buffers that they are copied to. -/
def Datagram.StringsFit (d : Datagram) : Prop :=
  ∀ call, handledCall (srvRecvRequest d) = some call → call.PathsFit

theorem get_srvRecvRequest (d : Datagram) {k : Nat} (inside : k < msgReqSize) :
    (srvRecvRequest d).req.get k = d.byte k := by
  rw [srvRecvRequest, Buf.get_splice _ _ _ inside, Nat.zero_add, Nat.sub_zero, Datagram.byte]
  by_cases sent : k < d.bytes.length
  · rw [if_pos ⟨Nat.zero_le k, sent⟩]
  · rw [if_neg (by omega), Buf.get_zero, List.getD_eq_default _ _ (by omega)]

private theorem length_pathAt_lt_iff (d : Datagram) {pos m : Nat} (inside : pos + m ≤ msgReqSize) :
    (pathAt (srvRecvRequest d).req pos).length < m ↔ d.EndsWithin pos m := by
  rw [pathAt, Buf.length_cstr_lt_iff (by omega), Datagram.EndsWithin]
  refine exists_congr fun z => and_congr_right fun _ => ?_
  rw [get_srvRecvRequest d (by omega)]

/-- A path is what lies before the last slash, the slash, and what lies behind it. -/
theorem splitLast_cases (path : CString) :
    (slash ∉ path ∧ splitLast path = none) ∨
      ∃ parent name, path = parent ++ slash :: name ∧ slash ∉ name ∧
        splitLast path = some (parent, name) := by
  by_cases member : slash ∈ path
  · obtain ⟨name, parent, split, noSlash⟩ := List.eq_append_cons_of_mem (List.mem_reverse.mpr member)
    have whole : path = parent.reverse ++ slash :: name.reverse := by
      rw [← List.reverse_reverse path, split]
      simp
    have free : slash ∉ name.reverse := fun inside => noSlash (List.mem_reverse.mp inside)
    exact .inr ⟨parent.reverse, name.reverse, whole, free, by rw [whole, splitLast_append free]⟩
  · exact .inl ⟨member, by rw [splitLast, if_neg member]⟩

private theorem partsFit_iff {path : CString} {byte : Nat → UInt8}
    (bytes : ∀ k, k < path.length → path.getD k 0 = byte k) :
    PartsFit (splitLast path) ↔ ∀ p, p < path.length → byte p = slash →
      (∀ q, p < q → q < path.length → byte q ≠ slash) →
      p < fsMaxFnameSz ∧ path.length - (p + 1) < fsMaxFnameSz := by
  rcases splitLast_cases path with ⟨noSlash, split⟩ | ⟨parent, name, whole, noSlash, split⟩
  · rw [split]
    refine iff_of_true trivial fun p inside here => ?_
    rw [← bytes p inside, List.getD_eq_getElem _ _ inside] at here
    exact absurd (here ▸ List.getElem_mem inside) noSlash
  · rw [split, PartsFit]
    have length : path.length = parent.length + (name.length + 1) := by
      rw [whole, List.length_append, List.length_cons]
    have here : byte parent.length = slash := by
      rw [← bytes parent.length (by omega), whole, List.getD_append_right _ _ _ _ (Nat.le_refl _),
        Nat.sub_self, List.getD_cons_zero]
    have later : ∀ q, parent.length < q → q < path.length → byte q ≠ slash := by
      intro q behind inside other
      obtain ⟨k, rfl⟩ := Nat.exists_eq_add_of_lt behind
      have short : k < name.length := by omega
      rw [← bytes _ inside, whole, List.getD_append_right _ _ _ _ (by omega),
        show parent.length + k + 1 - parent.length = k + 1 by omega, List.getD_cons_succ,
        List.getD_eq_getElem _ _ short] at other
      exact noSlash (other ▸ List.getElem_mem short)
    constructor
    · rintro ⟨front, back⟩ p inside slash' last
      have same : p = parent.length := by
        rcases Nat.lt_trichotomy p parent.length with before | same | behind
        · exact absurd here (last parent.length before (by omega))
        · exact same
        · exact absurd slash' (later p behind inside)
      omega
    · intro all
      obtain ⟨front, back⟩ := all parent.length (by omega) here later
      exact ⟨front, by omega⟩

private theorem getD_pathAt (d : Datagram) {pos k : Nat} (room : pos + k < msgReqSize)
    (inside : k < (pathAt (srvRecvRequest d).req pos).length) :
    (pathAt (srvRecvRequest d).req pos).getD k 0 = d.byte (pos + k) := by
  rw [List.getD_eq_getElem _ _ inside, ← get_srvRecvRequest d room]
  exact Buf.getElem_cstr inside

private theorem endsAt_pathAt (d : Datagram) {pos : Nat}
    (short : pos + (pathAt (srvRecvRequest d).req pos).length < msgReqSize) :
    d.EndsAt pos (pathAt (srvRecvRequest d).req pos).length := by
  constructor
  · rw [← get_srvRecvRequest d short]
    exact Buf.get_cstr_length (Nat.lt_sub_of_add_lt (Nat.add_comm pos _ ▸ short))
  · intro k inside zero
    rw [← getD_pathAt d (by omega) inside, List.getD_eq_getElem _ _ inside] at zero
    exact Buf.zero_not_mem_cstr _ _ _ (zero ▸ List.getElem_mem inside)

theorem Datagram.EndsAt.unique {d : Datagram} {pos y z : Nat} (first : d.EndsAt pos y)
    (second : d.EndsAt pos z) : y = z := by
  rcases Nat.lt_trichotomy y z with before | same | behind
  · exact absurd first.1 (second.2 y before)
  · exact same
  · exact absurd second.1 (first.2 z behind)

private theorem partsFit_pathAt_iff (d : Datagram) {pos : Nat}
    (short : pos + (pathAt (srvRecvRequest d).req pos).length < msgReqSize) :
    PartsFit (splitLast (pathAt (srvRecvRequest d).req pos)) ↔ ∀ z p, d.EndsAt pos z →
      d.LastSlash pos z p → p < fsMaxFnameSz ∧ z - (p + 1) < fsMaxFnameSz := by
  have ends := endsAt_pathAt d short
  rw [partsFit_iff fun k inside => getD_pathAt d (by omega) inside]
  constructor
  · intro parts z p ends' last
    obtain rfl := ends'.unique ends
    exact parts p last.1 last.2.1 last.2.2
  · intro parts p inside here last
    exact parts _ p ends ⟨inside, here, last⟩

private theorem pathsFit_lookup (pathname : CString) :
    (Call.lookup pathname).PathsFit ↔ pathname.length < maxPathNameSize := Iff.rfl

private theorem pathsFit_copy (srcpath tgtpath : CString) :
    (Call.copy srcpath tgtpath).PathsFit ↔ srcpath.length < maxPathNameSize ∧
      tgtpath.length < maxPathNameSize ∧ PartsFit (splitLast tgtpath) := Iff.rfl

/-- A handler gets paths out of a datagram of its type. -/
theorem handledCall_paths (r : Req) :
    (r.type = SnfsMsgType.lookup.code → handledCall r = some (.lookup (pathAt r.req 8))) ∧
      (r.type = SnfsMsgType.copy.code →
        handledCall r = some (.copy (pathAt r.req 8) (pathAt r.req 208))) ∧
      (r.type ≠ SnfsMsgType.lookup.code → r.type ≠ SnfsMsgType.copy.code → ∀ call,
        handledCall r = some call → call.PathsFit) := by
  refine ⟨fun type => ?_, fun type => ?_, fun other other' call handled => ?_⟩
  · rw [handledCall, type, SnfsMsgType.find_code (by decide)]
    rfl
  · rw [handledCall, type, SnfsMsgType.find_code (by decide)]
    rfl
  · obtain ⟨type, found, args⟩ := Option.bind_eq_some_iff.mp handled
    have code : type.code = r.type := by simpa using List.find?_some found
    cases type with
    | lookup => exact absurd code.symm other
    | copy => exact absurd code.symm other'
    | null | ping => cases args
    | read | write | create | mkdir | readdir =>
        cases args
        trivial

/-- The paths that a datagram has, and how long they are. -/
theorem paths_of_datagram (d : Datagram) :
    ∃ srcpath tgtpath,
      ((srvRecvRequest d).type = SnfsMsgType.lookup.code →
        handledCall (srvRecvRequest d) = some (.lookup srcpath)) ∧
      ((srvRecvRequest d).type = SnfsMsgType.copy.code →
        handledCall (srvRecvRequest d) = some (.copy srcpath tgtpath)) ∧
      (srcpath.length < maxPathNameSize ↔ d.EndsWithin 8 maxPathNameSize) ∧
      (tgtpath.length < maxPathNameSize ↔ d.EndsWithin 208 maxPathNameSize) ∧
      (tgtpath.length < maxPathNameSize → (PartsFit (splitLast tgtpath) ↔ ∀ z p, d.EndsAt 208 z →
        d.LastSlash 208 z p → p < fsMaxFnameSz ∧ z - (p + 1) < fsMaxFnameSz)) := by
  have path200 : maxPathNameSize = 200 := rfl
  have size : msgReqSize = 1044 := rfl
  obtain ⟨lookup, copy, -⟩ := handledCall_paths (srvRecvRequest d)
  exact ⟨_, _, lookup, copy, length_pathAt_lt_iff d (by omega), length_pathAt_lt_iff d (by omega),
    fun short => partsFit_pathAt_iff d (by omega)⟩

theorem Datagram.StringsFit.ends {d : Datagram} (fit : d.StringsFit) : d.StringsEnd := by
  obtain ⟨srcpath, tgtpath, lookup, copy, source, target, parts⟩ := paths_of_datagram d
  have copied (type : (srvRecvRequest d).type = SnfsMsgType.copy.code) :=
    (pathsFit_copy _ _).mp (fit _ (copy type))
  exact ⟨fun type => source.mp ((pathsFit_lookup _).mp (fit _ (lookup type))),
    fun type => source.mp (copied type).1, fun type => target.mp (copied type).2.1,
    fun type => (parts (copied type).2.1).mp (copied type).2.2⟩

theorem Datagram.StringsEnd.fit {d : Datagram} (ends : d.StringsEnd) : d.StringsFit := by
  obtain ⟨srcpath, tgtpath, lookup, copy, source, target, parts⟩ := paths_of_datagram d
  intro call handled
  by_cases isLookup : (srvRecvRequest d).type = SnfsMsgType.lookup.code
  · rw [lookup isLookup] at handled
    cases handled
    exact (pathsFit_lookup _).mpr (source.mpr (ends.lookup isLookup))
  · by_cases isCopy : (srvRecvRequest d).type = SnfsMsgType.copy.code
    · rw [copy isCopy] at handled
      cases handled
      have short := target.mpr (ends.target isCopy)
      exact (pathsFit_copy _ _).mpr
        ⟨source.mpr (ends.source isCopy), short, (parts short).mpr (ends.parts isCopy)⟩
    · exact (handledCall_paths (srvRecvRequest d)).2.2 isLookup isCopy call handled

/-- The paths of a datagram fit the buffers for them exactly if they end in time. -/
theorem strings_fit_iff (d : Datagram) : d.StringsFit ↔ d.StringsEnd :=
  ⟨Datagram.StringsFit.ends, Datagram.StringsEnd.fit⟩

def longTarget : Datagram :=
  ⟨[], [8, 0, 0, 0, 0, 0, 0, 0, 47, 97] ++ List.replicate 198 0 ++ 47 :: List.replicate 15 97⟩

/-- The name of the target does not fit `target_name`. -/
theorem long_target_overflows :
    longTarget.bytes.length ≤ msgReqSize ∧ ¬ longTarget.StringsFit := by
  refine ⟨by decide +kernel, fun fit => ?_⟩
  have type : (srvRecvRequest longTarget).type = SnfsMsgType.copy.code := by decide +kernel
  have ends : longTarget.EndsAt 208 16 := ⟨by decide, by decide⟩
  have last : longTarget.LastSlash 208 16 0 := by
    refine ⟨by decide, by decide, fun q behind inside => ?_⟩
    interval_cases q <;> decide
  exact absurd (fit.ends.parts type 16 0 ends last).2 (by decide)

end Snfs
