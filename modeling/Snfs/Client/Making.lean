import Snfs.Client.Resolving

/-!
`my_mkdir` and `my_open` over the socket. For a path whose last name is as long as the others
they make one entry, where the path says, and a call that fails makes nothing.
-/

namespace Snfs

open Runs

/-- One entry has been made, for a new inode, and nothing else. -/
structure MadeOne (type : Itype) (fs : Fs) (dir : Nat) (name : CString) (a : Nat) (fs' : Fs) :
    Prop where
  grows : Grows fs fs'
  isDir : IsDir fs dir
  free : bmapIsset fs.inodeBmap a = false
  inUse : ∀ b, bmapIsset fs'.inodeBmap b = true ↔ bmapIsset fs.inodeBmap b = true ∨ b = a
  type : (fs'.inodeTab a).type = type
  empty : dirEntries fs' a = []
  entries_dir : dirEntries fs' dir = dirEntries fs dir ++ [(name, a)]
  entries_other : ∀ d, IsDir fs d → d ≠ dir → dirEntries fs' d = dirEntries fs d

variable {num : Nat} {clock : Nat → Int} {fs₀ fs fs' : Fs} {s : Session} {type : Itype}
  {name parent last : CString}

theorem MadeOne.after {dir a : Nat} (made : MadeOne type fs dir name a fs')
    (same : SameTree fs₀ fs) : MadeOne type fs₀ dir name a fs' := by
  have isDir := same.back.isDir made.isDir
  refine ⟨same.grows.trans made.grows, isDir, ?_, fun b => ?_, made.type, made.empty, ?_, ?_⟩
  · rw [← same.inodeBmap, made.free]
  · rw [made.inUse, same.inodeBmap]
  · rw [made.entries_dir, same.dirEntries isDir]
  · intro d isDir ne
    rw [made.entries_other d (same.grows.isDir isDir) ne, same.dirEntries isDir]

theorem MadeOne.hasEntry {dir a : Nat} (made : MadeOne type fs dir name a fs') :
    HasEntry fs' dir (name, a) := by
  refine ⟨made.grows.isDir made.isDir, ?_⟩
  rw [made.entries_dir]
  exact List.mem_append_right _ (List.mem_singleton_self _)

theorem Made.madeOne {own own' : Ledger} {top dir : Nat}
    (made : Made own own' top type fs dir name fs') (h : Inv own top fs)
    (type' : (fsiInodeInit type).type = type) : MadeOne type fs dir name top fs' := by
  refine ⟨made.grows h, h.isDir_iff.mpr ⟨made.dir_lt, made.creatable.isDir⟩, ?_, fun b => ?_, ?_,
    made.entries_new, made.entries_dir, fun d isDir => ?_⟩
  · rw [h.inodes.inUse]
    exact decide_eq_false (Nat.lt_irrefl top)
  · rw [made.inv.inodes.inUse, h.inodes.inUse, decide_eq_true_iff, decide_eq_true_iff]
    omega
  · rw [made.tab_new, type']
  · exact made.entries_other d (h.isDir_iff.mp isDir).1

/-- A creation makes nothing or the entry. -/
theorem Inv.fsMake_one {own : Ledger} {top dir : Nat} (h : Inv own top fs)
    (made : type = .dir ∨ type = .file) (noZero : (0 : UInt8) ∉ name) (room : Room fs 1)
    {id : Option Nat} (done : Snfs.fsMake type fs dir name = (id, fs')) :
    (id = none ∧ SameTree fs fs') ∨ ∃ a, id = some a ∧ a < 64 ∧ MadeOne type fs dir name a fs' := by
  rcases h.fsMake type made dir noZero room with
    ⟨fs₁, stopped, searched⟩ | ⟨own', fs₁, ended, added⟩
  · rw [stopped] at done
    cases done
    exact .inl ⟨rfl, searched.same.sameTree h⟩
  · rw [ended] at done
    cases done
    refine .inr ⟨top, rfl, added.free, added.madeOne h ?_⟩
    rcases made with rfl | rfl <;> rfl

theorem Passes.snoc {entry : Nat → CString × Nat → Prop} {a b c : Nat} {names : List CString}
    (passes : Passes entry a names b) (next : entry b (name, c)) :
    Passes entry a (names ++ [name]) c := by
  induction passes with
  | here a => exact .down next (.here c)
  | down first _ ih => exact .down first (ih next)

/-- Where the path of the directory leads, the name is made for the whole path. -/
theorem Parted.passes (parted : Parted name parent last) {dir a : Nat}
    (leads : Passes (HasEntry fs) 1 (Snfs.components parent) dir)
    (made : MadeOne type fs dir last a fs') :
    Passes (HasEntry fs') 1 (Snfs.components name) a := by
  rw [parted.components]
  exact (made.grows.passes leads).snoc made.hasEntry

section Serves

theorem Session.Serves.makes {call : Call} (give : Nat → Reply) {dir : Nat}
    (data : 10 ≤ num) (unwrapped : num * blockSize < 2 ^ 32)
    (serves : s.Serves num clock fs₀) (room : ∀ fs ∈ s.server, Room fs 1)
    (made : type = .dir ∨ type = .file)
    (limits : call.Limits) (carried : call.Carried) (noZero : (0 : UInt8) ∉ name)
    (within : ∀ fs junk, Room fs 1 → Within fs (call.op junk))
    (handle : ∀ fs junk, call.handle fs junk =
      some ((fsMake type fs dir name).1.map give, (fsMake type fs dir name).2))
    (gives : ∀ a < 64, call.Gives (give a)) :
    ∃ s', s'.Serves num clock fs₀ ∧ ((remoteCall s call = (.error 0, s') ∧ s.Still s') ∨
      ∃ fs a fs', remoteCall s call = (.ok (give a), s') ∧ s.server = some fs ∧
        s'.server = some fs' ∧ a < 64 ∧ MadeOne type fs dir name a fs') := by
  have one {fs fs' reply} (alive : fs ∈ s.server) (reached : Reached num clock fs)
      (done : call.handle fs (s.junk s.sent) = some (reply, fs')) :
      (reply = none ∧ SameTree fs fs') ∨
        ∃ a, reply = some (give a) ∧ a < 64 ∧ MadeOne type fs dir name a fs' := by
    obtain ⟨_, _, inv, -⟩ := reached.facts data unwrapped
    cases ended : fsMake type fs dir name with
    | mk id fs₁ =>
        rw [handle, ended] at done
        cases done
        rcases inv.fsMake_one made noZero (room fs alive) ended with ⟨rfl, same⟩ | ⟨a, rfl, low, one⟩
        · exact .inl ⟨rfl, same⟩
        · exact .inr ⟨a, rfl, low, one⟩
  obtain ⟨s', serves',
    ⟨failed, before⟩ | ⟨fs, reply, fs', returned, alive', alive, reached, -, done⟩⟩ :=
    serves.answered data unwrapped limits carried (fun fs alive _ => within fs _ (room fs alive))
      fun fs alive reply fs' reached done => by
        rcases one alive reached done with ⟨none, -⟩ | ⟨a, same, low, -⟩
        · cases none
        · cases same
          exact gives a low
  · refine ⟨s', serves', .inl ⟨failed, fun fs' alive' => ?_⟩⟩
    obtain ⟨fs, alive, reached, done⟩ := before fs' alive'
    rcases one alive reached done with ⟨-, same⟩ | ⟨a, some, -⟩
    · exact ⟨fs, alive, same⟩
    · cases some
  · rcases one alive reached done with ⟨none, -⟩ | ⟨a, same, low, one⟩
    · cases none
    · cases same
      exact ⟨s', serves', .inr ⟨fs, a, fs', returned, alive, alive', low, one⟩⟩

def MakesOne (type : Itype) (dir : Nat) (name : CString) (s : Session)
    (result : Option Int × Session) : Prop :=
  (result.1 = none ∧ s.Still result.2) ∨
    ∃ (fs : Fs) (a : Nat) (fs' : Fs), result.1 = some (a : Int) ∧ s.server = some fs ∧
      result.2.server = some fs' ∧ MadeOne type fs dir name a fs'

theorem Session.Serves.mkdir (data : 10 ≤ num) (unwrapped : num * blockSize < 2 ^ 32)
    (serves : s.Serves num clock fs₀) (room : ∀ fs ∈ s.server, Room fs 1) {dir : Nat}
    (low : dir < 2 ^ 16) (isName : IsName name) :
    MakesOne .dir dir name s (remoteCall.mkdir s dir name) := by
  obtain ⟨s', -, ⟨failed, still⟩ | ⟨fs, a, fs', returned, alive, alive', small, made⟩⟩ :=
    serves.makes .mkdir data unwrapped room (.inl rfl)
      (show Call.Limits (.mkdir dir name) from ⟨⟨by omega, by omega⟩, isName⟩)
      (show IsInodeid dir from ⟨by omega, by omega⟩) isName.1
      (fun fs junk room => ⟨isName.1, room⟩) (fun fs junk => rfl)
      fun a small => Nat.lt_trans small (by decide)
  · rw [RemoteCall.mkdir, failed]
    exact .inl ⟨rfl, still⟩
  · rw [RemoteCall.mkdir, returned]
    exact .inr ⟨fs, a, fs', congrArg some (asInt_of_lt (by omega)), alive, alive', made⟩

theorem Session.Serves.create (data : 10 ≤ num) (unwrapped : num * blockSize < 2 ^ 32)
    (serves : s.Serves num clock fs₀) (room : ∀ fs ∈ s.server, Room fs 1) {dir : Nat}
    (low : dir < 2 ^ 16) (isName : IsName name) :
    MakesOne .file dir name s (remoteCall.create s dir name) := by
  obtain ⟨s', -, ⟨failed, still⟩ | ⟨fs, a, fs', returned, alive, alive', small, made⟩⟩ :=
    serves.makes .create data unwrapped room (.inr rfl)
      (show Call.Limits (.create dir name) from ⟨⟨by omega, by omega⟩, isName⟩)
      (show IsInodeid dir from ⟨by omega, by omega⟩) isName.1
      (fun fs junk room => ⟨isName.1, room⟩) (fun fs junk => rfl)
      fun a small => Nat.lt_trans small (by decide)
  · rw [RemoteCall.create, failed]
    exact .inl ⟨rfl, still⟩
  · rw [RemoteCall.create, returned]
    exact .inr ⟨fs, a, fs', congrArg some (asInt_of_lt (by omega)), alive, alive', made⟩

end Serves

/-- No name is longer than the last one, so that `newfilename` ends up with it. -/
def LastLongest (path : CString) : Prop :=
  ∀ last ∈ (components path).getLast?, ∀ name ∈ components path, name.length ≤ last.length

instance (path : CString) : Decidable (LastLongest path) :=
  inferInstanceAs (Decidable (∀ last ∈ (components path).getLast?, _))

theorem Parted.named (parted : Parted name parent last) : Snfs.components name ≠ [] := by
  rw [parted.components]
  exact List.append_ne_nil_of_right_ne_nil _ (List.cons_ne_nil last [])

theorem Parted.splitName_cases (parted : Parted name parent last) (stored : lastName name = last) :
    (splitName name = (1, last, name) ∧ Snfs.components parent = []) ∨
    ∃ i, i ≠ 1 ∧ splitName name = (i, last, parent) ∧ Snfs.components parent ≠ [] := by
  by_cases one : (Snfs.components name).length = 1
  · refine .inl ⟨parted.splitName_single one, ?_⟩
    rw [parted.single one]
    rfl
  · have count := congrArg List.length parted.components
    rw [List.length_append, List.length_singleton] at count
    have rest : name.length - (last.length + 1) = parent.length := by
      rw [parted.whole, List.length_append, List.length_cons]
      omega
    refine .inr ⟨_, one, ?_, fun bare => ?_⟩
    · rw [parted.rules.splitName_many parted.noZero (by omega), stored, rest]
      rw [parted.whole, List.take_left]
    · rw [bare] at count
      exact one count

theorem Parted.noZero_parent (parted : Parted name parent last) : (0 : UInt8) ∉ parent :=
  fun zero => parted.noZero (by rw [parted.whole]; exact List.mem_append_left _ zero)

theorem Parted.length_parent (parted : Parted name parent last) : parent.length ≤ name.length := by
  rw [parted.whole, List.length_append]
  exact Nat.le_add_right _ _

theorem LastLongest.parted (longest : LastLongest name) (noZero : (0 : UInt8) ∉ name)
    (closed : name.getLast? ≠ some slash) (accepted : myparse name = 0) :
    ∃ parent last, Parted name parent last ∧ lastName name = last ∧ IsName last := by
  have rules := rules_of_accepted accepted
  obtain ⟨parent, last, parts, nonempty, noSlash⟩ := exists_parent rules.rooted closed
  have parted : Parted name parent last := ⟨parts, nonempty, noSlash, rules, noZero⟩
  have stored := parted.lastName_eq.mpr (longest last parted.getLast)
  refine ⟨parent, last, parted, stored, ?_⟩
  rw [← stored]
  exact ⟨lastName_free noZero, Nat.lt_succ_of_le rules.lastName_length⟩

/-- The path leads to an inode that has been made since, in one entry under its last name. -/
def MadeAt (type : Itype) (fs : Fs) (path : CString) (a : Nat) (fs' : Fs) : Prop :=
  ∃ dir last, (components path).getLast? = some last ∧ MadeOne type fs dir last a fs' ∧
    Passes (HasEntry fs') 1 (components path) a

def MakesAt (type : Itype) (fs : Fs) (path : CString) (result : Option Int × Session) : Prop :=
  (∃ s', result = (none, s') ∧ ∀ fs' ∈ s'.server, SameTree fs fs') ∨
    ∃ (a : Nat) (s' : Session) (fs' : Fs), result = (some (a : Int), s') ∧ s'.server = some fs' ∧
      MadeAt type fs path a fs'

theorem MakesOne.at {dir : Nat} {result : Option Int × Session}
    (makes : MakesOne type dir last s result) (parted : Parted name parent last)
    (same : ∀ fs' ∈ s.server, SameTree fs fs')
    (leads : ∀ fs' ∈ s.server, IsDir fs' dir →
      Passes (HasEntry fs') 1 (components parent) dir) : MakesAt type fs name result := by
  obtain ⟨id, s'⟩ := result
  rcases makes with ⟨rfl, still⟩ | ⟨fs₁, a, fs', rfl, alive, alive', made⟩
  · refine .inl ⟨s', rfl, fun fs' alive' => ?_⟩
    obtain ⟨fs₁, alive, same'⟩ := still fs' alive'
    exact (same fs₁ alive).trans same'
  · refine .inr ⟨a, s', fs', rfl, alive', dir, last, parted.getLast, made.after (same fs₁ alive),
      ?_⟩
    exact parted.passes (leads fs₁ alive made.isDir) made

section Calls
variable {boot : Fs} {trace : List ((Req × Junk) × (Res × Nat))}

/-- Whatever clients have done to the server: `my_mkdir` makes nothing and returns -1, or it makes
an empty directory to which the path leads. -/
theorem my_mkdir_makes_one (data : 10 ≤ num) (unwrapped : num * blockSize < 2 ^ 32)
    (started : fsBoot num clock = some boot)
    (run : Run (Guarded (fun s e => RequestMeets Within s e.1) (Next serveRequest)) boot trace fs)
    (alive : s.server = some fs) (room : Room fs 1) (noZero : (0 : UInt8) ∉ name)
    (short : name.length ≤ maxFileNameSize) (closed : name.getLast? ≠ some slash)
    (longest : LastLongest name) (lib : Lib) :
    ∃ r s', myMkdir remoteCall lib s name = (r, s') ∧
      ((r = -1 ∧ ∀ fs' ∈ s'.server, SameTree fs fs') ∨
        (r = 0 ∧ ∃ a fs', s'.server = some fs' ∧ MadeAt .dir fs name a fs')) := by
  have serves := s.serves_of_run started run alive
  have rooms : ∀ fs' ∈ s.server, Room fs' 1 := fun fs' same => by
    cases alive.symm.trans same
    exact room
  rw [myMkdir]
  split
  · exact ⟨-1, s, rfl, .inl ⟨rfl, (Session.Still.refl s).sameTree alive⟩⟩
  split
  · exact ⟨-1, s, rfl, .inl ⟨rfl, (Session.Still.refl s).sameTree alive⟩⟩
  rename_i accepted
  obtain ⟨parent, last, parted, stored, isName⟩ :=
    longest.parted noZero closed (not_not.mp accepted)
  obtain ⟨s₁, serves₁, still₁, failed | ⟨d, fsize, fs₁, found, -⟩⟩ :=
    serves.lookup data unwrapped noZero short parted.named
  · rw [failed]
    dsimp only
    rcases parted.splitName_cases stored with ⟨split, bare⟩ | ⟨i, ne, split, named⟩
    · simp only [split, if_true]
      have makes := (serves₁.mkdir data unwrapped (still₁.room rooms)
        (show 1 < 2 ^ 16 by decide) isName).at parted (still₁.sameTree alive) fun fs₁ _ _ => by
          rw [bare]
          exact .here 1
      rw [Nat.cast_one] at makes
      rcases makes with ⟨s', refused, same⟩ | ⟨a, s', fs', returned, alive', made⟩
      · exact ⟨-1, s', by rw [refused], .inl ⟨rfl, same⟩⟩
      · exact ⟨0, s', by rw [returned], .inr ⟨rfl, a, fs', alive', made⟩⟩
    · simp only [split, if_neg ne]
      obtain ⟨s₂, serves₂, still₂, lost | ⟨dir, fsize, fs₂, found, alive₂, low, leads⟩⟩ :=
        serves₁.lookup data unwrapped parted.noZero_parent (parted.length_parent.trans short) named
      · rw [lost]
        exact ⟨-1, s₂, rfl, .inl ⟨rfl, (still₁.trans still₂).sameTree alive⟩⟩
      rw [found]
      dsimp only
      have makes := (serves₂.mkdir data unwrapped ((still₁.trans still₂).room rooms)
        (show dir < 2 ^ 16 by omega) isName).at parted ((still₁.trans still₂).sameTree alive) fun fs₁ alive₁ _ => by
          cases alive₂.symm.trans alive₁
          exact leads
      rcases makes with ⟨s', refused, same⟩ | ⟨a, s', fs', returned, alive', made⟩
      · exact ⟨-1, s', by rw [refused], .inl ⟨rfl, same⟩⟩
      · exact ⟨0, s', by rw [returned], .inr ⟨rfl, a, fs', alive', made⟩⟩
  · rw [found]
    exact ⟨-1, s₁, rfl, .inl ⟨rfl, still₁.sameTree alive⟩⟩

/-- A directory in a directory. -/
theorem my_mkdir_makes_one_nested : ∃ fs s' a fs',
    ((fsBoot 16 fun _ => 1).bind fun boot => (execute serveRequest boot
      [requested (.mkdir 1 [100])]).map Prod.snd) = some fs ∧
    myMkdir remoteCall myInitLib (sessionWith fs) [47, 100, 47, 101] = (0, s') ∧
    s'.server = some fs' ∧ MadeAt .dir fs [47, 100, 47, 101] a fs' := by
  have boots : ((fsBoot 16 fun _ => 1).bind fun boot =>
      (execute serveRequest boot [requested (.mkdir 1 [100])]).map fun r =>
        (decide (Meets serveRequest (RequestMeets Within) boot [requested (.mkdir 1 [100])] ∧
          Room r.2 1),
          (myMkdir remoteCall myInitLib (sessionWith r.2) [47, 100, 47, 101]).1)) =
      some (true, 0) := by decide +kernel
  obtain ⟨boot, started, facts⟩ := Option.bind_eq_some_iff.mp boots
  obtain ⟨⟨trace, fs⟩, served, facts⟩ := Option.map_eq_some_iff.mp facts
  simp only [Prod.mk.injEq, decide_eq_true_eq] at facts
  obtain ⟨⟨met, room⟩, made⟩ := facts
  obtain ⟨r, s', ended, ⟨rfl, -⟩ | ⟨rfl, a, fs', alive, one⟩⟩ :=
    my_mkdir_makes_one (s := sessionWith fs) (by decide) (by decide) started
      (run_of_execute served met) rfl room (show (0 : UInt8) ∉ [47, 100, 47, 101] by decide)
      (by decide) (by decide) (by decide) myInitLib
  · rw [ended] at made
    cases made
  · exact ⟨fs, s', a, fs', by rw [started, Option.bind_some, served]; rfl, ended, alive, one⟩

/-- `my_open` of a path that is not found has looked for its directory. For a path that is not found
either, `dir` is 0 and no directory. -/
theorem Session.Serves.myOpen_asks {s₁ : Session} {lib : Lib} (data : 10 ≤ num)
    (unwrapped : num * blockSize < 2 ^ 32) (serves : s₁.Serves num clock fs)
    (parted : Parted name parent last) (stored : lastName name = last)
    (short : name.length ≤ maxFileNameSize) (ready : ¬ (!lib.libInitted) = true)
    (room : ¬ maxOpenFiles ≤ lib.openFiles) (accepted : ¬ myparse name ≠ 0)
    (failed : remoteCall.lookup s name = (.error 0, s₁)) (flags : Int) :
    ∃ (dir fsize : Nat) (s₂ : Session), s₂.Serves num clock fs ∧ s₁.Still s₂ ∧ dir < 2 ^ 16 ∧
      (∀ fs' ∈ s₂.server, IsDir fs' dir → Passes (HasEntry fs') 1 (components parent) dir) ∧
      myOpen remoteCall lib s name flags =
        if flags = oCreate then
          match remoteCall.create s₂ dir last with
          | (some fileFh, s) => (fileFh, lib.enqueue fileFh fsize, s)
          | (none, s) => (-1, lib, s)
        else (-1, lib, s₂) := by
  rw [myOpen, if_neg ready, if_neg room, if_neg accepted, failed]
  rcases parted.splitName_cases stored with ⟨split, bare⟩ | ⟨i, ne, split, named⟩
  · have leads (fs : Fs) : Passes (HasEntry fs) 1 (components parent) 1 := by
      rw [bare]
      exact .here 1
    simp only [split, if_true]
    obtain ⟨s₂, serves₂, still₂, lost | ⟨d, fsize, fs₂, found, -⟩⟩ :=
      serves.lookup data unwrapped parted.noZero short parted.named
    · refine ⟨1, 0, s₂, serves₂, still₂, by decide, fun fs _ _ => leads fs, ?_⟩
      simp only [lost, Nat.cast_one]
      rcases remoteCall.create s₂ 1 last with ⟨_ | _, s'⟩ <;> rfl
    · refine ⟨1, fsize, s₂, serves₂, still₂, by decide, fun fs _ _ => leads fs, ?_⟩
      simp only [found, Nat.cast_one]
      rcases remoteCall.create s₂ 1 last with ⟨_ | _, s'⟩ <;> rfl
  · simp only [split, if_neg ne]
    obtain ⟨s₂, serves₂, still₂, lost | ⟨dir, fsize, fs₂, found, alive₂, low, leads⟩⟩ :=
      serves.lookup data unwrapped parted.noZero_parent (parted.length_parent.trans short) named
    · refine ⟨0, 0, s₂, serves₂, still₂, by decide, fun fs alive isDir => ?_, ?_⟩
      · obtain ⟨_, _, inv, -⟩ := (serves₂ fs alive).1.facts data unwrapped
        exact absurd rfl (inv.dir_ne_zero isDir)
      · simp only [lost, Nat.cast_zero]
        rcases remoteCall.create s₂ 0 last with ⟨_ | _, s'⟩ <;> rfl
    · refine ⟨dir, fsize, s₂, serves₂, still₂, by omega, fun fs alive _ => ?_, ?_⟩
      · cases alive₂.symm.trans alive
        exact leads
      · simp only [found]
        rcases remoteCall.create s₂ dir last with ⟨_ | _, s'⟩ <;> rfl

/-- `my_open` makes nothing and returns -1, or it opens the file to which the path leads, which it
has made only if it was asked to. -/
theorem my_open_makes_one (data : 10 ≤ num) (unwrapped : num * blockSize < 2 ^ 32)
    (started : fsBoot num clock = some boot)
    (run : Run (Guarded (fun s e => RequestMeets Within s e.1) (Next serveRequest)) boot trace fs)
    (alive : s.server = some fs) (room : Room fs 1) (noZero : (0 : UInt8) ∉ name)
    (short : name.length ≤ maxFileNameSize) (closed : name.getLast? ≠ some slash)
    (longest : LastLongest name) (lib : Lib) (flags : Int) :
    ∃ fd lib' s', myOpen remoteCall lib s name flags = (fd, lib', s') ∧
      ((fd = -1 ∧ lib' = lib ∧ ∀ fs' ∈ s'.server, SameTree fs fs') ∨
        ∃ (a fsize : Nat) (fs' : Fs), fd = a ∧ lib' = lib.enqueue a fsize ∧ s'.server = some fs' ∧
          ((SameTree fs fs' ∧ Passes (HasEntry fs') 1 (components name) a) ∨
            (flags = oCreate ∧ MadeAt .file fs name a fs'))) := by
  have serves := s.serves_of_run started run alive
  have rooms : ∀ fs' ∈ s.server, Room fs' 1 := fun fs' same => by
    cases alive.symm.trans same
    exact room
  have same := (Session.Still.refl s).sameTree alive
  by_cases ready : (!lib.libInitted) = true
  · exact ⟨-1, lib, s, by rw [myOpen, if_pos ready], .inl ⟨rfl, rfl, same⟩⟩
  by_cases full : maxOpenFiles ≤ lib.openFiles
  · exact ⟨-1, lib, s, by rw [myOpen, if_neg ready, if_pos full], .inl ⟨rfl, rfl, same⟩⟩
  by_cases accepted : myparse name ≠ 0
  · exact ⟨-1, lib, s, by rw [myOpen, if_neg ready, if_neg full, if_pos accepted],
      .inl ⟨rfl, rfl, same⟩⟩
  obtain ⟨parent, last, parted, stored, isName⟩ :=
    longest.parted noZero closed (not_not.mp accepted)
  obtain ⟨s₁, serves₁, still₁, failed | ⟨d, fsize, fs₁, found, alive₁, -, leads⟩⟩ :=
    serves.lookup data unwrapped noZero short parted.named
  · obtain ⟨dir, fsize, s₂, serves₂, still₂, low, leads, asked⟩ :=
      serves₁.myOpen_asks data unwrapped parted stored short ready full accepted failed flags
    have same₂ := (still₁.trans still₂).sameTree alive
    rw [asked]
    by_cases wanted : flags = oCreate
    · rw [if_pos wanted]
      rcases (serves₂.create data unwrapped ((still₁.trans still₂).room rooms) low isName).at
        parted same₂ leads with ⟨s', refused, same'⟩ | ⟨a, s', fs', returned, alive', made⟩
      · exact ⟨-1, lib, s', by rw [refused], .inl ⟨rfl, rfl, same'⟩⟩
      · exact ⟨a, _, s', by rw [returned],
          .inr ⟨a, fsize, fs', rfl, rfl, alive', .inr ⟨wanted, made⟩⟩⟩
    · rw [if_neg wanted]
      exact ⟨-1, lib, s₂, rfl, .inl ⟨rfl, rfl, same₂⟩⟩
  · refine ⟨d, lib.enqueue d fsize, s₁, ?_, .inr ⟨d, fsize, fs₁, rfl, rfl, alive₁,
      .inl ⟨still₁.sameTree alive fs₁ alive₁, leads⟩⟩⟩
    rw [myOpen, if_neg ready, if_neg full, if_neg accepted, found]

/-- A file in a directory. -/
theorem my_open_makes_one_nested : ∃ (fs : Fs) (lib : Lib) (s' : Session) (a : Nat) (fs' : Fs),
    ((fsBoot 16 fun _ => 1).bind fun boot => (execute serveRequest boot
      [requested (.mkdir 1 [100])]).map Prod.snd) = some fs ∧
    myOpen remoteCall myInitLib (sessionWith fs) [47, 100, 47, 102] oCreate = ((a : Int), lib, s') ∧
    s'.server = some fs' ∧
    ((SameTree fs fs' ∧ Passes (HasEntry fs') 1 (components [47, 100, 47, 102]) a) ∨
      MadeAt .file fs [47, 100, 47, 102] a fs') := by
  have boots : ((fsBoot 16 fun _ => 1).bind fun boot =>
      (execute serveRequest boot [requested (.mkdir 1 [100])]).map fun r =>
        (decide (Meets serveRequest (RequestMeets Within) boot [requested (.mkdir 1 [100])] ∧
          Room r.2 1),
          (myOpen remoteCall myInitLib (sessionWith r.2) [47, 100, 47, 102] oCreate).1)) =
      some (true, 3) := by decide +kernel
  obtain ⟨boot, started, facts⟩ := Option.bind_eq_some_iff.mp boots
  obtain ⟨⟨trace, fs⟩, served, facts⟩ := Option.map_eq_some_iff.mp facts
  simp only [Prod.mk.injEq, decide_eq_true_eq] at facts
  obtain ⟨⟨met, room⟩, opened⟩ := facts
  obtain ⟨fd, lib, s', ended, ⟨rfl, -⟩ | ⟨a, fsize, fs', rfl, rfl, alive, one⟩⟩ :=
    my_open_makes_one (s := sessionWith fs) (by decide) (by decide) started
      (run_of_execute served met) rfl room (show (0 : UInt8) ∉ [47, 100, 47, 102] by decide)
      (by decide) (by decide) (by decide) myInitLib oCreate
  · rw [ended] at opened
    cases opened
  · exact ⟨fs, _, s', a, fs', by rw [started, Option.bind_some, served]; rfl, ended, alive,
      one.imp_right And.right⟩

end Calls

end Snfs
