import Snfs.Client.Opening
import Snfs.Client.Session
import Snfs.Fs.Growth
import Snfs.Fs.Sightings

/-!
The tree behind a session. Whatever clients have done before, and whatever a stub asks for, the
server stays in a state that calls lead to, in which nothing is gone that was there at the
start; and a path that a lookup has found leads to what the stub returns.
-/

namespace Snfs

open Runs

def Reached (num : Nat) (clock : Nat → Int) (fs : Fs) : Prop :=
  ∃ boot calls, fsBoot num clock = some boot ∧
    Run (Guarded (fun s e => Within s e.1) FsNext) boot calls fs

variable {num : Nat} {clock : Nat → Int} {fs fs' : Fs}

theorem Reached.facts (data : 10 ≤ num) (unwrapped : num * blockSize < 2 ^ 32)
    (reached : Reached num clock fs) :
    ∃ own top, Inv own top fs ∧ Sighted fs ∧ CachesOk fs ∧ NamesFit fs := by
  obtain ⟨boot, calls, started, run⟩ := reached
  obtain ⟨own, top, inv, trusted⟩ := trusted_run data unwrapped started run
  exact ⟨own, top, inv, trusted.remembers.sighted, trusted.remembers.caches,
    namesFit_run data unwrapped started run⟩

theorem Reached.handled (data : 10 ≤ num) (unwrapped : num * blockSize < 2 ^ 32)
    (reached : Reached num clock fs) {call : Call} {junk : Junk} (within : Within fs (call.op junk))
    {reply : Option Reply} (handled : call.handle fs junk = some (reply, fs')) :
    Reached num clock fs' ∧ Grows fs fs' := by
  obtain ⟨_, _, inv, -⟩ := reached.facts data unwrapped
  obtain ⟨calls', more⟩ := run_of_handled within_getAttrs (.inr within) handled
  obtain ⟨boot, calls, started, run⟩ := reached
  exact ⟨⟨boot, _, started, run.append more⟩, inv.grows_run more⟩

theorem Reached.numBlocks (data : 10 ≤ num) (unwrapped : num * blockSize < 2 ^ 32)
    (reached : Reached num clock fs) : fs.numBlocks = num := by
  obtain ⟨boot, calls, started, run⟩ := reached
  have formatted := fsBoot_formatted data unwrapped started
  rw [(formatted.inv data).numBlocks_run run, formatted.numBlocks]

theorem Grows.hasEntry (grows : Grows fs fs') {d : Nat} {e : CString × Nat}
    (has : HasEntry fs d e) : HasEntry fs' d e :=
  ⟨grows.isDir has.1, grows.mem has.1 has.2⟩

theorem Grows.passes (grows : Grows fs fs') {a b : Nat} {path : CString}
    (passes : Passes (HasEntry fs) a (components path) b) :
    Passes (HasEntry fs') a (components path) b :=
  passes.mono (fun _ _ _ has => grows.hasEntry has) (components_nonempty path)

/-- Nothing has been made, and no block has been taken. -/
structure SameTree (fs fs' : Fs) : Prop where
  grows : Grows fs fs'
  back : Grows fs' fs
  blkBmap : fs'.blkBmap = fs.blkBmap
  numBlocks : fs'.numBlocks = fs.numBlocks

namespace SameTree

theorem refl (fs : Fs) : SameTree fs fs := ⟨.refl fs, .refl fs, rfl, rfl⟩

theorem trans {fs'' : Fs} (same : SameTree fs fs') (same' : SameTree fs' fs'') : SameTree fs fs'' :=
  ⟨same.grows.trans same'.grows, same'.back.trans same.back, same'.blkBmap.trans same.blkBmap,
    same'.numBlocks.trans same.numBlocks⟩

theorem dirEntries (same : SameTree fs fs') {d : Nat} (isDir : IsDir fs d) :
    dirEntries fs' d = Snfs.dirEntries fs d := by
  obtain ⟨more, here, -⟩ := same.grows.entries d isDir
  obtain ⟨more', back, -⟩ := same.back.entries d (same.grows.isDir isDir)
  have length := congrArg List.length back
  rw [here, List.length_append, List.length_append] at length
  have none : more = [] := List.length_eq_zero_iff.mp (by omega)
  rw [here, none, List.append_nil]

theorem inodeBmap (same : SameTree fs fs') (a : Nat) :
    bmapIsset fs'.inodeBmap a = bmapIsset fs.inodeBmap a :=
  Bool.eq_iff_iff.mpr ⟨same.back.inUse a, same.grows.inUse a⟩

end SameTree

variable {own : Ledger} {top : Nat}

theorem Inv.sameTree (h : Inv own top fs) (quiet : Quiet top fs fs') : SameTree fs fs' := by
  have frame := quiet.toFrame
  have bound d (isDir : IsDir fs d) : d < top := (h.isDir_iff.mp isDir).1
  refine ⟨frame.grows bound, ⟨fun a used => by rwa [← frame.inodeBmap],
    fun a _ => (frame.type a).symm, fun d isDir => ?_⟩, quiet.blkBmap, quiet.numBlocks⟩
  have here : IsDir fs d :=
    ⟨by rw [← frame.inodeBmap]; exact isDir.1, (frame.type d).symm.trans isDir.2⟩
  exact ⟨[], by rw [frame.dirEntries (bound d here) here.2, List.append_nil],
    fun e new => by cases new⟩

theorem SameButDirs.sameTree (same : SameButDirs fs fs') (h : Inv own top fs) : SameTree fs fs' :=
  h.sameTree ((Browsed.of_same same).quiet top)

theorem Inv.sameTree_lookup (h : Inv own top fs) {path : CString} {junk : Nat}
    {reply : Option Reply} (done : snfsLookup fs junk path = some (reply, fs')) :
    SameTree fs fs' := by
  have first := fsLookup_same fs path
  rw [snfsLookup] at done
  cases looked : Snfs.fsLookup fs path with
  | mk answer fs₁ =>
      obtain ⟨code, id⟩ := answer
      rw [looked] at done first
      dsimp only at done first
      have h₁ := first.inv h
      have same := first.sameTree h
      split at done
      · cases done
        exact same
      split at done
      · cases done
      · rename_i asked
        cases done
        exact same.trans (h₁.sameTree (h₁.fsGetAttrs asked).2.1)
      · rename_i asked
        cases done
        exact same.trans (h₁.sameTree (h₁.fsGetAttrs asked).2.1)

/-- If the server process is still there, it is in a state that calls have led to and has not lost
anything since it was in `fs₀`. -/
def Session.Serves (num : Nat) (clock : Nat → Int) (fs₀ : Fs) (s : Session) : Prop :=
  ∀ fs ∈ s.server, Reached num clock fs ∧ Grows fs₀ fs

section Serves
variable {fs₀ : Fs} {s : Session}

theorem Session.serves_of_run {boot : Fs} {trace : List ((Req × Junk) × (Res × Nat))}
    (started : fsBoot num clock = some boot)
    (run : Run (Guarded (fun s e => RequestMeets Within s e.1) (Next serveRequest)) boot trace fs)
    (alive : s.server = some fs) : s.Serves num clock fs := fun fs' same => by
  cases alive.symm.trans same
  obtain ⟨calls, called⟩ := run_of_requests within_getAttrs run
  exact ⟨⟨boot, calls, started, called⟩, .refl fs⟩

/-- From here on, what is there now stays too. -/
theorem Session.Serves.now (serves : s.Serves num clock fs₀) (alive : s.server = some fs) :
    s.Serves num clock fs ∧ Grows fs₀ fs := by
  obtain ⟨reached, grows⟩ := serves fs alive
  refine ⟨fun fs' same => ?_, grows⟩
  cases alive.symm.trans same
  exact ⟨reached, .refl fs⟩

/-- A call fails, and so has the handler if the process is still there, or it returns what the
handler has found. -/
theorem Session.Serves.answered {call : Call} (data : 10 ≤ num)
    (unwrapped : num * blockSize < 2 ^ 32) (serves : s.Serves num clock fs₀)
    (limits : call.Limits) (carried : call.Carried)
    (within : ∀ fs ∈ s.server, Reached num clock fs → Within fs (call.op (s.junk s.sent)))
    (gives : ∀ fs ∈ s.server, ∀ reply fs', Reached num clock fs →
      call.handle fs (s.junk s.sent) = some (some reply, fs') → call.Gives reply) :
    ∃ s', s'.Serves num clock fs₀ ∧ ((remoteCall s call = (.error 0, s') ∧
        ∀ fs' ∈ s'.server, ∃ fs ∈ s.server, Reached num clock fs ∧
          call.handle fs (s.junk s.sent) = some (none, fs')) ∨
      ∃ fs reply fs', remoteCall s call = (.ok reply, s') ∧ s'.server = some fs' ∧
        s.server = some fs ∧ Reached num clock fs ∧ Grows fs fs' ∧
        call.handle fs (s.junk s.sent) = some (some reply, fs')) := by
  have ended (sent : Nat) : Session.Serves num clock fs₀ { s with sent := sent, server := none } :=
    fun fs gone => by cases gone
  cases alive : s.server with
  | none =>
      refine ⟨{ s with sent := s.sent + 1, server := none }, ended _, .inl ⟨?_, fun _ gone => ?_⟩⟩
      · rw [remoteCall, alive]
      · cases gone
  | some fs =>
      obtain ⟨reached, grows⟩ := serves fs alive
      have handled := Session.handled limits carried s
      cases done : call.handle fs (s.junk s.sent) with
      | none =>
          refine ⟨{ s with sent := s.sent + 1, server := none }, ended _,
            .inl ⟨?_, fun _ gone => ?_⟩⟩
          · rw [remoteCall, alive]
            simp only [serveRequest, handled, done, Option.map_none]
          · cases gone
      | some r =>
          obtain ⟨reply, fs'⟩ := r
          obtain ⟨reached', grows'⟩ := reached.handled data unwrapped (within fs alive reached) done
          have serves' : (s.answered fs').Serves num clock fs₀ := by
            rintro fs'' ⟨⟩
            exact ⟨reached', grows.trans grows'⟩
          have served : serveRequest fs (s.request call, s.junk s.sent) =
              some (serve (s.request call) (response call.type reply), fs') := by
            rw [serveRequest, handled]
            simp only [done, Option.map_some]
          refine ⟨s.answered fs', serves', ?_⟩
          rw [remoteCall_eq alive served]
          cases reply with
          | none =>
              refine .inl ⟨by rw [returned_error call.type handled], ?_⟩
              rintro fs'' ⟨⟩
              exact ⟨fs, rfl, reached, done⟩
          | some reply =>
              refine .inr ⟨fs, reply, fs', ?_, rfl, rfl, reached, grows', done⟩
              rw [response, returned_reply limits (gives fs alive reply fs' reached done)]

/-- The calls between have made nothing. -/
def Session.Still (s s' : Session) : Prop :=
  ∀ fs' ∈ s'.server, ∃ fs ∈ s.server, SameTree fs fs'

theorem Session.Still.refl (s : Session) : s.Still s := fun fs alive => ⟨fs, alive, .refl fs⟩

theorem Session.Still.trans {s' s'' : Session} (still : s.Still s') (still' : s'.Still s'') :
    s.Still s'' := fun fs'' alive'' => by
  obtain ⟨fs', alive', same'⟩ := still' fs'' alive''
  obtain ⟨fs, alive, same⟩ := still fs' alive'
  exact ⟨fs, alive, same.trans same'⟩

theorem Session.Still.room {s' : Session} (still : s.Still s') {k : Nat}
    (room : ∀ fs ∈ s.server, Room fs k) : ∀ fs' ∈ s'.server, Room fs' k := fun fs' alive' => by
  obtain ⟨fs, alive, same⟩ := still fs' alive'
  exact (room fs alive).congr same.numBlocks same.blkBmap

theorem Session.Still.sameTree {s' : Session} (still : s.Still s') (alive : s.server = some fs) :
    ∀ fs' ∈ s'.server, SameTree fs fs' := fun fs' alive' => by
  obtain ⟨fs₁, here, same⟩ := still fs' alive'
  cases alive.symm.trans here
  exact same

theorem Inv.snfsLookup_found (h : Inv own top fs) (sighted : Sighted fs)
    (caches : CachesOk fs) {path : CString} (named : components path ≠ []) {junk : Nat}
    {reply : Reply} (done : snfsLookup fs junk path = some (some reply, fs')) :
    ∃ d fsize, reply = .lookup d fsize ∧ d < 64 ∧ fsize ≤ 5120 ∧
      Passes (HasEntry fs') 1 (components path) d := by
  rw [snfsLookup] at done
  have led d (found : (Snfs.fsLookup fs path).1 = (1, some d)) := sighted.fsLookup h found
  have bound id (found : (Snfs.fsLookup fs path).1 = (1, id)) := caches.pages.fsLookup h found
  have h₁ := (fsLookup_same fs path).inv h
  cases looked : Snfs.fsLookup fs path with
  | mk answer fs₁ =>
      obtain ⟨code, id⟩ := answer
      rw [looked] at done led bound h₁
      dsimp only at done h₁
      split at done
      · cases done
      rename_i ok
      obtain rfl := not_not.mp ok
      rcases bound id rfl with ⟨bare, -⟩ | ⟨d, rfl, -, lt⟩
      · exact absurd bare named
      obtain ⟨-, -, passes⟩ := led d rfl
      rw [Option.getD_some] at done
      rcases h₁.fsGetAttrs_cases d with ⟨-, stopped⟩ | ⟨p, fs₂, -, asked⟩
      · rw [stopped] at done
        cases done
      cases told : attrsOf d (fs₁.seen d) with
      | none =>
          rw [asked, told] at done
          cases done
      | some attrs =>
          rw [asked, told, Option.map_some] at done
          cases done
          have size := size_of_attrsOf told
          have stepped : fsStep fs₁ (.getAttrs d) = some (.attrs (some attrs), fs') := by
            rw [fsStep, asked, told]
            rfl
          obtain ⟨_, _, -, -, grows⟩ := h₁.grows_step (within_getAttrs fs₁ d) stepped
          have small := h₁.inodes.le_size
          refine ⟨d, attrs.size, rfl, Nat.lt_of_lt_of_le lt small,
            size ▸ (h₁.owned_seen lt).size_le, passes.mono ?_ (components_nonempty path)⟩
          exact fun _ _ _ seen => grows.hasEntry seen.hasEntry

/-- A lookup makes nothing; it fails, or it leads to what it returns. -/
theorem Session.Serves.lookup (data : 10 ≤ num) (unwrapped : num * blockSize < 2 ^ 32)
    (serves : s.Serves num clock fs₀) {path : CString} (noZero : (0 : UInt8) ∉ path)
    (short : path.length ≤ maxFileNameSize) (named : components path ≠ []) :
    ∃ s', s'.Serves num clock fs₀ ∧ s.Still s' ∧ (remoteCall.lookup s path = (.error 0, s') ∨
      ∃ d fsize fs', remoteCall.lookup s path = (.ok ((d : Nat), fsize), s') ∧
        s'.server = some fs' ∧ d < 64 ∧ Passes (HasEntry fs') 1 (components path) d) := by
  have found {fs reply fs'} (reached : Reached num clock fs)
      (done : snfsLookup fs (s.junk s.sent).fileid path = some (some reply, fs')) :
      ∃ d fsize, reply = .lookup d fsize ∧ d < 64 ∧ fsize ≤ 5120 ∧
        Passes (HasEntry fs') 1 (components path) d := by
    obtain ⟨_, _, inv, sighted, caches, -⟩ := reached.facts data unwrapped
    exact inv.snfsLookup_found sighted caches named done
  have same {fs reply fs'} (reached : Reached num clock fs)
      (done : snfsLookup fs (s.junk s.sent).fileid path = some (reply, fs')) : SameTree fs fs' := by
    obtain ⟨_, _, inv, -⟩ := reached.facts data unwrapped
    exact inv.sameTree_lookup done
  obtain ⟨s', serves',
    ⟨failed, before⟩ | ⟨fs, reply, fs', returned, alive', alive, reached, -, done⟩⟩ :=
    serves.answered data unwrapped (show Call.Limits (.lookup path) from
      ⟨noZero, Nat.lt_of_le_of_lt short (by decide)⟩) short
      (fun fs _ _ => ⟨noZero, .inr (Nat.zero_le _)⟩) fun fs _ reply fs' reached done => by
        obtain ⟨d, fsize, rfl, low, small, -⟩ := found reached done
        exact ⟨by omega, by omega⟩
  · refine ⟨s', serves', fun fs' alive' => ?_, .inl (by rw [RemoteCall.lookup, failed]; rfl)⟩
    obtain ⟨fs, alive, reached, done⟩ := before fs' alive'
    exact ⟨fs, alive, same reached done⟩
  · obtain ⟨d, fsize, rfl, low, -, passes⟩ := found reached done
    refine ⟨s', serves', fun fs'' still => ?_, .inr ⟨d, fsize, fs', ?_, alive', low, passes⟩⟩
    · cases alive'.symm.trans still
      exact ⟨fs, alive, same reached done⟩
    · rw [RemoteCall.lookup, returned]
      simp only [asInt_of_lt (show d < 2 ^ 31 by omega)]

end Serves

theorem PathRules.eq_root {path : CString} (rules : PathRules path) (bare : components path = []) :
    path = [slash] := by
  obtain ⟨tail, rfl⟩ := List.head?_eq_some_iff.mp rules.rooted
  cases tail with
  | nil => rfl
  | cons c tail =>
      have more := rules.components_take (n := (slash :: c :: tail).length) (by simp) (by simp)
      rw [List.take_length] at more
      exact absurd bare more

end Snfs
