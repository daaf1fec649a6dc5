import Snfs.Fs.Contents
import Snfs.Server.Handlers

/-!
The handles that READ, WRITE, CREATE, MKDIR and READDIR pass. A handler narrows
the 32-bit handle to an `inodeid_t` before anything is checked, and refuses it
if it then names no allocated inode of the kind that the request needs.

A refused CREATE or MKDIR changes nothing. `fs_read`, `fs_write` and
`fs_readdir` check the type of an inode only after they have cached it, so that
a refusal may replace an entry of the inode cache, which is written back.
-/

namespace Snfs

open Slots Runs

def Call.needs : Call → Option Itype
  | .read _ _ _ | .write _ _ _ _ => some .file
  | .create _ _ | .mkdir _ _ | .readdir _ _ => some .dir
  | .lookup _ | .copy _ _ => none

/-- The handle is the number of an allocated inode of this kind. -/
structure IsHandle (fs : Fs) (type : Itype) (handle : Int) : Prop where
  pos : 1 ≤ handle
  lt : handle < itabSize
  inUse : bmapIsset fs.inodeBmap handle.toNat = true
  type : (fs.inodeTab handle.toNat).type = type

instance (fs : Fs) (type : Itype) (handle : Int) : Decidable (IsHandle fs type handle) :=
  decidable_of_iff (1 ≤ handle ∧ handle < itabSize ∧ bmapIsset fs.inodeBmap handle.toNat = true ∧
      (fs.inodeTab handle.toNat).type = type)
    ⟨fun h => ⟨h.1, h.2.1, h.2.2.1, h.2.2.2⟩, fun h => ⟨h.pos, h.lt, h.inUse, h.type⟩⟩

/-- The entry of the inode cache that gives way when an inode is opened. -/
def replaced (fs : Fs) (ino : Nat) : Option (Slot Nat Inode) :=
  if findInodeInCache fs ino = none ∧ bmapIsset fs.inodeBmap ino = true then
    some (fs.inodeCache (oldest fun i => (fs.inodeCache i).lastAccess))
  else none

def Call.replaces (fs : Fs) : Call → Option (Slot Nat Inode)
  | .read fhandle _ count => if maxReadData < count then none else replaced fs fhandle.toNat
  | .write fhandle _ count _ => if maxWriteData < count then none else replaced fs fhandle.toNat
  | .readdir dir cmax => if asInt cmax < 0 then none else replaced fs dir.toNat
  | .lookup _ | .create _ _ | .mkdir _ _ | .copy _ _ => none

/-- Nothing but the caches differs, and the table where `out` was written back. A file of which
`out` was a copy reads the same if its copies were in order. -/
structure LeftAlone (out : Option (Slot Nat Inode)) (fs fs' : Fs) : Prop where
  inodeBmap : fs'.inodeBmap = fs.inodeBmap
  blkBmap : fs'.blkBmap = fs.blkBmap
  blocks : fs'.blocks = fs.blocks
  inodeTab : fs'.inodeTab = out.elim fs.inodeTab (Table.evict fs.inodeTab)
  content : ∀ a : Nat, IsHandle fs .file a → (∀ s, out = some s → s.key = a → Coherent fs a) →
    content fs' a = content fs a

/-- A state that handled requests lead to. -/
def Served (num : Nat) (fs : Fs) : Prop :=
  ∃ clock boot trace, fsBoot num clock = some boot ∧
    Run (Guarded (fun s e => Admissible s e.1) (Next serveRequest)) boot trace fs

variable {own : Ledger} {top : Nat} {fs fs' : Fs}

theorem Inv.isHandle_iff (h : Inv own top fs) {type : Itype} (kind : type ≠ .clear) (a : Nat) :
    IsHandle fs type a ↔ a < top ∧ (fs.inodeTab a).type = type := by
  have size := h.inodes.le_size
  constructor
  · rintro ⟨-, -, inUse, same⟩
    exact ⟨h.lt_top inUse, same⟩
  · rintro ⟨lt, same⟩
    have nonzero : a ≠ 0 := by
      rintro rfl
      exact kind (same.symm.trans h.inodes.zero)
    refine ⟨by omega, by omega, ?_, same⟩
    rw [Int.toNat_natCast, h.inodes.inUse, decide_eq_true lt]

private theorem content_of_seen {a : Nat} (lblk : fs'.lblk = fs.lblk)
    (seen : fs'.seen a = fs.seen a) :
    content fs' a = content fs a := by
  rw [content, content, lblk, seen]

theorem LeftAlone.refl (fs : Fs) : LeftAlone none fs fs :=
  ⟨rfl, rfl, rfl, rfl, fun _ _ _ => rfl⟩

theorem LeftAlone.of_dirs (same : SameButDirs fs fs') : LeftAlone none fs fs' := by
  rw [SameButDirs] at same
  rw [same]
  exact ⟨rfl, rfl, rfl, rfl, fun _ _ _ => rfl⟩

theorem Inv.leftAlone_open (h : Inv own top fs) {ino : Nat} {p : InodePtr}
    (opened : Snfs.openInode fs ino = some (p, fs')) : LeftAlone (replaced fs ino) fs fs' := by
  have unchanged (a : Nat) (isFile : IsHandle fs .file a) (coherent : Coherent fs a) :=
    h.unchanged_open (h.lt_top isFile.inUse) coherent opened
  have seen := seen_open opened
  rw [replaced, findInodeInCache]
  cases opened_of_open opened with
  | cached found =>
      rw [if_neg (by simp [found])]
      exact ⟨rfl, rfl, rfl, rfl, fun a _ _ => content_of_seen rfl
        (Table.view_congr (Table.touch_key _ _ _) (Table.touch_val _ _ _) _ _)⟩
  | table absent set =>
      rw [if_pos ⟨Table.find_of_absent absent, set⟩]
      refine ⟨rfl, rfl, rfl, rfl, fun a isFile coherent => ?_⟩
      by_cases here : (fs.inodeCache (oldest fun i => (fs.inodeCache i).lastAccess)).key = a
      · exact (unchanged a isFile (coherent _ rfl here)).content
      · refine content_of_seen rfl ?_
        by_cases same : a = ino
        · subst same
          exact seen
        · exact Table.view_place_apart same here _ _ _ _

theorem Inv.replaced_unused (h : Inv own top fs) {ino : Nat} (unused : top ≤ ino) :
    replaced fs ino = none := by
  have unset : bmapIsset fs.inodeBmap ino = false := by
    rw [h.inodes.inUse, decide_eq_false (Nat.not_lt.mpr unused)]
  rw [replaced, if_neg (by simp [unset])]

/-- An operation that opens an inode and refuses it if it is of another kind. -/
theorem Inv.open_foreign (h : Inv own top fs) {type : Itype} (kind : type ≠ .clear) {ino : Nat}
    (foreign : ¬ IsHandle fs type ino) {α : Type} {no : α} {body : InodePtr → Fs → α × Fs}
    (refuses : ∀ p s, (s.deref p).type ≠ type → body p s = (no, s)) :
    ∃ fs', (match Snfs.openInode fs ino with
        | none => (no, fs)
        | some (p, s) => body p s) = (no, fs') ∧ LeftAlone (replaced fs ino) fs fs' := by
  cases opened : Snfs.openInode fs ino with
  | none =>
      exact ⟨fs, rfl, h.replaced_unused (h.openInode_eq_none.mp opened) ▸ .refl fs⟩
  | some pair =>
      obtain ⟨p, fs₁⟩ := pair
      obtain ⟨lt, -, -, -, copy, -⟩ := h.openInode opened
      refine ⟨fs₁, refuses p fs₁ ?_, h.leftAlone_open opened⟩
      rw [copy, h.type_seen]
      exact fun same => foreign ((h.isHandle_iff kind ino).mpr ⟨lt, same⟩)

theorem Inv.fsRead_foreign (h : Inv own top fs) {file : Nat} (foreign : ¬ IsHandle fs .file file)
    (offset count : Nat) :
    ∃ fs', Snfs.fsRead fs file offset count = (none, fs') ∧
      LeftAlone (replaced fs file) fs fs' := by
  rw [Snfs.fsRead]
  split
  · rename_i out
    exact ⟨fs, rfl, h.replaced_unused (h.inodes.le_size.trans out) ▸ .refl fs⟩
  · exact h.open_foreign (by simp) foreign fun _ _ other => if_pos other

theorem Inv.fsWrite_foreign (h : Inv own top fs) {file : Nat} (foreign : ¬ IsHandle fs .file file)
    (offset : Nat) (data : List UInt8) :
    ∃ fs', Snfs.fsWrite fs file offset data = (false, fs') ∧
      LeftAlone (replaced fs file) fs fs' := by
  rw [Snfs.fsWrite]
  split
  · rename_i out
    exact ⟨fs, rfl, h.replaced_unused (h.inodes.le_size.trans out) ▸ .refl fs⟩
  · exact h.open_foreign (by simp) foreign fun _ _ other => if_pos other

theorem Inv.fsReaddir_foreign (h : Inv own top fs) {dir : Nat} (foreign : ¬ IsHandle fs .dir dir)
    {maxentries : Int} (count : ¬ maxentries < 0) :
    ∃ fs', Snfs.fsReaddir fs dir maxentries = (none, fs') ∧
      LeftAlone (replaced fs dir) fs fs' := by
  rw [Snfs.fsReaddir]
  split
  · rename_i out
    have unused := h.inodes.le_size.trans (out.resolve_right count)
    exact ⟨fs, rfl, h.replaced_unused unused ▸ .refl fs⟩
  · exact h.open_foreign (by simp) foreign fun _ _ other => if_pos other

theorem Inv.fsMake_foreign (h : Inv own top fs) {dir : Nat} (foreign : ¬ IsHandle fs .dir dir)
    (type : Itype) (name : CString) :
    ∃ fs', Snfs.fsMake type fs dir name = (none, fs') ∧ LeftAlone none fs fs' := by
  rcases fsMake_cases type fs dir name with ⟨fs₁, gaveUp, searched⟩ | ⟨_, _, _, _, creatable, -⟩
  · exact ⟨fs₁, gaveUp, .of_dirs searched.same⟩
  · exact absurd ((h.isHandle_iff (by simp) dir).mpr
      ⟨h.lt_top creatable.inUse, creatable.isDir⟩) foreign

/-- Every handler refuses a handle that names no inode of the kind it needs. -/
theorem Inv.handle_foreign (h : Inv own top fs) {req : Buf msgReqSize} {msg : SnfsMsgType}
    {call : Call} (args : handlerArgs req msg = some call) {type : Itype}
    (needs : call.needs = some type) (foreign : ¬ IsHandle fs type (inodeidAt req)) (junk : Junk) :
    ∃ fs', call.handle fs junk = some (none, fs') ∧ LeftAlone (call.replaces fs) fs fs' := by
  cases msg with
  | null | ping => cases args
  | lookup | copy =>
      cases args
      cases needs
  | read =>
      cases args
      cases needs
      rw [Call.handle, snfsRead, Call.replaces, Int.toNat_natCast]
      split
      · exact ⟨fs, rfl, .refl fs⟩
      · obtain ⟨fs₁, refused, left⟩ := h.fsRead_foreign foreign (msgWord req 12) (msgWord req 16)
        exact ⟨fs₁, by rw [refused], left⟩
  | write =>
      cases args
      cases needs
      rw [Call.handle, snfsWrite, Call.replaces, Int.toNat_natCast]
      split
      · exact ⟨fs, rfl, .refl fs⟩
      · obtain ⟨fs₁, refused, left⟩ := h.fsWrite_foreign foreign (msgWord req 12) _
        exact ⟨fs₁, by rw [refused], left⟩
  | create =>
      cases args
      cases needs
      obtain ⟨fs₁, refused, left⟩ := h.fsMake_foreign foreign .file (nameAt req 12)
      refine ⟨fs₁, ?_, left⟩
      rw [Call.handle, snfsCreate, fsCreate, Int.toNat_natCast, refused]
      rfl
  | mkdir =>
      cases args
      cases needs
      obtain ⟨fs₁, refused, left⟩ := h.fsMake_foreign foreign .dir (nameAt req 12)
      refine ⟨fs₁, ?_, left⟩
      rw [Call.handle, snfsMkdir, fsMkdir, Int.toNat_natCast, refused]
      rfl
  | readdir =>
      cases args
      cases needs
      rw [Call.handle, snfsReaddir, Call.replaces, Int.toNat_natCast]
      by_cases negative : asInt (msgWord req 12) < 0
      · refine ⟨fs, ?_, ?_⟩
        · rw [Snfs.fsReaddir, if_pos (.inr negative)]
        · rw [if_pos negative]
          exact .refl fs
      · obtain ⟨fs₁, refused, left⟩ := h.fsReaddir_foreign foreign negative
        refine ⟨fs₁, by rw [refused], ?_⟩
        rwa [if_neg negative]

theorem Served.sound {num : Nat} (data : 10 ≤ num) (unwrapped : num * blockSize < 2 ^ 32)
    (served : Served num fs) : Sound fs := by
  obtain ⟨clock, boot, trace, started, run⟩ := served
  have formatted := fsBoot_formatted data unwrapped started
  exact run.invariant (I := Sound) ⟨_, 2, formatted.inv data, formatted.cachesOk data⟩
    fun _ _ _ sound next => serveRequest_sound sound next.1 next.2

variable {num : Nat} {e : Req × Junk} {call : Call} {type : Itype}

theorem serveRequest_handled {reply : Option Reply} (handled : handledCall e.1 = some call)
    (result : call.handle fs e.2 = some (reply, fs')) :
    serveRequest fs e = some (serve e.1 (response call.type reply), fs') := by
  rw [serveRequest, handled]
  exact congrArg (Option.map _) result

private theorem status_refused (handled : handledCall e.1 = some call) :
    (serve e.1 (response call.type none)).1.status = resError := by
  obtain ⟨type, found, -⟩ := Option.bind_eq_some_iff.mp handled
  rw [serve, found]
  rfl

/-- A request whose handle, in its low 16 bits, names no allocated inode of the kind needed is
refused. It changes neither the bitmaps nor the device, and the inode table and the content of a
file only as far as an entry of the inode cache had to give way. -/
theorem foreign_handles_refused (data : 10 ≤ num) (unwrapped : num * blockSize < 2 ^ 32)
    (served : Served num fs) (handled : handledCall e.1 = some call)
    (needs : call.needs = some type)
    (foreign : ¬ IsHandle fs type ((msgWord e.1.req 8 % 2 ^ 16 : Nat) : Int)) :
    ∃ answer fs', serveRequest fs e = some (answer, fs') ∧ answer.1.status = resError ∧
      LeftAlone (call.replaces fs) fs fs' := by
  obtain ⟨own, top, h, -⟩ := served.sound data unwrapped
  obtain ⟨msg, -, args⟩ := Option.bind_eq_some_iff.mp handled
  obtain ⟨fs', refused, left⟩ := h.handle_foreign args needs foreign e.2
  exact ⟨_, fs', serveRequest_handled handled refused, status_refused handled, left⟩

/-- A READ of the root, the only inode. -/
theorem foreign_handles_refused_root :
    ∃ fs answer fs', Served 16 fs ∧
      serveRequest fs (requested (.read 1 0 8)) = some (answer, fs') ∧
      answer.1.status = resError ∧ LeftAlone ((Call.read 1 0 8).replaces fs) fs fs' := by
  have facts : (fsBoot 16 fun _ => 1).map (fun boot => decide (IsHandle boot .file
      ((msgWord (requested (.read 1 0 8)).1.req 8 % 2 ^ 16 : Nat) : Int))) = some false := by
    decide +kernel
  obtain ⟨boot, started, foreign⟩ := Option.map_eq_some_iff.mp facts
  have served : Served 16 boot := ⟨_, boot, [], started, .nil⟩
  have handled : handledCall (requested (.read 1 0 8)).1 = some (.read 1 0 8) := by decide +kernel
  obtain ⟨answer, fs', answered, status, left⟩ := foreign_handles_refused (by decide) (by decide)
    served handled rfl (of_decide_eq_false foreign)
  exact ⟨boot, answer, fs', served, answered, status, left⟩

def callStep (fs : Fs) (call : Call) : Option (Option Reply × Fs) := call.handle fs ⟨9, 9, 9⟩

def Arrives (fs : Fs) (call : Call) : Prop :=
  handledCall (requested call).1 = some call ∧ call.PathsFit ∧
    Room fs (demand fs (call.op ⟨9, 9, 9⟩))

instance (fs : Fs) : DecidablePred (Arrives fs) := fun call =>
  inferInstanceAs (Decidable (_ ∧ call.PathsFit ∧ Room fs (demand fs (call.op ⟨9, 9, 9⟩))))

theorem Served.of_calls {boot : Fs} {clock : Nat → Int} {calls : List Call}
    {trace : List (Call × Option Reply)} (started : fsBoot num clock = some boot)
    (executed : execute callStep boot calls = some (trace, fs))
    (met : Meets callStep Arrives boot calls) : Served num fs := by
  refine (run_of_execute executed met).invariant (I := Served num)
    ⟨clock, boot, [], started, .nil⟩ ?_
  rintro s ⟨call, reply⟩ s' ⟨clock, boot, trace, started, run⟩ ⟨⟨handled, fits, room⟩, next⟩
  have admissible : Admissible s (requested call) := by
    rw [Admissible, handled]
    exact ⟨fits, room⟩
  exact ⟨clock, boot, _, started,
    run.snoc (e := (requested call, _)) ⟨admissible, serveRequest_handled handled next⟩⟩

def fileAndDirs : List Call := [.create 1 [97], .mkdir 1 [98], .mkdir 1 [99], .mkdir 1 [100]]

theorem served_then (calls : List Call) (check : Fs → Fs → Bool)
    (handled : handledCall e.1 = some call)
    (facts : ((fsBoot 16 fun _ => 1).bind fun boot =>
      (execute callStep boot (fileAndDirs ++ calls)).bind fun r =>
        (call.handle r.2 e.2).map fun q =>
          (decide (Meets callStep Arrives boot (fileAndDirs ++ calls)), check r.2 q.2)) =
      some (true, true)) :
    ∃ fs answer fs', Served 16 fs ∧ serveRequest fs e = some (answer, fs') ∧
      check fs fs' = true := by
  obtain ⟨boot, started, facts⟩ := Option.bind_eq_some_iff.mp facts
  obtain ⟨⟨trace, fs⟩, executed, facts⟩ := Option.bind_eq_some_iff.mp facts
  obtain ⟨⟨reply, fs'⟩, result, facts⟩ := Option.map_eq_some_iff.mp facts
  simp only [Prod.mk.injEq] at facts
  exact ⟨fs, _, fs', .of_calls started executed (of_decide_eq_true facts.1),
    serveRequest_handled handled result, facts.2⟩

/-- A WRITE with handle 65538 is a write to file 2. A READ of directory 5 is refused but writes
back what a WRITE has left in the inode cache, and one of directory 4 makes the outdated copy of
file 2 give way. -/
theorem foreign_handle_served :
    (¬ ∀ num fs e call type, 10 ≤ num → num * blockSize < 2 ^ 32 → Served num fs →
      handledCall e.1 = some call → call.needs = some type →
      ¬ IsHandle fs type (asInt (msgWord e.1.req 8)) →
      ∃ answer fs', serveRequest fs e = some (answer, fs') ∧ answer.1.status = resError ∧
        LeftAlone none fs fs') ∧
    (∃ fs answer fs', Served 16 fs ∧
      serveRequest fs (requested (.read 5 0 1)) = some (answer, fs') ∧
      ¬ IsHandle fs .file 5 ∧ fs'.inodeTab ≠ fs.inodeTab) ∧
    ∃ fs answer fs', Served 16 fs ∧
      serveRequest fs (requested (.read 4 0 1)) = some (answer, fs') ∧
      ¬ IsHandle fs .file 4 ∧ IsHandle fs .file 2 ∧ content fs' 2 ≠ content fs 2 := by
  refine ⟨fun refused => ?_, ?_, ?_⟩
  · have handled : handledCall (requested (.write 65538 0 1 [7])).1 = some (.write 2 0 1 [7]) := by
      decide +kernel
    have handle : asInt (msgWord (requested (.write 65538 0 1 [7])).1.req 8) = 65538 := by
      decide +kernel
    obtain ⟨fs, answer, fs', served, answered, size⟩ := served_then []
      (fun fs fs' => decide ((fs'.inodeTab 2).size ≠ (fs.inodeTab 2).size)) handled
      (by decide +kernel)
    obtain ⟨answer', fs'', answered', -, left⟩ := refused 16 fs _ _ _ (by decide) (by decide)
      served handled rfl fun is => absurd is.lt (by rw [handle]; decide)
    rw [answered] at answered'
    cases answered'
    refine of_decide_eq_true size ?_
    rw [left.inodeTab]
    rfl
  · have handled : handledCall (requested (.read 5 0 1)).1 = some (.read 5 0 1) := by decide +kernel
    obtain ⟨fs, answer, fs', served, answered, facts⟩ := served_then
      [.read 2 0 1, .write 2 0 1 [7], .read 1 0 1, .read 3 0 1, .read 4 0 1]
      (fun fs fs' => decide (¬ IsHandle fs .file 5 ∧
        (fs'.inodeTab 2).size ≠ (fs.inodeTab 2).size)) handled (by decide +kernel)
    obtain ⟨foreign, size⟩ := of_decide_eq_true facts
    exact ⟨fs, answer, fs', served, answered, foreign, fun same => size (by rw [same])⟩
  · have handled : handledCall (requested (.read 4 0 1)).1 = some (.read 4 0 1) := by decide +kernel
    obtain ⟨fs, answer, fs', served, answered, facts⟩ := served_then
      [.write 2 0 1 [7], .read 1 0 1, .read 3 0 1]
      (fun fs fs' => decide (¬ IsHandle fs .file 4 ∧ IsHandle fs .file 2 ∧
        (content fs' 2).length ≠ (content fs 2).length)) handled (by decide +kernel)
    obtain ⟨foreign, isFile, length⟩ := of_decide_eq_true facts
    exact ⟨fs, answer, fs', served, answered, foreign, isFile, fun same => length (by rw [same])⟩

end Snfs
