import Snfs.Fs.Coherence

/-!
The files that `fs_create` makes, against byte lists. The abstract model reads
the calls and their results off a run; the code follows it in every run in which
no `fs_write` extends a file whose inode is not cached. A write that does leaves
a clean copy of the old inode in front of the new one.
-/

namespace Snfs

open Slots Runs

def overwrite (xs : List UInt8) (pos : Nat) (data : List UInt8) : List UInt8 :=
  xs.take pos ++ data ++ xs.drop (pos + data.length)

abbrev FileModel : Type := Nat → Option (List UInt8)

def modelStep (files : FileModel) : FsOp × FsResult → FileModel
  | (.create _ _, .made (some id)) => Function.update files id (some [])
  | (.write file offset data, .written true) =>
      Function.update files file
        ((files file).map fun xs => overwrite xs (min offset xs.length) data)
  | _ => files

def fileModel (trace : List (FsOp × FsResult)) : FileModel :=
  trace.foldl modelStep fun _ => none

def ResultAgrees (files : FileModel) : FsOp × FsResult → Prop
  | (.getAttrs file, .attrs attrs) =>
      ∀ xs, files file = some xs → attrs = some ⟨file, .file, xs.length, -1⟩
  | (.read file offset count, .data bytes) =>
      ∀ xs, files file = some xs → bytes = some ((xs.drop offset).take count)
  | _ => True

private theorem fileModel_concat (trace : List (FsOp × FsResult)) (e : FsOp × FsResult) :
    fileModel (trace ++ [e]) = modelStep (fileModel trace) e := by
  simp [fileModel]

theorem getElem?_overwrite {xs data : List UInt8} {pos : Nat} (h : pos ≤ xs.length) (q : Nat) :
    (overwrite xs pos data)[q]? =
      if pos ≤ q ∧ q < pos + data.length then data[q - pos]? else xs[q]? := by
  have head : (xs.take pos).length = pos := by
    rw [List.length_take]
    omega
  rw [overwrite, List.append_assoc]
  by_cases before : q < pos
  · rw [List.getElem?_append_left (by omega), List.getElem?_take_of_lt before,
      if_neg (by omega)]
  · rw [List.getElem?_append_right (by omega), head]
    by_cases inside : q - pos < data.length
    · rw [List.getElem?_append_left inside, if_pos ⟨by omega, by omega⟩]
    · rw [List.getElem?_append_right (by omega), List.getElem?_drop, if_neg (by omega)]
      congr 1
      omega

theorem length_overwrite {xs data : List UInt8} {pos : Nat} (h : pos ≤ xs.length) :
    (overwrite xs pos data).length = max xs.length (pos + data.length) := by
  simp only [overwrite, List.length_append, List.length_take, List.length_drop]
  omega

def content (fs : Fs) (a : Nat) : List UInt8 := bytesAt fs.lblk (fs.seen a) 0 (fs.seen a).size

variable {own : Ledger} {top : Nat} {fs fs' : Fs} {a : Nat}

@[simp] theorem length_content (fs : Fs) (a : Nat) :
    (content fs a).length = (fs.seen a).size :=
  length_bytesAt _ _ _ _

private theorem getElem?_bytesAt (look : Nat → Block) (c : Inode) (n q : Nat) :
    (bytesAt look c 0 n)[q]? = if q < n then some (fileByte look c q) else none := by
  by_cases inside : q < n
  · simp [bytesAt, inside]
  · simp [bytesAt, inside]

theorem getElem?_content (fs : Fs) (a q : Nat) :
    (content fs a)[q]? =
      if q < (fs.seen a).size then some (fileByte fs.lblk (fs.seen a) q) else none :=
  getElem?_bytesAt _ _ _ _

theorem Unchanged.content (h : Unchanged a fs fs') : content fs' a = content fs a := by
  have size := h.agree.size
  rw [Snfs.content, Snfs.content, bytesAt, bytesAt, size]
  refine List.map_congr_left fun q hq => ?_
  have inside : (0 + q) / blockSize < (fs.seen a).used := by
    rw [Inode.lt_used]
    have := List.mem_range.mp hq
    simp only [blockSize]
    omega
  rw [fileByte, fileByte, h.agree.blocks _ (by rwa [h.agree.used]), h.bytes _ inside]

private theorem drop_take_content (fs : Fs) (a offset count : Nat) :
    ((content fs a).drop offset).take count =
      bytesAt fs.lblk (fs.seen a) offset (min count ((fs.seen a).size - offset)) := by
  apply List.ext_getElem
  · simp
  · intro k _ _
    simp [content, bytesAt]

/-- What `fs_get_attrs` and `fs_read` say about a file of these bytes. -/
def Reports (fs : Fs) (a : Nat) (xs : List UInt8) : Prop :=
  (fsGetAttrs fs a).map Prod.fst = some (some ⟨a, .file, xs.length, -1⟩) ∧
    ∀ offset count, (fsRead fs a offset count).1 = some ((xs.drop offset).take count)

theorem Inv.reports (h : Inv own top fs) (ha : a < top) (isFile : (fs.inodeTab a).type = .file) :
    Reports fs a (Snfs.content fs a) := by
  refine ⟨?_, fun offset count => ?_⟩
  · rcases h.fsGetAttrs_cases a with ⟨out, -⟩ | ⟨p, fs₁, -, reported⟩
    · omega
    · have type : (fs.seen a).type = .file := (h.type_seen a).trans isFile
      rw [reported, attrsOf, type, length_content]
      rfl
  · rcases h.fsRead_cases a offset count with ⟨out, -⟩ | ⟨p, fs₁, -, ⟨notFile, -⟩ |
      ⟨-, fs₂, done, -⟩⟩
    · omega
    · exact absurd isFile notFile
    · rw [done, drop_take_content]

/-- The write that the condition on runs excludes: it extends a file whose inode is not cached. -/
def ExtendsUncached (fs : Fs) : FsOp → Prop
  | .write file offset data => fs.inodeCache.Absent file ∧ Extends fs file offset data.length
  | _ => False

instance (fs : Fs) : DecidablePred (ExtendsUncached fs)
  | .write file offset data => inferInstanceAs (Decidable
      ((∀ s, (fs.inodeCache s).key ≠ file) ∧ Extends fs file offset data.length))
  | .lookup _ | .getAttrs _ | .read _ _ _ | .create _ _ | .mkdir _ _ | .readdir _ _
  | .copy _ _ _ _ => .isFalse id

/-- The bytes after a write, from what the data loop did to the blocks, in a copy that agrees with
the one written to. -/
theorem Stored.bytesAt {own' : Ledger} {p : InodePtr} {pos : Nat} {data : List UInt8} {fs₁ fs₂ : Fs}
    (stored : Stored own own' top p a pos data fs₁ fs₂) (h : Inv own top fs) (ha : a < top)
    (quiet₁ : Quiet top fs fs₁) (copy : fs₁.deref p = fs.seen a) (le : pos ≤ (fs.seen a).size)
    {look : Nat → Block} (lblk : ∀ b, 10 ≤ b → b < fs₂.numBlocks → look b = fs₂.lblk b) {c : Inode}
    (agree : Agree c { fs₂.deref p with size := max (fs.seen a).size (pos + data.length) }) :
    Snfs.bytesAt look c 0 c.size = overwrite (content fs a) pos data := by
  apply List.ext_getElem?
  intro q
  have length := length_content fs a
  have size : c.size = max (fs.seen a).size (pos + data.length) := agree.size
  rw [getElem?_overwrite (by omega), getElem?_bytesAt, getElem?_content, size]
  by_cases inside : q < max (fs.seen a).size (pos + data.length)
  · have given : own' ((fs₂.deref p).blocks (q / 512)) = some (a, q / 512) :=
      stored.given _ (by rw [copy]; omega)
    obtain ⟨low, lt⟩ := stored.inv.owned_range given
    have block : c.blocks (q / 512) = (fs₂.deref p).blocks (q / 512) := by
      refine agree.blocks _ ?_
      rw [Inode.lt_used, size]
      omega
    have byte : fileByte look c q = fileByte fs₂.lblk (fs₂.deref p) q := by
      simp only [fileByte, blockSize, block, lblk _ low lt]
    rw [if_pos inside, byte, stored.bytes q given]
    by_cases written : pos ≤ q ∧ q < pos + data.length
    · rw [if_pos written, if_pos written, List.getD_eq_getElem?_getD]
      have bound : q - pos < data.length := by omega
      simp [bound]
    · have old : q < (fs.seen a).size := by omega
      have used : q / 512 < (fs.seen a).used := by
        rw [Inode.lt_used]
        omega
      obtain ⟨low', lt'⟩ := h.owned_range ((h.owned_seen ha).owned_used used)
      rw [if_neg written, if_neg written, if_pos old]
      simp only [fileByte, blockSize, stored.old _ (by rw [copy]; exact used), copy,
        quiet₁.lblk _ low' lt']
  · rw [if_neg inside, if_neg (by omega), if_neg (by omega)]

theorem Stored.content {own' : Ledger} {p : InodePtr} {pos : Nat} {data : List UInt8} {fs₁ fs₂ : Fs}
    (stored : Stored own own' top p a pos data fs₁ fs₂) (h : Inv own top fs) (ha : a < top)
    (quiet₁ : Quiet top fs fs₁) (copy : fs₁.deref p = fs.seen a) (le : pos ≤ (fs.seen a).size)
    (lblk : ∀ b, 10 ≤ b → b < fs₂.numBlocks → fs'.lblk b = fs₂.lblk b)
    (seen : Agree (fs'.seen a)
      { fs₂.deref p with size := max (fs.seen a).size (pos + data.length) }) :
    content fs' a = overwrite (content fs a) pos data :=
  stored.bytesAt h ha quiet₁ copy le lblk seen

/-- A successful write that the condition allows leaves the inode that it wrote to in front. -/
theorem Inv.write_inode (h : Inv own top fs) (ha : a < top) (coherent : Coherent fs a)
    {offset : Nat}
    {data : List UInt8} (short : data.length ≤ 1024)
    (room : Room fs (demand fs (.write a offset data)))
    (safe : ¬ ExtendsUncached fs (.write a offset data))
    (result : fsWrite fs a offset data = (true, fs')) :
    ∃ own' p fs₁ fs₂, Quiet top fs fs₁ ∧ fs₁.deref p = fs.seen a ∧
      Stored own own' top p a (writePos (fs.seen a) offset) data fs₁ fs₂ ∧ Quiet top fs₂ fs' ∧
      Coherent fs' a ∧ Agree (fs'.seen a) { fs₂.deref p with
        size := max (fs.seen a).size (writePos (fs.seen a) offset + data.length) } := by
  have ends := h.fsWrite_ends a offset short room
  rw [result] at ends
  cases ends with
  | inside opened _ inside stored same =>
      obtain ⟨-, -, quiet₁, -, copy, -⟩ := h.openInode opened
      have kept₁ := h.unchanged_open ha coherent opened
      refine ⟨own, _, _, fs', quiet₁, copy, stored, .refl top fs',
        kept₁.coherent.sameInodes same, ?_⟩
      rw [Nat.max_eq_left inside, same.seen, same.deref, copy]
      exact kept₁.agree
  | extended opened extends' stored =>
      rename_i p fs₁ fs₂ own'
      obtain ⟨-, -, quiet₁, ptr, copy, -⟩ := h.openInode opened
      have kept₁ := h.unchanged_open ha coherent opened
      cases p with
      | table b =>
          -- the inode was not cached
          refine absurd ⟨?_, extends'⟩ safe
          cases opened_of_open opened with
          | table absent => exact absent
      | cached s =>
          have key : PtrTo fs₂ (.cached s) a := stored.only.ptrTo ptr
          have single : fs₂.inodeCache.Single a := kept₁.coherent.single.congr stored.only.key
          have type₂ : (fs₂.inodeTab a).type = .file :=
            (stored.frame.type a).trans ((quiet₁.type a).trans extends'.isFile)
          obtain ⟨-, quiet⟩ := stored.inv.writeSize ha key type₂ extends'.fits
            fun i hi => stored.given i (by omega)
          have grows : max (fs.seen a).size (writePos (fs.seen a) offset + data.length) =
              writePos (fs.seen a) offset + data.length :=
            Nat.max_eq_right (Nat.le_of_lt extends'.grows)
          -- the slot is dirty and holds the inode with the new size
          have keys (t : Fin inodeCacheSize) : ((Snfs.writeSize fs₂ a (.cached s)
              (writePos (fs.seen a) offset + data.length)).inodeCache t).key =
              (fs₂.inodeCache t).key := by
            simp only [Snfs.writeSize, Fs.markDirty, Fs.assign, Table.write_key]
          have slot : (Snfs.writeSize fs₂ a (.cached s)
              (writePos (fs.seen a) offset + data.length)).inodeCache s =
              ⟨a, { fs₂.deref (.cached s) with
                size := writePos (fs.seen a) offset + data.length }, true,
                (fs₂.inodeCache s).lastAccess⟩ := by
            simp only [Snfs.writeSize, Fs.markDirty, Fs.assign, Table.write, Function.update_self]
            rw [show (fs₂.inodeCache s).key = a from key]
          have single' := single.congr keys
          have seen : Fs.seen (Snfs.writeSize fs₂ a (.cached s)
              (writePos (fs.seen a) offset + data.length)) a =
              { fs₂.deref (.cached s) with
                size := writePos (fs.seen a) offset + data.length } := by
            rw [Fs.seen, Table.view_of_single single' ((keys s).trans key), slot]
          refine ⟨own', _, fs₁, fs₂, quiet₁, copy, stored, quiet, ⟨single', ?_⟩, ?_⟩
          · intro t key' clean
            rw [single' t s key' ((keys s).trans key), slot] at clean
            cases clean
          · rw [grows]
            exact .of_eq seen

theorem Inv.write_self (h : Inv own top fs) (ha : a < top) (coherent : Coherent fs a) {offset : Nat}
    {data : List UInt8} (short : data.length ≤ 1024)
    (room : Room fs (demand fs (.write a offset data)))
    (safe : ¬ ExtendsUncached fs (.write a offset data))
    (result : fsWrite fs a offset data = (true, fs')) :
    Coherent fs' a ∧
      Snfs.content fs' a = overwrite (Snfs.content fs a) (min offset (Snfs.content fs a).length)
        data := by
  obtain ⟨own', p, fs₁, fs₂, quiet₁, copy, stored, quiet₂, coherent', seen⟩ :=
    h.write_inode ha coherent short room safe result
  refine ⟨coherent', ?_⟩
  rw [length_content]
  exact stored.content h ha quiet₁ copy (Nat.min_le_right _ _) quiet₂.lblk seen

def Tracks (top : Nat) (fs : Fs) (files : FileModel) : Prop :=
  ∀ a xs, files a = some xs →
    a < top ∧ (fs.inodeTab a).type = .file ∧ Coherent fs a ∧ content fs a = xs

theorem Tracks.unchanged {own' : Ledger} {top' : Nat} {files : FileModel}
    (tracks : Tracks top fs files) (h : Inv own top fs) (inv' : Inv own' top' fs')
    (le : top ≤ top') (kept : ∀ a, a < top → (fs.inodeTab a).type = .file → Coherent fs a →
      Unchanged a fs fs') : Tracks top' fs' files := by
  intro a xs listed
  obtain ⟨ha, file, coherent, holds⟩ := tracks a xs listed
  have same := kept a ha file coherent
  refine ⟨Nat.lt_of_lt_of_le ha le, ?_, same.coherent, same.content.trans holds⟩
  rw [← inv'.type_seen, same.agree.type, h.type_seen]
  exact file

/-- The condition on a call under which files stay what the model says. -/
def KeepsFiles (fs : Fs) (op : FsOp) : Prop :=
  op.Fits ∧ Room fs (demand fs op) ∧ ¬ ExtendsUncached fs op

instance (fs : Fs) (op : FsOp) : Decidable (KeepsFiles fs op) :=
  inferInstanceAs (Decidable (_ ∧ _ ∧ ¬ _))

/-- One call keeps the files of the model, the new one included. -/
theorem Tracks.step {files : FileModel} (tracks : Tracks top fs files) (h : Inv own top fs)
    {op : FsOp} {res : FsResult} (guard : KeepsFiles fs op)
    (next : fsStep fs op = some (res, fs')) :
    ∃ own' top', Inv own' top' fs' ∧ Tracks top' fs' (modelStep files (op, res)) := by
  obtain ⟨fits, room, safe⟩ := guard
  obtain ⟨own', top', kept⟩ := h.step fits room next
  have step (a : Nat) (ha : a < top) (file : (fs.inodeTab a).type = .file)
      (coherent : Coherent fs a) (other : ¬ WritesTo a (op, res)) : Unchanged a fs fs' :=
    h.unchanged_step ha file coherent fits room next other
  have keep (none : ∀ a, ¬ WritesTo a (op, res)) : Tracks top' fs' files :=
    tracks.unchanged h kept.inv kept.top_le fun a ha file coherent =>
      step a ha file coherent (none a)
  cases op with
  | lookup _ | mkdir _ _ | readdir _ _ | getAttrs _ | read _ _ _ | copy _ _ _ _ =>
      exact ⟨own', top', kept.inv, keep fun _ => id⟩
  | write file offset data =>
      cases result : fsWrite fs file offset data with
      | mk ok fs₁ =>
          simp only [fsStep, result] at next
          cases next
          cases ok with
          | false => exact ⟨own', top', kept.inv, keep fun _ => id⟩
          | true =>
              refine ⟨own', top', kept.inv, fun a xs listed => ?_⟩
              rw [modelStep, Function.update_apply] at listed
              by_cases here : a = file
              · subst here
                rw [if_pos rfl, Option.map_eq_some_iff] at listed
                obtain ⟨ys, listed, rfl⟩ := listed
                obtain ⟨ha, file, coherent, rfl⟩ := tracks a ys listed
                obtain ⟨coherent', holds⟩ := h.write_self ha coherent fits room safe result
                refine ⟨Nat.lt_of_lt_of_le ha kept.top_le, ?_, coherent', holds⟩
                exact (kept.frame.type a).trans file
              · rw [if_neg here] at listed
                obtain ⟨ha, file, coherent, rfl⟩ := tracks a xs listed
                have same := step a ha file coherent fun same => here same.symm
                exact ⟨Nat.lt_of_lt_of_le ha kept.top_le, (kept.frame.type a).trans file,
                  same.coherent, same.content⟩
  | create dir name =>
      rcases h.fsMake .file (.inr rfl) dir fits room with
        ⟨fs₁, stop, searched⟩ | ⟨own₁, fs₁, done, made⟩
      · simp only [fsStep, fsCreate, stop] at next
        cases next
        exact ⟨own', top', kept.inv, keep fun _ => id⟩
      · simp only [fsStep, fsCreate, done] at next
        cases next
        refine ⟨own₁, top + 1, made.inv, fun a xs listed => ?_⟩
        rw [modelStep, Function.update_apply] at listed
        by_cases here : a = top
        · rw [if_pos here] at listed
          cases listed
          rw [here]
          obtain ⟨-, coherent, seen⟩ := made.coherent_new h
          refine ⟨Nat.lt_succ_self top, ?_, coherent, ?_⟩
          · rw [made.tab_new]
            rfl
          · rw [content, seen]
            rfl
        · rw [if_neg here] at listed
          exact tracks.unchanged h made.inv (Nat.le_succ top)
            (fun b hb file coherent => made.unchanged h hb file coherent) a xs listed

theorem Tracks.result {files : FileModel} (tracks : Tracks top fs files) (h : Inv own top fs)
    {op : FsOp} {res : FsResult} (next : fsStep fs op = some (res, fs')) :
    ResultAgrees files (op, res) := by
  cases op with
  | getAttrs file =>
      obtain ⟨⟨attrs, fs₁⟩, got, same⟩ := Option.map_eq_some_iff.mp next
      cases same
      intro xs listed
      obtain ⟨ha, isFile, -, rfl⟩ := tracks file xs listed
      have reported := (h.reports ha isFile).1
      rw [got] at reported
      exact Option.some.inj reported
  | read file offset count =>
      simp only [fsStep] at next
      cases next
      intro xs listed
      obtain ⟨ha, isFile, -, rfl⟩ := tracks file xs listed
      exact (h.reports ha isFile).2 offset count
  | lookup _ | write _ _ _ | create _ _ | mkdir _ _ | readdir _ _ | copy _ _ _ _ => trivial

/-- In a run whose calls keep the files, every result about a file of the model is the model's. -/
theorem files_follow_model {num : Nat} {clock : Nat → Int} {boot s s' : Fs}
    {trace : List (FsOp × FsResult)} {e : FsOp × FsResult} (data : 10 ≤ num)
    (unwrapped : num * blockSize < 2 ^ 32) (started : fsBoot num clock = some boot)
    (run : Run (Guarded (fun s e => KeepsFiles s e.1) FsNext) boot trace s)
    (next : FsNext s e s') : ResultAgrees (fileModel trace) e := by
  have formatted := fsBoot_formatted data unwrapped started
  obtain ⟨own, top, inv, tracks⟩ := run.trace_invariant
    (I := fun trace s => ∃ own top, Inv own top s ∧ Tracks top s (fileModel trace))
    ⟨_, 2, formatted.inv data, fun a xs listed => by cases listed⟩
    (by
      rintro trace s ⟨op, res⟩ s' ⟨own, top, inv, tracks⟩ ⟨guard, next⟩
      obtain ⟨own', top', inv', tracks'⟩ := tracks.step inv guard next
      exact ⟨own', top', inv', by rw [fileModel_concat]; exact tracks'⟩)
  exact tracks.result inv next

/-- Attributes are asked for first, so the inode is cached when the bytes are written. -/
theorem files_follow_model_cached :
    ∃ trace s s', fsAfter 16 (fun _ => 1)
        [.create 1 [102], .getAttrs 2, .write 2 0 [1, 2, 3]] = some (trace, s) ∧
      FsNext s (.read 2 1 5, .data (some [2, 3])) s' := by
  have boots : ((fsBoot 16 fun _ => 1).bind fun boot => (execute fsStep boot
      [.create 1 [102], .getAttrs 2, .write 2 0 [1, 2, 3]]).map fun r =>
        (decide (Meets fsStep KeepsFiles boot
          [.create 1 [102], .getAttrs 2, .write 2 0 [1, 2, 3]]), fileModel r.1 2)) =
      some (true, some [1, 2, 3]) := by decide +kernel
  obtain ⟨boot, started, facts⟩ := Option.bind_eq_some_iff.mp boots
  obtain ⟨⟨trace, s⟩, calls, facts⟩ := Option.map_eq_some_iff.mp facts
  simp only [Prod.mk.injEq] at facts
  obtain ⟨met, model⟩ := facts
  have next : FsNext s (.read 2 1 5, .data (fsRead s 2 1 5).1) (fsRead s 2 1 5).2 := rfl
  have agrees := files_follow_model (by decide) (by decide) started
    (run_of_execute calls (of_decide_eq_true met)) next [1, 2, 3] model
  refine ⟨trace, s, (fsRead s 2 1 5).2, by rw [fsAfter, started]; exact calls, ?_⟩
  rw [show (fsRead s 2 1 5).1 = some [2, 3] from agrees] at next
  exact next

/-- A file is made, three bytes are written to it, and its size is still 0. -/
theorem written_file_keeps_size_zero :
    ¬ ∀ num clock, (∀ k, 0 < clock k ∧ clock k ≤ clock (k + 1)) → ∀ trace s e s',
      FsRun num clock trace s → e.1.Fits → FsNext s e s' → ResultAgrees (fileModel trace) e := by
  intro follows
  have facts : (fsAfter 16 (fun _ => 1) [.create 1 [102], .write 2 0 [1, 2, 3]]).bind
      (fun r => (fsStep r.2 (.getAttrs 2)).map fun next => (next.1, fileModel r.1 2)) =
        some (.attrs (some ⟨2, .file, 0, -1⟩), some [1, 2, 3]) := by decide +kernel
  obtain ⟨⟨trace, s⟩, calls, got⟩ := Option.bind_eq_some_iff.mp facts
  obtain ⟨⟨res, s'⟩, next, facts⟩ := Option.map_eq_some_iff.mp got
  simp only [Prod.mk.injEq] at facts
  obtain ⟨rfl, model⟩ := facts
  have agrees := follows 16 (fun _ => 1) (fun _ => ⟨by decide, by decide⟩) trace s
    (.getAttrs 2, .attrs (some ⟨2, .file, 0, -1⟩)) s'
    (FsRun.of_calls calls (by simp [FsOp.Fits])) trivial next [1, 2, 3] model
  exact absurd agrees (by decide)

end Snfs
