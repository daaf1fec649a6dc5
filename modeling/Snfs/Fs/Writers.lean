import Snfs.Fs.Sections

/-!
Two calls of `fs_write` at a time, made by two worker threads on disjoint parts of
one file, inside its size. Their critical sections come in any order.

A call that misses a block inserts it later, with the bytes that it read from the
device. Both writes come through if no call looks up a block that the other one has
missed and not yet inserted; else both read the old block, and one copy takes the
place of the other.
-/

namespace Snfs

open Slots Runs

structure Writers where
  fs : Fs
  phase : Bool → WritePhase

def writersStep (calls : Bool → WriteCall) (s : Writers) (t : Bool) :
    Option (WritePhase × Writers) :=
  (writeStep (calls t) s.fs (s.phase t)).map fun (phase, fs) =>
    (phase, ⟨fs, Function.update s.phase t phase⟩)

def WritePhase.seeks : WritePhase → Option Nat
  | .located _ blockNum => some blockNum
  | _ => none

def WritePhase.pending : WritePhase → Option Nat
  | .missed _ blockNum => some blockNum
  | .fetched _ blockNum _ => some blockNum
  | _ => none

/-- The step is no lookup of a block that the other call has missed and not yet inserted. -/
def Unshared (s : Writers) (t : Bool) : Prop :=
  (s.phase t).seeks = none ∨ (s.phase t).seeks ≠ (s.phase !t).pending

instance (s : Writers) (t : Bool) : Decidable (Unshared s t) := inferInstanceAs (Decidable (_ ∨ _))

/-- Two writes to disjoint parts of a file, inside its size. -/
structure WithinFile (fs : Fs) (file : Nat) (calls : Bool → WriteCall) : Prop where
  onFile : ∀ t, (calls t).file = file
  inside : ∀ t, (calls t).offset + (calls t).data.length ≤ (fs.seen file).size
  disjoint : (calls false).offset + (calls false).data.length ≤ (calls true).offset ∨
    (calls true).offset + (calls true).data.length ≤ (calls false).offset

/-- The file's bytes are the old ones with both ranges replaced, as by the two calls in either
order, and no block is cached twice. Slots that were never used claim block 0. -/
structure BothWritten (fs fs' : Fs) (file : Nat) (calls : Bool → WriteCall) : Prop where
  content : ∀ t, content fs' file =
    overwrite (overwrite (content fs file) (calls t).offset (calls t).data)
      (calls !t).offset (calls !t).data
  single : ∀ b, b ≠ 0 → fs'.blockCache.Single b

variable {own : Ledger} {top : Nat} {fs fs' fs₀ : Fs} {call : WriteCall} {c : Inode} {n : Nat}

/-- The local variables of a call that has written its first `n` bytes; `c` is the inode. -/
structure LocalsAt (own : Ledger) (top : Nat) (call : WriteCall) (c : Inode) (fs : Fs) (n : Nat)
    (l : WriteLocals) : Prop where
  used : call.file < top
  given : ∀ i, 512 * i < call.offset + call.data.length → own (c.blocks i) = some (call.file, i)
  isFile : (fs.inodeTab call.file).type = .file
  ptr : PtrTo fs l.ifile call.file
  copy : fs.deref l.ifile = c
  le : n ≤ call.data.length
  rest : l.rest = call.data.drop n
  start : l.start < 512
  position : l.rest ≠ [] → 512 * l.iblock + l.start = call.offset + n
  stop : l.stop = call.offset + call.data.length

/-- The phase of a call that has written its first `n` bytes. A block that it has missed is still
not cached, and the device holds what the call has read. -/
inductive WriteAt (own : Ledger) (top : Nat) (call : WriteCall) (c : Inode) (fs : Fs) :
    Nat → WritePhase → Prop where
  | start : WriteAt own top call c fs 0 .start
  | round {n : Nat} {l : WriteLocals} (locals : LocalsAt own top call c fs n l) :
      WriteAt own top call c fs n (.round l)
  | located {n : Nat} {l : WriteLocals} (locals : LocalsAt own top call c fs n l) (more : l.rest ≠ []) :
      WriteAt own top call c fs n (.located l (c.blocks l.iblock))
  | missed {n : Nat} {l : WriteLocals} (locals : LocalsAt own top call c fs n l) (more : l.rest ≠ [])
      (absent : fs.blockCache.Absent (c.blocks l.iblock)) :
      WriteAt own top call c fs n (.missed l (c.blocks l.iblock))
  | fetched {n : Nat} {l : WriteLocals} {data : Block} (locals : LocalsAt own top call c fs n l)
      (more : l.rest ≠ []) (absent : fs.blockCache.Absent (c.blocks l.iblock))
      (current : fs.blocks.content (c.blocks l.iblock) = data) :
      WriteAt own top call c fs n (.fetched l (c.blocks l.iblock) data)
  | failed : WriteAt own top call c fs 0 (.returned false)
  | done (used : call.file < top) : WriteAt own top call c fs call.data.length (.returned true)

structure Leaves (file : Nat) (p : WritePhase) (fs fs' : Fs) : Prop where
  type : ∀ a, (fs'.inodeTab a).type = (fs.inodeTab a).type
  ptr : ∀ q, PtrTo fs q file → PtrTo fs' q file ∧ fs'.deref q = fs.deref q
  absent : ∀ b, p.pending = some b → fs.blockCache.Absent b → fs'.blockCache.Absent b
  content : ∀ b, p.pending = some b → fs.blockCache.Absent b →
    fs'.blocks.content b = fs.blocks.content b

theorem LocalsAt.congr {l : WriteLocals} {p : WritePhase} (h : LocalsAt own top call c fs n l)
    (leaves : Leaves call.file p fs fs') : LocalsAt own top call c fs' n l :=
  ⟨h.used, h.given, (leaves.type _).trans h.isFile, (leaves.ptr _ h.ptr).1, (leaves.ptr _ h.ptr).2.trans h.copy,
    h.le, h.rest, h.start, h.position, h.stop⟩

theorem WriteAt.congr {p : WritePhase} (h : WriteAt own top call c fs n p)
    (leaves : Leaves call.file p fs fs') : WriteAt own top call c fs' n p := by
  cases h with
  | start => exact .start
  | round locals => exact .round (locals.congr leaves)
  | located locals more => exact .located (locals.congr leaves) more
  | missed locals more absent =>
      exact .missed (locals.congr leaves) more (leaves.absent _ rfl absent)
  | fetched locals more absent current =>
      exact .fetched (locals.congr leaves) more (leaves.absent _ rfl absent)
        ((leaves.content _ rfl absent).trans current)
  | failed => exact .failed
  | done used => exact .done used

/-- Opening an inode changes no copy of it and no block. -/
theorem openInode_kept {a : Nat} {p : InodePtr} (opened : openInode fs a = some (p, fs')) :
    fs'.blockCache = fs.blockCache ∧ fs'.blocks = fs.blocks ∧ fs'.seen a = fs.seen a ∧
      ∀ q, PtrTo fs q a → PtrTo fs' q a ∧ fs'.deref q = fs.deref q := by
  have seen := seen_open opened
  cases opened_of_open opened with
  | @cached s found =>
      refine ⟨rfl, rfl, seen, fun q ptr => ?_⟩
      cases q with
      | cached t =>
          exact ⟨(Table.touch_key fs.inodeCache s fs.now t).trans ptr,
            Table.touch_val fs.inodeCache s fs.now t⟩
      | table b => exact ⟨ptr, rfl⟩
  | table absent =>
      refine ⟨rfl, rfl, seen, fun q ptr => ?_⟩
      cases q with
      | cached t => exact absurd ptr (absent t)
      | table b =>
          have same : b = a := ptr
          subst same
          exact ⟨rfl, Table.evict_of_ne _ (absent _)⟩

theorem Leaves.refl (file : Nat) (p : WritePhase) (fs : Fs) : Leaves file p fs fs :=
  ⟨fun _ => rfl, fun _ ptr => ⟨ptr, rfl⟩, fun _ _ absent => absent, fun _ _ _ => rfl⟩

theorem Inv.spares_open (h : Inv own top fs) {a : Nat} {p : InodePtr} (q : WritePhase)
    (opened : Snfs.openInode fs a = some (p, fs')) : Leaves a q fs fs' := by
  obtain ⟨-, -, quiet, -⟩ := h.openInode opened
  obtain ⟨cache, blocks, -, ptr⟩ := openInode_kept opened
  refine ⟨quiet.type, ptr, fun b _ absent => ?_, fun b _ _ => ?_⟩
  · rwa [cache]
  · rw [blocks]

/-- A block that is not cached stays so, and the device keeps its content, when another one is
written. -/
theorem Inv.writeBlock_absent_other (h : Inv own top fs) {b e : Nat} {start : Nat}
    {chunk : List UInt8} (stored : Snfs.writeBlock fs b start chunk = some fs')
    (absent : fs.blockCache.Absent e) (ne : e ≠ b) (inside : e < fs.numBlocks) :
    fs'.blockCache.Absent e ∧ fs'.blocks.content e = fs.blocks.content e := by
  rw [Snfs.writeBlock] at stored
  cases found : findBlockInCache fs b with
  | some pair =>
      obtain ⟨s, fs₁⟩ := pair
      rw [found] at stored
      cases stored
      rw [findBlockInCache] at found
      obtain ⟨s, -, same⟩ := Option.map_eq_some_iff.mp found
      cases same
      refine ⟨fun i key => absent i ?_, rfl⟩
      simpa [Fs.touchBlock] using key
  | none =>
      rw [found] at stored
      dsimp only at stored
      cases read : blockRead fs.blocks b with
      | none =>
          rw [read] at stored
          cases stored
      | some data =>
          rw [read] at stored
          cases stored
          refine ⟨absent.place ne _ _ _ _, ?_⟩
          rw [addBlockToCache, content_addBlockAt h.ledger.unwrapped _ _ _ _ inside]
          exact Table.evict_of_ne _ (absent _)

theorem Inv.spares_writeBlock (h : Inv own top fs) {file b start : Nat} {chunk : List UInt8}
    {q : WritePhase} (fileBlock : FileBlock own fs.inodeTab b)
    (stored : Snfs.writeBlock fs b start chunk = some fs') (ne : q.pending ≠ some b)
    (inside : ∀ e, q.pending = some e → e < fs.numBlocks) : Leaves file q fs fs' := by
  obtain ⟨fs₁, done, -, frame, same, -⟩ := h.writeBlock fileBlock start chunk
  rw [stored] at done
  cases done
  have other (e : Nat) (pending : q.pending = some e) : e ≠ b := by
    rintro rfl
    exact ne pending
  refine ⟨frame.type, fun p ptr => ⟨same.ptrTo ptr, same.deref p⟩, fun e pending absent => ?_,
    fun e pending absent => ?_⟩
  · exact (h.writeBlock_absent_other stored absent (other e pending) (inside e pending)).1
  · exact (h.writeBlock_absent_other stored absent (other e pending) (inside e pending)).2

theorem LocalsAt.length_chunk {l : WriteLocals} (h : LocalsAt own top call c fs n l) :
    l.chunk.length = min (512 - l.start) (call.data.length - n) := by
  rw [WriteLocals.chunk, List.length_take, h.rest, List.length_drop, blockSize]
  omega

theorem LocalsAt.owned {l : WriteLocals} (h : LocalsAt own top call c fs n l) (more : l.rest ≠ []) :
    own (c.blocks l.iblock) = some (call.file, l.iblock) := by
  refine h.given _ ?_
  have position := h.position more
  have left := List.length_pos_of_ne_nil more
  rw [h.rest, List.length_drop] at left
  omega

theorem LocalsAt.next {l : WriteLocals} (h : LocalsAt own top call c fs n l) (more : l.rest ≠ [])
    (same : SameInodes fs fs') :
    LocalsAt own top call c fs' (n + l.chunk.length) l.next := by
  have chunk := h.length_chunk
  have le := h.le
  have length : l.rest.length = call.data.length - n := by rw [h.rest, List.length_drop]
  have rest : l.next.rest = call.data.drop (n + l.chunk.length) := by
    rw [WriteLocals.next, WriteLocals.chunk, List.length_take, h.rest, List.drop_drop, Nat.min_assoc,
      Nat.min_self]
  refine ⟨h.used, h.given, ?_, same.ptrTo h.ptr, (same.deref _).trans h.copy, by omega, rest, Nat.zero_lt_succ _,
    fun further => ?_, h.stop⟩
  · rw [same.inodeTab]
    exact h.isFile
  · have left := List.length_pos_of_ne_nil further
    rw [rest, List.length_drop] at left
    have position := h.position more
    have start := h.start
    simp only [WriteLocals.next]
    omega

theorem WriteAt.le {p : WritePhase} (h : WriteAt own top call c fs n p) : n ≤ call.data.length := by
  cases h with
  | start | failed => exact Nat.zero_le _
  | round locals | located locals | missed locals | fetched locals => exact locals.le
  | done => exact Nat.le_refl _

theorem WriteAt.pending_lt {p : WritePhase} {b : Nat} (h : WriteAt own top call c fs n p)
    (inv : Inv own top fs) (pending : p.pending = some b) : b < fs.numBlocks := by
  cases h with
  | start | round | located | failed | done => cases pending
  | missed locals more | fetched locals more =>
      cases pending
      exact (inv.owned_range (locals.owned more)).2

/-- What a round does to the bytes of the file. -/
theorem Inv.write_round (h : Inv own top fs) {l : WriteLocals}
    (locals : LocalsAt own top call c fs n l)
    (more : l.rest ≠ [])
    (stored : Snfs.writeBlock fs (c.blocks l.iblock) l.start l.chunk = some fs') {q : Nat}
    (owned : own (c.blocks (q / 512)) = some (call.file, q / 512)) :
    fileByte fs'.lblk c q =
      if call.offset + n ≤ q ∧ q < call.offset + (n + l.chunk.length)
      then call.data.getD (q - call.offset) 0 else fileByte fs.lblk c q := by
  have here := locals.owned more
  obtain ⟨fs₁, done, -, -, -, -, spliced, other⟩ :=
    h.writeBlock ⟨_, _, here, locals.isFile⟩ l.start l.chunk
  rw [stored] at done
  cases done
  have position := locals.position more
  have start := locals.start
  have chunk := locals.length_chunk
  by_cases mine : q / 512 = l.iblock
  · rw [fileByte_splice (mine ▸ rfl) spliced]
    by_cases written : l.start ≤ q % 512 ∧ q % 512 < l.start + l.chunk.length
    · have index : q - call.offset = n + (q % 512 - l.start) := by omega
      rw [if_pos written, if_pos (by omega), index, WriteLocals.chunk, locals.rest,
        List.getD_eq_getElem?_getD, List.getElem?_take_of_lt, List.getElem?_drop,
        ← List.getD_eq_getElem?_getD]
      simp only [List.length_drop, blockSize]
      omega
    · rw [if_neg written, if_neg (by omega)]
  · have apart : c.blocks (q / 512) ≠ c.blocks l.iblock := by
      intro same
      rw [same, here] at owned
      simp only [Option.some.injEq, Prod.mk.injEq, true_and] at owned
      exact mine owned.symm
    obtain ⟨low, lt⟩ := h.owned_range owned
    rw [if_neg (by omega)]
    simp only [fileByte, blockSize, other _ low lt apart]

section Both
variable {calls : Bool → WriteCall} {file : Nat} {s s' : Writers} {t : Bool} {p : WritePhase}
  {m : Bool → Nat}

/-- The bytes of the file when call `t` has written its first `m t` bytes. -/
structure Merges (own : Ledger) (calls : Bool → WriteCall) (file : Nat) (fs₀ : Fs)
    (m : Bool → Nat) (fs : Fs) : Prop where
  written : ∀ t q, own ((fs₀.seen file).blocks (q / 512)) = some (file, q / 512) →
    (calls t).offset ≤ q → q < (calls t).offset + m t →
      fileByte fs.lblk (fs₀.seen file) q = (calls t).data.getD (q - (calls t).offset) 0
  old : ∀ q, own ((fs₀.seen file).blocks (q / 512)) = some (file, q / 512) →
    (∀ t, ¬ ((calls t).offset ≤ q ∧ q < (calls t).offset + m t)) →
      fileByte fs.lblk (fs₀.seen file) q = fileByte fs₀.lblk (fs₀.seen file) q

/-- What holds of two calls that meet the condition: each has written its first bytes, and they
have not missed the same block. -/
structure Writing (own : Ledger) (top : Nat) (calls : Bool → WriteCall) (file : Nat) (fs₀ : Fs)
    (m : Bool → Nat) (s : Writers) : Prop where
  inv : Inv own top s.fs
  seen : s.fs.seen file = fs₀.seen file
  stands : ∀ t, WriteAt own top (calls t) (fs₀.seen file) s.fs (m t) (s.phase t)
  apart : ∀ t b, (s.phase t).pending = some b → (s.phase !t).pending ≠ some b
  bytes : Merges own calls file fs₀ m s.fs

private theorem writersStep_cases (next : writersStep calls s t = some (p, s')) :
    writeStep (calls t) s.fs (s.phase t) = some (p, s'.fs) ∧
      s' = ⟨s'.fs, Function.update s.phase t p⟩ := by
  rw [writersStep] at next
  obtain ⟨⟨p₁, fs₁⟩, step, same⟩ := Option.map_eq_some_iff.mp next
  cases same
  exact ⟨step, rfl⟩

/-- A step of one call that leaves the other one. -/
theorem Writing.move (h : Writing own top calls file fs₀ m s) (within : WithinFile fs₀ file calls)
    {k : Nat} (inv : Inv own top fs') (seen : fs'.seen file = fs₀.seen file)
    (stands : WriteAt own top (calls t) (fs₀.seen file) fs' k p)
    (leaves : Leaves file (s.phase !t) s.fs fs')
    (apart : ∀ b, p.pending = some b → (s.phase !t).pending ≠ some b)
    (bytes : Merges own calls file fs₀ (Function.update m t k) fs') :
    Writing own top calls file fs₀ (Function.update m t k)
      ⟨fs', Function.update s.phase t p⟩ := by
  refine ⟨inv, seen, fun u => ?_, fun u b pending => ?_, bytes⟩ <;> dsimp only at *
  · rcases Bool.eq_or_eq_not u t with rfl | rfl
    · rwa [Function.update_self, Function.update_self]
    · rw [Function.update_of_ne (Bool.not_ne_self t), Function.update_of_ne (Bool.not_ne_self t)]
      refine (h.stands !t).congr ?_
      rwa [within.onFile]
  · rcases Bool.eq_or_eq_not u t with rfl | rfl
    · rw [Function.update_self] at pending
      rw [Function.update_of_ne (Bool.not_ne_self u)]
      exact apart b pending
    · rw [Function.update_of_ne (Bool.not_ne_self t)] at pending
      rw [Bool.not_not, Function.update_self]
      exact fun both => apart b both pending

theorem Writing.stay (h : Writing own top calls file fs₀ m s) (within : WithinFile fs₀ file calls)
    (stands : WriteAt own top (calls t) (fs₀.seen file) s.fs (m t) p)
    (apart : ∀ b, p.pending = some b → (s.phase !t).pending ≠ some b) :
    Writing own top calls file fs₀ m ⟨s.fs, Function.update s.phase t p⟩ := by
  have moved := h.move within h.inv h.seen stands (.refl file _ s.fs) apart
    (by rw [Function.update_eq_self]; exact h.bytes)
  rwa [Function.update_eq_self] at moved

theorem Writing.opened (h : Writing own top calls file fs₀ m s)
    (within : WithinFile fs₀ file calls) {q : InodePtr}
    (opened : Snfs.openInode s.fs file = some (q, fs'))
    (stands : WriteAt own top (calls t) (fs₀.seen file) fs' (m t) p)
    (idle : p.pending = none) :
    Writing own top calls file fs₀ m ⟨fs', Function.update s.phase t p⟩ := by
  obtain ⟨-, inv, -⟩ := h.inv.openInode opened
  obtain ⟨cache, blocks, seen, -⟩ := openInode_kept opened
  have lblk : fs'.lblk = s.fs.lblk := by
    funext b
    rw [Fs.lblk, Fs.lblk, cache, blocks]
  have bytes : Merges own calls file fs₀ m fs' := by
    refine ⟨?_, ?_⟩ <;> rw [lblk]
    · exact h.bytes.written
    · exact h.bytes.old
  have moved := h.move within inv (seen.trans h.seen) stands (h.inv.spares_open _ opened)
    (fun b pending => by rw [idle] at pending; cases pending)
    (by rw [Function.update_eq_self]; exact bytes)
  rwa [Function.update_eq_self] at moved

theorem Writing.round (h : Writing own top calls file fs₀ m s) (within : WithinFile fs₀ file calls)
    {l : WriteLocals} (locals : LocalsAt own top (calls t) (fs₀.seen file) s.fs (m t) l)
    (more : l.rest ≠ [])
    (stored : writeBlock s.fs ((fs₀.seen file).blocks l.iblock) l.start l.chunk = some fs')
    (alone : (s.phase !t).pending ≠ some ((fs₀.seen file).blocks l.iblock)) :
    Writing own top calls file fs₀ (Function.update m t (m t + l.chunk.length))
      ⟨fs', Function.update s.phase t (.round l.next)⟩ := by
  have onFile := within.onFile t
  have fileBlock : FileBlock own s.fs.inodeTab ((fs₀.seen file).blocks l.iblock) :=
    ⟨_, _, locals.owned more, locals.isFile⟩
  obtain ⟨fs₁, done, inv, -, same, -⟩ := h.inv.writeBlock fileBlock l.start l.chunk
  rw [stored] at done
  cases done
  have chunk := locals.length_chunk
  have le := locals.le
  refine h.move within inv ((same.seen file).trans h.seen) (.round (locals.next more same))
    (h.inv.spares_writeBlock fileBlock stored alone fun _ pending =>
      (h.stands !t).pending_lt h.inv pending) (fun _ pending => nomatch pending)
    ⟨fun u q owned low high => ?_, fun q owned outside => ?_⟩
  · rw [h.inv.write_round locals more stored (onFile ▸ owned)]
    rcases Bool.eq_or_eq_not u t with rfl | rfl
    · rw [Function.update_self] at high
      split
      · rfl
      · exact h.bytes.written u q owned low (by omega)
    · -- the other call's range
      rw [Function.update_of_ne (Bool.not_ne_self t)] at high
      have bound := (h.stands !t).le
      rw [if_neg]
      · exact h.bytes.written _ q owned low high
      · have disjoint := within.disjoint
        cases t <;> simp only [Bool.not_true, Bool.not_false] at * <;> omega
  · rw [h.inv.write_round locals more stored (onFile ▸ owned), if_neg]
    · refine h.bytes.old q owned fun u => ?_
      have apart := outside u
      rcases Bool.eq_or_eq_not u t with rfl | rfl
      · rw [Function.update_self] at apart
        omega
      · rwa [Function.update_of_ne (Bool.not_ne_self t)] at apart
    · have apart := outside t
      rw [Function.update_self] at apart
      omega

/-- Steps 1 to 3 inside the size of the file. -/
theorem Writing.begin (h : Writing own top calls file fs₀ m s) (within : WithinFile fs₀ file calls)
    (none : m t = 0) {r : Option (InodePtr × Nat)}
    (begins : beginWrite s.fs (calls t).file (calls t).offset (calls t).data.length = (r, fs')) :
    match r with
    | Option.none => Writing own top calls file fs₀ m
        ⟨fs', Function.update s.phase t (.returned false)⟩
    | some (ifile, pos) => Writing own top calls file fs₀ m
        ⟨fs', Function.update s.phase t (.round ⟨ifile, pos / blockSize, pos % blockSize,
          (calls t).data, u32 (pos + (calls t).data.length)⟩)⟩ := by
  have onFile := within.onFile t
  have inside := within.inside t
  rw [← h.seen] at inside
  have pos : writePos (s.fs.seen file) (calls t).offset = (calls t).offset := by
    rw [writePos]
    omega
  have needed : blocksNeeded (s.fs.seen file) ((calls t).offset + (calls t).data.length) = 0 :=
    Nat.sub_eq_zero_of_le (offsetToBlocks_mono inside)
  by_cases lt : file < top
  swap
  · -- the inode is not in use
    rw [onFile, beginWrite] at begins
    have unused := h.inv.openInode_eq_none.mpr (Nat.not_lt.mp lt)
    have same : r = Option.none ∧ fs' = s.fs := by
      rw [unused] at begins
      split at begins <;> cases begins <;> exact ⟨rfl, rfl⟩
    obtain ⟨rfl, rfl⟩ := same
    exact h.stay within (none ▸ .failed) (by simp [WritePhase.pending])
  have owned := h.inv.owned_seen lt
  have size := owned.size_le
  have small : (calls t).data.length ≤ 2 ^ 31 := by omega
  have ends := h.inv.beginWrite file (calls t).offset small
    (by rw [pos, needed]; exact .inr (Nat.zero_le _))
  rw [← onFile] at ends
  rw [begins, onFile] at ends
  cases ends with
  | unused out => exact absurd lt (Nat.not_lt.mpr out)
  | refused opened why => exact h.opened within opened (none ▸ .failed) rfl
  | full opened isFile fits few alloc left kept =>
      rw [pos, needed] at few
      exact absurd few (Nat.not_lt_zero _)
  | extended opened grows =>
      have past := grows.grows
      rw [pos] at past
      omega
  | inside opened isFile le =>
      obtain ⟨-, -, quiet, ptr, copy, -⟩ := h.inv.openInode opened
      refine h.opened within opened ?_ rfl
      rw [none, pos]
      refine .round ⟨onFile ▸ lt, fun i hi => ?_, ?_, ?_, ?_, Nat.zero_le _, rfl, Nat.mod_lt _ (by decide),
        fun _ => ?_, u32_of_lt (by omega)⟩
      · rw [onFile, ← h.seen]
        exact owned.owned_used (Inode.lt_used.mpr (by omega))
      · rw [onFile]
        exact (quiet.type file).trans isFile
      · rwa [onFile]
      · exact copy.trans h.seen
      · simp only [blockSize]
        omega

theorem Writing.step (h : Writing own top calls file fs₀ m s) (within : WithinFile fs₀ file calls)
    (unshared : Unshared s t) (next : writersStep calls s t = some (p, s')) :
    ∃ m', Writing own top calls file fs₀ m' s' := by
  obtain ⟨step, same⟩ := writersStep_cases next
  have effect := writeStep_effect step
  have stands := h.stands t
  rw [same]
  generalize s'.fs = fs' at effect
  generalize here : s.phase t = q at effect stands
  generalize hk : m t = k at stands
  have apart (b : Nat) (pending : q.pending = some b) : (s.phase !t).pending ≠ some b :=
    h.apart t b (by rwa [here])
  cases effect with
  | failed begins =>
      cases stands
      exact ⟨m, h.begin within hk begins⟩
  | began begins =>
      cases stands
      exact ⟨m, h.begin within hk begins⟩
  | ended empty inside =>
      cases stands with
      | round locals =>
          have all : (calls t).data.length = m t := by
            have rest := locals.rest
            rw [empty] at rest
            have le := List.drop_eq_nil_iff.mp rest.symm
            have := locals.le
            omega
          refine ⟨m, h.stay within ?_ fun _ pending => nomatch pending⟩
          rw [← all]
          exact .done locals.used
  | grows empty past =>
      cases stands with
      | round locals =>
          have inside := within.inside t
          rw [locals.copy, locals.stop] at past
          omega
  | located more =>
      cases stands with
      | round locals =>
          rw [locals.copy]
          exact ⟨m, h.stay within (.located (hk ▸ locals) more) fun _ pending => nomatch pending⟩
  | hit present stored =>
      cases stands with
      | located locals more =>
          refine ⟨_, h.round within (hk ▸ locals) more stored fun pending => ?_⟩
          rcases unshared with none | other
          · rw [here] at none
            cases none
          · rw [here, pending] at other
            exact other rfl
  | missed absent =>
      cases stands with
      | located locals more =>
          refine ⟨m, h.stay within (.missed (hk ▸ locals) more absent) fun b pending both => ?_⟩
          cases pending
          rcases unshared with none | other
          · rw [here] at none
            cases none
          · rw [here, both] at other
            exact other rfl
  | unread out =>
      cases stands with
      | missed locals more absent =>
          have inside := (h.inv.owned_range (locals.owned more)).2
          omega
  | fetched inside =>
      cases stands with
      | missed locals more absent =>
          exact ⟨m, h.stay within (.fetched (hk ▸ locals) more absent rfl) apart⟩
  | inserted =>
      cases stands with
      | fetched locals more absent current =>
          have inside := (h.inv.owned_range (locals.owned more)).2
          refine ⟨_, h.round within (hk ▸ locals) more ?_ (apart _ rfl)⟩
          rw [writeBlock_absent absent inside, current]
  | grown => cases stands

theorem Writing.of_run {trace : List (Bool × WritePhase)} (inv : Inv own top fs₀)
    (within : WithinFile fs₀ file calls)
    (run : Run (Guarded (fun s e => Unshared s e.1) (Next (writersStep calls)))
      ⟨fs₀, fun _ => .start⟩ trace s) : ∃ m, Writing own top calls file fs₀ m s := by
  refine run.invariant (I := fun s => ∃ m, Writing own top calls file fs₀ m s) ?_ ?_
  · have bytes : Merges own calls file fs₀ (fun _ => 0) fs₀ :=
      ⟨fun _ _ _ low high => absurd high (Nat.not_lt.mpr low), fun _ _ _ => rfl⟩
    exact ⟨fun _ => 0, inv, rfl, fun _ => .start, (fun _ _ pending => nomatch pending), bytes⟩
  · rintro s ⟨t, p⟩ s' ⟨m, h⟩ ⟨unshared, next⟩
    exact h.step within unshared next

/-- Slots that do not claim block 0 hold different blocks. -/
theorem Inv.single_blocks (h : Inv own top fs) {b : Nat} (ne : b ≠ 0) :
    fs.blockCache.Single b := by
  by_cases data : 10 ≤ b
  · exact h.blocks.single b data
  · refine Table.Single.of_absent fun s key => ?_
    rcases h.blocks.slot s with ⟨zero, -⟩ | ⟨a, i, given, -⟩
    · exact ne (key.symm.trans zero)
    · have := (h.owned_range given).1
      omega

theorem Writing.content (h : Writing own top calls file fs₀ m s) (base : Inv own top fs₀)
    (within : WithinFile fs₀ file calls) (done : ∀ t, s.phase t = .returned true) (t : Bool) :
    Snfs.content s.fs file =
      overwrite (overwrite (Snfs.content fs₀ file) (calls t).offset (calls t).data)
        (calls !t).offset (calls !t).data := by
  have ended (u : Bool) : m u = (calls u).data.length ∧ (calls u).file < top := by
    have stands := h.stands u
    rw [done u] at stands
    generalize m u = k at stands
    cases stands with
    | done used => exact ⟨rfl, used⟩
  have all (u : Bool) : m u = (calls u).data.length := (ended u).1
  have inside (u : Bool) : (calls u).offset + (calls u).data.length ≤ (fs₀.seen file).size :=
    within.inside u
  have first := inside t
  have second := inside !t
  have length := length_content fs₀ file
  have once : (overwrite (Snfs.content fs₀ file) (calls t).offset (calls t).data).length =
      (fs₀.seen file).size := by
    rw [length_overwrite (by omega)]
    omega
  apply List.ext_getElem?
  intro q
  rw [getElem?_overwrite (by omega), getElem?_overwrite (by omega), getElem?_content,
    getElem?_content, h.seen]
  by_cases lt : q < (fs₀.seen file).size
  swap
  · rw [if_neg lt, if_neg (by omega), if_neg (by omega), if_neg lt]
  have used : file < top := by
    rw [← within.onFile t]
    exact (ended t).2
  have owned : own ((fs₀.seen file).blocks (q / 512)) = some (file, q / 512) :=
    (base.owned_seen used).owned_used (Inode.lt_used.mpr (by omega))
  rw [if_pos lt, if_pos lt]
  have written (u : Bool) (low : (calls u).offset ≤ q)
      (high : q < (calls u).offset + (calls u).data.length) :
      some (fileByte s.fs.lblk (fs₀.seen file) q) = (calls u).data[q - (calls u).offset]? := by
    have bound : q - (calls u).offset < (calls u).data.length := by omega
    rw [h.bytes.written u q owned low (by rwa [all]), List.getD_eq_getElem?_getD]
    simp [bound]
  by_cases second : (calls !t).offset ≤ q ∧ q < (calls !t).offset + (calls !t).data.length
  · rw [if_pos second]
    exact written _ second.1 second.2
  rw [if_neg second]
  by_cases first : (calls t).offset ≤ q ∧ q < (calls t).offset + (calls t).data.length
  · rw [if_pos first]
    exact written _ first.1 first.2
  have neither (u : Bool) : ¬ ((calls u).offset ≤ q ∧ q < (calls u).offset + m u) := by
    rw [all]
    rcases Bool.eq_or_eq_not u t with rfl | rfl
    · exact first
    · exact second
  rw [if_neg first, h.bytes.old q owned neither]

/-- In any order of their critical sections, two writes to disjoint parts of a file come through if
no call looks up a block between the other one's miss and its insertion. -/
theorem writers_merge {num : Nat} {clock : Nat → Int} {boot fs : Fs}
    {ops : List (FsOp × FsResult)} (data : 10 ≤ num) (unwrapped : num * blockSize < 2 ^ 32)
    (started : fsBoot num clock = some boot)
    (run : Run (Guarded (fun s e => Within s e.1) FsNext) boot ops fs)
    (within : WithinFile fs file calls) {trace : List (Bool × WritePhase)}
    (writers : Run (Guarded (fun s e => Unshared s e.1) (Next (writersStep calls)))
      ⟨fs, fun _ => .start⟩ trace s)
    (done : ∀ t, s.phase t = .returned true) : BothWritten fs s.fs file calls := by
  obtain ⟨own, top, inv, -⟩ := within_inv data unwrapped started run
  obtain ⟨m, writing⟩ := Writing.of_run inv within writers
  exact ⟨writing.content inv within done, fun _ ne => writing.inv.single_blocks ne⟩

end Both

def WritePhase.outcome : WritePhase → Option Bool
  | .returned ok => some ok
  | _ => none

theorem WritePhase.of_outcome {p : WritePhase} {ok : Bool} (h : p.outcome = some ok) :
    p = .returned ok := by
  cases p <;> cases h
  rfl

def twoBytes (t : Bool) : WriteCall := ⟨2, if t then 1 else 0, [if t then 4 else 3]⟩

def evictingCalls : List FsOp :=
  [.create 1 [97], .create 1 [98], .getAttrs 2, .write 2 0 [1, 2], .getAttrs 3] ++
    (List.range 5).map fun k => .write 3 (1024 * k) (List.replicate 1024 0)

/-- The second call waits with its lookup until the first one has inserted the block. -/
theorem writers_merge_in_turn :
    ∃ trace fs s, (fsAfter 24 (fun _ => 1) evictingCalls).map Prod.snd = some fs ∧
      execute (writersStep twoBytes) ⟨fs, fun _ => .start⟩
        (List.replicate 4 false ++ List.replicate 2 true ++ List.replicate 2 false ++
          List.replicate 2 true) = some (trace, s) ∧
      BothWritten fs s.fs 2 twoBytes := by
  have boots : ((fsBoot 24 fun _ => 1).bind fun boot =>
      (execute fsStep boot evictingCalls).bind fun r =>
        (execute (writersStep twoBytes) ⟨r.2, fun _ => .start⟩
          (List.replicate 4 false ++ List.replicate 2 true ++ List.replicate 2 false ++
            List.replicate 2 true)).map fun q =>
          (decide (Meets fsStep Within boot evictingCalls ∧ (r.2.seen 2).size = 2),
            decide (Meets (writersStep twoBytes) Unshared ⟨r.2, fun _ => .start⟩
              (List.replicate 4 false ++ List.replicate 2 true ++ List.replicate 2 false ++
                List.replicate 2 true)),
            decide ((q.2.phase false).outcome = some true ∧
              (q.2.phase true).outcome = some true))) = some (true, true, true) := by
    decide +kernel
  obtain ⟨boot, started, facts⟩ := Option.bind_eq_some_iff.mp boots
  obtain ⟨⟨ops, fs⟩, called, facts⟩ := Option.bind_eq_some_iff.mp facts
  obtain ⟨⟨trace, s⟩, executed, facts⟩ := Option.map_eq_some_iff.mp facts
  simp only [Prod.mk.injEq, decide_eq_true_eq] at facts
  obtain ⟨⟨met, size⟩, unshared, done, done'⟩ := facts
  refine ⟨trace, fs, s, by rw [fsAfter, started, Option.bind_some, called]; rfl, executed, ?_⟩
  refine writers_merge (by decide) (by decide) started (run_of_execute called met)
    ⟨by decide, fun t => ?_, by decide⟩ (run_of_execute executed unshared) fun t => ?_
  · rw [size]
    cases t <;> decide
  · cases t
    · exact WritePhase.of_outcome done
    · exact WritePhase.of_outcome done'

/-- Both calls miss the block, and the one that inserts it last wins. -/
theorem write_is_lost :
    ¬ ∀ num clock ops fs file calls trace s, 10 ≤ num → FsRun num clock ops fs →
      WithinFile fs file calls → Run (Next (writersStep calls)) ⟨fs, fun _ => .start⟩ trace s →
      (∀ t, s.phase t = .returned true) → BothWritten fs s.fs file calls := by
  intro merge
  have boots : ((fsAfter 24 (fun _ => 1) evictingCalls).bind fun r =>
      (execute (writersStep twoBytes) ⟨r.2, fun _ => .start⟩
        (List.replicate 4 false ++ List.replicate 6 true ++ List.replicate 2 false)).map fun q =>
          (decide ((r.2.seen 2).size = 2 ∧ content r.2 2 = [1, 2] ∧ content q.2.fs 2 = [3, 2]),
            decide ((q.2.phase false).outcome = some true ∧
              (q.2.phase true).outcome = some true))) = some (true, true) := by
    decide +kernel
  obtain ⟨⟨ops, fs⟩, called, facts⟩ := Option.bind_eq_some_iff.mp boots
  obtain ⟨⟨trace, s⟩, executed, facts⟩ := Option.map_eq_some_iff.mp facts
  simp only [Prod.mk.injEq, decide_eq_true_eq] at facts
  obtain ⟨⟨size, before, after⟩, done, done'⟩ := facts
  have both := merge 24 _ ops fs 2 twoBytes trace s (by decide)
    (FsRun.of_calls called (by decide +kernel)) ⟨by decide, fun t => by rw [size]; cases t <;> decide,
      by decide⟩ (run_of_executed executed) (fun t => by
      cases t
      · exact WritePhase.of_outcome done
      · exact WritePhase.of_outcome done')
  have content := both.content false
  rw [before, after] at content
  exact absurd content (by decide)

end Snfs
