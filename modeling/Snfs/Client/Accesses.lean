import Snfs.Client.Opening
import Snfs.Client.Writing
import Snfs.Client.Session

/-!
A file through the library, the socket and the server. A result about the loops of `my_read`
and `my_write` against a server that answers from byte lists is one about the whole system, and
a descriptor shows the bytes of its file over any sequence of calls.
-/

namespace Snfs

open Runs

section Agree
variable {σ τ : Type} {remote : RemoteCall σ} {remote' : RemoteCall τ} {R : σ → τ → Prop}
  {fileId : Int}

/-- Where reads give the same, the loop of `my_read` ends alike. -/
theorem readChunks_agrees (agree : ∀ s t offset count, R s t → offset < 2 ^ 32 →
      count ≤ maxReadData → (remote.read s fileId offset count).1 =
        (remote'.read t fileId offset count).1 ∧
      R (remote.read s fileId offset count).2 (remote'.read t fileId offset count).2)
    {fuel n r : Nat} (chunk : r ≤ maxReadData) (counter : Int) (buffer : CallerMemory)
    (fd : FileDesc) {s : σ} {t : τ} (related : R s t) {e' : ReadEnd τ}
    (ends : readChunks remote' fileId fuel n r counter buffer fd t = some e') :
    ∃ e, readChunks remote fileId fuel n r counter buffer fd s = some e ∧
      e.result = e'.result ∧ e.buffer = e'.buffer ∧ e.fdesc = e'.fdesc ∧ R e.state e'.state := by
  induction fuel generalizing n r counter buffer fd s t with
  | zero =>
      cases n with
      | zero =>
          cases ends
          exact ⟨_, rfl, rfl, rfl, rfl, related⟩
      | succ n => cases ends
  | succ fuel ih =>
      cases n with
      | zero =>
          cases ends
          exact ⟨_, rfl, rfl, rfl, rfl, related⟩
      | succ n =>
          have small : min r (n + 1) ≤ maxReadData := Nat.le_trans (Nat.min_le_left _ _) chunk
          obtain ⟨same, after⟩ := agree s t (intWord fd.readOffset) (min r (n + 1)) related
            (intWord_lt _) small
          rw [readChunks] at ends ⊢
          generalize remote.read s fileId (intWord fd.readOffset) (min r (n + 1)) = x
            at same after ⊢
          generalize remote'.read t fileId (intWord fd.readOffset) (min r (n + 1)) = y
            at same after ends
          obtain ⟨answer, s₁⟩ := x
          obtain ⟨answer', t₁⟩ := y
          cases same
          cases answer with
          | none =>
              cases ends
              exact ⟨_, rfl, rfl, rfl, rfl, after⟩
          | some got => exact ih small _ _ _ after ends

private theorem writeChunks_agrees (agree : ∀ s t offset data, R s t → offset < 2 ^ 32 →
      data.length ≤ maxWriteData → (remote.write s fileId offset data).1 =
        (remote'.write t fileId offset data).1 ∧
      R (remote.write s fileId offset data).2 (remote'.write t fileId offset data).2)
    {fuel r : Nat} (chunk : r ≤ maxWriteData) (counter : Int) (rest : List UInt8) (fd : FileDesc)
    {s : σ} {t : τ} (related : R s t) :
    (writeChunks remote fileId fuel r counter rest fd s).1 =
        (writeChunks remote' fileId fuel r counter rest fd t).1 ∧
      (writeChunks remote fileId fuel r counter rest fd s).2.1 =
        (writeChunks remote' fileId fuel r counter rest fd t).2.1 ∧
      R (writeChunks remote fileId fuel r counter rest fd s).2.2
        (writeChunks remote' fileId fuel r counter rest fd t).2.2 := by
  induction fuel generalizing r counter rest fd s t with
  | zero => exact ⟨rfl, rfl, related⟩
  | succ fuel ih =>
      rw [writeChunks, writeChunks]
      by_cases done : rest = []
      · rw [if_pos done, if_pos done]
        exact ⟨rfl, rfl, related⟩
      rw [if_neg done, if_neg done]
      have small : min r rest.length ≤ maxWriteData := Nat.le_trans (Nat.min_le_left _ _) chunk
      obtain ⟨same, after⟩ := agree s t (intWord fd.writeOffset) (rest.take (min r rest.length))
        related (intWord_lt _) (Nat.le_trans (List.length_take_le _ _) small)
      dsimp only
      generalize remote.write s fileId (intWord fd.writeOffset) (rest.take (min r rest.length)) = x
        at same after ⊢
      generalize remote'.write t fileId (intWord fd.writeOffset) (rest.take (min r rest.length)) = y
        at same after ⊢
      obtain ⟨answer, s₁⟩ := x
      obtain ⟨answer', t₁⟩ := y
      cases same
      cases answer with
      | none => exact ⟨rfl, rfl, after⟩
      | some fsize => exact ih small _ _ _ after

end Agree

variable {s : Session} {fs : Fs} {files : FileModel} {a : Nat} {bytes : List UInt8}

private theorem piece_available {fd : FileDesc} {r : Nat} (offset : fd.readOffset = r)
    (size : fd.size = bytes.length) (small : r < 2 ^ 32) (numBytes : Nat) :
    piece bytes r (fd.available numBytes) = piece bytes r numBytes ∧
      fd.available numBytes = (piece bytes r numBytes).length := by
  have word : intWord fd.readOffset = r := by
    rw [offset, intWord]
    omega
  have length := length_piece bytes r numBytes
  have all : fd.available numBytes = min numBytes (bytes.length - r) := by
    rw [FileDesc.available, word, size]
  refine ⟨?_, all.trans length.symm⟩
  rw [piece, piece, all, ← List.length_drop, ← List.take_eq_take_min]

/-- `my_read` over the socket gives the bytes that the file has on the server. -/
theorem Session.Holds.myRead (holds : s.Holds files) (cached : s.Caches a)
    (listed : files a = some bytes) {lib : Lib} (initted : lib.libInitted = true) {fd : FileDesc}
    (found : queueNodeGet lib.openFilesList a = some fd) {r : Nat} (offset : fd.readOffset = r)
    (size : fd.size = bytes.length) (inside : r ≤ bytes.length) {numBytes : Nat}
    (asked : r + numBytes < 2 ^ 32) (buffer : CallerMemory) :
    ∃ (fuel : Nat) (s' : Session), (s'.Holds files ∧ s'.Caches a) ∧
      Snfs.myRead remoteCall fuel lib s a buffer numBytes =
      some (((piece bytes r numBytes).length : Int), buffer.store 0 (piece bytes r numBytes),
        { lib with
          openFilesList := queueNodeSet lib.openFilesList a
            { fd with readOffset := (r + (piece bytes r numBytes).length : Nat) } }, s') := by
  have bound := holds.length_le listed
  have short := length_piece bytes r numBytes
  have word : intWord fd.readOffset = r := by
    rw [offset, intWord]
    omega
  by_cases atEnd : r = bytes.length
  · have none : piece bytes r numBytes = [] :=
      List.length_eq_zero_iff.mp (by omega)
    refine ⟨0, s, ⟨holds, cached⟩, ?_⟩
    rw [none, CallerMemory.store_nil, List.length_nil, Nat.add_zero, ← offset,
      queueNodeSet_self found, Snfs.myRead, initted, found]
    simp [word, size, atEnd]
    rw [← initted]
  · have before : intWord fd.readOffset < fd.size := by omega
    have int : IsInt fd.readOffset := by
      rw [offset]
      exact ⟨by omega, by omega⟩
    have within : intWord fd.readOffset + numBytes < 2 ^ 32 := by omega
    obtain ⟨cut, avail⟩ := piece_available offset size (show r < 2 ^ 32 by omega) numBytes
    have chunk : min (fd.available numBytes) maxReadData ≤ maxReadData := Nat.min_le_right _ _
    have eq (σ : Type) (remote : RemoteCall σ) (s : σ) (fuel : Nat) :
        Snfs.myRead remote fuel _ s _ buffer numBytes = _ :=
      myRead_eq initted found before (by omega) (show numBytes < 2 ^ 32 by omega) buffer s
        (if_pos within).symm fuel
    obtain ⟨fuel, buffer', _, ends, filled⟩ := myRead_ends (fileServer_serves a bytes) (s := ())
      initted found int size (by omega) before within buffer trivial
    rw [eq] at ends
    obtain ⟨e', loop, same⟩ := Option.map_eq_some_iff.mp ends
    obtain ⟨e, loop', result, mem, fdesc, kept⟩ := readChunks_agrees
      (R := fun (s : Session) (_ : Unit) => s.Holds files ∧ s.Caches a)
      (fun _ _ offset count holds word le => by
        obtain ⟨s', kept, got⟩ := holds.1.read holds.2 listed word le
        rw [got]
        refine ⟨?_, kept⟩
        simp only [RemoteCall.read, fileServer, if_true]) chunk 0 buffer fd ⟨holds, cached⟩ loop
    simp only [Prod.mk.injEq] at same
    obtain ⟨count, stored, lib', -⟩ := same
    refine ⟨fuel, e.state, kept, ?_⟩
    rw [eq, loop', Option.map_some, result, mem, fdesc, count, stored, lib', filled (by omega),
      word, cut, offset, avail, wrapInt_of_isInt ⟨by omega, by omega⟩,
      wrapInt_of_isInt ⟨by omega, by omega⟩]
    rfl

section Guarded
variable {σ : Type} {remote : RemoteCall σ} {I : σ → Prop} {fileId : Int} {file : σ → List UInt8}

/-- A write in a state of `I` overwrites the file and leads to one, or fails and leaves the file. -/
def WritesWithin (remote : RemoteCall σ) (I : σ → Prop) (fileId : Int) (file : σ → List UInt8) :
    Prop :=
  ∀ s offset data, I s → offset < 2 ^ 32 → data.length ≤ maxWriteData →
    (∃ s', remote s (.write fileId offset data.length data) =
        (.ok (.write (file s').length), s') ∧ I s' ∧
      file s' = overwrite (file s) (min offset (file s).length) data) ∨
    ∃ w s', remote s (.write fileId offset data.length data) = (.error w, s') ∧ I s' ∧
      file s' = file s

open Classical in
/-- The stubs in the states of `I`, for offsets that are words. Elsewhere nothing is written. -/
noncomputable def RemoteCall.within (remote : RemoteCall σ) (I : σ → Prop) : RemoteCall σ
  | s, .write fhandle offset count data =>
    if I s ∧ offset < 2 ^ 32 then remote s (.write fhandle offset count data) else (.error 0, s)
  | s, _ => (.error 0, s)

theorem WritesWithin.serves (writes : WritesWithin remote I fileId file) :
    ServesWrites (remote.within I) fileId file := by
  intro s offset data short
  rw [RemoteCall.within]
  split
  · rename_i inside
    rcases writes s offset data inside.1 inside.2 short with ⟨s', sent, -, after⟩ |
      ⟨w, s', sent, -, same⟩
    · exact .inl ⟨s', sent, after⟩
    · exact .inr ⟨w, s', sent, same⟩
  · exact .inr ⟨0, s, rfl, rfl⟩

theorem WritesWithin.agrees (writes : WritesWithin remote I fileId file) (s : σ)
    (t : σ × List Exchange) (offset : Nat) (data : List UInt8) (related : t.1 = s ∧ I s)
    (word : offset < 2 ^ 32) (short : data.length ≤ maxWriteData) :
    (remote.write s fileId offset data).1 =
        ((remote.within I).recorded.write t fileId offset data).1 ∧
      ((remote.within I).recorded.write t fileId offset data).2.1 =
        (remote.write s fileId offset data).2 ∧ I (remote.write s fileId offset data).2 := by
  obtain ⟨t, log⟩ := t
  obtain ⟨rfl, holds⟩ := related
  have same : remote.within I t (.write fileId offset data.length data) =
      remote t (.write fileId offset data.length data) := if_pos ⟨holds, word⟩
  simp only [RemoteCall.write, RemoteCall.recorded, same]
  rcases writes t offset data holds word short with ⟨s', sent, kept, -⟩ | ⟨w, s', sent, kept, -⟩
  · rw [sent]
    exact ⟨rfl, rfl, kept⟩
  · rw [sent]
    exact ⟨rfl, rfl, kept⟩

/-- What the requests of `my_write` that are answered leave is one write of the bytes they
carried. -/
theorem WritesWithin.myWrite (writes : WritesWithin remote I fileId file) {lib : Lib}
    (initted : lib.libInitted = true) {fd : FileDesc}
    (found : queueNodeGet lib.openFilesList fileId = some fd) {w : Nat}
    (offset : fd.writeOffset = w) {s : σ} (holds : I s) (inside : w ≤ (file s).length)
    {data : List UInt8} (small : w + data.length < 2 ^ 31) :
    ∃ result fd' s' log k, Snfs.myWrite remote lib s fileId data =
        (result, { lib with openFilesList := queueNodeSet lib.openFilesList fileId fd' }, s') ∧
      I s' ∧ Written fd fd' w k data.length (file s) (file s') data result log := by
  have bound : maxWriteData = 1024 := rfl
  have chunk : min data.length maxWriteData ≤ maxWriteData := Nat.min_le_right _ _
  obtain ⟨result, fd', s', log, k, loop, written⟩ := writeChunks_written writes.serves
    (Nat.le_refl _) chunk (fun some => by have := List.length_pos_iff.mpr some; omega) offset inside
    small (c := 0) (by omega) []
  rw [Nat.zero_add] at written
  obtain ⟨sameResult, sameDesc, sameState, kept⟩ := @writeChunks_agrees σ (σ × List Exchange) remote
    (remote.within I).recorded (fun s t => t.1 = s ∧ I s) fileId writes.agrees data.length _ chunk
    ((0 : Nat) : Int) data fd s (s, []) ⟨rfl, holds⟩
  rw [loop] at sameResult sameDesc sameState
  have state : s' = (writeChunks remote fileId data.length (min data.length maxWriteData)
    ((0 : Nat) : Int) data fd s).2.2 := sameState
  refine ⟨result, fd', s', _, k, ?_, state.symm ▸ kept, written⟩
  rw [Snfs.myWrite, initted, found]
  simp only [Bool.not_true, Bool.false_eq_true, if_false]
  rw [show (0 : Int) = ((0 : Nat) : Int) from rfl, sameResult, sameDesc, state]

end Guarded

def Session.content (s : Session) (a : Nat) : List UInt8 :=
  match s.server with
  | some fs => Snfs.content fs a
  | none => []

theorem Session.Holds.content_eq (holds : s.Holds files) (listed : files a = some bytes) :
    s.content a = bytes := by
  obtain ⟨fs, own, top, alive, -, tracks⟩ := holds
  rw [Session.content, alive]
  exact (tracks a bytes listed).2.2.2

private theorem remoteCall_writes (files : FileModel) (a : Nat) :
    WritesWithin remoteCall
      (fun s => ∃ xs, s.Holds (Function.update files a (some xs)) ∧ s.Caches a) a
      (·.content a) := by
  rintro s offset data ⟨xs, holds, cached⟩ word short
  have listed : Function.update files a (some xs) a = some xs := Function.update_self _ _ _
  have before := holds.content_eq listed
  rcases holds.write cached listed word short with ⟨s', sent, kept, cached'⟩ |
    ⟨w, s', sent, kept, cached'⟩
  · rw [Function.update_idem] at kept
    have after := kept.content_eq (Function.update_self _ _ _)
    refine .inl ⟨s', ?_, ⟨_, kept, cached'⟩, ?_⟩
    · dsimp only
      rw [sent, after]
    · dsimp only
      rw [before, after]
  · exact .inr ⟨w, s', sent, ⟨_, kept, cached'⟩, (kept.content_eq listed).trans before.symm⟩

theorem Session.Holds.myWrite (holds : s.Holds files) (cached : s.Caches a)
    (listed : files a = some bytes) {lib : Lib} (initted : lib.libInitted = true) {fd : FileDesc}
    (found : queueNodeGet lib.openFilesList a = some fd) {w : Nat} (offset : fd.writeOffset = w)
    (size : fd.size = bytes.length) (inside : w ≤ bytes.length) {data : List UInt8}
    (small : w + data.length < 2 ^ 31) :
    ∃ result fd' s' k, Snfs.myWrite remoteCall lib s a data =
        (result, { lib with openFilesList := queueNodeSet lib.openFilesList a fd' }, s') ∧
      ((result = data.length ∧ k = data.length) ∨ (result = -1 ∧ k < data.length)) ∧
      s'.Holds (Function.update files a (some (overwrite bytes w (data.take k)))) ∧ s'.Caches a ∧
      fd'.fileId = fd.fileId ∧ fd'.readOffset = fd.readOffset ∧ fd'.writeOffset = (w + k : Nat) ∧
      fd'.size = (overwrite bytes w (data.take k)).length := by
  have before := holds.content_eq listed
  have same : Function.update files a (some bytes) = files := by
    rw [← listed, Function.update_eq_self]
  obtain ⟨result, fd', s', log, k, wrote, ⟨bytes', kept, cached'⟩, written⟩ :=
    (remoteCall_writes files a).myWrite initted found offset
      ⟨bytes, same.symm ▸ holds, cached⟩ (before.symm ▸ inside) small
  have file := written.file
  have after := kept.content_eq (Function.update_self _ _ _)
  rw [before, after] at file
  subst file
  refine ⟨result, fd', s', k, wrote, ?_, kept, cached', written.others.1, written.others.2,
    written.advanced, ?_⟩
  · rcases written.returned with ⟨done, all, -⟩ | ⟨failed, some, -⟩
    · exact .inl ⟨done, all⟩
    · exact .inr ⟨failed, some⟩
  · by_cases none : k = 0
    · rw [written.unsized none, size, none, List.take_zero, overwrite_nil]
    · rw [written.size (Nat.pos_of_ne_zero none)]
      exact congrArg List.length after

structure OpenFile where
  bytes : List UInt8
  readOffset : Nat
  writeOffset : Nat

inductive Access where
  | read (buffer : CallerMemory) (numBytes : Nat) (result : Int) (memory : CallerMemory)
  | write (data : List UInt8) (result : Int)

/-- What a call on a file is for: a read gives the bytes from its offset on, a write puts its first
bytes at the other offset, all of them unless it fails, and each goes on behind them. -/
def OpenFile.Allows (file : OpenFile) (e : Access) (file' : OpenFile) : Prop :=
  match e with
  | .read buffer numBytes result memory =>
      ∃ got, got = piece file.bytes file.readOffset numBytes ∧ result = got.length ∧
        memory = buffer.store 0 got ∧
        file' = { file with readOffset := file.readOffset + got.length }
  | .write data result =>
      ∃ k, ((result = data.length ∧ k = data.length) ∨ (result = -1 ∧ k < data.length)) ∧
        file' = { file with
          bytes := overwrite file.bytes file.writeOffset (data.take k)
          writeOffset := file.writeOffset + k }

def AccessStep (fileId : Int) (x : Lib × Session) (e : Access) (y : Lib × Session) : Prop :=
  match e with
  | .read buffer numBytes result memory =>
      ∃ fuel, Snfs.myRead remoteCall fuel x.1 x.2 fileId buffer numBytes = some (result, memory, y)
  | .write data result => Snfs.myWrite remoteCall x.1 x.2 fileId data = (result, y)

/-- A length with which no offset in a file of full size leaves `unsigned` or `int`. -/
def Access.Fits : Access → Prop
  | .read _ numBytes _ _ => 5120 + numBytes < 2 ^ 32
  | .write data _ => 5120 + data.length < 2 ^ 31

structure OpenFile.Shown (files : FileModel) (a : Nat) (file : OpenFile) (x : Lib × Session) :
    Prop where
  initted : x.1.libInitted = true
  found : queueNodeGet x.1.openFilesList a =
    some ⟨a, file.bytes.length, (file.readOffset : Int), (file.writeOffset : Int)⟩
  read_le : file.readOffset ≤ file.bytes.length
  write_le : file.writeOffset ≤ file.bytes.length
  holds : x.2.Holds (Function.update files a (some file.bytes))
  cached : x.2.Caches a

namespace OpenFile.Shown

variable {file : OpenFile} {x y : Lib × Session}

theorem length_le (shown : file.Shown files a x) : file.bytes.length ≤ 5120 :=
  shown.holds.length_le (Function.update_self _ _ _)

theorem read (shown : file.Shown files a x) (buffer : CallerMemory) {numBytes : Nat}
    (fits : 5120 + numBytes < 2 ^ 32) :
    ∃ fuel y, Snfs.myRead remoteCall fuel x.1 x.2 a buffer numBytes =
        some (((piece file.bytes file.readOffset numBytes).length : Int),
          buffer.store 0 (piece file.bytes file.readOffset numBytes), y) ∧
      OpenFile.Shown files a { file with
        readOffset := file.readOffset + (piece file.bytes file.readOffset numBytes).length } y := by
  have size := shown.length_le
  have le := shown.read_le
  have got := length_piece file.bytes file.readOffset numBytes
  obtain ⟨fuel, s', ⟨holds, cached⟩, ends⟩ := shown.holds.myRead shown.cached
    (Function.update_self _ _ _) shown.initted shown.found rfl rfl le
    (show file.readOffset + numBytes < 2 ^ 32 by omega) buffer
  refine ⟨fuel, _, ends, shown.initted, ?_, ?_, shown.write_le, holds, cached⟩
  · exact queueNodeGet_set shown.found rfl
  · dsimp only
    omega

theorem write (shown : file.Shown files a x) {data : List UInt8}
    (fits : 5120 + data.length < 2 ^ 31) :
    ∃ result y k, Snfs.myWrite remoteCall x.1 x.2 a data = (result, y) ∧
      ((result = data.length ∧ k = data.length) ∨ (result = -1 ∧ k < data.length)) ∧
      OpenFile.Shown files a { file with
        bytes := overwrite file.bytes file.writeOffset (data.take k)
        writeOffset := file.writeOffset + k } y := by
  have size := shown.length_le
  have le := shown.write_le
  obtain ⟨result, fd', s', k, wrote, returned, holds, cached, id, offset, advanced, length⟩ :=
    shown.holds.myWrite shown.cached (Function.update_self _ _ _) shown.initted shown.found rfl rfl
      le (show file.writeOffset + data.length < 2 ^ 31 by omega)
  rw [Function.update_idem] at holds
  have taken : (data.take k).length = k := List.length_take_of_le (by omega)
  have grown : (overwrite file.bytes file.writeOffset (data.take k)).length =
      max file.bytes.length (file.writeOffset + k) := by
    rw [length_overwrite le, taken]
  refine ⟨result, _, k, wrote, returned, shown.initted, ?_, ?_, ?_, holds, cached⟩
  · have same : fd' = ⟨a, (overwrite file.bytes file.writeOffset (data.take k)).length,
        (file.readOffset : Int), ((file.writeOffset + k : Nat) : Int)⟩ := by
      cases fd'
      simp only at id offset advanced length
      subst id offset advanced length
      rfl
    rw [queueNodeGet_set shown.found id, same]
  · have := shown.read_le
    dsimp only
    omega
  · dsimp only
    omega

theorem step (shown : file.Shown files a x) {e : Access} (fits : e.Fits)
    (next : AccessStep a x e y) :
    ∃ file', file.Allows e file' ∧ OpenFile.Shown files a file' y := by
  cases e with
  | read buffer numBytes result memory =>
      obtain ⟨fuel, ends⟩ := next
      obtain ⟨fuel', z, ends', shown'⟩ := shown.read buffer fits
      cases myRead_unique ends ends'
      exact ⟨_, ⟨_, rfl, rfl, rfl, rfl⟩, shown'⟩
  | write data result =>
      obtain ⟨result', z, k, wrote, returned, shown'⟩ := shown.write fits
      cases Eq.trans (Eq.symm next) wrote
      exact ⟨_, ⟨k, returned, rfl⟩, shown'⟩

end OpenFile.Shown

section Runs
variable {num : Nat} {clock : Nat → Int} {boot : Fs} {trace : List ((Req × Junk) × (Res × Nat))}

/-- Whatever clients have done to the server: a path that leads to a file is opened as this file,
and whatever calls of `my_read` and `my_write` follow on the descriptor, in any order, they return
what they would on the bytes of the file and leave these on the server. No other file changes. -/
theorem opened_file_is_its_bytes (blocks : 10 ≤ num) (whole : num ≤ bmapBits)
    (started : fsBoot num clock = some boot)
    (run : Run (Guarded (fun s e => RequestMeets KeepsFiles s e.1) (Next serveRequest)) boot trace
      fs)
    (alive : s.server = some fs) (listed : requestModel trace a = some bytes) {name : CString}
    (noZero : (0 : UInt8) ∉ name) (short : name.length ≤ maxFileNameSize)
    (accepted : myparse name = 0) (found : (fsLookup fs name).1 = (1, some a)) {lib : Lib}
    (initted : lib.libInitted = true) (room : lib.openFiles < maxOpenFiles)
    (closed : queueNodeGet lib.openFilesList a = none) (flags : Int) :
    ∃ x : Lib × Session, Snfs.myOpen remoteCall lib s name flags = ((a : Int), x) ∧
      ∀ accesses y, Run (Guarded (fun _ e => e.Fits) (AccessStep a)) x accesses y →
        ∃ file, Run OpenFile.Allows ⟨bytes, 0, 0⟩ accesses file ∧
          y.2.Holds (Function.update (requestModel trace) a (some file.bytes)) ∧
          (∀ buffer numBytes, 5120 + numBytes < 2 ^ 32 → ∃ fuel,
            (Snfs.myRead remoteCall fuel y.1 y.2 a buffer numBytes).isSome) := by
  have unwrapped : num * blockSize < 2 ^ 32 := by
    simp only [bmapBits, blockSize] at whole ⊢
    omega
  obtain ⟨same, own, top, inv, tracks⟩ := tracks_requests blocks unwrapped started run
  obtain ⟨s₁, looked, holds, cached⟩ := Session.lookup alive inv tracks (same ▸ whole) noZero short
    found listed
  have opened : Snfs.myOpen remoteCall lib s name flags =
      ((a : Int), lib.enqueue a bytes.length, s₁) :=
    myOpen_found initted (Int.not_le.mpr room) accepted looked
  refine ⟨_, opened, fun accesses y accessed => ?_⟩
  have first : OpenFile.Shown (requestModel trace) a ⟨bytes, 0, 0⟩
      (lib.enqueue a bytes.length, s₁) := by
    refine ⟨initted, queueNodeGet_enqueue closed, Nat.zero_le _, Nat.zero_le _, ?_, cached⟩
    rwa [← listed, Function.update_eq_self]
  obtain ⟨file, allowed, shown⟩ := accessed.trace_invariant
    (I := fun accesses y => ∃ file, Run OpenFile.Allows ⟨bytes, 0, 0⟩ accesses file ∧
      OpenFile.Shown (requestModel trace) a file y) ⟨_, .nil, first⟩
    (fun accesses x e y ⟨file, allowed, shown⟩ ⟨fits, next⟩ => by
      obtain ⟨file', step, shown'⟩ := shown.step fits next
      exact ⟨file', allowed.snoc step, shown'⟩)
  refine ⟨file, allowed, shown.holds, fun buffer numBytes fits => ?_⟩
  obtain ⟨fuel, _, ends, -⟩ := shown.read buffer fits
  exact ⟨fuel, by rw [ends]; rfl⟩

end Runs

/-- A file that has been made before is opened. -/
theorem opened_file_is_its_bytes_made :
    ∃ (trace : List ((Req × Junk) × (Res × Nat))) (fs : Fs) (x : Lib × Session),
      (fsBoot 16 fun _ => 1).bind (fun boot => execute serveRequest boot fileRequests) =
        some (trace, fs) ∧
      Snfs.myOpen remoteCall myInitLib (sessionWith fs) [47, 102] 0 = (((2 : Nat) : Int), x) ∧
      ∀ accesses y, Run (Guarded (fun _ e => e.Fits) (AccessStep ((2 : Nat) : Int))) x accesses y →
        ∃ file, Run OpenFile.Allows ⟨[1, 2, 3], 0, 0⟩ accesses file ∧
          y.2.Holds (Function.update (requestModel trace) 2 (some file.bytes)) ∧
          (∀ buffer numBytes, 5120 + numBytes < 2 ^ 32 → ∃ fuel,
            (Snfs.myRead remoteCall fuel y.1 y.2 ((2 : Nat) : Int) buffer numBytes).isSome) := by
  have boots : ((fsBoot 16 fun _ => 1).bind fun boot =>
      (execute serveRequest boot fileRequests).map fun r =>
        (decide (Meets serveRequest (RequestMeets KeepsFiles) boot fileRequests),
          requestModel r.1 2, (fsLookup r.2 [47, 102]).1)) =
      some (true, some [1, 2, 3], 1, some 2) := by decide +kernel
  obtain ⟨boot, started, facts⟩ := Option.bind_eq_some_iff.mp boots
  obtain ⟨⟨trace, fs⟩, served, facts⟩ := Option.map_eq_some_iff.mp facts
  simp only [Prod.mk.injEq, decide_eq_true_eq] at facts
  obtain ⟨met, listed, found⟩ := facts
  obtain ⟨x, opened, shown⟩ :=
    opened_file_is_its_bytes (s := sessionWith fs) (by decide) (by decide) started
      (run_of_execute served met) rfl listed (show (0 : UInt8) ∉ [47, 102] by decide) (by decide)
      (by decide) found (show myInitLib.libInitted = true from rfl) (by decide) rfl 0
  exact ⟨trace, fs, x, by rw [started, Option.bind_some, served], opened, shown⟩

end Snfs
