import Snfs.Client.Reading

/-!
The loop of `my_write` against a server that overwrites a file or fails at any request.
What the requests that it has answered leave is one write of the bytes that they carried.
-/

namespace Snfs

variable {σ : Type} {remote : RemoteCall σ}

abbrev Exchange : Type := Call × Except Nat Reply

def RemoteCall.recorded (remote : RemoteCall σ) : RemoteCall (σ × List Exchange) :=
  fun (s, log) call => ((remote s call).1, (remote s call).2, log ++ [(call, (remote s call).1)])

def Exchange.Failed (e : Exchange) : Prop := e.2.isOk = false

/-- A write to the file with this handle puts its bytes there, or at the end if that comes first,
and gives the new size; or it fails and changes nothing. -/
def ServesWrites (remote : RemoteCall σ) (fileId : Int) (file : σ → List UInt8) : Prop :=
  ∀ s offset data, data.length ≤ maxWriteData →
    (∃ s', remote s (.write fileId offset data.length data) =
        (.ok (.write (file s').length), s') ∧
      file s' = overwrite (file s) (min offset (file s).length) data) ∨
    ∃ w s', remote s (.write fileId offset data.length data) = (.error w, s') ∧ file s' = file s

theorem overwrite_nil (xs : List UInt8) (pos : Nat) : overwrite xs pos [] = xs := by
  rw [overwrite, List.append_nil, List.length_nil, Nat.add_zero, List.take_append_drop]

theorem overwrite_append {xs : List UInt8} {pos : Nat} (inside : pos ≤ xs.length)
    (first second : List UInt8) :
    overwrite (overwrite xs pos first) (pos + first.length) second =
      overwrite xs pos (first ++ second) := by
  have longer : pos + first.length ≤ (overwrite xs pos first).length := by
    rw [length_overwrite inside]
    exact Nat.le_max_right _ _
  apply List.ext_getElem?
  intro q
  rw [getElem?_overwrite longer, getElem?_overwrite inside, getElem?_overwrite inside,
    List.length_append]
  by_cases later : pos + first.length ≤ q ∧ q < pos + first.length + second.length
  · rw [if_pos later, if_pos (by omega), List.getElem?_append_right (by omega), Nat.sub_sub]
  · rw [if_neg later]
    by_cases before : pos ≤ q ∧ q < pos + first.length
    · rw [if_pos before, if_pos (by omega), List.getElem?_append_left (by omega)]
    · rw [if_neg before, if_neg (by omega)]

/-- What `my_write` leaves after `k` of its bytes have been written: `result` is `n` or -1. -/
structure Written (fd fd' : FileDesc) (w k n : Nat) (before after data : List UInt8) (result : Int)
    (log : List Exchange) : Prop where
  le : k ≤ data.length
  advanced : fd'.writeOffset = (w + k : Nat)
  others : fd'.fileId = fd.fileId ∧ fd'.readOffset = fd.readOffset
  file : after = overwrite before w (data.take k)
  size : 0 < k → fd'.size = after.length
  unsized : k = 0 → fd'.size = fd.size
  returned : (result = n ∧ k = data.length ∧ ∀ e ∈ log, ¬ e.Failed) ∨
    (result = -1 ∧ k < data.length ∧ ∃ e ∈ log, e.Failed)

theorem Written.nil {fd : FileDesc} {w : Nat} (offset : fd.writeOffset = w) (n : Nat)
    (bytes : List UInt8) : Written fd fd w 0 n bytes bytes [] n [] where
  le := Nat.le_refl _
  advanced := offset
  others := ⟨rfl, rfl⟩
  file := (overwrite_nil _ _).symm
  size more := absurd more (Nat.lt_irrefl 0)
  unsized _ := rfl
  returned := .inl ⟨rfl, rfl, fun _ member => by cases member⟩

theorem Written.refused {fd : FileDesc} {w : Nat} (offset : fd.writeOffset = w) (n : Nat)
    (bytes : List UInt8) {data : List UInt8} (more : 0 < data.length) {e : Exchange}
    (failed : e.Failed) : Written fd fd w 0 n bytes bytes data (-1) [e] where
  le := Nat.zero_le _
  advanced := offset
  others := ⟨rfl, rfl⟩
  file := by rw [List.take_zero, overwrite_nil]
  size more := absurd more (Nat.lt_irrefl 0)
  unsized _ := rfl
  returned := .inr ⟨rfl, more, e, List.mem_singleton_self e, failed⟩

theorem Written.cons {fd fd₁ fd' : FileDesc} {w m k n : Nat} {before after data : List UInt8}
    {result : Int} {log : List Exchange}
    (rest : Written fd₁ fd' (w + m) k n (overwrite before w (data.take m)) after (data.drop m)
      result log) {e : Exchange} (ok : ¬ e.Failed) (hm : m ≤ data.length) (pos : 0 < m)
    (inside : w ≤ before.length)
    (first : fd₁.fileId = fd.fileId ∧ fd₁.readOffset = fd.readOffset)
    (sized : fd₁.size = (overwrite before w (data.take m)).length) :
    Written fd fd' w (m + k) n before after data result (e :: log) where
  le := by
    have le := rest.le
    rw [List.length_drop] at le
    omega
  advanced := by rw [rest.advanced, Nat.add_assoc]
  others := ⟨rest.others.1.trans first.1, rest.others.2.trans first.2⟩
  file := by
    have length : (data.take m).length = m := List.length_take_of_le hm
    have all := overwrite_append inside (data.take m) ((data.drop m).take k)
    rw [length, ← List.take_add] at all
    rw [rest.file, all]
  size _ := by
    by_cases more : 0 < k
    · exact rest.size more
    · have none : k = 0 := by omega
      rw [rest.unsized none, sized, rest.file, none, List.take_zero, overwrite_nil]
  unsized none := by omega
  returned := by
    have le := rest.le
    rw [List.length_drop] at le
    rcases rest.returned with ⟨done, all, answered⟩ | ⟨failed, short, some⟩
    · rw [List.length_drop] at all
      exact .inl ⟨done, by omega, List.forall_mem_cons.mpr ⟨ok, answered⟩⟩
    · rw [List.length_drop] at short
      obtain ⟨f, member, fails⟩ := some
      exact .inr ⟨failed, by omega, f, List.mem_cons_of_mem _ member, fails⟩

theorem writeChunks_written {fileId : Int} {file : σ → List UInt8}
    (serves : ServesWrites remote fileId file) {fuel r : Nat} {rest : List UInt8}
    (enough : rest.length ≤ fuel) (chunk : r ≤ maxWriteData) (some : rest ≠ [] → 0 < r) {c : Nat}
    {fd : FileDesc} {w : Nat} (offset : fd.writeOffset = w) {s : σ} (inside : w ≤ (file s).length)
    (small : w + rest.length < 2 ^ 31) (counter : c + rest.length < 2 ^ 31) (log : List Exchange) :
    ∃ result fd' s' more k,
      writeChunks remote.recorded fileId fuel r c rest fd (s, log) =
        (result, fd', s', log ++ more) ∧
      Written fd fd' w k (c + rest.length) (file s) (file s') rest result more := by
  induction fuel generalizing r rest c fd w s log with
  | zero =>
      have none : rest = [] := List.length_eq_zero_iff.mp (Nat.le_zero.mp enough)
      subst none
      exact ⟨c, fd, s, [], 0, by rw [writeChunks, List.append_nil], .nil offset c (file s)⟩
  | succ fuel ih =>
      by_cases none : rest = []
      · subst none
        exact ⟨c, fd, s, [], 0, by rw [writeChunks, if_pos rfl, List.append_nil],
          .nil offset c (file s)⟩
      · have bound : maxWriteData = 1024 := rfl
        have pos : 0 < rest.length := List.length_pos_iff.mpr none
        have chunks := some none
        obtain ⟨m, hm⟩ : ∃ m, m = min r rest.length := ⟨_, rfl⟩
        have length : (rest.take m).length = m := List.length_take_of_le (by omega)
        have word : intWord fd.writeOffset = w := by
          rw [offset, intWord]
          omega
        have least : min w (file s).length = w := Nat.min_eq_left inside
        rw [writeChunks, if_neg none, ← hm]
        dsimp only
        rcases serves s w (rest.take m) (by omega) with ⟨s', sent, after⟩ | ⟨e, s', sent, same⟩
        · rw [least] at after
          have wrote : remote.recorded.write (s, log) fileId (intWord fd.writeOffset) (rest.take m) =
              (Option.some (file s').length, s',
                log ++ [(.write fileId w (rest.take m).length (rest.take m),
                  .ok (.write (file s').length))]) := by
            simp only [RemoteCall.write, RemoteCall.recorded, word, sent]
          have counted : wrapInt ((c : Int) + asInt m) = (c + m : Nat) := by
            rw [asInt_of_lt (by omega), wrapInt_of_isInt ⟨by omega, by omega⟩]
            omega
          have advanced : wrapInt (fd.writeOffset + asInt m) = (w + m : Nat) := by
            rw [offset, asInt_of_lt (by omega), wrapInt_of_isInt ⟨by omega, by omega⟩]
            omega
          have dropped : (rest.drop m).length = rest.length - m := List.length_drop
          have longer : w + m ≤ (file s').length := by
            rw [after, length_overwrite inside, length]
            exact Nat.le_max_right _ _
          have answered : ¬ Exchange.Failed (.write fileId w (rest.take m).length (rest.take m),
              .ok (.write (file s').length)) := by
            intro failed
            cases failed
          obtain ⟨result, fd', s'', more, k, loop, written⟩ := @ih m (rest.drop m) (by omega)
            (by omega) (fun _ => by omega) (c + m)
            { fd with size := (file s').length, writeOffset := (w + m : Nat) } (w + m) rfl s' longer
            (by omega) (by omega) (log ++ [(.write fileId w (rest.take m).length (rest.take m),
              .ok (.write (file s').length))])
          rw [List.append_assoc, List.singleton_append] at loop
          rw [dropped, show c + m + (rest.length - m) = c + rest.length by omega] at written
          rw [wrote]
          dsimp only
          rw [counted, advanced, loop]
          refine ⟨result, fd', s'', _, m + k, rfl, ?_⟩
          rw [after] at written
          exact written.cons answered (by omega) (by omega) inside ⟨rfl, rfl⟩ rfl
        · have failed : remote.recorded.write (s, log) fileId (intWord fd.writeOffset) (rest.take m) =
              (Option.none, s', log ++ [(.write fileId w (rest.take m).length (rest.take m),
                .error e)]) := by
            simp only [RemoteCall.write, RemoteCall.recorded, word, sent]
          rw [failed]
          refine ⟨-1, fd, s', _, 0, rfl, ?_⟩
          rw [same]
          exact .refused offset _ _ pos rfl

/-- The bytes that have been written when `my_write` returns are the first of the buffer, at the
offset of the descriptor, and all of them exactly if no request has failed. -/
theorem my_write_is_one_write {fileId : Int} {file : σ → List UInt8}
    (serves : ServesWrites remote fileId file) {lib : Lib} (initted : lib.libInitted = true)
    {fd : FileDesc} (found : queueNodeGet lib.openFilesList fileId = some fd) {w : Nat}
    (offset : fd.writeOffset = w) {s : σ} (inside : w ≤ (file s).length) {data : List UInt8}
    (small : w + data.length < 2 ^ 31) :
    ∃ result fd' s' log k,
      myWrite remote.recorded lib (s, []) fileId data =
        (result, { lib with openFilesList := queueNodeSet lib.openFilesList fileId fd' },
          s', log) ∧
      Written fd fd' w k data.length (file s) (file s') data result log := by
  have bound : maxWriteData = 1024 := rfl
  obtain ⟨result, fd', s', log, k, loop, written⟩ := writeChunks_written serves (Nat.le_refl _)
    (Nat.min_le_right data.length maxWriteData)
    (fun some => by have := List.length_pos_iff.mpr some; omega) offset inside small
    (c := 0) (by omega) []
  rw [Nat.zero_add] at written
  refine ⟨result, fd', s', log, k, ?_, written⟩
  rw [myWrite, initted, found]
  simp only [Bool.not_true, Bool.false_eq_true, if_false]
  rw [show (0 : Int) = ((0 : Nat) : Int) from rfl, loop]
  rfl

def fileWriter (fileId : Int) : RemoteCall (List UInt8)
  | file, .write fhandle offset _ data =>
    if fhandle = fileId then
      (.ok (.write (overwrite file (min offset file.length) data).length),
        overwrite file (min offset file.length) data)
    else (.error 0, file)
  | file, _ => (.error 0, file)

private theorem fileWriter_serves (fileId : Int) : ServesWrites (fileWriter fileId) fileId id := by
  intro file offset data _
  refine .inl ⟨overwrite file (min offset file.length) data, ?_, rfl⟩
  rw [fileWriter, if_pos rfl]
  rfl

/-- 2500 bytes are written behind the first one of a file, in three chunks. -/
theorem my_write_is_one_write_three_chunks :
    ∃ result fd' s' log k,
      myWrite (fileWriter 2).recorded ⟨true, [⟨2, 1, 0, 1⟩], 1⟩ ([9], []) 2
          (List.replicate 2500 5) =
        (result, { Lib.mk true [⟨2, 1, 0, 1⟩] 1 with
          openFilesList := queueNodeSet [⟨2, 1, 0, 1⟩] 2 fd' }, s', log) ∧
      Written ⟨2, 1, 0, 1⟩ fd' 1 k 2500 [9] s' (List.replicate 2500 5) result log := by
  have length : (List.replicate 2500 (5 : UInt8)).length = 2500 := List.length_replicate
  have written := @my_write_is_one_write _ (fileWriter 2) 2 id (fileWriter_serves 2)
    ⟨true, [⟨2, 1, 0, 1⟩], 1⟩ rfl ⟨2, 1, 0, 1⟩ rfl 1 rfl [9] (by decide)
    (List.replicate 2500 5) (by rw [length]; decide)
  rwa [length] at written

end Snfs
