import Snfs.Client.Library

/-!
The loop of `my_read` against a server that answers a read with the bytes of a file. The
bytes that are left to be read are clamped to the end of the file, unless the offset and
the length together leave the range of `unsigned`: then the loop goes on at the end of
the file, where a read gives nothing.
-/

namespace Snfs

variable {σ : Type} {remote : RemoteCall σ} {I : σ → Prop}

theorem isInt_wrapInt (x : Int) : IsInt (wrapInt x) := by
  have small := intWord_lt x
  rw [wrapInt, asInt, IsInt]
  split <;> omega

theorem wrapInt_of_isInt {x : Int} (int : IsInt x) : wrapInt x = x := by
  obtain ⟨low, high⟩ := int
  rw [wrapInt, asInt, intWord]
  split <;> omega

theorem intWord_wrapInt (x : Int) : intWord (wrapInt x) = intWord x := by
  have small := intWord_lt x
  by_cases low : intWord x < 2 ^ 31
  · rw [wrapInt, asInt, if_pos low, intWord]
    omega
  · rw [wrapInt, asInt, if_neg low, intWord]
    omega

theorem intWord_add (x : Int) (n : Nat) : intWord (x + n) = u32 (intWord x + n) := by
  rw [intWord, intWord, u32]
  omega

private theorem wrapInt_wrapInt_add (x : Int) (m n : Nat) :
    wrapInt (wrapInt (x + m) + n) = wrapInt (x + (m + n : Nat)) := by
  have words : intWord (wrapInt (x + m) + n) = intWord (x + (m + n : Nat)) := by
    rw [intWord_add, intWord_wrapInt, intWord_add, intWord_add, u32, u32, u32]
    omega
  exact congrArg asInt words

theorem asInt_of_lt {x : Nat} (small : x < 2 ^ 31) : asInt x = x := if_pos small

def piece (bytes : List UInt8) (offset count : Nat) : List UInt8 := (bytes.drop offset).take count

theorem length_piece (bytes : List UInt8) (offset count : Nat) :
    (piece bytes offset count).length = min count (bytes.length - offset) := by
  rw [piece, List.length_take, List.length_drop]

private theorem piece_append (bytes : List UInt8) (offset m n : Nat) :
    piece bytes offset m ++ piece bytes (offset + m) n = piece bytes offset (m + n) := by
  rw [piece, piece, piece, List.take_add, List.drop_drop]

/-- A read of the file with this handle gives its bytes, while `I` holds of what lies behind the
stubs, and `I` holds after it. What lies behind the bytes in the response is copied too. -/
def ServesFile (remote : RemoteCall σ) (I : σ → Prop) (fileId : Int) (bytes : List UInt8) : Prop :=
  ∀ s, I s → ∀ offset count, count ≤ maxReadData → ∃ more s', I s' ∧
    remote.read s fileId offset count =
      (some (piece bytes offset count ++ more, (piece bytes offset count).length), s') ∧
    (piece bytes offset count ++ more).length = count

private theorem readChunks_step {fileId : Int} {bytes : List UInt8}
    (serves : ServesFile remote I fileId bytes)
    {n r m p : Nat} (some : 0 < n) (word : n < 2 ^ 32) (chunk : r ≤ maxReadData) (hm : m = min r n)
    (counter : Int) (buffer : CallerMemory) (fd : FileDesc)
    (hp : p = (piece bytes (intWord fd.readOffset) m).length) {s : σ} (holds : I s) :
    ∃ more s', I s' ∧ (piece bytes (intWord fd.readOffset) m ++ more).length = m ∧ ∀ fuel,
      readChunks remote fileId (fuel + 1) n r counter buffer fd s =
        readChunks remote fileId fuel (n - p) m (wrapInt (counter + p))
          (buffer.store counter (piece bytes (intWord fd.readOffset) m ++ more))
          { fd with readOffset := wrapInt (fd.readOffset + p) } s' := by
  obtain ⟨k, rfl⟩ := Nat.exists_eq_succ_of_ne_zero (Nat.ne_of_gt some)
  have bound : maxReadData = 1024 := rfl
  obtain ⟨more, s', kept, read, length⟩ := serves s holds (intWord fd.readOffset) m (by omega)
  have le : p ≤ m := by
    rw [hp, length_piece]
    exact Nat.min_le_left _ _
  refine ⟨more, s', kept, length, fun fuel => ?_⟩
  rw [readChunks]
  simp only [Nat.succ_eq_add_one, ← hm, read, ← hp]
  rw [asInt_of_lt (by omega), show u32 (k + 1 + 2 ^ 32 - p) = k + 1 - p by rw [u32]; omega]

theorem CallerMemory.store_nil (mem : CallerMemory) (pos : Int) : mem.store pos [] = mem := by
  funext k
  rw [store, if_neg (by simp only [List.length_nil]; omega)]

theorem CallerMemory.store_store (mem : CallerMemory) (pos : Int) (xs ys : List UInt8) :
    (mem.store pos xs).store (pos + xs.length) ys = mem.store pos (xs ++ ys) := by
  funext k
  simp only [store, List.length_append]
  by_cases later : pos + xs.length ≤ k ∧ k < pos + xs.length + ys.length
  · rw [if_pos later, if_pos (by omega), List.getD_append_right _ _ _ _ (by omega)]
    congr 1
    omega
  · rw [if_neg later]
    by_cases first : pos ≤ k ∧ k < pos + xs.length
    · rw [if_pos first, if_pos (by omega), List.getD_append _ _ _ _ (by omega)]
    · rw [if_neg first, if_neg (by omega)]

private theorem readChunks_mono {fileId : Int} {fuel more n r : Nat} {counter : Int}
    {buffer : CallerMemory}
    {fd : FileDesc} {s : σ} {e : ReadEnd σ} (le : fuel ≤ more)
    (ends : readChunks remote fileId fuel n r counter buffer fd s = some e) :
    readChunks remote fileId more n r counter buffer fd s = some e := by
  induction fuel generalizing more n r counter buffer fd s with
  | zero =>
      cases n with
      | zero => cases more <;> exact ends
      | succ n => cases ends
  | succ fuel ih =>
      cases n with
      | zero => cases more <;> exact ends
      | succ n =>
          obtain ⟨more, rfl⟩ := Nat.exists_eq_succ_of_ne_zero (Nat.ne_of_gt (Nat.lt_of_lt_of_le
            (Nat.succ_pos fuel) le))
          rw [readChunks] at ends ⊢
          split at ends
          · exact ends
          · exact ih (Nat.le_of_succ_le_succ le) ends

private theorem readChunks_ends {fileId : Int} {bytes : List UInt8}
    (serves : ServesFile remote I fileId bytes)
    (size : bytes.length < 2 ^ 32) {n r : Nat} (chunk : r ≤ maxReadData) (some : 0 < n → 0 < r)
    (counter : Int) (int : IsInt counter) (buffer : CallerMemory) {fd : FileDesc}
    (offset : IsInt fd.readOffset) (within : intWord fd.readOffset + n ≤ bytes.length) {s : σ}
    (holds : I s) :
    ∃ fuel e, readChunks remote fileId fuel n r counter buffer fd s = Option.some e ∧
      e.result = wrapInt (counter + n) ∧
      e.fdesc = { fd with readOffset := wrapInt (fd.readOffset + n) } ∧
      (0 ≤ counter → counter + n < 2 ^ 31 →
        e.buffer = buffer.store counter (piece bytes (intWord fd.readOffset) n)) := by
  induction n using Nat.strong_induction_on generalizing r counter buffer fd s with
  | _ n ih =>
      by_cases none : n = 0
      · subst none
        refine ⟨0, ⟨counter, buffer, fd, s⟩, rfl, ?_, ?_, fun _ _ => ?_⟩
        · rw [Int.natCast_zero, Int.add_zero, wrapInt_of_isInt int]
        · rw [Int.natCast_zero, Int.add_zero, wrapInt_of_isInt offset]
        · exact (CallerMemory.store_nil buffer counter).symm
      · have pos : 0 < n := Nat.pos_of_ne_zero none
        have chunks := some pos
        obtain ⟨m, hm⟩ : ∃ m, m = min r n := ⟨_, rfl⟩
        have length : (piece bytes (intWord fd.readOffset) m).length = m := by
          rw [length_piece]
          omega
        have word : intWord (wrapInt (fd.readOffset + m)) = intWord fd.readOffset + m := by
          rw [intWord_wrapInt, intWord_add, u32]
          omega
        have left : m + (n - m) = n := by omega
        obtain ⟨more, s', kept, whole, step⟩ := readChunks_step serves pos (by omega) chunk hm counter
          buffer fd length.symm holds
        have exact : more = [] := by
          rw [List.length_append, length] at whole
          exact List.length_eq_zero_iff.mp (by omega)
        rw [exact, List.append_nil] at step
        have next : intWord (wrapInt (fd.readOffset + m)) + (n - m) ≤ bytes.length := by
          rw [word]
          omega
        obtain ⟨fuel, e, ends, result, fdesc, filled⟩ := @ih (n - m) (by omega) m (by omega)
          (fun _ => by omega) (wrapInt (counter + m)) (isInt_wrapInt _)
          (buffer.store counter (piece bytes (intWord fd.readOffset) m))
          { fd with readOffset := wrapInt (fd.readOffset + m) } (isInt_wrapInt _) next s' kept
        refine ⟨fuel + 1, e, (step fuel).trans ends, ?_, ?_, fun nonneg small => ?_⟩
        · rw [result, wrapInt_wrapInt_add, left]
        · rw [fdesc, wrapInt_wrapInt_add, left]
        · have sum : wrapInt (counter + m) = counter + m := wrapInt_of_isInt ⟨by omega, by omega⟩
          rw [filled (by omega) (by omega), sum]
          have stored := buffer.store_store counter (piece bytes (intWord fd.readOffset) m)
            (piece bytes (intWord fd.readOffset + m) (n - m))
          rw [length, piece_append, left] at stored
          simp only [word, stored]

/-- A read that is to go on behind the end of the file never ends. -/
theorem readChunks_diverges {fileId : Int} {bytes : List UInt8}
    (serves : ServesFile remote I fileId bytes) {n r : Nat} (chunk : r ≤ maxReadData) (some : 0 < r)
    (counter : Int) (buffer : CallerMemory) {fd : FileDesc} (size : bytes.length < 2 ^ 32)
    (inside : intWord fd.readOffset ≤ bytes.length) (word : n < 2 ^ 32)
    (behind : bytes.length < intWord fd.readOffset + n) {s : σ} (holds : I s) (fuel : Nat) :
    readChunks remote fileId fuel n r counter buffer fd s = none := by
  induction fuel generalizing n r counter buffer fd s with
  | zero =>
      obtain ⟨k, rfl⟩ := Nat.exists_eq_succ_of_ne_zero (n := n) (by omega)
      rfl
  | succ fuel ih =>
      obtain ⟨m, hm⟩ : ∃ m, m = min r n := ⟨_, rfl⟩
      obtain ⟨p, hp⟩ : ∃ p, p = (piece bytes (intWord fd.readOffset) m).length := ⟨_, rfl⟩
      have given := length_piece bytes (intWord fd.readOffset) m
      obtain ⟨more, s', kept, -, step⟩ := readChunks_step serves (by omega) word chunk hm counter buffer
        fd hp holds
      have next : intWord (wrapInt (fd.readOffset + p)) = intWord fd.readOffset + p := by
        rw [intWord_wrapInt, intWord_add, u32]
        omega
      rw [step]
      refine ih (by omega) (by omega) _ _ ?_ (by omega) ?_ kept
      · simp only [next]
        omega
      · simp only [next]
        omega

theorem queueNodeSet_self {queue : List FileDesc} {fileId : Int} {fd : FileDesc}
    (found : queueNodeGet queue fileId = some fd) : queueNodeSet queue fileId fd = queue := by
  induction queue with
  | nil => rfl
  | cons first rest ih =>
      rw [queueNodeGet, List.find?_cons] at found
      rw [queueNodeSet]
      by_cases here : first.fileId = fileId
      · simp only [here, beq_self_eq_true, Option.some.injEq] at found
        rw [if_pos here, found]
      · rw [if_neg here]
        simp only [beq_eq_false_iff_ne.mpr here] at found
        rw [ih found]

theorem queueNodeGet_id {queue : List FileDesc} {fileId : Int} {fd : FileDesc}
    (found : queueNodeGet queue fileId = some fd) : fd.fileId = fileId := by
  simpa using List.find?_some found

theorem queueNodeGet_set {queue : List FileDesc} {fileId : Int} {fd fd' : FileDesc}
    (found : queueNodeGet queue fileId = some fd) (same : fd'.fileId = fileId) :
    queueNodeGet (queueNodeSet queue fileId fd') fileId = some fd' := by
  induction queue with
  | nil => cases found
  | cons first rest ih =>
      rw [queueNodeSet]
      by_cases here : first.fileId = fileId
      · rw [if_pos here, queueNodeGet, List.find?_cons_of_pos (by simpa using same)]
      · rw [queueNodeGet, List.find?_cons_of_neg (by simpa using here)] at found
        rw [if_neg here, queueNodeGet, List.find?_cons_of_neg (by simpa using here)]
        exact ih found

def FileDesc.available (fd : FileDesc) (numBytes : Nat) : Nat :=
  min numBytes (fd.size - intWord fd.readOffset)

/-- The call returns the number of bytes, they are in the buffer and nothing else of the caller's
memory is written, and the offset has advanced by them. -/
structure ReadsRight (lib : Lib) (fd : FileDesc) (fileId : Int) (bytes : List UInt8)
    (buffer : CallerMemory) (numBytes : Nat) (result : Int × CallerMemory × Lib × σ) : Prop where
  returned : result.1 = fd.available numBytes
  filled : result.2.1 = buffer.store 0 (piece bytes (intWord fd.readOffset) (fd.available numBytes))
  inside : ∀ k : Int, k < 0 ∨ numBytes ≤ k → result.2.1 k = buffer k
  advanced : result.2.2.1 = { lib with
    openFilesList := queueNodeSet lib.openFilesList fileId
      { fd with readOffset := fd.readOffset + fd.available numBytes } }

private theorem store_inside (buffer : CallerMemory) (bytes : List UInt8) (offset : Nat) {m n : Nat}
    (le : m ≤ n) {k : Int} (out : k < 0 ∨ n ≤ k) : buffer.store 0 (piece bytes offset m) k = buffer k := by
  have length : (piece bytes offset m).length ≤ m := by
    rw [length_piece]
    exact Nat.min_le_left _ _
  rw [CallerMemory.store, if_neg (by omega)]

section Read
variable {lib : Lib} {fd : FileDesc} {fileId : Int} {bytes : List UInt8} {numBytes : Nat}

/-- The call on an open descriptor that is not at the end: the sum of offset and length may wrap
around, and then nothing is clamped. -/
theorem myRead_eq (initted : lib.libInitted = true)
    (found : queueNodeGet lib.openFilesList fileId = some fd)
    (before : intWord fd.readOffset < fd.size) (size : fd.size < 2 ^ 32) (word : numBytes < 2 ^ 32)
    (buffer : CallerMemory) (s : σ) {n : Nat}
    (hn : n = if intWord fd.readOffset + numBytes < 2 ^ 32 then fd.available numBytes
      else numBytes) (fuel : Nat) :
    myRead remote fuel lib s fileId buffer numBytes =
      (readChunks remote fileId fuel n (min n maxReadData) 0 buffer fd s).map fun r =>
        (r.result, r.buffer,
          { lib with openFilesList := queueNodeSet lib.openFilesList fileId r.fdesc }, r.state) := by
  have clamped : n = if fd.size < u32 (intWord fd.readOffset + numBytes) then
      u32 (fd.size + 2 ^ 32 - intWord fd.readOffset) else numBytes := by
    rw [hn, FileDesc.available, u32, u32]
    split <;> split <;> omega
  rw [myRead, initted, found]
  simp only [Bool.not_true, Bool.false_eq_true, if_false, Nat.ne_of_lt before, ← clamped]

/-- A call whose offset and length stay within `unsigned` ends. -/
theorem myRead_ends (serves : ServesFile remote I fileId bytes) (initted : lib.libInitted = true)
    (found : queueNodeGet lib.openFilesList fileId = some fd) (int : IsInt fd.readOffset)
    (size : fd.size = bytes.length) (word : bytes.length < 2 ^ 32)
    (before : intWord fd.readOffset < fd.size) (asked : intWord fd.readOffset + numBytes < 2 ^ 32)
    (buffer : CallerMemory) {s : σ} (holds : I s) :
    ∃ fuel buffer' s', myRead remote fuel lib s fileId buffer numBytes =
        some (wrapInt (fd.available numBytes), buffer', { lib with
          openFilesList := queueNodeSet lib.openFilesList fileId
            { fd with readOffset := wrapInt (fd.readOffset + fd.available numBytes) } }, s') ∧
      (fd.available numBytes < 2 ^ 31 →
        buffer' = buffer.store 0 (piece bytes (intWord fd.readOffset) (fd.available numBytes))) := by
  have bound : maxReadData = 1024 := rfl
  have within : intWord fd.readOffset + fd.available numBytes ≤ bytes.length := by
    rw [FileDesc.available]
    omega
  obtain ⟨fuel, e, ends, result, fdesc, filled⟩ := readChunks_ends serves word
    (Nat.min_le_right (fd.available numBytes) maxReadData) (fun pos => by omega) 0
    ⟨by decide, by decide⟩ buffer int within holds
  refine ⟨fuel, e.buffer, e.state, ?_, fun small => filled (by decide) (by omega)⟩
  rw [myRead_eq initted found before (by omega) (by omega) buffer s (if_pos asked).symm, ends,
    Option.map_some, result, fdesc, Int.zero_add]

/-- Every other call that begins before the end of the file never ends. -/
theorem myRead_diverges (serves : ServesFile remote I fileId bytes)
    (initted : lib.libInitted = true)
    (found : queueNodeGet lib.openFilesList fileId = some fd)
    (size : fd.size = bytes.length) (word : bytes.length < 2 ^ 32) (asked : numBytes < 2 ^ 32)
    (before : intWord fd.readOffset < fd.size) (wraps : ¬ intWord fd.readOffset + numBytes < 2 ^ 32)
    (buffer : CallerMemory) {s : σ} (holds : I s) (fuel : Nat) :
    myRead remote fuel lib s fileId buffer numBytes = none := by
  have bound : maxReadData = 1024 := rfl
  rw [myRead_eq initted found before (by omega) asked buffer s (if_neg wraps).symm,
    readChunks_diverges serves (Nat.min_le_right _ _) (by omega) 0 buffer word (by omega) asked
      (by omega) holds fuel]
  rfl

private theorem myRead_mono {fuel more : Nat} (le : fuel ≤ more) {buffer : CallerMemory} {s : σ}
    {r : Int × CallerMemory × Lib × σ}
    (ends : myRead remote fuel lib s fileId buffer numBytes = some r) :
    myRead remote more lib s fileId buffer numBytes = some r := by
  cases initted : lib.libInitted with
  | false => simpa [myRead, initted] using ends
  | true =>
      cases found : queueNodeGet lib.openFilesList fileId with
      | none => simpa [myRead, initted, found] using ends
      | some fd =>
          by_cases atEnd : intWord fd.readOffset = fd.size
          · simpa [myRead, initted, found, atEnd] using ends
          · simp only [myRead, initted, found, atEnd, Bool.not_true, Bool.false_eq_true, if_false]
              at ends ⊢
            obtain ⟨e, loop, rfl⟩ := Option.map_eq_some_iff.mp ends
            rw [readChunks_mono le loop, Option.map_some]

theorem myRead_unique {fuel fuel' : Nat} {buffer : CallerMemory} {s : σ}
    {r r' : Int × CallerMemory × Lib × σ}
    (first : myRead remote fuel lib s fileId buffer numBytes = some r)
    (second : myRead remote fuel' lib s fileId buffer numBytes = some r') : r = r' := by
  have one := myRead_mono (Nat.le_max_left fuel fuel') first
  rw [myRead_mono (Nat.le_max_right fuel fuel') second] at one
  exact (Option.some.inj one).symm

private theorem readsRight_atEnd (found : queueNodeGet lib.openFilesList fileId = some fd)
    (atEnd : intWord fd.readOffset = fd.size) (buffer : CallerMemory) (s : σ) :
    ReadsRight lib fd fileId bytes buffer numBytes (0, buffer, lib, s) := by
  have none : fd.available numBytes = 0 := by
    rw [FileDesc.available]
    omega
  refine ⟨by rw [none]; rfl, ?_, fun _ _ => rfl, ?_⟩
  · rw [none, piece, List.take_zero, CallerMemory.store_nil]
  · rw [none, Int.natCast_zero, Int.add_zero, queueNodeSet_self found]

private theorem readOffset_of_set (found : queueNodeGet lib.openFilesList fileId = some fd)
    {x y : Int}
    (same : { lib with
        openFilesList := queueNodeSet lib.openFilesList fileId { fd with readOffset := x } } =
      { lib with
        openFilesList := queueNodeSet lib.openFilesList fileId { fd with readOffset := y } }) :
    x = y := by
  have here := queueNodeGet_id found
  have stored (x : Int) : queueNodeGet (queueNodeSet lib.openFilesList fileId
      { fd with readOffset := x }) fileId = some { fd with readOffset := x } :=
    queueNodeGet_set found here
  have lists := congrArg (fun lib => queueNodeGet lib.openFilesList fileId) same
  dsimp only at lists
  rw [stored, stored] at lists
  simpa only [Option.some.injEq, FileDesc.mk.injEq, true_and, and_true] using lists

/-- An offset below zero is the word of one above 2 ^ 31, and the rest of the file is short. -/
theorem available_lt (int : IsInt fd.readOffset) (size : fd.size < 2 ^ 32)
    (small : fd.readOffset + fd.available numBytes < 2 ^ 31) : fd.available numBytes < 2 ^ 31 := by
  have low := int.1
  have le : fd.available numBytes ≤ fd.size - intWord fd.readOffset := Nat.min_le_right _ _
  by_cases nonneg : 0 ≤ fd.readOffset
  · omega
  · have word : intWord fd.readOffset = fd.readOffset + 2 ^ 32 := by
      rw [intWord]
      omega
    omega

/-- A read through an open descriptor ends and returns the bytes that there are exactly if its offset
and its length do not wrap around, or it is at the end. -/
theorem my_read_right_iff (serves : ServesFile remote I fileId bytes)
    (initted : lib.libInitted = true)
    (found : queueNodeGet lib.openFilesList fileId = some fd) (int : IsInt fd.readOffset)
    (size : fd.size = bytes.length) (word : bytes.length < 2 ^ 32)
    (inside : intWord fd.readOffset ≤ fd.size) (asked : numBytes < 2 ^ 32) (buffer : CallerMemory)
    {s : σ} (holds : I s) :
    (∃ fuel result, myRead remote fuel lib s fileId buffer numBytes = some result ∧
      ReadsRight lib fd fileId bytes buffer numBytes result) ↔
    intWord fd.readOffset = fd.size ∨
      (intWord fd.readOffset + numBytes < 2 ^ 32 ∧
        fd.readOffset + fd.available numBytes < 2 ^ 31) := by
  by_cases atEnd : intWord fd.readOffset = fd.size
  · refine iff_of_true ⟨0, (0, buffer, lib, s), ?_, readsRight_atEnd found atEnd buffer s⟩ (.inl atEnd)
    rw [myRead, initted, found]
    simp [atEnd]
  · have before : intWord fd.readOffset < fd.size := by omega
    by_cases wraps : intWord fd.readOffset + numBytes < 2 ^ 32
    · obtain ⟨fuel, buffer', s', ends, filled⟩ := myRead_ends serves initted found int size word
        before wraps buffer holds
      constructor
      · rintro ⟨fuel', result, ends', right⟩
        obtain rfl := myRead_unique ends ends'
        refine .inr ⟨wraps, ?_⟩
        rw [← readOffset_of_set found right.advanced]
        exact (isInt_wrapInt _).2
      · rintro (same | ⟨-, small⟩)
        · exact absurd same atEnd
        · have low := int.1
          have sum : wrapInt (fd.readOffset + fd.available numBytes) =
              fd.readOffset + fd.available numBytes := wrapInt_of_isInt ⟨by omega, small⟩
          have short := available_lt int (by omega) small
          refine ⟨fuel, _, ends, ?_, ?_, fun k out => ?_, ?_⟩
          · exact wrapInt_of_isInt ⟨by omega, by omega⟩
          · exact filled short
          · rw [filled short]
            exact store_inside _ _ _ (Nat.min_le_left _ _) out
          · simp only [sum]
    · refine iff_of_false ?_ (by tauto)
      rintro ⟨fuel, result, ends, -⟩
      rw [myRead_diverges serves initted found size word asked before wraps buffer holds] at ends
      cases ends

end Read

def fileServer (fileId : Int) (bytes : List UInt8) : RemoteCall Unit := fun s call =>
  match call with
  | .read fhandle offset count =>
    if fhandle = fileId then
      let data := piece bytes offset count
      (.ok (.read (data ++ List.replicate (count - data.length) 0) data.length), s)
    else (.error 0, s)
  | _ => (.error 0, s)

theorem fileServer_serves (fileId : Int) (bytes : List UInt8) :
    ServesFile (fileServer fileId bytes) (fun _ => True) fileId bytes := by
  intro s _ offset count _
  refine ⟨List.replicate (count - (piece bytes offset count).length) 0, s, trivial, ?_, ?_⟩
  · simp only [RemoteCall.read, fileServer, if_true]
  · have le : (piece bytes offset count).length ≤ count := by
      rw [length_piece]
      exact Nat.min_le_left _ _
    rw [List.length_append, List.length_replicate, Nat.add_sub_cancel' le]

theorem my_read_right_iff_past_end :
    ∃ fuel result, myRead (fileServer 3 [7, 8]) fuel ⟨true, [⟨3, 2, 0, 0⟩], 1⟩ () 3
        (fun _ => 0) 5 = some result ∧
      ReadsRight ⟨true, [⟨3, 2, 0, 0⟩], 1⟩ ⟨3, 2, 0, 0⟩ 3 [7, 8] (fun _ => 0) 5 result :=
  (my_read_right_iff (fileServer_serves 3 [7, 8]) rfl rfl (by decide) rfl (by decide) (by decide)
    (by decide) _ trivial).mpr (.inr (by decide))

/-- The second byte of two is asked for with the largest length there is. -/
theorem read_of_wrapped_length_never_ends :
    ServesFile (fileServer 3 [7, 8]) (fun _ => True) 3 [7, 8] ∧
      ∀ fuel, myRead (fileServer 3 [7, 8]) fuel ⟨true, [⟨3, 2, 1, 0⟩], 1⟩ () 3 (fun _ => 0)
        (2 ^ 32 - 1) = none :=
  ⟨fileServer_serves 3 [7, 8], fun fuel => myRead_diverges (fileServer_serves 3 [7, 8]) rfl rfl rfl
    (by decide) (by decide) (by decide) (by decide) _ trivial fuel⟩

end Snfs
