import Snfs.Fs.Contents

/-!
`fs_write` and `fs_read` by the critical sections of `cache_mutex`. Steps 1 to 3 of
`fs_write` are one section, and so is step 5. In step 4 the lookup of a block and the
change of the cached copy are one section; after a miss the lock is given up, the
block is read from the device, and the change and the insertion are a second section.
The number of the block and the size of the file are read without the lock, through
the pointer that the first section has left. `fs_read` opens its inode in a section
and gets each block in the same way.

When the other threads stand still between a miss and the insertion, the two
sections do what `writeBlock` does at once.
-/

namespace Snfs

open Slots Runs

structure WriteCall where
  file : Nat
  offset : Nat
  data : List UInt8

/-- The local variables of `fs_write` in step 4; `stop` is `offset + count`. -/
structure WriteLocals where
  ifile : InodePtr
  iblock : Nat
  start : Nat
  rest : List UInt8
  stop : Nat

namespace WriteLocals

def chunk (l : WriteLocals) : List UInt8 := l.rest.take (min (blockSize - l.start) l.rest.length)

def next (l : WriteLocals) : WriteLocals :=
  { l with
    iblock := l.iblock + 1
    start := 0
    rest := l.rest.drop (min (blockSize - l.start) l.rest.length) }

end WriteLocals

/-- How far a call has come: before step 1; at the head of the loop of step 4, with the number of
the block, after a lookup that missed, with the block's content; before step 5; at its end. -/
inductive WritePhase where
  | start
  | round (l : WriteLocals)
  | located (l : WriteLocals) (blockNum : Nat)
  | missed (l : WriteLocals) (blockNum : Nat)
  | fetched (l : WriteLocals) (blockNum : Nat) (data : Block)
  | growing (ifile : InodePtr) (stop : Nat)
  | returned (ok : Bool)

/-- One step of a call; `none` after it has returned. -/
def writeStep (call : WriteCall) (fs : Fs) : WritePhase → Option (WritePhase × Fs)
  | .start =>
    match beginWrite fs call.file call.offset call.data.length with
    | (none, fs) => some (.returned false, fs)
    | (some (ifile, pos), fs) =>
        some (.round ⟨ifile, pos / blockSize, pos % blockSize, call.data,
          u32 (pos + call.data.length)⟩, fs)
  | .round l =>
    if l.rest = [] then
      if (fs.deref l.ifile).size < l.stop then some (.growing l.ifile l.stop, fs)
      else some (.returned true, fs)
    else some (.located l ((fs.deref l.ifile).blocks l.iblock), fs)
  | .located l blockNum =>
    match findBlockInCache fs blockNum with
    | some (s, fs) =>
        let data := (fs.blockCache s).val.splice l.start l.chunk
        some (.round l.next,
          ({ fs with blockCache := fs.blockCache.write s data true } : Fs).touchBlock s)
    | none => some (.missed l blockNum, fs)
  | .missed l blockNum =>
    match blockRead fs.blocks blockNum with
    | none => some (.returned false, fs)
    | some data => some (.fetched l blockNum data, fs)
  | .fetched l blockNum data =>
      some (.round l.next, addBlockToCache fs blockNum (data.splice l.start l.chunk) true)
  | .growing ifile stop => some (.returned true, writeSize fs call.file ifile stop)
  | .returned _ => none

/-- What a step does to the file system. -/
inductive WriteEffect (call : WriteCall) (fs : Fs) : WritePhase → WritePhase × Fs → Prop where
  | failed {fs' : Fs} (begins : beginWrite fs call.file call.offset call.data.length = (none, fs')) :
      WriteEffect call fs .start (.returned false, fs')
  | began {ifile : InodePtr} {pos : Nat} {fs' : Fs}
      (begins : beginWrite fs call.file call.offset call.data.length = (some (ifile, pos), fs')) :
      WriteEffect call fs .start (.round ⟨ifile, pos / blockSize, pos % blockSize, call.data,
        u32 (pos + call.data.length)⟩, fs')
  | ended {l : WriteLocals} (empty : l.rest = []) (inside : l.stop ≤ (fs.deref l.ifile).size) :
      WriteEffect call fs (.round l) (.returned true, fs)
  | grows {l : WriteLocals} (empty : l.rest = []) (past : (fs.deref l.ifile).size < l.stop) :
      WriteEffect call fs (.round l) (.growing l.ifile l.stop, fs)
  | located {l : WriteLocals} (more : l.rest ≠ []) :
      WriteEffect call fs (.round l) (.located l ((fs.deref l.ifile).blocks l.iblock), fs)
  | hit {l : WriteLocals} {b : Nat} {fs' : Fs} (present : ¬ fs.blockCache.Absent b)
      (stored : writeBlock fs b l.start l.chunk = some fs') :
      WriteEffect call fs (.located l b) (.round l.next, fs')
  | missed {l : WriteLocals} {b : Nat} (absent : fs.blockCache.Absent b) :
      WriteEffect call fs (.located l b) (.missed l b, fs)
  | unread {l : WriteLocals} {b : Nat} (out : fs.numBlocks ≤ b) :
      WriteEffect call fs (.missed l b) (.returned false, fs)
  | fetched {l : WriteLocals} {b : Nat} (inside : b < fs.numBlocks) :
      WriteEffect call fs (.missed l b) (.fetched l b (fs.blocks.content b), fs)
  | inserted {l : WriteLocals} {b : Nat} {data : Block} :
      WriteEffect call fs (.fetched l b data)
        (.round l.next, addBlockToCache fs b (data.splice l.start l.chunk) true)
  | grown {ifile : InodePtr} {stop : Nat} :
      WriteEffect call fs (.growing ifile stop) (.returned true, writeSize fs call.file ifile stop)

theorem writeStep_effect {call : WriteCall} {fs : Fs} {p : WritePhase} {r : WritePhase × Fs}
    (step : writeStep call fs p = some r) : WriteEffect call fs p r := by
  cases p with
  | start =>
      rw [writeStep] at step
      split at step
      · rename_i begins
        cases step
        exact .failed begins
      · rename_i begins
        cases step
        exact .began begins
  | round l =>
      rw [writeStep] at step
      split at step
      · rename_i empty
        split at step
        · rename_i past
          cases step
          exact .grows empty past
        · rename_i inside
          cases step
          exact .ended empty (Nat.not_lt.mp inside)
      · rename_i more
        cases step
        exact .located more
  | located l b =>
      rw [writeStep] at step
      cases found : fs.blockCache.find? b with
      | some s =>
          simp only [findBlockInCache, found, Option.map_some, Option.some.injEq] at step
          subst step
          refine .hit (fun absent => absent s (Table.key_of_find found)) ?_
          simp only [writeBlock, findBlockInCache, found, Option.map_some]
      | none =>
          simp only [findBlockInCache, found, Option.map_none, Option.some.injEq] at step
          subst step
          exact .missed (Table.absent_of_find found)
  | missed l b =>
      rw [writeStep, blockRead] at step
      by_cases out : fs.blocks.numBlocks ≤ b
      · rw [if_pos out] at step
        cases step
        exact .unread out
      · rw [if_neg out] at step
        cases step
        exact .fetched (Nat.not_le.mp out)
  | fetched l b data =>
      cases step
      exact .inserted
  | growing ifile stop =>
      cases step
      exact .grown
  | returned ok => cases step

/-- An insertion of a block that is not cached and was read as it is on the device. -/
theorem writeBlock_absent {fs : Fs} {b : Nat} (absent : fs.blockCache.Absent b)
    (inside : b < fs.numBlocks) (start : Nat) (chunk : List UInt8) :
    writeBlock fs b start chunk =
      some (addBlockToCache fs b ((fs.blocks.content b).splice start chunk) true) := by
  have read : blockRead fs.blocks b = some (fs.blocks.content b) := Blocks.read_of_lt inside
  simp only [writeBlock, findBlockInCache, Table.find_of_absent absent, Option.map_none, read]

/-- Steps of one call while nothing else changes the file system. -/
abbrev WriteSteps (call : WriteCall) : WritePhase × Fs → WritePhase × Fs → Prop :=
  Relation.ReflTransGen fun s s' => writeStep call s.2 s.1 = some s'

private theorem round_alone (call : WriteCall) (fs : Fs) {l : WriteLocals} (more : l.rest ≠ []) :
    match writeBlock fs ((fs.deref l.ifile).blocks l.iblock) l.start l.chunk with
    | some fs' => WriteSteps call (.round l, fs) (.round l.next, fs')
    | none => WriteSteps call (.round l, fs) (.returned false, fs) := by
  generalize hb : (fs.deref l.ifile).blocks l.iblock = b
  have located : WriteSteps call (.round l, fs) (.located l b, fs) :=
    .single (by rw [writeStep, if_neg more, hb])
  cases found : fs.blockCache.find? b with
  | some s =>
      simp only [writeBlock, findBlockInCache, found, Option.map_some]
      exact located.tail (by simp only [writeStep, findBlockInCache, found, Option.map_some])
  | none =>
      have missed : WriteSteps call (.round l, fs) (.missed l b, fs) :=
        located.tail (by simp only [writeStep, findBlockInCache, found, Option.map_none])
      cases read : blockRead fs.blocks b with
      | none =>
          simp only [writeBlock, findBlockInCache, found, Option.map_none, read]
          exact missed.tail (by simp only [writeStep, read])
      | some data =>
          simp only [writeBlock, findBlockInCache, found, Option.map_none, read]
          have fetched : WriteSteps call (.round l, fs) (.fetched l b data, fs) :=
            missed.tail (by simp only [writeStep, read])
          exact fetched.tail rfl

private theorem loop_alone (call : WriteCall) {fuel : Nat} {fs : Fs} {l : WriteLocals}
    (inside : l.start < blockSize) (enough : l.rest.length ≤ fuel) :
    match writeLoop l.ifile fuel l.iblock l.start l.rest fs with
    | (true, fs') => ∃ l', WriteSteps call (.round l, fs) (.round l', fs') ∧ l'.rest = [] ∧
        l'.ifile = l.ifile ∧ l'.stop = l.stop
    | (false, fs') => WriteSteps call (.round l, fs) (.returned false, fs') := by
  induction fuel generalizing fs l with
  | zero =>
      exact ⟨l, .refl, List.eq_nil_of_length_eq_zero (Nat.le_zero.mp enough), rfl, rfl⟩
  | succ fuel ih =>
      by_cases empty : l.rest = []
      · rw [writeLoop, if_pos empty]
        exact ⟨l, .refl, empty, rfl, rfl⟩
      rw [writeLoop, if_neg empty]
      have round := round_alone call fs empty
      rw [WriteLocals.chunk] at round
      dsimp only
      cases stored : writeBlock fs ((fs.deref l.ifile).blocks l.iblock) l.start
          (l.rest.take (min (blockSize - l.start) l.rest.length)) with
      | none =>
          rw [stored] at round
          exact round
      | some fs₁ =>
          rw [stored] at round
          have pos := List.length_pos_of_ne_nil empty
          have shorter : l.next.rest.length ≤ fuel := by
            simp only [WriteLocals.next, List.length_drop]
            omega
          have rest := @ih fs₁ l.next (by simp [WriteLocals.next]) shorter
          dsimp only [WriteLocals.next] at rest ⊢
          generalize writeLoop l.ifile fuel (l.iblock + 1) 0 _ fs₁ = r at rest ⊢
          obtain ⟨done, fs₂⟩ := r
          cases done with
          | false => exact round.trans rest
          | true =>
              obtain ⟨l', steps, facts⟩ := rest
              exact ⟨l', round.trans steps, facts⟩

/-- A call that is alone ends as `fsWrite` does. -/
theorem write_alone (call : WriteCall) (fs : Fs) :
    WriteSteps call (.start, fs) (.returned (fsWrite fs call.file call.offset call.data).1,
      (fsWrite fs call.file call.offset call.data).2) := by
  rw [fsWrite_eq]
  cases begins : beginWrite fs call.file call.offset call.data.length with
  | mk started fs₁ =>
      cases started with
      | none => exact .single (by simp only [writeStep, begins])
      | some pair =>
          obtain ⟨ifile, pos⟩ := pair
          have first : WriteSteps call (.start, fs) (.round ⟨ifile, pos / blockSize,
              pos % blockSize, call.data, u32 (pos + call.data.length)⟩, fs₁) :=
            .single (by simp only [writeStep, begins])
          have loop := @loop_alone call call.data.length fs₁ ⟨ifile, pos / blockSize,
            pos % blockSize, call.data, u32 (pos + call.data.length)⟩
            (Nat.mod_lt pos (by decide)) (Nat.le_refl _)
          dsimp only at loop ⊢
          generalize writeLoop ifile call.data.length _ _ call.data fs₁ = r at loop ⊢
          obtain ⟨done, fs₂⟩ := r
          cases done with
          | false => exact first.trans loop
          | true =>
              obtain ⟨l, steps, empty, ptr, stop⟩ := loop
              dsimp only at ptr stop ⊢
              by_cases past : (fs₂.deref ifile).size < u32 (pos + call.data.length)
              · rw [if_pos past]
                refine ((first.trans steps).tail (b := (.round l, fs₂))
                  (c := (.growing l.ifile l.stop, fs₂)) ?_).tail ?_
                · simp only [writeStep, if_pos empty, ptr, stop, if_pos past]
                · simp only [writeStep, ptr, stop]
              · rw [if_neg past]
                refine (first.trans steps).tail ?_
                simp only [writeStep, if_pos empty, ptr, stop, if_neg past]

structure ReadCall where
  file : Nat
  offset : Nat
  count : Nat

structure ReadLocals where
  ifile : InodePtr
  max : Nat
  blksUsed : Nat
  iblock : Nat
  buffer : List UInt8

def ReadLocals.next (l : ReadLocals) (offset : Nat) (data : Block) : ReadLocals :=
  let start := if l.buffer.length = 0 then offset % blockSize else 0
  let num := min (blockSize - start) (l.max - l.buffer.length)
  { l with iblock := l.iblock + 1, buffer := l.buffer ++ data.slice start num }

inductive ReadPhase where
  | start
  | opened (ifile : InodePtr)
  | round (l : ReadLocals)
  | located (l : ReadLocals) (blockNum : Nat)
  | missed (l : ReadLocals) (blockNum : Nat)
  | fetched (l : ReadLocals) (blockNum : Nat) (data : Block)
  | returned (bytes : Option (List UInt8))

/-- One step of a call; `none` after it has returned. -/
def readStep (call : ReadCall) (fs : Fs) : ReadPhase → Option (ReadPhase × Fs)
  | .start =>
    if itabSize ≤ call.file then some (.returned none, fs)
    else
      match openInode fs call.file with
      | none => some (.returned none, fs)
      | some (ifile, fs) => some (.opened ifile, fs)
  | .opened ifile =>
    let inode := fs.deref ifile
    if inode.type ≠ .file then some (.returned none, fs)
    else if inode.size ≤ call.offset then some (.returned (some []), fs)
    else some (.round ⟨ifile, asCount (min call.count (inode.size - call.offset)), inode.used,
      call.offset / blockSize, []⟩, fs)
  | .round l =>
    if l.buffer.length < l.max ∧ l.iblock < l.blksUsed then
      if inodeNumBlks ≤ l.iblock then some (.returned none, fs)
      else some (.located l ((fs.deref l.ifile).blocks l.iblock), fs)
    else some (.returned (some l.buffer), fs)
  | .located l blockNum =>
    match findBlockInCache fs blockNum with
    | some (s, fs) =>
        some (.round (l.next call.offset (fs.blockCache s).val), fs.touchBlock s)
    | none => some (.missed l blockNum, fs)
  | .missed l blockNum =>
    match blockRead fs.blocks blockNum with
    | none => some (.returned none, fs)
    | some data => some (.fetched l blockNum data, fs)
  | .fetched l blockNum data =>
      some (.round (l.next call.offset data), addBlockToCache fs blockNum data false)
  | .returned _ => none

abbrev ReadSteps (call : ReadCall) : ReadPhase × Fs → ReadPhase × Fs → Prop :=
  Relation.ReflTransGen fun s s' => readStep call s.2 s.1 = some s'

private theorem readLoop_alone (call : ReadCall) {fuel : Nat} {fs : Fs} {l : ReadLocals}
    (enough : l.blksUsed - l.iblock ≤ fuel) :
    ReadSteps call (.round l, fs)
      (.returned (readLoop l.ifile call.offset l.max l.blksUsed fuel l.iblock l.buffer fs).1,
        (readLoop l.ifile call.offset l.max l.blksUsed fuel l.iblock l.buffer fs).2) := by
  induction fuel generalizing fs l with
  | zero =>
      exact .single (by simp only [readStep, readLoop]; rw [if_neg (by omega)])
  | succ fuel ih =>
      rw [readLoop]
      dsimp only
      by_cases more : l.buffer.length < l.max ∧ l.iblock < l.blksUsed
      swap
      · rw [if_neg more]
        exact .single (by simp only [readStep, if_neg more])
      rw [if_pos more]
      by_cases out : inodeNumBlks ≤ l.iblock
      · rw [if_pos out]
        exact .single (by simp only [readStep, if_pos more, if_pos out])
      rw [if_neg out]
      generalize hb : (fs.deref l.ifile).blocks l.iblock = b
      have located : ReadSteps call (.round l, fs) (.located l b, fs) :=
        .single (by simp only [readStep, if_pos more, if_neg out, hb])
      have less (data : Block) : (l.next call.offset data).blksUsed -
          (l.next call.offset data).iblock ≤ fuel := by
        simp only [ReadLocals.next]
        omega
      cases found : fs.blockCache.find? b with
      | some s =>
          simp only [fetchBlock, findBlockInCache, found, Option.map_some]
          have round : ReadSteps call (.round l, fs) (.round
              (l.next call.offset ((fs.touchBlock s).blockCache s).val),
              (fs.touchBlock s).touchBlock s) :=
            located.tail (by simp only [readStep, findBlockInCache, found, Option.map_some])
          exact round.trans (ih (less _))
      | none =>
          have missed : ReadSteps call (.round l, fs) (.missed l b, fs) :=
            located.tail (by simp only [readStep, findBlockInCache, found, Option.map_none])
          cases read : blockRead fs.blocks b with
          | none =>
              simp only [fetchBlock, findBlockInCache, found, Option.map_none, read]
              exact missed.tail (by simp only [readStep, read])
          | some data =>
              simp only [fetchBlock, findBlockInCache, found, Option.map_none, read]
              have fetched : ReadSteps call (.round l, fs) (.fetched l b data, fs) :=
                missed.tail (by simp only [readStep, read])
              have round : ReadSteps call (.round l, fs)
                  (.round (l.next call.offset data), addBlockToCache fs b data false) :=
                fetched.tail rfl
              exact round.trans (ih (less data))

/-- A call that is alone ends as `fsRead` does. -/
theorem read_alone (call : ReadCall) (fs : Fs) :
    ReadSteps call (.start, fs) (.returned (fsRead fs call.file call.offset call.count).1,
      (fsRead fs call.file call.offset call.count).2) := by
  rw [fsRead]
  by_cases out : itabSize ≤ call.file
  · rw [if_pos out]
    exact .single (by simp only [readStep, if_pos out])
  rw [if_neg out]
  cases opened : openInode fs call.file with
  | none => exact .single (by simp only [readStep, if_neg out, opened])
  | some pair =>
      obtain ⟨ifile, fs₁⟩ := pair
      have first : ReadSteps call (.start, fs) (.opened ifile, fs₁) :=
        .single (by simp only [readStep, if_neg out, opened])
      dsimp only
      by_cases notFile : (fs₁.deref ifile).type ≠ .file
      · rw [if_pos notFile]
        exact first.tail (by simp only [readStep, if_pos notFile])
      rw [if_neg notFile]
      by_cases past : (fs₁.deref ifile).size ≤ call.offset
      · rw [if_pos past]
        exact first.tail (by simp only [readStep, if_neg notFile, if_pos past])
      · rw [if_neg past]
        have loop := @readLoop_alone call ((fs₁.deref ifile).used - call.offset / blockSize) fs₁
          ⟨ifile, asCount (min call.count ((fs₁.deref ifile).size - call.offset)),
            (fs₁.deref ifile).used, call.offset / blockSize, []⟩ (Nat.le_refl _)
        exact (first.tail (by simp only [readStep, if_neg notFile, if_neg past])).trans loop

end Snfs
