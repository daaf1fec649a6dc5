import Snfs.Block.Geometry
import Snfs.Fs.Formatting
import Snfs.Library.ColdSlots

/-!
`cached_block_read` and `cached_block_write` against the device without a cache.
The ten entries that `fs_new` clears claim block 0 with zero bytes, a block that
the device refuses is cached all the same, and a write never asks the device. A
sequence of calls returns what the device would return exactly when no call meets
one of the three.
-/

namespace Snfs

open Slots Runs

/-- `cached_block_read`; `none` is the return value -1. A block that is not cached is inserted
as `buffer` then holds it, also when the device has refused it. -/
def cachedBlockRead (fs : Fs) (blockNum : Nat) (buffer : Block) : Option Block × Fs :=
  match findBlockInCache fs blockNum with
  | some (s, fs) => (some (fs.blockCache s).val, fs)
  | none =>
    let res := blockRead fs.blocks blockNum
    (res, addBlockToCache fs blockNum (res.getD buffer) false)

def cachedBlockWrite (fs : Fs) (blockNum : Nat) (data : Block) : Int × Fs :=
  match findBlockInCache fs blockNum with
  | some (s, fs) =>
      (0, { fs with blockCache := fs.blockCache.write s data true : Fs }.touchBlock s)
  | none => (0, addBlockToCache fs blockNum data true)

inductive BlockCall where
  | read (blockNum : Nat) (buffer : Block)
  | write (blockNum : Nat) (data : Block)

def readReturn (res : Option Block) : Int × Option Block := (if res.isSome then 0 else -1, res)

def cachedStep (fs : Fs) : BlockCall → Option ((Int × Option Block) × Fs)
  | .read b buffer =>
    let (res, fs) := cachedBlockRead fs b buffer
    some (readReturn res, fs)
  | .write b data =>
    let (res, fs) := cachedBlockWrite fs b data
    some ((res, none), fs)

def deviceStep (bks : Blocks blockSize) :
    BlockCall → Option ((Int × Option Block) × Blocks blockSize)
  | .read b _ => some (readReturn (blockRead bks b), bks)
  | .write b data => some ((blockWriteStatus bks b, none), blockWrite bks b data)

/-- An entry as `fs_new` leaves it. -/
def Cleared (s : Slot Nat Block) : Prop := s = ⟨0, .zero, false, 0⟩

/-- The call meets none of the three defects: it does not write to a block that the device does
not have, nor read one that an earlier read has brought into the cache, and a read that finds
an entry as `fs_new` left it asks for a block that is zero on the device too. -/
def Undisturbed (fs : Fs) : BlockCall → Prop
  | .read b _ =>
    if b < fs.numBlocks then ∀ s, fs.blockCache.find? b = some s → Cleared (fs.blockCache s) →
      fs.blocks.content b = .zero
    else fs.blockCache.find? b = none
  | .write b _ => b < fs.numBlocks

/-- The cache and its device stand for the device without a cache. -/
structure StandsFor (fs : Fs) (dev : Blocks blockSize) : Prop where
  unwrapped : fs.blocks.Unwrapped
  numBlocks : dev.numBlocks = fs.numBlocks
  tracks : ∀ b, b < fs.numBlocks →
    Table.Tracks Cleared fs.blockCache fs.blocks.content dev.content b

variable {fs : Fs} {dev : Blocks blockSize} {b : Nat}

theorem clean_of_cleared (s : Slot Nat Block) (h : Cleared s) : s.dirty = false := by
  cases h
  rfl

namespace StandsFor

theorem touch (h : StandsFor fs dev) {s : Fin blockCacheSize}
    (found : fs.blockCache.find? b = some s)
    (right : b < fs.numBlocks → (fs.blockCache s).val = dev.content b) :
    StandsFor (fs.touchBlock s) dev :=
  ⟨h.unwrapped, h.numBlocks, fun c hc => (h.tracks c hc).touch clean_of_cleared found
    (fun same => same ▸ right (same ▸ hc)) _⟩

private theorem deviceUnwrapped (h : StandsFor fs dev) : dev.Unwrapped := by
  have whole := h.unwrapped
  rwa [Blocks.Unwrapped, ← show dev.numBlocks = fs.blocks.numBlocks from h.numBlocks] at whole

theorem write (h : StandsFor fs dev) (inside : b < fs.numBlocks) {s : Fin blockCacheSize}
    (found : fs.blockCache.find? b = some s) (data : Block) (later : Int) {c : Nat}
    (hc : c < fs.numBlocks) :
    Table.Tracks Cleared ((fs.blockCache.write s data true).touch s later) fs.blocks.content
      (blockWrite dev b data).content c := by
  have inDevice : b < dev.numBlocks := h.numBlocks ▸ inside
  have written : (blockWrite dev b data).content c = Function.update dev.content b data c := by
    rw [Blocks.content_write h.deviceUnwrapped inDevice data (h.numBlocks ▸ hc),
      Function.update_apply]
  have finds := Table.find_congr (fun i => Table.write_key fs.blockCache s data true i) b
  have filled := ((h.tracks c hc).write clean_of_cleared found data).congr rfl written
  refine filled.touch clean_of_cleared (finds.trans found) (fun same => ?_) later
  rw [Table.write_val, if_pos rfl, written, same, Function.update_self]

theorem insert (h : StandsFor fs dev) (absent : fs.blockCache.Absent b) {data : Block} {d : Bool}
    {dev' : Blocks blockSize} (size : dev'.numBlocks = dev.numBlocks)
    (right : b < fs.numBlocks → data = dev'.content b)
    (stored : b < fs.numBlocks → d = false → fs.blocks.content b = dev'.content b)
    (others : ∀ c, c < fs.numBlocks → c ≠ b → dev'.content c = dev.content c) :
    StandsFor (addBlockToCache fs b data d) dev' := by
  rw [addBlockToCache]
  generalize (oldest fun i => (fs.blockCache i).lastAccess) = v
  have num := numBlocks_addBlockAt fs v b data d
  refine ⟨?_, by rw [num, size, h.numBlocks], fun c hc => ?_⟩
  · have whole := h.unwrapped
    rwa [Blocks.Unwrapped, ← show (addBlockAt fs v b data d).blocks.numBlocks =
      fs.blocks.numBlocks from num] at whole
  · rw [num] at hc
    have evicted := content_addBlockAt h.unwrapped v b data d hc
    by_cases same : c = b
    · subst same
      exact (Table.Tracks.place_new clean_of_cleared absent v data d fs.now (right hc)
        (stored hc)).congr evicted rfl
    · exact ((h.tracks c hc).place_other clean_of_cleared same v data d fs.now).congr evicted
        (others c hc same)

/-- A read returns what the device returns exactly when it is undisturbed. -/
theorem read_iff (h : StandsFor fs dev) (buffer : Block) :
    (readReturn (cachedBlockRead fs b buffer).1 = readReturn (blockRead dev b) ↔
      Undisturbed fs (.read b buffer)) ∧
    (Undisturbed fs (.read b buffer) → StandsFor (cachedBlockRead fs b buffer).2 dev) := by
  have returned (x y : Option Block) : readReturn x = readReturn y ↔ x = y :=
    ⟨fun same => congrArg Prod.snd same, fun same => by rw [same]⟩
  rw [returned, Undisturbed]
  by_cases inside : b < fs.numBlocks
  · have device : blockRead dev b = some (dev.content b) := Blocks.read_of_lt (h.numBlocks ▸ inside)
    rw [if_pos inside, device]
    cases found : fs.blockCache.find? b with
    | none =>
        have stored := (h.tracks b inside).store_of_absent found
        have kept : blockRead fs.blocks b = some (dev.content b) := by
          rw [Blocks.read_of_lt inside, stored]
        simp only [cachedBlockRead, findBlockInCache, found, Option.map_none, kept]
        refine ⟨⟨by simp, fun _ => trivial⟩, fun _ => ?_⟩
        exact h.insert (Table.absent_of_find found) rfl (fun _ => rfl) (fun _ _ => stored)
          fun _ _ _ => rfl
    | some s =>
        simp only [cachedBlockRead, findBlockInCache, found, Option.map_some, Option.some.injEq,
          Fs.touchBlock, Table.touch_val, forall_eq']
        have value : (fs.blockCache s).val = dev.content b ↔
            (Cleared (fs.blockCache s) → fs.blocks.content b = .zero) := by
          by_cases cold : Cleared (fs.blockCache s)
          · rw [(h.tracks b inside).store_of_cold found cold, cold]
            exact ⟨fun same _ => same.symm, fun same => (same rfl).symm⟩
          · exact ⟨fun _ isCold => absurd isCold cold,
              fun _ => (h.tracks b inside).val_of_live found cold⟩
        exact ⟨value, fun guard => h.touch found fun _ => value.mpr guard⟩
  · have refused : blockRead dev b = none := if_pos (h.numBlocks ▸ Nat.not_lt.mp inside)
    rw [if_neg inside, refused]
    cases found : fs.blockCache.find? b with
    | none =>
        have kept : blockRead fs.blocks b = none := if_pos (Nat.not_lt.mp inside)
        simp only [cachedBlockRead, findBlockInCache, found, Option.map_none, kept]
        refine ⟨trivial, fun _ => ?_⟩
        exact h.insert (Table.absent_of_find found) rfl (fun lt => absurd lt inside)
          (fun lt => absurd lt inside) fun _ _ _ => rfl
    | some s => simp [cachedBlockRead, findBlockInCache, found]

/-- A write returns what the device returns exactly when it is undisturbed. -/
theorem write_iff (h : StandsFor fs dev) (data : Block) :
    ((cachedBlockWrite fs b data).1 = blockWriteStatus dev b ↔ Undisturbed fs (.write b data)) ∧
    (Undisturbed fs (.write b data) →
      StandsFor (cachedBlockWrite fs b data).2 (blockWrite dev b data)) := by
  have zero : (cachedBlockWrite fs b data).1 = 0 := by
    rw [cachedBlockWrite]
    split <;> rfl
  rw [zero, Undisturbed, blockWriteStatus, h.numBlocks]
  constructor
  · split
    · exact ⟨fun fails => absurd fails (by decide), fun inside => by omega⟩
    · exact ⟨fun _ => by omega, fun _ => rfl⟩
  · intro inside
    have inDevice : b < dev.numBlocks := h.numBlocks ▸ inside
    have written (c : Nat) (hc : c < fs.numBlocks) :
        (blockWrite dev b data).content c = if c = b then data else dev.content c :=
      Blocks.content_write h.deviceUnwrapped inDevice data (h.numBlocks ▸ hc)
    cases found : fs.blockCache.find? b with
    | none =>
        simp only [cachedBlockWrite, findBlockInCache, found, Option.map_none]
        exact h.insert (Table.absent_of_find found) (Blocks.numBlocks_write dev b data)
          (fun _ => by rw [written b inside, if_pos rfl]) (by simp)
          fun c hc other => by rw [written c hc, if_neg other]
    | some s =>
        simp only [cachedBlockWrite, findBlockInCache, found, Option.map_some, Fs.touchBlock]
        refine ⟨h.unwrapped, (Blocks.numBlocks_write dev b data).trans h.numBlocks,
          fun c hc => ?_⟩
        rw [Table.touch_write_touch]
        exact h.write inside found data _ hc

end StandsFor

/-- What `fs_new` and `fs_format` leave of the block cache and the device, whatever the device
holds. -/
theorem standsFor_boot {num : Nat} {clock : Nat → Int} {boot : Fs}
    (started : fsBoot num clock = some boot) (fits : num * blockSize < 2 ^ 32)
    (contents : Nat → UInt8) :
    StandsFor { boot with blocks := ⟨num, contents⟩ } ⟨num, contents⟩ := by
  have unused := fsBoot_unused fits started
  have cache : boot.blockCache = fun _ => ⟨0, .zero, false, 0⟩ := unused.blockCache
  refine ⟨fits, rfl, fun b _ => .of_cold (fun i => ?_) rfl⟩
  rw [cache]
  rfl

/-- After `fs_new` and `fs_format`, whatever the device holds, a sequence of calls of the cached
functions returns what the device without a cache returns exactly when every call is
undisturbed in the state before it. -/
theorem cached_calls_follow_device_iff {num : Nat} {clock : Nat → Int} {boot : Fs}
    (started : fsBoot num clock = some boot) (fits : num * blockSize < 2 ^ 32)
    (contents : Nat → UInt8) (calls : List BlockCall) :
    (execute cachedStep { boot with blocks := ⟨num, contents⟩ } calls).map Prod.fst =
        (execute deviceStep ⟨num, contents⟩ calls).map Prod.fst ↔
      Meets cachedStep Undisturbed { boot with blocks := ⟨num, contents⟩ } calls := by
  refine results_eq_iff_meets (fun fs c => by cases c <;> rfl) (fun bks c => by cases c <;> rfl)
    (fun fs dev c x y related first second => ?_) calls (standsFor_boot started fits contents)
  cases c with
  | read b buffer =>
      cases first
      cases second
      exact related.read_iff buffer
  | write b data =>
      cases first
      cases second
      refine ⟨?_, (related.write_iff data).2⟩
      rw [Prod.mk.injEq, and_iff_left rfl]
      exact (related.write_iff data).1

def BlockCall.blockNum : BlockCall → Nat
  | .read b _ | .write b _ => b

private theorem numBlocks_cachedRead (fs : Fs) (b : Nat) (buffer : Block) :
    (cachedBlockRead fs b buffer).2.numBlocks = fs.numBlocks := by
  simp only [cachedBlockRead, findBlockInCache]
  cases fs.blockCache.find? b with
  | some s => rfl
  | none => exact numBlocks_addBlockAt _ _ _ _ _

private theorem numBlocks_cachedWrite (fs : Fs) (b : Nat) (data : Block) :
    (cachedBlockWrite fs b data).2.numBlocks = fs.numBlocks := by
  simp only [cachedBlockWrite, findBlockInCache]
  cases fs.blockCache.find? b with
  | some s => rfl
  | none => exact numBlocks_addBlockAt _ _ _ _ _

/-- Calls on the blocks of the device other than block 0 are undisturbed. -/
theorem meets_of_inner {calls : List BlockCall}
    (inner : ∀ c ∈ calls, 0 < c.blockNum ∧ c.blockNum < fs.numBlocks) :
    Meets cachedStep Undisturbed fs calls := by
  induction calls generalizing fs with
  | nil => trivial
  | cons c rest ih =>
      obtain ⟨low, high⟩ := inner c List.mem_cons_self
      have more (fs' : Fs) (size : fs'.numBlocks = fs.numBlocks) :
          Meets cachedStep Undisturbed fs' rest :=
        ih fun c' member => size ▸ inner c' (List.mem_cons_of_mem c member)
      cases c with
      | read b buffer =>
          refine ⟨?_, fun next now => ?_⟩
          · rw [Undisturbed, if_pos (show b < fs.numBlocks from high)]
            intro s found cleared
            have key := Table.key_of_find found
            rw [cleared] at key
            exact absurd key (Nat.ne_of_lt low)
          · cases now
            exact more _ (numBlocks_cachedRead fs b buffer)
      | write b data =>
          refine ⟨high, fun next now => ?_⟩
          cases now
          exact more _ (numBlocks_cachedWrite fs b data)

/-- A write and two reads on a device of 64 blocks. -/
theorem cached_calls_follow_device_iff_inner :
    ∃ boot, fsBoot 64 (fun _ => 1) = some boot ∧
      let calls := [.write 20 fun _ => 7, .read 20 .zero, .read 30 .zero]
      (execute cachedStep { boot with blocks := ⟨64, fun _ => 5⟩ } calls).map Prod.fst =
        (execute deviceStep ⟨64, fun _ => 5⟩ calls).map Prod.fst := by
  have started : fsBoot 64 (fun _ => 1) = some _ := rfl
  refine ⟨_, started, (cached_calls_follow_device_iff started (by decide) _ _).mpr
    (meets_of_inner ?_)⟩
  simp only [List.forall_mem_cons, BlockCall.blockNum]
  exact ⟨by decide, by decide, by decide, fun _ none => (nomatch none)⟩

/-- A new file system of 16 blocks: block 0, which holds the bitmap, is read as zeros from the
cache, and a write to block 16 succeeds that the device refuses. -/
theorem cache_answers_for_device :
    (fsBoot 16 fun _ => 1).map (fun boot =>
      ((cachedBlockRead boot 0 .zero).1.map (Buf.get · 0), (blockRead boot.blocks 0).map (Buf.get · 0),
        (cachedBlockWrite boot 16 .zero).1, blockWriteStatus boot.blocks 16)) =
      some (some 0, some 255, 0, -1) := by
  decide

end Snfs
