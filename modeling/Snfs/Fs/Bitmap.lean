import Snfs.Fs.Layout

/-!
The allocation step on the bytes of memory that it works on. A bitmap is an
array of `char`, a byte is widened with its sign to an `int` before the mask is
applied, and nothing keeps the search within the array: behind `blk_bmap` lies
the inode table. Where the step stays inside, it is the search and the marking
that the operations of the file system are modelled with.
-/

namespace Snfs

abbrev Memory : Type := Nat → BitVec 8

/-- `fs_t` from `blk_bmap` on: the bitmap and what lies behind it. -/
def memory (bmap : Block) (behind : Nat → UInt8) : Memory := fun k =>
  (if k < blockSize then bmap.get k else behind (k - blockSize)).toBitVec

def bitMask (num : Nat) : BitVec 32 := 1#32 <<< (num % 8)

def Memory.isset (mem : Memory) (num : Nat) : Bool :=
  ((mem (num / 8)).signExtend 32 &&& bitMask num) != 0#32

/-- `BMAP_SET` on memory; the `int` is stored back into the `char`. -/
def Memory.set (mem : Memory) (num : Nat) : Memory :=
  Function.update mem (num / 8) (((mem (num / 8)).signExtend 32 ||| bitMask num).setWidth 8)

/-- The loop of `fsi_bmap_find_free` from `i` on, `n` rounds at most: the numbers that it tests
and `*free`. -/
def findFreeFrom (mem : Memory) : (n i : Nat) → List Nat × Option Nat
  | 0, _ => ([], none)
  | n + 1, i =>
    if mem.isset i then (i :: (findFreeFrom mem n (i + 1)).1, (findFreeFrom mem n (i + 1)).2)
    else ([i], some i)

structure Allocation where
  tested : List Nat
  found : Option Nat
  memory : Memory

/-- `fsi_bmap_find_free(bmap, block_num_blocks(fs->blocks), &b)`, and `BMAP_SET(bmap, b)` when it
returns 1. -/
def allocate (mem : Memory) (numBlocks : Nat) : Allocation :=
  let search := findFreeFrom mem (asCount numBlocks) 0
  { tested := search.1
    found := search.2
    memory := match search.2 with
      | none => mem
      | some b => mem.set b }

/-- A step that tests bits of the bitmap only, and changes nothing or marks the least clear number
below both bounds. -/
def Allocation.Inside (step : Allocation) (bmap : Block) (behind : Nat → UInt8)
    (numBlocks : Nat) : Prop :=
  (∀ i ∈ step.tested, i < bmapBits) ∧
    (step.found = none ∧ step.memory = Snfs.memory bmap behind ∨
      ∃ b, step.found = some b ∧ b < min numBlocks bmapBits ∧ bmapIsset bmap b = false ∧
        (∀ j < b, bmapIsset bmap j = true) ∧
        ∃ bmap', step.memory = Snfs.memory bmap' behind ∧
          ∀ j, bmapIsset bmap' j = (bmapIsset bmap j || decide (b = j)))

private theorem getLsbD_bitMask (num : Nat) {j : Nat} (hj : j < 32) :
    (bitMask num).getLsbD j = decide (num % 8 = j) := by
  have inside : num % 8 < 8 := Nat.mod_lt num (by decide)
  rw [bitMask, BitVec.getLsbD_shiftLeft, BitVec.getLsbD_one]
  rcases Nat.lt_trichotomy j (num % 8) with low | same | high
  · simp [low, Nat.ne_of_gt low]
  · subst same
    simp [hj]
  · have := Nat.sub_pos_of_lt high
    simp [hj, Nat.not_lt_of_gt high, Nat.ne_of_lt high]
    omega

/-- Neither the sign of a byte nor its widening shows in the test of one of its bits. -/
theorem Memory.isset_eq (mem : Memory) (num : Nat) :
    mem.isset num = (mem (num / 8)).getLsbD (num % 8) := by
  have inside : num % 8 < 8 := Nat.mod_lt num (by decide)
  have bit (j : Nat) (hj : j < 32) :
      ((mem (num / 8)).signExtend 32 &&& bitMask num).getLsbD j =
        ((mem (num / 8)).getLsbD (num % 8) && decide (num % 8 = j)) := by
    rw [BitVec.getLsbD_and, getLsbD_bitMask num hj, BitVec.getLsbD_signExtend]
    by_cases same : num % 8 = j
    · subst same
      rw [if_pos inside]
      simp only [hj, decide_true, Bool.true_and, Bool.and_true]
    · simp only [same, decide_false, Bool.and_false]
  cases set : (mem (num / 8)).getLsbD (num % 8) with
  | true =>
      rw [Memory.isset, bne_iff_ne]
      intro zero
      have here := bit (num % 8) (by omega)
      rw [zero, set] at here
      simp at here
  | false =>
      rw [Memory.isset, bne_eq_false_iff_eq]
      apply BitVec.eq_of_getLsbD_eq
      intro j hj
      rw [bit j hj, set]
      simp

private theorem getLsbD_marked (byte : BitVec 8) (num : Nat) {j : Nat} (hj : j < 8) :
    ((byte.signExtend 32 ||| bitMask num).setWidth 8).getLsbD j =
      (byte.getLsbD j || decide (num % 8 = j)) := by
  have wide : j < 32 := by omega
  rw [BitVec.getLsbD_setWidth, BitVec.getLsbD_or, getLsbD_bitMask num wide,
    BitVec.getLsbD_signExtend]
  simp [hj, wide]

/-- The bit of the bitmap that a bit of memory is. -/
theorem memory_isset (bmap : Block) (behind : Nat → UInt8) {i : Nat} (h : i < bmapBits) :
    (memory bmap behind).isset i = bmapIsset bmap i := by
  have byte : i / 8 < blockSize := by simp only [bmapBits, blockSize] at h ⊢; omega
  rw [Memory.isset_eq, bmapIsset, Buf.bit, memory, if_pos byte]
  rfl

private theorem memory_set (bmap : Block) (behind : Nat → UInt8) {b : Nat} (h : b < bmapBits) :
    (memory bmap behind).set b = memory (bmapSet bmap b) behind := by
  have inside : b / 8 < blockSize := by simp only [bmapBits, blockSize] at h ⊢; omega
  funext k
  by_cases here : k = b / 8
  · subst here
    apply BitVec.eq_of_getLsbD_eq
    intro j hj
    have byte (bmap : Block) (j : Nat) (hj : j < 8) :
        (memory bmap behind (b / 8)).getLsbD j = bmapIsset bmap (8 * (b / 8) + j) := by
      rw [← memory_isset bmap behind (by simp only [bmapBits, blockSize] at inside ⊢; omega),
        Memory.isset_eq, show (8 * (b / 8) + j) / 8 = b / 8 by omega,
        show (8 * (b / 8) + j) % 8 = j by omega]
    rw [Memory.set, Function.update_self, getLsbD_marked _ b hj, byte _ j hj, byte _ j hj,
      bmapIsset_set h]
    congr 2
    exact propext (by omega)
  · rw [Memory.set, Function.update_of_ne here, memory, memory]
    by_cases low : k < blockSize
    · rw [if_pos low, if_pos low, bmapSet, Buf.get_of_lt _ low, Buf.get_of_lt _ low, Buf.setBit,
        if_neg here]
    · rw [if_neg low, if_neg low]

theorem mem_findFreeFrom (mem : Memory) {n i k : Nat} :
    k ∈ (findFreeFrom mem n i).1 ↔
      i ≤ k ∧ k < i + n ∧ ∀ j, i ≤ j → j < k → mem.isset j = true := by
  induction n generalizing i with
  | zero =>
      simp only [findFreeFrom, List.not_mem_nil, false_iff]
      omega
  | succ n ih =>
      rw [findFreeFrom]
      cases here : mem.isset i with
      | true =>
          simp only [if_true, List.mem_cons, ih]
          constructor
          · rintro (rfl | ⟨above, below, set⟩)
            · exact ⟨Nat.le_refl k, by omega, fun j low high => by omega⟩
            · refine ⟨by omega, by omega, fun j low high => ?_⟩
              rcases Nat.eq_or_lt_of_le low with rfl | low
              · exact here
              · exact set j low high
          · intro ⟨above, below, set⟩
            rcases Nat.eq_or_lt_of_le above with rfl | above
            · exact .inl rfl
            · exact .inr ⟨above, by omega, fun j low high => set j (by omega) high⟩
      | false =>
          simp only [Bool.false_eq_true, if_false, List.mem_singleton]
          constructor
          · rintro rfl
            exact ⟨Nat.le_refl k, by omega, fun j low high => by omega⟩
          · intro ⟨above, below, set⟩
            by_contra other
            have := set i (Nat.le_refl i) (by omega)
            rw [here] at this
            cases this

theorem findFreeFrom_eq_some (mem : Memory) {n i b : Nat} :
    (findFreeFrom mem n i).2 = some b ↔
      b ∈ (findFreeFrom mem n i).1 ∧ mem.isset b = false := by
  induction n generalizing i with
  | zero => simp [findFreeFrom]
  | succ n ih =>
      rw [findFreeFrom]
      cases here : mem.isset i with
      | true =>
          simp only [if_true, List.mem_cons, ih]
          constructor
          · exact fun ⟨tested, clear⟩ => ⟨.inr tested, clear⟩
          · rintro ⟨rfl | tested, clear⟩
            · rw [here] at clear
              cases clear
            · exact ⟨tested, clear⟩
      | false =>
          simp only [Bool.false_eq_true, if_false, List.mem_singleton, Option.some.injEq]
          constructor
          · rintro rfl
            exact ⟨rfl, here⟩
          · exact fun ⟨same, _⟩ => same.symm

private theorem memory_found_eq_some (bmap : Block) (behind : Nat → UInt8) {n b : Nat}
    (bit : b < bmapBits) :
    (findFreeFrom (memory bmap behind) n 0).2 = some b ↔ fsiBmapFindFree bmap n = some b := by
  have least : (∀ j, 0 ≤ j → j < b → (memory bmap behind).isset j = true) ↔
      ∀ j, j < b → bmapIsset bmap j = true :=
    forall_congr' fun j => by
      simp only [Nat.zero_le, true_imp_iff]
      exact imp_congr_right fun low => by rw [memory_isset _ _ (Nat.lt_trans low bit)]
  rw [findFreeFrom_eq_some, mem_findFreeFrom, memory_isset _ _ bit, least]
  constructor
  · rintro ⟨⟨-, below, set⟩, clear⟩
    rw [fsiBmapFindFree, List.find?_range_eq_some]
    exact ⟨by simp [clear], List.mem_range.mpr (by omega), fun j hj => by simp [set j hj]⟩
  · intro found
    obtain ⟨below, clear, set⟩ := findFree_spec found
    exact ⟨⟨Nat.zero_le b, by omega, set⟩, clear⟩

/-- Where a clear bit, or the size, keeps the search inside the bitmap, it tests bits of the bitmap
only. -/
theorem tested_inside {bmap : Block} {behind : Nat → UInt8} {n : Nat}
    (bound : n ≤ bmapBits ∨ ∃ b, b < bmapBits ∧ bmapIsset bmap b = false) {i : Nat}
    (tested : i ∈ (findFreeFrom (memory bmap behind) n 0).1) : i < bmapBits := by
  obtain ⟨-, below, set⟩ := (mem_findFreeFrom _).mp tested
  rcases bound with small | ⟨b, bit, clear⟩
  · omega
  · by_contra out
    have marked := set b (Nat.zero_le b) (by omega)
    rw [memory_isset _ _ bit, clear] at marked
    cases marked

theorem found_inside {bmap : Block} {n b : Nat}
    (bound : n ≤ bmapBits ∨ ∃ b, b < bmapBits ∧ bmapIsset bmap b = false)
    (found : fsiBmapFindFree bmap n = some b) : b < bmapBits := by
  obtain ⟨below, -, set⟩ := findFree_spec found
  rcases bound with small | ⟨c, inside, clear⟩
  · omega
  · by_contra out
    have marked := set c (by omega)
    rw [clear] at marked
    cases marked

/-- A search that stays inside the bitmap ends as the search of the model does. -/
theorem memory_found {bmap : Block} (behind : Nat → UInt8) {n : Nat}
    (bound : n ≤ bmapBits ∨ ∃ b, b < bmapBits ∧ bmapIsset bmap b = false) :
    (findFreeFrom (memory bmap behind) n 0).2 = fsiBmapFindFree bmap n := by
  apply Option.ext
  intro b
  by_cases bit : b < bmapBits
  · exact memory_found_eq_some bmap behind bit
  · constructor
    · intro found
      exact absurd (tested_inside bound ((findFreeFrom_eq_some _).mp found).1) bit
    · exact fun found => absurd (found_inside bound found) bit

private theorem allocate_found {mem : Memory} {numBlocks b : Nat}
    (tested : b ∈ (allocate mem numBlocks).tested) (clear : mem.isset b = false) :
    (allocate mem numBlocks).found = some b :=
  (findFreeFrom_eq_some mem).mpr ⟨tested, clear⟩

private theorem allocate_memory {mem : Memory} {numBlocks b : Nat}
    (found : (allocate mem numBlocks).found = some b) :
    (allocate mem numBlocks).memory = mem.set b := by
  simp only [allocate] at found ⊢
  rw [found]

/-- The step on memory is the step that the operations are modelled with, as long as the search
stays inside the bitmap and the size is one that an `int` can hold. -/
theorem allocate_eq {bmap : Block} (behind : Nat → UInt8) {numBlocks : Nat}
    (small : numBlocks < 2 ^ 31)
    (bound : numBlocks ≤ bmapBits ∨ ∃ b, b < bmapBits ∧ bmapIsset bmap b = false) :
    (allocate (memory bmap behind) numBlocks).found = fsiBmapFindFree bmap numBlocks ∧
      (allocate (memory bmap behind) numBlocks).memory =
        memory (match fsiBmapFindFree bmap numBlocks with
          | none => bmap
          | some b => bmapSet bmap b) behind := by
  have count : asCount numBlocks = numBlocks := if_pos small
  have found := memory_found behind bound
  rw [allocate, count]
  refine ⟨found, ?_⟩
  simp only [found]
  cases free : fsiBmapFindFree bmap numBlocks with
  | none => rfl
  | some b => exact memory_set bmap behind (found_inside bound free)

/-- With every bit of the bitmap set and more blocks than bits, the search tests what lies behind
the bitmap. -/
theorem allocate_outside {bmap : Block} (behind : Nat → UInt8) {numBlocks : Nat}
    (large : bmapBits < numBlocks) (small : numBlocks < 2 ^ 31)
    (full : ∀ b, b < bmapBits → bmapIsset bmap b = true) :
    bmapBits ∈ (allocate (memory bmap behind) numBlocks).tested := by
  rw [allocate, asCount, if_pos small]
  exact (mem_findFreeFrom _).mpr
    ⟨Nat.zero_le _, by omega, fun j _ bit => (memory_isset bmap behind bit).trans (full j bit)⟩

def fullBmap : Block := fun _ => 255

private theorem bmapIsset_fullBmap {b : Nat} (h : b < bmapBits) : bmapIsset fullBmap b = true := by
  have every : ∀ k < 8, (255 : UInt8).toNat.testBit k = true := by decide
  have inside : b / 8 < blockSize := by simp only [bmapBits, blockSize] at h ⊢; omega
  rw [bmapIsset, Buf.bit, Buf.get_of_lt _ inside]
  exact every _ (Nat.mod_lt b (by decide))

/-- The allocation step stays inside the bitmap unless the device has more blocks than the bitmap
has bits and all these bits are set. -/
theorem allocation_inside_iff (bmap : Block) (behind : Nat → UInt8) (numBlocks : Nat) :
    (allocate (memory bmap behind) numBlocks).Inside bmap behind numBlocks ↔
      numBlocks ≤ bmapBits ∨ 2 ^ 31 ≤ numBlocks ∨ ∃ b, b < bmapBits ∧ bmapIsset bmap b = false := by
  constructor
  · intro ⟨tested, _⟩
    by_contra outside
    obtain ⟨large, outside⟩ := not_or.mp outside
    obtain ⟨small, full⟩ := not_or.mp outside
    refine Nat.lt_irrefl bmapBits (tested _ (allocate_outside behind (Nat.lt_of_not_le large)
      (Nat.lt_of_not_le small) fun b bit => ?_))
    cases set : bmapIsset bmap b with
    | true => rfl
    | false => exact absurd ⟨b, bit, set⟩ full
  · intro condition
    by_cases small : numBlocks < 2 ^ 31
    · have bound : numBlocks ≤ bmapBits ∨ ∃ b, b < bmapBits ∧ bmapIsset bmap b = false :=
        condition.imp_right fun rest => rest.resolve_left (Nat.not_le_of_lt small)
      obtain ⟨found, marked⟩ := allocate_eq behind small bound
      constructor
      · intro i tested
        rw [allocate, asCount, if_pos small] at tested
        exact tested_inside bound tested
      · cases free : fsiBmapFindFree bmap numBlocks with
        | none =>
            rw [free] at found marked
            exact .inl ⟨found, marked⟩
        | some b =>
            rw [free] at found marked
            obtain ⟨below, clear, set⟩ := findFree_spec free
            have bit := found_inside bound free
            exact .inr ⟨b, found, by omega, clear, set, _, marked, bmapIsset_set bit⟩
    · have none : allocate (memory bmap behind) numBlocks = ⟨[], none, memory bmap behind⟩ := by
        rw [allocate, asCount, if_neg small]
        rfl
      rw [none]
      refine ⟨?_, .inl ⟨rfl, rfl⟩⟩
      intro i tested
      simp only [List.not_mem_nil] at tested

/-- On the device that `snfs_init` makes, a full bitmap has the step mark bit 0 of the byte behind
it, the first of the inode table. -/
theorem allocation_inside_full :
    (blockNew 16384 blockSize : Option (Blocks blockSize)).isSome = true ∧
      ¬ (allocate (memory fullBmap fun _ => 0) 16384).Inside fullBmap (fun _ => 0) 16384 ∧
      (allocate (memory fullBmap fun _ => 0) 16384).found = some bmapBits ∧
      memory fullBmap (fun _ => 0) 512 = 0 ∧
      (allocate (memory fullBmap fun _ => 0) 16384).memory 512 = 1 := by
  have outside := allocate_outside (fun _ => 0) (by decide : bmapBits < 16384) (by decide)
    fun _ bit => bmapIsset_fullBmap bit
  have found := allocate_found outside (by decide)
  refine ⟨by decide, fun inside => Nat.lt_irrefl bmapBits (inside.1 _ outside), found, by decide, ?_⟩
  rw [allocate_memory found]
  decide

end Snfs
