import FrostyKernel.Heap.Operations

/-!
# The size of an allocated block

A request is rounded up to sixteen bytes, and a new section to 128 KiB behind
its headers; both roundings wrap, and the size field of a block has 63 bits. A
pointer that `Allocate` returns belongs to a block of at least the requested
size exactly when none of the three loses bits.
-/

namespace FrostyKernel.HeapAllocator

open Word
open Memory (pageSize)

section
variable (heap : HeapAllocator) (ptr : Nat)

/-- `GetSize(ptr)`. -/
def getSize : Nat :=
  if ptr = 0 then 0 else heap.blockSize (sub64 ptr blockHeader)

/-- The word after its first `count` bytes were set to zero. -/
def clearBytes (word count : Nat) : Nat := word / 256 ^ min count 8 * 256 ^ min count 8

/-- `memset(ptr, 0, length)`. -/
def clear (length : Nat) : HeapAllocator :=
  { heap with
    memory := fun address =>
      if ptr ≤ address then
        ⟨clearBytes (heap.memory address).low (ptr + length - address),
          clearBytes (heap.memory address).high (ptr + length - (address + 8))⟩
      else heap.memory address }

/-- `kcalloc(num, size)`. -/
def kcalloc (num size answer : Nat) : Option (HeapAllocator × Nat) :=
  (heap.allocate (mul64 num size) answer).map fun result =>
    if result.2 = 0 then result else (result.1.clear result.2 (mul64 num size), result.2)

/-- A block that a search ends at lies in the address space and not in the header
of its section. -/
def BlocksPlaced : Prop :=
  ∀ size address previous block, heap.findFit size (2 ^ 64) heap.head =
    some (address, previous, block) → block ≠ 0 → block ≠ address + 16 ∧ block + 16 < 2 ^ 64

/-- The requests for which no bits are lost. -/
def Holdable (size : Nat) : Prop :=
  size ≤ 2 ^ 63 - 48 ∨ (size ≤ 2 ^ 64 - 16 ∧ ¬ heap.NeedsSection size)

end

variable {heap : HeapAllocator}

theorem blocks_placed_of_invariant {sections : List Section}
    (invariant : HeapInvariant heap sections) : heap.BlocksPlaced := by
  intro size address previous block found nonzero
  rcases find_fit_spec size invariant.inOrder invariant.list (sections_short invariant) with
    nothing | ⟨front, sec, back, left, right, place, length, whole, cut, _, result⟩
  · rw [nothing] at found
    simp only [Option.some.injEq, Prod.mk.injEq] at found
    exact absurd found.2.2.symm nonzero
  · rw [result] at found
    simp only [Option.some.injEq, Prod.mk.injEq] at found
    rcases found with ⟨atSection, _, atBlock⟩
    have order := invariant.inOrder sec (by simp [whole])
    have member : (place, ⟨length, true⟩) ∈ sec.blocks := mem_of_cut cut
    have elsewhere := (block_elsewhere order.laid member).2.2
    have before := block_before_end order member
    have word := order.laid.word
    simp only at elsewhere before
    omega

variable {address block size : Nat}

/-- A search finds no section and no block, or a block that is large enough. -/
theorem find_fit_result {wanted fuel start previous : Nat}
    (found : heap.findFit wanted fuel start = some (address, previous, block)) :
    (address, previous, block) = (0, 0, 0) ∨ (block ≠ 0 ∧ wanted ≤ heap.blockSize block) := by
  induction fuel generalizing start with
  | zero => simp [findFit] at found
  | succ fuel ih =>
    unfold findFit at found
    split_ifs at found with null
    · exact .inl (Option.some.inj found).symm
    · cases searched : heap.findBlock wanted start with
      | none => simp [searched] at found
      | some place =>
        simp only [searched] at found
        split_ifs at found with some
        · simp only [Option.some.injEq, Prod.mk.injEq] at found
          have stops := search_stops searched some
          simp only [Bool.and_eq_true, decide_eq_true_eq] at stops
          rw [← found.2.2]
          exact .inr ⟨some, stops.2⟩
        · exact ih found

/-! ## The size field of the block that is returned -/

theorem take_block_size (heap : HeapAllocator) (previous size : Nat)
    (apart : block ≠ address + 16) :
    (heap.takeBlock address previous block size).1.blockSize block =
      if heap.Splits block size then size % sizeRange else heap.blockSize block := by
  unfold takeBlock unlinkBlock partBlock splitBlock
  split_ifs <;> simp [apart]

theorem add_section_size (heap : HeapAllocator) (size address : Nat) :
    (heap.addSection size address).1.blockSize (add64 address sectionHeader) =
      if add64 (add64 size blockHeader) minBlockSize <
          sub64 (sub64 (newSectionSize size) sectionHeader) blockHeader % sizeRange then
        size % sizeRange
      else sub64 (sub64 (newSectionSize size) sectionHeader) blockHeader % sizeRange := by
  have apart : add64 address sectionHeader ≠ address + 16 := by
    unfold add64 sectionHeader
    omega
  have held : (heap.openSection (newSectionSize size) address).blockSize
      (add64 address sectionHeader) =
        sub64 (sub64 (newSectionSize size) sectionHeader) blockHeader % sizeRange := by
    unfold openSection
    simp [sectionSize]
  rw [← held]
  unfold addSection cutSection splitBlock Splits
  by_cases splits : add64 (add64 size blockHeader) minBlockSize <
      (heap.openSection (newSectionSize size) address).blockSize (add64 address sectionHeader)
  · simp [splits, apart]
  · simp [splits, apart]

/-! ## The sizes that are computed -/

theorem aligned_size_eq (word : size < 2 ^ 64) :
    alignUp size minBlockSize = if size ≤ 2 ^ 64 - 16 then (size + 15) / 16 * 16 else 0 := by
  unfold alignUp divRoundup mul64 add64 minBlockSize
  split_ifs <;> omega

/-- The first block of a new section, for a request that is rounded to `aligned`. -/
theorem section_block_holds (word : size < 2 ^ 64) :
    (size ≤ if add64 (add64 (alignUp size minBlockSize) blockHeader) minBlockSize <
          sub64 (sub64 (newSectionSize (alignUp size minBlockSize)) sectionHeader) blockHeader %
            sizeRange then
        alignUp size minBlockSize % sizeRange
      else sub64 (sub64 (newSectionSize (alignUp size minBlockSize)) sectionHeader) blockHeader %
        sizeRange) ↔ size ≤ 2 ^ 63 - 48 := by
  rw [aligned_size_eq word]
  unfold newSectionSize alignUp divRoundup mul64 sub64 add64 sectionHeader blockHeader
    minSectionSize minBlockSize sizeRange pageSize
  split_ifs <;> omega

/-- A block that is long enough for the rounded request. -/
theorem taken_block_holds (previous : Nat) (word : size < 2 ^ 64) (apart : block ≠ address + 16)
    (large : alignUp size minBlockSize ≤ heap.blockSize block) :
    size ≤ (heap.takeBlock address previous block (alignUp size minBlockSize)).1.blockSize block ↔
      size ≤ 2 ^ 64 - 16 := by
  have small : heap.blockSize block < 2 ^ 63 := Nat.mod_lt _ (by decide)
  rw [take_block_size heap previous _ apart]
  rw [aligned_size_eq word] at large ⊢
  unfold sizeRange
  split_ifs at large ⊢ <;> omega

/-! ## The calls -/

theorem get_size_eq (heap : HeapAllocator) (inside : block + 16 < 2 ^ 64) :
    heap.getSize (block + 16) = heap.blockSize block := by
  unfold getSize
  rw [if_neg (by omega), blockHeader, sub64_of_le inside (by omega), Nat.add_sub_cancel]

theorem block_size_clear (heap : HeapAllocator) (length : Nat) {ptr : Nat} (below : block < ptr) :
    (heap.clear ptr length).blockSize block = heap.blockSize block := by
  simp [clear, blockSize, Nat.not_le.mpr below]

section Calls
variable {size answer ptr : Nat} {after : HeapAllocator} (placed : heap.BlocksPlaced)
  (page : pageSize ∣ answer) (answerWord : answer < 2 ^ 64)
include placed page answerWord

/-- The block behind the pointer, and when it is large enough. -/
theorem allocate_holds (word : size < 2 ^ 64)
    (result : heap.allocate size answer = some (after, ptr)) (nonnull : ptr ≠ 0) :
    ∃ block, ptr = block + 16 ∧ ptr < 2 ^ 64 ∧
      (size ≤ after.blockSize block ↔ heap.Holdable size) := by
  unfold allocate at result
  simp only at result
  split at result
  · simp at result
  · rename_i address previous block found
    rcases find_fit_result found with nothing | ⟨nonzero, large⟩
    · have needs : heap.NeedsSection size := found.trans (congrArg some nothing)
      have null : block = 0 := congrArg (fun place => place.2.2) nothing
      rw [if_neg (by simp [null])] at result
      split_ifs at result with refused
      · exact absurd (congrArg Prod.snd (Option.some.inj result)).symm nonnull
      · rcases page with ⟨index, whole⟩
        simp only [pageSize] at whole
        have start : add64 answer sectionHeader = answer + 32 :=
          add64_of_lt (by simp only [sectionHeader]; omega)
        have holds := section_block_holds word
        rw [← add_section_size heap _ answer, start] at holds
        have done := Option.some.inj result
        have pointer : ptr = add64 (answer + 32) blockHeader := by
          rw [← start]
          exact (congrArg Prod.snd done).symm
        rw [done] at holds
        rw [pointer, blockHeader, add64_of_lt (by omega)]
        refine ⟨answer + 32, rfl, by omega, holds.trans ?_⟩
        unfold Holdable
        tauto
    · have fits : ¬ heap.NeedsSection size := by
        unfold NeedsSection
        rw [found]
        simp [nonzero]
      rw [if_pos nonzero] at result
      rcases placed _ _ _ _ found nonzero with ⟨apart, inside⟩
      have holds := taken_block_holds previous word apart large
      have done := Option.some.inj result
      have pointer : ptr = add64 block blockHeader := (congrArg Prod.snd done).symm
      rw [done] at holds
      rw [pointer, blockHeader, add64_of_lt inside]
      refine ⟨block, rfl, inside, holds.trans ?_⟩
      unfold Holdable
      constructor
      · exact fun bound => .inr ⟨bound, fits⟩
      · intro holdable
        omega

end Calls

def emptyHeap : HeapAllocator := fresh fun _ => ⟨0, 0⟩

end FrostyKernel.HeapAllocator
