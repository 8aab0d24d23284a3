import FrostyKernel.Heap.Heap

/-!
# Header fields after a write

A write to one header field changes no other field of that header and no other
header. Section and block headers are cells of one memory, so the lemmas about a
section field after a write to a block say that their addresses differ.
-/

namespace FrostyKernel.HeapAllocator

open Word HeapAllocator

variable (heap : HeapAllocator) (block value other address : Nat) (flag : Bool)

theorem constant_sizes : blockHeader = 16 ∧ sectionHeader = 32 ∧ Memory.pageSize = 4096 ∧
    sizeRange = 2 ^ 63 ∧ minBlockSize = 16 :=
  ⟨rfl, rfl, rfl, rfl, rfl⟩

theorem packed_size (size : Nat) : packed size flag % sizeRange = size % sizeRange := by
  unfold packed
  cases flag <;> simp

theorem packed_free (size : Nat) : decide (packed size flag / sizeRange % 2 = 1) = flag := by
  unfold packed
  have positive : 0 < sizeRange := by decide
  have small : size % sizeRange / sizeRange = 0 := Nat.div_eq_of_lt (Nat.mod_lt _ positive)
  cases flag
  · simp [small]
  · simp [Nat.add_div_right _ positive, small]

@[simp] theorem memory_set_cell (cell : Cell) :
    (heap.setCell block cell).memory other = if other = block then cell else heap.memory other := by
  unfold setCell
  by_cases same : other = block
  · simp [same]
  · simp [same]

/-- What a write does not change of the cell, it changes of no cell. -/
theorem field_kept {Field : Type*} (field : Cell → Field) {cell : Cell}
    (same : field cell = field (heap.memory block)) :
    field ((heap.setCell block cell).memory other) = field (heap.memory other) := by
  rw [memory_set_cell]
  split_ifs with here
  · rw [here, same]
  · rfl

@[simp] theorem block_size_set_size :
    (heap.setBlockSize block value).blockSize other =
      if other = block then value % sizeRange else heap.blockSize other := by
  by_cases same : other = block
  · subst same
    unfold setBlockSize
    rw [blockSize, memory_set_cell, if_pos rfl, if_pos rfl, packed_size]
  · simp [setBlockSize, blockSize, same]

@[simp] theorem block_free_set_size :
    (heap.setBlockSize block value).blockFree other = heap.blockFree other :=
  field_kept heap block other (fun cell => decide (cell.low / sizeRange % 2 = 1)) (packed_free _ _)

@[simp] theorem block_next_set_size :
    (heap.setBlockSize block value).blockNext other = heap.blockNext other :=
  field_kept heap block other Cell.high rfl

@[simp] theorem block_size_set_free :
    (heap.setBlockFree block flag).blockSize other = heap.blockSize other := by
  refine field_kept heap block other (·.low % sizeRange) ?_
  rw [packed_size]
  exact Nat.mod_mod _ _

@[simp] theorem block_free_set_free :
    (heap.setBlockFree block flag).blockFree other =
      if other = block then flag else heap.blockFree other := by
  by_cases same : other = block
  · subst same
    unfold setBlockFree
    rw [blockFree, memory_set_cell, if_pos rfl, if_pos rfl]
    exact packed_free _ _
  · simp [setBlockFree, blockFree, same]

@[simp] theorem block_next_set_free :
    (heap.setBlockFree block flag).blockNext other = heap.blockNext other :=
  field_kept heap block other Cell.high rfl

@[simp] theorem block_size_set_next :
    (heap.setBlockNext block value).blockSize other = heap.blockSize other :=
  field_kept heap block other (·.low % sizeRange) rfl

@[simp] theorem block_free_set_next :
    (heap.setBlockNext block value).blockFree other = heap.blockFree other :=
  field_kept heap block other (fun cell => decide (cell.low / sizeRange % 2 = 1)) rfl

@[simp] theorem block_next_set_next :
    (heap.setBlockNext block value).blockNext other =
      if other = block then value else heap.blockNext other := by
  by_cases same : other = block
  · simp [setBlockNext, blockNext, same]
  · simp [setBlockNext, blockNext, same]

/-! ## The counters are no part of the memory

These are not stated by `rfl`: comparing two states counter by counter would
unfold the 64-bit arithmetic of the counters. -/

section Counters
variable (head used free metadata total : Nat)

@[simp] theorem block_size_counters :
    (mk heap.memory head used free metadata total).blockSize = heap.blockSize := by
  funext other
  rfl

@[simp] theorem block_free_counters :
    (mk heap.memory head used free metadata total).blockFree = heap.blockFree := by
  funext other
  rfl

@[simp] theorem block_next_counters :
    (mk heap.memory head used free metadata total).blockNext = heap.blockNext := by
  funext other
  rfl

@[simp] theorem section_size_counters :
    (mk heap.memory head used free metadata total).sectionSize = heap.sectionSize := by
  funext other
  rfl

@[simp] theorem section_next_counters :
    (mk heap.memory head used free metadata total).sectionNext = heap.sectionNext := by
  funext other
  rfl

@[simp] theorem section_first_counters :
    (mk heap.memory head used free metadata total).sectionFirst = heap.sectionFirst := by
  funext other
  rfl

end Counters

structure Counts (heap : HeapAllocator) (used free metadata total : Nat) : Prop where
  used : heap.usedMemory = used
  free : heap.freeMemory = free
  metadata : heap.metadataMemory = metadata
  total : heap.totalMemory = total

/-! ## Cells that a write leaves alone -/

@[simp] theorem memory_set_size (elsewhere : other ≠ block) :
    (heap.setBlockSize block value).memory other = heap.memory other := by
  simp [setBlockSize, elsewhere]

@[simp] theorem memory_set_free (elsewhere : other ≠ block) :
    (heap.setBlockFree block flag).memory other = heap.memory other := by
  simp [setBlockFree, elsewhere]

@[simp] theorem memory_set_next (elsewhere : other ≠ block) :
    (heap.setBlockNext block value).memory other = heap.memory other := by
  simp [setBlockNext, elsewhere]

section
variable (elsewhere : other ≠ address + 16)
include elsewhere

@[simp] theorem memory_set_section_first :
    (heap.setSectionFirst address value).memory other = heap.memory other := by
  simp [setSectionFirst, elsewhere]

@[simp] theorem block_size_set_first :
    (heap.setSectionFirst address value).blockSize other = heap.blockSize other := by
  simp [blockSize, elsewhere]

@[simp] theorem block_free_set_first :
    (heap.setSectionFirst address value).blockFree other = heap.blockFree other := by
  simp [blockFree, elsewhere]

@[simp] theorem block_next_set_first :
    (heap.setSectionFirst address value).blockNext other = heap.blockNext other := by
  simp [blockNext, elsewhere]

end

@[simp] theorem memory_set_section_next (elsewhere : other ≠ address) :
    (heap.setSectionNext address value).memory other = heap.memory other := by
  simp [setSectionNext, elsewhere]

@[simp] theorem memory_set_section_size (elsewhere : other ≠ address) :
    (heap.setSectionSize address value).memory other = heap.memory other := by
  simp [setSectionSize, elsewhere]

@[simp] theorem memory_set_section_size_self :
    (heap.setSectionSize address value).memory address = ⟨value, heap.sectionNext address⟩ := by
  simp [setSectionSize]

@[simp] theorem memory_set_section_next_self :
    (heap.setSectionNext address value).memory address = ⟨heap.sectionSize address, value⟩ := by
  simp [setSectionNext]

@[simp] theorem section_size_set_section_next :
    (heap.setSectionNext address value).sectionSize other = heap.sectionSize other :=
  field_kept heap address other Cell.low rfl

@[simp] theorem section_first_set_free (elsewhere : address + 16 ≠ block) :
    (heap.setBlockFree block flag).sectionFirst address = heap.sectionFirst address := by
  simp [sectionFirst, elsewhere]

@[simp] theorem section_first_set_next (elsewhere : address + 16 ≠ block) :
    (heap.setBlockNext block value).sectionFirst address = heap.sectionFirst address := by
  simp [sectionFirst, elsewhere]

@[simp] theorem section_first_set_first :
    (heap.setSectionFirst address value).sectionFirst address = value := by
  simp [setSectionFirst, sectionFirst]

end FrostyKernel.HeapAllocator
