import FrostyKernel.Heap.Layout

/-!
# Blocks that change

The writes of `Allocate` and `Free` to one section, as exchanges of blocks: a
free block is split in two, a free block is taken off the list, and a used block
is put back and merged with the free blocks it touches.
-/

namespace FrostyKernel.HeapAllocator

open Word List

/-! ## Splitting -/

section Split
variable {heap : HeapAllocator} {sec : Section} {left right : List (Nat × Block)}
  {address wanted size : Nat} (laid : Laid heap sec)
include laid

section
variable (cut : sec.blocks = left ++ (address, ⟨size, true⟩) :: right)
include cut

theorem part_arithmetic (large : wanted + blockHeader + minBlockSize < size) :
    add64 (add64 address blockHeader) wanted = address + blockHeader + wanted ∧
      sub64 (sub64 size wanted) blockHeader % sizeRange = size - wanted - blockHeader ∧
      wanted % sizeRange = wanted := by
  have word := laid.word
  have bounds := block_bounds laid (mem_of_cut cut)
  have small := size_lt laid cut
  simp only [blockHeader, minBlockSize, sizeRange] at bounds large small ⊢
  refine ⟨?_, ?_, ?_⟩
  · rw [add64_of_lt (show address + 16 < 2 ^ 64 by omega)]
    exact add64_of_lt (by omega)
  · rw [sub64_of_le (show size < 2 ^ 64 by omega) (by omega), sub64_of_le (by omega) (by omega)]
    exact Nat.mod_eq_of_lt (by omega)
  · exact Nat.mod_eq_of_lt (by omega)

theorem splits_iff (fits : wanted ≤ size) :
    heap.Splits address wanted ↔ wanted + blockHeader + minBlockSize < size := by
  have small := size_lt laid cut
  have held := size_of_cut laid cut
  simp only [sizeRange] at small held
  unfold Splits
  simp only [held, blockHeader, minBlockSize]
  rw [add64_of_lt (show wanted + 16 < 2 ^ 64 by omega), add64_of_lt (by omega)]

/-- The fields after a split. -/
theorem part_block_fields (large : wanted + blockHeader + minBlockSize < size) :
    (∀ other, (heap.partBlock address wanted).blockSize other =
        if other = address then wanted
        else if other = address + blockHeader + wanted then size - wanted - blockHeader
        else heap.blockSize other) ∧
      (∀ other, (heap.partBlock address wanted).blockFree other =
        if other = address + blockHeader + wanted then true else heap.blockFree other) ∧
      (∀ other, (heap.partBlock address wanted).blockNext other =
        if other = address then address + blockHeader + wanted
        else if other = address + blockHeader + wanted then heap.blockNext address
        else heap.blockNext other) ∧
      ∀ other, other ≠ address → other ≠ address + blockHeader + wanted →
        (heap.partBlock address wanted).memory other = heap.memory other := by
  rcases part_arithmetic laid cut large with ⟨rest, left, whole⟩
  have held := size_of_cut laid cut
  have splits := (splits_iff laid cut (by omega : wanted ≤ size)).mpr large
  simp only at held
  unfold partBlock splitBlock
  simp only [splits, if_true, rest, held]
  refine ⟨?_, ?_, ?_, ?_⟩
  · intro other
    simp [left, whole]
  · intro other
    simp
  · intro other
    simp
  · intro other notBlock notRest
    simp [notBlock, notRest]

end

theorem rewires_of_memory {after : HeapAllocator} {old : List (Nat × Block)} {low high : Nat}
    (part : Part sec left low old high right)
    (memory : ∀ other, other < low ∨ high ≤ other → other ≠ sec.address + 16 →
      after.memory other = heap.memory other)
    (first : after.sectionFirst sec.address = heap.sectionFirst sec.address) :
    Rewires heap after sec.address (lastOr 0 (freeBlocks left))
      (firstOr (freeBlocks old ++ freeBlocks right) 0) low high := by
  have last := previous_elsewhere laid part
  have list := laid.list
  rw [part.cut, free_blocks_append, free_blocks_append] at list
  have entry := segment_entry list
  have before := memory (lastOr 0 (freeBlocks left)) (by omega) last.2.1
  refine ⟨fun other outside _ elsewhere => memory other outside elsewhere, ?_, ?_⟩
  · intro zero
    rcases previous_cases part with ⟨nothing, _⟩ | ⟨_, nonzero, _⟩
    · rw [if_pos nothing] at entry
      rw [first]
      exact entry
    · exact absurd zero nonzero
  · intro nonzero
    rcases previous_cases part with ⟨_, zero⟩ | ⟨some, _⟩
    · exact absurd zero nonzero
    · rw [if_neg some] at entry
      simp only [first, blockNext, blockSize, blockFree, before]
      exact ⟨trivial, entry, trivial, trivial⟩

variable (cut : sec.blocks = left ++ (address, ⟨size, true⟩) :: right)
  (large : wanted + blockHeader + minBlockSize < size)
include cut large

theorem part_block_rewires :
    Rewires heap (heap.partBlock address wanted) sec.address (lastOr 0 (freeBlocks left)) address
      address (address + blockLength ⟨size, true⟩) := by
  rcases part_block_fields laid cut large with ⟨_, _, _, memory⟩
  have part := part_single laid cut
  have start := (around_part part).2.2.1
  have outside : ∀ other, other < address ∨ address + blockLength ⟨size, true⟩ ≤ other →
      (heap.partBlock address wanted).memory other = heap.memory other := by
    intro other beyond
    simp only [blockLength, blockHeader, minBlockSize] at beyond large
    apply memory other (by omega)
    simp only [blockHeader]
    omega
  apply rewires_of_memory laid part
  · intro other beyond _
    exact outside other beyond
  · simp only [sectionHeader] at start
    rw [sectionFirst, outside _ (by omega), sectionFirst]

theorem part_block_exchanged (flagged : Flagged heap sec.blocks) (multiple : 16 ∣ wanted) :
    Exchanged heap (heap.partBlock address wanted) sec (left ++ (address, ⟨wanted, true⟩) ::
      (address + blockHeader + wanted, ⟨size - wanted - blockHeader, true⟩) :: right) := by
  rcases part_block_fields laid cut large with ⟨sizes, flags, nexts, memory⟩
  have part := part_single laid cut
  have start := (around_part part).2.2.1
  have list := laid.list
  rw [cut, free_blocks_append, free_blocks_cons] at list
  have next := segment_next list
  have wholeMultiple : 16 ∣ size := laid.multiples (address, ⟨size, true⟩) (mem_of_cut cut)
  have header : blockHeader = 16 := rfl
  have restElse : address + blockHeader + wanted ≠ address := by omega
  have nonzero : address ≠ 0 := by
    simp only [sectionHeader] at start
    omega
  rw [cut] at flagged
  have here := flagged (address, ⟨size, true⟩) (by simp)
  apply exchange [(address, ⟨wanted, true⟩),
    (address + blockHeader + wanted, ⟨size - wanted - blockHeader, true⟩)] laid _ part
  · exact part_block_rewires laid cut large
  · refine ⟨rfl, by simp [blockLength, header], ?_, by simp [blockLength, header], ?_⟩
    · simp only [blockLength]
      omega
    · simp only [blockLength, tiles_nil]
      omega
  · intro item member
    simp only [mem_cons, not_mem_nil, or_false] at member
    rw [sizes, flags]
    rcases member with same | same
    · subst same
      exact ⟨if_pos rfl, by simp [here], multiple⟩
    · subst same
      rw [if_neg restElse, if_pos rfl, if_pos rfl]
      exact ⟨rfl, rfl, by simp only; omega⟩
  · simp only [free_blocks_cons, free_blocks_nil, if_true, append_nil, cons_append,
      nil_append, first_or_cons, segment_cons, segment_nil, sizes, nexts, restElse, if_false]
    exact ⟨trivial, nonzero, trivial, trivial, by omega, trivial, next⟩
  · intro item member
    apply flagged
    simp only [mem_append, mem_cons] at member ⊢
    tauto

end Split

/-! ## Taking a block off the list -/

section Unlink
variable {heap : HeapAllocator} {sec : Section} {left right : List (Nat × Block)}
  {address size : Nat}

/-- The fields after a block was taken off the list. -/
theorem unlink_block_fields (heap : HeapAllocator) {start previous block : Nat}
    (blockElse : block ≠ start + 16)
    (previousElse : previous ≠ start + 16) :
    (∀ other, other ≠ start + 16 →
      (heap.unlinkBlock start previous block).blockSize other = heap.blockSize other ∧
      ((heap.unlinkBlock start previous block).blockFree other =
        if other = block then false else heap.blockFree other) ∧
      (heap.unlinkBlock start previous block).blockNext other =
        if other = block then 0
        else if other = previous ∧ previous ≠ 0 then heap.blockNext block
        else heap.blockNext other) ∧
      ((heap.unlinkBlock start previous block).sectionFirst start =
        if previous = 0 then heap.blockNext block else heap.sectionFirst start) ∧
      ∀ other, other ≠ block → other ≠ previous → other ≠ start + 16 →
        (heap.unlinkBlock start previous block).memory other = heap.memory other := by
  unfold unlinkBlock
  by_cases first : previous = 0
  · simp +contextual [first, blockElse, Ne.symm blockElse]
  · simp +contextual [first, Ne.symm blockElse, Ne.symm previousElse]

theorem unlink_block_rewires (laid : Laid heap sec)
    (cut : sec.blocks = left ++ (address, ⟨size, true⟩) :: right) :
    Rewires heap (heap.unlinkBlock sec.address (lastOr 0 (freeBlocks left)) address) sec.address
      (lastOr 0 (freeBlocks left)) (firstOr (freeBlocks right) 0) address
      (address + blockLength ⟨size, true⟩) := by
  have part := part_single laid cut
  have start := (around_part part).2.2.1
  simp only [sectionHeader] at start
  have last := previous_elsewhere laid part
  have list := laid.list
  rw [cut, free_blocks_append, free_blocks_cons] at list
  have next : heap.blockNext address = firstOr (freeBlocks right) 0 := segment_next list
  rcases unlink_block_fields heap (show address ≠ sec.address + 16 by omega) last.2.1
    with ⟨fields, first, memory⟩
  have positive : 0 < blockLength ⟨size, true⟩ := by simp [blockLength, blockHeader]
  refine ⟨fun other outside => memory other (by omega), ?_, ?_⟩
  · intro zero
    rw [first, if_pos zero, next]
  · intro nonzero
    rw [first, if_neg nonzero]
    rcases fields _ last.2.1 with ⟨sizes, flags, nexts⟩
    have different := ne_of_lt last.2.2
    rw [if_neg different] at flags
    rw [if_neg different, if_pos ⟨rfl, nonzero⟩] at nexts
    exact ⟨rfl, nexts.trans next, sizes, flags⟩

theorem unlink_block_exchanged (laid : Laid heap sec)
    (cut : sec.blocks = left ++ (address, ⟨size, true⟩) :: right)
    (flagged : Flagged heap sec.blocks) :
    Exchanged heap (heap.unlinkBlock sec.address (lastOr 0 (freeBlocks left)) address) sec
      (left ++ (address, ⟨size, false⟩) :: right) := by
  have part := part_single laid cut
  have here := block_elsewhere laid (mem_of_cut cut)
  have last := previous_elsewhere laid part
  rcases unlink_block_fields heap here.2.2 last.2.1 with ⟨fields, _, _⟩
  apply exchange [(address, ⟨size, false⟩)] laid _ part
  · exact unlink_block_rewires laid cut
  · exact part.inside
  · intro item member
    rw [mem_singleton] at member
    subst member
    have held : heap.blockSize address = size := size_of_cut laid cut
    refine ⟨(fields _ here.2.2).1.trans held, ?_,
      laid.multiples (address, ⟨size, true⟩) (mem_of_cut cut)⟩
    rw [(fields _ here.2.2).2.1]
    exact if_pos rfl
  · rfl
  · intro item member
    apply flagged
    rw [cut]
    simp only [mem_append, mem_cons] at member ⊢
    tauto

end Unlink

/-! ## Putting a block back -/

section Insert
variable {heap : HeapAllocator} {address : Nat}

theorem block_end_eq (word : address + blockHeader + heap.blockSize address < 2 ^ 64) :
    heap.blockEnd address = address + blockHeader + heap.blockSize address := by
  unfold blockEnd
  rw [add64_of_lt (show address + blockHeader < 2 ^ 64 by omega)]
  exact add64_of_lt word

theorem block_end_iff {other : Nat} (word : address + blockHeader + heap.blockSize address ≤ 2 ^ 64)
    (nonzero : other ≠ 0) (small : other < 2 ^ 64) :
    heap.blockEnd address = other ↔ address + blockHeader + heap.blockSize address = other := by
  unfold blockEnd add64
  omega

theorem merged_size {first second : Nat} (small : first + blockHeader + second < sizeRange) :
    add64 first (add64 blockHeader second) % sizeRange = first + blockHeader + second := by
  have room : sizeRange < 2 ^ 64 := by decide
  rw [add64_of_lt (show blockHeader + second < 2 ^ 64 by omega), add64_of_lt (by omega),
    Nat.mod_eq_of_lt (by omega)]
  omega

/-- A number of headers became free memory, and no other counter changed. -/
structure Merged (heap after : HeapAllocator) (merges : Nat) : Prop where
  head : after.head = heap.head
  total : after.totalMemory = heap.totalMemory
  used : after.usedMemory = heap.usedMemory
  free : after.freeMemory = heap.freeMemory + blockHeader * merges
  metadata : after.metadataMemory + blockHeader * merges = heap.metadataMemory

/-- A number of headers can become free memory. -/
structure Room (heap : HeapAllocator) (merges : Nat) : Prop where
  free : heap.freeMemory + blockHeader * merges < 2 ^ 64
  metadata : heap.metadataMemory < 2 ^ 64
  enough : blockHeader * merges ≤ heap.metadataMemory

/-- Writes to the memory change no counter. -/
theorem merged_none (memory : Nat → Cell) : Merged heap { heap with memory := memory } 0 :=
  ⟨rfl, rfl, rfl, by simp, by simp⟩

section Counters
variable {middle after : HeapAllocator} {first second : Nat} (one : Merged heap middle first)
include one

theorem merged_trans (two : Merged middle after second) : Merged heap after (first + second) := by
  refine ⟨two.head.trans one.head, two.total.trans one.total, two.used.trans one.used, ?_, ?_⟩
  · rw [two.free, one.free, mul_add, add_assoc]
  · rw [← one.metadata, ← two.metadata, mul_add, add_assoc, add_comm (blockHeader * first)]

theorem room_left (room : Room heap (first + second)) : Room middle second := by
  rcases room with ⟨free, metadata, enough⟩
  have header : blockHeader = 16 := rfl
  have oneFree := one.free
  have oneMetadata := one.metadata
  rw [header] at free enough oneFree oneMetadata
  refine ⟨?_, by omega, ?_⟩
  · rw [header]
    omega
  · rw [header]
    omega

end Counters

theorem room_one (room : Room heap 2) : Room heap 1 := by
  rcases room with ⟨free, metadata, enough⟩
  have header : blockHeader = 16 := rfl
  exact ⟨by omega, metadata, by omega⟩

theorem count_merge_merged (memory : Nat → Cell) (room : Room heap 1) :
    Merged heap { heap with memory := memory }.countMerge 1 := by
  have enough := room.enough
  refine ⟨rfl, rfl, rfl, add64_of_lt room.free, ?_⟩
  simp only [countMerge, mul_one] at enough ⊢
  rw [sub64_of_le room.metadata enough]
  omega

/-- Link a block to the free block behind it, which may be null, or merge them. -/
def linkNext (heap : HeapAllocator) (holder current : Nat) : HeapAllocator :=
  if current ≠ 0 then heap.joinNext holder current else heap.setBlockNext holder 0

/-- What a block gains from the free block behind it, and the block it is linked to. -/
def GainsNext (heap : HeapAllocator) (holder current gain next : Nat) : Prop :=
  if current ≠ 0 ∧ holder + blockHeader + heap.blockSize holder = current then
    gain = blockHeader + heap.blockSize current ∧ next = heap.blockNext current
  else gain = 0 ∧ next = current

/-- Writes to the header of one block that leave its flag. -/
structure Resized (heap after : HeapAllocator) (holder size next merges : Nat) : Prop
    extends Merged heap after merges where
  size : after.blockSize holder = size
  next : after.blockNext holder = next
  flags : ∀ other, after.blockFree other = heap.blockFree other
  memory : ∀ other, other ≠ holder → after.memory other = heap.memory other

variable {start previous block holder current gain next : Nat}

theorem link_next_resized
    (word : holder + blockHeader + heap.blockSize holder ≤ 2 ^ 64) (small : current < 2 ^ 64)
    (sum : current ≠ 0 → heap.blockSize holder + blockHeader + heap.blockSize current < sizeRange)
    (gains : GainsNext heap holder current gain next) (room : Room heap 1) :
    Resized heap (heap.linkNext holder current) holder (heap.blockSize holder + gain) next
      (if gain = 0 then 0 else 1) := by
  unfold GainsNext at gains
  unfold linkNext joinNext
  split_ifs at gains with joins
  · rcases gains with ⟨gained, linked⟩
    have grown := merged_size (sum joins.1)
    have ends := (block_end_iff word joins.1 small).mpr joins.2
    rw [if_pos joins.1, if_pos ends, if_neg (by rw [gained, blockHeader]; omega), gained, linked,
      ← add_assoc, ← grown]
    refine ⟨count_merge_merged _ room, ?_, ?_, ?_, ?_⟩
    · simp [countMerge]
    · simp [countMerge]
    · simp [countMerge]
    · intro other elsewhere
      simp [countMerge, elsewhere]
  · rcases gains with ⟨gained, linked⟩
    rw [gained, linked, add_zero, if_pos rfl]
    by_cases last : current = 0
    · rw [if_neg (by simp [last]), last]
      refine ⟨merged_none _, ?_, ?_, ?_, ?_⟩
      all_goals simp +contextual
    · have apart : heap.blockEnd holder ≠ current := by
        intro same
        exact joins ⟨last, (block_end_iff word last small).mp same⟩
      rw [if_pos last, if_neg apart]
      refine ⟨merged_none _, ?_, ?_, ?_, ?_⟩
      all_goals simp +contextual

section
variable (heap : HeapAllocator) (start block previous current : Nat)

/-- The heap after a block was put back and before it is counted: `holder` is the block itself or
the free block before it. -/
structure PutBack (after : HeapAllocator) (start previous block holder size next merges : Nat) :
    Prop
    extends Merged heap after merges where
  size : after.blockSize holder = size
  next : after.blockNext holder = next
  flags : ∀ other, other ≠ start + 16 → after.blockFree other = heap.blockFree other
  memory : ∀ other, other ≠ block → other ≠ previous → other ≠ start + 16 →
    after.memory other = heap.memory other
  front : previous = 0 → after.sectionFirst start = block
  behind : previous ≠ 0 → after.sectionFirst start = heap.sectionFirst start
  linked : previous ≠ 0 → holder = block →
    after.blockNext previous = block ∧ after.blockSize previous = heap.blockSize previous

/-- A block that is put back in front of the free block `current`, which may be
null; no sum wraps. -/
structure InFrontOf (gain next : Nat) : Prop where
  word : block + blockHeader + heap.blockSize block ≤ 2 ^ 64
  small : current < 2 ^ 64
  above : current ≠ 0 → block < current
  sum : current ≠ 0 → heap.blockSize block + blockHeader + heap.blockSize current < sizeRange
  gains : GainsNext heap block current gain next
  room : Room heap 2

/-- A block behind a free block that ends before it. -/
structure ApartFrom (block : Nat) : Prop where
  some : previous ≠ 0
  elsewhere : previous ≠ start + 16
  below : previous < block
  word : previous + blockHeader + heap.blockSize previous < 2 ^ 64
  apart : previous + blockHeader + heap.blockSize previous ≠ block

/-- A block behind a free block that ends where it starts. -/
structure Touching (block current : Nat) : Prop where
  some : previous ≠ 0
  elsewhere : previous ≠ start + 16
  word : block < 2 ^ 64
  touches : previous + blockHeader + heap.blockSize previous = block
  merged : heap.blockSize previous + blockHeader + heap.blockSize block < sizeRange
  sum : current ≠ 0 → heap.blockSize previous + blockHeader + heap.blockSize block +
    blockHeader + heap.blockSize current < sizeRange

/-- The last counts of an insertion. -/
def countFreed (size : Nat) : HeapAllocator :=
  { heap with
    freeMemory := add64 heap.freeMemory size
    usedMemory := sub64 heap.usedMemory size }

end

/-- With a free block before it, a block is joined to that one first. -/
theorem insert_block_behind (heap : HeapAllocator) (start block current : Nat)
    (some : previous ≠ 0) :
    heap.insertBlock start previous block current =
      ((heap.joinPrevious previous block).1.linkNext (heap.joinPrevious previous block).2
        current).countFreed (heap.blockSize block) := by
  unfold insertBlock linkNext
  by_cases last : current = 0
  · simp only [last, some, ne_eq, not_true_eq_false, if_false]
    rfl
  · simp only [last, some, ne_eq, not_false_eq_true, if_true, if_false]
    rfl

theorem linked_gains (below : previous < block) (above : current ≠ 0 → block < current)
    (gains : GainsNext heap block current gain next) :
    GainsNext ((heap.setBlockFree block true).setBlockNext previous block) block current gain
      next := by
  have kept : current ≠ 0 →
      ((heap.setBlockFree block true).setBlockNext previous block).blockNext current =
        heap.blockNext current := by
    intro last
    have order := above last
    rw [block_next_set_next, if_neg (by omega), block_next_set_free]
  unfold GainsNext at gains ⊢
  rw [block_size_set_next, block_size_set_free, block_size_set_next, block_size_set_free]
  split_ifs at gains ⊢ with joins
  · rw [kept joins.1]
    exact gains
  · exact gains

theorem merged_gains {after : HeapAllocator} (some : previous ≠ 0)
    (touches : previous + blockHeader + heap.blockSize previous = block)
    (above : current ≠ 0 → block < current)
    (size : after.blockSize previous = heap.blockSize previous + blockHeader + heap.blockSize block)
    (memory : ∀ other, other ≠ previous → after.memory other = heap.memory other)
    (gains : GainsNext heap block current gain next) :
    GainsNext after previous current gain next ∧
      after.blockSize current = heap.blockSize current := by
  have header : blockHeader = 16 := rfl
  have behind : after.memory current = heap.memory current := by
    apply memory
    by_cases last : current = 0
    · omega
    · have order := above last
      omega
  have currentSize : after.blockSize current = heap.blockSize current := by
    rw [blockSize, behind, blockSize]
  have currentNext : after.blockNext current = heap.blockNext current := by
    rw [blockNext, behind, blockNext]
  refine ⟨?_, currentSize⟩
  unfold GainsNext at gains ⊢
  rw [currentSize, currentNext, size, show previous + blockHeader + (heap.blockSize previous +
    blockHeader + heap.blockSize block) = block + blockHeader + heap.blockSize block by omega]
  exact gains

section Cases
variable (front : InFrontOf heap block current gain next)
include front

theorem insert_block_front (blockElse : block ≠ start + 16) (flag : heap.blockFree block = true) :
    ∃ linked, PutBack heap linked start 0 block block (heap.blockSize block + gain) next
        (if gain = 0 then 0 else 1) ∧
      heap.insertBlock start 0 block current = linked.countFreed (heap.blockSize block) := by
  have resized := link_next_resized front.word front.small front.sum front.gains
    (room_one front.room)
  unfold linkNext at resized
  unfold insertBlock
  by_cases last : current = 0
  · simp only [last, ne_eq, not_true_eq_false, if_false, if_true] at resized ⊢
    refine ⟨(heap.setBlockNext block 0).setSectionFirst start block,
      ⟨merged_trans resized.toMerged (merged_none _), ?_, ?_, ?_, ?_, ?_, ?_, ?_⟩, rfl⟩
    · simp [blockElse, resized.size]
    · simp [blockElse, resized.next]
    · intro other elsewhere
      simp [elsewhere]
    · intro other notBlock _ elsewhere
      simp [notBlock, elsewhere]
    all_goals simp
  · simp only [last, ne_eq, not_false_eq_true, if_true] at resized ⊢
    refine ⟨((heap.joinNext block current).setBlockFree block true).setSectionFirst start block,
      ⟨merged_trans resized.toMerged (merged_none _), ?_, ?_, ?_, ?_, ?_, ?_, ?_⟩, rfl⟩
    · simp [blockElse, resized.size]
    · simp [blockElse, resized.next]
    · intro other elsewhere
      rw [block_free_set_first _ _ _ _ elsewhere, block_free_set_free, resized.flags]
      split_ifs with same
      · rw [same, flag]
      · rfl
    · intro other notBlock _ elsewhere
      simp [notBlock, elsewhere, resized.memory]
    all_goals simp

theorem insert_block_apart (blockElse : block ≠ start + 16) (flag : heap.blockFree block = true)
    (behind : ApartFrom heap start previous block) :
    ∃ linked, PutBack heap linked start previous block block (heap.blockSize block + gain) next
        (if gain = 0 then 0 else 1) ∧
      heap.insertBlock start previous block current = linked.countFreed (heap.blockSize block) := by
  have gains := linked_gains behind.below front.above front.gains
  have counted : Merged heap ((heap.setBlockFree block true).setBlockNext previous block) 0 :=
    merged_none _
  rw [insert_block_behind heap start block current behind.some, joinPrevious,
    block_end_eq behind.word, if_neg behind.apart]
  generalize linkedName : (heap.setBlockFree block true).setBlockNext previous block = linked
    at gains counted ⊢
  have room : Room linked 1 := room_left counted (room_one front.room)
  have sizes : ∀ other, linked.blockSize other = heap.blockSize other := by
    intro other
    simp [← linkedName]
  have resized : Resized linked (linked.linkNext block current) block
      (heap.blockSize block + gain) next (if gain = 0 then 0 else 1) := by
    rw [← sizes block]
    apply link_next_resized _ front.small _ gains room
    · rw [sizes]
      exact front.word
    · rw [sizes, sizes]
      exact front.sum
  have merged := merged_trans counted resized.toMerged
  rw [zero_add] at merged
  refine ⟨_, ⟨merged, resized.size, resized.next, ?_, ?_, ?_, ?_, ?_⟩, rfl⟩
  · intro other _
    rw [resized.flags, ← linkedName, block_free_set_next, block_free_set_free]
    split_ifs with same
    · rw [same, flag]
    · rfl
  · intro other notBlock notPrevious _
    rw [resized.memory other notBlock, ← linkedName, memory_set_next _ _ _ _ notPrevious,
      memory_set_free _ _ _ _ notBlock]
  · intro zero
    exact absurd zero behind.some
  · intro _
    rw [sectionFirst, resized.memory _ (Ne.symm blockElse), ← linkedName, memory_set_next _ _ _ _
      (Ne.symm behind.elsewhere), memory_set_free _ _ _ _ (Ne.symm blockElse)]
    rfl
  · intro _ _
    have kept := resized.memory previous (ne_of_lt behind.below)
    refine ⟨?_, ?_⟩
    · rw [blockNext, kept, ← linkedName]
      exact (block_next_set_next _ _ _ _).trans (if_pos rfl)
    · rw [blockSize, kept]
      exact sizes previous

theorem insert_block_touching (behind : Touching heap start previous block current) :
    ∃ linked, PutBack heap linked start previous block previous
        (heap.blockSize previous + blockHeader + heap.blockSize block + gain) next
        (1 + if gain = 0 then 0 else 1) ∧
      heap.insertBlock start previous block current = linked.countFreed (heap.blockSize block) := by
  have header : blockHeader = 16 := rfl
  have touches := behind.touches
  have previousWord := behind.word
  have word := front.word
  have counted : Merged heap (heap.setBlockSize previous (add64 (heap.blockSize previous)
      (add64 blockHeader (heap.blockSize block)))).countMerge 1 :=
    count_merge_merged _ (room_one front.room)
  have grown := merged_size behind.merged
  rw [insert_block_behind heap start block current behind.some, joinPrevious,
    block_end_eq (by omega), if_pos touches]
  generalize joinedName : (heap.setBlockSize previous (add64 (heap.blockSize previous)
    (add64 blockHeader (heap.blockSize block)))).countMerge = joined at counted ⊢
  have room : Room joined 1 := room_left counted front.room
  have size : joined.blockSize previous =
      heap.blockSize previous + blockHeader + heap.blockSize block := by
    rw [← grown]
    simp [← joinedName, countMerge]
  have cells : ∀ other, other ≠ previous → joined.memory other = heap.memory other := by
    intro other elsewhere
    simp [← joinedName, countMerge, elsewhere]
  rcases merged_gains behind.some touches front.above size cells front.gains with
    ⟨gains, currentSize⟩
  have resized : Resized joined (joined.linkNext previous current) previous
      (heap.blockSize previous + blockHeader + heap.blockSize block + gain) next
      (if gain = 0 then 0 else 1) := by
    rw [← size]
    apply link_next_resized _ front.small _ gains room
    · rw [size]
      omega
    · rw [size, currentSize]
      exact behind.sum
  refine ⟨_, ⟨merged_trans counted resized.toMerged, resized.size, resized.next, ?_, ?_, ?_, ?_,
    ?_⟩, rfl⟩
  · intro other _
    rw [resized.flags, ← joinedName]
    simp [countMerge]
  · intro other _ notPrevious _
    rw [resized.memory other notPrevious, cells other notPrevious]
  · intro zero
    exact absurd zero behind.some
  · intro _
    rw [sectionFirst, resized.memory _ (Ne.symm behind.elsewhere),
      cells _ (Ne.symm behind.elsewhere), sectionFirst]
  · intro _ same
    omega

end Cases
end Insert

section PutBack
variable {heap : HeapAllocator} {sec : Section} {left before behind right : List (Nat × Block)}
  {block size : Nat}

def space (blocks : List (Nat × Block)) : Nat := (blocks.map fun item => blockLength item.2).sum

/-- The free block that ends where a block starts, when there is one: the blocks
before are `left` and that one. -/
def FreeBefore (left before : List (Nat × Block)) : Prop :=
  (before = [] ∧ ∀ item ∈ left.getLast?, item.2.free = false) ∨
    ∃ address size, before = [(address, ⟨size, true⟩)]

def FreeBehind (behind right : List (Nat × Block)) : Prop :=
  (behind = [] ∧ ∀ item ∈ right.head?, item.2.free = false) ∨
    ∃ address size, behind = [(address, ⟨size, true⟩)]

/-- A used block of a section and the free blocks that it touches. -/
structure Surrounded (sec : Section) (left before : List (Nat × Block)) (block size : Nat)
    (behind right : List (Nat × Block)) : Prop where
  cut : sec.blocks = (left ++ before) ++ (block, ⟨size, false⟩) :: (behind ++ right)
  leftSide : FreeBefore left before
  rightSide : FreeBehind behind right

/-- The free block that these become. -/
def joined (before : List (Nat × Block)) (block size : Nat) (behind : List (Nat × Block)) :
    Nat × Block :=
  (firstOr before block, ⟨space before + size + space behind, true⟩)

def putBack (heap : HeapAllocator) (sec : Section) (left before : List (Nat × Block)) (block : Nat)
    (behind right : List (Nat × Block)) : HeapAllocator :=
  heap.insertBlock sec.address (lastOr 0 (freeBlocks (left ++ before))) block
    (firstOr (freeBlocks (behind ++ right)) 0)

theorem merges_behind (side : FreeBehind behind right) :
    (if space behind = 0 then 0 else 1) = behind.length := by
  rcases side with ⟨nothing, _⟩ | ⟨address, length, found⟩
  · simp [nothing, space]
  · simp [found, space, blockLength, blockHeader]

variable {blocks : List (Nat × Block)}

theorem tiles_space {low high : Nat} (tiles : Tiles blockLength low blocks high) :
    low + space blocks = high := by
  induction blocks generalizing low with
  | nil => exact tiles
  | cons item rest ih =>
    have further := ih tiles.2.2
    simp only [space, map_cons, sum_cons] at further ⊢
    omega

theorem space_multiple (multiples : ∀ item ∈ blocks, 16 ∣ item.2.size) : 16 ∣ space blocks := by
  apply dvd_sum
  intro length member
  rcases mem_map.mp member with ⟨item, inside, same⟩
  have multiple := multiples item inside
  simp only [blockLength, blockHeader] at same
  omega

section Laid
variable (laid : Laid heap sec)
include laid

theorem current_bounds (cut : sec.blocks = left ++ (block, ⟨size, false⟩) :: right)
    (some : firstOr (freeBlocks right) 0 ≠ 0) :
    block + blockHeader + size ≤ firstOr (freeBlocks right) 0 ∧
      firstOr (freeBlocks right) 0 + blockHeader + heap.blockSize (firstOr (freeBlocks right) 0) ≤
        sec.address + sec.length := by
  cases free : freeBlocks right with
  | nil => simp [free] at some
  | cons item rest =>
    have member := mem_free_blocks.mp (show item ∈ freeBlocks right by simp [free])
    have inside : (item.1, (⟨item.2, true⟩ : Block)) ∈ sec.blocks := by simp [cut, member]
    have order := (blocks_around laid cut).2 _ member
    have bounds := block_bounds laid inside
    have held := laid.sizes _ inside
    simp only [first_or_cons] at order bounds held ⊢
    omega

section
variable (cut : sec.blocks = left ++ (block, ⟨size, false⟩) :: (behind ++ right))
include cut

theorem gains_next (side : FreeBehind behind right) :
    GainsNext heap block (firstOr (freeBlocks (behind ++ right)) 0) (space behind)
      (firstOr (freeBlocks right) 0) := by
  have part := part_single laid cut
  have held : heap.blockSize block = size := size_of_cut laid cut
  have tiles := part.behind
  have list := laid.list
  rw [cut] at list
  unfold GainsNext
  rw [held]
  rcases side with ⟨nothing, used⟩ | ⟨address, length, found⟩
  · subst nothing
    rw [if_neg]
    · exact ⟨rfl, rfl⟩
    · rintro ⟨some, touches⟩
      cases free : freeBlocks right with
      | nil => simp [free] at some
      | cons item rest =>
        have member := mem_free_blocks.mp (show item ∈ freeBlocks right by simp [free])
        simp only [nil_append, free, first_or_cons] at touches
        have first := tiles_first_of_starts tiles member (by
          simp only [blockLength]
          omega)
        simpa using used _ first
  · subst found
    have starts : address = block + blockLength ⟨size, false⟩ := tiles.1
    have nonzero := (block_elsewhere laid (show (address, ⟨length, true⟩) ∈ _ by simp [cut])).1
    have heldNext : heap.blockSize address = length :=
      laid.sizes (address, ⟨length, true⟩) (by simp [cut])
    simp only [cons_append, nil_append, free_blocks_cons, if_true, first_or_cons]
    rw [if_pos ⟨nonzero, by simp only [blockLength] at starts; omega⟩, heldNext]
    refine ⟨by simp [space, blockLength], ?_⟩
    simp only [free_blocks_append, free_blocks_cons, if_true, if_false, Bool.false_eq_true,
      nil_append, cons_append] at list
    exact (segment_next list).symm

theorem block_in_front (side : FreeBehind behind right) (room : Room heap 2) :
    InFrontOf heap block (firstOr (freeBlocks (behind ++ right)) 0) (space behind)
      (firstOr (freeBlocks right) 0) := by
  have held : heap.blockSize block = size := size_of_cut laid cut
  have gains := gains_next laid cut side
  have current := current_bounds laid cut
  have bounds := block_bounds laid (mem_of_cut cut)
  have word := laid.word
  have small := laid.small
  obtain ⟨header, sectionWord, -⟩ := constant_sizes
  generalize firstOr (freeBlocks (behind ++ right)) 0 = next at gains current ⊢
  simp only at bounds
  refine ⟨by omega, ?_, ?_, ?_, gains, room⟩
  · by_cases null : next = 0
    · omega
    · have beyond := current null
      omega
  · intro some
    have beyond := current some
    omega
  · intro some
    have beyond := current some
    omega

end

theorem block_behind_used (cut : sec.blocks = left ++ (block, ⟨size, false⟩) :: right)
    (used : ∀ item ∈ left.getLast?, item.2.free = false) (some : lastOr 0 (freeBlocks left) ≠ 0) :
    ApartFrom heap sec.address (lastOr 0 (freeBlocks left)) block := by
  have part := part_single laid cut
  have last := previous_elsewhere laid part
  have bounds := block_bounds laid (mem_of_cut cut)
  have word := laid.word
  have header : blockHeader = 16 := rfl
  rcases previous_cases part with ⟨_, zero⟩ | ⟨_, _, free, member, isFree⟩
  · exact absurd zero some
  have order := (blocks_around laid cut).1 _ member
  have held : heap.blockSize (lastOr 0 (freeBlocks left)) = free.size :=
    laid.sizes (lastOr 0 (freeBlocks left), free) (by simp [cut, member])
  simp only at bounds order
  refine ⟨some, last.2.1, last.2.2, by omega, ?_⟩
  intro touches
  have ends := tiles_last_of_ends part.before member (by
    simp only [blockLength]
    omega)
  have notFree := used _ ends
  rw [isFree] at notFree
  exact absurd notFree (by decide)

theorem block_behind_free {address length : Nat}
    (cut : sec.blocks = (left ++ [(address, ⟨length, true⟩)]) ++ (block, ⟨size, false⟩) :: right) :
    Touching heap sec.address address block (firstOr (freeBlocks right) 0) ∧
      heap.blockSize address = length := by
  have part := part_single laid cut
  have here : (address, (⟨length, true⟩ : Block)) ∈ sec.blocks := by simp [cut]
  have held : heap.blockSize block = size := size_of_cut laid cut
  have heldFree : heap.blockSize address = length := laid.sizes _ here
  have touches := (tiles_cut.mp part.before).2.2
  have elsewhere := block_elsewhere laid here
  have bounds := block_bounds laid (mem_of_cut cut)
  have start := (block_bounds laid here).1
  have current := current_bounds laid cut
  have word := laid.word
  have small := laid.small
  have header : blockHeader = 16 := rfl
  simp only [blockLength, tiles_nil] at elsewhere bounds touches start
  refine ⟨⟨elsewhere.1, elsewhere.2.2, by omega, by omega, by omega, ?_⟩, heldFree⟩
  intro some
  have beyond := current some
  omega

variable (place : Surrounded sec left before block size behind right)
include place

theorem put_back_spec (flag : heap.blockFree block = true) (room : Room heap 2) :
    ∃ linked, PutBack heap linked sec.address (lastOr 0 (freeBlocks (left ++ before))) block
        (firstOr before block) (space before + size + space behind) (firstOr (freeBlocks right) 0)
        (before.length + behind.length) ∧
      heap.putBack sec left before block behind right = linked.countFreed size := by
  rcases place with ⟨cut, leftSide, rightSide⟩
  have held : heap.blockSize block = size := size_of_cut laid cut
  have elsewhere := (block_elsewhere laid (mem_of_cut cut)).2.2
  have front := block_in_front laid cut rightSide room
  rw [← merges_behind rightSide]
  unfold putBack
  rcases leftSide with ⟨nothing, used⟩ | ⟨address, length, found⟩
  · subst nothing
    simp only [append_nil, first_or_nil, space, map_nil, sum_nil, zero_add, length_nil] at cut ⊢
    rw [← held]
    by_cases zero : lastOr 0 (freeBlocks left) = 0
    · rw [zero]
      exact insert_block_front front elsewhere flag
    · exact insert_block_apart front elsewhere flag (block_behind_used laid cut used zero)
  · subst found
    rcases block_behind_free laid cut with ⟨touching, heldFree⟩
    have put := insert_block_touching front touching
    rw [heldFree, held] at put
    simp only [free_blocks_append, free_blocks_cons, free_blocks_nil, if_true, append_nil,
      last_or_snoc, first_or_cons, space, map_cons, map_nil, sum_cons, sum_nil,
      add_zero, blockLength, length_singleton] at put ⊢
    rw [add_comm blockHeader length]
    exact put

/-- The blocks that become one. -/
theorem joined_part :
    Part sec left (firstOr before block) (before ++ (block, ⟨size, false⟩) :: behind)
      (firstOr before block + blockHeader + (space before + size + space behind)) right := by
  have regrouped : sec.blocks =
      left ++ ((before ++ (block, ⟨size, false⟩) :: behind) ++ right) := by
    rw [place.cut]
    simp
  rcases part_of_cut laid regrouped with ⟨low, high, part⟩
  have starts : low = firstOr before block := by
    rcases place.leftSide with ⟨nothing, _⟩ | ⟨address, length, found⟩
    · subst nothing
      exact part.inside.1.symm
    · subst found
      exact part.inside.1.symm
  have ends := tiles_space part.inside
  simp only [space, map_append, map_cons, sum_append, sum_cons, blockLength]
    at ends
  have same : firstOr before block + blockHeader + (space before + size + space behind) = high := by
    simp only [space, blockLength]
    omega
  rw [same, ← starts]
  exact part

variable {linked : HeapAllocator} {merges : Nat}
  (put : PutBack heap linked sec.address (lastOr 0 (freeBlocks (left ++ before))) block
    (firstOr before block) (space before + size + space behind) (firstOr (freeBlocks right) 0)
    merges)
include put

/-- The free block before `left ++ before` is the one in `before`, or the last one of `left`. -/
theorem put_back_rewires :
    Rewires heap linked sec.address (lastOr 0 (freeBlocks left)) (firstOr before block)
      (firstOr before block)
      (firstOr before block + blockHeader + (space before + size + space behind)) := by
  have part := joined_part laid place
  have header : blockHeader = 16 := rfl
  rcases place with ⟨cut, ⟨nothing, used⟩ | ⟨address, length, found⟩, _⟩
  · subst nothing
    simp only [append_nil, first_or_nil] at put ⊢
    refine ⟨?_, put.front, ?_⟩
    · intro other outside notLast elsewhere
      exact put.memory other (by omega) notLast elsewhere
    · intro some
      have links := put.linked some rfl
      exact ⟨put.behind some, links.1, links.2, put.flags _ (previous_elsewhere laid part).2.1⟩
  · subst found
    have touches := (tiles_cut.mp (part_single laid cut).before).2.2
    simp only [free_blocks_append, free_blocks_cons, free_blocks_nil, if_true, append_nil,
      last_or_snoc, first_or_cons, blockLength, tiles_nil] at put touches ⊢
    have nonzero := (block_elsewhere laid (show (address, ⟨length, true⟩) ∈ _ by simp [cut])).1
    have pointer : address = firstOr (freeBlocks ([(address, ⟨length, true⟩)] ++
        (block, ⟨size, false⟩) :: behind) ++ freeBlocks right) 0 := by simp
    rw [pointer]
    simp only [← pointer]
    apply rewires_of_memory laid part
    · intro other outside elsewhere
      simp only [first_or_cons, space, map_cons, map_nil, sum_cons, sum_nil, blockLength] at outside
      exact put.memory other (by omega) (by omega) elsewhere
    · exact put.behind nonzero

theorem put_back_exchanged (flag : heap.blockFree block = true)
    (flagged : Flagged heap (left ++ before ++ behind ++ right)) :
    Exchanged heap linked sec (left ++ joined before block size behind :: right) := by
  have part := joined_part laid place
  have start := (around_part part).2.2.1
  have cut := place.cut
  simp only [sectionHeader] at start
  apply exchange [joined before block size behind] laid _ part
  · exact put_back_rewires laid place put
  · refine ⟨rfl, by simp [blockLength, blockHeader], ?_⟩
    simp only [joined, blockLength, tiles_nil]
    omega
  · intro item member
    rw [mem_singleton] at member
    subst member
    refine ⟨put.size, ?_, ?_⟩
    · rw [put.flags _ (by simp only [joined]; omega)]
      rcases place.leftSide with ⟨nothing, _⟩ | ⟨address, length, found⟩
      · subst nothing
        exact flag
      · subst found
        exact flagged (address, ⟨length, true⟩) (by simp)
    · have here : 16 ∣ size := laid.multiples (block, ⟨size, false⟩) (mem_of_cut cut)
      have first := space_multiple (fun item (member : item ∈ before) =>
        laid.multiples item (by simp [cut, member]))
      have second := space_multiple (fun item (member : item ∈ behind) =>
        laid.multiples item (by simp [cut, member]))
      exact (first.add here).add second
  · simp only [joined, free_blocks_cons, free_blocks_nil, if_true, append_nil,
      cons_append, nil_append, first_or_cons, segment_cons, segment_nil]
    exact ⟨trivial, by omega, put.size, put.next⟩
  · intro item member
    apply flagged
    simp only [mem_append] at member ⊢
    tauto

end Laid
end PutBack
end FrostyKernel.HeapAllocator
