import FrostyKernel.Heap.Fields
import FrostyKernel.Lib.Tiling

/-!
# The layout of a section

A section is described by the blocks that tile the space after its header; the
free ones are on its list. `Laid` says that the memory holds a section with
such a layout. Splitting a free block, taking a block off the list, and putting
one back with merges are steps from one layout to another.
-/

namespace FrostyKernel.HeapAllocator

open Word List

open Memory (pageSize)

structure Block where
  size : Nat
  free : Bool
deriving DecidableEq, Repr

def blockLength (block : Block) : Nat := blockHeader + block.size

structure Section where
  address : Nat
  length : Nat
  blocks : List (Nat × Block)
deriving DecidableEq, Repr

def freeBlocks (blocks : List (Nat × Block)) : List (Nat × Nat) :=
  blocks.filterMap fun block => if block.2.free then some (block.1, block.2.size) else none

@[simp] theorem free_blocks_nil : freeBlocks [] = [] := rfl

@[simp] theorem free_blocks_cons (block : Nat × Block) (rest : List (Nat × Block)) :
    freeBlocks (block :: rest) =
      (if block.2.free then [(block.1, block.2.size)] else []) ++ freeBlocks rest := by
  unfold freeBlocks
  cases free : block.2.free <;> simp [free]

@[simp] theorem free_blocks_append (left right : List (Nat × Block)) :
    freeBlocks (left ++ right) = freeBlocks left ++ freeBlocks right := by
  simp [freeBlocks]

variable {after heap : HeapAllocator} {blocks : List (Nat × Block)}

theorem mem_free_blocks {item : Nat × Nat} :
    item ∈ freeBlocks blocks ↔ (item.1, ⟨item.2, true⟩) ∈ blocks := by
  unfold freeBlocks
  rw [mem_filterMap]
  constructor
  · intro found
    rcases found with ⟨⟨address, size, free⟩, member, same⟩
    cases free
    · simp at same
    · simp only [if_true, Option.some.injEq] at same
      rw [← same]
      exact member
  · intro member
    exact ⟨_, member, by simp⟩

theorem last_free_mem (some : freeBlocks blocks ≠ []) :
    ∃ item ∈ blocks, item.1 = lastOr 0 (freeBlocks blocks) ∧ item.2.free = true := by
  rcases last_or_mem 0 some with ⟨item, member, same⟩
  exact ⟨_, mem_free_blocks.mp member, same.symm, rfl⟩

structure Laid (heap : HeapAllocator) (sec : Section) : Prop where
  aligned : pageSize ∣ sec.address
  nonzero : sec.address ≠ 0
  word : sec.address + sec.length ≤ 2 ^ 64
  small : sec.length < sizeRange
  tiles : Tiles blockLength (sec.address + sectionHeader) sec.blocks (sec.address + sec.length)
  size : heap.sectionSize sec.address + sectionHeader = sec.length
  sizes : ∀ block ∈ sec.blocks, heap.blockSize block.1 = block.2.size
  multiples : ∀ block ∈ sec.blocks, 16 ∣ block.2.size
  list : Segment heap.blockNext heap.blockSize (heap.sectionFirst sec.address)
    (freeBlocks sec.blocks) 0

def Flagged (heap : HeapAllocator) (blocks : List (Nat × Block)) : Prop :=
  ∀ block ∈ blocks, heap.blockFree block.1 = block.2.free

section Order
variable {heap : HeapAllocator} {sec : Section} {left right : List (Nat × Block)} {address : Nat}
  {block : Block}

section
variable (laid : Laid heap sec)
include laid
variable {item : Nat × Block}

theorem block_bounds (member : item ∈ sec.blocks) :
    sec.address + sectionHeader ≤ item.1 ∧
      item.1 + blockHeader + item.2.size ≤ sec.address + sec.length := by
  have bounds := tiles_piece_bounds laid.tiles member
  unfold blockLength at bounds
  omega

/-- A block lies behind the header of its section. -/
theorem block_elsewhere (member : item ∈ sec.blocks) :
    item.1 ≠ 0 ∧ item.1 ≠ sec.address ∧ item.1 ≠ sec.address + 16 := by
  have bounds := block_bounds laid member
  simp only [sectionHeader] at bounds
  omega

section
variable (cut : sec.blocks = left ++ (address, block) :: right)
include cut

/-- The blocks around one of them. -/
theorem blocks_around :
    (∀ item ∈ left, item.1 + blockHeader + item.2.size ≤ address) ∧
      ∀ item ∈ right, address + blockHeader + block.size ≤ item.1 := by
  have tiles := laid.tiles
  rw [cut, tiles_cut] at tiles
  constructor
  · intro item member
    have bounds := tiles_piece_bounds tiles.1 member
    unfold blockLength at bounds
    omega
  · intro item member
    have bounds := tiles_piece_bounds tiles.2.2 member
    unfold blockLength at bounds
    omega

theorem size_of_cut : heap.blockSize address = block.size :=
  laid.sizes (address, block) (mem_of_cut cut)

theorem size_lt : block.size < sizeRange := by
  rw [← size_of_cut laid cut]
  exact Nat.mod_lt _ (by decide)

end
end

theorem free_blocks_sorted {low high : Nat} {blocks : List (Nat × Block)}
    (tiles : Tiles blockLength low blocks high) :
    (freeBlocks blocks).Pairwise fun before after => before.1 < after.1 := by
  unfold freeBlocks
  rw [pairwise_filterMap]
  apply (tiles_sorted tiles).imp
  intro before after order item found other otherFound
  split_ifs at found otherFound
  simp only [Option.some.injEq] at found otherFound
  rw [← found, ← otherFound]
  exact order

end Order

/-- A section depends on its header cells and the header cells of its blocks. -/
theorem laid_congr {sec : Section} (laid : Laid heap sec)
    (header : after.sectionSize sec.address = heap.sectionSize sec.address)
    (first : after.memory (sec.address + 16) = heap.memory (sec.address + 16))
    (same : ∀ block ∈ sec.blocks, after.memory block.1 = heap.memory block.1) : Laid after sec := by
  refine ⟨laid.aligned, laid.nonzero, laid.word, laid.small, laid.tiles, ?_, ?_, laid.multiples, ?_⟩
  · rw [header]
    exact laid.size
  · intro block member
    rw [blockSize, same block member]
    exact laid.sizes block member
  · rw [sectionFirst, first]
    apply segment_congr laid.list
    intro item member
    have here := same _ (mem_free_blocks.mp member)
    simp only [blockNext, blockSize] at here ⊢
    rw [here]
    exact ⟨rfl, rfl⟩

theorem flagged_congr (flagged : Flagged heap blocks)
    (same : ∀ block ∈ blocks, after.memory block.1 = heap.memory block.1) :
    Flagged after blocks := by
  intro block member
  rw [blockFree, same block member]
  exact flagged block member

/-! ## Exchanging blocks -/

/-- The blocks `old` of a section take the space from `low` to `high`. -/
structure Part (sec : Section) (left : List (Nat × Block)) (low : Nat) (old : List (Nat × Block))
    (high : Nat) (right : List (Nat × Block)) : Prop where
  cut : sec.blocks = left ++ (old ++ right)
  before : Tiles blockLength (sec.address + sectionHeader) left low
  inside : Tiles blockLength low old high
  behind : Tiles blockLength high right (sec.address + sec.length)

/-- Writes inside the space from `low` to `high` of a section, together with the
pointer that leads there: the next pointer of the free block `previous`, or the
first pointer of the section. -/
structure Rewires (heap after : HeapAllocator) (start previous pointer low high : Nat) : Prop where
  memory : ∀ other, other < low ∨ high ≤ other → other ≠ previous → other ≠ start + 16 →
    after.memory other = heap.memory other
  front : previous = 0 → after.sectionFirst start = pointer
  behind : previous ≠ 0 → after.sectionFirst start = heap.sectionFirst start ∧
    after.blockNext previous = pointer ∧ after.blockSize previous = heap.blockSize previous ∧
    after.blockFree previous = heap.blockFree previous

section Exchange
variable {heap after : HeapAllocator} {sec : Section} {left old right : List (Nat × Block)}
  {pointer low high : Nat}

theorem part_of_cut (laid : Laid heap sec) (cut : sec.blocks = left ++ (old ++ right)) :
    ∃ low high, Part sec left low old high right := by
  have tiles := laid.tiles
  rw [cut, tiles_append] at tiles
  rcases tiles with ⟨low, before, rest⟩
  rcases tiles_append.mp rest with ⟨high, inside, behind⟩
  exact ⟨low, high, cut, before, inside, behind⟩

theorem part_single {address : Nat} {block : Block} (laid : Laid heap sec)
    (cut : sec.blocks = left ++ (address, block) :: right) :
    Part sec left address [(address, block)] (address + blockLength block) right := by
  have tiles := laid.tiles
  rw [cut, tiles_cut] at tiles
  exact ⟨cut, tiles.1, ⟨rfl, tiles.2.1, rfl⟩, tiles.2.2⟩

section
variable (part : Part sec left low old high right)
include part

/-- Where the blocks around a part lie. -/
theorem around_part :
    (∀ item ∈ left, sec.address + sectionHeader ≤ item.1 ∧
        item.1 + blockHeader + item.2.size ≤ low) ∧
      (∀ item ∈ right, high ≤ item.1) ∧ sec.address + sectionHeader ≤ low ∧ low ≤ high ∧
      high ≤ sec.address + sec.length := by
  refine ⟨?_, ?_, tiles_low_le_high part.before, tiles_low_le_high part.inside,
    tiles_low_le_high part.behind⟩
  · intro item member
    have bounds := tiles_piece_bounds part.before member
    unfold blockLength at bounds
    omega
  · intro item member
    exact (tiles_piece_bounds part.behind member).1

/-- The free block before a part, null when there is none. -/
theorem previous_cases :
    (freeBlocks left = [] ∧ lastOr 0 (freeBlocks left) = 0) ∨
      freeBlocks left ≠ [] ∧ lastOr 0 (freeBlocks left) ≠ 0 ∧
        ∃ block, (lastOr 0 (freeBlocks left), block) ∈ left ∧ block.free = true := by
  by_cases nothing : freeBlocks left = []
  · exact .inl ⟨nothing, by rw [nothing]; rfl⟩
  · rcases last_free_mem nothing with ⟨item, member, same, free⟩
    have bounds := (around_part part).1 item member
    simp only [sectionHeader] at bounds
    rw [← same]
    exact .inr ⟨nothing, by omega, item.2, member, free⟩

theorem rewires_around
    (rewires : Rewires heap after sec.address (lastOr 0 (freeBlocks left)) pointer low high)
    {item : Nat × Block} (member : item ∈ left ++ right) :
    after.blockSize item.1 = heap.blockSize item.1 ∧
      after.blockFree item.1 = heap.blockFree item.1 ∧
      (item.1 ≠ lastOr 0 (freeBlocks left) → after.blockNext item.1 = heap.blockNext item.1) := by
  rcases around_part part with ⟨before, behind, start, order, _⟩
  simp only [sectionHeader, blockHeader] at before start
  have outside : (item.1 < low ∨ high ≤ item.1) ∧ sec.address + 32 ≤ item.1 := by
    rcases mem_append.mp member with inLeft | inRight
    · have bounds := before item inLeft
      omega
    · have bounds := behind item inRight
      omega
  by_cases last : item.1 = lastOr 0 (freeBlocks left)
  · have kept := rewires.behind (by omega)
    rw [last]
    exact ⟨kept.2.2.1, kept.2.2.2, fun other => absurd rfl other⟩
  · have same := rewires.memory item.1 outside.1 last (by omega)
    simp only [blockSize, blockFree, blockNext, same]
    simp

end

/-- The free block before a part lies between the section header and the part. -/
theorem previous_elsewhere (laid : Laid heap sec) (part : Part sec left low old high right) :
    lastOr 0 (freeBlocks left) ≠ sec.address ∧ lastOr 0 (freeBlocks left) ≠ sec.address + 16 ∧
      lastOr 0 (freeBlocks left) < low := by
  have nonzero := laid.nonzero
  rcases around_part part with ⟨before, _, start, _⟩
  simp only [sectionHeader, blockHeader] at before start
  rcases previous_cases part with ⟨_, nothing⟩ | ⟨_, _, block, member, _⟩
  · omega
  · have bounds := before _ member
    simp only at bounds
    omega

/-- A memory that holds a section with other blocks; outside of the section nothing changed. -/
structure Exchanged (heap after : HeapAllocator) (sec : Section) (blocks : List (Nat × Block)) :
    Prop where
  laid : Laid after { sec with blocks := blocks }
  flagged : Flagged after blocks
  frame : ∀ other, other ≠ 0 → other < sec.address + 16 ∨ sec.address + sec.length ≤ other →
    after.memory other = heap.memory other

theorem Exchanged.trans {middle : HeapAllocator} {blocks later : List (Nat × Block)}
    (first : Exchanged heap middle sec blocks)
    (second : Exchanged middle after { sec with blocks := blocks } later) :
    Exchanged heap after sec later :=
  ⟨second.laid, second.flagged, fun other nonzero outside =>
    (second.frame other nonzero outside).trans (first.frame other nonzero outside)⟩

/-- The blocks `old` of a section are exchanged for `new` ones over the same space. -/
theorem exchange (new : List (Nat × Block)) (laid : Laid heap sec)
    (flagged : Flagged heap (left ++ right)) (part : Part sec left low old high right)
    (rewires : Rewires heap after sec.address (lastOr 0 (freeBlocks left))
      (firstOr (freeBlocks new ++ freeBlocks right) 0) low high)
    (tiles : Tiles blockLength low new high)
    (headers : ∀ item ∈ new, after.blockSize item.1 = item.2.size ∧
      after.blockFree item.1 = item.2.free ∧ 16 ∣ item.2.size)
    (list : Segment after.blockNext after.blockSize
      (firstOr (freeBlocks new ++ freeBlocks right) 0) (freeBlocks new)
      (firstOr (freeBlocks right) 0)) : Exchanged heap after sec (left ++ (new ++ right)) := by
  rcases around_part part with ⟨before, behind, start, order, final⟩
  simp only [sectionHeader, blockHeader] at before start
  have around : ∀ item ∈ left ++ right, after.blockSize item.1 = heap.blockSize item.1 ∧
      after.blockFree item.1 = heap.blockFree item.1 ∧
      (item.1 ≠ lastOr 0 (freeBlocks left) → after.blockNext item.1 = heap.blockNext item.1) :=
    fun _ member => rewires_around part rewires member
  have cut := part.cut
  have previous := previous_cases part
  have last := previous_elsewhere laid part
  -- A block of the new section is a new one, or one that was there before.
  have split : ∀ item ∈ left ++ (new ++ right), item ∈ new ∨ item ∈ left ++ right ∧
      item ∈ sec.blocks := by
    intro item member
    rw [cut]
    simp only [mem_append] at member ⊢
    tauto
  refine ⟨⟨laid.aligned, laid.nonzero, laid.word, laid.small, ?_, ?_, ?_, ?_, ?_⟩, ?_, ?_⟩
  · exact tiles_append.mpr ⟨low, part.before, tiles_append.mpr ⟨high, tiles, part.behind⟩⟩
  · have same := rewires.memory sec.address (by omega) (by omega) (by omega)
    rw [sectionSize, same]
    exact laid.size
  · intro item member
    rcases split item member with isNew | ⟨kept, was⟩
    · exact (headers item isNew).1
    · rw [(around item kept).1]
      exact laid.sizes item was
  · intro item member
    rcases split item member with isNew | ⟨_, was⟩
    · exact (headers item isNew).2.2
    · exact laid.multiples item was
  · have held := laid.list
    rw [cut, free_blocks_append, free_blocks_append] at held
    rw [free_blocks_append, free_blocks_append]
    apply segment_splice held _ _ ((free_blocks_sorted part.before).imp ne_of_lt) _ _ list
    · intro item member
      have inRight := mem_free_blocks.mp member
      have same := around _ (mem_append_right left inRight)
      refine ⟨same.2.2 ?_, same.1⟩
      have bounds := behind _ inRight
      simp only at bounds ⊢
      omega
    · intro item member
      exact (around _ (mem_append_left right (mem_free_blocks.mp member))).1
    · intro item member notLast
      exact (around _ (mem_append_left right (mem_free_blocks.mp member))).2.2 notLast
    · intro some
      rcases previous with ⟨nothing, _⟩ | ⟨_, nonzero, _⟩
      · exact absurd nothing some
      · exact (rewires.behind nonzero).1
    · rcases previous with ⟨nothing, zero⟩ | ⟨some, nonzero, _⟩
      · rw [if_pos nothing]
        exact rewires.front zero
      · rw [if_neg some]
        exact (rewires.behind nonzero).2.1
  · intro item member
    rcases split item member with isNew | ⟨kept, _⟩
    · exact (headers item isNew).2.1
    · rw [(around item kept).2.1]
      exact flagged item kept
  · intro other nonzero outside
    have word := laid.word
    apply rewires.memory other (by omega) _ (by omega)
    rcases previous with ⟨_, zero⟩ | ⟨_, _, block, member, _⟩
    · rw [zero]
      exact nonzero
    · have bounds := before _ member
      simp only at bounds
      omega

end Exchange
end FrostyKernel.HeapAllocator
