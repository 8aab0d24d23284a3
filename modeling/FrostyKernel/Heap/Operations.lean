import FrostyKernel.Heap.Accounts

/-!
# Allocate and Free

What the two operations do to the sections of the heap.
-/

namespace FrostyKernel.HeapAllocator

open Word List Option
open Memory (pageSize)

/-! ## The blocks in use -/

def UsedAt (sections : List Section) (address size : Nat) : Prop :=
  ∃ sec ∈ sections, (address, ⟨size, false⟩) ∈ sec.blocks

theorem used_at_cut (front back : List Section) (sec : Section) (address size : Nat) :
    UsedAt (front ++ sec :: back) address size ↔
      UsedAt (front ++ back) address size ∨ (address, ⟨size, false⟩) ∈ sec.blocks := by
  simp only [UsedAt, mem_append, mem_cons]
  constructor
  · rintro ⟨other, (inside | same | inside), member⟩
    · exact .inl ⟨other, .inl inside, member⟩
    · exact .inr (same ▸ member)
    · exact .inl ⟨other, .inr inside, member⟩
  · rintro (⟨other, inside, member⟩ | member)
    · exact ⟨other, by tauto, member⟩
    · exact ⟨sec, by tauto, member⟩

section Blocks
variable {heap : HeapAllocator} {sections : List Section} (invariant : HeapInvariant heap sections)
include invariant
variable {other sec : Section}

theorem sections_separate (isSection : sec ∈ sections) (isOther : other ∈ sections)
    (different : other ≠ sec) : Separate (interval sec) (interval other) := by
  rcases append_of_mem isSection with ⟨front, back, whole⟩
  have separate := invariant.separate
  rw [whole] at separate isOther
  apply separate_around separate
  simp only [mem_append, mem_cons] at isOther ⊢
  tauto

theorem block_unique {first second : Section} (firstIn : first ∈ sections)
    (secondIn : second ∈ sections) {address : Nat} {block other : Block}
    (member : (address, block) ∈ first.blocks) (otherMember : (address, other) ∈ second.blocks) :
    block = other := by
  have firstOrder := invariant.inOrder first firstIn
  have secondOrder := invariant.inOrder second secondIn
  have size : heap.blockSize address = block.size := firstOrder.laid.sizes _ member
  have otherSize : heap.blockSize address = other.size := secondOrder.laid.sizes _ otherMember
  have free : heap.blockFree address = block.free := firstOrder.flagged _ member
  have otherFree : heap.blockFree address = other.free := secondOrder.flagged _ otherMember
  cases block
  cases other
  simp only at size otherSize free otherFree
  rw [← size, ← otherSize, ← free, ← otherFree]

theorem blocks_separate (isSection : sec ∈ sections) (isOther : other ∈ sections)
    {item second : Nat × Block} (inside : item ∈ sec.blocks) (otherInside : second ∈ other.blocks)
    (different : item.1 ≠ second.1) :
    Separate (item.1, blockLength item.2) (second.1, blockLength second.2) := by
  have bounds := block_bounds (invariant.inOrder sec isSection).laid inside
  have otherBounds := block_bounds (invariant.inOrder other isOther).laid otherInside
  simp only [Separate, blockLength]
  by_cases same : other = sec
  · subst same
    rcases append_of_mem inside with ⟨left, right, cut⟩
    rcases blocks_around (invariant.inOrder other isOther).laid cut with ⟨below, above⟩
    rw [cut, mem_append, mem_cons] at otherInside
    rcases otherInside with before | here | behind
    · have bound := below _ before
      omega
    · exact absurd (congrArg Prod.fst here).symm different
    · have bound := above _ behind
      omega
  · have apart := sections_separate invariant isSection isOther same
    simp only [Separate, interval] at apart
    omega

/-- What one section holds is part of the counters. -/
theorem section_counted (member : sec ∈ sections) :
    usedBytes sec.blocks ≤ heap.usedMemory ∧ freeBytes sec.blocks ≤ heap.freeMemory ∧
      headerBytes sec.blocks ≤ heap.metadataMemory ∧ sec.length ≤ heap.totalMemory := by
  rw [invariant.used, invariant.free, invariant.metadata, invariant.total]
  exact ⟨single_le_sum (by simp) _ (mem_map_of_mem member), single_le_sum (by simp) _
    (mem_map_of_mem member), single_le_sum (by simp) _ (mem_map_of_mem member), single_le_sum (by
    simp) _ (mem_map_of_mem member)⟩

end Blocks

/-! ## Handing out a free block -/

section Take
variable {heap : HeapAllocator} {sec : Section} {front back : List Section}
  {left right : List (Nat × Block)} {address size wanted : Nat} {block : Nat}

theorem unlink_block_counters (heap : HeapAllocator) (previous : Nat) {start : Nat}
    (blockElse : block ≠ start + 16) :
    (heap.unlinkBlock start previous block).head = heap.head ∧
      Counts (heap.unlinkBlock start previous block) (add64 heap.usedMemory (heap.blockSize block))
        (sub64 heap.freeMemory (heap.blockSize block)) heap.metadataMemory heap.totalMemory := by
  unfold unlinkBlock
  by_cases first : previous = 0
  · simp only [first, if_true, block_size_set_next,
      block_size_set_first _ _ _ _ blockElse, block_size_set_free]
    exact ⟨rfl, rfl, rfl, rfl, rfl⟩
  · simp only [first, if_false, block_size_set_next, block_size_set_free]
    exact ⟨rfl, rfl, rfl, rfl, rfl⟩

theorem part_block_counters (splits : heap.Splits block wanted) :
    (heap.partBlock block wanted).head = heap.head ∧
      Counts (heap.partBlock block wanted) heap.usedMemory (sub64 heap.freeMemory blockHeader)
        (add64 heap.metadataMemory blockHeader) heap.totalMemory := by
  unfold partBlock
  rw [if_pos splits]
  exact ⟨rfl, rfl, rfl, rfl, rfl⟩

def grantedSize (size wanted : Nat) : Nat :=
  if wanted + blockHeader + minBlockSize < size then wanted else size

theorem granted_ge (fits : wanted ≤ size) : wanted ≤ grantedSize size wanted := by
  unfold grantedSize
  split_ifs
  · exact le_rfl
  · exact fits

theorem mem_taken_blocks (found granted : Nat) :
    (found, ⟨granted, false⟩) ∈ takenBlocks address size wanted ↔
      found = address ∧ granted = grantedSize size wanted := by
  unfold takenBlocks grantedSize
  split_ifs <;> simp

theorem take_block_counters (laid : Laid heap sec)
    (cut : sec.blocks = left ++ (address, ⟨size, true⟩) :: right) (fits : wanted ≤ size)
    (room : heap.usedMemory + heap.freeMemory + heap.metadataMemory + pageSize ≤ 2 ^ 64)
    (part : size ≤ heap.freeMemory) (previous : Nat) :
    (heap.takeBlock sec.address previous address wanted).1.head = heap.head ∧
      (heap.takeBlock sec.address previous address wanted).1.totalMemory = heap.totalMemory ∧
      (heap.takeBlock sec.address previous address wanted).1.usedMemory =
        heap.usedMemory + usedBytes (takenBlocks address size wanted) ∧
      (heap.takeBlock sec.address previous address wanted).1.freeMemory + size =
        heap.freeMemory + freeBytes (takenBlocks address size wanted) ∧
      (heap.takeBlock sec.address previous address wanted).1.metadataMemory + blockHeader =
        heap.metadataMemory + blockHeader * (takenBlocks address size wanted).length := by
  have here := block_elsewhere laid (mem_of_cut cut)
  have held : heap.blockSize address = size := size_of_cut laid cut
  obtain ⟨header, -, pageWord, -⟩ := constant_sizes
  rcases unlink_block_counters (heap.partBlock address wanted) previous here.2.2 with
    ⟨head, used, free, metadata, total⟩
  unfold takeBlock takenBlocks
  simp only
  rw [head, total, metadata, free, used]
  by_cases large : wanted + blockHeader + minBlockSize < size
  · rcases part_block_counters ((splits_iff laid cut fits).mpr large) with
      ⟨partHead, partUsed, partFree, partMetadata, partTotal⟩
    have partSize : (heap.partBlock address wanted).blockSize address = wanted := by
      rw [(part_block_fields laid cut large).1, if_pos rfl]
    have freeLess : sub64 heap.freeMemory blockHeader = heap.freeMemory - blockHeader :=
      sub64_of_le (by omega) (by omega)
    rw [partHead, partTotal, partMetadata, partFree, partUsed, partSize, if_pos large, freeLess,
      add64_of_lt (by omega), add64_of_lt (by omega), sub64_of_le (by omega) (by omega)]
    simp only [used_bytes_cons, used_bytes_nil, free_bytes_cons, free_bytes_nil,
      Bool.false_eq_true, if_false, if_true, length_cons, length_nil, header]
    exact ⟨trivial, trivial, by omega, by omega, trivial⟩
  · rw [part_block_whole laid cut fits large, if_neg large, held, add64_of_lt (by omega),
      sub64_of_le (by omega) (by omega)]
    simp only [used_bytes_cons, used_bytes_nil, free_bytes_cons, free_bytes_nil,
      Bool.false_eq_true, if_false, length_cons, length_nil, header]
    exact ⟨trivial, trivial, by omega, by omega, trivial⟩

theorem take_block_heap (invariant : HeapInvariant heap (front ++ sec :: back))
    (cut : sec.blocks = left ++ (address, ⟨size, true⟩) :: right) (fits : wanted ≤ size)
    (multiple : 16 ∣ wanted) :
    HeapInvariant (heap.takeBlock sec.address (lastOr 0 (freeBlocks left)) address wanted).1
      (front ++ { sec with blocks := left ++ (takenBlocks address size wanted ++ right) } :: back) := by
  have order := invariant.inOrder sec (by simp)
  have taken := take_block_exchanged order.laid order.flagged cut fits multiple
  have counted := section_counted invariant (show sec ∈ _ by simp)
  have sum := accounts_add_up invariant
  have top := total_lt invariant
  have part : size ≤ heap.freeMemory := by
    have bytes := counted.2.1
    rw [cut] at bytes
    simp only [free_bytes_append, free_bytes_cons, if_true] at bytes
    omega
  rcases take_block_counters order.laid cut fits (by omega) part (lastOr 0 (freeBlocks left)) with
    ⟨head, total, used, free, metadata⟩
  apply heap_replace invariant (take_block_invariant order cut fits multiple) taken.frame head
  · rw [cut]
    simp only [used_bytes_append, used_bytes_cons, if_true]
    omega
  · rw [cut]
    simp only [free_bytes_append, free_bytes_cons, if_true]
    omega
  · rw [cut]
    simp only [headerBytes, length_append, length_cons, blockHeader] at metadata ⊢
    omega
  · exact total

end Take

theorem find_fit_spec {heap : HeapAllocator} {sections : List Section} (wanted : Nat)
    (inOrder : ∀ sec ∈ sections, SectionInvariant heap sec) {address fuel : Nat}
    (list : Segment heap.sectionNext (fun _ => ()) address
      (sections.map fun sec => (sec.address, ())) 0) (enough : sections.length < fuel) :
    heap.findFit wanted fuel address = some (0, 0, 0) ∨
    ∃ front sec back left right block size, sections = front ++ sec :: back ∧
      sec.blocks = left ++ (block, ⟨size, true⟩) :: right ∧ wanted ≤ size ∧
      heap.findFit wanted fuel address = some (sec.address, lastOr 0 (freeBlocks left), block) := by
  induction sections generalizing address fuel with
  | nil =>
    cases fuel with
    | zero => simp at enough
    | succ fuel =>
      have null : address = 0 := list
      left
      simp [findFit, null]
  | cons sec rest ih =>
    cases fuel with
    | zero => simp at enough
    | succ fuel =>
      rcases list with ⟨atSection, nonzero, _, tail⟩
      simp only at atSection nonzero tail
      subst atSection
      have order := inOrder sec (by simp)
      simp only [findFit, if_neg nonzero]
      rcases find_block_spec order wanted with ⟨previous, nothing⟩ | found
      · rw [nothing]
        simp only [ne_eq, not_true_eq_false, if_false]
        rcases ih (fun other member => inOrder other (by simp [member])) tail
          (by simpa using enough) with none | found
        · exact .inl none
        · rcases found with ⟨front, other, back, left, right, block, size, whole, cut, fits, result⟩
          exact .inr ⟨sec :: front, other, back, left, right, block, size, by simp [whole],
            cut, fits, result⟩
      · rcases found with ⟨left, right, block, size, cut, fits, result⟩
        have some := (block_elsewhere order.laid (mem_of_cut cut)).1
        rw [result]
        refine .inr ⟨[], sec, rest, left, right, block, size, rfl, cut, fits, ?_⟩
        simp only [ne_eq, some, not_false_eq_true, if_true]

/-! ## Adding a section -/

section Add
variable {heap : HeapAllocator} {sections : List Section} {address wanted : Nat}

theorem new_section_size_spec (small : wanted < 2 ^ 62 + 16) (multiple : 16 ∣ wanted) :
    sectionHeader + blockHeader + wanted ≤ newSectionSize wanted ∧
      newSectionSize wanted < sizeRange ∧ 16 ∣ newSectionSize wanted ∧
      minSectionSize ≤ newSectionSize wanted := by
  have large : minSectionSize = 131072 := rfl
  have headers : add64 sectionHeader blockHeader = 48 := rfl
  unfold newSectionSize
  rw [headers, add64_of_lt (by omega), alignUp_of_lt (by decide) (by omega)]
  simp only [sectionHeader, blockHeader, large, sizeRange]
  omega

/-- A new section of `total` bytes. -/
def newSection (address total wanted : Nat) : Section :=
  ⟨address, total,
    takenBlocks (address + sectionHeader) (total - sectionHeader - blockHeader) wanted⟩

variable {total : Nat}

theorem open_section_fields (heap : HeapAllocator) (fits : sectionHeader + blockHeader ≤ total)
    (less : total < sizeRange)
    (word : address + total ≤ 2 ^ 64) :
    (heap.openSection total address).memory address = ⟨total - sectionHeader, heap.head⟩ ∧
      (heap.openSection total address).blockSize (address + sectionHeader) =
        total - sectionHeader - blockHeader ∧
      (heap.openSection total address).blockFree (address + sectionHeader) = false ∧
      (∀ other, other ≠ address → other ≠ address + sectionHeader →
        (heap.openSection total address).memory other = heap.memory other) := by
  obtain ⟨header, sectionWord, -, range, -⟩ := constant_sizes
  have elsewhere : address ≠ address + sectionHeader := by omega
  have size : sub64 total sectionHeader = total - sectionHeader := sub64_of_le (by omega) (by omega)
  have rest : sub64 (total - sectionHeader) blockHeader % sizeRange =
      total - sectionHeader - blockHeader := by
    rw [sub64_of_le (by omega) (by omega)]
    exact Nat.mod_eq_of_lt (by omega)
  unfold openSection
  simp only
  rw [add64_of_lt (show address + sectionHeader < 2 ^ 64 by omega), size]
  refine ⟨?_, ?_, ?_, ?_⟩
  · rw [memory_set_next _ _ _ _ elsewhere, memory_set_free _ _ _ _ elsewhere, memory_set_size _ _ _
      _ elsewhere, memory_set_section_next_self, sectionSize, memory_set_section_size_self]
  · simp [sectionSize, rest]
  · simp
  · intro other notSection notBlock
    simp [notSection, notBlock]

section
variable (held : heap.blockSize (address + sectionHeader) = total - sectionHeader - blockHeader)
include held

/-- The fields after the first block was cut to size. -/
theorem cut_section_fields (fits : sectionHeader + blockHeader + wanted ≤ total)
    (less : total < sizeRange) (word : address + total ≤ 2 ^ 64)
    (large : wanted + blockHeader + minBlockSize < total - sectionHeader - blockHeader) :
    (∀ other, other ≠ address + 16 → (heap.cutSection address wanted).blockSize other =
        if other = address + sectionHeader then wanted
        else if other = address + sectionHeader + blockHeader + wanted then
          total - sectionHeader - blockHeader - wanted - blockHeader
        else heap.blockSize other) ∧
      (∀ other, other ≠ address + 16 → (heap.cutSection address wanted).blockFree other =
        if other = address + sectionHeader + blockHeader + wanted then true
        else heap.blockFree other) ∧
      (heap.cutSection address wanted).blockNext
        (address + sectionHeader + blockHeader + wanted) = 0 ∧
      (heap.cutSection address wanted).sectionFirst address =
        address + sectionHeader + blockHeader + wanted ∧
      ∀ other, other ≠ address + 16 → other ≠ address + sectionHeader →
        other ≠ address + sectionHeader + blockHeader + wanted →
        (heap.cutSection address wanted).memory other = heap.memory other := by
  obtain ⟨header, sectionWord, -, range, minimum⟩ := constant_sizes
  have first : add64 address sectionHeader = address + sectionHeader := add64_of_lt (by omega)
  have second : add64 (address + sectionHeader) blockHeader = address + sectionHeader + blockHeader :=
    add64_of_lt (by omega)
  have third : add64 (address + sectionHeader + blockHeader) wanted =
      address + sectionHeader + blockHeader + wanted := add64_of_lt (by omega)
  have splits : heap.Splits (address + sectionHeader) wanted := by
    unfold Splits
    rw [held, add64_of_lt (show wanted + blockHeader < 2 ^ 64 by omega), add64_of_lt (by omega)]
    exact large
  have left : sub64 (sub64 (total - sectionHeader - blockHeader) wanted) blockHeader % sizeRange =
      total - sectionHeader - blockHeader - wanted - blockHeader := by
    rw [sub64_of_le (show total - sectionHeader - blockHeader < 2 ^ 64 by omega) (by omega),
      sub64_of_le (by omega) (by omega)]
    exact Nat.mod_eq_of_lt (by omega)
  have whole : wanted % sizeRange = wanted := Nat.mod_eq_of_lt (by omega)
  generalize restName : address + sectionHeader + blockHeader + wanted = rest at *
  generalize blockName : address + sectionHeader = block at *
  have restElse : rest ≠ address + 16 := by omega
  have different : rest ≠ block := by omega
  unfold cutSection splitBlock
  simp only [first, second, third, splits, if_true, held]
  refine ⟨?_, ?_, ?_, ?_, ?_⟩
  · intro other elsewhere
    simp [elsewhere, left, whole]
  · intro other elsewhere
    simp [elsewhere]
  · simp [restElse]
  · simp
  · intro other elsewhere notBlock notRest
    simp [elsewhere, notBlock, notRest]

/-- A block that is too small to be cut fills the section. -/
theorem cut_section_whole (fits : sectionHeader + blockHeader + wanted ≤ total)
    (less : total < sizeRange) (word : address + total ≤ 2 ^ 64)
    (whole : ¬ wanted + blockHeader + minBlockSize < total - sectionHeader - blockHeader) :
    heap.cutSection address wanted = heap.setSectionFirst address 0 := by
  obtain ⟨header, -, -, range, minimum⟩ := constant_sizes
  unfold cutSection
  simp only
  rw [add64_of_lt (show address + sectionHeader < 2 ^ 64 by omega), if_neg]
  unfold Splits
  rw [held, add64_of_lt (show wanted + blockHeader < 2 ^ 64 by omega), add64_of_lt (by omega)]
  exact whole

end

theorem new_section_invariant (heap : HeapAllocator) (good : GoodAnswer address total)
    (fits : sectionHeader + blockHeader + wanted ≤ total) (less : total < sizeRange)
    (wholeMultiple : 16 ∣ total) (multiple : 16 ∣ wanted) (large : 80 ≤ total) :
    SectionInvariant ((heap.openSection total address).cutSection address wanted)
      (newSection address total wanted) := by
  obtain ⟨header, sectionWord, -, range, minimum⟩ := constant_sizes
  rcases open_section_fields heap (by omega) less good.word with ⟨sectionCell, held, used, _⟩
  generalize heap.openSection total address = ready at *
  unfold newSection takenBlocks
  by_cases splits : wanted + blockHeader + minBlockSize < total - sectionHeader - blockHeader
  · rcases cut_section_fields held fits less good.word splits with
      ⟨sizes, flags, last, first, memory⟩
    rw [if_pos splits]
    have cell := memory address (by omega) (by omega) (by omega)
    have sizeBlock := sizes (address + sectionHeader) (by omega)
    have sizeRest := sizes (address + sectionHeader + blockHeader + wanted) (by omega)
    have flagBlock := flags (address + sectionHeader) (by omega)
    have flagRest := flags (address + sectionHeader + blockHeader + wanted) (by omega)
    rw [if_pos rfl] at sizeBlock flagRest
    rw [if_neg (by omega), if_pos rfl] at sizeRest
    rw [if_neg (by omega)] at flagBlock
    refine ⟨⟨good.aligned, good.nonzero, good.word, less, ?_, ?_, ?_, ?_, ?_⟩, ?_, ?_, ?_⟩
    · refine ⟨rfl, by simp [blockLength, header], ?_, by simp [blockLength, header], ?_⟩
      · simp only [blockLength]
        omega
      · simp only [blockLength, tiles_nil]
        omega
    · rw [sectionSize, cell, sectionCell]
      simp only
      omega
    · simp [sizeBlock, sizeRest]
    · simp only [mem_cons, not_mem_nil, or_false, forall_eq_or_imp, forall_eq]
      exact ⟨multiple, by omega⟩
    · simp only [free_blocks_cons, free_blocks_nil, Bool.false_eq_true, if_false, if_true,
        append_nil, nil_append, segment_cons, segment_nil]
      exact ⟨first, by omega, sizeRest, last⟩
    · intro item member
      simp only [mem_cons, not_mem_nil, or_false] at member
      rcases member with same | same
      · rw [same]
        exact flagBlock.trans used
      · rw [same]
        exact flagRest
    · simp [Coalesced]
    · simp only [getLast?_cons_cons, getLast?_singleton, mem_def, some.injEq, forall_eq']
      omega
  · rw [cut_section_whole held fits less good.word splits, if_neg splits]
    have cell := memory_set_section_first ready 0 address address (by omega)
    have size := block_size_set_first ready 0 (address + sectionHeader) address (by omega)
    have flag := block_free_set_first ready 0 (address + sectionHeader) address (by omega)
    refine ⟨⟨good.aligned, good.nonzero, good.word, less, ?_, ?_, ?_, ?_, ?_⟩, ?_, ?_, ?_⟩
    · refine ⟨rfl, by simp [blockLength, header], ?_⟩
      simp only [blockLength, tiles_nil]
      omega
    · rw [sectionSize, cell, sectionCell]
      simp only
      omega
    · simp [size, held]
    · simp only [mem_singleton, forall_eq]
      omega
    · simp
    · intro item member
      rw [mem_singleton] at member
      rw [member]
      exact flag.trans used
    · simp [Coalesced]
    · simp only [getLast?_singleton, mem_def, some.injEq, forall_eq']
      omega

theorem open_section_counters (heap : HeapAllocator) (total address : Nat) :
    Counts (heap.openSection total address) heap.usedMemory heap.freeMemory
      (add64 heap.metadataMemory (sectionHeader + blockHeader)) (add64 heap.totalMemory total) :=
  ⟨rfl, rfl, rfl, rfl⟩

theorem cut_section_split_counters (splits : heap.Splits (add64 address sectionHeader) wanted) :
    Counts (heap.cutSection address wanted) heap.usedMemory
      (add64 heap.freeMemory ((heap.cutSection address wanted).blockSize
        (add64 (add64 (add64 address sectionHeader) blockHeader) wanted)))
      (add64 heap.metadataMemory blockHeader) heap.totalMemory := by
  unfold cutSection
  simp only [splits, if_true, block_size_counters]
  exact ⟨rfl, rfl, rfl, rfl⟩

theorem cut_section_counters
    (held : heap.blockSize (address + sectionHeader) = total - sectionHeader - blockHeader)
    (fits : sectionHeader + blockHeader + wanted ≤ total) (less : total < sizeRange)
    (word : address + total ≤ 2 ^ 64)
    (room : heap.metadataMemory + heap.freeMemory + total + blockHeader < 2 ^ 64) :
    (heap.cutSection address wanted).totalMemory = heap.totalMemory ∧
      (heap.cutSection address wanted).usedMemory = heap.usedMemory ∧
      (heap.cutSection address wanted).freeMemory =
        heap.freeMemory + freeBytes (newSection address total wanted).blocks ∧
      (heap.cutSection address wanted).metadataMemory + blockHeader =
        heap.metadataMemory + blockHeader * (newSection address total wanted).blocks.length ∧
      (heap.cutSection address wanted).blockSize (address + sectionHeader) =
        usedBytes (newSection address total wanted).blocks := by
  obtain ⟨header, sectionWord, -, range, minimum⟩ := constant_sizes
  unfold newSection takenBlocks
  by_cases splits : wanted + blockHeader + minBlockSize < total - sectionHeader - blockHeader
  · rcases cut_section_fields held fits less word splits with ⟨sizes, _⟩
    have sizeBlock := sizes (address + sectionHeader) (by omega)
    have sizeRest := sizes (address + sectionHeader + blockHeader + wanted) (by omega)
    rw [if_pos rfl] at sizeBlock
    rw [if_neg (by omega), if_pos rfl] at sizeRest
    have first : add64 address sectionHeader = address + sectionHeader := add64_of_lt (by omega)
    have enough : heap.Splits (add64 address sectionHeader) wanted := by
      unfold Splits
      rw [first, held, add64_of_lt (show wanted + blockHeader < 2 ^ 64 by omega),
        add64_of_lt (by omega)]
      exact splits
    rcases cut_section_split_counters enough with ⟨usedSame, free, metadata, totalSame⟩
    rw [first, add64_of_lt (show address + sectionHeader + blockHeader < 2 ^ 64 by omega),
      add64_of_lt (show address + sectionHeader + blockHeader + wanted < 2 ^ 64 by omega), sizeRest,
      add64_of_lt (by omega)] at free
    rw [add64_of_lt (by omega)] at metadata
    rw [if_pos splits, totalSame, usedSame, free, metadata, sizeBlock]
    simp only [used_bytes_cons, used_bytes_nil, free_bytes_cons, free_bytes_nil,
      Bool.false_eq_true, if_false, if_true, length_cons, length_nil, header]
    exact ⟨trivial, trivial, by omega, trivial, by omega⟩
  · rw [cut_section_whole held fits less word splits, if_neg splits,
      block_size_set_first _ _ _ _ (by omega), held]
    simp only [used_bytes_cons, used_bytes_nil, free_bytes_cons, free_bytes_nil,
      Bool.false_eq_true, if_false, length_cons, length_nil]
    exact ⟨rfl, rfl, rfl, rfl, rfl⟩

theorem new_section_memory (heap : HeapAllocator)
    (fits : sectionHeader + blockHeader + wanted ≤ total)
    (less : total < sizeRange) (word : address + total ≤ 2 ^ 64) (large : 80 ≤ total) :
    ((heap.openSection total address).cutSection address wanted).memory address =
        ⟨total - sectionHeader, heap.head⟩ ∧
      ∀ other, other < address ∨ address + total ≤ other →
        ((heap.openSection total address).cutSection address wanted).memory other =
          heap.memory other := by
  obtain ⟨header, sectionWord, -, -, minimum⟩ := constant_sizes
  rcases open_section_fields heap (by omega) less word with ⟨sectionCell, held, _, opened⟩
  by_cases splits : wanted + blockHeader + minBlockSize < total - sectionHeader - blockHeader
  · rcases cut_section_fields held fits less word splits with ⟨_, _, _, _, memory⟩
    refine ⟨(memory address (by omega) (by omega) (by omega)).trans sectionCell, ?_⟩
    intro other outside
    rw [memory other (by omega) (by omega) (by omega), opened other (by omega) (by omega)]
  · rw [cut_section_whole held fits less word splits]
    refine ⟨(memory_set_section_first _ _ _ _ (by omega)).trans sectionCell, ?_⟩
    intro other outside
    rw [memory_set_section_first _ _ _ _ (by omega), opened other (by omega) (by omega)]

theorem add_section_heap (invariant : HeapInvariant heap sections) (small : wanted < 2 ^ 62 + 16)
    (multiple : 16 ∣ wanted) (good : GoodAnswer address (newSectionSize wanted))
    (apart : ∀ sec ∈ sections, Separate (address, newSectionSize wanted) (interval sec)) :
    HeapInvariant (heap.addSection wanted address).1
      (newSection address (newSectionSize wanted) wanted :: sections) := by
  rcases new_section_size_spec small multiple with ⟨fits, less, whole, least⟩
  obtain ⟨header, sectionWord, -⟩ := constant_sizes
  have leastWord : minSectionSize = 131072 := rfl
  have pageWord : pageSize = 4096 := rfl
  have separate : ((newSection address (newSectionSize wanted) wanted :: sections).map
      interval).Pairwise Separate := by
    rw [map_cons, pairwise_cons]
    refine ⟨?_, invariant.separate⟩
    intro range member
    rcases mem_map.mp member with ⟨sec, inside, same⟩
    rw [← same]
    exact apart sec inside
  have bound := lengths_lt (fun range member => by
    rw [map_cons, mem_cons] at member
    rcases member with same | inside
    · rw [same]
      exact good
    · exact good_sections invariant range inside) separate
  rw [map_cons, map_cons, sum_cons, ← total_eq invariant] at bound
  have sum := accounts_add_up invariant
  have word := good.word
  have ready := new_section_invariant heap good fits less whole multiple (by omega)
  rcases new_section_memory heap fits less word (by omega) with ⟨sectionCell, memory⟩
  rcases open_section_fields heap (by omega) less word with ⟨_, held, _⟩
  rcases open_section_counters heap (newSectionSize wanted) address with
    ⟨openUsed, openFree, openMetadata, openTotal⟩
  have blocks := section_bytes ready.laid
  simp only [interval, newSection] at bound blocks
  rw [add64_of_lt (by omega)] at openTotal openMetadata
  rcases cut_section_counters held fits less word (by rw [openMetadata, openFree]; omega) with
    ⟨total, used, free, metadata, granted⟩
  rw [openTotal] at total
  rw [openUsed] at used
  rw [openFree] at free
  rw [openMetadata] at metadata
  unfold addSection
  simp only
  rw [add64_of_lt (show address + sectionHeader < 2 ^ 64 by omega), granted]
  generalize (heap.openSection (newSectionSize wanted) address).cutSection address wanted =
    added at *
  refine ⟨?_, ?_, separate, ?_, ?_, ?_, ?_⟩
  · intro sec member
    rcases mem_cons.mp member with same | inside
    · rw [same]
      exact section_congr ready (fun _ _ _ => rfl)
    · apply section_congr (invariant.inOrder sec inside)
      intro other low high
      have between := apart sec inside
      simp only [Separate, interval] at between
      exact memory other (by omega)
  · refine ⟨rfl, good.nonzero, rfl, ?_⟩
    simp only [section_next_counters]
    rw [sectionNext]
    simp only [newSection, sectionCell]
    apply segment_congr invariant.list
    intro item member
    rcases mem_map.mp member with ⟨sec, inside, same⟩
    have between := apart sec inside
    have tiles := tiles_low_le_high (invariant.inOrder sec inside).laid.tiles
    simp only [Separate, interval] at between
    rw [← same, sectionNext, memory sec.address (by omega)]
    exact ⟨rfl, rfl⟩
  · simp only [map_cons, sum_cons, used, ← invariant.used]
    rw [add64_of_lt (by simp only [newSection]; omega), add_comm]
  · simp only [map_cons, sum_cons, free, ← invariant.free]
    omega
  · rw [map_cons, sum_cons, ← invariant.metadata]
    simp only [headerBytes]
    omega
  · simp only [map_cons, sum_cons, total, ← invariant.total]
    simp only [newSection]
    omega

end Add

/-! ## Allocate -/

section Allocate
variable {heap : HeapAllocator} {sections : List Section} {size answer : Nat}

def NeedsSection (heap : HeapAllocator) (size : Nat) : Prop :=
  heap.findFit (alignUp size minBlockSize) (2 ^ 64) heap.head = some (0, 0, 0)

instance (heap : HeapAllocator) (size : Nat) : Decidable (heap.NeedsSection size) := by
  unfold NeedsSection
  infer_instance

theorem aligned_size (small : size < 2 ^ 62) :
    size ≤ alignUp size minBlockSize ∧ alignUp size minBlockSize < 2 ^ 62 + 16 ∧
      16 ∣ alignUp size minBlockSize := by
  rw [alignUp_of_lt (by decide) (by simp only [minBlockSize]; omega)]
  simp only [minBlockSize]
  omega

/-- One more block is in use. -/
structure Granted (before after : List Section) (ptr size : Nat) : Prop where
  enough : ∃ granted, size ≤ granted ∧ ∀ address length, UsedAt after address length ↔
    UsedAt before address length ∨ address + blockHeader = ptr ∧ length = granted
  fresh : ∀ length, ¬ UsedAt before (ptr - blockHeader) length
  above : blockHeader < ptr

variable {wanted : Nat}

theorem take_block_granted {front back : List Section} {sec : Section}
    {left right : List (Nat × Block)} {block length : Nat}
    (invariant : HeapInvariant heap (front ++ sec :: back))
    (cut : sec.blocks = left ++ (block, ⟨length, true⟩) :: right) (fits : wanted ≤ length)
    (covers : size ≤ wanted) :
    Granted (front ++ sec :: back)
      (front ++ { sec with blocks := left ++ (takenBlocks block length wanted ++ right) } :: back)
      (block + blockHeader) size := by
  have inside : (block, ⟨length, true⟩) ∈ sec.blocks := mem_of_cut cut
  have elsewhere := block_elsewhere (invariant.inOrder sec (by simp)).laid inside
  refine ⟨⟨grantedSize length wanted, covers.trans (granted_ge fits), ?_⟩, ?_, ?_⟩
  · intro address other
    rw [used_at_cut, used_at_cut, cut]
    simp only [mem_append, mem_cons, mem_taken_blocks, Prod.mk.injEq, Block.mk.injEq,
      Bool.false_eq_true, and_false, false_or, Nat.add_right_cancel_iff]
    tauto
  · intro other used
    rcases used with ⟨found, isSection, member⟩
    rw [Nat.add_sub_cancel] at member
    have same := block_unique invariant isSection (show sec ∈ _ by simp) member inside
    simp at same
  · simp only at elsewhere
    omega

theorem add_section_granted {address total : Nat} (invariant : HeapInvariant heap sections)
    (fits : sectionHeader + blockHeader + wanted ≤ total)
    (apart : ∀ sec ∈ sections, Separate (address, total) (interval sec)) (covers : size ≤ wanted) :
    Granted sections (newSection address total wanted :: sections)
      (address + sectionHeader + blockHeader) size := by
  obtain ⟨header, sectionWord, -⟩ := constant_sizes
  refine ⟨⟨grantedSize (total - sectionHeader - blockHeader) wanted,
    covers.trans (granted_ge (by omega)), ?_⟩, ?_, ?_⟩
  · intro found other
    have split := used_at_cut [] sections (newSection address total wanted) found other
    simp only [nil_append] at split
    rw [split]
    simp only [newSection, mem_taken_blocks, Nat.add_right_cancel_iff]
  · intro other used
    rcases used with ⟨sec, isSection, member⟩
    have bounds := block_bounds (invariant.inOrder sec isSection).laid member
    have between := apart sec isSection
    simp only [Separate, interval] at between bounds
    omega
  · omega

/-- A request is granted from a free block, from a new section, or not at all. -/
theorem allocate_spec (invariant : HeapInvariant heap sections) (small : size < 2 ^ 62)
    (promised : heap.NeedsSection size → answer ≠ 0 →
      GoodAnswer answer (newSectionSize (alignUp size minBlockSize)) ∧
      ∀ sec ∈ sections,
        Separate (answer, newSectionSize (alignUp size minBlockSize)) (interval sec)) :
    (heap.NeedsSection size ∧ answer = 0 ∧ heap.allocate size answer = some (heap, 0)) ∨
    ∃ after ptr newSections, heap.allocate size answer = some (after, ptr) ∧
      HeapInvariant after newSections ∧ Granted sections newSections ptr size ∧
      (heap.NeedsSection size → answer ≠ 0) ∧
      newSections.map interval =
        if heap.NeedsSection size then
          (answer, newSectionSize (alignUp size minBlockSize)) :: sections.map interval
        else sections.map interval := by
  rcases aligned_size small with ⟨covers, bound, multiple⟩
  unfold allocate
  simp only
  rcases find_fit_spec (alignUp size minBlockSize) invariant.inOrder invariant.list
    (sections_short invariant) with nothing | found
  · have needs : heap.NeedsSection size := nothing
    rw [nothing]
    by_cases refused : answer = 0
    · left
      exact ⟨needs, refused, by simp [refused]⟩
    right
    rcases promised needs refused with ⟨good, apart⟩
    rcases new_section_size_spec bound multiple with ⟨fits, _, _, least⟩
    have word := good.word
    refine ⟨_, (heap.addSection (alignUp size minBlockSize) answer).2, _, ?_,
      add_section_heap invariant bound multiple good apart, ?_, fun _ => refused, ?_⟩
    · simp [refused]
    · have address : (heap.addSection (alignUp size minBlockSize) answer).2 =
          answer + sectionHeader + blockHeader := by
        have leastWord : minSectionSize = 131072 := rfl
        unfold addSection
        simp only [sectionHeader, blockHeader]
        rw [add64_of_lt (show answer + 32 < 2 ^ 64 by omega), add64_of_lt (by omega)]
      rw [address]
      exact add_section_granted invariant fits apart covers
    · rw [if_pos needs]
      rfl
  · rcases found with ⟨front, sec, back, left, right, block, length, whole, cut, fits, result⟩
    subst whole
    have order := invariant.inOrder sec (by simp)
    have elsewhere := block_elsewhere order.laid (mem_of_cut cut)
    have enough : ¬ heap.NeedsSection size := by
      unfold NeedsSection
      rw [result]
      simp [elsewhere.1]
    right
    rw [result]
    refine ⟨_, add64 block blockHeader, _, ?_, take_block_heap invariant cut fits multiple, ?_,
      fun needs => absurd needs enough, ?_⟩
    · simp [elsewhere.1, takeBlock]
    · have before := block_before_end order (mem_of_cut cut)
      have word := order.laid.word
      have header : blockHeader = 16 := rfl
      simp only at before
      rw [add64_of_lt (by omega)]
      exact take_block_granted invariant cut fits covers
    · rw [if_neg enough]
      simp [interval]

end Allocate
end FrostyKernel.HeapAllocator
