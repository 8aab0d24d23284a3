import FrostyKernel.Heap.Sections
import FrostyKernel.Lib.Intervals

/-!
# The heap and its accounts

The heap is a list of sections in good order that do not overlap, and its four
counters are the sums over them. Each operation exchanges the blocks of one
section, adds a section, or gives sections back.
-/

namespace FrostyKernel.HeapAllocator

open Word List
open Memory (pageSize)

/-! ## Sums over blocks -/

def usedBytes (blocks : List (Nat × Block)) : Nat :=
  (blocks.map fun item => if item.2.free then 0 else item.2.size).sum

def freeBytes (blocks : List (Nat × Block)) : Nat :=
  (blocks.map fun item => if item.2.free then item.2.size else 0).sum

section
variable (blocks left : List (Nat × Block)) (item : Nat × Block) (rest right : List (Nat × Block))

def headerBytes : Nat := sectionHeader + blockHeader * blocks.length

@[simp] theorem used_bytes_append :
    usedBytes (left ++ right) = usedBytes left + usedBytes right := by
  simp [usedBytes]

@[simp] theorem used_bytes_cons :
    usedBytes (item :: rest) = (if item.2.free then 0 else item.2.size) + usedBytes rest := by
  simp [usedBytes]

@[simp] theorem used_bytes_nil : usedBytes [] = 0 := rfl

@[simp] theorem free_bytes_append :
    freeBytes (left ++ right) = freeBytes left + freeBytes right := by
  simp [freeBytes]

@[simp] theorem free_bytes_cons :
    freeBytes (item :: rest) = (if item.2.free then item.2.size else 0) + freeBytes rest := by
  simp [freeBytes]

end

@[simp] theorem free_bytes_nil : freeBytes [] = 0 := rfl

theorem bytes_space (blocks : List (Nat × Block)) :
    usedBytes blocks + freeBytes blocks + blockHeader * blocks.length = space blocks := by
  induction blocks with
  | nil => rfl
  | cons item rest ih =>
    simp only [used_bytes_cons, free_bytes_cons, length_cons, space, map_cons,
      sum_cons, blockLength, blockHeader] at ih ⊢
    split_ifs <;> omega

/-- Every byte of a section is used, free or part of a header. -/
theorem section_bytes {heap : HeapAllocator} {sec : Section} (laid : Laid heap sec) :
    usedBytes sec.blocks + freeBytes sec.blocks + headerBytes sec.blocks = sec.length := by
  have whole := tiles_space laid.tiles
  have parts := bytes_space sec.blocks
  unfold headerBytes
  omega

/-! ## The invariant -/

/-- What the section allocator promises about a range it returns. -/
structure GoodAnswer (address total : Nat) : Prop where
  aligned : pageSize ∣ address
  nonzero : address ≠ 0
  word : address + total ≤ 2 ^ 64

def interval (sec : Section) : Nat × Nat := (sec.address, sec.length)

structure HeapInvariant (heap : HeapAllocator) (sections : List Section) : Prop where
  inOrder : ∀ sec ∈ sections, SectionInvariant heap sec
  list : Segment heap.sectionNext (fun _ => ()) heap.head
    (sections.map fun sec => (sec.address, ())) 0
  separate : (sections.map interval).Pairwise Separate
  used : heap.usedMemory = (sections.map fun sec => usedBytes sec.blocks).sum
  free : heap.freeMemory = (sections.map fun sec => freeBytes sec.blocks).sum
  metadata : heap.metadataMemory = (sections.map fun sec => headerBytes sec.blocks).sum
  total : heap.totalMemory = (sections.map fun sec => sec.length).sum

section Accounts
variable {heap : HeapAllocator} {sections : List Section}

theorem accounts_add_up (invariant : HeapInvariant heap sections) :
    heap.usedMemory + heap.freeMemory + heap.metadataMemory = heap.totalMemory := by
  rw [invariant.used, invariant.free, invariant.metadata, invariant.total]
  have each := fun sec member => section_bytes (invariant.inOrder sec member).laid
  clear invariant
  induction sections with
  | nil => rfl
  | cons sec rest ih =>
    have here := each sec (by simp)
    have others := ih (fun other member => each other (by simp [member]))
    simp only [map_cons, sum_cons]
    omega

theorem lengths_lt {ranges : List (Nat × Nat)} (good : ∀ range ∈ ranges, GoodAnswer range.1 range.2)
    (separate : ranges.Pairwise Separate) : (ranges.map Prod.snd).sum + pageSize ≤ 2 ^ 64 := by
  have bound := separate_sum_le separate (by
    intro range member
    have here := good range member
    exact ⟨Nat.le_of_dvd (Nat.pos_of_ne_zero here.nonzero) here.aligned, here.word⟩)
  have pageWord : pageSize = 4096 := rfl
  omega

variable (invariant : HeapInvariant heap sections)
include invariant

theorem good_sections : ∀ range ∈ sections.map interval, GoodAnswer range.1 range.2 := by
  intro range member
  rcases mem_map.mp member with ⟨sec, inside, same⟩
  have laid := (invariant.inOrder sec inside).laid
  rw [← same]
  exact ⟨laid.aligned, laid.nonzero, laid.word⟩

theorem total_eq : heap.totalMemory = ((sections.map interval).map Prod.snd).sum := by
  rw [invariant.total, map_map]
  rfl

theorem total_lt : heap.totalMemory + pageSize ≤ 2 ^ 64 := by
  rw [total_eq invariant]
  exact lengths_lt (good_sections invariant) invariant.separate

/-- A list of sections is shorter than any walk over it may be. -/
theorem sections_short : sections.length < 2 ^ 64 := by
  have bound := total_lt invariant
  rw [invariant.total] at bound
  have each : ∀ sec ∈ sections, 1 ≤ sec.length := by
    intro sec member
    have tiles := tiles_low_le_high (invariant.inOrder sec member).laid.tiles
    simp only [sectionHeader] at tiles
    omega
  have count := card_nsmul_le_sum (sections.map fun sec => sec.length) 1 (by
    intro length member
    rcases mem_map.mp member with ⟨sec, inside, same⟩
    rw [← same]
    exact each sec inside)
  have pageWord : pageSize = 4096 := rfl
  simp only [length_map, smul_eq_mul, mul_one] at count
  omega

theorem addresses_distinct :
    (sections.map fun sec => (sec.address, ())).Pairwise fun before after => before.1 ≠ after.1 := by
  have separate := invariant.separate
  rw [pairwise_map] at separate ⊢
  apply separate.imp_of_mem
  intro first second firstIn secondIn apart
  have firstTiles := tiles_low_le_high (invariant.inOrder first firstIn).laid.tiles
  have secondTiles := tiles_low_le_high (invariant.inOrder second secondIn).laid.tiles
  simp only [Separate, interval, sectionHeader] at apart firstTiles secondTiles ⊢
  omega

theorem start_outside {first second : Section} (firstIn : first ∈ sections)
    (secondIn : second ∈ sections) {cell : Nat} (low : second.address < cell)
    (high : cell < second.address + second.length) : cell ≠ first.address := by
  have tiles := tiles_low_le_high (invariant.inOrder first firstIn).laid.tiles
  simp only [sectionHeader] at tiles
  by_cases same : interval first = interval second
  · simp only [interval, Prod.mk.injEq] at same
    omega
  · have apart := invariant.separate.forall (mem_map_of_mem firstIn) (mem_map_of_mem secondIn) same
    simp only [Separate, interval] at apart
    omega

end Accounts

/-! ## Changing one section -/

section Replace
variable {heap after : HeapAllocator} {front back : List Section} {sec : Section}

/-- The sections around one of them do not overlap it. -/
theorem separate_around (separate : ((front ++ sec :: back).map interval).Pairwise Separate) :
    ∀ other ∈ front ++ back, Separate (interval sec) (interval other) := by
  rw [map_append, map_cons, pairwise_append, pairwise_cons] at separate
  rcases separate with ⟨_, ⟨inBack, _⟩, inFront⟩
  intro other member
  rcases mem_append.mp member with before | behind
  · exact separate_symm (inFront _ (mem_map_of_mem before) _ (by simp))
  · exact inBack _ (mem_map_of_mem behind)

theorem section_congr_linked (invariant : SectionInvariant heap sec)
    (header : after.sectionSize sec.address = heap.sectionSize sec.address)
    (same : ∀ other, sec.address < other → other < sec.address + sec.length →
      after.memory other = heap.memory other) : SectionInvariant after sec := by
  have tiles := tiles_low_le_high invariant.laid.tiles
  simp only [sectionHeader] at tiles
  have cells : ∀ item ∈ sec.blocks, after.memory item.1 = heap.memory item.1 := by
    intro item member
    have bounds := block_bounds invariant.laid member
    simp only [sectionHeader, blockHeader] at bounds
    exact same item.1 (by omega) (by omega)
  exact ⟨laid_congr invariant.laid header (same _ (by omega) (by omega)) cells,
    flagged_congr invariant.flagged cells, invariant.coalesced, invariant.lastLarge⟩

theorem section_congr (invariant : SectionInvariant heap sec)
    (same : ∀ other, sec.address ≤ other → other < sec.address + sec.length →
      after.memory other = heap.memory other) : SectionInvariant after sec := by
  have tiles := tiles_low_le_high invariant.laid.tiles
  simp only [sectionHeader] at tiles
  apply section_congr_linked invariant
  · rw [sectionSize, same _ le_rfl (by omega), sectionSize]
  · intro other low high
    exact same other (by omega) high

theorem heap_replace {blocks : List (Nat × Block)}
    (invariant : HeapInvariant heap (front ++ sec :: back))
    (changed : SectionInvariant after { sec with blocks := blocks }) (frame : ∀ other, other ≠ 0 →
      other < sec.address + 16 ∨ sec.address + sec.length ≤ other →
        after.memory other = heap.memory other) (head : after.head = heap.head)
    (used : after.usedMemory + usedBytes sec.blocks = heap.usedMemory + usedBytes blocks)
    (free : after.freeMemory + freeBytes sec.blocks = heap.freeMemory + freeBytes blocks)
    (metadata : after.metadataMemory + headerBytes sec.blocks =
      heap.metadataMemory + headerBytes blocks) (total : after.totalMemory = heap.totalMemory) :
    HeapInvariant after (front ++ { sec with blocks := blocks } :: back) := by
  have around := separate_around invariant.separate
  have others : ∀ other ∈ front ++ back, SectionInvariant after other := by
    intro other member
    have inSections : other ∈ front ++ sec :: back := by
      simp only [mem_append, mem_cons] at member ⊢
      tauto
    have apart := around other member
    have kept := invariant.inOrder other inSections
    have nonzero := kept.laid.nonzero
    apply section_congr kept
    intro cell low high
    simp only [Separate, interval] at apart
    exact frame cell (by omega) (by omega)
  refine ⟨?_, ?_, ?_, ?_, ?_, ?_, ?_⟩
  · intro other member
    simp only [mem_append, mem_cons] at member
    rcases member with before | here | behind
    · exact others other (by simp [before])
    · rw [here]
      exact changed
    · exact others other (by simp [behind])
  · have addresses : (front ++ { sec with blocks := blocks } :: back).map
        (fun other => (other.address, ())) =
        (front ++ sec :: back).map fun other => (other.address, ()) := by simp
    rw [head, addresses]
    apply segment_congr invariant.list
    intro item member
    rcases mem_map.mp member with ⟨other, inside, same⟩
    refine ⟨?_, rfl⟩
    have nonzero := (invariant.inOrder other inside).laid.nonzero
    have tiles := tiles_low_le_high (invariant.inOrder other inside).laid.tiles
    simp only [sectionHeader] at tiles
    rw [← same, sectionNext, sectionNext, frame other.address nonzero]
    by_cases isHere : other = sec
    · rw [isHere]
      omega
    · have apart := around other (by
        simp only [mem_append, mem_cons] at inside ⊢
        tauto)
      simp only [Separate, interval] at apart
      omega
  · have separate := invariant.separate
    simpa [interval] using separate
  · have before := invariant.used
    simp only [map_append, map_cons, sum_append, sum_cons] at before ⊢
    omega
  · have before := invariant.free
    simp only [map_append, map_cons, sum_append, sum_cons] at before ⊢
    omega
  · have before := invariant.metadata
    simp only [map_append, map_cons, sum_append, sum_cons] at before ⊢
    omega
  · have before := invariant.total
    simp only [map_append, map_cons, sum_append, sum_cons] at before ⊢
    omega

end Replace
end FrostyKernel.HeapAllocator
