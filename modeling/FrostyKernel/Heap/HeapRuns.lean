import FrostyKernel.Heap.Release
import FrostyKernel.Lib.Run

/-!
# Runs of the heap allocator

The heap with the pointers that are handed out and the ranges that its section
allocator gave it. Between the calls, owners write to their blocks, and anyone
to memory outside the ranges.
-/

namespace FrostyKernel.HeapAllocator

open Word List

open Memory (pageSize)

/-- The heap, the live pointers with the sizes asked for, and the ranges that
the section allocator returned and did not get back. -/
structure World where
  heap : HeapAllocator
  live : List (Nat × Nat)
  held : List (Nat × Nat)

def start (memory : Nat → Cell) : World := ⟨fresh memory, [], []⟩

inductive Call
  | allocate (size answer : Nat)
  | free (ptr : Nat)
  | write (address : Nat) (cell : Cell)

instance (address total : Nat) : Decidable (GoodAnswer address total) :=
  decidable_of_iff (pageSize ∣ address ∧ address ≠ 0 ∧ address + total ≤ 2 ^ 64)
    ⟨fun good => ⟨good.1, good.2.1, good.2.2⟩, fun good => ⟨good.aligned, good.nonzero, good.word⟩⟩

instance (first second : Nat × Nat) : Decidable (Separate first second) := by
  unfold Separate
  infer_instance

def sectionRange (size answer : Nat) : Nat × Nat :=
  (answer, newSectionSize (alignUp size minBlockSize))

/-- Requests are below `2 ^ 62` bytes, and a new section is a page-aligned range
apart from those held. Only live pointers are freed. -/
def Call.Legal (world : World) : Call → Prop
  | .allocate size answer =>
    size < 2 ^ 62 ∧ (world.heap.NeedsSection size → answer ≠ 0 →
      GoodAnswer answer (sectionRange size answer).2 ∧
        ∀ range ∈ world.held, Separate (sectionRange size answer) range)
  | .free ptr => ptr ∈ world.live.map Prod.fst
  | .write address _ =>
    (∃ item ∈ world.live, item.1 ≤ address ∧
      address < item.1 + world.heap.blockSize (item.1 - blockHeader)) ∨
    ∀ range ∈ world.held, address < range.1 ∨ range.1 + range.2 ≤ address

instance (world : World) : DecidablePred (Call.Legal world) := fun call => by
  cases call <;> unfold Call.Legal <;> infer_instance

def Call.apply (world : World) : Call → Option World
  | .allocate size answer =>
    (world.heap.allocate size answer).map fun result =>
      ⟨result.1, if result.2 = 0 then world.live else (result.2, size) :: world.live,
        if world.heap.NeedsSection size ∧ answer ≠ 0 then
          sectionRange size answer :: world.held
        else world.held⟩
  | .free ptr =>
    (world.heap.free ptr).map fun result =>
      ⟨result.1, world.live.filter fun item => decide (item.1 ≠ ptr),
        world.held.filter fun range => decide (range ∉ result.2)⟩
  | .write address cell => some ⟨world.heap.setCell address cell, world.live, world.held⟩

def LegalStep (before : World) (call : Call) (after : World) : Prop :=
  call.Legal before ∧ call.apply before = some after

/-! ## The invariant of a run -/

/-- The live pointers are those of the blocks in use. -/
structure Tracks (live : List (Nat × Nat)) (sections : List Section) : Prop where
  distinct : live.Pairwise fun first second => first.1 ≠ second.1
  above : ∀ item ∈ live, blockHeader < item.1
  used : ∀ address, (∃ length, UsedAt sections address length) ↔
    ∃ size, (address + blockHeader, size) ∈ live
  enough : ∀ item ∈ live, ∀ length, UsedAt sections (item.1 - blockHeader) length → item.2 ≤ length

structure Tracked (world : World) (sections : List Section) : Prop where
  heap : HeapInvariant world.heap sections
  live : Tracks world.live sections
  held : ∀ range, range ∈ world.held ↔ range ∈ sections.map interval

section Steps
variable {world : World} {sections newSections : List Section} {ptr address : Nat}
  {live released : List (Nat × Nat)}

section
variable (tracks : Tracks live sections)
include tracks

theorem live_used {item : Nat × Nat} (member : item ∈ live) :
    ∃ length, UsedAt sections (item.1 - blockHeader) length ∧ item.2 ≤ length := by
  have above := tracks.above item member
  have shifted : item.1 - blockHeader + blockHeader = item.1 := by omega
  rcases (tracks.used (item.1 - blockHeader)).mpr ⟨item.2, by rw [shifted]; exact member⟩ with
    ⟨length, used⟩
  exact ⟨length, used, tracks.enough item member length used⟩

theorem tracks_granted {size : Nat} (granted : Granted sections newSections ptr size) :
    Tracks ((ptr, size) :: live) newSections := by
  rcases granted with ⟨⟨given, enough, used⟩, fresh, above⟩
  have notLive : ∀ item ∈ live, ptr ≠ item.1 := by
    intro item member same
    obtain ⟨length, isUsed, _⟩ := live_used tracks member
    rw [← same] at isUsed
    exact fresh length isUsed
  refine ⟨pairwise_cons.mpr ⟨notLive, tracks.distinct⟩, ?_, ?_, ?_⟩
  · intro item member
    rcases mem_cons.mp member with same | later
    · rw [same]
      exact above
    · exact tracks.above item later
  · intro address
    constructor
    · rintro ⟨length, isUsed⟩
      rcases (used address length).mp isUsed with before | ⟨here, _⟩
      · rcases (tracks.used address).mp ⟨length, before⟩ with ⟨asked, member⟩
        exact ⟨asked, by simp [member]⟩
      · exact ⟨size, by simp [here]⟩
    · rintro ⟨asked, member⟩
      rcases mem_cons.mp member with same | later
      · simp only [Prod.mk.injEq] at same
        exact ⟨given, (used address given).mpr (.inr ⟨same.1, rfl⟩)⟩
      · rcases (tracks.used address).mpr ⟨asked, later⟩ with ⟨length, before⟩
        exact ⟨length, (used address length).mpr (.inl before)⟩
  · intro item member length isUsed
    rcases mem_cons.mp member with same | later
    · rw [same] at isUsed ⊢
      rcases (used _ length).mp isUsed with before | ⟨_, isGiven⟩
      · exact absurd before (fresh length)
      · rw [isGiven]
        exact enough
    · rcases (used _ length).mp isUsed with before | ⟨here, _⟩
      · exact tracks.enough item later length before
      · have itemAbove := tracks.above item later
        exact absurd (by omega : ptr = item.1) (notLive item later)

theorem tracks_returned (returned : Returned sections newSections ptr released) :
    Tracks (live.filter fun item => decide (item.1 ≠ ptr)) newSections := by
  refine ⟨tracks.distinct.filter _, ?_, ?_, ?_⟩
  · intro item member
    exact tracks.above item (mem_of_mem_filter member)
  · intro address
    simp only [mem_filter, decide_eq_true_eq]
    constructor
    · rintro ⟨length, isUsed⟩
      rcases (returned.used address length).mp isUsed with ⟨before, other⟩
      rcases (tracks.used address).mp ⟨length, before⟩ with ⟨asked, member⟩
      exact ⟨asked, member, other⟩
    · rintro ⟨asked, member, other⟩
      rcases (tracks.used address).mpr ⟨asked, member⟩ with ⟨length, before⟩
      exact ⟨length, (returned.used address length).mpr ⟨before, other⟩⟩
  · intro item member length isUsed
    exact tracks.enough item (mem_of_mem_filter member) length
      ((returned.used _ length).mp isUsed).1

end

theorem write_heap (invariant : HeapInvariant world.heap sections) (cell : Cell)
    (elsewhere : ∀ sec ∈ sections, address ≠ sec.address ∧ address ≠ sec.address + 16 ∧
      ∀ item ∈ sec.blocks, address ≠ item.1) :
    HeapInvariant (world.heap.setCell address cell) sections := by
  have kept : ∀ other, address ≠ other →
      (world.heap.setCell address cell).memory other = world.heap.memory other := by
    intro other different
    rw [memory_set_cell, if_neg (Ne.symm different)]
  refine ⟨?_, ?_, invariant.separate, invariant.used, invariant.free, invariant.metadata,
    invariant.total⟩
  · intro sec member
    have order := invariant.inOrder sec member
    rcases elsewhere sec member with ⟨notHeader, notFirst, notBlock⟩
    have cells : ∀ item ∈ sec.blocks, (world.heap.setCell address cell).memory item.1 =
        world.heap.memory item.1 := fun item inside => kept _ (notBlock item inside)
    refine ⟨laid_congr order.laid ?_ (kept _ notFirst) cells, flagged_congr order.flagged cells,
      order.coalesced, order.lastLarge⟩
    rw [sectionSize, kept _ notHeader, sectionSize]
  · apply segment_congr invariant.list
    intro item member
    rcases mem_map.mp member with ⟨sec, inside, same⟩
    rw [← same, sectionNext, kept _ (elsewhere sec inside).1]
    exact ⟨rfl, rfl⟩

theorem user_range_elsewhere (invariant : HeapInvariant world.heap sections) {block length : Nat}
    (used : UsedAt sections block length) (low : block + blockHeader ≤ address)
    (high : address < block + blockHeader + length) :
    ∀ sec ∈ sections, address ≠ sec.address ∧ address ≠ sec.address + 16 ∧
      ∀ item ∈ sec.blocks, address ≠ item.1 := by
  rcases used with ⟨owner, isOwner, inside⟩
  have bounds := block_bounds (invariant.inOrder owner isOwner).laid inside
  obtain ⟨header, sectionWord, -⟩ := constant_sizes
  simp only at bounds
  intro sec member
  have tiles := tiles_low_le_high (invariant.inOrder sec member).laid.tiles
  have outside : address < sec.address ∨ sec.address + sectionHeader ≤ address := by
    by_cases same : sec = owner
    · rw [same]
      omega
    · have apart := sections_separate invariant isOwner member same
      simp only [Separate, interval] at apart
      omega
  refine ⟨by omega, by omega, ?_⟩
  intro item isItem
  by_cases here : block = item.1
  · omega
  · have apart := blocks_separate invariant isOwner member inside isItem here
    simp only [Separate, blockLength] at apart
    omega

variable (tracked : Tracked world sections)
include tracked

theorem write_tracked {cell : Cell} (legal : (Call.write address cell).Legal world) :
    Tracked ⟨world.heap.setCell address cell, world.live, world.held⟩ sections := by
  refine ⟨write_heap tracked.heap cell ?_, tracked.live, tracked.held⟩
  rcases legal with ⟨item, member, low, high⟩ | outside
  · rcases live_used tracked.live member with ⟨length, used, _⟩
    have above := tracked.live.above item member
    have held : world.heap.blockSize (item.1 - blockHeader) = length := by
      rcases used with ⟨sec, isSection, inside⟩
      exact (tracked.heap.inOrder sec isSection).laid.sizes _ inside
    exact user_range_elsewhere tracked.heap used (by omega) (by omega)
  · intro sec member
    have laid := (tracked.heap.inOrder sec member).laid
    have tiles := tiles_low_le_high laid.tiles
    have sectionWord : sectionHeader = 32 := rfl
    have away := outside (interval sec) ((tracked.held _).mpr (mem_map_of_mem member))
    simp only [interval] at away
    refine ⟨by omega, by omega, ?_⟩
    intro item isItem
    have itemBounds := block_bounds laid isItem
    have header : blockHeader = 16 := rfl
    omega

theorem allocate_tracked {size answer : Nat} (legal : (Call.allocate size answer).Legal world) :
    ∃ after newSections, (Call.allocate size answer).apply world = some after ∧
      Tracked after newSections := by
  rcases legal with ⟨small, promised⟩
  have answered : world.heap.NeedsSection size → answer ≠ 0 →
      GoodAnswer answer (newSectionSize (alignUp size minBlockSize)) ∧
      ∀ sec ∈ sections,
        Separate (answer, newSectionSize (alignUp size minBlockSize)) (interval sec) := by
    intro needs some
    rcases promised needs some with ⟨good, apart⟩
    exact ⟨good, fun sec member =>
      apart (interval sec) ((tracked.held _).mpr (mem_map_of_mem member))⟩
  rcases allocate_spec tracked.heap small answered with refused | granted
  · rcases refused with ⟨needs, none, result⟩
    subst none
    refine ⟨world, sections, ?_, tracked⟩
    simp [Call.apply, result]
  · rcases granted with ⟨after, ptr, newSections, result, invariant, grant, answers, ranges⟩
    have some : ptr ≠ 0 := by
      have above := grant.above
      omega
    refine ⟨⟨after, (ptr, size) :: world.live,
      if world.heap.NeedsSection size ∧ answer ≠ 0 then sectionRange size answer :: world.held
      else world.held⟩, newSections, ?_, invariant, tracks_granted tracked.live grant, ?_⟩
    · simp [Call.apply, result, some]
    · intro range
      rw [ranges]
      by_cases needs : world.heap.NeedsSection size
      · simp [needs, answers needs, tracked.held, sectionRange]
      · simp [needs, tracked.held]

theorem released_apart (returned : Returned sections newSections ptr released) (range : Nat × Nat) :
    range ∈ newSections.map interval ↔ range ∈ sections.map interval ∧ range ∉ released := by
  have members := returned.ranges.mem_iff (a := range)
  rw [mem_append] at members
  constructor
  · intro kept
    refine ⟨members.mp (.inl kept), ?_⟩
    intro given
    have separate := returned.ranges.symm.pairwise tracked.heap.separate separate_symm
    have apart := (pairwise_append.mp separate).2.2 range kept range given
    rcases mem_map.mp (members.mp (.inl kept)) with ⟨sec, member, same⟩
    have tiles := tiles_low_le_high (tracked.heap.inOrder sec member).laid.tiles
    have sectionWord : sectionHeader = 32 := rfl
    rw [← same] at apart
    simp only [Separate, interval] at apart
    omega
  · rintro ⟨before, notGiven⟩
    exact (members.mpr before).resolve_right notGiven

theorem free_tracked (legal : (Call.free ptr).Legal world) :
    ∃ after newSections, (Call.free ptr).apply world = some after ∧ Tracked after newSections := by
  rcases mem_map.mp legal with ⟨item, member, same⟩
  rcases live_used tracked.live member with ⟨length, used, _⟩
  have above := tracked.live.above item member
  rw [same] at used above
  rcases free_spec tracked.heap used above with
    ⟨after, newSections, released, result, invariant, returned⟩
  refine ⟨⟨after, world.live.filter fun item => decide (item.1 ≠ ptr),
    world.held.filter fun range => decide (range ∉ released)⟩, newSections, ?_, invariant,
    tracks_returned tracked.live returned, ?_⟩
  · simp [Call.apply, result]
  · intro range
    rw [released_apart tracked returned, mem_filter, tracked.held, decide_eq_true_eq]

theorem apply_tracked {call : Call} (legal : call.Legal world) :
    ∃ after newSections, call.apply world = some after ∧ Tracked after newSections := by
  cases call with
  | allocate size answer => exact allocate_tracked tracked legal
  | free ptr => exact free_tracked tracked legal
  | write address cell =>
    exact ⟨⟨world.heap.setCell address cell, world.live, world.held⟩, sections, rfl,
      write_tracked tracked legal⟩

end Steps

/-! ## What holds in every state -/

/-- A section: its blocks tile the space after its header, those that are not
free are the live ones, and its list is that of the free ones. -/
structure SoundSection (world : World) (sec : Section) : Prop where
  tiles : Tiles blockLength (sec.address + sectionHeader) sec.blocks (sec.address + sec.length)
  size : world.heap.sectionSize sec.address + sectionHeader = sec.length
  headers : ∀ item ∈ sec.blocks, world.heap.blockSize item.1 = item.2.size ∧
    world.heap.blockFree item.1 = item.2.free
  allocated : ∀ item ∈ sec.blocks, item.2.free = false ↔
    ∃ asked, (item.1 + blockHeader, asked) ∈ world.live
  list : Segment world.heap.blockNext world.heap.blockSize (world.heap.sectionFirst sec.address)
    (freeBlocks sec.blocks) 0
  increasing : (freeBlocks sec.blocks).Pairwise fun before after => before.1 < after.1
  coalesced : Coalesced sec.blocks

def userRange (heap : HeapAllocator) (item : Nat × Nat) : Nat × Nat :=
  (item.1, heap.blockSize (item.1 - blockHeader))

structure Sound (world : World) : Prop where
  sections : ∃ sections : List Section, Segment world.heap.sectionNext (fun _ => ()) world.heap.head
      (sections.map fun sec => (sec.address, ())) 0 ∧
    (∀ range, range ∈ world.held ↔ range ∈ sections.map interval) ∧
    ∀ sec ∈ sections, SoundSection world sec
  disjoint : world.live.Pairwise fun first second =>
    Separate (userRange world.heap first) (userRange world.heap second)
  aligned : ∀ item ∈ world.live, 16 ∣ item.1
  enough : ∀ item ∈ world.live, item.2 ≤ (userRange world.heap item).2
  found : ∀ item ∈ world.live, ∃ range ∈ world.held,
    world.heap.findOwner (item.1 - blockHeader) (2 ^ 64) world.heap.head = some range.1 ∧
      range.1 + sectionHeader + blockHeader ≤ item.1 ∧
      item.1 + (userRange world.heap item).2 ≤ range.1 + range.2
  accounts : world.heap.usedMemory + world.heap.freeMemory + world.heap.metadataMemory =
    world.heap.totalMemory

section Sound
variable {world : World} {sections : List Section}

theorem block_aligned {heap : HeapAllocator} {sec : Section} (laid : Laid heap sec)
    {item : Nat × Block} (member : item ∈ sec.blocks) : 16 ∣ item.1 := by
  rcases append_of_mem member with ⟨left, right, cut⟩
  have before := tiles_space (part_single laid cut).before
  have multiple := space_multiple (fun other (isLeft : other ∈ left) =>
    laid.multiples other (by simp [cut, isLeft]))
  have aligned := laid.aligned
  obtain ⟨-, sectionWord, pageWord, -⟩ := constant_sizes
  rw [pageWord] at aligned
  omega

theorem used_separate (invariant : HeapInvariant world.heap sections) {first second : Nat}
    {firstLength secondLength : Nat} (firstUsed : UsedAt sections first firstLength)
    (secondUsed : UsedAt sections second secondLength) (different : first ≠ second) :
    Separate (first + blockHeader, firstLength) (second + blockHeader, secondLength) := by
  rcases firstUsed with ⟨sec, isSection, inside⟩
  rcases secondUsed with ⟨other, isOther, otherInside⟩
  have apart := blocks_separate invariant isSection isOther inside otherInside different
  simp only [Separate, blockLength] at apart ⊢
  omega

theorem sound_of_tracked (tracked : Tracked world sections) : Sound world := by
  have tracks := tracked.live
  have header : blockHeader = 16 := rfl
  have held : ∀ item ∈ world.live, ∃ length, UsedAt sections (item.1 - blockHeader) length ∧
      (userRange world.heap item).2 = length ∧ item.2 ≤ length := by
    intro item member
    rcases live_used tracks member with ⟨length, used, enough⟩
    refine ⟨length, used, ?_, enough⟩
    rcases used with ⟨sec, isSection, inside⟩
    exact (tracked.heap.inOrder sec isSection).laid.sizes _ inside
  refine ⟨⟨sections, tracked.heap.list, tracked.held, ?_⟩, ?_, ?_, ?_, ?_,
    accounts_add_up tracked.heap⟩
  · intro sec member
    have order := tracked.heap.inOrder sec member
    refine ⟨order.laid.tiles, order.laid.size,
      fun item inside => ⟨order.laid.sizes item inside, order.flagged item inside⟩, ?_,
      order.laid.list, free_blocks_sorted order.laid.tiles, order.coalesced⟩
    intro item inside
    rw [← tracks.used]
    constructor
    · intro notFree
      refine ⟨item.2.size, sec, member, ?_⟩
      rcases item with ⟨address, length, free⟩
      simp only at notFree
      rw [← notFree]
      exact inside
    · rintro ⟨length, other, isOther, otherInside⟩
      have same := block_unique tracked.heap member isOther inside otherInside
      rw [same]
  · apply tracks.distinct.imp_of_mem
    intro first second firstIn secondIn different
    rcases held first firstIn with ⟨firstLength, firstUsed, firstHeld, _⟩
    rcases held second secondIn with ⟨secondLength, secondUsed, secondHeld, _⟩
    have firstAbove := tracks.above first firstIn
    have secondAbove := tracks.above second secondIn
    have apart := used_separate tracked.heap firstUsed secondUsed (by omega)
    simp only [Separate] at apart ⊢
    rw [firstHeld, secondHeld]
    simp only [userRange]
    omega
  · intro item member
    rcases held item member with ⟨length, ⟨sec, isSection, inside⟩, _, _⟩
    have aligned := block_aligned (tracked.heap.inOrder sec isSection).laid inside
    have above := tracks.above item member
    simp only at aligned
    omega
  · intro item member
    rcases held item member with ⟨length, _, size, enough⟩
    rw [size]
    exact enough
  · intro item member
    rcases held item member with ⟨length, ⟨sec, isSection, inside⟩, size, _⟩
    have order := tracked.heap.inOrder sec isSection
    have above := tracks.above item member
    have bounds := block_bounds order.laid inside
    have owner := find_owner_spec (fun other isOther => (tracked.heap.inOrder other isOther).laid)
      tracked.heap.separate tracked.heap.list (sections_short tracked.heap) isSection bounds.1
      (block_before_end order inside)
    refine ⟨interval sec, (tracked.held _).mpr (mem_map_of_mem isSection), owner, ?_, ?_⟩
    · simp only [interval] at bounds ⊢
      omega
    · rw [size]
      simp only [interval] at bounds ⊢
      omega

end Sound

theorem start_tracked (memory : Nat → Cell) : Tracked (start memory) [] := by
  refine ⟨⟨by simp, rfl, by simp, rfl, rfl, rfl, rfl⟩, ⟨by simp [start], by simp [start], ?_, ?_⟩,
    by simp [start]⟩
  · simp [start, UsedAt]
  · simp [start]

/-- From an empty heap on, every legal call returns, and every state is sound. -/
theorem heap_run_sound (memory : Nat → Cell) {calls : List Call} {world : World}
    (run : Run LegalStep (start memory) calls world) :
    Sound world ∧ ∀ call : Call, call.Legal world → ∃ after, call.apply world = some after := by
  have tracked : ∃ sections, Tracked world sections := by
    apply run_invariant (fun state => ∃ sections, Tracked state sections) _
      ⟨[], start_tracked memory⟩ run
    intro before call after holds step
    rcases holds with ⟨sections, tracked⟩
    rcases apply_tracked tracked step.1 with ⟨found, newSections, applied, result⟩
    have same : found = after := Option.some.inj (applied.symm.trans step.2)
    rw [← same]
    exact ⟨newSections, result⟩
  rcases tracked with ⟨sections, tracked⟩
  refine ⟨sound_of_tracked tracked, ?_⟩
  intro call legal
  rcases apply_tracked tracked legal with ⟨after, _, applied, _⟩
  exact ⟨after, applied⟩

/-- Two allocations from a new section, a write to the first block and its return. -/
theorem heap_run_sound_two_blocks :
    ∃ world, Run LegalStep (start fun _ => ⟨7, 9⟩)
        [.allocate 100 0x10000, .allocate 32 0, .write 0x10030 ⟨1, 2⟩, .free 0x10030] world ∧
      Sound world := by
  refine exists_run_of (fun _ => True)
    ⟨_, Run.snoc (Run.snoc (Run.snoc (Run.snoc (Run.nil _) ⟨?_, rfl⟩) ⟨?_, rfl⟩) ⟨?_, rfl⟩)
      ⟨?_, rfl⟩, trivial⟩ (fun _ run _ => (heap_run_sound _ run).1)
  all_goals decide

end FrostyKernel.HeapAllocator
