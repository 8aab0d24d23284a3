import FrostyKernel.Heap.Operations

/-!
# Freeing

`Free` puts a block back, which merges it with the free blocks that it touches,
and then gives back every section that is one free block.
-/

namespace FrostyKernel.HeapAllocator

open Word List
open Memory (pageSize)

/-! ## Putting a block back -/

section Give
variable {heap : HeapAllocator} {sec : Section} {left before behind right : List (Nat × Block)}
  {block size : Nat} (place : Surrounded sec left before block size behind right)
include place

/-- The free blocks around a block hold nothing in use. -/
theorem surrounded_used : usedBytes before = 0 ∧ usedBytes behind = 0 := by
  constructor
  · rcases place.leftSide with ⟨nothing, _⟩ | ⟨address, length, found⟩
    · simp [nothing]
    · simp [found]
  · rcases place.rightSide with ⟨nothing, _⟩ | ⟨address, length, found⟩
    · simp [nothing]
    · simp [found]

theorem give_back_heap {front back : List Section}
    (invariant : HeapInvariant heap (front ++ sec :: back)) :
    HeapInvariant (heap.giveBack sec left before block behind right)
      (front ++ { sec with blocks := left ++ joined before block size behind :: right } ::
        back) := by
  have order := invariant.inOrder sec (by simp)
  have counted := section_counted invariant (show sec ∈ _ by simp)
  have sum := accounts_add_up invariant
  have top := total_lt invariant
  obtain ⟨header, sectionWord, pageWord, -⟩ := constant_sizes
  have none := surrounded_used place
  have spaceBefore := bytes_space before
  have spaceBehind := bytes_space behind
  have bytes : usedBytes sec.blocks = usedBytes left + size + usedBytes right ∧
      freeBytes sec.blocks = freeBytes left + freeBytes before + freeBytes behind +
        freeBytes right ∧
      sec.blocks.length = left.length + before.length + 1 + behind.length + right.length := by
    rw [place.cut]
    simp only [used_bytes_append, used_bytes_cons, free_bytes_append, free_bytes_cons,
      length_append, length_cons, Bool.false_eq_true, if_false]
    omega
  have headers := counted.2.2.1
  simp only [headerBytes, bytes.2.2, header, sectionWord] at headers
  rcases give_back_spec order.laid order.flagged place ⟨by omega, by omega, by omega⟩ with
    ⟨linked, merged, exchanged, result⟩
  have given : Exchanged heap (linked.countFreed size) sec _ := exchanged_counted exchanged
  have free := merged.free
  have metadata := merged.metadata
  have used := merged.used
  rw [header] at free metadata spaceBefore spaceBehind
  rw [result]
  apply heap_replace invariant ⟨given.laid, given.flagged, joined_coalesced place order.coalesced,
    joined_last_large place order.lastLarge⟩ given.frame merged.head
  · have usedAfter : (linked.countFreed size).usedMemory = linked.usedMemory - size :=
      sub64_of_le (by omega) (by omega)
    rw [usedAfter]
    simp only [used_bytes_append, used_bytes_cons, joined, if_true]
    omega
  · have freeAfter : (linked.countFreed size).freeMemory = linked.freeMemory + size :=
      add64_of_lt (by omega)
    rw [freeAfter]
    simp only [free_bytes_append, free_bytes_cons, joined, if_true]
    omega
  · have same : (linked.countFreed size).metadataMemory = linked.metadataMemory := rfl
    simp only [same, headerBytes, bytes.2.2, header, length_append, length_cons]
    omega
  · exact merged.total

end Give

/-! ## Finding the section -/

theorem find_owner_spec {heap : HeapAllocator} {sections : List Section} {sec : Section}
    {block : Nat} (laid : ∀ other ∈ sections, Laid heap other)
    (separate : (sections.map interval).Pairwise Separate) {address fuel : Nat}
    (list : Segment heap.sectionNext (fun _ => ()) address
      (sections.map fun other => (other.address, ())) 0) (enough : sections.length < fuel)
    (member : sec ∈ sections) (start : sec.address + sectionHeader ≤ block)
    (final : block + 48 ≤ sec.address + sec.length) :
    heap.findOwner block fuel address = some sec.address := by
  induction sections generalizing address fuel with
  | nil => simp at member
  | cons first rest ih =>
    cases fuel with
    | zero => simp at enough
    | succ fuel =>
      rcases list with ⟨atSection, nonzero, _, tail⟩
      simp only at atSection nonzero tail
      subst atSection
      have here := laid first (by simp)
      have word := here.word
      have size := here.size
      have tiles := tiles_low_le_high here.tiles
      have aligned := here.aligned
      obtain ⟨-, header, pageWord, -⟩ := constant_sizes
      rw [pageWord] at aligned
      simp only [findOwner, if_neg nonzero]
      rcases mem_cons.mp member with same | later
      · subst same
        rw [add64_of_lt (by omega), add64_of_lt (by omega), if_pos (by omega)]
      rw [map_cons, pairwise_cons] at separate
      have apart := separate.1 _ (mem_map_of_mem later)
      simp only [Separate, interval] at apart
      rw [if_neg]
      · exact ih (fun other inside => laid other (by simp [inside])) separate.2 tail
          (by simpa using enough) later
      · intro bounds
        unfold add64 at bounds
        omega

/-! ## Giving sections back -/

section Release
variable {heap : HeapAllocator} {sec : Section} {front back : List Section}

theorem unused_blocks (invariant : SectionInvariant heap sec) (unused : heap.Unused sec.address) :
    sec.blocks = [(sec.address + sectionHeader,
      ⟨sec.length - sectionHeader - blockHeader, true⟩)] := by
  have laid := invariant.laid
  have list := laid.list
  rcases unused with ⟨some, only, fills⟩
  cases free : freeBlocks sec.blocks with
  | nil =>
    rw [free] at list
    exact absurd list some
  | cons item rest =>
    rw [free] at list
    rcases list with ⟨first, _, held, tail⟩
    rw [first] at only fills
    rw [held] at fills
    rcases free_blocks_cut (show freeBlocks sec.blocks = [] ++ item :: rest from free) with
      ⟨left, right, cut, _, _⟩
    have part := part_single laid cut
    have bounds := around_part part
    have small := size_lt laid cut
    have size := laid.size
    obtain ⟨header, sectionWord, -, range, -⟩ := constant_sizes
    simp only [blockLength] at bounds small
    rw [add64_of_lt (by omega)] at fills
    have starts : item.1 = sec.address + sectionHeader := by omega
    have ends : item.1 + blockLength ⟨item.2, true⟩ = sec.address + sec.length := by
      simp only [blockLength]
      omega
    have before := part.before
    have behind := part.behind
    rw [starts] at before
    rw [ends] at behind
    rw [cut, tiles_empty before, tiles_empty behind, starts,
      show item.2 = sec.length - sectionHeader - blockHeader by omega]
    rfl

theorem drop_section_fields (heap : HeapAllocator) (previous address : Nat) :
    (∀ other, (heap.dropSection previous address).sectionSize other = heap.sectionSize other) ∧
      (∀ other, other ≠ previous →
        (heap.dropSection previous address).memory other = heap.memory other) ∧
      (previous = 0 → (heap.dropSection previous address).head = heap.sectionNext address) ∧
      (previous ≠ 0 → (heap.dropSection previous address).head = heap.head ∧
        (heap.dropSection previous address).sectionNext previous = heap.sectionNext address) := by
  unfold dropSection
  by_cases first : previous = 0
  · simp [first]
  simp only [first, if_false, section_size_counters, section_next_counters,
    section_size_set_section_next]
  refine ⟨fun _ => trivial, ?_, ?_, ?_⟩
  · intro other elsewhere
    simp [elsewhere]
  · simp
  · intro _
    refine ⟨rfl, ?_⟩
    simp [sectionNext]

theorem drop_section_counters (heap : HeapAllocator) (previous address : Nat) :
    Counts (heap.dropSection previous address) heap.usedMemory
      (sub64 heap.freeMemory (sub64 (heap.sectionSize address) blockHeader))
      (sub64 heap.metadataMemory (sectionHeader + blockHeader))
      (sub64 heap.totalMemory (add64 (heap.sectionSize address) sectionHeader)) := by
  unfold dropSection
  by_cases first : previous = 0
  · simp only [first, if_true, section_size_counters]
    exact ⟨rfl, rfl, rfl, rfl⟩
  · simp only [first, if_false, section_size_set_section_next]
    exact ⟨rfl, rfl, rfl, rfl⟩

def lastAddress (sections : List Section) : Nat :=
  lastOr 0 (sections.map fun sec => (sec.address, ()))

variable {sections : List Section}

theorem last_address_cases (nonzero : ∀ sec ∈ sections, sec.address ≠ 0) :
    (sections = [] ∧ lastAddress sections = 0) ∨
      sections ≠ [] ∧ lastAddress sections ≠ 0 ∧
        ∃ sec ∈ sections, sec.address = lastAddress sections := by
  cases empty : sections with
  | nil => exact .inl ⟨rfl, rfl⟩
  | cons first rest =>
    rw [← empty]
    have some : sections.map (fun sec => (sec.address, ())) ≠ [] := by simp [empty]
    rcases last_or_mem 0 some with ⟨item, member, same⟩
    rcases mem_map.mp member with ⟨sec, inside, isItem⟩
    have here : sec.address = lastAddress sections := by
      rw [lastAddress, same, ← isItem]
    exact .inr ⟨by simp [empty], by rw [← here]; exact nonzero sec inside, sec, inside, here⟩

theorem drop_section_heap (invariant : HeapInvariant heap (front ++ sec :: back))
    (unused : heap.Unused sec.address) :
    HeapInvariant (heap.dropSection (lastAddress front) sec.address) (front ++ back) := by
  have order := invariant.inOrder sec (by simp)
  have blocks := unused_blocks order unused
  have around := separate_around invariant.separate
  have counted := section_counted invariant (show sec ∈ _ by simp)
  have sum := accounts_add_up invariant
  have top := total_lt invariant
  have size := order.laid.size
  obtain ⟨header, sectionWord, pageWord, -⟩ := constant_sizes
  have bytes := section_bytes order.laid
  have headers : headerBytes sec.blocks = sectionHeader + blockHeader := by
    rw [blocks]
    rfl
  have freeAll : freeBytes sec.blocks = sec.length - sectionHeader - blockHeader := by
    rw [blocks]
    rfl
  have inside : ∀ other ∈ front ++ back, other ∈ front ++ sec :: back := by
    intro other member
    simp only [mem_append, mem_cons] at member ⊢
    tauto
  rcases drop_section_fields heap (lastAddress front) sec.address with ⟨sizes, memory, first, later⟩
  rcases drop_section_counters heap (lastAddress front) sec.address with
    ⟨used, free, metadata, total⟩
  rw [sub64_of_le (show heap.sectionSize sec.address < 2 ^ 64 by omega) (by omega),
    sub64_of_le (by omega) (by omega)] at free
  rw [sub64_of_le (by omega) (by omega)] at metadata
  rw [add64_of_lt (by omega), sub64_of_le (by omega) (by omega)] at total
  have last := last_address_cases (fun other (member : other ∈ front) =>
    (invariant.inOrder other (by simp [member])).laid.nonzero)
  have list := invariant.list
  have distinct := addresses_distinct invariant
  rw [map_append, map_cons] at distinct list
  have next := segment_next list
  generalize heap.dropSection (lastAddress front) sec.address = dropped at *
  refine ⟨?_, ?_, ?_, ?_, ?_, ?_, ?_⟩
  · intro other member
    apply section_congr_linked (invariant.inOrder other (inside other member)) (sizes _)
    intro cell low high
    apply memory
    rcases last with ⟨_, zero⟩ | ⟨_, _, found, inFront, isLast⟩
    · omega
    · rw [← isLast]
      exact start_outside invariant (by simp [inFront]) (inside other member) low high
  · rw [map_append]
    have links : ∀ item : Nat × Unit, item.1 ≠ lastAddress front →
        dropped.sectionNext item.1 = heap.sectionNext item.1 := by
      intro item elsewhere
      rw [sectionNext, memory item.1 elsewhere, sectionNext]
    rcases pairwise_append.mp distinct with ⟨inFront, inBack, across⟩
    have whole : Segment heap.sectionNext (fun _ => ()) heap.head
        (front.map (fun other => (other.address, ())) ++
          ([(sec.address, ())] ++ back.map fun other => (other.address, ()))) 0 := list
    have spliced : Segment dropped.sectionNext (fun _ => ()) dropped.head
        (front.map (fun other => (other.address, ())) ++
          ([] ++ back.map fun other => (other.address, ()))) 0 := by
      apply segment_splice whole _ _ inFront
      · intro some
        rcases last with ⟨nothing, _⟩ | ⟨_, nonzero, _⟩
        · simp [nothing] at some
        · exact (later nonzero).1
      · rw [nil_append, ← next]
        rcases last with ⟨nothing, zero⟩ | ⟨some, nonzero, _⟩
        · rw [if_pos (by simp [nothing])]
          exact first zero
        · rw [if_neg (by simp [some])]
          exact (later nonzero).2
      · rfl
      · intro item member
        refine ⟨links item ?_, rfl⟩
        rcases last with ⟨_, zero⟩ | ⟨_, _, found, isFront, isLast⟩
        · rw [zero]
          exact (segment_mem list (by simp only [mem_append, mem_cons]; tauto)).1
        · rw [← isLast]
          exact Ne.symm (across _ (mem_map_of_mem isFront) item (by simp [member]))
      · intro _ _
        rfl
      · intro item _ notLast
        exact links item notLast
    exact spliced
  · have separate := invariant.separate
    rw [map_append, map_cons] at separate
    rw [map_append]
    exact separate.sublist (by simp)
  · have before := invariant.used
    have none : usedBytes sec.blocks = 0 := by
      rw [blocks]
      rfl
    clear last
    simp only [map_append, map_cons, sum_append, sum_cons] at before ⊢
    omega
  · have before := invariant.free
    clear last
    simp only [map_append, map_cons, sum_append, sum_cons] at before ⊢
    omega
  · have before := invariant.metadata
    clear last
    simp only [map_append, map_cons, sum_append, sum_cons] at before ⊢
    omega
  · have before := invariant.total
    clear last
    simp only [map_append, map_cons, sum_append, sum_cons] at before ⊢
    omega

def firstAddress (sections : List Section) : Nat :=
  firstOr (sections.map fun sec => (sec.address, ())) 0

theorem next_section (invariant : HeapInvariant heap (front ++ sec :: back)) :
    heap.sectionNext sec.address = firstAddress back := by
  have list := invariant.list
  rw [map_append, map_cons] at list
  exact segment_next list

theorem release_sections_spec {kept rest : List Section} {fuel : Nat}
    (invariant : HeapInvariant heap (kept ++ rest)) (enough : rest.length < fuel) :
    ∃ after final released,
      heap.releaseSections fuel (lastAddress kept) (firstAddress rest) = some (after, released) ∧
      HeapInvariant after (kept ++ final) ∧
      (∀ address size, UsedAt (kept ++ final) address size ↔ UsedAt (kept ++ rest) address size) ∧
      (final.map interval ++ released).Perm (rest.map interval) := by
  induction rest generalizing heap kept fuel with
  | nil =>
    cases fuel with
    | zero => simp at enough
    | succ fuel =>
      refine ⟨heap, [], [], ?_, invariant, fun _ _ => Iff.rfl, by simp⟩
      simp [releaseSections, firstAddress]
  | cons sec rest ih =>
    cases fuel with
    | zero => simp at enough
    | succ fuel =>
      have order := invariant.inOrder sec (by simp)
      have here : firstAddress (sec :: rest) = sec.address := rfl
      have next := next_section invariant
      have fewer : rest.length < fuel := by simpa using enough
      simp only [releaseSections, here, if_neg order.laid.nonzero]
      by_cases unused : heap.Unused sec.address
      · rcases ih (drop_section_heap invariant unused) fewer with
          ⟨after, final, released, result, kept', used, ranges⟩
        have whole : add64 (heap.sectionSize sec.address) sectionHeader = sec.length := by
          have size := order.laid.size
          have word := order.laid.word
          have nonzero := order.laid.nonzero
          rw [add64_of_lt (by omega)]
          exact size
        rw [if_pos unused, next, result, whole]
        refine ⟨after, final, interval sec :: released, rfl, kept', ?_, ?_⟩
        · intro address size
          rw [used, used_at_cut, unused_blocks order unused]
          simp
        · rw [map_cons]
          exact perm_middle.trans (ranges.cons _)
      · have moved : HeapInvariant heap ((kept ++ [sec]) ++ rest) := by
          rw [append_assoc]
          exact invariant
        rcases ih moved fewer with ⟨after, final, released, result, kept', used, ranges⟩
        have last : lastAddress (kept ++ [sec]) = sec.address := by
          simp [lastAddress]
        rw [last] at result
        rw [if_neg unused, next, result]
        refine ⟨after, sec :: final, released, rfl, ?_, ?_, ?_⟩
        · rw [append_assoc] at kept'
          exact kept'
        · intro address size
          have same := used address size
          rw [append_assoc, append_assoc] at same
          exact same
        · simpa using ranges

theorem release_all_spec (invariant : HeapInvariant heap sections) :
    ∃ after final released, heap.releaseUnused = some (after, released) ∧
      HeapInvariant after final ∧
      (∀ address size, UsedAt final address size ↔ UsedAt sections address size) ∧
      (final.map interval ++ released).Perm (sections.map interval) := by
  have whole : HeapInvariant heap ([] ++ sections) := invariant
  have first : heap.head = firstAddress sections := segment_first invariant.list
  have last : lastAddress [] = 0 := rfl
  have spec := release_sections_spec whole (sections_short invariant)
  rw [last, ← first] at spec
  unfold releaseUnused
  exact spec

end Release

/-! ## Free -/

section Free
variable {heap : HeapAllocator} {sections : List Section} {sec : Section} {block size : Nat}
  {back front : List Section}

theorem mark_all_laid (invariant : HeapInvariant heap (front ++ sec :: back))
    (inside : (block, ⟨size, false⟩) ∈ sec.blocks) :
    (∀ other ∈ front ++ sec :: back, Laid (heap.setBlockFree block true) other) ∧
      Segment (heap.setBlockFree block true).sectionNext (fun _ => ())
        (heap.setBlockFree block true).head
        ((front ++ sec :: back).map fun other => (other.address, ())) 0 := by
  have order := invariant.inOrder sec (by simp)
  have bounds := block_bounds order.laid inside
  have around := separate_around invariant.separate
  obtain ⟨header, sectionWord, -⟩ := constant_sizes
  simp only at bounds
  have outside : ∀ other ∈ front ++ back, ∀ cell, other.address ≤ cell →
      cell < other.address + other.length → cell ≠ block := by
    intro other member cell low high
    have apart := around other member
    simp only [Separate, interval] at apart
    omega
  have split : ∀ other ∈ front ++ sec :: back, other = sec ∨ other ∈ front ++ back := by
    intro other member
    simp only [mem_append, mem_cons] at member ⊢
    tauto
  constructor
  · intro other member
    rcases split other member with same | isOther
    · rw [same]
      exact mark_laid order.laid inside true
    have kept : ∀ cell, other.address ≤ cell → cell < other.address + other.length →
        (heap.setBlockFree block true).memory cell = heap.memory cell := by
      intro cell low high
      exact memory_set_free _ _ _ _ (outside other isOther cell low high)
    have laid := (invariant.inOrder other member).laid
    have tiles := tiles_low_le_high laid.tiles
    apply laid_congr laid
    · rw [sectionSize, kept _ (by omega) (by omega), sectionSize]
    · exact kept _ (by omega) (by omega)
    · intro item isItem
      have itemBounds := block_bounds laid isItem
      exact kept _ (by omega) (by omega)
  · apply segment_congr invariant.list
    intro item member
    rcases mem_map.mp member with ⟨other, isSection, same⟩
    refine ⟨?_, rfl⟩
    have different : item.1 ≠ block := by
      rw [← same]
      rcases split other isSection with isSec | isOther
      · rw [isSec]
        simp only
        omega
      · have tiles := tiles_low_le_high (invariant.inOrder other isSection).laid.tiles
        exact outside other isOther other.address le_rfl (by omega)
    rw [sectionNext, memory_set_free _ _ _ _ different, sectionNext]

/-- One block less is in use. -/
structure Returned (before after : List Section) (ptr : Nat) (released : List (Nat × Nat)) :
    Prop where
  used : ∀ address length, UsedAt after address length ↔
    UsedAt before address length ∧ address + blockHeader ≠ ptr
  ranges : (after.map interval ++ released).Perm (before.map interval)

theorem give_back_returned {left before behind right : List (Nat × Block)}
    (invariant : HeapInvariant heap (front ++ sec :: back))
    (place : Surrounded sec left before block size behind right) (address length : Nat) :
    UsedAt (front ++ { sec with blocks := left ++ joined before block size behind :: right } ::
        back) address length ↔
      UsedAt (front ++ sec :: back) address length ∧ address ≠ block := by
  rcases place with ⟨cut, leftSide, rightSide⟩
  have order := invariant.inOrder sec (by simp)
  have here : (block, ⟨size, false⟩) ∈ sec.blocks := mem_of_cut cut
  have around := blocks_around order.laid cut
  have header : blockHeader = 16 := rfl
  have notBefore : (address, (⟨length, false⟩ : Block)) ∉ before := by
    rcases leftSide with ⟨nothing, _⟩ | ⟨start, room, found⟩
    · simp [nothing]
    · simp [found]
  have notBehind : (address, (⟨length, false⟩ : Block)) ∉ behind := by
    rcases rightSide with ⟨nothing, _⟩ | ⟨start, room, found⟩
    · simp [nothing]
    · simp [found]
  rw [used_at_cut, used_at_cut, cut]
  simp only [joined, mem_append, mem_cons, notBefore, notBehind, or_false, false_or,
    Prod.mk.injEq, Block.mk.injEq, Bool.false_eq_true, and_false, and_true]
  constructor
  · rintro (elsewhere | inLeft | inRight)
    · refine ⟨.inl elsewhere, ?_⟩
      intro same
      subst same
      rcases elsewhere with ⟨other, isOther, member⟩
      have apart := separate_around invariant.separate other isOther
      have isSection : other ∈ front ++ sec :: back := by
        simp only [mem_append, mem_cons] at isOther ⊢
        tauto
      have otherBounds := block_bounds (invariant.inOrder other isSection).laid member
      have bounds := block_bounds order.laid here
      simp only [Separate, interval] at apart otherBounds bounds
      omega
    · refine ⟨.inr (.inl inLeft), ?_⟩
      have bounds := around.1 _ (mem_append_left _ inLeft)
      simp only at bounds
      omega
    · refine ⟨.inr (.inr (.inr inRight)), ?_⟩
      have bounds := around.2 _ (mem_append_right _ inRight)
      simp only at bounds
      omega
  · rintro ⟨elsewhere | inLeft | same | inRight, different⟩
    · exact .inl elsewhere
    · exact .inr (.inl inLeft)
    · exact absurd same.1 different
    · exact .inr (.inr inRight)

theorem free_spec {ptr : Nat} (invariant : HeapInvariant heap sections)
    (used : UsedAt sections (ptr - blockHeader) size) (above : blockHeader < ptr) :
    ∃ after newSections released, heap.free ptr = some (after, released) ∧
      HeapInvariant after newSections ∧ Returned sections newSections ptr released := by
  rcases used with ⟨sec, member, inside⟩
  rcases append_of_mem member with ⟨front, back, whole⟩
  subst whole
  have order := invariant.inOrder sec (by simp)
  rcases append_of_mem inside with ⟨lefts, rights, split⟩
  rcases exists_free_before lefts with ⟨left, before, leftWhole, leftSide⟩
  rcases exists_free_behind rights with ⟨behind, right, rightWhole, rightSide⟩
  rw [leftWhole, rightWhole] at split
  have around : Surrounded sec left before (ptr - blockHeader) size behind right :=
    ⟨split, leftSide, rightSide⟩
  have start := (block_bounds order.laid inside).1
  have final := block_before_end order inside
  have word := order.laid.word
  obtain ⟨header, sectionWord, -⟩ := constant_sizes
  simp only at start final
  have flag : heap.blockFree (ptr - blockHeader) = false := order.flagged _ inside
  rcases mark_all_laid invariant inside with ⟨laid, list⟩
  have owner := find_owner_spec laid invariant.separate list (sections_short invariant) member
    start final
  have place := find_place_spec (laid sec member) split
  have given := give_back_heap around invariant
  rcases release_all_spec given with ⟨after, kept, released, result, keptInvariant, same, ranges⟩
  refine ⟨after, kept, released, ?_, keptInvariant, ?_, ?_⟩
  · have put : (heap.setBlockFree (ptr - blockHeader) true).returnBlock (ptr - blockHeader) =
        some (heap.giveBack sec left before (ptr - blockHeader) behind right) := by
      unfold returnBlock giveBack putBack
      rw [owner]
      simp only [if_neg order.laid.nonzero, place]
    unfold free
    rw [if_neg (by omega), sub64_of_le (by omega) (by omega), flag, if_neg (by decide), put]
    exact result
  · intro address length
    rw [same, give_back_returned invariant around]
    have shifted : address ≠ ptr - blockHeader ↔ address + blockHeader ≠ ptr := by omega
    rw [shifted]
  · simpa [interval] using ranges

end Free
end FrostyKernel.HeapAllocator
