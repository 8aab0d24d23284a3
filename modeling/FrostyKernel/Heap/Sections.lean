import FrostyKernel.Heap.Blocks

/-!
# Sections of the heap

A section in good order: its blocks tile it, its list holds the free ones, no
two neighbours are free, and its last block is large. The last condition is what
makes the test by which `Free` looks for the section of a block succeed: that
test compares with the section size, which leaves the last 32 bytes out.
-/

namespace FrostyKernel.HeapAllocator

open Word List Option

def Coalesced (blocks : List (Nat × Block)) : Prop :=
  blocks.IsChain fun first second => first.2.free = true → second.2.free = false

structure SectionInvariant (heap : HeapAllocator) (sec : Section) : Prop where
  laid : Laid heap sec
  flagged : Flagged heap sec.blocks
  coalesced : Coalesced sec.blocks
  lastLarge : ∀ item ∈ sec.blocks.getLast?, 32 ≤ item.2.size

/-- Every block starts well before the end of its section. -/
theorem block_before_end {heap : HeapAllocator} {sec : Section}
    (invariant : SectionInvariant heap sec) {item : Nat × Block} (member : item ∈ sec.blocks) :
    item.1 + 48 ≤ sec.address + sec.length := by
  rcases eq_nil_or_concat sec.blocks with nothing | ⟨initial, last, whole⟩
  · simp [nothing] at member
  rw [concat_eq_append] at whole
  have large := invariant.lastLarge last (by simp [whole])
  have final := (block_bounds invariant.laid (show last ∈ sec.blocks by simp [whole])).2
  have before := (blocks_around invariant.laid whole).1
  simp only [blockHeader] at final before
  rw [whole] at member
  rcases mem_append.mp member with earlier | isLast
  · have order := before item earlier
    omega
  · rw [mem_singleton.mp isLast]
    omega

/-! ## Taking a block -/

section Take
variable {heap : HeapAllocator} {sec : Section} {left right : List (Nat × Block)}
  {address size wanted : Nat}

def takenBlocks (address size wanted : Nat) : List (Nat × Block) :=
  if wanted + blockHeader + minBlockSize < size then
    [(address, ⟨wanted, false⟩),
      (address + blockHeader + wanted, ⟨size - wanted - blockHeader, true⟩)]
  else [(address, ⟨size, false⟩)]

theorem part_block_whole (laid : Laid heap sec)
    (cut : sec.blocks = left ++ (address, ⟨size, true⟩) :: right) (fits : wanted ≤ size)
    (whole : ¬ wanted + blockHeader + minBlockSize < size) :
    heap.partBlock address wanted = heap := by
  unfold partBlock
  rw [if_neg]
  intro splits
  exact whole ((splits_iff laid cut fits).mp splits)

theorem take_block_exchanged (laid : Laid heap sec) (flagged : Flagged heap sec.blocks)
    (cut : sec.blocks = left ++ (address, ⟨size, true⟩) :: right) (fits : wanted ≤ size)
    (multiple : 16 ∣ wanted) :
    Exchanged heap (heap.takeBlock sec.address (lastOr 0 (freeBlocks left)) address wanted).1 sec
      (left ++ (takenBlocks address size wanted ++ right)) := by
  unfold takeBlock takenBlocks
  simp only
  split_ifs with large
  · have parted := part_block_exchanged laid cut large flagged multiple
    exact parted.trans (unlink_block_exchanged parted.laid rfl parted.flagged)
  · rw [part_block_whole laid cut fits large]
    exact unlink_block_exchanged laid cut flagged

theorem taken_coalesced (coalesced : Coalesced (left ++ (address, ⟨size, true⟩) :: right)) :
    Coalesced (left ++ (takenBlocks address size wanted ++ right)) := by
  unfold Coalesced at coalesced ⊢
  rw [isChain_append, isChain_cons] at coalesced
  rcases coalesced with ⟨inLeft, ⟨first, inRight⟩, _⟩
  rw [isChain_append]
  unfold takenBlocks
  split_ifs with large
  · refine ⟨inLeft, ?_, by simp⟩
    simp only [cons_append, nil_append, isChain_cons]
    exact ⟨by simp, fun next member _ => first next member rfl, inRight⟩
  · refine ⟨inLeft, ?_, by simp⟩
    simp only [cons_append, nil_append, isChain_cons]
    exact ⟨by simp, inRight⟩

theorem taken_last_large (sizeMultiple : 16 ∣ size) (multiple : 16 ∣ wanted)
    (lastLarge : ∀ item ∈ (left ++ (address, ⟨size, true⟩) :: right).getLast?, 32 ≤ item.2.size) :
    ∀ item ∈ (left ++ (takenBlocks address size wanted ++ right)).getLast?, 32 ≤ item.2.size := by
  rcases eq_nil_or_concat right with nothing | ⟨initial, last, whole⟩
  · subst nothing
    have large : 32 ≤ size := lastLarge (address, ⟨size, true⟩) (by simp)
    unfold takenBlocks
    split_ifs with splits
    · simp only [minBlockSize, blockHeader] at splits ⊢
      simp
      omega
    · simpa using large
  · rw [concat_eq_append] at whole
    subst whole
    have large := lastLarge last (by simp [getLast?_append, getLast?_cons])
    intro item member
    rw [← append_assoc, ← append_assoc, getLast?_concat] at member
    simp only [mem_def, Option.some.injEq] at member
    rw [← member]
    exact large

theorem take_block_invariant (invariant : SectionInvariant heap sec)
    (cut : sec.blocks = left ++ (address, ⟨size, true⟩) :: right) (fits : wanted ≤ size)
    (multiple : 16 ∣ wanted) :
    SectionInvariant (heap.takeBlock sec.address (lastOr 0 (freeBlocks left)) address wanted).1
      { sec with blocks := left ++ (takenBlocks address size wanted ++ right) } := by
  have taken := take_block_exchanged invariant.laid invariant.flagged cut fits multiple
  have sizeMultiple : 16 ∣ size := invariant.laid.multiples (address, ⟨size, true⟩) (mem_of_cut cut)
  have coalesced := invariant.coalesced
  have lastLarge := invariant.lastLarge
  rw [cut] at coalesced lastLarge
  exact ⟨taken.laid, taken.flagged, taken_coalesced coalesced,
    taken_last_large sizeMultiple multiple lastLarge⟩

end Take

/-! ## Putting a block back -/

section Give
variable {heap : HeapAllocator} {sec : Section} {left before behind right : List (Nat × Block)}
  {block size : Nat}

theorem exists_free_before (blocks : List (Nat × Block)) :
    ∃ left before, blocks = left ++ before ∧ FreeBefore left before := by
  rcases eq_nil_or_concat blocks with nothing | ⟨initial, ⟨address, size, free⟩, whole⟩
  · exact ⟨[], [], by simp [nothing], .inl ⟨rfl, by simp⟩⟩
  · rw [concat_eq_append] at whole
    cases free
    · exact ⟨blocks, [], by simp, .inl ⟨rfl, by simp [whole]⟩⟩
    · exact ⟨initial, [(address, ⟨size, true⟩)], whole, .inr ⟨address, size, rfl⟩⟩

theorem exists_free_behind (blocks : List (Nat × Block)) :
    ∃ behind right, blocks = behind ++ right ∧ FreeBehind behind right := by
  cases blocks with
  | nil => exact ⟨[], [], rfl, .inl ⟨rfl, by simp⟩⟩
  | cons first rest =>
    rcases first with ⟨address, size, free⟩
    cases free
    · exact ⟨[], _, rfl, .inl ⟨rfl, by simp⟩⟩
    · exact ⟨[(address, ⟨size, true⟩)], rest, rfl, .inr ⟨address, size, rfl⟩⟩

section Joined
variable (place : Surrounded sec left before block size behind right)
include place

theorem joined_coalesced (coalesced : Coalesced sec.blocks) :
    Coalesced (left ++ joined before block size behind :: right) := by
  rcases place with ⟨cut, leftSide, rightSide⟩
  unfold Coalesced at coalesced ⊢
  rw [cut, isChain_append, isChain_append, isChain_cons, isChain_append]
    at coalesced
  rcases coalesced with ⟨⟨inLeft, _, leftEnd⟩, ⟨_, _, inRight, rightStart⟩, _⟩
  rw [isChain_append, isChain_cons]
  refine ⟨inLeft, ⟨?_, inRight⟩, ?_⟩
  · intro next first _
    rcases rightSide with ⟨_, used⟩ | ⟨address, length, found⟩
    · exact used next first
    · subst found
      exact rightStart (address, ⟨length, true⟩) (by simp) next first rfl
  · intro last final item member isFree
    rcases leftSide with ⟨_, used⟩ | ⟨address, length, found⟩
    · rw [used last final] at isFree
      exact absurd isFree (by decide)
    · subst found
      exact absurd (leftEnd last final (address, ⟨length, true⟩) (by simp) isFree) (by simp)

theorem joined_last_large (lastLarge : ∀ item ∈ sec.blocks.getLast?, 32 ≤ item.2.size) :
    ∀ item ∈ (left ++ joined before block size behind :: right).getLast?, 32 ≤ item.2.size := by
  rw [place.cut] at lastLarge
  rcases eq_nil_or_concat right with nothing | ⟨initial, last, whole⟩
  · subst nothing
    suffices large : 32 ≤ space before + size + space behind by simpa [joined] using large
    rcases place.rightSide with ⟨nothing, _⟩ | ⟨address, length, found⟩
    · subst nothing
      have large : 32 ≤ size := lastLarge (block, ⟨size, false⟩) (by simp)
      omega
    · subst found
      have large : 32 ≤ length := lastLarge (address, ⟨length, true⟩) (by simp)
      simp only [space, map_cons, map_nil, sum_cons, sum_nil, blockLength]
      omega
  · rw [concat_eq_append] at whole
    subst whole
    have large := lastLarge last (by simp [getLast?_append, getLast?_cons])
    intro item member
    rw [← cons_append, ← append_assoc, getLast?_concat] at member
    simp only [mem_def, Option.some.injEq] at member
    rw [← member]
    exact large

end Joined

/-- Setting the flag of a block keeps the layout, in which a block is free when
it is listed. -/
theorem mark_laid (laid : Laid heap sec) {item : Nat × Block} (member : item ∈ sec.blocks)
    (flag : Bool) : Laid (heap.setBlockFree item.1 flag) sec := by
  have elsewhere := block_elsewhere laid member
  have sizes : (heap.setBlockFree item.1 flag).blockSize = heap.blockSize := by
    funext other
    simp
  have nexts : (heap.setBlockFree item.1 flag).blockNext = heap.blockNext := by
    funext other
    simp
  refine ⟨laid.aligned, laid.nonzero, laid.word, laid.small, laid.tiles, ?_, ?_, laid.multiples, ?_⟩
  · rw [sectionSize, memory_set_free _ _ _ _ (Ne.symm elsewhere.2.1)]
    exact laid.size
  · rw [sizes]
    exact laid.sizes
  · rw [sizes, nexts, section_first_set_free _ _ _ _ (Ne.symm elsewhere.2.2)]
    exact laid.list

/-- The insertion of `Free` after the block was marked. -/
def giveBack (heap : HeapAllocator) (sec : Section) (left before : List (Nat × Block))
    (block : Nat) (behind right : List (Nat × Block)) : HeapAllocator :=
  (heap.setBlockFree block true).putBack sec left before block behind right

theorem give_back_spec (laid : Laid heap sec) (flagged : Flagged heap sec.blocks)
    (place : Surrounded sec left before block size behind right) (room : Room heap 2) :
    ∃ linked, Merged heap linked (before.length + behind.length) ∧
      Exchanged heap linked sec (left ++ joined before block size behind :: right) ∧
      heap.giveBack sec left before block behind right = linked.countFreed size := by
  have cut := place.cut
  have here : (block, ⟨size, false⟩) ∈ sec.blocks := mem_of_cut cut
  have markedLaid := mark_laid laid here true
  have around := blocks_around laid cut
  have bounds := block_bounds laid here
  have flag : (heap.setBlockFree block true).blockFree block = true := by simp
  have counted : Merged heap (heap.setBlockFree block true) 0 := merged_none _
  have others : Flagged (heap.setBlockFree block true) (left ++ before ++ behind ++ right) := by
    intro item member
    have split : item ∈ left ++ before ∨ item ∈ behind ++ right := by
      simp only [mem_append] at member ⊢
      tauto
    have different : item.1 ≠ block := by
      simp only [blockHeader] at around
      rcases split with inside | inside
      · have order := around.1 item inside
        omega
      · have order := around.2 item inside
        omega
    rw [block_free_set_free, if_neg different]
    apply flagged
    rw [cut, mem_append, mem_cons]
    tauto
  rcases put_back_spec markedLaid place flag (room_left counted room) with ⟨linked, put, result⟩
  have merged := merged_trans counted put.toMerged
  rw [zero_add] at merged
  have exchanged := put_back_exchanged markedLaid place put flag others
  refine ⟨linked, merged, ⟨exchanged.laid, exchanged.flagged, ?_⟩, result⟩
  intro other nonzero outside
  rw [exchanged.frame other nonzero outside]
  apply memory_set_free
  simp only [sectionHeader, blockHeader] at bounds
  omega

theorem exchanged_counted {after : HeapAllocator} {blocks : List (Nat × Block)}
    (exchanged : Exchanged heap after sec blocks) :
    Exchanged heap (after.countFreed size) sec blocks :=
  ⟨laid_congr exchanged.laid rfl rfl fun _ _ => rfl,
    flagged_congr exchanged.flagged fun _ _ => rfl, exchanged.frame⟩

end Give

/-! ## Searches -/

section Searches
variable {heap : HeapAllocator} {sec : Section} {left right : List (Nat × Block)}
  {block size wanted : Nat}

theorem headers_le_space (blocks : List (Nat × Block)) :
    blockHeader * blocks.length ≤ space blocks := by
  induction blocks with
  | nil => simp [space]
  | cons item rest ih =>
    simp only [space, map_cons, sum_cons, length_cons, blockLength, blockHeader] at ih ⊢
    omega

theorem free_blocks_length (blocks : List (Nat × Block)) :
    (freeBlocks blocks).length ≤ blocks.length :=
  length_filterMap_le _ _

theorem free_list_short (laid : Laid heap sec) : (freeBlocks sec.blocks).length < 2 ^ 64 := by
  have whole := tiles_space laid.tiles
  have headers := headers_le_space sec.blocks
  have few := free_blocks_length sec.blocks
  have word := laid.word
  simp only [blockHeader] at headers
  omega

theorem free_blocks_cut {blocks : List (Nat × Block)} {front back : List (Nat × Nat)}
    {item : Nat × Nat} (split : freeBlocks blocks = front ++ item :: back) :
    ∃ left right, blocks = left ++ (item.1, ⟨item.2, true⟩) :: right ∧
      freeBlocks left = front ∧ freeBlocks right = back := by
  unfold freeBlocks at split
  rcases filterMap_eq_append_iff.mp split with ⟨left, rest, whole, first, second⟩
  rcases filterMap_eq_cons_iff.mp second with ⟨used, found, right, inner, none, some, last⟩
  rcases found with ⟨address, foundSize, free⟩
  refine ⟨left ++ used, right, ?_, ?_, last⟩
  · cases free
    · simp at some
    · simp only [if_true, Option.some.injEq] at some
      rw [whole, inner, ← some]
      simp
  · have nothing : freeBlocks used = [] := by
      unfold freeBlocks
      rw [filterMap_eq_nil_iff]
      exact none
    rw [free_blocks_append, nothing, append_nil]
    exact first

theorem find_block_spec (invariant : SectionInvariant heap sec) (wanted : Nat) :
    (∃ previous, heap.findBlock wanted sec.address = some (previous, 0)) ∨
    ∃ left right address size, sec.blocks = left ++ (address, ⟨size, true⟩) :: right ∧
      wanted ≤ size ∧
      heap.findBlock wanted sec.address = some (lastOr 0 (freeBlocks left), address) := by
  have laid := invariant.laid
  have short := free_list_short laid
  have list := laid.list
  have flags : ∀ item ∈ freeBlocks sec.blocks,
      heap.blockFree item.1 = true ∧ heap.blockSize item.1 = item.2 := by
    intro item member
    have inside := mem_free_blocks.mp member
    exact ⟨invariant.flagged _ inside, laid.sizes _ inside⟩
  have tooSmall : ∀ items : List (Nat × Nat), (∀ item ∈ items, item ∈ freeBlocks sec.blocks) →
      (∀ item ∈ items, ¬ wanted ≤ item.2) → ∀ _ : Nat, ∀ item ∈ items, true = true ∧
        (heap.blockFree item.1 && decide (wanted ≤ heap.blockSize item.1)) = false := by
    intro items inside small _ item member
    rw [(flags item (inside item member)).2]
    simp [small item member]
  unfold findBlock
  cases found : (freeBlocks sec.blocks).find? (fun item => decide (wanted ≤ item.2)) with
  | none =>
    left
    rw [find?_eq_none] at found
    rw [← append_nil (freeBlocks sec.blocks)] at list
    refine ⟨_, search_passes list (passes_of_forall (tooSmall _ (fun _ member => member) ?_) 0)
      (by simp) short⟩
    intro item member
    simpa using found item member
  | some item =>
    right
    rcases find?_eq_some_iff_append.mp found with ⟨enough, front, back, split, small⟩
    rcases free_blocks_cut split with ⟨left, right, whole, frontFree, _⟩
    have large : wanted ≤ item.2 := by simpa using enough
    have here := flags item (by simp [split])
    rw [split] at list flags
    refine ⟨left, right, item.1, item.2, whole, large, ?_⟩
    rw [frontFree]
    have early := tooSmall front (fun other member => by simp [split, member])
      (fun other member => by simpa using small other member)
    refine search_passes list (passes_of_forall early 0) ?_ ?_
    · intro first isFirst
      simp only [head?_cons, mem_def, Option.some.injEq] at isFirst
      rw [← isFirst, here.1, here.2]
      simp [large]
    · rw [split] at short
      simp only [length_append, length_cons] at short
      omega

theorem find_place_spec (laid : Laid heap sec)
    (cut : sec.blocks = left ++ (block, ⟨size, false⟩) :: right) :
    heap.findPlace block sec.address =
      some (lastOr 0 (freeBlocks left), firstOr (freeBlocks right) 0) := by
  have short := free_list_short laid
  have list := laid.list
  have around := blocks_around laid cut
  have part := part_single laid cut
  simp only [cut, free_blocks_append, free_blocks_cons, Bool.false_eq_true, if_false,
    nil_append] at list short
  unfold findPlace
  apply search_passes list (passes_of_forall ?_ 0)
  · intro item member
    have inside := mem_free_blocks.mp (mem_of_mem_head? member)
    have order := around.2 _ inside
    simp only [blockHeader] at order
    refine ⟨rfl, ?_⟩
    have later : block < item.1 := by omega
    rcases previous_cases part with ⟨_, zero⟩ | ⟨_, _, free, isBefore, _⟩
    · simp [zero, later]
    have below := around.1 _ isBefore
    have held : heap.blockSize (lastOr 0 (freeBlocks left)) = free.size :=
      laid.sizes (lastOr 0 (freeBlocks left), free) (by simp [cut, isBefore])
    have bounds := block_bounds laid (mem_of_cut cut)
    have word := laid.word
    have header : blockHeader = 16 := rfl
    simp only at below bounds
    rw [block_end_eq (by omega)]
    simp only [later, decide_true, Bool.true_and, Bool.or_eq_true, decide_eq_true_eq]
    right
    omega
  · simp only [length_append] at short
    omega
  · intro previous item member
    have order := around.1 _ (mem_free_blocks.mp member)
    simp only [blockHeader] at order
    refine ⟨rfl, ?_⟩
    have earlier : ¬ block < item.1 := by omega
    simp [earlier]

end Searches
end FrostyKernel.HeapAllocator
