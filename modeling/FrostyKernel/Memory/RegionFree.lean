import FrostyKernel.Memory.RegionOperations

/-!
# Freeing regions, and whole runs of the region allocator

A free turns a used region and its free neighbours into one free region. With
it every operation of the allocator keeps the representation invariant, so every
sequence of calls from `Init` does.
-/

namespace FrostyKernel.Memory

open Word List Option OrderedMap

/-! ## Merging a freed region with its neighbours -/

section Free

def regionOf (node : Nat × NodeData) : Region := ⟨node.1, node.2.size⟩

def mergedStart (previous : Option (Nat × NodeData)) (ptr : Nat) : Nat :=
  (previous.map Prod.fst).getD ptr

def mergedSize (previous next : Option (Nat × NodeData)) (numPages : Nat) : Nat :=
  numPages + (previous.map fun node => node.2.size).getD 0 +
    (next.map fun node => node.2.size).getD 0

/-- The surroundings of a region: its free neighbours, beyond which the regions
are used. -/
structure Neighbours (left : List (Nat × NodeData)) (previous next : Option (Nat × NodeData))
    (right : List (Nat × NodeData)) : Prop where
  previousFree : ∀ node ∈ previous, node.2.isFree = true
  nextFree : ∀ node ∈ next, node.2.isFree = true
  leftUsed : ∀ node ∈ left.getLast?, node.2.isFree = false
  rightUsed : ∀ node ∈ right.head?, node.2.isFree = false

variable {nodes : List (Nat × NodeData)} {numPages : Nat}

theorem exists_free_end (chain : nodes.IsChain NotBothFree) :
    ∃ left previous, nodes = left ++ Option.toList previous ∧
      (∀ node ∈ previous, node.2.isFree = true) ∧
      ∀ node ∈ left.getLast?, node.2.isFree = false := by
  rcases eq_nil_or_concat nodes with nothing | ⟨initial, last, whole⟩
  · exact ⟨[], none, by simp [nothing]⟩
  rw [concat_eq_append] at whole
  cases free : last.2.isFree with
  | false =>
    refine ⟨nodes, none, by simp, by simp, ?_⟩
    intro node final
    rw [whole, getLast?_concat, mem_some_iff] at final
    rw [← final, free]
  | true =>
    refine ⟨initial, some last, by simp [whole], by simp [free], ?_⟩
    intro node final
    rw [whole] at chain
    have apart := (chain_around chain).2.2.1 node final
    simpa [NotBothFree, free] using apart

theorem exists_free_head (chain : nodes.IsChain NotBothFree) :
    ∃ next right, nodes = Option.toList next ++ right ∧
      (∀ node ∈ next, node.2.isFree = true) ∧
      ∀ node ∈ right.head?, node.2.isFree = false := by
  cases nodes with
  | nil => exact ⟨none, [], by simp⟩
  | cons first rest =>
    cases free : first.2.isFree with
    | false =>
      refine ⟨none, first :: rest, by simp, by simp, ?_⟩
      intro node head
      rw [head?_cons, mem_some_iff] at head
      rw [← head, free]
    | true =>
      refine ⟨some first, rest, by simp, by simp [free], ?_⟩
      intro node head
      have apart := (isChain_cons.mp chain).1 node head
      simpa [NotBothFree, free] using apart

variable {allocator : RegionAllocator} {left right : List (Nat × NodeData)}
  {previous next : Option (Nat × NodeData)} {ptr low high : Nat} {data : NodeData}

theorem previous_free_spec (around : Neighbours left previous next right)
    {rest : List (Nat × NodeData)} (word : high < 2 ^ 64)
    (tiles : Tiles byteLength low (left ++ previous.toList ++ (ptr, data) :: rest) high)
    (cut : allocator.allPagesTree.nodes = left ++ previous.toList ++ (ptr, data) :: rest) :
    previousFree allocator ptr ptr = previous.map regionOf := by
  unfold previousFree
  rw [prev_of_cut cut]
  cases previous with
  | none =>
    simp only [toList_none, append_nil]
    cases last : left.getLast? with
    | none => rfl
    | some node => simp [around.leftUsed node last]
  | some node =>
    have ends : node.1 + node.2.size * pageSize = ptr := tiles_last_ends tiles
    have bounds := (tiles_piece_bounds tiles (show (ptr, data) ∈ _ by simp)).2.2
    have sum := range_end (show node.1 + node.2.size * pageSize < 2 ^ 64 by
      have := Nat.zero_le (byteLength data)
      omega)
    simp [sum, ends, around.previousFree node rfl, regionOf]

variable {front : List (Nat × NodeData)}

theorem next_free_spec (allocator : RegionAllocator) (around : Neighbours left previous next right)
    {limit : Nat} (tiles : Tiles byteLength limit (next.toList ++ right) high)
    (cut : allocator.allPagesTree.nodes = front ++ (next.toList ++ right))
    (below : ∀ node ∈ front, node.1 < limit) : nextFree allocator limit = next.map regionOf := by
  have found : allocator.allPagesTree.findNodeOrHigher limit = (next.toList ++ right).head? :=
    nfind_of_split cut below fun node member => (tiles_piece_bounds tiles member).1
  unfold nextFree
  rw [found]
  cases next with
  | none =>
    simp only [toList_none, nil_append]
    cases first : right.head? with
    | none => rfl
    | some node => simp [around.rightUsed node first]
  | some node =>
    have starts : node.1 = limit := tiles.1
    simp [starts.symm, around.nextFree node rfl, regionOf]

theorem insert_merged (allocator : RegionAllocator) {start size : Nat} (word : high < 2 ^ 64)
    (leftTiles : Tiles byteLength low left start)
    (rightTiles : Tiles byteLength (start + size * pageSize) right high) (positive : 0 < size)
    (nodes : allocator.allPagesTree.nodes = left ++ right) :
    (allocator.allPagesTree.insert start ⟨size % 2 ^ 62, true, false⟩).nodes =
      left ++ (start, ⟨size, true, false⟩) :: right := by
  have gap : 0 < size * pageSize := mul_pos positive (by decide)
  have small : size % 2 ^ 62 = size := by
    have order := tiles_low_le_high rightTiles
    apply Nat.mod_eq_of_lt
    simp only [pageSize] at order
    omega
  rw [small]
  apply insert_nodes _ nodes
  · intro node member
    have bounds := tiles_piece_bounds leftTiles member
    omega
  · intro node member
    have bounds := tiles_piece_bounds rightTiles member
    omega

theorem erase_two {first second : Nat × NodeData}
    (cut : allocator.allPagesTree.nodes = left ++ first :: second :: right) :
    ((allocator.allPagesTree.erase first.1).erase second.1).nodes = left ++ right ∧
      ((allocator.allPagesTree.erase second.1).erase first.1).nodes = left ++ right := by
  have withoutFirst : (allocator.allPagesTree.erase first.1).nodes = left ++ second :: right :=
    erase_nodes cut
  have secondCut : allocator.allPagesTree.nodes = (left ++ [first]) ++ second :: right := by
    simp [cut]
  have withoutSecond := erase_nodes secondCut
  rw [append_assoc, singleton_append] at withoutSecond
  exact ⟨erase_nodes withoutFirst, erase_nodes withoutSecond⟩

/-- What merging gives: the regions, and nothing else changed. -/
structure Merged (before after : RegionAllocator) (left : List (Nat × NodeData))
    (previous next : Option (Nat × NodeData)) (right : List (Nat × NodeData))
    (ptr numPages : Nat) (reserved : Bool) : Prop where
  nodes : after.allPagesTree.nodes = left ++ (mergedStart previous ptr,
    ⟨mergedSize previous next numPages, true, reserved⟩) :: right
  lists : after.freePagesTree = before.freePagesTree
  books : SameBooks before after

section Merge
variable (around : Neighbours left previous next right) (word : high < 2 ^ 64)
  (tiles : Tiles byteLength low
    (left ++ previous.toList ++ (ptr, data) :: (next.toList ++ right)) high)
  (cut : allocator.allPagesTree.nodes =
    left ++ previous.toList ++ (ptr, data) :: (next.toList ++ right))
include around word tiles cut

theorem merge_without_previous (alone : previous = none) (free : data.isFree = true) :
    ∃ merged reserved, mergeNeighbours allocator ptr ptr data.size =
        (merged, none, next.map regionOf) ∧
      Merged allocator merged left none next right ptr data.size reserved := by
  have previousIs := previous_free_spec around word tiles cut
  subst alone
  simp only [toList_none, append_nil, map_none] at previousIs cut tiles
  rcases tiles_cut.mp tiles with ⟨leftTiles, positive, rightTiles⟩
  have order := tiles_low_le_high rightTiles
  have ends : add64 ptr (shl64 data.size 12) = ptr + byteLength data := range_end (by
    simp only [byteLength] at order
    omega)
  have whole : allocator.allPagesTree.nodes = (left ++ [(ptr, data)]) ++ (next.toList ++ right) := by
    simp [cut]
  have nextIs := next_free_spec allocator around rightTiles whole (by
    intro node member
    rcases mem_append.mp member with early | last
    · have below := before_lt cut node early
      omega
    · rw [mem_singleton.mp last]
      exact Nat.lt_add_of_pos_right positive)
  unfold mergeNeighbours
  simp only [previousIs, ends, nextIs]
  cases next with
  | none =>
    refine ⟨allocator, data.isReserved, by simp, ?_, rfl, ⟨rfl, rfl, rfl, rfl, rfl, rfl, id⟩⟩
    simp only [mergedStart, mergedSize, ← free]
    simpa using cut
  | some node =>
    have erased := (erase_two cut).2
    have beyond : Tiles byteLength (ptr + (data.size + node.2.size) * pageSize) right high := by
      have rest := rightTiles.2.2
      rwa [byteLength, byteLength, add_assoc, ← add_mul] at rest
    refine ⟨_, false, rfl, ?_, rfl, ⟨rfl, rfl, rfl, rfl, rfl, rfl, id⟩⟩
    have inserted := insert_merged (eraseNode (eraseNode allocator node.1) ptr) word leftTiles
      beyond (Nat.add_pos_left (Nat.pos_of_mul_pos_right positive) _) erased
    simpa [mergedStart, mergedSize, regionOf] using inserted

theorem merge_with_previous {neighbour : Nat × NodeData} (present : previous = some neighbour) :
    ∃ merged, mergeNeighbours allocator ptr ptr data.size =
        (merged, some (regionOf neighbour), next.map regionOf) ∧
      Merged allocator merged left (some neighbour) next right ptr data.size false := by
  have previousIs := previous_free_spec around word tiles cut
  subst present
  rcases tiles_cut.mp tiles with ⟨restTiles, positive, rightTiles⟩
  have previousTiles : Tiles byteLength low (left ++ (neighbour.1, neighbour.2) :: []) ptr :=
    restTiles
  rcases tiles_cut.mp previousTiles with ⟨leftTiles, previousPositive, atPtr⟩
  have order := tiles_low_le_high rightTiles
  have ends : add64 ptr (shl64 data.size 12) = ptr + byteLength data := range_end (by
    simp only [byteLength] at order
    omega)
  simp only [toList_some, append_assoc, singleton_append] at cut
  have erased := (erase_two cut).1
  have nextIs := next_free_spec (eraseNode (eraseNode allocator neighbour.1) ptr)
    around rightTiles erased (by
      intro node member
      have bounds := tiles_piece_bounds leftTiles member
      simp only [tiles_nil] at atPtr
      omega)
  have pagesPositive := Nat.pos_of_mul_pos_right positive
  have start : neighbour.1 + neighbour.2.size * pageSize = ptr := atPtr
  unfold mergeNeighbours
  simp only [previousIs, ends, map_some, regionOf, nextIs]
  cases next with
  | none =>
    have beyond : Tiles byteLength
        (neighbour.1 + (data.size + neighbour.2.size) * pageSize) right high := by
      have rest : Tiles byteLength (ptr + data.size * pageSize) right high := rightTiles
      rwa [← start, add_assoc, ← add_mul, add_comm neighbour.2.size] at rest
    refine ⟨_, rfl, ?_, rfl, ⟨rfl, rfl, rfl, rfl, rfl, rfl, id⟩⟩
    have inserted := insert_merged (eraseNode (eraseNode allocator neighbour.1) ptr) word
      leftTiles beyond (Nat.add_pos_left pagesPositive _) erased
    simpa [mergedStart, mergedSize, regionOf] using inserted
  | some node =>
    have withoutNext : (eraseNode (eraseNode (eraseNode allocator neighbour.1) ptr)
        node.1).allPagesTree.nodes = left ++ right := erase_nodes erased
    have beyond : Tiles byteLength
        (neighbour.1 + (data.size + neighbour.2.size + node.2.size) * pageSize) right high := by
      have rest : Tiles byteLength (ptr + data.size * pageSize + node.2.size * pageSize) right
        high := rightTiles.2.2
      rwa [← start, add_assoc, ← add_mul, add_assoc, ← add_mul,
        ← add_assoc, add_comm neighbour.2.size] at rest
    refine ⟨_, rfl, ?_, rfl, ⟨rfl, rfl, rfl, rfl, rfl, rfl, id⟩⟩
    have inserted := insert_merged _ word leftTiles beyond
      (Nat.add_pos_left (Nat.add_pos_left pagesPositive _) _) withoutNext
    simpa [mergedStart, mergedSize, regionOf] using inserted

theorem merge_neighbours_spec (free : data.isFree = true) :
    ∃ merged reserved, mergeNeighbours allocator ptr ptr data.size =
        (merged, previous.map regionOf, next.map regionOf) ∧
      Merged allocator merged left previous next right ptr data.size reserved := by
  cases present : previous with
  | none =>
    rcases merge_without_previous around word tiles cut present free with
      ⟨merged, reserved, call, result⟩
    exact ⟨merged, reserved, call, result⟩
  | some neighbour =>
    rcases merge_with_previous around word tiles cut present with ⟨merged, call, result⟩
    exact ⟨merged, false, call, result⟩

end Merge

theorem take_regions (allFree : ∀ node ∈ nodes, node.2.isFree = true) {rest : Nat → List Nat}
    (listed : ∀ size, (freeKeys allocator.freePagesTree size).Perm
      (regionsOfSize nodes size ++ rest size)) (size : Nat) :
    (freeKeys ((nodes.map regionOf).foldl
      (fun current region => takeFree current region.size region.start true)
      allocator).freePagesTree size).Perm (rest size) := by
  induction nodes generalizing allocator with
  | nil => simpa using listed size
  | cons node others ih =>
    have nodeFree := allFree node (by simp)
    have present : node.1 ∈ freeKeys allocator.freePagesTree node.2.size := by
      rw [(listed node.2.size).mem_iff]
      simp [nodeFree]
    apply ih (fun other member => allFree other (by simp [member]))
    intro other
    have taken := (free_keys_take_perm true present other).trans (listed other)
    rw [perm_iff_count] at taken ⊢
    intro start
    have counts := taken start
    simp only [regions_of_size_cons, nodeFree, true_and, count_append,
      eq_comm (a := node.2.size)] at counts
    simp only [regionOf, count_append]
    omega

theorem take_regions_books (regions : List Region) (allocator : RegionAllocator) :
    SameBooks allocator (regions.foldl
        (fun current region => takeFree current region.size region.start true) allocator) ∧
      (regions.foldl (fun current region => takeFree current region.size region.start true)
        allocator).allPagesTree = allocator.allPagesTree := by
  induction regions generalizing allocator with
  | nil => exact ⟨⟨rfl, rfl, rfl, rfl, rfl, rfl, id⟩, rfl⟩
  | cons region others ih =>
    have further := ih (takeFree allocator region.size region.start true)
    have step := take_free_books allocator region.size region.start true
    refine ⟨same_books_trans step further.1, ?_⟩
    rw [foldl_cons, further.2, take_free_pages_tree]

theorem pages_of_free_option {neighbour : Option (Nat × NodeData)}
    (free : ∀ node ∈ neighbour, node.2.isFree = true) :
    pagesOf neighbour.toList true = (neighbour.map fun node => node.2.size).getD 0 ∧
      pagesOf neighbour.toList false = 0 := by
  cases neighbour with
  | none => exact ⟨rfl, rfl⟩
  | some node => simp [free node rfl]

theorem return_region_replaces (invariant : RegionInvariant allocator)
    (around : Neighbours left previous next right) (used : data.isFree = false)
    (size : data.size = numPages) (cut : allocator.allPagesTree.nodes =
      left ++ previous.toList ++ (ptr, data) :: (next.toList ++ right)) :
    ∃ reserved, Replaces allocator (returnRegion allocator (ptr, data) ptr numPages) left
      (previous.toList ++ (ptr, data) :: next.toList)
      [(mergedStart previous ptr, ⟨mergedSize previous next numPages, true, reserved⟩)] right := by
  subst size
  have markedNodes : (markNode allocator (ptr, data) true).allPagesTree.nodes =
      left ++ previous.toList ++ (ptr, { data with isFree := true }) :: (next.toList ++ right) :=
    set_nodes cut _
  have tiles := invariant.tiles
  rw [cut, tiles_cut] at tiles
  have markedTiles : Tiles byteLength allocator.start (left ++ previous.toList ++
      (ptr, { data with isFree := true }) :: (next.toList ++ right)) allocator.limit :=
    tiles_cut.mpr tiles
  rcases merge_neighbours_spec around invariant.limitWord markedTiles markedNodes rfl with
    ⟨merged, reserved, call, result⟩
  refine ⟨reserved, ?_⟩
  have listed : ∀ size, (freeKeys merged.freePagesTree size).Perm
      (regionsOfSize (previous.toList ++ next.toList) size ++
        (regionsOfSize left size ++ regionsOfSize right size)) := by
    intro size
    have keys := invariant.listed size
    rw [cut] at keys
    rw [result.lists]
    rw [perm_iff_count] at keys ⊢
    intro start
    have counts := keys start
    simp only [regions_of_size_append, regions_of_size_cons, used, Bool.false_eq_true, false_and,
      if_false, nil_append, count_append] at counts ⊢
    simp only [markNode]
    omega
  have allFree : ∀ node ∈ previous.toList ++ next.toList, node.2.isFree = true := by
    intro node member
    rcases mem_append.mp member with before | after
    · exact around.previousFree node (by simpa using before)
    · exact around.nextFree node (by simpa using after)
  have takenKeys := take_regions allFree listed
  have takenBooks := take_regions_books ((previous.toList ++ next.toList).map regionOf) merged
  have regions : (previous.map regionOf).toList ++ (next.map regionOf).toList =
      (previous.toList ++ next.toList).map regionOf := by
    cases previous <;> cases next <;> rfl
  have start : ((previous.map regionOf).map Region.start).getD ptr = mergedStart previous ptr := by
    cases previous <;> rfl
  have size : data.size + ((previous.map regionOf).map Region.size).getD 0 +
      ((next.map regionOf).map Region.size).getD 0 = mergedSize previous next data.size := by
    cases previous <;> cases next <;> rfl
  unfold returnRegion
  simp only [call, regions, start, size]
  generalize ((previous.toList ++ next.toList).map regionOf).foldl
    (fun current region => takeFree current region.size region.start true) merged = taken
    at takenKeys takenBooks ⊢
  have books := same_books_trans result.books takenBooks.1
  have previousPages := pages_of_free_option around.previousFree
  have nextPages := pages_of_free_option around.nextFree
  have word := invariant.limitWord
  have counted := invariant.freeCount
  have usedCounted := invariant.usedCount
  have totalPages := pages_total invariant.tiles
  rw [← counted, ← usedCounted] at totalPages
  simp only [pageSize] at totalPages
  rw [cut] at usedCounted
  simp only [pages_of_append, pages_of_cons, used, if_true] at usedCounted
  refine ⟨books.start, books.limit, books.reserved, books.total, by simp [cut], ?_, ?_, ?_, ?_, ?_⟩
  · rw [countFreed, takenBooks.2, result.nodes]
    rfl
  · intro other
    have counts := takenKeys other
    have oldKeys := invariant.listed other
    rw [cut] at oldKeys
    simp only [countFreed, free_keys_push]
    rw [perm_iff_count] at counts oldKeys ⊢
    intro key
    have freed := counts key
    have old := oldKeys key
    simp only [regions_of_size_append, regions_of_size_cons, regions_of_size_nil, used,
      Bool.false_eq_true, false_and, if_false, true_and, nil_append, append_nil,
      count_append, eq_comm (a := mergedSize previous next data.size)] at freed old ⊢
    omega
  · exact (push_books books _ _ _).noEmptyList
  · have sum : add64 allocator.freePageCount data.size = allocator.freePageCount + data.size :=
      add64_of_lt (by omega)
    simp only [countFreed, books.free, markNode, sum, pages_of_append, pages_of_cons, pages_of_nil,
      previousPages.1, nextPages.1, used, mergedSize]
    simp
    omega
  · have difference : sub64 allocator.usedPageCount data.size =
        allocator.usedPageCount - data.size := sub64_of_le (by omega) (by omega)
    simp only [countFreed, books.used, markNode, difference, pages_of_append, pages_of_cons,
      pages_of_nil, previousPages.2, nextPages.2, used]
    simp
    omega

theorem merged_tiles {reserved : Bool} (size : data.size = numPages)
    (tiles : Tiles byteLength low (previous.toList ++ (ptr, data) :: next.toList) high) :
    Tiles byteLength low
      [(mergedStart previous ptr, ⟨mergedSize previous next numPages, true, reserved⟩)] high := by
  subst size
  have positive : 0 < mergedSize previous next data.size * pageSize := by
    have bounds := (tiles_piece_bounds tiles (show (ptr, data) ∈ _ by simp)).2.1
    have pages : 0 < data.size := Nat.pos_of_mul_pos_right bounds
    exact mul_pos (by unfold mergedSize; omega) (by decide)
  rcases tiles_cut.mp tiles with ⟨previousTiles, _, nextTiles⟩
  have start : mergedStart previous ptr = low ∧
      low + ((previous.map fun node => node.2.size).getD 0) * pageSize = ptr := by
    cases previous with
    | none => exact ⟨previousTiles.symm, by simpa using previousTiles⟩
    | some node => exact ⟨previousTiles.1, previousTiles.2.2⟩
  have ends : ptr + data.size * pageSize +
      ((next.map fun node => node.2.size).getD 0) * pageSize = high := by
    cases next with
    | none => simpa [byteLength] using nextTiles
    | some node => exact nextTiles.2.2
  refine ⟨start.1, positive, ?_⟩
  change low + mergedSize previous next data.size * pageSize = high
  rw [mergedSize, add_mul, add_mul]
  omega

theorem return_region_spec {back : List (Nat × NodeData)} (invariant : RegionInvariant allocator)
    (used : data.isFree = false) (size : data.size = numPages)
    (cut : allocator.allPagesTree.nodes = front ++ (ptr, data) :: back) :
    RegionInvariant (returnRegion allocator (ptr, data) ptr numPages) ∧
      ∃ left previous next right reserved, Neighbours left previous next right ∧
        Replaces allocator (returnRegion allocator (ptr, data) ptr numPages) left
          (previous.toList ++ (ptr, data) :: next.toList)
          [(mergedStart previous ptr, ⟨mergedSize previous next numPages, true, reserved⟩)]
          right := by
  have chain := invariant.coalesced
  rw [cut] at chain
  rcases chain_around chain with ⟨frontChain, backChain, _, _⟩
  rcases exists_free_end frontChain with ⟨left, previous, frontIs, previousFree, leftUsed⟩
  rcases exists_free_head backChain with ⟨next, right, backIs, nextFree, rightUsed⟩
  subst frontIs backIs
  have around : Neighbours left previous next right := ⟨previousFree, nextFree, leftUsed, rightUsed⟩
  rcases return_region_replaces invariant around used size cut with ⟨reserved, replaces⟩
  refine ⟨?_, left, previous, next, right, reserved, around, replaces⟩
  apply replaces_keeps_invariant invariant replaces (fun low high => merged_tiles size)
  exact chain_between_used (isChain_append.mp frontChain).1
    (isChain_append.mp backChain).2.1 (by simp) leftUsed rightUsed

theorem free_pages_keeps_invariant (exact : Bool) (invariant : RegionInvariant allocator)
    (positive : 0 < numPages) (aligned : pageSize ∣ ptr)
    (noWrap : ptr + numPages * pageSize < 2 ^ 64) :
    RegionInvariant (freePages allocator ptr numPages exact) := by
  unfold freePages
  rcases region_to_free_spec exact invariant positive aligned noWrap with refused | accepted
  · rw [refused]
    exact invariant
  rcases accepted with
    ⟨isolated, left, right, key, pages, node, call, used, address, fits, _, replaces⟩
  rw [call]
  have isolatedInvariant := split_used_keeps_invariant invariant used positive fits replaces
  have nodes := replaces.newNodes
  rw [carved_of_used used, ← address] at nodes
  have cut : isolated.allPagesTree.nodes = (left ++ remainder key pages node) ++
      (ptr, { node with size := numPages }) ::
        (remainder (ptr + numPages * pageSize) (node.size - pages - numPages) node ++ right) := by
    simpa using nodes
  have stillUsed : ({ node with size := numPages } : NodeData).isFree = false := used
  exact (return_region_spec isolatedInvariant stillUsed rfl cut).1

end Free

/-! ## Runs -/

/-- A call of the allocator's interface. -/
inductive RegionCall
  | allocatePages (numPages : Nat)
  | allocatePagesAt (ptr numPages : Nat)
  | freePages (ptr numPages : Nat) (exact : Bool)
  | resizeAllocatedRegion (ptr numPages newStart newNumPages : Nat)
deriving DecidableEq, Repr

namespace RegionCall

def Legal : RegionCall → Prop
  | .allocatePages numPages => 0 < numPages
  | .allocatePagesAt ptr numPages =>
    0 < numPages ∧ pageSize ∣ ptr ∧ ptr + numPages * pageSize < 2 ^ 64
  | .freePages ptr numPages _ =>
    0 < numPages ∧ pageSize ∣ ptr ∧ ptr + numPages * pageSize < 2 ^ 64
  | .resizeAllocatedRegion ptr numPages newStart newNumPages =>
    0 < newNumPages ∧
      ((pageSize ∣ newStart ∧ ptr ≤ newStart ∧
          newStart + newNumPages * pageSize ≤ ptr + numPages * pageSize) ∨
        (newStart ≤ ptr ∧ newNumPages ≤ numPages))

instance : DecidablePred Legal := fun call => by
  cases call <;> unfold Legal <;> infer_instance

def apply (allocator : RegionAllocator) : RegionCall → Option RegionAllocator
  | .allocatePages numPages => (Memory.allocatePages allocator numPages).map Prod.fst
  | .allocatePagesAt ptr numPages => (Memory.allocatePagesAt allocator ptr numPages).map Prod.fst
  | .freePages ptr numPages exact => some (Memory.freePages allocator ptr numPages exact)
  | .resizeAllocatedRegion ptr numPages newStart newNumPages =>
    some (Memory.resizeAllocatedRegion allocator ptr numPages newStart newNumPages).1

variable {allocator : RegionAllocator}

theorem apply_keeps_invariant (invariant : RegionInvariant allocator) {call : RegionCall}
    (legal : call.Legal) : ∃ after, call.apply allocator = some after ∧ RegionInvariant after := by
  cases call with
  | allocatePages numPages =>
    rcases allocate_pages_spec invariant legal with ⟨failed, _⟩ | done
    · exact ⟨allocator, by simp [apply, failed], invariant⟩
    · rcases done with ⟨after, ptr, left, right, data, result, carves, _⟩
      exact ⟨after, by simp [apply, result], carves_keeps_invariant invariant legal carves⟩
  | allocatePagesAt ptr numPages =>
    rcases legal with ⟨positive, aligned, noWrap⟩
    rcases allocate_pages_at_spec invariant positive aligned noWrap with failed | done
    · exact ⟨allocator, by simp [apply, failed], invariant⟩
    · rcases done with ⟨after, left, right, key, pages, data, result, carves⟩
      exact ⟨after, by simp [apply, result], carves_keeps_invariant invariant positive carves⟩
  | freePages ptr numPages exact =>
    rcases legal with ⟨positive, aligned, noWrap⟩
    exact ⟨_, rfl, free_pages_keeps_invariant exact invariant positive aligned noWrap⟩
  | resizeAllocatedRegion ptr numPages newStart newNumPages =>
    rcases legal with ⟨positive, inside⟩
    refine ⟨_, rfl, ?_⟩
    rcases resize_allocated_region_spec invariant positive inside with failed | done
    · rw [failed]
      exact invariant
    · rcases done with ⟨after, left, right, pages, data, result, used, _, fits, _, replaces⟩
      rw [result]
      exact split_used_keeps_invariant invariant used positive fits replaces

def applyAll (allocator : RegionAllocator) (calls : List RegionCall) : Option RegionAllocator :=
  calls.foldlM apply allocator

theorem apply_all_keeps_invariant (invariant : RegionInvariant allocator) {calls : List RegionCall}
    (legal : ∀ call ∈ calls, call.Legal) :
    ∃ final, applyAll allocator calls = some final ∧ RegionInvariant final := by
  induction calls generalizing allocator with
  | nil => exact ⟨allocator, rfl, invariant⟩
  | cons call rest ih =>
    rcases apply_keeps_invariant invariant (legal call (by simp)) with ⟨next, step, nextInvariant⟩
    rcases ih nextInvariant (fun other member => legal other (by simp [member])) with
      ⟨final, run, finalInvariant⟩
    refine ⟨final, ?_, finalInvariant⟩
    simpa [applyAll, step] using run

end RegionCall

theorem init_region_invariant {start limit : Nat}
    (nonempty : (initRegion start limit).start < (initRegion start limit).limit) :
    RegionInvariant (initRegion start limit) := by
  have lowAligned : pageSize ∣ alignDown start pageSize := alignDown_dvd start pageSize
  have highAligned : pageSize ∣ alignUp limit pageSize := alignUp_dvd limit (by decide)
  have highWord : alignUp limit pageSize < 2 ^ 64 := mul64_lt _ _
  have order : alignDown start pageSize < alignUp limit pageSize := nonempty
  unfold initRegion
  generalize alignDown start pageSize = low at lowAligned order ⊢
  generalize alignUp limit pageSize = high at highAligned highWord order ⊢
  have someSpan : ¬ (low = 0 ∧ high = 0) := by omega
  have span : sub64 high low = high - low := sub64_of_le highWord order.le
  have whole : (high - low) / pageSize * pageSize = high - low :=
    Nat.div_mul_cancel (Nat.dvd_sub highAligned lowAligned)
  simp only [someSpan, if_false, span]
  generalize (high - low) / pageSize = pages at whole ⊢
  have small : pages % 2 ^ 62 = pages := by
    apply Nat.mod_eq_of_lt
    simp only [pageSize] at whole
    omega
  have positive : 0 < pages := Nat.pos_of_mul_pos_right (show 0 < pages * pageSize by omega)
  rw [small]
  have nodes : (empty.insert low (⟨pages, true, false⟩ : NodeData)).nodes =
      [(low, ⟨pages, true, false⟩)] := rfl
  refine ⟨lowAligned, highWord, ?_, ?_, ?_, ?_, ?_, ?_, rfl⟩
  · rw [nodes]
    refine ⟨rfl, mul_pos positive (by decide), ?_⟩
    change low + pages * pageSize = high
    omega
  · rw [nodes]
    simp
  · intro size
    rw [nodes]
    simp only [freeKeys, find_insert_of_none _ (find_empty pages)]
    by_cases same : size = pages
    · simp [same, insertNode]
    · simp [same, Ne.symm same]
  · intro size list found
    rw [find_insert_of_none _ (find_empty pages)] at found
    split_ifs at found
    · simp only [insertNode, nil_append, some.injEq] at found
      simp [← found]
    · simp at found
  · rw [nodes]
    simp
  · rw [nodes]
    simp

/-- Every finite sequence of legal calls on an allocator started by `Init`
returns and leaves it with its invariant. -/
theorem region_allocator_invariant (start limit : Nat)
    (nonempty : (initRegion start limit).start < (initRegion start limit).limit)
    (calls : List RegionCall) (legal : ∀ call ∈ calls, call.Legal) :
    ∃ final, RegionCall.applyAll (initRegion start limit) calls = some final ∧
      RegionInvariant final :=
  RegionCall.apply_all_keeps_invariant (init_region_invariant nonempty) legal

theorem region_allocator_split_and_merge :
    ∃ final, RegionCall.applyAll (initRegion 0x1000 0x10000)
        [.allocatePages 3, .allocatePagesAt 0x8000 2, .freePages 0x2000 1 false,
          .resizeAllocatedRegion 0x8000 2 0x9000 1, .freePages 0x9000 1 true,
          .freePages 0x8000 1 true] = some final ∧
      RegionInvariant final :=
  region_allocator_invariant 0x1000 0x10000 (by decide) _ (by decide)

end FrostyKernel.Memory
