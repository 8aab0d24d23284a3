import FrostyKernel.Memory.RegionInvariant

/-!
# Allocating and resizing regions

Each operation either leaves the allocator as it is or replaces one region: an
allocation carves used pages out of a free region, and a resize, or the first
step of a free, splits a used region.
-/

namespace FrostyKernel.Memory

open Word List OrderedMap

/-! ## Coalesced regions -/

section Coalesced
variable {left new right : List (Nat × NodeData)}

theorem chain_between_used (leftChain : left.IsChain NotBothFree)
    (rightChain : right.IsChain NotBothFree) (newChain : new.IsChain NotBothFree)
    (leftUsed : ∀ node ∈ left.getLast?, node.2.isFree = false)
    (rightUsed : ∀ node ∈ right.head?, node.2.isFree = false) :
    (left ++ (new ++ right)).IsChain NotBothFree := by
  rw [isChain_append, isChain_append]
  refine ⟨leftChain, ⟨newChain, rightChain, ?_⟩, ?_⟩
  · intro node _ next first both
    simp [rightUsed next first] at both
  · intro node last next _ both
    simp [leftUsed node last] at both

theorem chain_of_used (leftChain : left.IsChain NotBothFree)
    (rightChain : right.IsChain NotBothFree) (nonempty : new ≠ [])
    (allUsed : ∀ node ∈ new, node.2.isFree = false) :
    (left ++ (new ++ right)).IsChain NotBothFree := by
  have newChain : new.IsChain NotBothFree := by
    apply List.Pairwise.isChain
    apply pairwise_of_forall_mem_list
    intro node member other _ both
    simp [allUsed node member] at both
  rw [isChain_append, isChain_append]
  refine ⟨leftChain, ⟨newChain, rightChain, ?_⟩, ?_⟩
  · intro node last next _ both
    simp [allUsed node (mem_of_getLast? last)] at both
  · intro node _ next first both
    rw [head?_append_of_ne_nil _ nonempty] at first
    simp [allUsed next (mem_of_head? first)] at both

end Coalesced

variable {left right : List (Nat × NodeData)} {key numPages pages : Nat} {node : Nat × NodeData}
  {data : NodeData}

/-- What the chain says around one of its regions. -/
theorem chain_around (chain : (left ++ node :: right).IsChain NotBothFree) :
    left.IsChain NotBothFree ∧ right.IsChain NotBothFree ∧
      (∀ other ∈ left.getLast?, NotBothFree other node) ∧
      ∀ other ∈ right.head?, NotBothFree node other := by
  rw [isChain_append, isChain_cons] at chain
  exact ⟨chain.1, chain.2.1.2, fun other last => chain.2.2 other last node (by simp), chain.2.1.1⟩

/-! ## Carving used pages out of a free region -/

/-- The regions that replace a free region when `numPages` pages, `pages` pages
into it, become used. -/
def carved (key pages numPages : Nat) (data : NodeData) : List (Nat × NodeData) :=
  remainder key pages data ++
    (key + pages * pageSize, { data with size := numPages, isFree := false }) ::
      remainder (key + pages * pageSize + numPages * pageSize) (data.size - pages - numPages) data

/-- An allocation of `numPages` pages at `ptr`. -/
structure Carves (before after : RegionAllocator) (ptr numPages : Nat)
    (left right : List (Nat × NodeData)) (key pages : Nat) (data : NodeData) : Prop where
  free : data.isFree = true
  address : ptr = key + pages * pageSize
  fits : pages + numPages ≤ data.size
  replaces : Replaces before after left [(key, data)] (carved key pages numPages data) right

theorem regions_of_size_remainder (free : data.isFree = true) (key pages size : Nat) :
    regionsOfSize (remainder key pages data) size =
      if 0 < pages ∧ size = pages then [key] else [] := by
  rcases eq_zero_or_pos pages with none | positive
  · simp [none]
  · simp [remainder_of_pos positive, free, positive, eq_comm]

theorem pages_of_remainder (key pages : Nat) (data : NodeData) (isFree : Bool) :
    pagesOf (remainder key pages data) isFree = if data.isFree = isFree then pages else 0 := by
  rcases eq_zero_or_pos pages with none | positive
  · simp [none]
  · simp [remainder_of_pos positive]

theorem remainder_flags {size : Nat} (member : node ∈ remainder key size data) :
    node.2.isFree = data.isFree := by
  unfold remainder at member
  split_ifs at member
  · simp at member
  · rw [mem_singleton.mp member]

theorem carved_tiles (positive : 0 < numPages) (fits : pages + numPages ≤ data.size)
    (low high : Nat) (tiles : Tiles byteLength low [(key, data)] high) :
    Tiles byteLength low (carved key pages numPages data) high := by
  have atKey : key = low := tiles.1
  have ends : low + byteLength data = high := tiles.2.2
  subst atKey
  apply tiles_remainder
  refine ⟨rfl, mul_pos positive (by decide), ?_⟩
  have whole : data.size * pageSize = pages * pageSize + numPages * pageSize +
      (data.size - pages - numPages) * pageSize := by
    rw [← add_mul, ← add_mul]
    congr 1
    omega
  have last : Tiles byteLength (key + pages * pageSize + numPages * pageSize +
      (data.size - pages - numPages) * pageSize) [] high := by
    change _ = high
    simp only [byteLength] at ends
    omega
  have spare : Tiles byteLength (key + pages * pageSize + numPages * pageSize)
      (remainder (key + pages * pageSize + numPages * pageSize) (data.size - pages - numPages) data
        ++ []) high := tiles_remainder last
  rw [append_nil] at spare
  exact spare

theorem remainder_chain (key size : Nat) (data : NodeData) :
    (remainder key size data).IsChain NotBothFree := by
  unfold remainder
  split <;> simp

theorem carves_keeps_invariant {before after : RegionAllocator} {ptr : Nat}
    (invariant : RegionInvariant before) (positive : 0 < numPages)
    (carves : Carves before after ptr numPages left right key pages data) :
    RegionInvariant after := by
  apply replaces_keeps_invariant invariant carves.replaces (carved_tiles positive carves.fits)
  have around := invariant.coalesced
  rw [carves.replaces.oldNodes] at around
  rcases chain_around around with ⟨leftChain, rightChain, leftEnd, rightStart⟩
  have usedNeighbour : ∀ node : Nat × NodeData, ∀ other : Nat × NodeData,
      other.2.isFree = true → (NotBothFree node other ∨ NotBothFree other node) →
        node.2.isFree = false := by
    intro node other free apart
    simp only [NotBothFree, free, and_true, true_and, or_self, Bool.not_eq_true] at apart
    exact apart
  apply chain_between_used leftChain rightChain
  · have middle := chain_of_used (remainder_chain key pages data)
      (remainder_chain (key + pages * pageSize + numPages * pageSize)
        (data.size - pages - numPages) data)
      (cons_ne_nil (key + pages * pageSize, { data with size := numPages, isFree := false }) [])
      (by simp)
    simpa [carved] using middle
  · intro node last
    exact usedNeighbour node _ carves.free (.inl (leftEnd node last))
  · intro node first
    exact usedNeighbour node _ carves.free (.inr (rightStart node first))

/-! ## Allocation -/

section Allocate
variable {allocator : RegionAllocator} {left right : List (Nat × NodeData)}
  {key pages numPages : Nat} {data : NodeData} {ptr : Nat}

theorem pages_fit {pages size : Nat} (address : ptr = key + pages * pageSize)
    (inside : ptr + numPages * pageSize ≤ key + size * pageSize) : pages + numPages ≤ size := by
  apply Nat.le_of_mul_le_mul_right _ (show 0 < pageSize by decide)
  rw [add_mul]
  omega

theorem range_end (noWrap : ptr + numPages * pageSize < 2 ^ 64) :
    add64 ptr (shl64 numPages 12) = ptr + numPages * pageSize := by
  simp only [pageSize] at noWrap ⊢
  rw [shl64_of_lt (show numPages * 2 ^ 12 < 2 ^ 64 by omega)]
  exact add64_of_lt (by omega)

theorem find_node_or_lower_of_cut (cut : allocator.allPagesTree.nodes =
    left ++ (key, data) :: right) :
    allocator.allPagesTree.findNodeOrLower key = some (key, data) := by
  apply find_node_or_lower_some_iff.mpr
  exact ⟨find_of_cut cut, le_rfl, fun _ _ order => order⟩

section
variable (allocator : RegionAllocator) (node : Nat × NodeData)

theorem list_front_books (ptr : Nat) : SameBooks allocator (listFront allocator node ptr).1 := by
  have books := split_front_books allocator node ptr
  unfold listFront
  simp only
  split
  · exact push_books books _ _ _
  · exact books

theorem list_back_books (pages : Nat) : SameBooks allocator (listBack allocator node pages).1 := by
  have books := split_back_books allocator node pages
  unfold listBack
  simp only
  split
  · exact push_books books _ _ _
  · exact books

theorem pop_free_books (size : Nat) (node : ListNode) (rest : List ListNode) (pages : Nat) :
    SameBooks allocator (popFree allocator size node rest pages) ∧
      (popFree allocator size node rest pages).allPagesTree = allocator.allPagesTree := by
  have popped : SameBooks allocator
      { allocator with
        freePagesTree := putList allocator.freePagesTree size rest
        released := allocator.released ++ [⟨node.heap, .vmm⟩] } :=
    ⟨rfl, rfl, rfl, rfl, rfl, rfl, fun noEmpty => no_empty_list_put noEmpty size rest⟩
  unfold popFree
  simp only
  split
  · exact ⟨push_books popped _ _ _, rfl⟩
  · exact ⟨popped, rfl⟩

end

theorem pop_free_keys {size : Nat} {node : ListNode} {rest : List ListNode}
    (lookup : allocator.freePagesTree.find? size = some (node :: rest))
    (noWrap : node.data + numPages * pageSize < 2 ^ 64) (other : Nat) :
    (freeKeys (popFree allocator size node rest numPages).freePagesTree other ++
        (if other = size then [node.data] else [])).Perm
      (freeKeys allocator.freePagesTree other ++
        if 0 < size - numPages ∧ other = size - numPages then
          [node.data + numPages * pageSize] else []) := by
  have popped : (freeKeys (putList allocator.freePagesTree size rest) other ++
      (if other = size then [node.data] else [])).Perm
        (freeKeys allocator.freePagesTree other) := by
    rw [free_keys_put lookup]
    split_ifs with same
    · rw [same, free_keys_of_find lookup]
      exact perm_append_singleton _ _
    · simp
  unfold popFree
  rw [range_end noWrap]
  by_cases less : numPages < size
  · simp only [if_pos less, free_keys_push, Nat.sub_pos_of_lt less, true_and]
    rw [perm_iff_count] at popped ⊢
    intro start
    have counts := popped start
    simp only [count_append] at counts ⊢
    omega
  · have nothing : size - numPages = 0 := by omega
    simpa only [if_neg less, nothing, lt_irrefl, false_and, if_false, append_nil] using popped

section Located
variable (word : allocator.limit < 2 ^ 64)
  (tiles : Tiles byteLength allocator.start allocator.allPagesTree.nodes allocator.limit)
  (cut : allocator.allPagesTree.nodes = left ++ (key, data) :: right)
include word tiles cut

theorem list_front_spec (less : pages < data.size) :
    (listFront allocator (key, data) (key + pages * pageSize)).2 = tailOf key data pages ∧
      (listFront allocator (key, data) (key + pages * pageSize)).1.allPagesTree.nodes =
        left ++ (remainder key pages data ++ tailOf key data pages :: right) ∧
      ∀ size, freeKeys (listFront allocator (key, data) (key + pages * pageSize)).1.freePagesTree
          size = freeKeys allocator.freePagesTree size ++
        if 0 < pages ∧ size = pages then [key] else [] := by
  have front := split_front_spec word tiles cut less
  have count : (key + pages * pageSize - key) / pageSize = pages := by
    rw [Nat.add_sub_cancel_left, Nat.mul_div_cancel _ (by decide)]
  unfold listFront
  rcases eq_zero_or_pos pages with none | positive
  · subst none
    simpa using front
  · have gap : key < key + pages * pageSize :=
      Nat.lt_add_of_pos_right (mul_pos positive (by decide))
    simp only [gap, if_true, positive, true_and, free_keys_push, split_front_free_pages_tree, count]
    exact ⟨front.1, front.2, fun _ => trivial⟩

theorem list_back_spec (positive : 0 < numPages) (fits : numPages ≤ data.size) :
    (listBack allocator (key, data) numPages).2 = { data with size := numPages } ∧
      (listBack allocator (key, data) numPages).1.allPagesTree.nodes =
        left ++ (key, { data with size := numPages }) ::
          (remainder (key + numPages * pageSize) (data.size - numPages) data ++ right) ∧
      ∀ size, freeKeys (listBack allocator (key, data) numPages).1.freePagesTree size =
        freeKeys allocator.freePagesTree size ++
          if 0 < data.size - numPages ∧ size = data.size - numPages then
            [key + numPages * pageSize] else [] := by
  have back := split_back_spec word tiles cut positive fits
  unfold listBack
  rcases eq_or_lt_of_le fits with exact | less
  · subst exact
    simpa using back
  · have arithmetic := split_arithmetic word tiles cut less
    have spare : 0 < data.size - numPages := by omega
    simp only [less, if_true, spare, true_and, free_keys_push, split_back_free_pages_tree,
      arithmetic.1, arithmetic.2.2]
    exact ⟨back.1, back.2, fun _ => trivial⟩

end Located

section Cut
variable (invariant : RegionInvariant allocator)
  (cut : allocator.allPagesTree.nodes = left ++ (key, data) :: right)
include invariant cut

theorem region_end : add64 key (shl64 data.size 12) = key + data.size * pageSize := by
  have bounds := region_bounds invariant (mem_of_cut cut)
  have word := invariant.limitWord
  exact range_end (by omega)

/-- The regions tile the same interval when one of them is split. -/
theorem split_tiles {front : RegionAllocator} (less : pages < data.size)
    (books : SameBooks allocator front)
    (nodes : front.allPagesTree.nodes = (left ++ remainder key pages data) ++
      tailOf key data pages :: right) :
    Tiles byteLength front.start front.allPagesTree.nodes front.limit := by
  have whole := invariant.tiles
  rw [cut] at whole
  have parts := tiles_exchange (tiles_split less) whole
  rw [nodes, books.start, books.limit]
  simpa using parts

section
variable (free : data.isFree = true)
include free

/-- A free region is listed under its size. -/
theorem listed_of_free : key ∈ freeKeys allocator.freePagesTree data.size := by
  rw [(invariant.listed data.size).mem_iff, mem_regions_of_size]
  exact ⟨data, by rw [cut]; simp, free, rfl⟩

theorem carves_of_marked {sized : RegionAllocator} (fits : pages + numPages ≤ data.size)
    (books : SameBooks allocator sized)
    (nodes : sized.allPagesTree.nodes = (left ++ remainder key pages data) ++
      (key + pages * pageSize, { data with size := numPages }) ::
        (remainder (key + pages * pageSize + numPages * pageSize)
          (data.size - pages - numPages) data ++ right))
    (keys : ∀ size, (freeKeys sized.freePagesTree size ++
        (if size = data.size then [key] else [])).Perm
      (freeKeys allocator.freePagesTree size ++
        (if 0 < pages ∧ size = pages then [key] else []) ++
        if 0 < data.size - pages - numPages ∧ size = data.size - pages - numPages then
          [key + pages * pageSize + numPages * pageSize] else [])) :
    Carves allocator
      (countUsed (markNode sized
        (key + pages * pageSize, { data with size := numPages }) false) numPages)
      (key + pages * pageSize) numPages left right key pages data := by
  have bounds := region_bounds invariant (mem_of_cut cut)
  have counted := invariant.freeCount
  have usedCounted := invariant.usedCount
  have totalPages := pages_total invariant.tiles
  have word := invariant.limitWord
  simp only [pageSize] at totalPages
  rw [cut] at counted usedCounted totalPages
  simp only [pages_of_append, pages_of_cons, free, if_true] at counted usedCounted totalPages
  refine ⟨free, rfl, fits, ⟨books.start, books.limit, books.reserved, books.total, ?_, ?_, ?_,
    books.noEmptyList, ?_, ?_⟩⟩
  · simpa using cut
  · have marked := set_nodes nodes { data with size := numPages, isFree := false }
    simpa [countUsed, markNode, carved] using marked
  · intro size
    have counts := keys size
    simp only [countUsed, markNode, carved, regions_of_size_append, regions_of_size_cons,
      regions_of_size_nil, regions_of_size_remainder free, free, eq_comm]
    simpa [eq_comm] using counts
  · have freed : sub64 allocator.freePageCount numPages = allocator.freePageCount - numPages :=
      sub64_of_le (by omega) (by omega)
    simp only [countUsed, markNode, books.free, freed, carved, pages_of_append, pages_of_cons,
      pages_of_nil, pages_of_remainder, free]
    simp
    omega
  · have taken : add64 allocator.usedPageCount numPages = allocator.usedPageCount + numPages :=
      add64_of_lt (by omega)
    simp only [countUsed, markNode, books.used, taken, carved, pages_of_append, pages_of_cons,
      pages_of_nil, pages_of_remainder, free]
    simp

/-- `AllocatePages(ptr, numPages)` takes a free region off its list, lists what
it does not need of it and marks the pages at `ptr` used. -/
theorem allocate_pages_at_carves (positive : 0 < numPages) (fits : pages + numPages ≤ data.size)
    (found : allocator.allPagesTree.findNodeOrLower (key + pages * pageSize) = some (key, data)) :
    ∃ after, allocatePagesAt allocator (key + pages * pageSize) numPages =
        some (after, key + pages * pageSize) ∧
      Carves allocator after (key + pages * pageSize) numPages left right key pages data := by
  have bounds := region_bounds invariant (mem_of_cut cut)
  have word := invariant.limitWord
  have whole : (pages + numPages) * pageSize ≤ data.size * pageSize :=
    Nat.mul_le_mul_right pageSize fits
  rw [add_mul] at whole
  have listed := listed_of_free invariant cut free
  have present : allocator.freePagesTree.find? data.size ≠ none := by
    intro absent
    simp [free_keys_of_none absent] at listed
  have accepted : ¬ (data.isFree = false ∨ key + data.size * pageSize <
      key + pages * pageSize + numPages * pageSize) := by
    simp only [free, Bool.true_eq_false, false_or, not_lt]
    omega
  have takenBooks := take_free_books allocator data.size key false
  have takenKeys := free_keys_take_perm false listed
  have takenNodes := take_free_pages_tree allocator data.size key false
  unfold allocatePagesAt
  simp only [found]
  rw [region_end invariant cut, range_end (by omega), if_neg accepted, if_neg present]
  generalize takeFree allocator data.size key false = taken at *
  have takenTiles := invariant.tiles
  rw [← takenNodes, ← takenBooks.start, ← takenBooks.limit] at takenTiles
  have front := list_front_spec (takenBooks.limit ▸ word) takenTiles (takenNodes ▸ cut)
    (show pages < data.size by omega)
  have frontBooks := list_front_books taken (key, data) (key + pages * pageSize)
  generalize listFront taken (key, data) (key + pages * pageSize) = call at front frontBooks ⊢
  rcases call with ⟨isolated, node⟩
  rcases front with ⟨nodeSame, frontNodes, frontKeys⟩
  subst nodeSame
  have isolatedBooks := same_books_trans takenBooks frontBooks
  rw [← append_assoc] at frontNodes
  have isolatedTiles := split_tiles invariant cut (by omega) isolatedBooks frontNodes
  have back := list_back_spec (isolatedBooks.limit ▸ word) isolatedTiles frontNodes positive
    (show numPages ≤ data.size - pages by omega)
  have backBooks := list_back_books isolated (tailOf key data pages) numPages
  simp only
  generalize listBack isolated (tailOf key data pages) numPages = call at back backBooks ⊢
  rcases call with ⟨sized, sizedData⟩
  rcases back with ⟨dataSame, backNodes, backKeys⟩
  subst dataSame
  refine ⟨_, rfl, carves_of_marked invariant cut free fits
    (same_books_trans isolatedBooks backBooks) backNodes ?_⟩
  intro size
  have takenCounts := takenKeys size
  rw [backKeys size, frontKeys size]
  rw [perm_iff_count] at takenCounts ⊢
  intro start
  have counts := takenCounts start
  simp only [count_append] at counts ⊢
  omega

theorem mark_allocated_carves {returned : RegionAllocator} (positive : 0 < numPages)
    (fits : numPages ≤ data.size) (books : SameBooks allocator returned)
    (sameNodes : returned.allPagesTree = allocator.allPagesTree)
    (keys : ∀ size, (freeKeys returned.freePagesTree size ++
        (if size = data.size then [key] else [])).Perm
      (freeKeys allocator.freePagesTree size ++
        if 0 < data.size - numPages ∧ size = data.size - numPages then
          [key + numPages * pageSize] else [])) :
    (markAllocated returned key numPages).2 = key ∧
      Carves allocator (markAllocated returned key numPages).1 key numPages left right key 0
        data := by
  have returnedCut := cut
  rw [← sameNodes] at returnedCut
  have tiles := invariant.tiles
  rw [← sameNodes, ← books.start, ← books.limit] at tiles
  have back := split_back_spec (books.limit ▸ invariant.limitWord) tiles returnedCut positive fits
  have backBooks := split_back_books returned (key, data) numPages
  have backTree := split_back_free_pages_tree returned (key, data) numPages
  have front : splitFront returned (key, data) key = (returned, (key, data)) := by
    simp [splitFront]
  unfold markAllocated
  simp only [find_node_or_lower_of_cut returnedCut, front, free, Bool.true_eq_false, if_false]
  generalize splitBack returned (key, data) numPages = call at back backBooks backTree ⊢
  rcases call with ⟨sized, sizedData⟩
  rcases back with ⟨dataSame, backNodes⟩
  simp only at dataSame backNodes backBooks backTree
  subst dataSame
  refine ⟨trivial, ?_⟩
  have carves := carves_of_marked invariant cut free (by omega : 0 + numPages ≤ data.size)
    (same_books_trans books backBooks) (by simpa using backNodes)
    (by simpa [backTree] using keys)
  simpa using carves

end

/-- The page index of an aligned address inside a region that starts at `key`. -/
theorem aligned_offset {ptr : Nat} (aligned : pageSize ∣ ptr) (order : key ≤ ptr) :
    ptr = key + (ptr - key) / pageSize * pageSize := by
  have keyAligned : pageSize ∣ key :=
    (tiles_aligned invariant.tiles invariant.aligned).2 (key, data) (mem_of_cut cut)
  have offset : pageSize ∣ ptr - key := Nat.dvd_sub aligned keyAligned
  rw [Nat.div_mul_cancel offset]
  omega

end Cut

section
variable (invariant : RegionInvariant allocator)
include invariant

theorem allocate_pages_at_spec (positive : 0 < numPages) (aligned : pageSize ∣ ptr)
    (noWrap : ptr + numPages * pageSize < 2 ^ 64) :
    allocatePagesAt allocator ptr numPages = some (allocator, 0) ∨
      ∃ after left right key pages data,
        allocatePagesAt allocator ptr numPages = some (after, ptr) ∧
        Carves allocator after ptr numPages left right key pages data := by
  cases found : allocator.allPagesTree.findNodeOrLower ptr with
  | none =>
    left
    simp [allocatePagesAt, found]
  | some node =>
    rcases node with ⟨key, data⟩
    have hit := find_node_or_lower_some_iff.mp found
    rcases exists_cut hit.1 with ⟨left, right, cut⟩
    by_cases refused : data.isFree = false ∨ key + data.size * pageSize < ptr + numPages * pageSize
    · left
      simp only [allocatePagesAt, found]
      rw [region_end invariant cut, range_end noWrap, if_pos refused]
    right
    simp only [not_or, not_lt, Bool.not_eq_false] at refused
    have address := aligned_offset invariant cut aligned hit.2.1
    rw [address] at found
    have fits := pages_fit address refused.2
    rcases allocate_pages_at_carves invariant cut refused.1 positive fits found with
      ⟨after, call, carves⟩
    rw [← address] at call carves
    exact ⟨after, left, right, key, (ptr - key) / pageSize, data, call, carves⟩

theorem size_listed {node : Nat × NodeData} (member : node ∈ allocator.allPagesTree.nodes)
    (free : node.2.isFree = true) :
    ∃ list, (node.2.size, list) ∈ allocator.freePagesTree.nodes := by
  rcases append_of_mem member with ⟨left, right, cut⟩
  have listed := listed_of_free invariant cut free
  cases found : allocator.freePagesTree.find? node.2.size with
  | none => simp [free_keys_of_none found] at listed
  | some list => exact ⟨list, find_some_iff.mp found⟩

/-- `AllocatePages(numPages)` fails where every free region is too small, and takes the
first pages of a smallest region that is large enough. -/
theorem allocate_pages_spec (positive : 0 < numPages) :
    (allocatePages allocator numPages = some (allocator, 0) ∧
      ∀ node ∈ allocator.allPagesTree.nodes, node.2.isFree = true → node.2.size < numPages) ∨
      ∃ after ptr left right data, allocatePages allocator numPages = some (after, ptr) ∧
        Carves allocator after ptr numPages left right ptr 0 data ∧
        ∀ node ∈ allocator.allPagesTree.nodes, node.2.isFree = true → numPages ≤ node.2.size →
          data.size ≤ node.2.size := by
  cases found : allocator.freePagesTree.findNodeOrHigher numPages with
  | none =>
    refine .inl ⟨by simp [allocatePages, found], ?_⟩
    intro node member free
    rcases size_listed invariant member free with ⟨list, listed⟩
    exact find_node_or_higher_none found listed
  | some hit =>
    right
    rcases hit with ⟨size, list⟩
    have lookup := find_node_or_higher_some found
    cases list with
    | nil => exact absurd rfl (invariant.noEmptyList size [] lookup.1)
    | cons node rest =>
      have listed : node.data ∈ freeKeys allocator.freePagesTree size := by
        simp [free_keys_of_find lookup.1]
      rw [(invariant.listed size).mem_iff, mem_regions_of_size] at listed
      rcases listed with ⟨data, member, free, sameSize⟩
      subst sameSize
      rcases append_of_mem member with ⟨left, right, cut⟩
      have bounds := region_bounds invariant member
      have word := invariant.limitWord
      have inside : numPages * pageSize ≤ data.size * pageSize :=
        Nat.mul_le_mul_right pageSize lookup.2
      have books := pop_free_books allocator data.size node rest numPages
      have marked := mark_allocated_carves invariant cut free positive lookup.2 books.1
        books.2 (pop_free_keys lookup.1 (by omega))
      refine ⟨_, node.data, left, right, data, ?_, marked.2, ?_⟩
      · simp only [allocatePages, found]
        exact congrArg some (Prod.ext rfl marked.1)
      · intro other otherMember otherFree fits
        rcases size_listed invariant otherMember otherFree with ⟨list, otherListed⟩
        exact find_node_or_higher_least found otherListed fits

end
end Allocate

/-! ## Splitting a used region -/

section Used
variable {allocator : RegionAllocator} {left right : List (Nat × NodeData)} {key pages numPages : Nat}
  {data : NodeData}

section
variable (used : data.isFree = false)
include used

theorem carved_of_used :
    carved key pages numPages data = remainder key pages data ++
      (key + pages * pageSize, { data with size := numPages }) ::
        remainder (key + pages * pageSize + numPages * pageSize)
          (data.size - pages - numPages) data := by
  rw [carved, ← used]

theorem carved_all_used : ∀ node ∈ carved key pages numPages data, node.2.isFree = false := by
  intro node member
  rw [carved, mem_append, mem_cons] at member
  rcases member with front | same | back
  · rw [remainder_flags front, used]
  · rw [same]
  · rw [remainder_flags back, used]

theorem pages_of_carved_used (fits : pages + numPages ≤ data.size) (isFree : Bool) :
    pagesOf (carved key pages numPages data) isFree = pagesOf [(key, data)] isFree := by
  cases isFree
  · simp [carved, pages_of_remainder, used]
    omega
  · simp [carved, pages_of_remainder, used]

theorem regions_of_carved_used (size : Nat) :
    regionsOfSize (carved key pages numPages data) size = [] := by
  rw [eq_nil_iff_forall_not_mem]
  intro start member
  rcases mem_regions_of_size.mp member with ⟨other, inCarved, free, _⟩
  have usedHere : other.isFree = false := carved_all_used used _ inCarved
  simp [usedHere] at free

end

theorem split_used_keeps_invariant {after : RegionAllocator} (invariant : RegionInvariant allocator)
    (used : data.isFree = false) (positive : 0 < numPages) (fits : pages + numPages ≤ data.size)
    (replaces : Replaces allocator after left [(key, data)] (carved key pages numPages data) right) :
    RegionInvariant after := by
  apply replaces_keeps_invariant invariant replaces (carved_tiles positive fits)
  have around := invariant.coalesced
  rw [replaces.oldNodes] at around
  rcases chain_around around with ⟨leftChain, rightChain, _, _⟩
  exact chain_of_used leftChain rightChain (by simp [carved]) (carved_all_used used)

theorem split_used_replaces (invariant : RegionInvariant allocator)
    (cut : allocator.allPagesTree.nodes = left ++ (key, data) :: right) (used : data.isFree = false)
    (positive : 0 < numPages) (fits : pages + numPages ≤ data.size) :
    ∃ front, splitFront allocator (key, data) (key + pages * pageSize) =
        (front, tailOf key data pages) ∧
      (splitBack front (tailOf key data pages) numPages).2 = { data with size := numPages } ∧
      Replaces allocator (splitBack front (tailOf key data pages) numPages).1 left [(key, data)]
        (carved key pages numPages data) right := by
  have less : pages < data.size := by omega
  have front := split_front_spec invariant.limitWord invariant.tiles cut less
  have frontBooks := split_front_books allocator (key, data) (key + pages * pageSize)
  have frontTree := split_front_free_pages_tree allocator (key, data) (key + pages * pageSize)
  generalize splitFront allocator (key, data) (key + pages * pageSize) = call
    at front frontBooks frontTree ⊢
  rcases call with ⟨aligned, node⟩
  simp only at front frontBooks frontTree
  rcases front with ⟨nodeSame, frontNodes⟩
  subst nodeSame
  refine ⟨aligned, rfl, ?_⟩
  rw [← append_assoc] at frontNodes
  have tiles := split_tiles invariant cut less frontBooks frontNodes
  have back := split_back_spec (frontBooks.limit ▸ invariant.limitWord) tiles frontNodes positive
    (show numPages ≤ data.size - pages by omega)
  have books := same_books_trans frontBooks (split_back_books aligned (tailOf key data pages)
    numPages)
  refine ⟨back.1, ⟨books.start, books.limit, books.reserved, books.total, ?_, ?_, ?_, ?_, ?_, ?_⟩⟩
  · simpa using cut
  · rw [back.2, carved_of_used used]
    simp [remainder]
  · intro size
    simp [regions_of_carved_used used, used, frontTree]
  · exact books.noEmptyList
  · rw [books.free, pages_of_carved_used used fits]
  · rw [books.used, pages_of_carved_used used fits]

theorem split_unless_equal (allocator : RegionAllocator) {node : Nat × NodeData}
    (fits : numPages ≤ node.2.size) :
    (if node.2.size ≠ numPages then
      ((splitAptNode allocator node numPages).1, { node.2 with size := numPages % 2 ^ 62 })
    else (allocator, node.2)) = splitBack allocator node numPages := by
  unfold splitBack
  rcases eq_or_lt_of_le fits with same | less
  · simp [same]
  · rw [if_pos (by omega), if_pos less]

variable {ptr : Nat}

theorem resize_allocated_region_spec {newStart newNumPages : Nat}
    (invariant : RegionInvariant allocator) (positive : 0 < newNumPages)
    (legal : (pageSize ∣ newStart ∧ ptr ≤ newStart ∧
        newStart + newNumPages * pageSize ≤ ptr + numPages * pageSize) ∨
      (newStart ≤ ptr ∧ newNumPages ≤ numPages)) :
    resizeAllocatedRegion allocator ptr numPages newStart newNumPages = (allocator, false) ∨
      ∃ after left right pages data,
        resizeAllocatedRegion allocator ptr numPages newStart newNumPages = (after, true) ∧
        data.isFree = false ∧ data.size = numPages ∧ pages + newNumPages ≤ data.size ∧
        max ptr newStart = ptr + pages * pageSize ∧
        Replaces allocator after left [(ptr, data)] (carved ptr pages newNumPages data) right := by
  unfold resizeAllocatedRegion
  cases found : allocator.allPagesTree.find? ptr with
  | none => exact .inl rfl
  | some data =>
    by_cases refused : data.isFree = true ∨ data.size ≠ numPages
    · left
      simp [refused]
    right
    rcases exists_cut found with ⟨left, right, cut⟩
    simp only [refused, if_false]
    simp only [not_or, Bool.not_eq_true, not_not] at refused
    have position : ∃ pages, max ptr newStart = ptr + pages * pageSize ∧
        pages + newNumPages ≤ data.size := by
      rcases legal with ⟨aligned, order, inside⟩ | ⟨order, fewer⟩
      · have address := aligned_offset invariant cut aligned order
        rw [max_eq_right order, refused.2]
        exact ⟨_, address, pages_fit address inside⟩
      · exact ⟨0, by simp [order], by omega⟩
    rcases position with ⟨pages, address, fits⟩
    have sameSplit : splitFront allocator (ptr, data) newStart =
        splitFront allocator (ptr, data) (ptr + pages * pageSize) := by
      rw [← address]
      unfold splitFront
      rcases lt_or_ge ptr newStart with below | above
      · rw [max_eq_right below.le]
      · simp [above]
    rcases split_used_replaces invariant cut refused.1 positive fits with
      ⟨front, frontCall, backData, replaces⟩
    rw [sameSplit, frontCall]
    refine ⟨_, left, right, pages, data, ?_, refused.1, refused.2, fits, address, replaces⟩
    rw [← split_unless_equal front (show newNumPages ≤ data.size - pages by omega)]
    split <;> rfl

theorem range_end_mul (noWrap : ptr + numPages * pageSize < 2 ^ 64) :
    add64 ptr (mul64 numPages pageSize) = ptr + numPages * pageSize := by
  rw [mul64_of_lt (by omega)]
  exact add64_of_lt noWrap

theorem replaces_self (cut : allocator.allPagesTree.nodes = left ++ (key, data) :: right) :
    Replaces allocator allocator left [(key, data)] [(key, data)] right := by
  refine ⟨rfl, rfl, rfl, rfl, ?_, ?_, fun _ => .refl _, id, rfl, rfl⟩
  · simpa using cut
  · simpa using cut

theorem region_to_free_spec (exact : Bool) (invariant : RegionInvariant allocator)
    (positive : 0 < numPages) (aligned : pageSize ∣ ptr)
    (noWrap : ptr + numPages * pageSize < 2 ^ 64) :
    regionToFree allocator ptr numPages exact = none ∨
      ∃ isolated left right key pages data,
        regionToFree allocator ptr numPages exact =
          some (isolated, (ptr, { data with size := numPages })) ∧
        data.isFree = false ∧ ptr = key + pages * pageSize ∧ pages + numPages ≤ data.size ∧
        (exact = true → pages = 0 ∧ data.size = numPages) ∧
        Replaces allocator isolated left [(key, data)] (carved key pages numPages data) right := by
  cases exact with
  | true =>
    cases found : allocator.allPagesTree.find? ptr with
    | none =>
      left
      simp [regionToFree, found]
    | some data =>
      by_cases refused : data.isFree = true ∨ data.size ≠ numPages
      · left
        simp [regionToFree, found, refused]
      right
      rcases exists_cut found with ⟨left, right, cut⟩
      have call : regionToFree allocator ptr numPages true = some (allocator, (ptr, data)) := by
        simp [regionToFree, found, refused]
      simp only [not_or, Bool.not_eq_true, not_not] at refused
      have whole : carved ptr 0 numPages data = [(ptr, data)] := by
        simp [carved_of_used refused.1, ← refused.2]
      refine ⟨allocator, left, right, ptr, 0, data, ?_, refused.1, by simp,
        by omega, by simp [refused.2], ?_⟩
      · rw [call, ← refused.2]
      · rw [whole]
        exact replaces_self cut
  | false =>
    cases found : allocator.allPagesTree.findNodeOrLower ptr with
    | none =>
      left
      simp [regionToFree, found]
    | some node =>
      rcases node with ⟨key, data⟩
      have hit := find_node_or_lower_some_iff.mp found
      rcases exists_cut hit.1 with ⟨left, right, cut⟩
      have bounds := region_bounds invariant (mem_of_cut cut)
      have word := invariant.limitWord
      have regionEnds := range_end_mul (show key + data.size * pageSize < 2 ^ 64 by omega)
      by_cases refused : data.isFree = true ∨ key + data.size * pageSize < ptr + numPages * pageSize
      · left
        simp only [regionToFree, Bool.false_eq_true, if_false, found, regionEnds,
          range_end_mul noWrap, refused, if_true]
      right
      have accepted := refused
      simp only [not_or, Bool.not_eq_true, not_lt] at refused
      have address := aligned_offset invariant cut aligned hit.2.1
      have fits := pages_fit address refused.2
      rcases split_used_replaces invariant cut refused.1 positive fits with
        ⟨front, frontCall, backData, replaces⟩
      rw [tailOf, ← address] at frontCall backData replaces
      refine ⟨_, left, right, key, _, data, ?_, refused.1, address, fits, by simp, replaces⟩
      simp only [regionToFree, Bool.false_eq_true, if_false, found, regionEnds,
        range_end_mul noWrap, accepted, frontCall]
      rw [← backData, ← split_unless_equal front
        (show numPages ≤ data.size - (ptr - key) / pageSize by omega)]
      split <;> rfl

end Used
end FrostyKernel.Memory
