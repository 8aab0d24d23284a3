import FrostyKernel.Lib.Run
import FrostyKernel.Lib.Tiling
import FrostyKernel.Memory.RegionAllocator

/-!
# The representation invariant of the region allocator

Every operation replaces a few neighbouring regions by others that tile the
same interval and adjusts the free lists and the counts to match. `Replaces`
states such a replacement, `replaces_keeps_invariant` derives the invariant from
it once, and the lemmas for the operations only have to show which regions are
replaced.
-/

namespace FrostyKernel.Memory

open Word List Option OrderedMap ListNode

def byteLength (data : NodeData) : Nat := data.size * pageSize

def regionsOfSize (nodes : List (Nat × NodeData)) (size : Nat) : List Nat :=
  nodes.flatMap fun node => if node.2.isFree = true ∧ node.2.size = size then [node.1] else []

def pagesOf (nodes : List (Nat × NodeData)) (isFree : Bool) : Nat :=
  (nodes.map fun node => if node.2.isFree = isFree then node.2.size else 0).sum

def freeKeys (tree : FreeTree) (size : Nat) : List Nat :=
  ((tree.find? size).getD []).map ListNode.data

def NoEmptyList (tree : FreeTree) : Prop := ∀ size list, tree.find? size = some list → list ≠ []

def NotBothFree (left right : Nat × NodeData) : Prop :=
  ¬ (left.2.isFree = true ∧ right.2.isFree = true)

structure RegionInvariant (allocator : RegionAllocator) : Prop where
  aligned : pageSize ∣ allocator.start
  limitWord : allocator.limit < 2 ^ 64
  tiles : Tiles byteLength allocator.start allocator.allPagesTree.nodes allocator.limit
  coalesced : allocator.allPagesTree.nodes.IsChain NotBothFree
  listed : ∀ size, (freeKeys allocator.freePagesTree size).Perm
    (regionsOfSize allocator.allPagesTree.nodes size)
  noEmptyList : NoEmptyList allocator.freePagesTree
  freeCount : allocator.freePageCount = pagesOf allocator.allPagesTree.nodes true
  usedCount : allocator.usedPageCount = pagesOf allocator.allPagesTree.nodes false
  total : allocator.freePageCount + allocator.usedPageCount + allocator.reservedPageCount =
    allocator.totalPageCount

/-! ## Lists of regions -/

@[simp] theorem regions_of_size_nil (size : Nat) : regionsOfSize [] size = [] := rfl

@[simp] theorem regions_of_size_cons (node : Nat × NodeData) (rest : List (Nat × NodeData))
    (size : Nat) :
    regionsOfSize (node :: rest) size =
      (if node.2.isFree = true ∧ node.2.size = size then [node.1] else []) ++
        regionsOfSize rest size := by
  simp [regionsOfSize]

@[simp] theorem regions_of_size_append (left right : List (Nat × NodeData)) (size : Nat) :
    regionsOfSize (left ++ right) size = regionsOfSize left size ++ regionsOfSize right size := by
  simp [regionsOfSize]

@[simp] theorem pages_of_nil (isFree : Bool) : pagesOf [] isFree = 0 := rfl

@[simp] theorem pages_of_cons (node : Nat × NodeData) (rest : List (Nat × NodeData))
    (isFree : Bool) :
    pagesOf (node :: rest) isFree =
      (if node.2.isFree = isFree then node.2.size else 0) + pagesOf rest isFree := by
  simp [pagesOf]

@[simp] theorem pages_of_append (left right : List (Nat × NodeData)) (isFree : Bool) :
    pagesOf (left ++ right) isFree = pagesOf left isFree + pagesOf right isFree := by
  simp [pagesOf]

variable {nodes : List (Nat × NodeData)} {size high low : Nat} {tree : FreeTree}

theorem mem_regions_of_size {key : Nat} :
    key ∈ regionsOfSize nodes size ↔
      ∃ data, (key, data) ∈ nodes ∧ data.isFree = true ∧ data.size = size := by
  simp only [regionsOfSize, mem_flatMap]
  constructor
  · intro present
    rcases present with ⟨⟨start, data⟩, member, listed⟩
    split_ifs at listed with free
    · rw [mem_singleton.mp listed]
      exact ⟨data, member, free⟩
    · simp at listed
  · intro present
    rcases present with ⟨data, member, free⟩
    exact ⟨(key, data), member, by simp [free.1, free.2]⟩

theorem pages_total (tiles : Tiles byteLength low nodes high) :
    (pagesOf nodes true + pagesOf nodes false) * pageSize = high - low := by
  induction nodes generalizing low with
  | nil =>
    have same : low = high := tiles
    simp [same]
  | cons node rest ih =>
    have further := ih tiles.2.2
    have order := tiles_low_le_high tiles.2.2
    have split : pagesOf (node :: rest) true + pagesOf (node :: rest) false =
        node.2.size + (pagesOf rest true + pagesOf rest false) := by
      cases free : node.2.isFree <;> simp [free] <;> omega
    rw [split, add_mul, further]
    simp only [byteLength] at order ⊢
    omega

/-! ## The tree of free pages -/

theorem free_keys_of_find {list : List ListNode} (found : tree.find? size = some list) :
    freeKeys tree size = list.map data := by
  simp [freeKeys, found]

theorem free_keys_of_none (absent : tree.find? size = none) : freeKeys tree size = [] := by
  simp [freeKeys, absent]

theorem free_keys_push (tree : FreeTree) (size start : Nat) (vmm : Bool) (other : Nat) :
    freeKeys (pushFree tree size start vmm) other =
      freeKeys tree other ++ if other = size then [start] else [] := by
  unfold pushFree
  cases found : tree.find? size with
  | none =>
    simp only [freeKeys, find_insert_of_none _ found]
    split_ifs with same
    · simp [same, found, insertNode]
    · simp
  | some list =>
    simp only [freeKeys, find_set, found]
    split_ifs with same
    · simp [same, found, insertNode]
    · simp

theorem no_empty_list_push (noEmpty : NoEmptyList tree) (size start : Nat) (vmm : Bool) :
    NoEmptyList (pushFree tree size start vmm) := by
  intro other list found
  unfold pushFree at found
  cases present : tree.find? size with
  | none =>
    simp only [present, find_insert_of_none _ present] at found
    split_ifs at found
    · simp only [insertNode, nil_append, some.injEq] at found
      simp [← found]
    · exact noEmpty other list found
  | some old =>
    simp only [present, find_set] at found
    split_ifs at found
    · simp only [insertNode, map_some, some.injEq] at found
      simp [← found]
    · exact noEmpty other list found

theorem free_keys_put {old : List ListNode} (present : tree.find? size = some old)
    (list : List ListNode) (other : Nat) :
    freeKeys (putList tree size list) other =
      if other = size then list.map data else freeKeys tree other := by
  unfold putList
  split_ifs with nothing same same
  · simp [freeKeys, same, nothing]
  · simp [freeKeys, same]
  · simp [freeKeys, same, present]
  · simp [freeKeys, same]

theorem no_empty_list_put (noEmpty : NoEmptyList tree) (size : Nat) (list : List ListNode) :
    NoEmptyList (putList tree size list) := by
  intro other found lookup
  unfold putList at lookup
  split_ifs at lookup with nothing
  · rw [find_erase] at lookup
    split_ifs at lookup
    exact noEmpty other found lookup
  rw [find_set] at lookup
  split_ifs at lookup
  · cases present : tree.find? size with
    | none => simp [present] at lookup
    | some old =>
      simp only [present, map_some, some.injEq] at lookup
      rw [← lookup]
      exact nothing
  · exact noEmpty other found lookup

theorem delete_node_data (list : List ListNode) (key : Nat) :
    (deleteNode list key).map data = (list.map data).erase key := by
  induction list with
  | nil => rfl
  | cons node rest ih =>
    unfold deleteNode at ih ⊢
    by_cases same : node.data = key
    · simp [same]
    · rw [eraseP_cons_of_neg (by simpa using same), map_cons, map_cons, ih,
        erase_cons_tail (by simpa using same)]

theorem free_keys_take (allocator : RegionAllocator) (size start : Nat) (vmm : Bool) (other : Nat) :
    freeKeys (takeFree allocator size start vmm).freePagesTree other =
      if other = size then (freeKeys allocator.freePagesTree size).erase start
      else freeKeys allocator.freePagesTree other := by
  unfold takeFree
  cases found : allocator.freePagesTree.find? size with
  | none =>
    split_ifs with same
    · simp [same, free_keys_of_none found]
    · rfl
  | some list =>
    simp only [free_keys_put found, delete_node_data, free_keys_of_find found]

@[simp] theorem take_free_pages_tree (allocator : RegionAllocator) (size start : Nat) (vmm : Bool) :
    (takeFree allocator size start vmm).allPagesTree = allocator.allPagesTree := by
  unfold takeFree
  split <;> rfl

variable {left new old right : List (Nat × NodeData)} {allocator : RegionAllocator}

theorem free_keys_take_perm {start : Nat} (vmm : Bool)
    (listed : start ∈ freeKeys allocator.freePagesTree size) (other : Nat) :
    (freeKeys (takeFree allocator size start vmm).freePagesTree other ++
      if other = size then [start] else []).Perm (freeKeys allocator.freePagesTree other) := by
  rw [free_keys_take]
  split_ifs with same
  · subst same
    exact (perm_append_singleton _ _).trans (perm_cons_erase listed).symm
  · simp

/-! ## Replacing neighbouring regions -/

/-- `after` follows from `before` by exchanging the regions `old` for `new`. -/
structure Replaces (before after : RegionAllocator) (left old new right : List (Nat × NodeData)) :
    Prop where
  start : after.start = before.start
  limit : after.limit = before.limit
  reserved : after.reservedPageCount = before.reservedPageCount
  total : after.totalPageCount = before.totalPageCount
  oldNodes : before.allPagesTree.nodes = left ++ (old ++ right)
  newNodes : after.allPagesTree.nodes = left ++ (new ++ right)
  keys : ∀ size, (freeKeys after.freePagesTree size ++ regionsOfSize old size).Perm
    (freeKeys before.freePagesTree size ++ regionsOfSize new size)
  noEmptyList : NoEmptyList before.freePagesTree → NoEmptyList after.freePagesTree
  freeCount : after.freePageCount + pagesOf old true = before.freePageCount + pagesOf new true
  usedCount : after.usedPageCount + pagesOf old false = before.usedPageCount + pagesOf new false

theorem tiles_exchange
    (sameSpan : ∀ low high, Tiles byteLength low old high → Tiles byteLength low new high)
    (tiles : Tiles byteLength low (left ++ (old ++ right)) high) :
    Tiles byteLength low (left ++ (new ++ right)) high := by
  rcases tiles_append.mp tiles with ⟨first, leftTiles, restTiles⟩
  rcases tiles_append.mp restTiles with ⟨second, middleTiles, rightTiles⟩
  exact tiles_append.mpr ⟨first, leftTiles,
    tiles_append.mpr ⟨second, sameSpan first second middleTiles, rightTiles⟩⟩

theorem replaces_keeps_invariant {before after : RegionAllocator}
    (invariant : RegionInvariant before) (replaces : Replaces before after left old new right)
    (sameSpan : ∀ low high, Tiles byteLength low old high → Tiles byteLength low new high)
    (chain : (left ++ (new ++ right)).IsChain NotBothFree) : RegionInvariant after := by
  have oldTiles := invariant.tiles
  rw [replaces.oldNodes] at oldTiles
  have newTiles := tiles_exchange sameSpan oldTiles
  have oldFree := invariant.freeCount
  have oldUsed := invariant.usedCount
  rw [replaces.oldNodes] at oldFree oldUsed
  simp only [pages_of_append] at oldFree oldUsed
  have newFree : after.freePageCount = pagesOf (left ++ (new ++ right)) true := by
    have change := replaces.freeCount
    simp only [pages_of_append]
    omega
  have newUsed : after.usedPageCount = pagesOf (left ++ (new ++ right)) false := by
    have change := replaces.usedCount
    simp only [pages_of_append]
    omega
  have samePages : pagesOf (left ++ (new ++ right)) true + pagesOf (left ++ (new ++ right)) false =
      pagesOf (left ++ (old ++ right)) true + pagesOf (left ++ (old ++ right)) false := by
    apply Nat.eq_of_mul_eq_mul_right (show 0 < pageSize by decide)
    rw [pages_total newTiles, pages_total oldTiles]
  refine ⟨?_, ?_, ?_, ?_, ?_, replaces.noEmptyList invariant.noEmptyList, ?_, ?_, ?_⟩
  · rw [replaces.start]
    exact invariant.aligned
  · rw [replaces.limit]
    exact invariant.limitWord
  · rw [replaces.start, replaces.limit, replaces.newNodes]
    exact newTiles
  · rw [replaces.newNodes]
    exact chain
  · intro size
    have keys := (replaces.keys size).trans ((invariant.listed size).append_right _)
    rw [replaces.newNodes]
    rw [replaces.oldNodes] at keys
    rw [perm_iff_count] at keys ⊢
    intro key
    have counts := keys key
    simp only [regions_of_size_append, count_append] at counts ⊢
    omega
  · rw [replaces.newNodes]
    exact newFree
  · rw [replaces.newNodes]
    exact newUsed
  · have oldTotal := invariant.total
    rw [replaces.reserved, replaces.total]
    simp only [pages_of_append] at samePages newFree newUsed
    omega

/-! ## Splitting a region -/

theorem region_bounds (invariant : RegionInvariant allocator) {key : Nat} {data : NodeData}
    (member : (key, data) ∈ allocator.allPagesTree.nodes) :
    allocator.start ≤ key ∧ 0 < data.size ∧ key + data.size * pageSize ≤ allocator.limit := by
  have bounds := tiles_piece_bounds invariant.tiles member
  simp only [byteLength] at bounds
  have positive : 0 < data.size := Nat.pos_of_mul_pos_right bounds.2.1
  exact ⟨bounds.1, positive, bounds.2.2⟩

theorem tiles_aligned (tiles : Tiles byteLength low nodes high) (aligned : pageSize ∣ low) :
    pageSize ∣ high ∧ ∀ node ∈ nodes, pageSize ∣ node.1 := by
  induction nodes generalizing low with
  | nil =>
    have same : low = high := tiles
    exact ⟨same ▸ aligned, by simp⟩
  | cons node rest ih =>
    have next : pageSize ∣ low + byteLength node.2 :=
      dvd_add aligned (dvd_mul_left pageSize node.2.size)
    have further := ih tiles.2.2 next
    refine ⟨further.1, ?_⟩
    intro other member
    rcases mem_cons.mp member with same | later
    · rw [same, tiles.1]
      exact aligned
    · exact further.2 other later

section Split
variable {allocator : RegionAllocator} {left right : List (Nat × NodeData)} {key : Nat}
  {data : NodeData} {numPages : Nat}

/-- The region of `size` pages that a split leaves beside the one asked for;
nothing is left when it has no pages. -/
def remainder (key size : Nat) (data : NodeData) : List (Nat × NodeData) :=
  if size = 0 then [] else [(key, { data with size := size })]

@[simp] theorem remainder_zero : remainder key 0 data = [] := rfl

theorem remainder_of_pos {size : Nat} (positive : 0 < size) :
    remainder key size data = [(key, { data with size := size })] := by
  rw [remainder, if_neg (by omega)]

theorem tiles_remainder {low size : Nat} {data : NodeData} {rest : List (Nat × NodeData)}
    {high : Nat} (further : Tiles byteLength (low + size * pageSize) rest high) :
    Tiles byteLength low (remainder low size data ++ rest) high := by
  rcases eq_zero_or_pos size with none | positive
  · subst none
    simpa using further
  · rw [remainder_of_pos positive]
    exact ⟨rfl, mul_pos positive (by decide), further⟩

/-- What a split leaves behind the first pages of a region. -/
abbrev tailOf (key : Nat) (data : NodeData) (pages : Nat) : Nat × NodeData :=
  (key + pages * pageSize, { data with size := data.size - pages })

theorem tiles_split {pages : Nat} (less : pages < data.size) (low high : Nat)
    (tiles : Tiles byteLength low [(key, data)] high) :
    Tiles byteLength low (remainder key pages data ++ [tailOf key data pages]) high := by
  have atKey : key = low := tiles.1
  have ends : low + byteLength data = high := tiles.2.2
  subst atKey
  apply tiles_remainder
  refine ⟨rfl, mul_pos (Nat.sub_pos_of_lt less) (by decide), ?_⟩
  change key + pages * pageSize + (data.size - pages) * pageSize = high
  rw [← ends, add_assoc, ← add_mul, Nat.add_sub_cancel' less.le, byteLength]

section Located
variable (word : allocator.limit < 2 ^ 64)
  (tiles : Tiles byteLength allocator.start allocator.allPagesTree.nodes allocator.limit)
  (cut : allocator.allPagesTree.nodes = left ++ (key, data) :: right)
include word tiles cut

/-- The facts about a tiled region that keep the 64-bit arithmetic of the split
from wrapping. -/
theorem split_arithmetic (less : numPages < data.size) :
    add64 key (shl64 numPages 12) = key + numPages * pageSize ∧ numPages % 2 ^ 62 = numPages ∧
      sub64 data.size numPages % 2 ^ 62 = data.size - numPages := by
  have bounds := tiles_piece_bounds tiles (mem_of_cut cut)
  simp only [byteLength, pageSize] at bounds
  have shifted : shl64 numPages 12 = numPages * 2 ^ 12 := shl64_of_lt (by omega)
  have difference : sub64 data.size numPages = data.size - numPages :=
    sub64_of_le (by omega) (by omega)
  rw [shifted, difference]
  refine ⟨add64_of_lt (by omega), Nat.mod_eq_of_lt (by omega), Nat.mod_eq_of_lt (by omega)⟩

theorem split_apt_node_spec (positive : 0 < numPages) (less : numPages < data.size) :
    (splitAptNode allocator (key, data) numPages).2 = tailOf key data numPages ∧
      (splitAptNode allocator (key, data) numPages).1.allPagesTree.nodes =
        left ++ (key, { data with size := numPages }) :: tailOf key data numPages :: right := by
  have arithmetic := split_arithmetic word tiles cut less
  have lowKeys := before_lt cut
  rw [cut] at tiles
  have rightTiles := (tiles_cut.mp tiles).2.2
  have lower : (allocator.allPagesTree.set key { data with size := numPages }).nodes =
      (left ++ [(key, { data with size := numPages })]) ++ right := by
    rw [set_nodes cut]
    simp
  have below : ∀ node ∈ left ++ [(key, { data with size := numPages })],
      node.1 < key + numPages * pageSize := by
    intro node member
    have gap : 0 < numPages * pageSize := mul_pos positive (by decide)
    rcases mem_append.mp member with early | last
    · have order := lowKeys node early
      omega
    · rw [mem_singleton.mp last]
      simpa using gap
  have above : ∀ node ∈ right, key + numPages * pageSize < node.1 := by
    intro node member
    have bounds := (tiles_piece_bounds rightTiles member).1
    have gap : numPages * pageSize < data.size * pageSize :=
      Nat.mul_lt_mul_of_pos_right less (by decide)
    simp only [byteLength] at bounds
    omega
  unfold splitAptNode
  simp only [arithmetic.1, arithmetic.2.1, arithmetic.2.2, true_and]
  rw [insert_nodes _ lower below above]
  simp

theorem split_front_spec {pages : Nat} (less : pages < data.size) :
    (splitFront allocator (key, data) (key + pages * pageSize)).2 = tailOf key data pages ∧
      (splitFront allocator (key, data) (key + pages * pageSize)).1.allPagesTree.nodes =
        left ++ (remainder key pages data ++ tailOf key data pages :: right) := by
  unfold splitFront
  rcases eq_zero_or_pos pages with none | positive
  · subst none
    simp [cut]
  · have gap : 0 < pages * pageSize := mul_pos positive (by decide)
    have count : (key + pages * pageSize - key) / pageSize = pages := by
      rw [Nat.add_sub_cancel_left, Nat.mul_div_cancel _ (by decide)]
    rw [if_pos (show key < key + pages * pageSize by omega), count, remainder_of_pos positive]
    exact split_apt_node_spec word tiles cut positive less

theorem split_back_spec (positive : 0 < numPages) (fits : numPages ≤ data.size) :
    (splitBack allocator (key, data) numPages).2 = { data with size := numPages } ∧
      (splitBack allocator (key, data) numPages).1.allPagesTree.nodes =
        left ++ (key, { data with size := numPages }) ::
          (remainder (key + numPages * pageSize) (data.size - numPages) data ++ right) := by
  unfold splitBack
  rcases eq_or_lt_of_le fits with exact | less
  · subst exact
    simp [cut]
  · have arithmetic := split_arithmetic word tiles cut less
    rw [if_pos less, remainder_of_pos (by omega)]
    exact ⟨by rw [arithmetic.2.1], (split_apt_node_spec word tiles cut positive less).2⟩

end Located

/-- The parts of the allocator that splitting a region leaves alone. -/
structure SameBooks (before after : RegionAllocator) : Prop where
  start : after.start = before.start
  limit : after.limit = before.limit
  reserved : after.reservedPageCount = before.reservedPageCount
  total : after.totalPageCount = before.totalPageCount
  free : after.freePageCount = before.freePageCount
  used : after.usedPageCount = before.usedPageCount
  noEmptyList : NoEmptyList before.freePagesTree → NoEmptyList after.freePagesTree

section
variable (allocator : RegionAllocator) (node : Nat × NodeData) (start pages : Nat)

theorem split_front_books : SameBooks allocator (splitFront allocator node start).1 := by
  unfold splitFront
  split <;> exact ⟨rfl, rfl, rfl, rfl, rfl, rfl, id⟩

theorem split_back_books : SameBooks allocator (splitBack allocator node pages).1 := by
  unfold splitBack
  split <;> exact ⟨rfl, rfl, rfl, rfl, rfl, rfl, id⟩

theorem take_free_books (size start : Nat) (vmm : Bool) :
    SameBooks allocator (takeFree allocator size start vmm) := by
  unfold takeFree
  split
  · exact ⟨rfl, rfl, rfl, rfl, rfl, rfl, id⟩
  · exact ⟨rfl, rfl, rfl, rfl, rfl, rfl, fun noEmpty => no_empty_list_put noEmpty size _⟩

theorem push_books {before after : RegionAllocator} (books : SameBooks before after)
    (size start : Nat) (vmm : Bool) :
    SameBooks before { after with freePagesTree := pushFree after.freePagesTree size start vmm } :=
  ⟨books.start, books.limit, books.reserved, books.total, books.free, books.used,
    fun noEmpty => no_empty_list_push (books.noEmptyList noEmpty) _ _ _⟩

@[simp] theorem split_front_free_pages_tree :
    (splitFront allocator node start).1.freePagesTree = allocator.freePagesTree := by
  unfold splitFront
  split <;> rfl

@[simp] theorem split_back_free_pages_tree :
    (splitBack allocator node pages).1.freePagesTree = allocator.freePagesTree := by
  unfold splitBack
  split <;> rfl

end
end Split

theorem same_books_trans {first second third : RegionAllocator} (early : SameBooks first second)
    (late : SameBooks second third) : SameBooks first third :=
  ⟨late.start.trans early.start, late.limit.trans early.limit,
    late.reserved.trans early.reserved, late.total.trans early.total,
    late.free.trans early.free, late.used.trans early.used,
    fun noEmpty => late.noEmptyList (early.noEmptyList noEmpty)⟩

end FrostyKernel.Memory
