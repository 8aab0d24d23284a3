import FrostyKernel.Memory.RegionFree

/-!
# The free pages of the region allocator

An allocator stands for the set of its free addresses. An allocation takes its range out
of this set and a free puts the range back. Because free regions are coalesced, a run of
free pages lies in one region, so the search by size finds a region whenever there is a
run.
-/

namespace FrostyKernel.Memory

open Word List Option OrderedMap

def FreeIn (nodes : List (Nat × NodeData)) (address : Nat) : Prop :=
  ∃ node ∈ nodes, node.2.isFree = true ∧ node.1 ≤ address ∧
    address < node.1 + node.2.size * pageSize

/-- The address lies in the `numPages` pages from `ptr` on. -/
def InPages (ptr numPages address : Nat) : Prop :=
  ptr ≤ address ∧ address < ptr + numPages * pageSize

def RegionAllocator.IsFree (allocator : RegionAllocator) (address : Nat) : Prop :=
  FreeIn allocator.allPagesTree.nodes address

section Regions
variable {nodes left right : List (Nat × NodeData)} {key pages numPages address : Nat}
  {data : NodeData}

@[simp] theorem free_in_nil : FreeIn [] address ↔ False := by simp [FreeIn]

@[simp] theorem free_in_cons (node : Nat × NodeData) :
    FreeIn (node :: nodes) address ↔
      (node.2.isFree = true ∧ InPages node.1 node.2.size address) ∨ FreeIn nodes address := by
  simp [FreeIn, InPages]

@[simp] theorem free_in_append :
    FreeIn (left ++ right) address ↔ FreeIn left address ∨ FreeIn right address := by
  simp only [FreeIn, mem_append, or_and_right, exists_or]

theorem free_in_of_used (used : ∀ node ∈ nodes, node.2.isFree = false) :
    ¬ FreeIn nodes address := by
  rintro ⟨node, member, free, _⟩
  simp [used node member] at free

theorem free_in_remainder (free : data.isFree = true) :
    FreeIn (remainder key pages data) address ↔ InPages key pages address := by
  rcases eq_zero_or_pos pages with none | positive
  · simp [none, InPages]
  · simp [remainder_of_pos positive, free]

theorem free_in_carved (free : data.isFree = true) (fits : pages + numPages ≤ data.size) :
    FreeIn (carved key pages numPages data) address ↔
      FreeIn [(key, data)] address ∧ ¬ InPages (key + pages * pageSize) numPages address := by
  rw [carved, free_in_append, free_in_cons, free_in_remainder free, free_in_remainder free]
  simp only [free_in_cons, free, free_in_nil, InPages, pageSize, Bool.false_eq_true, false_and,
    false_or, true_and, or_false]
  omega

theorem free_in_merged {low high ptr : Nat} {previous next : Option (Nat × NodeData)}
    {reserved : Bool} (around : Neighbours left previous next right)
    (size : data.size = numPages) (used : data.isFree = false)
    (tiles : Tiles byteLength low (previous.toList ++ (ptr, data) :: next.toList) high) :
    FreeIn [(mergedStart previous ptr, ⟨mergedSize previous next numPages, true, reserved⟩)]
        address ↔
      FreeIn (previous.toList ++ (ptr, data) :: next.toList) address ∨
        InPages ptr numPages address := by
  subst size
  rcases tiles_cut.mp tiles with ⟨before, _, after⟩
  cases previous with
  | none =>
    cases next with
    | none => simp [mergedStart, mergedSize, used]
    | some following =>
      have starts : following.1 = ptr + data.size * pageSize := after.1
      have free := around.nextFree following rfl
      simp only [mergedStart, mergedSize, map_none, map_some, getD_none,
        getD_some, toList_none, toList_some, nil_append,
        free_in_cons, free_in_nil, used, free, InPages, pageSize, starts] at *
      simp
      omega
  | some earlier =>
    have ends : earlier.1 + earlier.2.size * pageSize = ptr := by
      rcases before with ⟨starts, _, ends⟩
      rw [starts]
      exact ends
    have freeBefore := around.previousFree earlier rfl
    cases next with
    | none =>
      simp only [mergedStart, mergedSize, map_none, map_some, getD_none,
        getD_some, toList_none, toList_some, singleton_append,
        free_in_cons, free_in_nil, used, freeBefore, InPages, pageSize] at *
      simp
      omega
    | some following =>
      have starts : following.1 = ptr + data.size * pageSize := after.1
      have free := around.nextFree following rfl
      simp only [mergedStart, mergedSize, map_some, getD_some, toList_some, singleton_append,
        free_in_cons, free_in_nil, used, free, freeBefore, InPages, pageSize, starts] at *
      simp
      omega

end Regions

section Effects
variable {allocator after : RegionAllocator} {left right old new : List (Nat × NodeData)}
  {key pages numPages ptr : Nat} {data : NodeData}

/-- Only the regions that are exchanged matter. -/
theorem Replaces.is_free (replaces : Replaces allocator after left old new right) (address : Nat) :
    (after.IsFree address ↔ FreeIn left address ∨ FreeIn new address ∨ FreeIn right address) ∧
      (allocator.IsFree address ↔
        FreeIn left address ∨ FreeIn old address ∨ FreeIn right address) := by
  unfold RegionAllocator.IsFree
  rw [replaces.newNodes, replaces.oldNodes]
  simp only [free_in_append, and_self]

variable {address : Nat}

theorem not_free_beside (invariant : RegionInvariant allocator)
    (cut : allocator.allPagesTree.nodes = left ++ (key, data) :: right)
    (inside : InPages key data.size address) : ¬ FreeIn left address ∧ ¬ FreeIn right address := by
  have tiles := invariant.tiles
  rw [cut] at tiles
  rcases tiles_cut.mp tiles with ⟨before, _, beyond⟩
  unfold InPages at inside
  constructor
  · rintro ⟨node, member, _, _, below⟩
    have bounds := tiles_piece_bounds before member
    simp only [byteLength] at bounds
    omega
  · rintro ⟨node, member, _, above, _⟩
    have bounds := tiles_piece_bounds beyond member
    simp only [byteLength] at bounds
    omega

section
variable (carves : Carves allocator after ptr numPages left right key pages data)
include carves

/-- An allocation takes exactly its pages out of the free ones. -/
theorem Carves.is_free (invariant : RegionInvariant allocator) (address : Nat) :
    after.IsFree address ↔ allocator.IsFree address ∧ ¬ InPages ptr numPages address := by
  rcases carves.replaces.is_free address with ⟨now, before⟩
  have cut : allocator.allPagesTree.nodes = left ++ (key, data) :: right := by
    rw [carves.replaces.oldNodes, singleton_append]
  have whole : InPages ptr numPages address → InPages key data.size address := by
    have address := carves.address
    have fits := carves.fits
    simp only [InPages, pageSize] at address ⊢
    omega
  rw [now, before, free_in_carved carves.free carves.fits, ← carves.address]
  by_cases inside : InPages ptr numPages address
  · rcases not_free_beside invariant cut (whole inside) with ⟨notLeft, notRight⟩
    simp only [inside, notLeft, notRight, not_true, and_false, or_false]
  · simp only [inside, not_false_iff, and_true]

theorem Carves.was_free (inside : InPages ptr numPages address) : allocator.IsFree address := by
  rw [(carves.replaces.is_free address).2]
  have address := carves.address
  have fits := carves.fits
  refine .inr (.inl ⟨(key, data), by simp, carves.free, ?_⟩)
  simp only [InPages, pageSize] at inside address ⊢
  omega

end

variable (invariant : RegionInvariant allocator)
include invariant

section
variable (member : (key, data) ∈ allocator.allPagesTree.nodes)
include member

theorem region_found {address : Nat} (inside : InPages key data.size address) :
    allocator.allPagesTree.findNodeOrLower address = some (key, data) := by
  rcases append_of_mem member with ⟨left, right, cut⟩
  apply find_node_or_lower_some_iff.mpr
  refine ⟨find_of_cut cut, inside.1, ?_⟩
  intro node other below
  have tiles := invariant.tiles
  rw [cut] at tiles other
  rcases tiles_cut.mp tiles with ⟨_, _, beyond⟩
  rcases mem_append.mp other with early | rest
  · exact (before_lt cut node early).le
  · rcases mem_cons.mp rest with same | late
    · rw [same]
    · have bounds := tiles_piece_bounds beyond late
      have high := inside.2
      simp only [byteLength] at bounds
      omega

theorem region_to_free_accepts (used : data.isFree = false) (positive : 0 < numPages)
    (fits : pages + numPages ≤ data.size) {exact : Bool}
    (whole : exact = true → pages = 0 ∧ data.size = numPages) :
    regionToFree allocator (key + pages * pageSize) numPages exact ≠ none := by
  have bounds := region_bounds invariant member
  have word := invariant.limitWord
  have inside : InPages key data.size (key + pages * pageSize) := by
    simp only [InPages, pageSize]
    omega
  have fitsBytes : pages * pageSize + numPages * pageSize ≤ data.size * pageSize := by
    rw [← add_mul]
    exact Nat.mul_le_mul_right pageSize fits
  cases exact with
  | true =>
    rcases whole rfl with ⟨rfl, size⟩
    have found : allocator.allPagesTree.find? key = some data := find_some_iff.mpr member
    simp [regionToFree, found, used, size]
  | false =>
    have accepted : ¬ (data.isFree = true ∨ key + data.size * pageSize <
        key + pages * pageSize + numPages * pageSize) := by
      rw [used]
      simp
      omega
    simp only [regionToFree, Bool.false_eq_true, if_false, region_found invariant member inside,
      range_end_mul (show key + data.size * pageSize < 2 ^ 64 by omega), range_end_mul (show key +
      pages * pageSize + numPages * pageSize < 2 ^ 64 by omega), if_neg accepted]
    split <;> simp

theorem free_pages_is_free (used : data.isFree = false) (positive : 0 < numPages)
    (fits : pages + numPages ≤ data.size) {exact : Bool}
    (whole : exact = true → pages = 0 ∧ data.size = numPages) (address : Nat) :
    (freePages allocator (key + pages * pageSize) numPages exact).IsFree address ↔
      allocator.IsFree address ∨ InPages (key + pages * pageSize) numPages address := by
  have bounds := region_bounds invariant member
  have word := invariant.limitWord
  have aligned : pageSize ∣ key + pages * pageSize :=
    dvd_add ((tiles_aligned invariant.tiles invariant.aligned).2 _ member)
      (dvd_mul_left pageSize pages)
  have noWrap : key + pages * pageSize + numPages * pageSize < 2 ^ 64 := by
    simp only [pageSize] at bounds ⊢
    omega
  unfold freePages
  rcases region_to_free_spec exact invariant positive aligned noWrap with refused | accepted
  · exact absurd refused (region_to_free_accepts invariant member used positive fits whole)
  rcases accepted with
    ⟨isolated, left, right, start, count, node, call, nodeUsed, at', nodeFits, _, replaces⟩
  rw [call]
  -- Cutting the region out changes no free page; returning it merges it.
  have isolatedInvariant := split_used_keeps_invariant invariant nodeUsed positive nodeFits replaces
  have unchanged : isolated.IsFree address ↔ allocator.IsFree address := by
    rcases replaces.is_free address with ⟨now, before⟩
    rw [now, before]
    have none := @free_in_of_used _ address (@carved_all_used start count numPages node nodeUsed)
    have noneBefore : ¬ FreeIn [(start, node)] address := by simp [nodeUsed]
    simp only [none, noneBefore]
  have nodes := replaces.newNodes
  rw [carved_of_used nodeUsed, ← at'] at nodes
  have cut : isolated.allPagesTree.nodes = (left ++ remainder start count node) ++
      (key + pages * pageSize, { node with size := numPages }) ::
        (remainder (key + pages * pageSize + numPages * pageSize)
          (node.size - count - numPages) node ++ right) := by
    simpa using nodes
  have stillUsed : ({ node with size := numPages } : NodeData).isFree = false := nodeUsed
  rcases (return_region_spec isolatedInvariant stillUsed rfl cut).2 with
    ⟨front, previous, next, back, reserved, around, merges⟩
  have tiles := isolatedInvariant.tiles
  rw [merges.oldNodes] at tiles
  rcases tiles_append.mp tiles with ⟨low, _, rest⟩
  rcases tiles_append.mp rest with ⟨high, middle, _⟩
  rcases merges.is_free address with ⟨now, before⟩
  rw [← unchanged, now, before, free_in_merged around rfl stillUsed middle]
  simp only [or_left_comm, or_comm]

end

theorem run_in_region (positive : 0 < numPages)
    (run : ∀ address, InPages ptr numPages address → allocator.IsFree address) :
    ∃ node ∈ allocator.allPagesTree.nodes, node.2.isFree = true ∧ numPages ≤ node.2.size := by
  have first : InPages ptr numPages ptr := by
    simp only [InPages, pageSize]
    omega
  rcases run ptr first with ⟨⟨key, data⟩, member, free, above, below⟩
  refine ⟨(key, data), member, free, ?_⟩
  by_contra small
  dsimp only at free above below small
  rcases append_of_mem member with ⟨left, right, cut⟩
  have tiles := invariant.tiles
  have chain := invariant.coalesced
  rw [cut] at tiles chain
  rcases tiles_cut.mp tiles with ⟨before, _, beyond⟩
  rcases chain_around chain with ⟨_, _, _, apart⟩
  -- The region ends inside the run, so the address at its end is free as well.
  have ending : InPages ptr numPages (key + data.size * pageSize) := by
    simp only [InPages, pageSize] at above below ⊢
    omega
  rcases run _ ending with ⟨next, nextMember, nextFree, nextAbove, nextBelow⟩
  rw [cut, mem_append, mem_cons] at nextMember
  rcases nextMember with early | same | late
  · have bounds := tiles_piece_bounds before early
    simp only [byteLength] at bounds
    omega
  · rw [same] at nextBelow
    exact absurd nextBelow (lt_irrefl _)
  · have bounds := tiles_piece_bounds beyond late
    have starts : next.1 = key + byteLength data := le_antisymm nextAbove bounds.1
    exact apart next (tiles_first_of_starts beyond late starts) ⟨free, nextFree⟩

end Effects

/-! ## Best fit -/

section
variable (allocator : RegionAllocator)

/-- There are `numPages` consecutive free pages. -/
def HasRun (numPages : Nat) : Prop :=
  ∃ ptr, pageSize ∣ ptr ∧ ∀ address, InPages ptr numPages address → allocator.IsFree address

/-- A smallest free region that is large enough starts at `ptr`. -/
def BestFit (ptr numPages : Nat) : Prop :=
  ∃ data, (ptr, data) ∈ allocator.allPagesTree.nodes ∧ data.isFree = true ∧
    numPages ≤ data.size ∧
    ∀ node ∈ allocator.allPagesTree.nodes, node.2.isFree = true → numPages ≤ node.2.size →
      data.size ≤ node.2.size

/-- The outcome of `AllocatePages(numPages)`, where zero is the null pointer: it fails
exactly when there is no run, without a change, and otherwise takes the start of a best
fit; freeing what it took restores the free pages. -/
structure AllocatesBestFit (after : RegionAllocator) (ptr numPages : Nat) : Prop where
  null : ptr = 0 ↔ ¬ HasRun allocator numPages
  unchanged : ptr = 0 → after = allocator
  fit : ptr ≠ 0 → BestFit allocator ptr numPages
  taken : ptr ≠ 0 → ∀ address, after.IsFree address ↔
    allocator.IsFree address ∧ ¬ InPages ptr numPages address
  restored : ptr ≠ 0 → ∀ exact address,
    (freePages after ptr numPages exact).IsFree address ↔ allocator.IsFree address

/-- `FreePages` of pages of one used region adds exactly these pages. With `exact` the pages
have to be the whole region. -/
def FreesExactly : Prop :=
  ∀ key data pages numPages exact, (key, data) ∈ allocator.allPagesTree.nodes →
    data.isFree = false → 0 < numPages → pages + numPages ≤ data.size →
    (exact = true → pages = 0 ∧ data.size = numPages) →
    ∀ address, (freePages allocator (key + pages * pageSize) numPages exact).IsFree address ↔
      allocator.IsFree address ∨ InPages (key + pages * pageSize) numPages address

end

theorem has_run_of_region {allocator : RegionAllocator} (invariant : RegionInvariant allocator)
    {numPages : Nat} {node : Nat × NodeData} (member : node ∈ allocator.allPagesTree.nodes)
    (free : node.2.isFree = true) (fits : numPages ≤ node.2.size) : HasRun allocator numPages := by
  refine ⟨node.1, (tiles_aligned invariant.tiles invariant.aligned).2 node member, ?_⟩
  intro address inside
  have bytes := Nat.mul_le_mul_right pageSize fits
  exact ⟨node, member, free, inside.1, by have below := inside.2; omega⟩

/-- For every allocator that keeps its invariant and does not manage the page at address
zero, `AllocatePages(numPages)` is a complete best fit, and `FreePages` is its inverse. -/
theorem region_allocator_best_fit (allocator : RegionAllocator)
    (invariant : RegionInvariant allocator) (based : 0 < allocator.start) (numPages : Nat)
    (positive : 0 < numPages) :
    (∃ after ptr, allocatePages allocator numPages = some (after, ptr) ∧
      AllocatesBestFit allocator after ptr numPages) ∧ FreesExactly allocator := by
  refine ⟨?_, fun key data pages count exact member used some fits whole =>
    free_pages_is_free invariant member used some fits whole⟩
  rcases allocate_pages_spec invariant positive with ⟨failed, small⟩ |
    ⟨after, ptr, left, right, data, result, carves, least⟩
  · refine ⟨allocator, 0, failed, ⟨iff_of_true rfl ?_, fun _ => rfl, by simp, by simp, by simp⟩⟩
    rintro ⟨ptr, _, run⟩
    rcases run_in_region invariant positive run with ⟨node, member, free, fits⟩
    exact absurd fits (not_le.mpr (small node member free))
  · have member : (ptr, data) ∈ allocator.allPagesTree.nodes := by
      rw [carves.replaces.oldNodes]
      simp
    have bounds := region_bounds invariant member
    have fits : numPages ≤ data.size := by
      have fits := carves.fits
      omega
    have nonzero : ptr ≠ 0 := by omega
    refine ⟨after, ptr, result, ⟨iff_of_false nonzero ?_, fun null => absurd null nonzero,
      fun _ => ⟨data, member, carves.free, fits, least⟩, fun _ => carves.is_free invariant, ?_⟩⟩
    · exact not_not.mpr (has_run_of_region invariant member carves.free fits)
    · intro _ exact address
      -- The pages that were taken are a region of their own.
      have taken : (ptr, { data with size := numPages, isFree := false }) ∈
          after.allPagesTree.nodes := by
        rw [carves.replaces.newNodes]
        simp [carved]
      have freed := @free_pages_is_free after ptr 0 numPages _
        (carves_keeps_invariant invariant positive carves) taken rfl positive (by simp) exact
        (fun _ => ⟨rfl, rfl⟩) address
      rw [zero_mul, add_zero] at freed
      rw [freed, carves.is_free invariant]
      by_cases inside : InPages ptr numPages address
      · exact iff_of_true (.inr inside) (carves.was_free inside)
      · simp only [inside, not_false_iff, and_true, or_false]

/-- Two allocations at fixed addresses, which leave three free regions. -/
def fragmentingCalls : List RegionCall := [.allocatePagesAt 0x2000 1, .allocatePagesAt 0x6000 2]

def fragmentedNodes : List (Nat × NodeData) :=
  [(0x1000, ⟨1, true, false⟩), (0x2000, ⟨1, false, false⟩), (0x3000, ⟨3, true, false⟩),
    (0x6000, ⟨2, false, false⟩), (0x8000, ⟨8, true, false⟩)]

/-- Two pages are taken from the region with three. -/
theorem fragmented_region_best_fit :
    ∃ allocator, RegionCall.applyAll (initRegion 0x1000 0x10000) fragmentingCalls = some allocator ∧
      allocator.allPagesTree.nodes = fragmentedNodes ∧
      (∃ after, allocatePages allocator 2 = some (after, 0x3000) ∧
        AllocatesBestFit allocator after 0x3000 2) ∧ FreesExactly allocator := by
  obtain ⟨allocator, run, invariant⟩ := RegionCall.apply_all_keeps_invariant
    (@init_region_invariant 0x1000 0x10000 (by decide))
    (show ∀ call ∈ fragmentingCalls, call.Legal by decide)
  have results : ((RegionCall.applyAll (initRegion 0x1000 0x10000) fragmentingCalls).bind
      fun fragmented => (allocatePages fragmented 2).map fun taken =>
        (fragmented.start, fragmented.allPagesTree.nodes, taken.2)) =
      some (0x1000, fragmentedNodes, 0x3000) := by
    decide +kernel
  rw [run, bind_some] at results
  obtain ⟨⟨after, ptr⟩, taken, values⟩ := Option.map_eq_some_iff.mp results
  simp only [Prod.mk.injEq] at values
  obtain ⟨start, nodes, rfl⟩ := values
  obtain ⟨⟨after', ptr', taken', fit⟩, frees⟩ :=
    region_allocator_best_fit allocator invariant (by omega) 2 (by decide)
  rw [taken] at taken'
  cases taken'
  exact ⟨allocator, run, nodes, ⟨after, taken, fit⟩, frees⟩

/-- Where the first page is at address zero, a successful allocation returns null. -/
theorem allocation_at_zero_is_null :
    RegionInvariant (initRegion 0 0x10000) ∧ HasRun (initRegion 0 0x10000) 1 ∧
      ∃ after, allocatePages (initRegion 0 0x10000) 1 = some (after, 0) ∧
        after.usedPageCount = 1 := by
  have invariant : RegionInvariant (initRegion 0 0x10000) := init_region_invariant (by decide)
  refine ⟨invariant, ?_, ?_⟩
  · exact @has_run_of_region _ invariant 1 (0, ⟨16, true, false⟩) (by decide) rfl (by decide)
  · exact ⟨_, rfl, by decide⟩

end FrostyKernel.Memory
