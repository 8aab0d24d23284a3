import FrostyKernel.Memory.FreeSet

/-!
# Allocation at a given address

`AllocatePages(ptr, numPages)` compares the end of the region with the end of the request,
and the end of the request is computed modulo `2 ^ 64`. A request that passes the top of
the address space ends below its start and is accepted in any free region that reaches
this far. The request comes from user space.
-/

namespace FrostyKernel.Memory

open Word OrderedMap

section
variable (allocator : RegionAllocator) (ptr numPages : Nat)

/-- The request passes the tests of `AllocatePages(ptr, numPages)`. -/
def Accepted : Prop :=
  ∃ key data, allocator.allPagesTree.findNodeOrLower ptr = some (key, data) ∧
    data.isFree = true ∧ add64 ptr (shl64 numPages 12) ≤ key + data.size * pageSize

/-- The pages from `ptr` on exist and are free. -/
def AllFree : Prop :=
  ∀ index < numPages, allocator.start ≤ ptr + index * pageSize ∧
    ptr + (index + 1) * pageSize ≤ allocator.limit ∧
    ∀ offset < pageSize, allocator.IsFree (ptr + index * pageSize + offset)

/-- Only free pages are given out, the invariant is kept and a failure changes nothing. -/
structure GivesFreePages (after : RegionAllocator) (ptr numPages result : Nat) :
    Prop where
  free : result ≠ 0 → AllFree allocator ptr numPages
  invariant : RegionInvariant after
  unchanged : result = 0 → after = allocator

end

section Requests
variable {allocator : RegionAllocator} {ptr numPages : Nat}

/-- A region that ends below the end of a request does not wrap. -/
theorem allocate_pages_at_refuses (refused : ¬ Accepted allocator ptr numPages) :
    allocatePagesAt allocator ptr numPages = some (allocator, 0) := by
  unfold allocatePagesAt
  cases found : allocator.allPagesTree.findNodeOrLower ptr with
  | none => rfl
  | some node =>
    rcases node with ⟨key, data⟩
    refine if_pos ?_
    by_contra passes
    simp only [not_or, Bool.not_eq_false, not_lt] at passes
    refine refused ⟨key, data, found, passes.1, ?_⟩
    by_contra beyond
    have word : add64 ptr (shl64 numPages 12) < 2 ^ 64 := Nat.mod_lt _ (by decide)
    simp only [pageSize, not_le] at beyond
    have reaches : add64 key (shl64 data.size 12) = key + data.size * 2 ^ 12 := by
      rw [shl64_of_lt (by omega), add64_of_lt (by omega)]
    omega

section
variable (invariant : RegionInvariant allocator)
include invariant

theorem allocate_pages_at_accepts (accepted : Accepted allocator ptr numPages) :
    ∃ after, allocatePagesAt allocator ptr numPages = some (after, ptr) ∧
      after.usedPageCount = add64 allocator.usedPageCount numPages := by
  rcases accepted with ⟨key, data, found, free, reaches⟩
  rcases exists_cut (find_node_or_lower_some_iff.mp found).1 with ⟨left, right, cut⟩
  have listed := listed_of_free invariant cut free
  have present : allocator.freePagesTree.find? data.size ≠ none := by
    intro absent
    simp [free_keys_of_none absent] at listed
  have passes : ¬ (data.isFree = false ∨
      key + data.size * pageSize < add64 ptr (shl64 numPages 12)) := by
    simp [free, reaches]
  unfold allocatePagesAt
  simp only [found]
  rw [region_end invariant cut, if_neg passes, if_neg present]
  refine ⟨_, rfl, ?_⟩
  simp only [countUsed, markNode]
  rw [(list_back_books _ _ _).used, (list_front_books _ _ _).used, (take_free_books _ _ _ _).used]

theorem Carves.all_free {after : RegionAllocator} {left right : List (Nat × NodeData)}
    {key pages : Nat} {data : NodeData}
    (carves : Carves allocator after ptr numPages left right key pages data) :
    AllFree allocator ptr numPages := by
  have member : (key, data) ∈ allocator.allPagesTree.nodes := by
    rw [carves.replaces.oldNodes]
    simp
  have bounds := region_bounds invariant member
  have address := carves.address
  have fits := carves.fits
  intro index below
  simp only [pageSize] at bounds address ⊢
  refine ⟨by omega, by omega, ?_⟩
  intro offset within
  apply carves.was_free
  simp only [InPages, pageSize]
  omega

end
end Requests

/-- For every allocator that keeps its invariant, every page-aligned address and every
number of pages, the call gives out free pages only, keeps the invariant and changes
nothing where it returns null, exactly when it does not accept a request that passes the
top of the address space or starts at address zero. -/
theorem fixed_allocation_sound_iff (allocator : RegionAllocator)
    (invariant : RegionInvariant allocator) (ptr numPages : Nat) (aligned : pageSize ∣ ptr)
    (positive : 0 < numPages) (word : numPages < 2 ^ 64) :
    (∃ after result, allocatePagesAt allocator ptr numPages = some (after, result) ∧
        GivesFreePages allocator after ptr numPages result) ↔
      ¬ (Accepted allocator ptr numPages ∧
        (ptr = 0 ∨ 2 ^ 64 ≤ ptr + numPages * pageSize)) := by
  constructor
  · rintro ⟨after, result, call, gives⟩ ⟨accepted, bad⟩
    rcases allocate_pages_at_accepts invariant accepted with ⟨other, returned, counted⟩
    rw [call] at returned
    cases returned
    have limit := invariant.limitWord
    -- At address zero the result is null, but the pages are counted.
    have nonzero : ptr ≠ 0 := by
      intro atZero
      rw [gives.unchanged atZero] at counted
      have total := pages_total invariant.tiles
      rw [← invariant.freeCount, ← invariant.usedCount] at total
      simp only [pageSize, add64] at total counted
      omega
    have wraps := bad.resolve_left nonzero
    have last := (gives.free nonzero (numPages - 1) (by omega)).2.1
    rw [Nat.sub_add_cancel positive] at last
    omega
  · intro harmless
    by_cases accepted : Accepted allocator ptr numPages
    · have fits : ¬ (ptr = 0 ∨ 2 ^ 64 ≤ ptr + numPages * pageSize) :=
        fun bad => harmless ⟨accepted, bad⟩
      rw [not_or, not_le] at fits
      rcases allocate_pages_at_spec invariant positive aligned fits.2 with failed |
        ⟨after, left, right, key, pages, data, call, carves⟩
      · exact ⟨allocator, 0, failed, by simp, invariant, fun _ => rfl⟩
      · exact ⟨after, ptr, call, fun _ => carves.all_free invariant,
          carves_keeps_invariant invariant positive carves, fun null => absurd null fits.1⟩
    · exact ⟨allocator, 0, allocate_pages_at_refuses accepted, by simp, invariant, fun _ => rfl⟩

theorem fixed_allocation_of_two_pages :
    ∃ after result, allocatePagesAt (initRegion 0x1000 0x10000) 0x2000 2 = some (after, result) ∧
      GivesFreePages (initRegion 0x1000 0x10000) after 0x2000 2 result :=
  (fixed_allocation_sound_iff (initRegion 0x1000 0x10000) (init_region_invariant (by decide))
    0x2000 2 (by decide) (by decide) (by decide)).mpr fun bad => by
      have wraps := bad.2
      exact absurd wraps (by decide)

/-- A request for all but one of `2 ^ 52` pages ends at the start of the region, is
accepted and makes the counts of the allocator wrap. -/
theorem wrapped_allocation_accepted :
    RegionInvariant (initRegion 0x1000 0x10000) ∧
      ∃ after, allocatePagesAt (initRegion 0x1000 0x10000) 0x2000 (2 ^ 52 - 1) =
          some (after, 0x2000) ∧
        ¬ AllFree (initRegion 0x1000 0x10000) 0x2000 (2 ^ 52 - 1) ∧ ¬ RegionInvariant after := by
  have invariant : RegionInvariant (initRegion 0x1000 0x10000) := init_region_invariant (by decide)
  refine ⟨invariant, _, rfl, ?_, ?_⟩
  · intro free
    have last := (free (2 ^ 52 - 2) (by decide)).2.1
    exact absurd last (by decide)
  · intro broken
    have counted := broken.usedCount
    exact absurd counted (by decide)

end FrostyKernel.Memory
