import FrostyKernel.Memory.VMM

/-!
# What the operations of the manager can do

For the functions that several modules argue about: from the result, the branch that was
taken, the guards of that branch and the new state.
-/

namespace FrostyKernel.Memory.VMM

open Word

variable {vmm next : VMM}

/-! ### Allocations -/

variable {outcome success : Bool} {id : ObjectId} {object : MemoryObject} {offset virtAddr : Nat}
  {entry : MapEntry}

theorem kcalloc_cases (result : vmm.kcalloc = (next, outcome)) :
    ∃ outcomes, next = { vmm with outcomes := outcomes } := by
  unfold kcalloc at result
  split at result
  · rename_i empty
    exact ⟨[], by rw [← (Prod.mk.inj result).1, ← empty]⟩
  · rename_i first rest more
    exact ⟨rest, (Prod.mk.inj result).1.symm⟩

theorem kcalloc_both_cases (result : vmm.kcallocBoth = (next, outcome)) :
    ∃ outcomes, next = { vmm with outcomes := outcomes } := by
  unfold kcallocBoth at result
  generalize first : vmm.kcalloc = early at result
  obtain ⟨middle, left⟩ := early
  dsimp only at result
  generalize second : middle.kcalloc = late at result
  obtain ⟨final, right⟩ := late
  obtain ⟨outcomes, rfl⟩ := kcalloc_cases first
  obtain ⟨last, same⟩ := kcalloc_cases second
  exact ⟨last, (Prod.mk.inj result).1.symm.trans same⟩

theorem allocate_page_cases {frame : Nat} (result : vmm.allocatePage = some (next, frame)) :
    ∃ rest, vmm.freeFrames = frame :: rest ∧ next = { vmm with freeFrames := rest } := by
  unfold allocatePage at result
  split at result
  · simp at result
  · rename_i first rest free
    cases result
    exact ⟨rest, free, rfl⟩

theorem get_page_cases {page : Option Page}
    (result : vmm.getPage id object offset = some (next, page)) :
    (page = none ∧ ∃ outcomes, next = { vmm with outcomes := outcomes }) ∨
    (∃ found, page = some found ∧ object.pages.find? offset = some found ∧ next = vmm) ∨
    (∃ outcomes frame rest prot, object.pages.find? offset = none ∧
      vmm.freeFrames = frame :: rest ∧ page = some ⟨frame, prot, false⟩ ∧
      next = ({ vmm with outcomes := outcomes, freeFrames := rest }.zeroPage frame).setObject id
        (some { object with pages := object.pages.insert offset ⟨frame, prot, false⟩ })) := by
  unfold getPage at result
  split at result
  · cases result
    exact .inl ⟨rfl, vmm.outcomes, rfl⟩
  split_ifs at result with beyond
  · cases result
    exact .inl ⟨rfl, vmm.outcomes, rfl⟩
  split at result
  · cases result
    exact .inl ⟨rfl, vmm.outcomes, rfl⟩
  rename_i prot paged
  split at result
  · rename_i found present
    cases result
    exact .inr (.inl ⟨found, rfl, present, rfl⟩)
  rename_i absent
  split at result
  · rename_i failed refused
    cases result
    exact .inl ⟨rfl, kcalloc_cases refused⟩
  rename_i granted success
  split at result
  · simp at result
  · rename_i taken frame popped
    cases result
    obtain ⟨outcomes, rfl⟩ := kcalloc_cases success
    obtain ⟨rest, free, rfl⟩ := allocate_page_cases popped
    exact .inr (.inr ⟨outcomes, frame, rest, prot, absent, free, rfl, rfl⟩)

/-! ### Splitting -/

/-- Every object that is left has the pages it had. -/
def SamePages (before after : VMM) : Prop :=
  ∀ id object, after.objects id = some object →
    ∃ old, before.objects id = some old ∧ old.pages = object.pages

/-- The step left the page table and the pages of the objects alone. -/
structure Spares (before after : VMM) : Prop where
  pageTable : after.pageTable = before.pageTable
  pages : SamePages before after

section Sparing
variable {first second third : VMM}

theorem SamePages.of_same (objects : second.objects = first.objects) : SamePages first second := by
  intro id object present
  exact ⟨object, by rw [← objects, present], rfl⟩

theorem SamePages.trans (early : SamePages first second) (late : SamePages second third) :
    SamePages first third := by
  intro id object present
  obtain ⟨middle, between, same⟩ := late id object present
  obtain ⟨old, before, same'⟩ := early id middle between
  exact ⟨old, before, same'.trans same⟩

theorem SamePages.set_object {old : MemoryObject} {fresh : Option MemoryObject}
    (present : vmm.objects id = some old)
    (pages : ∀ object, fresh = some object → object.pages = old.pages) :
    SamePages vmm (vmm.setObject id fresh) := by
  intro other object found
  change Function.update vmm.objects id fresh other = some object at found
  by_cases same : other = id
  · subst same
    rw [Function.update_self] at found
    exact ⟨old, present, (pages object found).symm⟩
  · rw [Function.update_of_ne same] at found
    exact ⟨object, found, rfl⟩

theorem Spares.of_same (pageTable : second.pageTable = first.pageTable)
    (objects : second.objects = first.objects) : Spares first second :=
  ⟨pageTable, .of_same objects⟩

theorem Spares.trans (early : Spares first second) (late : Spares second third) :
    Spares first third :=
  ⟨late.pageTable.trans early.pageTable, early.pages.trans late.pages⟩

end Sparing

theorem split_allocations_cases (result : vmm.splitAllocations entry = (next, success)) :
    ∃ outcomes log, next = { vmm with outcomes := outcomes, log := log } := by
  unfold splitAllocations at result
  split at result
  · rename_i failed refused
    obtain ⟨outcomes, rfl⟩ := kcalloc_cases refused
    exact ⟨outcomes, vmm.log, (Prod.mk.inj result).1.symm⟩
  rename_i first granted
  obtain ⟨outcomes, rfl⟩ := kcalloc_cases granted
  split at result
  · exact ⟨outcomes, vmm.log, (Prod.mk.inj result).1.symm⟩
  split at result
  · rename_i failed refused
    obtain ⟨outcomes, rfl⟩ := kcalloc_cases refused
    exact ⟨outcomes, vmm.log, (Prod.mk.inj result).1.symm⟩
  rename_i second grantedSecond
  obtain ⟨outcomes, rfl⟩ := kcalloc_cases grantedSecond
  split at result
  · rename_i failed refused
    obtain ⟨outcomes, rfl⟩ := kcalloc_both_cases refused
    exact ⟨outcomes, vmm.log, (Prod.mk.inj result).1.symm⟩
  rename_i third grantedThird
  obtain ⟨outcomes, rfl⟩ := kcalloc_both_cases grantedThird
  dsimp only at result
  split_ifs at result
  · generalize last : kcalloc _ = outcome at result
    obtain ⟨outcomes, same⟩ := kcalloc_cases last
    refine ⟨outcomes, vmm.log ++ [.acquire (.anonMap entry.startVirt)] ++
      [.release (.anonMap entry.startVirt)], ?_⟩
    rw [← (Prod.mk.inj result).1, same]
    rfl
  · refine ⟨outcomes, vmm.log ++ [.acquire (.anonMap entry.startVirt)] ++
      [.release (.anonMap entry.startVirt)], ?_⟩
    rw [← (Prod.mk.inj result).1]
    rfl

/-- A split leaves the tree to the caller. -/
theorem split_map_entry_cases {newPageCount : Nat} {halves : Option (MapEntry × MapEntry)}
    (result : vmm.splitMapEntry entry newPageCount = some (next, halves)) :
    Spares vmm next ∧ next.mapEntries = vmm.mapEntries ∧
      ∀ parts, halves = some parts → splitEntry entry newPageCount = parts := by
  unfold splitMapEntry at result
  split at result
  · rename_i failed refused
    cases result
    obtain ⟨outcomes, log, rfl⟩ := split_allocations_cases refused
    exact ⟨.of_same rfl rfl, rfl, by simp⟩
  rename_i granted allocated
  obtain ⟨outcomes, log, rfl⟩ := split_allocations_cases allocated
  split at result
  · cases result
    refine ⟨.of_same rfl rfl, rfl, ?_⟩
    intro parts same
    exact Option.some.inj same
  rename_i id mapped
  split at result
  · cases result
  · rename_i object present
    cases result
    have counted : SamePages vmm
        (vmm.setObject id (some { object with refCount := object.refCount + 1 })) :=
      SamePages.set_object present (by simp)
    refine ⟨⟨rfl, counted.trans (.of_same rfl)⟩, rfl, ?_⟩
    intro parts same
    exact Option.some.inj same

/-! ### Freeing -/

theorem select_congr (request : Request) {left right : Cursor}
    (tree : left.vmm.mapEntries = right.vmm.mapEntries) (virt : left.virt = right.virt)
    (count : left.currentCount = right.currentCount) (first : left.first = right.first) :
    request.select left = request.select right := by
  unfold Request.select
  rw [tree, virt, count, first]

/-- A call of `Internal_FreePages` is refused at once or is its loop. -/
theorem guarded_cases {empty outside : Prop} [Decidable empty] [Decidable outside]
    {body : Option (Option (VMM × Bool))}
    (result : (if empty then some (vmm, false) else if outside then some (vmm, false)
      else body.join) = some (next, success)) :
    (next = vmm ∧ success = false ∧ (outside ∨ empty)) ∨
    (¬ outside ∧ ¬ empty ∧ body = some (some (next, success))) := by
  split_ifs at result with refused beyond
  · cases result
    exact .inl ⟨rfl, rfl, .inr refused⟩
  · cases result
    exact .inl ⟨rfl, rfl, .inl beyond⟩
  · exact .inr ⟨beyond, refused, Option.join_eq_some_iff.mp result⟩

/-! ### Faults -/

variable {code : PageFaultCode}

theorem find_fault_cases {fault : Fault} (found : vmm.findFault code virtAddr = some fault) :
    vmm.mapEntries.findNodeOrLower virtAddr = some (fault.key, fault.entry) ∧
      fault.entry.Covers virtAddr ∧ faultAllowed fault.flags.protection code = true ∧
      fault.code = code ∧ fault.virt = alignDown virtAddr pageSize ∧
      fault.index = sub64 (alignDown virtAddr pageSize) fault.entry.startVirt / pageSize := by
  unfold findFault at found
  split at found
  · cases found
  · rename_i key entry lower
    split_ifs at found with refused allowed
    cases found
    push Not at refused
    exact ⟨lower, ⟨refused.1, refused.2.1⟩, by simpa [Fault.flags] using allowed, rfl, rfl, rfl⟩

/-- A fault is refused, or belongs to an entry and is passed on to its part. -/
theorem handle_page_fault_cases
    (result : vmm.handlePageFault code virtAddr = some (next, success)) :
    ((virtAddr < vmm.regions.start ∨ vmm.regions.limit ≤ virtAddr) ∧ next = vmm ∧ success = false) ∨
    (vmm.regions.start ≤ virtAddr ∧ virtAddr < vmm.regions.limit ∧
      ((vmm.findFault code virtAddr = none ∧ success = false ∧
          next = (vmm.acquire .mapEntries).release .mapEntries) ∨
        (∃ fault, vmm.findFault code virtAddr = some fault ∧
          ((∃ map, fault.entry.anonMap = some map ∧
              fault.onAnonMap (vmm.acquire .mapEntries) map = some (next, success)) ∨
            (∃ id, fault.entry.anonMap = none ∧ fault.entry.memoryObject = some id ∧
              fault.onObject (vmm.acquire .mapEntries) id = some (next, success)))))) := by
  unfold handlePageFault at result
  split at result
  · rename_i outside
    cases result
    exact .inl ⟨outside, rfl, rfl⟩
  rename_i inside
  simp only [not_or, not_lt, not_le] at inside
  refine .inr ⟨inside.1, inside.2, ?_⟩
  dsimp only at result
  have same : (vmm.acquire .mapEntries).findFault code virtAddr = vmm.findFault code virtAddr := rfl
  rw [same] at result
  split at result
  · rename_i refused
    cases result
    exact .inl ⟨refused, rfl, rfl⟩
  rename_i fault found
  refine .inr ⟨fault, found, ?_⟩
  split at result
  · rename_i map present
    exact .inl ⟨map, present, result⟩
  · rename_i id absent present
    exact .inr ⟨id, absent, present, result⟩
  · simp at result

namespace Fault

variable {fault : Fault} {anonMap : AnonMap}

theorem on_anon_map_cases {locked : VMM}
    (result : fault.onAnonMap vmm anonMap = some (next, success))
    (before : locked = (vmm.acquire fault.mapLock).release .mapEntries) :
    (∃ id anon, anonMap.slots[fault.index]? = some (some id) ∧ vmm.anons id = some anon ∧
      fault.onAnon locked anonMap id anon = some (next, success)) ∨
    (∃ id, anonMap.slots[fault.index]? = some none ∧ fault.entry.memoryObject = some id ∧
      fault.onObjectSlot locked anonMap id = some (next, success)) ∨
    (anonMap.slots[fault.index]? = some none ∧ fault.entry.memoryObject = none ∧
      fault.onEmptySlot locked anonMap = some (next, success)) := by
  unfold onAnonMap at result
  dsimp only at result
  rw [← before] at result
  split at result
  · simp at result
  · rename_i id populated
    split at result
    · simp at result
    · rename_i anon present
      rw [before] at present
      exact .inl ⟨id, anon, populated, present, result⟩
  · rename_i empty
    split at result
    · rename_i id mapped
      exact .inr (.inl ⟨id, empty, mapped, result⟩)
    · rename_i absent
      exact .inr (.inr ⟨empty, absent, result⟩)

end Fault
end FrostyKernel.Memory.VMM
