import FrostyKernel.Memory.Cases

/-!
# What backs the pages of an entry that is split

`HandlePageFault` takes the slot at the index of the page in the entry, and the page of
the object at the offset of the entry plus the index times the page size. `SplitMapEntry`
moves the offset of the upper half by the number of pages in front of it, not by their
size, so the upper half of an object mapping shows other pages of the object.
-/

namespace FrostyKernel.Memory

open Word List Option VMM MapEntry

/-- What the fault handler looks at: the slot, and the object with the offset it asks the
pager for. -/
structure Backing where
  slot : Option (Option AnonId)
  object : Option (ObjectId × Nat)
deriving DecidableEq, Repr

def MapEntry.backing (entry : MapEntry) (virtAddr : Nat) : Backing where
  slot := entry.anonMap.bind fun map =>
    map.slots[sub64 (alignDown virtAddr pageSize) entry.startVirt / pageSize]?
  object := entry.memoryObject.map fun id =>
    (id, pageEnd entry.offset (sub64 (alignDown virtAddr pageSize) entry.startVirt / pageSize))

/-- A fault on the address looks at the slot of its index and asks for its object offset. -/
theorem find_fault_backing {vmm : VMM} {code : PageFaultCode} {virtAddr : Nat} {fault : VMM.Fault}
    (found : vmm.findFault code virtAddr = some fault) :
    fault.entry.backing virtAddr =
      ⟨fault.entry.anonMap.bind fun map => map.slots[fault.index]?,
        fault.entry.memoryObject.map fun id => (id, fault.objectOffset)⟩ := by
  obtain ⟨_, _, _, _, _, index⟩ := find_fault_cases found
  rw [backing, VMM.Fault.objectOffset, index]

/-- An entry as the manager makes them: whole pages below the top of the address space, a
slot for each page, and an object that exists. -/
structure WholePages (vmm : VMM) (entry : MapEntry) : Prop where
  aligned : pageSize ∣ entry.startVirt
  ends : entry.endVirt = entry.startVirt + entry.pageCount * pageSize
  word : entry.endVirt < 2 ^ 64
  slots : ∀ map, entry.anonMap = some map →
    map.slotCount = entry.pageCount ∧ map.slots.length = entry.pageCount
  object : ∀ id, entry.memoryObject = some id → vmm.objects id ≠ none

/-- The halves cover the pages of the entry with what backed them before, and the counts
match them. -/
structure SplitsInto (vmm next : VMM) (entry lower upper : MapEntry) (newPageCount : Nat) :
    Prop where
  lowerRange : lower.startVirt = entry.startVirt ∧
    lower.endVirt = entry.startVirt + newPageCount * pageSize
  upperRange : upper.startVirt = entry.startVirt + newPageCount * pageSize ∧
    upper.endVirt = entry.endVirt
  lowerBacking : ∀ virtAddr, lower.Covers virtAddr → lower.backing virtAddr = entry.backing virtAddr
  upperBacking : ∀ virtAddr, upper.Covers virtAddr → upper.backing virtAddr = entry.backing virtAddr
  slotCounts : ∀ map, entry.anonMap = some map → ∃ low high, lower.anonMap = some low ∧
    upper.anonMap = some high ∧ low.slotCount + high.slotCount = map.slotCount ∧
    low.slots.length = low.slotCount ∧ high.slots.length = high.slotCount
  references : ∀ id object, entry.memoryObject = some id → vmm.objects id = some object →
    next.objects id = some { object with refCount := object.refCount + 1 }

section Halves
variable {vmm : VMM} {entry : MapEntry} {newPageCount : Nat}

theorem split_map_entry_succeeds (granted : vmm.outcomes = []) (whole : WholePages vmm entry)
    (newPageCount : Nat) : ∃ next, vmm.splitMapEntry entry newPageCount =
      some (next, some (splitEntry entry newPageCount)) ∧
      ∀ id object, entry.memoryObject = some id → vmm.objects id = some object →
        next.objects id = some { object with refCount := object.refCount + 1 } := by
  have kcalloc : ∀ state : VMM, state.outcomes = [] → state.kcalloc = (state, true) := by
    intro state empty
    unfold kcalloc
    rw [empty]
  have allocated : ∃ log, vmm.splitAllocations entry = ({ vmm with log := log }, true) := by
    unfold splitAllocations
    rw [kcalloc vmm granted]
    cases entry.anonMap with
    | none => exact ⟨vmm.log, rfl⟩
    | some map =>
      simp only [kcalloc vmm granted, kcallocBoth, Bool.and_self]
      split_ifs
      · rw [kcalloc (vmm.acquire (.anonMap entry.startVirt)) granted]
        exact ⟨_, rfl⟩
      · exact ⟨_, rfl⟩
  rcases allocated with ⟨log, allocated⟩
  unfold splitMapEntry
  rw [allocated]
  cases mapped : entry.memoryObject with
  | none => exact ⟨_, rfl, by simp⟩
  | some id =>
    cases present : vmm.objects id with
    | none => exact absurd present (whole.object id mapped)
    | some object =>
      simp only [present]
      refine ⟨_, rfl, ?_⟩
      intro other found same isObject
      cases same
      rw [present] at isObject
      cases isObject
      exact Function.update_self _ _ _

theorem WholePages.middle (whole : WholePages vmm entry) (fewer : newPageCount ≤ entry.pageCount) :
    pageEnd entry.startVirt newPageCount = entry.startVirt + newPageCount * pageSize := by
  have ends := whole.ends
  have word := whole.word
  have bytes := Nat.mul_le_mul_right pageSize fewer
  rw [pageEnd, mul64_of_lt (by omega), add64_of_lt (by omega)]

variable {virtAddr : Nat}

theorem page_index {base : Nat} (aligned : pageSize ∣ base) (above : base ≤ virtAddr)
    (word : virtAddr < 2 ^ 64) :
    sub64 (alignDown virtAddr pageSize) base / pageSize = (virtAddr - base) / pageSize := by
  rcases aligned with ⟨page, start⟩
  have down : alignDown virtAddr pageSize = base + (virtAddr - base) / pageSize * pageSize := by
    simp only [alignDown, start, pageSize] at above ⊢
    omega
  have order := Nat.div_mul_le_self (virtAddr - base) pageSize
  rw [down, sub64_of_le (by omega) (Nat.le_add_right _ _), Nat.add_sub_cancel_left,
    Nat.mul_div_cancel _ (by decide)]

theorem slots_drop {slots : List (Option AnonId)} {count index size : Nat} (inside : index < size) :
    ((slots.drop count).take size)[index]? = slots[count + index]? := by
  rw [getElem?_take_of_lt inside, getElem?_drop]

variable (whole : WholePages vmm entry)
include whole

section
variable (fewer : newPageCount < entry.pageCount)
include fewer

theorem split_lower_backing (covers : (splitEntry entry newPageCount).1.Covers virtAddr) :
    (splitEntry entry newPageCount).1.backing virtAddr = entry.backing virtAddr := by
  have middle := whole.middle fewer.le
  have above : entry.startVirt ≤ virtAddr := covers.1
  have below : virtAddr < pageEnd entry.startVirt newPageCount := covers.2
  rw [middle] at below
  have word := whole.word
  have ends := whole.ends
  have bytes := Nat.mul_le_mul_right pageSize fewer.le
  have inside : sub64 (alignDown virtAddr pageSize) entry.startVirt / pageSize < newPageCount := by
    rw [page_index whole.aligned above (by omega)]
    apply (Nat.div_lt_iff_lt_mul (by decide)).mpr
    omega
  unfold backing splitEntry
  cases entry.anonMap with
  | none => rfl
  | some map => simp [getElem?_take_of_lt inside]

theorem split_upper_backing (anonymous : entry.memoryObject = none)
    (covers : (splitEntry entry newPageCount).2.Covers virtAddr) :
    (splitEntry entry newPageCount).2.backing virtAddr = entry.backing virtAddr := by
  have middle := whole.middle fewer.le
  have above : pageEnd entry.startVirt newPageCount ≤ virtAddr := covers.1
  have below : virtAddr < entry.endVirt := covers.2
  rw [middle] at above
  have word := whole.word
  have ends := whole.ends
  have alignedMiddle : pageSize ∣ entry.startVirt + newPageCount * pageSize :=
    dvd_add whole.aligned (dvd_mul_left pageSize newPageCount)
  have index : sub64 (alignDown virtAddr pageSize) entry.startVirt / pageSize = newPageCount +
      sub64 (alignDown virtAddr pageSize) (entry.startVirt + newPageCount * pageSize) /
        pageSize := by
    rw [page_index whole.aligned (by omega) (by omega), page_index alignedMiddle above (by omega)]
    simp only [pageSize] at above ⊢
    omega
  have inside : sub64 (alignDown virtAddr pageSize) (entry.startVirt + newPageCount * pageSize) /
      pageSize < sub64 entry.endVirt (entry.startVirt + newPageCount * pageSize) / pageSize := by
    rw [page_index alignedMiddle above (by omega), sub64_of_le word (by omega)]
    simp only [pageSize] at above ends ⊢
    omega
  unfold backing splitEntry
  simp only [middle, anonymous]
  cases entry.anonMap with
  | none => rfl
  | some map =>
    simp only [map_some, bind_some, map_none]
    rw [slots_drop inside, index]

theorem split_slot_counts {map : AnonMap} (has : entry.anonMap = some map) : ∃ low high,
      (splitEntry entry newPageCount).1.anonMap = some low ∧
      (splitEntry entry newPageCount).2.anonMap = some high ∧
      low.slotCount + high.slotCount = map.slotCount ∧
      low.slots.length = low.slotCount ∧ high.slots.length = high.slotCount := by
  have middle := whole.middle fewer.le
  have ends := whole.ends
  have word := whole.word
  rcases whole.slots map has with ⟨count, length⟩
  have bytes := Nat.mul_le_mul_right pageSize fewer.le
  have upper : sub64 entry.endVirt (entry.startVirt + newPageCount * pageSize) / pageSize =
      entry.pageCount - newPageCount := by
    rw [sub64_of_le word (by omega), ends, Nat.add_sub_add_left, ← Nat.sub_mul,
      Nat.mul_div_cancel _ (by decide)]
  unfold splitEntry
  simp only [has, middle, upper, map_some]
  refine ⟨_, _, rfl, rfl, ?_, ?_, ?_⟩
  · simp only
    omega
  · simp only [length_take]
    omega
  · simp only [length_take, length_drop]
    omega

end

theorem split_upper_offset (positive : 0 < newPageCount) (fewer : newPageCount < entry.pageCount)
    {id : ObjectId} (mapped : entry.memoryObject = some id) :
    (splitEntry entry newPageCount).2.backing (entry.startVirt + newPageCount * pageSize) ≠
      entry.backing (entry.startVirt + newPageCount * pageSize) := by
  have middle := whole.middle fewer.le
  have ends := whole.ends
  have word := whole.word
  have bytes : newPageCount * pageSize + pageSize ≤ entry.pageCount * pageSize := by
    rw [← Nat.succ_mul]
    exact Nat.mul_le_mul_right pageSize fewer
  have down : alignDown (entry.startVirt + newPageCount * pageSize) pageSize =
      entry.startVirt + newPageCount * pageSize := by
    rcases whole.aligned with ⟨page, start⟩
    rw [alignDown, start]
    unfold pageSize
    omega
  intro same
  have offsets := congrArg Backing.object same
  unfold backing splitEntry at offsets
  simp only [middle, mapped, down, map_some, some.injEq, Prod.mk.injEq, true_and,
    reduceCtorEq, if_false] at offsets
  rw [sub64_of_le (by omega) le_rfl, sub64_of_le (by omega) (by omega), Nat.sub_self,
    Nat.add_sub_cancel_left, Nat.zero_div, Nat.mul_div_cancel _ (by decide)] at offsets
  rw [pageEnd, pageEnd, mul64_of_lt (by omega), mul64_of_lt (by omega), Nat.zero_mul, add64, add64,
    add64, add_zero, Nat.mod_mod] at offsets
  have equal : newPageCount % 2 ^ 64 = newPageCount * pageSize % 2 ^ 64 :=
    Nat.ModEq.add_left_cancel' entry.offset offsets
  rw [Nat.mod_eq_of_lt (by simp only [pageSize] at bytes ends; omega),
    Nat.mod_eq_of_lt (by omega)] at equal
  simp only [pageSize] at equal
  omega

end Halves

/-- For every entry and every split point inside it, with memory for the metadata,
`SplitMapEntry` leaves what backs every page and the counts as they should be exactly when
the entry has no memory object. -/
theorem split_keeps_backing_iff (vmm : VMM) (granted : vmm.outcomes = []) (entry : MapEntry)
    (whole : WholePages vmm entry) (newPageCount : Nat) (positive : 1 ≤ newPageCount)
    (fewer : newPageCount < entry.pageCount) :
    (∃ next lower upper, vmm.splitMapEntry entry newPageCount = some (next, some (lower, upper)) ∧
        SplitsInto vmm next entry lower upper newPageCount) ↔ entry.memoryObject = none := by
  rcases split_map_entry_succeeds granted whole newPageCount with ⟨next, split, references⟩
  have middle := whole.middle fewer.le
  constructor
  · rintro ⟨other, lower, upper, call, splits⟩
    rw [split] at call
    cases call
    cases mapped : entry.memoryObject with
    | none => rfl
    | some id =>
      have covers : (VMM.splitEntry entry newPageCount).2.Covers
          (entry.startVirt + newPageCount * pageSize) := by
        have ends := whole.ends
        have bytes := Nat.mul_lt_mul_of_pos_right fewer (show 0 < pageSize by decide)
        exact ⟨middle.le, by show _ < entry.endVirt; omega⟩
      exact absurd (splits.upperBacking _ covers)
        (split_upper_offset whole positive fewer mapped)
  · intro anonymous
    exact ⟨next, _, _, split, ⟨⟨rfl, middle⟩, ⟨middle, rfl⟩, fun _ covers => split_lower_backing
      whole fewer covers, fun _ covers => split_upper_backing whole fewer anonymous covers, fun _
      has => split_slot_counts whole fewer has, references⟩⟩

def oneObject : VMM :=
  { VMM.empty [] with
    objects := fun id =>
      if id = 0 then some ⟨2, 1, OrderedMap.empty, .tempFS (some .READ_WRITE)⟩ else none
    nextObject := 1 }

/-- Two pages at `0x1000`, with or without the object behind them. -/
def twoPages (object : Option ObjectId) : MapEntry :=
  ⟨0x1000, 0x3000, 0, some ⟨1, 2, [none, none]⟩, object,
    ⟨.READ_WRITE, .writeBack, true, false, true, false⟩⟩

theorem two_pages_whole : WholePages oneObject (twoPages none) := by
  refine ⟨by decide, by decide, by decide, ?_, ?_⟩
  · intro map has
    cases has
    decide
  · intro id has
    cases has

theorem split_anonymous_pages :
    ∃ next lower upper, oneObject.splitMapEntry (twoPages none) 1 =
        some (next, some (lower, upper)) ∧
      SplitsInto oneObject next (twoPages none) lower upper 1 :=
  (split_keeps_backing_iff oneObject rfl (twoPages none) two_pages_whole 1 le_rfl
    (by decide)).mpr rfl

/-- The second page of a file mapping is page 1 of the object in bytes before the split,
and byte 1 after it. -/
theorem split_moves_file_page :
    ∃ next lower upper, oneObject.splitMapEntry (twoPages (some 0)) 1 =
        some (next, some (lower, upper)) ∧ upper.Covers 0x2000 ∧
      (twoPages (some 0)).backing 0x2000 = ⟨some none, some (0, 0x1000)⟩ ∧
      upper.backing 0x2000 = ⟨some none, some (0, 1)⟩ :=
  ⟨_, _, _, rfl, by decide, by decide, by decide⟩

end FrostyKernel.Memory
