import FrostyKernel.Lib.Run
import FrostyKernel.Memory.System

/-!
# The operations of the virtual memory manager

`VMM.cpp`, function by function. A result `none` is a call that does not return:
a failed assertion or the use of a pointer that is null or dangling. Null
pointers that the functions return are the address zero.

The loop of `Internal_FreePages` is a step function for `FrostyKernel.loop`.
-/

namespace FrostyKernel.Memory

open Word

/-- `(entry->endVirt - entry->startVirt) >> PAGE_SIZE_SHIFT` on machine words. -/
def MapEntry.pages (entry : MapEntry) : Nat := sub64 entry.endVirt entry.startVirt / pageSize

/-- `start + count * PAGE_SIZE`. -/
def pageEnd (start count : Nat) : Nat := add64 start (mul64 count pageSize)

namespace VMM

/-! ### Splitting an entry -/

/-- The two halves of `SplitMapEntry`. The lower half keeps the first
`newPageCount` pages; the upper half of an object mapping starts `newPageCount`
further into the object. -/
def splitEntry (entry : MapEntry) (newPageCount : Nat) : MapEntry × MapEntry :=
  let middle := pageEnd entry.startVirt newPageCount
  let upperPageCount := sub64 entry.endVirt middle / pageSize
  ({ entry with
      endVirt := middle
      anonMap := entry.anonMap.map fun map =>
        { map with
          refCount := if map.refCount > 1 then 1 else map.refCount
          slotCount := newPageCount
          slots := map.slots.take newPageCount } },
    { entry with
      startVirt := middle
      offset := if entry.memoryObject = none then 0 else add64 entry.offset newPageCount
      anonMap := entry.anonMap.map fun map =>
        { refCount := 1
          slotCount := upperPageCount
          slots := (map.slots.drop newPageCount).take upperPageCount } })

section
variable (vmm : VMM) (entry : MapEntry)

/-- The allocations of `SplitMapEntry`, with the lock it holds for the last. -/
def splitAllocations : VMM × Bool :=
  match vmm.kcalloc with
  | (failed, false) => (failed, false)
  | (granted, true) =>
    match entry.anonMap with
    | none => (granted, true)
    | some map =>
      match granted.kcalloc with
      | (failed, false) => (failed, false)
      | (granted, true) =>
        match granted.kcallocBoth with
        | (failed, false) => (failed, false)
        | (granted, true) =>
          let locked := granted.acquire (.anonMap entry.startVirt)
          if map.refCount > 1 then
            let (last, success) := locked.kcalloc
            (last.release (.anonMap entry.startVirt), success)
          else (locked.release (.anonMap entry.startVirt), true)

/-- `SplitMapEntry(entry, newPageCount)`: both halves, or nothing when an
allocation fails. -/
def splitMapEntry (newPageCount : Nat) : Option (VMM × Option (MapEntry × MapEntry)) :=
  match vmm.splitAllocations entry with
  | (failed, false) => some (failed, none)
  | (granted, true) =>
    match entry.memoryObject with
    | none => some (granted, some (splitEntry entry newPageCount))
    | some id =>
      match granted.objects id with
      | none => none
      | some object =>
        let shared := (granted.acquire (.object id)).setObject id
          (some { object with refCount := object.refCount + 1 })
        some (shared.release (.object id), some (splitEntry entry newPageCount))

/-! ### Freeing -/

/-- The lowest and the highest of the addresses or indices met in a loop, from
`UINT64_MAX` and zero. -/
def extent (found : List Nat) : Nat × Nat :=
  found.foldl (fun range value => (min range.1 value, value)) (2 ^ 64 - 1, 0)

/-- The slots of a map whose page is unmapped: those with an `Anon` and, behind
an object, those whose key `offset + i` the object has a page for. -/
def mappedSlots (map : AnonMap) (object : Option MemoryObject) : List Nat :=
  (List.range map.slotCount).filter fun index =>
    ((map.slots[index]?).getD none).isSome ||
      (match object with
       | none => false
       | some object => (object.pages.find? (add64 entry.offset index)).isSome)

def unmapAll (addresses : List Nat) : VMM := addresses.foldl unmapPage vmm

end

/-- The second loop over the slots: the frame is given back, then the count of
the `Anon` goes down. -/
def dropSlots : List (Option AnonId) → VMM → Option VMM
  | [], vmm => some vmm
  | none :: rest, vmm => dropSlots rest vmm
  | some id :: rest, vmm =>
    match vmm.anons id with
    | none => none
    | some anon =>
      let count := sub64 anon.refCount 1
      dropSlots rest ((vmm.freePage anon.physAddr).setAnon id
        (if count = 0 then none else some { anon with refCount := count }))

/-- Give back the frames of the pages met by `forEach`. -/
def freeObjectPages (vmm : VMM) (pages : List (Nat × Page)) : VMM :=
  pages.foldl (fun current node =>
    if node.2.physAddr ≠ 0 then current.freePage node.2.physAddr else current) vmm

/-- The end of an object's use by an entry, with the lock of the object held.
The pages are those `forEach` meets from position `entry->offset` on. -/
def dropObject (vmm : VMM) (id : ObjectId) (object : MemoryObject) (offset : Nat) : VMM :=
  let count := sub64 object.refCount 1
  if count = 0 then
    ((vmm.freeObjectPages (object.pages.nodes.drop offset)).setObject id none).destroy (.object id)
  else (vmm.setObject id (some { object with refCount := count })).release (.object id)

def lockObject (vmm : VMM) (id : Option ObjectId) : Option (VMM × Option (ObjectId × MemoryObject)) :=
  match id with
  | none => some (vmm, none)
  | some id =>
    match vmm.objects id with
    | none => none
    | some object => some (vmm.acquire (.object id), some (id, object))

section
variable (vmm : VMM) (entry : MapEntry) (map : AnonMap) (object : Option MemoryObject)
  (virtAddr : Nat)

/-- `InvalidatePages` over what was unmapped, where anything was. -/
def invalidateExtent (range : Nat × Nat) (virt count : Nat) : VMM :=
  if range.1 ≠ 2 ^ 64 - 1 then vmm.invalidatePages virt count true else vmm

/-- The first loop over the slots and the invalidation. Its base is the address
the call was made with. -/
def unmapSlots : VMM :=
  let mapped := mappedSlots entry map object
  let range := extent mapped
  (vmm.unmapAll (mapped.map (pageEnd entry.startVirt))).invalidateExtent range
    (pageEnd virtAddr range.1) (mul64 (sub64 range.2 range.1) pageSize)

def leaveMap : VMM :=
  if sub64 map.refCount 1 = 0 then vmm.destroy (.anonMap entry.startVirt)
  else vmm.release (.anonMap entry.startVirt)

end

/-- The part of `Internal_FreePages` for an entry with an `AnonMap`. -/
def dropAnonMap (vmm : VMM) (entry : MapEntry) (map : AnonMap) (virtAddr : Nat) : Option VMM :=
  match (vmm.acquire (.anonMap entry.startVirt)).lockObject entry.memoryObject with
  | none => none
  | some (locked, object) =>
    if map.slots.length < map.slotCount then none
    else
      match dropSlots (map.slots.take map.slotCount)
          (locked.unmapSlots entry map (object.map Prod.snd) virtAddr) with
      | none => none
      | some dropped =>
        match object with
        | none => some (dropped.leaveMap entry map)
        | some (id, object) =>
          some ((dropped.leaveMap entry map).dropObject id object entry.offset)

def mappedKeys (entry : MapEntry) (object : MemoryObject) : List Nat :=
  ((object.pages.nodes.drop entry.offset).filter fun node => node.2.physAddr ≠ 0).map Prod.fst

def unmapKeys (vmm : VMM) (entry : MapEntry) (object : MemoryObject) : VMM :=
  let mapped := mappedKeys entry object
  let range := extent mapped
  (vmm.unmapAll mapped).invalidateExtent range range.1 (sub64 range.2 range.1)

/-- The part of `Internal_FreePages` for an entry with an object only. -/
def dropObjectEntry (vmm : VMM) (entry : MapEntry) (id : ObjectId) : Option VMM :=
  match vmm.objects id with
  | none => none
  | some object =>
    some (((vmm.acquire (.object id)).unmapKeys entry object).dropObject id object entry.offset)

def dropEntry (vmm : VMM) (entry : MapEntry) (virtAddr : Nat) : Option VMM :=
  match entry.anonMap, entry.memoryObject with
  | some map, _ => vmm.dropAnonMap entry map virtAddr
  | none, some id => vmm.dropObjectEntry entry id
  | none, none => some vmm

/-- Where a loop over regions stands. -/
structure Cursor where
  vmm : VMM
  virt : Nat
  currentCount : Nat
  first : Bool

/-- The arguments of a loop over regions, with `full` for a page count of zero. -/
structure Request where
  virtAddr : Nat
  totalCount : Nat
  full : Bool
  multipleRegions : Bool
deriving DecidableEq, Repr

def Request.select (request : Request) (cursor : Cursor) : Option (Nat × MapEntry × Nat) :=
  let found :=
    if request.full then
      (cursor.vmm.mapEntries.find? cursor.virt).map fun entry => (cursor.virt, entry)
    else cursor.vmm.mapEntries.findNodeOrLower cursor.virt
  match found with
  | none => none
  | some (key, entry) =>
    let count := if cursor.first ∧ request.multipleRegions = false then request.totalCount else 1
    if (request.full ∧ entry.startVirt ≠ cursor.virt) ∨
        (request.full = false ∧ entry.endVirt < pageEnd cursor.virt count) then none
    else if cursor.first = false ∧ request.multipleRegions then
      some (key, entry, min entry.pages (sub64 request.totalCount cursor.currentCount))
    else some (key, entry, count)

def Request.isPart (request : Request) (virt : Nat) (entry : MapEntry) (count : Nat) : Prop :=
  request.full = false ∧ (entry.startVirt ≠ virt ∨ entry.endVirt ≠ pageEnd virt count)

instance (request : Request) (virt : Nat) (entry : MapEntry) (count : Nat) :
    Decidable (request.isPart virt entry count) := by
  unfold Request.isPart
  infer_instance

def Request.advance (cursor : Cursor) (vmm : VMM) (count : Nat) : Cursor :=
  { vmm := vmm
    virt := pageEnd cursor.virt count
    currentCount := add64 cursor.currentCount count
    first := false }

section
variable (vmm : VMM) (entry : MapEntry) (virt key count : Nat)

/-- `m_mapEntries.Insert(entry->startVirt, entry)`. -/
def insertEntry : VMM := { vmm with mapEntries := vmm.mapEntries.insert entry.startVirt entry }

def setEntry (entry : MapEntry) : VMM := { vmm with mapEntries := vmm.mapEntries.set key entry }

def removeEntry : VMM := { vmm with mapEntries := vmm.mapEntries.erase key }

/-- Cut what an entry that is out of the tree has beyond `count` pages and put it
back into the tree. -/
def cutBack : Option (VMM × Option MapEntry) :=
  if pageEnd virt count < entry.endVirt then
    match vmm.splitMapEntry entry count with
    | none => none
    | some (failed, none) => some (failed, none)
    | some (next, some (lower, upper)) => some (next.insertEntry upper, some lower)
  else some (vmm, some entry)

def detach (entry : MapEntry) (virt count : Nat) : Option (VMM × Option MapEntry) :=
  if entry.startVirt < virt then
    match vmm.splitMapEntry entry (sub64 virt entry.startVirt / pageSize) with
    | none => none
    | some (failed, none) => some (failed, none)
    | some (next, some (lower, upper)) => (next.setEntry key lower).cutBack upper virt count
  else (vmm.removeEntry key).cutBack entry virt count

/-- `m_vmRegionAllocator->FreePages`. -/
def freeRegion (ptr count : Nat) (exact : Bool) : VMM :=
  { vmm with regions := Memory.freePages vmm.regions ptr count exact }

end

/-- The entry to free and its page count, out of the tree, with the tree unlocked
again. -/
def takeOut (request : Request) (lock : Bool) (cursor : Cursor) :
    Option (VMM × Option (MapEntry × Nat)) :=
  let locked := cursor.vmm.acquireIf lock
  match request.select { cursor with vmm := locked } with
  | none => some (locked.releaseIf lock, none)
  | some (key, entry, count) =>
    if request.isPart cursor.virt entry count then
      match locked.detach key entry cursor.virt count with
      | none => none
      | some (failed, none) => some (failed.releaseIf lock, none)
      | some (next, some piece) => some (next.releaseIf lock, some (piece, count))
    else
      some ((locked.removeEntry key).releaseIf lock,
        some (entry, if request.full then entry.pages else count))

/-- One iteration of `Internal_FreePages`. -/
def freeRound (request : Request) (lock : Bool) (cursor : Cursor) : Cursor ⊕ Option (VMM × Bool) :=
  if request.totalCount ≤ cursor.currentCount then .inr (some (cursor.vmm, true))
  else
    match takeOut request lock cursor with
    | none => .inr none
    | some (failed, none) => .inr (some (failed, false))
    | some (next, some (piece, count)) =>
      match (next.freeRegion cursor.virt count request.full).dropEntry piece request.virtAddr with
      | none => .inr none
      | some dropped => .inl (Request.advance cursor dropped count)

def outside (vmm : VMM) (virt totalCount : Nat) : Prop :=
  virt < vmm.regions.start ∨ vmm.regions.limit < pageEnd virt totalCount

instance (vmm : VMM) (virt totalCount : Nat) : Decidable (vmm.outside virt totalCount) := by
  unfold outside
  infer_instance

def request (virtAddr totalCount : Nat) (multipleRegions : Bool) : Request :=
  { virtAddr := virtAddr
    totalCount := if totalCount = 0 then 1 else totalCount
    full := totalCount = 0
    multipleRegions := multipleRegions }

def start (vmm : VMM) (virt : Nat) : Cursor := ⟨vmm, virt, 0, true⟩

/-- `Internal_FreePages(virtAddr, totalCount, multipleRegions, lock)`. -/
def internalFreePages (vmm : VMM) (virtAddr totalCount : Nat) (multipleRegions lock : Bool) :
    Option (VMM × Bool) :=
  if totalCount = 0 ∧ multipleRegions then some (vmm, false)
  else
    let request := request virtAddr totalCount multipleRegions
    if vmm.outside virtAddr request.totalCount then some (vmm, false)
    else (loop (freeRound request lock) (request.totalCount + 1) (vmm.start virtAddr)).join

/-- `FreePages(virtAddr, count, multipleRegions)`. -/
def freePages (vmm : VMM) (virtAddr count : Nat) (multipleRegions : Bool) : Option (VMM × Bool) :=
  vmm.internalFreePages virtAddr count multipleRegions true

/-! ### Allocation -/

/-- `m_vmRegionAllocator->AllocatePages(count)`. -/
def allocateRegion (vmm : VMM) (count : Nat) : Option (VMM × Nat) :=
  match Memory.allocatePages vmm.regions count with
  | none => none
  | some (regions, pages) => some ({ vmm with regions := regions }, pages)

/-- `m_vmRegionAllocator->AllocatePages(addr, count)`. -/
def allocateRegionAt (vmm : VMM) (addr count : Nat) : Option (VMM × Nat) :=
  match Memory.allocatePagesAt vmm.regions addr count with
  | none => none
  | some (regions, pages) => some ({ vmm with regions := regions }, pages)

/-- Replace what lies at `addr` and take the region there. -/
def replaceRegion (vmm : VMM) (count addr : Nat) (flags : AllocFlags) : Option (VMM × Nat) :=
  match (vmm.acquire .mapEntries).internalFreePages addr count true false with
  | none => none
  | some (failed, false) => some (failed.release .mapEntries, 0)
  | some (freed, true) =>
    match (freed.release .mapEntries).allocateRegionAt addr count with
    | none => none
    | some (next, pages) =>
      if pages = 0 ∧ flags.addrIsHint then next.allocateRegion count else some (next, pages)

/-- Step 1 of `AllocateAnonPages` and `AllocateBackedPages`. -/
def takeRegion (vmm : VMM) (count addr : Nat) (flags : AllocFlags) : Option (VMM × Nat) :=
  if addr = 0 then vmm.allocateRegion count
  else
    match vmm.allocateRegionAt addr count with
    | none => none
    | some (next, pages) =>
      if pages ≠ 0 then some (next, pages)
      else if flags.addrIsHint then next.allocateRegion count
      else if flags.replace then next.replaceRegion count addr flags
      else some (next, 0)

def entryFlags (flags : AllocFlags) (zero : Bool) : EntryFlags :=
  { protection := flags.protection
    cacheType := flags.cacheType
    user := flags.user
    needsCopy := false
    isPrivate := flags.isPrivate
    zero := zero }

/-- `MapPage` with the attributes of the request. -/
def mapNew (vmm : VMM) (virt frame : Nat) (flags : AllocFlags) : VMM :=
  (vmm.mapPage virt frame flags.protection flags.user flags.cacheType).1

def publish (vmm : VMM) (entry : MapEntry) (count : Nat) (flags : AllocFlags) : VMM :=
  let inserted := ((vmm.acquire .mapEntries).insertEntry entry).release .mapEntries
  if flags.allocPhys then inserted.invalidatePages entry.startVirt count false else inserted

/-- Step 3 of `AllocateAnonPages`: frames for `count` slots from `index` on. The
allocation of the `Anon` is not checked. -/
def populateAnon (pages : Nat) (flags : AllocFlags) :
    Nat → Nat → VMM → Option (VMM × List (Option AnonId))
  | _, 0, vmm => some (vmm, [])
  | index, count + 1, vmm =>
    match vmm.kcalloc with
    | (_, false) => none
    | (granted, true) =>
      match granted.allocatePage with
      | none => none
      | some (taken, frame) =>
        let cleared := if flags.zero then taken.zeroPage frame else taken
        let (stored, id) := cleared.newAnon frame
        let mapped := stored.mapNew (pageEnd pages index) frame flags
        match populateAnon pages flags (index + 1) count mapped with
        | none => none
        | some (last, slots) => some (last, some id :: slots)

def anonSlots (vmm : VMM) (pages count : Nat) (flags : AllocFlags) :
    Option (VMM × List (Option AnonId)) :=
  if flags.allocPhys then vmm.populateAnon pages flags 0 count
  else some (vmm, List.replicate count none)

def anonEntry (pages count : Nat) (flags : AllocFlags) (slots : List (Option AnonId)) : MapEntry :=
  { startVirt := pages
    endVirt := pageEnd pages count
    offset := 0
    anonMap := some ⟨1, count, slots⟩
    memoryObject := none
    flags := entryFlags flags flags.zero }

/-- `AllocateAnonPages(count, addr, allocFlags)`. -/
def allocateAnonPages (vmm : VMM) (count addr : Nat) (flags : AllocFlags) : Option (VMM × Nat) :=
  if count = 0 then some (vmm, 0)
  else
    match vmm.takeRegion count addr flags with
    | none => none
    | some (placed, pages) =>
      if pages = 0 then some (placed, 0)
      else
        -- the map, its slots and the entry
        match placed.kcallocAll 3 with
        | (failed, false) => some (failed.freeRegion pages count true, 0)
        | (granted, true) =>
          match granted.anonSlots pages count flags with
          | none => none
          | some (populated, slots) =>
            some (populated.publish (anonEntry pages count flags slots) count flags, pages)

/-- Step 4 of `AllocateBackedPages`. The pager must deliver every page. -/
def populateBacked (pages : Nat) (id : ObjectId) (offset : Nat) (flags : AllocFlags) :
    Nat → Nat → VMM → Option (VMM × List (Option AnonId))
  | _, 0, vmm => some (vmm, [])
  | index, count + 1, vmm =>
    match vmm.objects id with
    | none => none
    | some object =>
      match vmm.getPage id object (pageEnd offset index) with
      | none => none
      | some (_, none) => none
      | some (found, some page) =>
        let filled :=
          if flags.isPrivate ∧ flags.protection.write then
            match found.kcalloc with
            | (_, false) => none
            | (granted, true) =>
              match granted.allocatePage with
              | none => none
              | some (taken, frame) =>
                let (stored, anon) := (taken.copyPage frame page.physAddr).newAnon frame
                some (stored.mapNew (pageEnd pages index) frame flags, some anon)
          else some (found.mapNew (pageEnd pages index) page.physAddr flags, none)
        match filled with
        | none => none
        | some (next, slot) =>
          match populateBacked pages id offset flags (index + 1) count next with
          | none => none
          | some (last, slots) => some (last, slot :: slots)

def backedSlots (vmm : VMM) (pages count : Nat) (id : ObjectId) (offset : Nat)
    (flags : AllocFlags) : Option (VMM × List (Option AnonId)) :=
  if flags.allocPhys then vmm.populateBacked pages id offset flags 0 count
  else some (vmm, List.replicate count none)

/-- `obj->refCount++`. -/
def retainObject (vmm : VMM) (id : ObjectId) : Option VMM :=
  match vmm.objects id with
  | none => none
  | some object => some (vmm.setObject id (some { object with refCount := object.refCount + 1 }))

def backedEntry (pages count : Nat) (id : ObjectId) (offset : Nat) (flags : AllocFlags)
    (slots : List (Option AnonId)) : MapEntry :=
  { startVirt := pages
    endVirt := pageEnd pages count
    offset := offset
    anonMap := if flags.isPrivate then some ⟨1, count, slots⟩ else none
    memoryObject := some id
    flags := entryFlags flags false }

/-- `AllocateBackedPages(count, obj, offset, addr, allocFlags)`. The lock of the
object is held from the check of the size to the end. -/
def allocateBackedPages (vmm : VMM) (count : Nat) (id : ObjectId) (offset addr : Nat)
    (flags : AllocFlags) : Option (VMM × Nat) :=
  if count = 0 then some (vmm, 0)
  else
    match vmm.objects id with
    | none => none
    | some object =>
      let locked := vmm.acquire (.object id)
      if object.size < add64 (offset / pageSize) count then some (locked.release (.object id), 0)
      else
        match locked.takeRegion count addr flags with
        | none => none
        | some (placed, pages) =>
          if pages = 0 then some (placed, 0)
          else
            -- the entry and, for a private mapping, the map and its slots
            match placed.kcallocAll (if flags.isPrivate then 3 else 1) with
            | (failed, false) => some (failed.freeRegion pages count true, 0)
            | (granted, true) =>
              match granted.backedSlots pages count id offset flags with
              | none => none
              | some (populated, slots) =>
                match populated.retainObject id with
                | none => none
                | some retained =>
                  some ((retained.release (.object id)).publish
                    (backedEntry pages count id offset flags slots) count flags, pages)

/-! ### Faults -/

/-- Put an `Anon` into a slot of an entry of the tree. -/
def setSlot (vmm : VMM) (key : Nat) (entry : MapEntry) (map : AnonMap) (index : Nat)
    (id : AnonId) : VMM :=
  vmm.setEntry key
    { entry with anonMap := some { map with slots := map.slots.set index (some id) } }

def faultAllowed (prot : Protection) (code : PageFaultCode) : Bool :=
  if prot = .READ then !code.write && !code.execute
  else if prot = .WRITE then code.write && !code.execute
  else if prot = .EXECUTE then code.execute
  else if prot = .READ_WRITE then !code.execute
  else if prot = .READ_EXECUTE then !code.write
  else if prot = .READ_WRITE_EXECUTE then true
  else false

/-- What the handler knows about a fault once the entry is found. -/
structure Fault where
  code : PageFaultCode
  virt : Nat
  key : Nat
  entry : MapEntry
  index : Nat

namespace Fault

def flags (fault : Fault) : EntryFlags := fault.entry.flags

section
variable (fault : Fault) (vmm : VMM)

def mapLock : Lock := .anonMap fault.entry.startVirt

/-- `MapPage` with the attributes of the entry. -/
def map (frame : Nat) (prot : Protection) : VMM × Bool :=
  vmm.mapPage fault.virt frame prot fault.flags.user fault.flags.cacheType

def remap (prot : Protection) : VMM × Bool :=
  vmm.remapPage fault.virt prot fault.flags.user fault.flags.cacheType

def objectOffset : Nat := pageEnd fault.entry.offset fault.index

/-- `anon->refCount--`, with the frame given back at zero. -/
def dropAnon (id : AnonId) (anon : Anon) : VMM :=
  let count := sub64 anon.refCount 1
  if count = 0 then (vmm.freePage anon.physAddr).setAnon id none
  else vmm.setAnon id (some { anon with refCount := count })

end

/-- The contents of the copy of a shared page: of the `Anon`, or of the page of
the object where there is one. False when the pager fails. -/
def copyShared (fault : Fault) (vmm : VMM) (anon : Anon) (frame : Nat) : Option (VMM × Bool) :=
  match fault.entry.memoryObject with
  | none => some (vmm.copyPage frame anon.physAddr, true)
  | some id =>
    match vmm.objects id with
    | none => none
    | some object =>
      match (vmm.acquire (.object id)).getPage id object fault.objectOffset with
      | none => none
      | some (next, none) => some (next.release (.object id), false)
      | some (next, some page) =>
        some ((next.copyPage frame page.physAddr).release (.object id), true)

/-- A write to a page whose `Anon` other address spaces use too. -/
def writeShared (fault : Fault) (vmm : VMM) (anonMap : AnonMap) (id : AnonId) (anon : Anon) :
    Option (VMM × Bool) :=
  match vmm.kcalloc with
  | (failed, false) => some (failed.release fault.mapLock, false)
  | (granted, true) =>
    match granted.allocatePage with
    | none => none
    | some (taken, frame) =>
      if frame = 0 then some (taken.release fault.mapLock, false)
      else
        match fault.copyShared taken anon frame with
        | none => none
        | some (copied, false) => some ((copied.freePage frame).release fault.mapLock, false)
        | some (copied, true) =>
          match fault.map copied frame fault.flags.protection with
          | (refused, false) => some ((refused.freePage frame).release fault.mapLock, false)
          | (mapped, true) =>
            let (stored, fresh) := mapped.newAnon frame
            let moved := stored.setSlot fault.key fault.entry anonMap fault.index fresh
            some ((dropAnon moved id anon).release fault.mapLock, true)

/-- A fault on a page with an `Anon`. A shared page is mapped without the right
to write. -/
def onAnon (fault : Fault) (vmm : VMM) (anonMap : AnonMap) (id : AnonId) (anon : Anon) :
    Option (VMM × Bool) :=
  if fault.code.write ∧ anon.refCount > 1 then fault.writeShared vmm anonMap id anon
  else
    let prot :=
      if anon.refCount > 1 then fault.flags.protection.withoutWrite else fault.flags.protection
    let (next, result) :=
      if fault.code.present then fault.remap vmm prot else fault.map vmm anon.physAddr prot
    some (next.release fault.mapLock, result)

/-- A write that is diverted from the page of the object to a new `Anon`. The
lock of the map stays held on every path. -/
def copyObjectPage (fault : Fault) (vmm : VMM) (anonMap : AnonMap) (id : ObjectId) (page : Page) :
    Option (VMM × Bool) :=
  match vmm.kcalloc with
  | (failed, false) => some (failed.release (.object id), false)
  | (granted, true) =>
    match granted.allocatePage with
    | none => none
    | some (taken, frame) =>
      if frame = 0 then some (taken.release (.object id), false)
      else
        match fault.map (taken.copyPage frame page.physAddr) frame fault.flags.protection with
        | (refused, false) => some ((refused.freePage frame).release (.object id), false)
        | (mapped, true) =>
          let (stored, fresh) := mapped.newAnon frame
          some ((stored.setSlot fault.key fault.entry anonMap fault.index fresh).release
            (.object id), true)

def onObjectSlot (fault : Fault) (vmm : VMM) (anonMap : AnonMap) (id : ObjectId) :
    Option (VMM × Bool) :=
  match vmm.objects id with
  | none => none
  | some object =>
    match (vmm.acquire (.object id)).getPage id object fault.objectOffset with
    | none => none
    | some (failed, none) => some (failed.release (.object id), false)
    | some (found, some page) =>
      if fault.code.write ∧ fault.flags.needsCopy then
        fault.copyObjectPage found anonMap id page
      else
        let prot :=
          if fault.flags.needsCopy then fault.flags.protection.withoutWrite
          else fault.flags.protection
        let (next, result) := fault.map found page.physAddr prot
        some ((next.release (.object id)).release fault.mapLock, result)

def onEmptySlot (fault : Fault) (vmm : VMM) (anonMap : AnonMap) : Option (VMM × Bool) :=
  if fault.code.present then some (vmm.release fault.mapLock, false)
  else
    match vmm.kcalloc with
    | (failed, false) => some (failed.release fault.mapLock, false)
    | (granted, true) =>
      match granted.allocatePage with
      | none => none
      | some (taken, frame) =>
        let (stored, fresh) := taken.newAnon frame
        let filled := stored.setSlot fault.key fault.entry anonMap fault.index fresh
        let cleared := if fault.flags.zero then filled.zeroPage frame else filled
        let (mapped, result) := fault.map cleared frame fault.flags.protection
        some (mapped.release fault.mapLock, result)

/-- A fault in an entry with an `AnonMap`, whose lock is taken before the tree
is unlocked. -/
def onAnonMap (fault : Fault) (vmm : VMM) (anonMap : AnonMap) : Option (VMM × Bool) :=
  let locked := (vmm.acquire fault.mapLock).release .mapEntries
  match anonMap.slots[fault.index]? with
  | none => none
  | some (some id) =>
    match locked.anons id with
    | none => none
    | some anon => fault.onAnon locked anonMap id anon
  | some none =>
    match fault.entry.memoryObject with
    | some id => fault.onObjectSlot locked anonMap id
    | none => fault.onEmptySlot locked anonMap

def fillPage (fault : Fault) (vmm : VMM) (id : ObjectId) (page : Page) : Option (VMM × Bool) :=
  if fault.code.present then some (vmm.release (.object id), false)
  else
    match vmm.allocatePage with
    | none => none
    | some (taken, frame) =>
      match taken.objects id with
      | none => none
      | some object =>
        let stored := taken.setObject id (some { object with
          pages := object.pages.set fault.objectOffset { page with physAddr := frame } })
        let cleared := if fault.flags.zero then stored.zeroPage frame else stored
        let (mapped, result) := fault.map cleared frame fault.flags.protection
        some (mapped.release (.object id), result)

def onObject (fault : Fault) (vmm : VMM) (id : ObjectId) : Option (VMM × Bool) :=
  match vmm.objects id with
  | none => none
  | some object =>
    let locked := (vmm.acquire (.object id)).release .mapEntries
    match locked.getPage id object fault.objectOffset with
    | none => none
    | some (failed, none) => some (failed.release (.object id), false)
    | some (found, some page) =>
      if page.physAddr ≠ 0 then
        let (next, result) :=
          if fault.code.present then fault.remap found fault.flags.protection
          else fault.map found page.physAddr fault.flags.protection
        some (next.release (.object id), result)
      else fault.fillPage found id page

end Fault

/-- The entry a fault belongs to, with the lock of the tree held. Nothing when
the fault is refused. -/
def findFault (vmm : VMM) (code : PageFaultCode) (virtAddr : Nat) : Option Fault :=
  match vmm.mapEntries.findNodeOrLower virtAddr with
  | none => none
  | some (key, entry) =>
    if virtAddr < entry.startVirt ∨ entry.endVirt ≤ virtAddr ∨
        (entry.anonMap = none ∧ entry.memoryObject = none) then none
    else if faultAllowed entry.flags.protection code = false then none
    else
      let virt := alignDown virtAddr pageSize
      some ⟨code, virt, key, entry, sub64 virt entry.startVirt / pageSize⟩

/-- `HandlePageFault(code, virtAddr)`. -/
def handlePageFault (vmm : VMM) (code : PageFaultCode) (virtAddr : Nat) : Option (VMM × Bool) :=
  if virtAddr < vmm.regions.start ∨ vmm.regions.limit ≤ virtAddr then some (vmm, false)
  else
    let locked := vmm.acquire .mapEntries
    match locked.findFault code virtAddr with
    | none => some (locked.release .mapEntries, false)
    | some fault =>
      match fault.entry.anonMap, fault.entry.memoryObject with
      | some map, _ => fault.onAnonMap locked map
      | none, some id => fault.onObject locked id
      | none, none => none

end VMM
end FrostyKernel.Memory
