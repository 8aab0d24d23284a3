import FrostyKernel.Memory.RegionAllocator

/-!
# The state behind an address space

What `VMM.cpp` reads and writes: the map entries, the region allocator and the
page table of one address space, and what all address spaces share, namely the
free frames of the PMM, the contents of the frames, the `Anon`s and the memory
objects. Metadata allocations take their results from a list of outcomes, so
every pattern of failures is a value of the state.

The page table is the finite map that the tables of `PageTables.cpp` refine.
Locks, page-table writes, invalidations and frames given back are recorded in a
log in the order in which the code performs them.
-/

namespace FrostyKernel.Memory

open Word

/-- The leaf entry of a present page. -/
structure Pte where
  frame : Nat
  write : Bool
  execute : Bool
  user : Bool
  cacheType : CacheType
deriving DecidableEq, Repr

/-- The locks the manager takes. An `AnonMap` belongs to one entry of the
address space and is named by the start of that entry. -/
inductive Lock where
  | mapEntries
  | anonMap (startVirt : Nat)
  | object (id : ObjectId)
  | null
deriving DecidableEq, Repr

inductive Event where
  | acquire (lock : Lock)
  | release (lock : Lock)
  /-- The object that holds the lock is freed. -/
  | destroy (lock : Lock)
  | pte (page : Nat) (before after : Option Pte)
  | invalidate (virt count : Nat) (shootdown : Bool)
  | freed (frame : Nat)
deriving DecidableEq, Repr

/-- What the address spaces share. -/
structure System where
  freeFrames : List Nat
  bytes : Nat → Nat → UInt8
  anons : AnonId → Option Anon
  nextAnon : AnonId
  objects : ObjectId → Option MemoryObject
  nextObject : ObjectId
  /-- The results of the coming metadata allocations. An empty list means success. -/
  outcomes : List Bool
  log : List Event

structure Space where
  mapEntries : OrderedMap Nat MapEntry
  regions : RegionAllocator
  pageTable : Nat → Option Pte

/-- The view of one `VMM` object. -/
structure VMM extends System, Space

def VMM.empty (freeFrames : List Nat) : VMM where
  freeFrames := freeFrames
  bytes := fun _ _ => 0
  anons := fun _ => none
  nextAnon := 0
  objects := fun _ => none
  nextObject := 0
  outcomes := []
  log := []
  mapEntries := OrderedMap.empty
  regions := initRegion 0x1000 0x10000
  pageTable := fun _ => none

def pageOf (virt : Nat) : Nat := virt / pageSize % 2 ^ 36

namespace VMM

section
variable (vmm : VMM) (lock : Bool)

def emit (event : Event) : VMM := { vmm with log := vmm.log ++ [event] }

def called : VMM := { vmm with log := [] }

def acquire (vmm : VMM) (lock : Lock) : VMM := vmm.emit (.acquire lock)

def release (vmm : VMM) (lock : Lock) : VMM := vmm.emit (.release lock)

def destroy (vmm : VMM) (lock : Lock) : VMM := vmm.emit (.destroy lock)

/-- `m_mapEntries.lock()` where the caller has not locked the tree itself. -/
def acquireIf : VMM :=
  if lock then vmm.acquire .mapEntries else vmm

def releaseIf : VMM :=
  if lock then vmm.release .mapEntries else vmm

/-- `kcalloc_vmm`: whether the allocation succeeds. -/
def kcalloc : VMM × Bool :=
  match vmm.outcomes with
  | [] => (vmm, true)
  | outcome :: rest => ({ vmm with outcomes := rest }, outcome)

def kcallocAll (vmm : VMM) : Nat → VMM × Bool
  | 0 => (vmm, true)
  | number + 1 =>
    match vmm.kcalloc with
    | (next, true) => next.kcallocAll number
    | (next, false) => (next, false)

def kcallocBoth : VMM × Bool :=
  let (first, left) := vmm.kcalloc
  let (second, right) := first.kcalloc
  (second, left && right)

/-! ### Frames -/

/-- `PMM::AllocatePage`, which asserts that a page is free. -/
def allocatePage : Option (VMM × Nat) :=
  match vmm.freeFrames with
  | [] => none
  | frame :: rest => some ({ vmm with freeFrames := rest }, frame)

end

section
variable (vmm : VMM) (frame virt : Nat) (prot : Protection) (id : ObjectId) (user : Bool)
  (cacheType : CacheType)

/-- `PMM::FreePage`. The free list is ordered by address. -/
def freePage : VMM :=
  { vmm with
    freeFrames := vmm.freeFrames.orderedInsert (· ≤ ·) frame
    log := vmm.log ++ [.freed frame] }

/-- `memset(to_HHDM(frame), 0, PAGE_SIZE)`. -/
def zeroPage : VMM := { vmm with bytes := Function.update vmm.bytes frame fun _ => 0 }

/-- `memcpy(to_HHDM(target), to_HHDM(source), PAGE_SIZE)`. -/
def copyPage (target source : Nat) : VMM :=
  { vmm with bytes := Function.update vmm.bytes target (vmm.bytes source) }

/-! ### Anons -/

def setAnon (id : AnonId) (anon : Option Anon) : VMM :=
  { vmm with anons := Function.update vmm.anons id anon }

/-- A fresh `Anon` with `refCount = 1` over a frame. -/
def newAnon : VMM × AnonId :=
  ({ vmm with
      anons := Function.update vmm.anons vmm.nextAnon (some ⟨1, frame⟩)
      nextAnon := vmm.nextAnon + 1 },
    vmm.nextAnon)

def setObject (object : Option MemoryObject) : VMM :=
  { vmm with objects := Function.update vmm.objects id object }

/-! ### Page mapper -/

/-- The leaf entry `MapPage` and `RemapPage` write. A protection without the
read bit is refused by both. -/
def leaf : Pte := ⟨frame, prot.write, prot.execute, user, cacheType⟩

def setPte (page : Nat) (pte : Option Pte) : VMM :=
  { vmm with
    pageTable := Function.update vmm.pageTable page pte
    log := vmm.log ++ [.pte page (vmm.pageTable page) pte] }

def mapPage (frame : Nat) (prot : Protection) (user : Bool) (cacheType : CacheType) : VMM × Bool :=
  if prot.read then (vmm.setPte (pageOf virt) (some (leaf frame prot user cacheType)), true)
  else (vmm, false)

end

def tablePresent (pageTable : Nat → Option Pte) (page : Nat) : Bool :=
  (List.range 512).any fun index => (pageTable (page / 512 * 512 + index)).isSome

/-- `RemapPage`: the walk stops where a table is missing; an entry that is not
present in an existing table is written like any other, with the frame bits it
has, which are zero. -/
def remapPage (vmm : VMM) (virt : Nat) (prot : Protection) (user : Bool)
    (cacheType : CacheType) : VMM × Bool :=
  if prot.read then
    let page := pageOf virt
    match vmm.pageTable page with
    | some pte => (vmm.setPte page (some (leaf pte.frame prot user cacheType)), true)
    | none =>
      if tablePresent vmm.pageTable page then
        (vmm.setPte page (some (leaf 0 prot user cacheType)), true)
      else (vmm, true)
  else (vmm, false)

def unmapPage (vmm : VMM) (virt : Nat) : VMM := vmm.setPte (pageOf virt) none

def invalidatePages (vmm : VMM) (virt count : Nat) (shootdown : Bool) : VMM :=
  vmm.emit (.invalidate virt count shootdown)

/-! ### Pagers -/

/-- `obj->pager->GetPage(obj, offset, &page, write)`. The result is the page, or
nothing when the pager fails. -/
def getPage (vmm : VMM) (id : ObjectId) (object : MemoryObject) (offset : Nat) :
    Option (VMM × Option Page) :=
  match object.pager with
  | .defaultPager => some (vmm, none)
  | .tempFS vnode =>
    if object.size < offset / pageSize + 1 then some (vmm, none)
    else
      match vnode with
      | none => some (vmm, none)
      | some defaultProt =>
        match object.pages.find? offset with
        | some page => some (vmm, some page)
        | none =>
          match vmm.kcalloc with
          | (failed, false) => some (failed, none)
          | (granted, true) =>
            match granted.allocatePage with
            | none => none
            | some (taken, frame) =>
              let page : Page := ⟨frame, defaultProt, false⟩
              some ((taken.zeroPage frame).setObject id
                (some { object with pages := object.pages.insert offset page }),
                some page)

end VMM
end FrostyKernel.Memory
