import FrostyKernel.Lib.Chain
import FrostyKernel.Memory.Types

/-!
# The heap allocator

`HeapAllocator` keeps a list of sections; each section starts with a 32-byte
header and is followed by blocks, each with a 16-byte header. The free blocks of
a section are linked in a list. Every header starts at a multiple of 16, so the
memory is a map from such addresses to cells of two words: a block header is one
cell (the size in 63 bits with the free bit above it, and the next pointer), a
section header is two (size and next section; first free block and padding).
Null is zero.

The address that the section allocator returns is an input of `allocate`; a null
section allocator is one that returns null. The sections that `free` gives back
are an output. A result `none` is a failed assertion or a list walk that does not
end.
-/

namespace FrostyKernel

open Word
open Memory (pageSize)

structure Cell where
  low : Nat
  high : Nat
deriving DecidableEq, Repr

structure HeapAllocator where
  memory : Nat → Cell
  head : Nat
  usedMemory : Nat
  freeMemory : Nat
  metadataMemory : Nat
  totalMemory : Nat

namespace HeapAllocator

def minBlockSize : Nat := 16

def minSectionSize : Nat := 32 * pageSize

/-- `sizeof(HeapBlock)`. -/
def blockHeader : Nat := 16

/-- `sizeof(HeapSection)`. -/
def sectionHeader : Nat := 32

/-! ## Header fields -/

def sizeRange : Nat := 2 ^ 63

section
variable (heap : HeapAllocator) (address block size : Nat) (free : Bool) (next : Nat)

def blockSize : Nat := (heap.memory block).low % sizeRange

def blockFree : Bool := decide ((heap.memory block).low / sizeRange % 2 = 1)

def blockNext : Nat := (heap.memory block).high

def packed : Nat := size % sizeRange + if free then sizeRange else 0

def setCell (cell : Cell) : HeapAllocator :=
  { heap with memory := Function.update heap.memory address cell }

def setBlockSize : HeapAllocator :=
  heap.setCell block ⟨packed size (heap.blockFree block), heap.blockNext block⟩

def setBlockFree : HeapAllocator :=
  heap.setCell block ⟨packed (heap.blockSize block) free, heap.blockNext block⟩

def setBlockNext : HeapAllocator := heap.setCell block ⟨(heap.memory block).low, next⟩

def sectionSize : Nat := (heap.memory address).low

def sectionNext : Nat := (heap.memory address).high

def sectionFirst : Nat := (heap.memory (address + 16)).low

def setSectionSize : HeapAllocator := heap.setCell address ⟨size, heap.sectionNext address⟩

def setSectionNext : HeapAllocator := heap.setCell address ⟨heap.sectionSize address, next⟩

def setSectionFirst (first : Nat) : HeapAllocator :=
  heap.setCell (address + 16) ⟨first, (heap.memory (address + 16)).high⟩

def blockEnd : Nat := add64 (add64 block blockHeader) (heap.blockSize block)

end

/-! ## Allocate -/

/-- The block loop of `Allocate` in one section. -/
def findBlock (heap : HeapAllocator) (size address : Nat) : Option (Nat × Nat) :=
  search heap.blockNext (fun _ _ => true)
    (fun _ block => heap.blockFree block && decide (size ≤ heap.blockSize block)) (2 ^ 64) 0
    (heap.sectionFirst address)

/-- The section loop of `Allocate`: the section, the free block before the one
that was found and that block; the block is null when no section has one. -/
def findFit (heap : HeapAllocator) (size : Nat) : Nat → Nat → Option (Nat × Nat × Nat)
  | 0, _ => none
  | fuel + 1, address =>
    if address = 0 then some (0, 0, 0)
    else
      match heap.findBlock size address with
      | none => none
      | some (previous, block) =>
        if block ≠ 0 then some (address, previous, block)
        else heap.findFit size fuel (heap.sectionNext address)

/-- A block is split when the rest can hold a header and more than the smallest
block. -/
def Splits (heap : HeapAllocator) (block size : Nat) : Prop :=
  add64 (add64 size blockHeader) minBlockSize < heap.blockSize block

instance (heap : HeapAllocator) (block size : Nat) : Decidable (heap.Splits block size) := by
  unfold Splits
  infer_instance

section
variable (heap : HeapAllocator) (block address size previous : Nat)

/-- Put a free block with what is left behind the first `size` bytes of a block. -/
def splitBlock (next : Nat) : HeapAllocator :=
  let rest := add64 (add64 block blockHeader) size
  let sized := heap.setBlockSize rest (sub64 (sub64 (heap.blockSize block) size) blockHeader)
  let freed := sized.setBlockFree rest true
  let linked := freed.setBlockNext rest next
  linked.setBlockSize block size

def partBlock : HeapAllocator :=
  if heap.Splits block size then
    let rest := add64 (add64 block blockHeader) size
    let parted := (heap.splitBlock block size (heap.blockNext block)).setBlockNext block rest
    { parted with
      metadataMemory := add64 parted.metadataMemory blockHeader
      freeMemory := sub64 parted.freeMemory blockHeader }
  else heap

def unlinkBlock (block : Nat) : HeapAllocator :=
  let taken := heap.setBlockFree block false
  let unlinked :=
    if previous = 0 then taken.setSectionFirst address (taken.blockNext block)
    else taken.setBlockNext previous (taken.blockNext block)
  let cleared := unlinked.setBlockNext block 0
  { cleared with
    freeMemory := sub64 cleared.freeMemory (cleared.blockSize block)
    usedMemory := add64 cleared.usedMemory (cleared.blockSize block) }

def takeBlock (block size : Nat) : HeapAllocator × Nat :=
  ((heap.partBlock block size).unlinkBlock address previous block, add64 block blockHeader)

def newSectionSize : Nat := alignUp (add64 (add64 sectionHeader blockHeader) size) minSectionSize

end

def openSection (heap : HeapAllocator) (total address : Nat) : HeapAllocator :=
  let counted :=
    { heap with
      totalMemory := add64 heap.totalMemory total
      metadataMemory := add64 heap.metadataMemory (sectionHeader + blockHeader) }
  let headed := (counted.setSectionSize address (sub64 total sectionHeader)).setSectionNext address
    counted.head
  let block := add64 address sectionHeader
  let sized := headed.setBlockSize block (sub64 (headed.sectionSize address) blockHeader)
  (sized.setBlockFree block false).setBlockNext block 0

def cutSection (heap : HeapAllocator) (address size : Nat) : HeapAllocator :=
  let block := add64 address sectionHeader
  if heap.Splits block size then
    let rest := add64 (add64 block blockHeader) size
    let parted := (heap.splitBlock block size 0).setSectionFirst address rest
    { parted with
      metadataMemory := add64 parted.metadataMemory blockHeader
      freeMemory := add64 parted.freeMemory (parted.blockSize rest) }
  else heap.setSectionFirst address 0

def addSection (heap : HeapAllocator) (size address : Nat) : HeapAllocator × Nat :=
  let block := add64 address sectionHeader
  let ready := (heap.openSection (newSectionSize size) address).cutSection address size
  ({ ready with
      usedMemory := add64 ready.usedMemory (ready.blockSize block)
      head := address },
    add64 block blockHeader)

/-- `Allocate(size)`; `answer` is what the section allocator returns if it is
asked. The result is the user address, null when there is none. -/
def allocate (heap : HeapAllocator) (size answer : Nat) : Option (HeapAllocator × Nat) :=
  let aligned := alignUp size minBlockSize
  match heap.findFit aligned (2 ^ 64) heap.head with
  | none => none
  | some (address, previous, block) =>
    if block ≠ 0 then some (heap.takeBlock address previous block aligned)
    else if answer = 0 then some (heap, 0)
    else some (heap.addSection aligned answer)

/-! ## Free -/

/-- The section loop of `Free`: the section that the test takes a block to be
in, null when there is none. -/
def findOwner (heap : HeapAllocator) (block : Nat) : Nat → Nat → Option Nat
  | 0, _ => none
  | fuel + 1, address =>
    if address = 0 then some 0
    else if add64 address sectionHeader ≤ block ∧
        block < add64 address (heap.sectionSize address) then some address
    else heap.findOwner block fuel (heap.sectionNext address)

/-- The block loop of `Free`: the place of a block in the list of its section. -/
def findPlace (heap : HeapAllocator) (block address : Nat) : Option (Nat × Nat) :=
  search heap.blockNext (fun _ _ => true)
    (fun previous current => decide (block < current) &&
      (decide (previous = 0) || decide (heap.blockEnd previous ≤ block)))
    (2 ^ 64) 0 (heap.sectionFirst address)

def countMerge (heap : HeapAllocator) : HeapAllocator :=
  { heap with
    metadataMemory := sub64 heap.metadataMemory blockHeader
    freeMemory := add64 heap.freeMemory blockHeader }

/-- Merge a block with the free block before it, or link it from there. Returns
the block that holds it now. -/
def joinPrevious (heap : HeapAllocator) (previous block : Nat) : HeapAllocator × Nat :=
  if heap.blockEnd previous = block then
    ((heap.setBlockSize previous
        (add64 (heap.blockSize previous) (add64 blockHeader (heap.blockSize block)))).countMerge,
      previous)
  else ((heap.setBlockFree block true).setBlockNext previous block, block)

def joinNext (heap : HeapAllocator) (block current : Nat) : HeapAllocator :=
  if heap.blockEnd block = current then
    let grown := heap.setBlockSize block
      (add64 (heap.blockSize block) (add64 blockHeader (heap.blockSize current)))
    (grown.setBlockNext block (grown.blockNext current)).countMerge
  else heap.setBlockNext block current

/-- Insert a block into the list of its section between two free blocks, either
of which may be null. -/
def insertBlock (heap : HeapAllocator) (address previous block current : Nat) : HeapAllocator :=
  let size := heap.blockSize block
  let linked :=
    if current ≠ 0 then
      if previous = 0 then
        ((heap.joinNext block current).setBlockFree block true).setSectionFirst address block
      else
        let (joined, holder) := heap.joinPrevious previous block
        joined.joinNext holder current
    else if previous = 0 then (heap.setBlockNext block 0).setSectionFirst address block
    else
      let (joined, holder) := heap.joinPrevious previous block
      joined.setBlockNext holder 0
  { linked with
    freeMemory := add64 linked.freeMemory size
    usedMemory := sub64 linked.usedMemory size }

def Unused (heap : HeapAllocator) (address : Nat) : Prop :=
  heap.sectionFirst address ≠ 0 ∧ heap.blockNext (heap.sectionFirst address) = 0 ∧
    add64 (heap.blockSize (heap.sectionFirst address)) blockHeader = heap.sectionSize address

instance (heap : HeapAllocator) (address : Nat) : Decidable (heap.Unused address) := by
  unfold Unused
  infer_instance

def dropSection (heap : HeapAllocator) (previous address : Nat) : HeapAllocator :=
  let unlinked :=
    if previous = 0 then { heap with head := heap.sectionNext address }
    else heap.setSectionNext previous (heap.sectionNext address)
  { unlinked with
    totalMemory := sub64 unlinked.totalMemory (add64 (unlinked.sectionSize address) sectionHeader)
    metadataMemory := sub64 unlinked.metadataMemory (sectionHeader + blockHeader)
    freeMemory := sub64 unlinked.freeMemory (sub64 (unlinked.sectionSize address) blockHeader) }

/-- The last loop of `Free`. Returns the sections given back with their sizes. -/
def releaseSections (heap : HeapAllocator) :
    Nat → Nat → Nat → Option (HeapAllocator × List (Nat × Nat))
  | 0, _, _ => none
  | fuel + 1, previous, address =>
    if address = 0 then some (heap, [])
    else if heap.Unused address then
      let dropped := heap.dropSection previous address
      (dropped.releaseSections fuel previous (heap.sectionNext address)).map fun result =>
        (result.1, (address, add64 (heap.sectionSize address) sectionHeader) :: result.2)
    else heap.releaseSections fuel address (heap.sectionNext address)

def releaseUnused (heap : HeapAllocator) : Option (HeapAllocator × List (Nat × Nat)) :=
  heap.releaseSections (2 ^ 64) 0 heap.head

def returnBlock (heap : HeapAllocator) (block : Nat) : Option HeapAllocator :=
  match heap.findOwner block (2 ^ 64) heap.head with
  | none => none
  | some address =>
    if address = 0 then some heap
    else
      match heap.findPlace block address with
      | none => none
      | some (previous, current) => some (heap.insertBlock address previous block current)

/-- `Free(ptr)` with the sections it gives back. -/
def free (heap : HeapAllocator) (ptr : Nat) : Option (HeapAllocator × List (Nat × Nat)) :=
  if ptr = 0 then some (heap, [])
  else if heap.blockFree (sub64 ptr blockHeader) = true then none
  else
    ((heap.setBlockFree (sub64 ptr blockHeader) true).returnBlock (sub64 ptr blockHeader)).bind
      releaseUnused

/-- `HeapAllocator()` over a memory with the given contents. -/
def fresh (memory : Nat → Cell) : HeapAllocator := ⟨memory, 0, 0, 0, 0, 0⟩

end HeapAllocator
end FrostyKernel
