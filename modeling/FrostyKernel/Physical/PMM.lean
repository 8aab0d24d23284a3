import FrostyKernel.Lib.Chain
import FrostyKernel.Memory.Types

/-!
# The physical memory manager

`PMM` keeps a list of runs of free pages, sorted by address. Each node of the
list is stored in the first bytes of the run it describes, so the list lives in
the managed pages themselves and a page that is freed holds whatever its last
owner wrote. The memory here gives every page address the node fields found
there; pointers are physical addresses, since the direct map only adds a constant
that is taken off again, and null is zero.

A result `none` is a failed assertion, a null dereference or a list walk that
does not end: more than `2 ^ 64` steps mean that a pointer came up twice.
-/

namespace FrostyKernel

open Word
open Memory (pageSize)

structure FreeListNode where
  pageCount : Nat
  next : Nat
deriving DecidableEq, Repr

inductive MemoryMapType
  | usable
  | reserved
  | acpiReclaimable
  | acpiNvs
  | bad
  | bootloaderReclaimable
  | kernelAndModules
  | framebuffer
deriving DecidableEq, Repr

structure MemoryMapEntry where
  base : Nat
  length : Nat
  type : MemoryMapType
deriving DecidableEq, Repr

structure PMM where
  memory : Nat → FreeListNode
  freeListStart : Nat
  freeListEnd : Nat
  freeListNodeCount : Nat
  freePageCount : Nat
  usedPageCount : Nat
  totalPageCount : Nat

namespace PMM

section
variable (pmm : PMM) (address value : Nat)

def count : Nat := (pmm.memory address).pageCount

def next (pmm : PMM) (address : Nat) : Nat := (pmm.memory address).next

/-- `node->PageCount = value`. -/
def setCount : PMM :=
  { pmm with
    memory := Function.update pmm.memory address { pmm.memory address with pageCount := value } }

/-- `node->Next = value`. -/
def setNext : PMM :=
  { pmm with
    memory := Function.update pmm.memory address { pmm.memory address with next := value } }

end

section
variable (pmm : PMM) (pageCount address : Nat) (memory : Nat → FreeListNode) (entry : MemoryMapEntry)

def runEnd : Nat := add64 address (mul64 (pmm.count address) pageSize)

/-- `PMM()` over a memory with the given contents. -/
def fresh : PMM := ⟨memory, 0, 0, 0, 0, 0, 0⟩

/-- The range of an entry that `Init` manages; page zero is never handed out. -/
def managedRange : Option (Nat × Nat) :=
  if entry.type ≠ .usable then none
  else if entry.base = 0 then
    if sub64 entry.length pageSize < pageSize then none
    else some (pageSize, sub64 entry.length pageSize)
  else some (entry.base, entry.length)

def appendRange (range : Nat × Nat) : PMM :=
  let counted : PMM :=
    { pmm with
      totalPageCount := add64 pmm.totalPageCount (range.2 / 2 ^ 12)
      freePageCount := add64 pmm.freePageCount (range.2 / 2 ^ 12)
      freeListNodeCount := add64 pmm.freeListNodeCount 1 }
  if counted.freeListEnd = 0 then
    { (counted.setCount range.1 (range.2 / 2 ^ 12)).setNext range.1 0 with
      freeListStart := range.1
      freeListEnd := range.1 }
  else
    { ((counted.setNext counted.freeListEnd range.1).setCount range.1 (range.2 / 2 ^ 12)).setNext
        range.1 0 with
      freeListEnd := range.1 }

/-- One round of the loop in `Init`. -/
def initEntry : PMM :=
  match managedRange entry with
  | none => pmm
  | some range => pmm.appendRange range

/-- `Init(memoryMap, memoryMapEntryCount)`. -/
def init (memoryMap : List MemoryMapEntry) : PMM :=
  { memoryMap.foldl initEntry (fresh memory) with usedPageCount := 0 }

/-- Move `pageCount` pages from the free to the used count. -/
def countUsed : PMM :=
  { pmm with
    freePageCount := sub64 pmm.freePageCount pageCount
    usedPageCount := add64 pmm.usedPageCount pageCount }

def countFreed : PMM :=
  { pmm with
    freePageCount := add64 pmm.freePageCount pageCount
    usedPageCount := sub64 pmm.usedPageCount pageCount }

end

section
variable (pmm : PMM) (previous current : Nat)

/-- Make the list start at `target` or the node `previous` lead to it. -/
def linkFrom (target : Nat) : PMM :=
  if previous = 0 then { pmm with freeListStart := target } else pmm.setNext previous target

def unlink : PMM :=
  { pmm.linkFrom previous (pmm.next current) with
    freeListNodeCount := sub64 pmm.freeListNodeCount 1
    freeListEnd := if current = pmm.freeListEnd then previous else pmm.freeListEnd }

/-- Take the first `pageCount` pages of a node: the node moves up. -/
def shrink (pageCount : Nat) : PMM :=
  let rest := add64 current (mul64 pageSize pageCount)
  let linked := pmm.linkFrom previous rest
  let sized := linked.setCount rest (sub64 (linked.count current) pageCount)
  let moved := sized.setNext rest (sized.next current)
  { moved with freeListEnd := if current = pmm.freeListEnd then rest else pmm.freeListEnd }

/-- `AllocatePage()`. -/
def allocatePage : Option (PMM × Nat) :=
  if pmm.freePageCount = 0 then none
  else if pmm.freeListStart = 0 then none
  else
    let node := pmm.freeListStart
    let taken := if pmm.count node = 1 then pmm.unlink 0 node else pmm.shrink 0 node 1
    some (taken.countUsed 1, node)

end

/-- The list walk of `AllocatePages`: the first run that is long enough. -/
def findRun (pmm : PMM) (pageCount : Nat) : Option (Nat × Nat) :=
  search pmm.next (fun _ _ => true) (fun _ current => decide (pageCount ≤ pmm.count current))
    (2 ^ 64) 0 pmm.freeListStart

/-- `AllocatePages(pageCount)`; the address zero is a null pointer. -/
def allocatePages (pmm : PMM) (pageCount : Nat) : Option (PMM × Nat) :=
  if pageCount = 1 then pmm.allocatePage
  else if pmm.freePageCount = 0 then none
  else
    match pmm.findRun pageCount with
    | none => none
    | some (previous, current) =>
      if current = 0 then some (pmm, 0)
      else
        let taken :=
          if pmm.count current = pageCount then pmm.unlink previous current
          else pmm.shrink previous current pageCount
        some (taken.countUsed pageCount, current)

/-- The list walk of `FreePage` and `FreePages`: the first node above the pages,
with the assertion that the list is sorted. -/
def findPlace (pmm : PMM) (node : Nat) : Option (Nat × Nat) :=
  search pmm.next (fun previous current => decide (previous < current))
    (fun _ current => decide (node < current)) (2 ^ 64) 0 pmm.freeListStart

section
variable (pmm : PMM) (node pageCount previous current : Nat)

def insertFront : PMM :=
  if add64 node (mul64 pageSize pageCount) = current then
    let sized := pmm.setCount node (add64 (pmm.count current) pageCount)
    let linked := sized.setNext node (sized.next current)
    { linked with
      freeListEnd := if pmm.freeListEnd = current then node else pmm.freeListEnd
      freeListStart := node }
  else
    { (pmm.setCount node pageCount).setNext node pmm.freeListStart with
      freeListNodeCount := add64 pmm.freeListNodeCount 1
      freeListStart := node }

/-- The pages lie between two runs: merge them with the run before them or link
a new node. Returns the node that holds them now. -/
def joinPrevious : PMM × Nat :=
  if pmm.runEnd previous = node then
    (pmm.setCount previous (add64 (pmm.count previous) pageCount), previous)
  else
    ({ (pmm.setNext previous node).setCount node pageCount with
        freeListNodeCount := add64 pmm.freeListNodeCount 1 }, node)

def joinNext : PMM :=
  if pmm.runEnd node = current then
    let sized := pmm.setCount node (add64 (pmm.count node) (pmm.count current))
    let linked := sized.setNext node (sized.next current)
    { linked with
      freeListNodeCount := sub64 pmm.freeListNodeCount 1
      freeListEnd := if pmm.freeListEnd = current then node else pmm.freeListEnd }
  else pmm.setNext node current

/-- The pages lie above every free run. The page count of a new node is not
written here, and a new first node is not counted. -/
def insertEnd : PMM :=
  if pmm.freeListEnd = 0 then
    { pmm.setNext node 0 with freeListStart := node, freeListEnd := node }
  else if pmm.runEnd pmm.freeListEnd = node then
    pmm.setCount pmm.freeListEnd (add64 (pmm.count pmm.freeListEnd) pageCount)
  else
    { (pmm.setNext pmm.freeListEnd node).setNext node 0 with
      freeListEnd := node
      freeListNodeCount := add64 pmm.freeListNodeCount 1 }

end

/-- `FreePages(node, pageCount)`. -/
def freePages (pmm : PMM) (node pageCount : Nat) : Option PMM :=
  match pmm.findPlace node with
  | none => none
  | some (previous, current) =>
    if current = 0 then some ((pmm.insertEnd node pageCount).countFreed pageCount)
    else if previous = 0 then
      some ((pmm.insertFront node pageCount current).countFreed pageCount)
    else if previous < node then
      let (joined, holder) := pmm.joinPrevious node pageCount previous
      some ((joined.joinNext holder current).countFreed pageCount)
    else none

/-- `FreePage(page)`: the same search and cases for one page. -/
def freePage (pmm : PMM) (page : Nat) : Option PMM :=
  match pmm.findPlace page with
  | none => none
  | some (previous, current) =>
    if current = 0 then
      let linked :=
        if pmm.freeListEnd = 0 then
          { pmm.setNext page 0 with freeListStart := page, freeListEnd := page }
        else if pmm.runEnd pmm.freeListEnd = page then
          pmm.setCount pmm.freeListEnd (add64 (pmm.count pmm.freeListEnd) 1)
        else
          { (pmm.setNext pmm.freeListEnd page).setNext page 0 with
            freeListEnd := page
            freeListNodeCount := add64 pmm.freeListNodeCount 1 }
      some (linked.countFreed 1)
    else if previous = 0 then
      let linked :=
        if add64 page pageSize = current then
          let sized := pmm.setCount page (add64 (pmm.count current) 1)
          { sized.setNext page (sized.next current) with
            freeListEnd := if pmm.freeListEnd = current then page else pmm.freeListEnd }
        else
          { (pmm.setCount page 1).setNext page pmm.freeListStart with
            freeListNodeCount := add64 pmm.freeListNodeCount 1 }
      some (({ linked with freeListStart := page } : PMM).countFreed 1)
    else if previous < page then
      let (joined, node) :=
        if pmm.runEnd previous = page then
          (pmm.setCount previous (add64 (pmm.count previous) 1), previous)
        else
          ({ (pmm.setNext previous page).setCount page 1 with
              freeListNodeCount := add64 pmm.freeListNodeCount 1 }, page)
      some ((joined.joinNext node current).countFreed 1)
    else none

/-- The loop of `Verify`; the result is the last node, what follows it and the
number of pages. -/
def verifyList (pmm : PMM) : Nat → Nat → Nat → Nat → Option (Nat × Nat × Nat)
  | 0, previous, current, pageCount => some (previous, current, pageCount)
  | nodes + 1, previous, current, pageCount =>
    if current = 0 then none
    else if previous ≠ 0 ∧ current < pmm.runEnd previous then none
    else pmm.verifyList nodes current (pmm.next current) (add64 pageCount (pmm.count current))

/-- `Verify()`: whether all its assertions hold. -/
def verify (pmm : PMM) : Bool :=
  match pmm.verifyList pmm.freeListNodeCount 0 pmm.freeListStart 0 with
  | none => false
  | some (previous, current, pageCount) =>
    decide (current = 0 ∧ pageCount = pmm.freePageCount ∧ pmm.freeListEnd = previous ∧
      pmm.totalPageCount = add64 pmm.freePageCount pmm.usedPageCount)

def freeRuns (pmm : PMM) : List (Nat × Nat) :=
  walk pmm.next pmm.count pmm.freeListNodeCount pmm.freeListStart

end PMM
end FrostyKernel
