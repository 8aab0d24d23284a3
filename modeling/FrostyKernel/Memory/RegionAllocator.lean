import FrostyKernel.Memory.Types

/-!
# The virtual region allocator

`VMRegionAllocator` keeps two trees. The tree of all pages maps the start of a
region to its size in pages and whether it is free. The tree of free pages maps
a size to the list of the starts of the free regions of that size. A region
handle is its key. A list node remembers which heap it came from, and `released`
records each deleted node with the heap it came from and the heap it went to.
-/

namespace FrostyKernel.Memory

open Word

/-- `CompleteTreeNodeData`: a 62-bit page count and two flags. -/
structure NodeData where
  size : Nat
  isFree : Bool
  isReserved : Bool
deriving DecidableEq, Repr

/-- The two heaps a list node can come from. -/
inductive NodeHeap where
  | vmm
  | kernel
deriving DecidableEq, Repr

def heapOfFlag (vmm : Bool) : NodeHeap := if vmm then .vmm else .kernel

structure ListNode where
  data : Nat
  heap : NodeHeap
deriving DecidableEq, Repr

structure Release where
  allocatedFrom : NodeHeap
  returnedTo : NodeHeap
deriving DecidableEq, Repr

section
variable (list : List ListNode) (key : Nat)

/-- `LinkedList::insertNode` appends at the end. -/
def insertNode (data : Nat) (vmm : Bool) : List ListNode := list ++ [⟨data, heapOfFlag vmm⟩]

/-- `LinkedList::deleteNode` by data removes the first node that holds it. -/
def deleteNode : List ListNode := list.eraseP fun node => node.data = key

def deletedNode : Option ListNode := list.find? fun node => node.data = key

end

abbrev FreeTree := OrderedMap Nat (List ListNode)

structure RegionAllocator where
  start : Nat
  limit : Nat
  allPagesTree : OrderedMap Nat NodeData
  freePagesTree : FreeTree
  freePageCount : Nat
  usedPageCount : Nat
  reservedPageCount : Nat
  totalPageCount : Nat
  released : List Release

def putList (tree : FreeTree) (size : Nat) (list : List ListNode) : FreeTree :=
  if list = [] then tree.erase size else tree.set size list

def pushFree (tree : FreeTree) (size start : Nat) (vmm : Bool) : FreeTree :=
  match tree.find? size with
  | none => tree.insert size (insertNode [] start vmm)
  | some list => tree.set size (insertNode list start vmm)

/-- Remove a region from the list of its size; `vmm` selects the heap the node
is returned to. -/
def takeFree (allocator : RegionAllocator) (size start : Nat) (vmm : Bool) : RegionAllocator :=
  match allocator.freePagesTree.find? size with
  | none => allocator
  | some list =>
    { allocator with
      freePagesTree := putList allocator.freePagesTree size (deleteNode list start)
      released := match deletedNode list start with
        | none => allocator.released
        | some node => allocator.released ++ [⟨node.heap, heapOfFlag vmm⟩] }

/-- `Init(start, end)` on a fresh allocator. -/
def initRegion (start limit : Nat) : RegionAllocator :=
  let first := alignDown start pageSize
  let last := alignUp limit pageSize
  let pageCount :=
    if first = 0 ∧ last = 0 then 2 ^ (64 - 12) else sub64 last first / pageSize
  { start := first
    limit := last
    allPagesTree := OrderedMap.empty.insert first ⟨pageCount % 2 ^ 62, true, false⟩
    freePagesTree := OrderedMap.empty.insert pageCount (insertNode [] first true)
    freePageCount := pageCount
    usedPageCount := 0
    reservedPageCount := 0
    totalPageCount := pageCount
    released := [] }

/-- `SplitAPTNode(node, numPages)`: the node keeps `numPages` pages and a new
node takes the rest. Returns the new node. -/
def splitAptNode (allocator : RegionAllocator) (node : Nat × NodeData) (numPages : Nat) :
    RegionAllocator × (Nat × NodeData) :=
  let lower : NodeData := { node.2 with size := numPages % 2 ^ 62 }
  let upper : NodeData := { lower with size := sub64 node.2.size numPages % 2 ^ 62 }
  let upperKey := add64 node.1 (shl64 numPages 12)
  ({ allocator with
      allPagesTree := (allocator.allPagesTree.set node.1 lower).insert upperKey upper },
    (upperKey, upper))

section
variable (allocator : RegionAllocator) (node : Nat × NodeData) (numPages start : Nat)

/-- `nodeData.isFree = isFree; node->value = nodeData`. -/
def markNode (isFree : Bool) : RegionAllocator :=
  { allocator with
    allPagesTree := allocator.allPagesTree.set node.1 { node.2 with isFree := isFree } }

/-- Move `numPages` pages from the free to the used count. -/
def countUsed : RegionAllocator :=
  { allocator with
    freePageCount := sub64 allocator.freePageCount numPages
    usedPageCount := add64 allocator.usedPageCount numPages }

def countFreed : RegionAllocator :=
  { allocator with
    freePageCount := add64 allocator.freePageCount numPages
    usedPageCount := sub64 allocator.usedPageCount numPages }

/-- Split a node that starts below `start` so that a node starts there. -/
def splitFront : RegionAllocator × (Nat × NodeData) :=
  if node.1 < start then splitAptNode allocator node ((start - node.1) / pageSize)
  else (allocator, node)

end

section
variable (allocator : RegionAllocator)

/-- Split what a node has beyond `numPages` pages. Returns the data of the node. -/
def splitBack (node : Nat × NodeData) (numPages : Nat) : RegionAllocator × NodeData :=
  if numPages < node.2.size then
    ((splitAptNode allocator node numPages).1, { node.2 with size := numPages % 2 ^ 62 })
  else (allocator, node.2)

/-- The second half of `AllocatePages(numPages)`: find the region in the tree of
all pages, split it where needed and mark it used. -/
def markAllocated (start numPages : Nat) : RegionAllocator × Nat :=
  match allocator.allPagesTree.findNodeOrLower start with
  | none => (allocator, 0)
  | some found =>
    let (aligned, node) := splitFront allocator found start
    if node.2.isFree = false then (aligned, 0)
    else
      let (sized, data) := splitBack aligned node numPages
      (countUsed (markNode sized (node.1, data) false) numPages, start)

/-- The first half of `AllocatePages(numPages)`: pop the first region off the
list of a size and list the pages that are not needed. -/
def popFree (size : Nat) (node : ListNode) (rest : List ListNode) (numPages : Nat) :
    RegionAllocator :=
  let popped : RegionAllocator :=
    { allocator with
      freePagesTree := putList allocator.freePagesTree size rest
      released := allocator.released ++ [⟨node.heap, .vmm⟩] }
  if numPages < size then
    { popped with
      freePagesTree := pushFree popped.freePagesTree (size - numPages)
        (add64 node.data (shl64 numPages 12)) true }
  else popped

/-- `AllocatePages(numPages)`: a best fit from the tree of free pages. The result
is the address, zero for a null pointer; `none` is a null dereference. -/
def allocatePages (numPages : Nat) : Option (RegionAllocator × Nat) :=
  match allocator.freePagesTree.findNodeOrHigher numPages with
  | none => some (allocator, 0)
  | some (_, []) => none
  | some (size, node :: rest) =>
    some (markAllocated (popFree allocator size node rest numPages) node.data numPages)

end

section
variable (allocator : RegionAllocator) (node : Nat × NodeData) (numPages ptr : Nat)

/-- Split what a free node has below `ptr` and list it as free. -/
def listFront : RegionAllocator × (Nat × NodeData) :=
  let (front, upper) := splitFront allocator node ptr
  if node.1 < ptr then
    ({ front with
        freePagesTree := pushFree front.freePagesTree ((ptr - node.1) / pageSize) node.1 false },
      upper)
  else (front, upper)

/-- Split what a free node has beyond `numPages` pages and list it as free. -/
def listBack : RegionAllocator × NodeData :=
  let (back, data) := splitBack allocator node numPages
  if numPages < node.2.size then
    ({ back with
        freePagesTree := pushFree back.freePagesTree (sub64 node.2.size numPages % 2 ^ 62)
          (add64 node.1 (shl64 numPages 12)) false },
      data)
  else (back, data)

end

/-- `AllocatePages(ptr, numPages)`: the pages at a given address. -/
def allocatePagesAt (allocator : RegionAllocator) (ptr numPages : Nat) :
    Option (RegionAllocator × Nat) :=
  match allocator.allPagesTree.findNodeOrLower ptr with
  | none => some (allocator, 0)
  | some found =>
    if found.2.isFree = false ∨
        add64 found.1 (shl64 found.2.size 12) < add64 ptr (shl64 numPages 12) then
      some (allocator, 0)
    else if allocator.freePagesTree.find? found.2.size = none then some (allocator, 0)
    else
      let taken := takeFree allocator found.2.size found.1 false
      let (isolated, node) := listFront taken found ptr
      let (sized, data) := listBack isolated node numPages
      some (countUsed (markNode sized (node.1, data) false) numPages, ptr)

/-- The used region `FreePages` works on: the node at `ptr` of exactly `numPages`
pages, or those pages cut out of the node that contains them. -/
def regionToFree (allocator : RegionAllocator) (ptr numPages : Nat) (exact : Bool) :
    Option (RegionAllocator × (Nat × NodeData)) :=
  if exact then
    match allocator.allPagesTree.find? ptr with
    | none => none
    | some data =>
      if data.isFree = true ∨ data.size ≠ numPages then none else some (allocator, (ptr, data))
  else
    match allocator.allPagesTree.findNodeOrLower ptr with
    | none => none
    | some found =>
      if found.2.isFree = true ∨
          add64 found.1 (mul64 found.2.size pageSize) <
            add64 ptr (mul64 numPages pageSize) then none
      else
        let (aligned, node) := splitFront allocator found ptr
        if node.2.size ≠ numPages then
          some ((splitAptNode aligned node numPages).1,
            (node.1, { node.2 with size := numPages % 2 ^ 62 }))
        else some (aligned, node)

/-- A region that is merged: its start and its page count. -/
structure Region where
  start : Nat
  size : Nat
deriving DecidableEq, Repr

section
variable (allocator : RegionAllocator) (key : Nat)

/-- The free neighbour that ends at `ptr`. -/
def previousFree (ptr : Nat) : Option Region :=
  match allocator.allPagesTree.prev key with
  | none => none
  | some previous =>
    if previous.2.isFree = true ∧ add64 previous.1 (shl64 previous.2.size 12) = ptr then
      some ⟨previous.1, previous.2.size⟩
    else none

/-- The free neighbour that starts at `limit`. -/
def nextFree (limit : Nat) : Option Region :=
  match allocator.allPagesTree.findNodeOrHigher limit with
  | none => none
  | some next =>
    if next.2.isFree = true ∧ limit = next.1 then some ⟨next.1, next.2.size⟩ else none

def eraseNode : RegionAllocator :=
  { allocator with allPagesTree := allocator.allPagesTree.erase key }

end

section
variable (allocator : RegionAllocator) (ptr numPages : Nat)

/-- Steps 2 and 3 of `FreePages`: replace the freed node and its free neighbours
by one node. Returns the neighbours that were merged. -/
def mergeNeighbours (key ptr numPages : Nat) : RegionAllocator × Option Region × Option Region :=
  let previous := previousFree allocator key ptr
  let withoutPrevious :=
    match previous with
    | none => allocator
    | some region => eraseNode (eraseNode allocator region.start) key
  let next := nextFree withoutPrevious (add64 ptr (shl64 numPages 12))
  let withoutNext :=
    match next with
    | none => withoutPrevious
    | some region =>
      let erased := eraseNode withoutPrevious region.start
      if previous = none then eraseNode erased key else erased
  let start := (previous.map Region.start).getD ptr
  let size := numPages + (previous.map Region.size).getD 0 + (next.map Region.size).getD 0
  let merged :=
    if previous = none ∧ next = none then withoutNext
    else { withoutNext with
      allPagesTree := withoutNext.allPagesTree.insert start ⟨size % 2 ^ 62, true, false⟩ }
  (merged, previous, next)

/-- `FreePages` from the point where its region is known: mark it free, merge it
and list the result. -/
def returnRegion (node : Nat × NodeData) (ptr numPages : Nat) : RegionAllocator :=
  let (merged, previous, next) :=
    mergeNeighbours (markNode allocator node true) node.1 ptr numPages
  let start := (previous.map Region.start).getD ptr
  let size := numPages + (previous.map Region.size).getD 0 + (next.map Region.size).getD 0
  let taken := (previous.toList ++ next.toList).foldl
    (fun current region => takeFree current region.size region.start true) merged
  countFreed { taken with freePagesTree := pushFree taken.freePagesTree size start true } numPages

/-- `FreePages(ptr, numPages, exact)`. A region that is not found, already free
or of another size leaves the allocator as it is. -/
def freePages (exact : Bool) : RegionAllocator :=
  match regionToFree allocator ptr numPages exact with
  | none => allocator
  | some (isolated, node) => returnRegion isolated node ptr numPages

/-- `ResizeAllocatedRegion(ptr, numPages, newStart, newNumPages)`. -/
def resizeAllocatedRegion (newStart newNumPages : Nat) : RegionAllocator × Bool :=
  match allocator.allPagesTree.find? ptr with
  | none => (allocator, false)
  | some data =>
    if data.isFree = true ∨ data.size ≠ numPages then (allocator, false)
    else
      let (aligned, node) := splitFront allocator (ptr, data) newStart
      if node.2.size ≠ newNumPages then ((splitAptNode aligned node newNumPages).1, true)
      else (aligned, true)

end
end FrostyKernel.Memory
