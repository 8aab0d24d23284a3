import FrostyKernel.Memory.FixedAllocation

/-!
# The heaps of the free-list nodes

A node of a free list comes from the VMM heap or from the general kernel heap,
as a flag of the insertion tells, and goes back to the heap that a flag of the
deletion names. `AllocatePages(ptr, numPages)` leaves the flag at its default in
its deletion and in its two insertions, the other calls set it. So a region that
another call listed goes back to the wrong heap there; as long as no such request
passes the tests of the call, no node does.
-/

namespace FrostyKernel.Memory

open List OrderedMap

/-- `VMRegionAllocator()`. -/
def emptyRegion : RegionAllocator :=
  ⟨2 ^ 64 - 1, 0, OrderedMap.empty, OrderedMap.empty, 0, 0, 0, 0, []⟩

/-- The copy `Fork` makes of one list. -/
def copyList (list : List ListNode) : List ListNode :=
  list.foldl (fun copy node => insertNode copy node.data true) []

def fork (allocator other : RegionAllocator) : RegionAllocator :=
  { other with
    allPagesTree := other.allPagesTree.nodes.foldl (fun tree node => tree.insert node.1 node.2)
      allocator.allPagesTree
    freePagesTree := other.freePagesTree.nodes.foldl
      (fun tree node => tree.insert node.1 (copyList node.2)) allocator.freePagesTree
    released := allocator.released }

/-- Every deleted node went back to the heap it came from. -/
def Paired (allocator : RegionAllocator) : Prop :=
  ∀ release ∈ allocator.released, release.allocatedFrom = release.returnedTo

def FromVmm (list : List ListNode) : Prop := ∀ node ∈ list, node.heap = .vmm

def ListsFromVmm (tree : FreeTree) : Prop := ∀ item ∈ tree.nodes, FromVmm item.2

structure VmmOnly (allocator : RegionAllocator) : Prop where
  lists : ListsFromVmm allocator.freePagesTree
  paired : Paired allocator

/-- A call that only works on the tree of all pages. -/
structure SameLists (before after : RegionAllocator) : Prop where
  tree : after.freePagesTree = before.freePagesTree
  released : after.released = before.released

variable {allocators : Nat → RegionAllocator} {after : RegionAllocator}

theorem VmmOnly.of_same {before : RegionAllocator} (only : VmmOnly before)
    (same : SameLists before after) : VmmOnly after := by
  constructor
  · rw [same.tree]
    exact only.lists
  · rw [Paired, same.released]
    exact only.paired

theorem insert_node_from_vmm {list : List ListNode} (all : FromVmm list) (start : Nat) :
    FromVmm (insertNode list start true) := by
  intro node member
  rcases mem_append.mp member with old | fresh
  · exact all node old
  · rw [mem_singleton.mp fresh]
    rfl

theorem copy_list_from_vmm (list : List ListNode) : FromVmm (copyList list) := by
  apply List.foldlRecOn
  · simp [FromVmm]
  · intro copy all node _
    exact insert_node_from_vmm all node.data

section Trees
variable {tree : FreeTree} (lists : ListsFromVmm tree)
include lists
variable {list : List ListNode}

theorem insert_lists (all : FromVmm list) (size : Nat) : ListsFromVmm (tree.insert size list) := by
  intro item member
  rcases mem_insert_list member with same | old
  · rw [same]
    exact all
  · exact lists item old

theorem set_lists (all : FromVmm list) (size : Nat) : ListsFromVmm (tree.set size list) := by
  intro item member
  rcases mem_map.mp member with ⟨old, inside, same⟩
  split_ifs at same with found
  · rw [← same]
    exact all
  · rw [← same]
    exact lists old inside

theorem put_list_lists (all : FromVmm list) (size : Nat) :
    ListsFromVmm (putList tree size list) := by
  unfold putList
  split_ifs
  · exact fun item member => lists item (mem_of_mem_filter member)
  · exact set_lists lists all size

theorem push_free_lists (size start : Nat) : ListsFromVmm (pushFree tree size start true) := by
  unfold pushFree
  split
  · exact insert_lists lists (insert_node_from_vmm (by simp [FromVmm]) start) size
  · rename_i list found
    have all := lists _ (find_some_iff.mp found)
    exact set_lists lists (insert_node_from_vmm all start) size

end Trees

section Calls
variable {allocator : RegionAllocator} {node : ListNode} {numPages : Nat}

theorem Paired.append (paired : Paired allocator) (vmm : node.heap = .vmm) :
    ∀ release ∈ allocator.released ++ [⟨node.heap, .vmm⟩],
      release.allocatedFrom = release.returnedTo := by
  intro release member
  rcases mem_append.mp member with old | fresh
  · exact paired release old
  · rw [mem_singleton.mp fresh]
    exact vmm

theorem split_front_same (node : Nat × NodeData) (start : Nat) :
    SameLists allocator (splitFront allocator node start).1 := by
  unfold splitFront
  split_ifs <;> exact ⟨rfl, rfl⟩

theorem split_back_same (node : Nat × NodeData) (numPages : Nat) :
    SameLists allocator (splitBack allocator node numPages).1 := by
  unfold splitBack
  split_ifs <;> exact ⟨rfl, rfl⟩

theorem region_to_free_same {ptr : Nat} {exact_ : Bool} {found : RegionAllocator × (Nat × NodeData)}
    (region : regionToFree allocator ptr numPages exact_ = some found) :
    SameLists allocator found.1 := by
  unfold regionToFree at region
  split_ifs at region
  · split at region
    · cases region
    · split_ifs at region
      cases region
      exact ⟨rfl, rfl⟩
  · split at region
    · cases region
    · rename_i node _
      have aligned : SameLists allocator (splitFront allocator node ptr).1 :=
        split_front_same node ptr
      dsimp only at region
      split_ifs at region
      all_goals cases region
      · exact ⟨aligned.tree, aligned.released⟩
      · exact aligned

theorem merge_neighbours_same (key ptr numPages : Nat) :
    SameLists allocator (mergeNeighbours allocator key ptr numPages).1 := by
  unfold mergeNeighbours
  constructor <;> dsimp only <;> split_ifs <;> split <;> split <;> rfl

section
variable (only : VmmOnly allocator)
include only

theorem take_free_vmm (size start : Nat) : VmmOnly (takeFree allocator size start true) := by
  unfold takeFree
  split
  · exact only
  · rename_i list found
    have all := only.lists _ (find_some_iff.mp found)
    constructor
    · exact put_list_lists only.lists (fun node member => all node (mem_of_mem_eraseP member)) size
    · cases deleted : deletedNode list start with
      | none => simpa [Paired, deleted] using only.paired
      | some node =>
        rw [Paired]
        exact only.paired.append (all node (mem_of_find?_eq_some deleted))

theorem take_regions_vmm (regions : List Region) :
    VmmOnly (regions.foldl
      (fun current region => takeFree current region.size region.start true) allocator) := by
  apply List.foldlRecOn
  · exact only
  · intro current kept region _
    exact take_free_vmm kept region.size region.start

theorem mark_allocated_vmm (start numPages : Nat) :
    VmmOnly (markAllocated allocator start numPages).1 := by
  unfold markAllocated
  split
  · exact only
  · rename_i found _
    have aligned := only.of_same (split_front_same found start)
    dsimp only
    split_ifs
    · exact aligned
    · have sized := aligned.of_same (split_back_same (splitFront allocator found start).2 numPages)
      exact sized.of_same ⟨rfl, rfl⟩

theorem pop_free_vmm {size : Nat} {rest : List ListNode} (all : FromVmm (node :: rest))
    (numPages : Nat) : VmmOnly (popFree allocator size node rest numPages) := by
  have lists := put_list_lists only.lists
    (fun other member => all other (mem_cons_of_mem node member)) size
  have paired := only.paired.append (all node mem_cons_self)
  unfold popFree
  dsimp only
  split_ifs
  · exact ⟨push_free_lists lists _ _, paired⟩
  · exact ⟨lists, paired⟩

theorem allocate_pages_vmm {result : RegionAllocator × Nat}
    (done : allocatePages allocator numPages = some result) : VmmOnly result.1 := by
  unfold allocatePages at done
  split at done
  · cases done
    exact only
  · cases done
  · rename_i size node rest found
    have all := only.lists _ (mem_of_find?_eq_some found)
    cases done
    exact mark_allocated_vmm (pop_free_vmm only all numPages) node.data numPages

theorem free_pages_vmm (ptr numPages : Nat) (exact_ : Bool) :
    VmmOnly (freePages allocator ptr numPages exact_) := by
  unfold freePages
  split
  · exact only
  · rename_i isolated node region
    have marked : VmmOnly (markNode isolated node true) :=
      (only.of_same (region_to_free_same region)).of_same ⟨rfl, rfl⟩
    have merged := marked.of_same (merge_neighbours_same node.1 ptr numPages)
    exact ⟨push_free_lists (take_regions_vmm merged _).lists _ _, (take_regions_vmm merged _).paired⟩

theorem resize_vmm (ptr numPages newStart newNumPages : Nat) :
    VmmOnly (resizeAllocatedRegion allocator ptr numPages newStart newNumPages).1 := by
  unfold resizeAllocatedRegion
  split
  · exact only
  · rename_i data _
    have aligned := only.of_same (split_front_same (ptr, data) newStart)
    dsimp only
    split_ifs
    · exact only
    · exact aligned.of_same ⟨rfl, rfl⟩
    · exact aligned

theorem fork_vmm {other : RegionAllocator} : VmmOnly (fork allocator other) := by
  constructor
  · unfold fork
    dsimp only
    apply List.foldlRecOn
    · exact only.lists
    · intro tree lists node _
      exact insert_lists lists (copy_list_from_vmm node.2) node.1
  · exact only.paired

end

theorem empty_region_vmm : VmmOnly emptyRegion := by
  constructor <;> simp [emptyRegion, empty, ListsFromVmm, Paired]

theorem init_region_vmm (start limit : Nat) : VmmOnly (initRegion start limit) := by
  constructor
  · exact insert_lists (by simp [empty, ListsFromVmm]) (insert_node_from_vmm (by simp [FromVmm]) _) _
  · simp [Paired, initRegion]

end Calls

/-! ## Runs over several allocators -/

inductive AllocatorCall
  | on (target : Nat) (call : RegionCall)
  | fork (target source : Nat)
deriving DecidableEq, Repr

def AllocatorCall.apply (allocators : Nat → RegionAllocator) :
    AllocatorCall → Option (Nat → RegionAllocator)
  | .on target call => (call.apply (allocators target)).map (Function.update allocators target)
  | .fork target source =>
    some (Function.update allocators target (Memory.fork (allocators target) (allocators source)))

/-- The call is not an `AllocatePages(ptr, numPages)` whose address lies in a free region
that reaches to the end of the request. -/
def AllocatorCall.Spares (allocators : Nat → RegionAllocator) : AllocatorCall → Prop
  | .on target (.allocatePagesAt ptr numPages) => ¬ Accepted (allocators target) ptr numPages
  | _ => True

/-- Allocators that were constructed and possibly set up by `Init`. -/
def Fresh (allocators : Nat → RegionAllocator) : Prop :=
  ∀ index, allocators index = emptyRegion ∨ ∃ start limit, allocators index = initRegion start limit

theorem apply_vmm {allocator : RegionAllocator} (only : VmmOnly allocator) {call : RegionCall}
    (done : call.apply allocator = some after)
    (spares : ∀ ptr numPages, call = .allocatePagesAt ptr numPages →
      ¬ Accepted allocator ptr numPages) : VmmOnly after := by
  cases call with
  | allocatePages numPages =>
    rcases Option.map_eq_some_iff.mp done with ⟨result, allocated, same⟩
    rw [← same]
    exact allocate_pages_vmm only allocated
  | allocatePagesAt ptr numPages =>
    rw [RegionCall.apply, allocate_pages_at_refuses (spares ptr numPages rfl)] at done
    cases done
    exact only
  | freePages ptr numPages exact_ =>
    cases done
    exact free_pages_vmm only ptr numPages exact_
  | resizeAllocatedRegion ptr numPages newStart newNumPages =>
    cases done
    exact resize_vmm only ptr numPages newStart newNumPages

theorem update_vmm (only : ∀ index, VmmOnly (allocators index)) {target : Nat}
    (kept : VmmOnly after) (index : Nat) :
    VmmOnly (Function.update allocators target after index) := by
  by_cases here : index = target
  · rw [here, Function.update_self]
    exact kept
  · rw [Function.update_of_ne here]
    exact only index

theorem apply_all_vmm {next : Nat → RegionAllocator} (only : ∀ index, VmmOnly (allocators index))
    {call : AllocatorCall} (done : call.apply allocators = some next)
    (spares : call.Spares allocators) (index : Nat) : VmmOnly (next index) := by
  cases call with
  | on target call =>
    rcases Option.map_eq_some_iff.mp done with ⟨after, applied, same⟩
    have kept := apply_vmm (only target) applied (by
      rintro ptr numPages rfl
      exact spares)
    rw [← same]
    exact update_vmm only kept index
  | fork target source =>
    cases done
    exact update_vmm only (fork_vmm (only target)) index

theorem nodes_return_to_their_heap {start final : Nat → RegionAllocator} (fresh : Fresh start)
    (calls : List AllocatorCall)
    (run : Run (fun allocators call next => call.apply allocators = some next ∧
      call.Spares allocators) start calls final) (index : Nat) : Paired (final index) := by
  have first : ∀ index, VmmOnly (start index) := by
    intro index
    rcases fresh index with empty | ⟨low, high, set⟩
    · rw [empty]
      exact empty_region_vmm
    · rw [set]
      exact init_region_vmm low high
  have last : ∀ index, VmmOnly (final index) := by
    apply run_invariant (fun allocators => ∀ index, VmmOnly (allocators index)) ?_ first run
    intro allocators call next only step
    exact apply_all_vmm only step.1 step.2
  exact (last index).paired

def onePage : Nat → RegionAllocator := fun _ => initRegion 4096 8192

theorem one_page_fresh : Fresh onePage := fun _ => .inr ⟨4096, 8192, rfl⟩

/-- The page is taken, so that a request for its address is refused, and freed again. -/
def takeAndFree : List AllocatorCall :=
  [.on 0 (.allocatePages 1), .on 0 (.allocatePagesAt 4096 1), .on 0 (.freePages 4096 1 true)]

theorem nodes_return_to_their_heap_one_page :
    ∃ final, Run (fun allocators call next => AllocatorCall.apply allocators call = some next ∧
        call.Spares allocators) onePage takeAndFree final ∧
      (final 0).released = [⟨.vmm, .vmm⟩] ∧ Paired (final 0) := by
  have run : ∃ final, Run (fun allocators call next =>
      AllocatorCall.apply allocators call = some next ∧ call.Spares allocators)
      onePage takeAndFree final ∧ (final 0).released = [⟨.vmm, .vmm⟩] := by
    refine ⟨_, run_cons ⟨rfl, trivial⟩ (run_cons ⟨rfl, ?_⟩ (run_cons ⟨rfl, trivial⟩ (Run.nil _))),
      by decide +kernel⟩
    rintro ⟨key, data, found, free, _⟩
    cases found
    cases free
  obtain ⟨final, run, released⟩ := run
  exact ⟨final, run, released, nodes_return_to_their_heap one_page_fresh takeAndFree run 0⟩

/-- `AllocatePages(ptr, 1)` on a fresh allocator of one page. -/
theorem fixed_allocation_returns_to_wrong_heap :
    ∃ final, Run (fun allocators call next => AllocatorCall.apply allocators call = some next)
      onePage [.on 0 (.allocatePagesAt 4096 1)] final ∧ ¬ Paired (final 0) := by
  refine ⟨_, Run.snoc (Run.nil onePage) rfl, ?_⟩
  intro paired
  have wrong := paired ⟨.vmm, .kernel⟩ (by decide +kernel)
  cases wrong

end FrostyKernel.Memory
