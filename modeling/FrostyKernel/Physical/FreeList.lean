import FrostyKernel.Lib.Intervals
import FrostyKernel.Physical.PMM

/-!
# The free list in memory

`Linked` relates the pointers of the free list to the list of runs they stand
for. Each pointer operation of the physical memory manager changes one or two
nodes; the lemmas here say which list of runs it leaves.
-/

namespace FrostyKernel.PMM

open Word List
open Memory (pageSize)

def runLength (pageCount : Nat) : Nat := pageCount * pageSize

theorem run_length_add (first second : Nat) :
    runLength (first + second) = runLength first + runLength second :=
  add_mul first second pageSize

/-! ## Node fields after a write -/

section
variable (pmm : PMM)
include pmm
variable (address : Nat) (value : Nat) (other : Nat)

@[simp] theorem count_set_count :
    (pmm.setCount address value).count other = if other = address then value else pmm.count other := by
  unfold count setCount
  by_cases same : other = address
  · simp [same]
  · simp [same]

@[simp] theorem next_set_count : (pmm.setCount address value).next other = pmm.next other := by
  unfold next setCount
  by_cases same : other = address
  · simp [same]
  · simp [same]

@[simp] theorem count_set_next : (pmm.setNext address value).count other = pmm.count other := by
  unfold count setNext
  by_cases same : other = address
  · simp [same]
  · simp [same]

@[simp] theorem next_set_next :
    (pmm.setNext address value).next other = if other = address then value else pmm.next other := by
  unfold next setNext
  by_cases same : other = address
  · simp [same]
  · simp [same]

@[simp] theorem set_count_fields : (pmm.setCount address value).freeListStart = pmm.freeListStart ∧
    (pmm.setCount address value).freeListEnd = pmm.freeListEnd ∧
    (pmm.setCount address value).freeListNodeCount = pmm.freeListNodeCount ∧
    (pmm.setCount address value).freePageCount = pmm.freePageCount ∧
    (pmm.setCount address value).usedPageCount = pmm.usedPageCount ∧
    (pmm.setCount address value).totalPageCount = pmm.totalPageCount :=
  ⟨rfl, rfl, rfl, rfl, rfl, rfl⟩

@[simp] theorem set_next_fields : (pmm.setNext address value).freeListStart = pmm.freeListStart ∧
    (pmm.setNext address value).freeListEnd = pmm.freeListEnd ∧
    (pmm.setNext address value).freeListNodeCount = pmm.freeListNodeCount ∧
    (pmm.setNext address value).freePageCount = pmm.freePageCount ∧
    (pmm.setNext address value).usedPageCount = pmm.usedPageCount ∧
    (pmm.setNext address value).totalPageCount = pmm.totalPageCount :=
  ⟨rfl, rfl, rfl, rfl, rfl, rfl⟩

variable (first last nodes free used total : Nat)

@[simp] theorem count_with_memory :
    (PMM.mk pmm.memory first last nodes free used total).count = pmm.count := rfl

@[simp] theorem next_with_memory :
    (PMM.mk pmm.memory first last nodes free used total).next = pmm.next := rfl

end

/-! ## The list of runs -/

structure Linked (pmm : PMM) (runs : List (Nat × Nat)) : Prop where
  chain : Segment pmm.next pmm.count pmm.freeListStart runs 0
  last : pmm.freeListEnd = lastOr 0 runs
  nodes : pmm.freeListNodeCount = runs.length

section Lists
variable {pmm : PMM} {left right : List (Nat × Nat)} {address pages low high : Nat}

theorem ends_at_iff (left : List (Nat × Nat))
    (apart : Apart runLength low (left ++ (address, pages) :: right) high) :
    address = lastOr 0 (left ++ (address, pages) :: right) ↔ right = [] := by
  have order := (apart_around apart).2
  rw [last_or_append, last_or_cons]
  constructor
  · intro same
    by_contra nonempty
    rcases last_or_mem address nonempty with ⟨item, member, final⟩
    have later := (order item member).2
    rw [final] at same
    simp only at later
    omega
  · intro nothing
    rw [nothing, last_or_nil]

theorem runs_length_lt (apart : Apart runLength low left high) (word : high < 2 ^ 64) :
    left.length < 2 ^ 64 := by
  have bound := apart_length_le apart
  omega

theorem run_end_of_mem {run : Nat × Nat} (linked : Linked pmm left)
    (apart : Apart runLength low left high) (word : high < 2 ^ 64) (member : run ∈ left) :
    pmm.runEnd run.1 = run.1 + runLength run.2 := by
  have bounds := apart_piece_bounds apart member
  have holds := (segment_mem linked.chain member).2
  unfold runEnd
  rw [holds]
  unfold runLength at bounds ⊢
  rw [mul64_of_lt (by omega)]
  exact add64_of_lt (by omega)

theorem last_of_left_ne_zero {rest : List (Nat × Nat)} (linked : Linked pmm (left ++ rest))
    (nonempty : left ≠ []) : lastOr 0 left ≠ 0 := by
  rcases last_or_mem 0 nonempty with ⟨item, member, final⟩
  rw [final]
  exact (segment_mem linked.chain (mem_append_left rest member)).1

/-- The fields of the list after one of its links was redirected. -/
theorem link_from_fields (pmm : PMM) (previous target : Nat) :
    (pmm.linkFrom previous target).count = pmm.count ∧
      (∀ other, (pmm.linkFrom previous target).next other =
        if previous ≠ 0 ∧ other = previous then target else pmm.next other) ∧
      (pmm.linkFrom previous target).freeListStart =
        if previous = 0 then target else pmm.freeListStart := by
  unfold linkFrom
  by_cases null : previous = 0
  · simp only [null, if_true, ne_eq, not_true, false_and, if_false]
    exact ⟨rfl, fun _ => rfl, trivial⟩
  · simp only [null, if_false, ne_eq, not_false_iff, true_and]
    refine ⟨?_, ?_, rfl⟩
    · funext other
      simp
    · intro other
      simp

/-- A link that is already there may be written again. -/
theorem link_from_same {item : Nat × Nat} (linked : Linked pmm (left ++ item :: right)) :
    (pmm.linkFrom (lastOr 0 left) item.1).next = pmm.next ∧
      (pmm.linkFrom (lastOr 0 left) item.1).freeListStart = pmm.freeListStart := by
  have entry := segment_entry linked.chain
  rw [first_or_cons] at entry
  rcases link_from_fields pmm (lastOr 0 left) item.1 with ⟨_, nexts, start⟩
  rw [start]
  by_cases nothing : left = []
  · rw [if_pos nothing] at entry
    subst nothing
    exact ⟨rfl, by simp [entry]⟩
  · rw [if_neg nothing] at entry
    refine ⟨?_, if_neg (last_of_left_ne_zero linked nothing)⟩
    funext other
    rw [nexts]
    split_ifs with atLast
    · rw [atLast.2, entry]
    · rfl

variable {taken : Nat} {after : PMM}

/-- Redirecting the link into the middle of the list and writing nodes that are
not part of the rest exchanges the runs in the middle. -/
theorem linked_splice (left old new : List (Nat × Nat)) (target : Nat)
    (linked : Linked pmm (left ++ (old ++ right)))
    (apart : Apart runLength low (left ++ (old ++ right)) high)
    (outside : ∀ item ∈ left ++ right, after.count item.1 = pmm.count item.1 ∧
      after.next item.1 = (pmm.linkFrom (lastOr 0 left) target).next item.1)
    (start : after.freeListStart = (pmm.linkFrom (lastOr 0 left) target).freeListStart)
    (entry : target = firstOr (new ++ right) 0)
    (middle : Segment after.next after.count target new (firstOr right 0))
    (ends : after.freeListEnd = lastOr 0 (left ++ (new ++ right)))
    (nodes : after.freeListNodeCount = (left ++ (new ++ right)).length) :
    Linked after (left ++ (new ++ right)) := by
  have sorted := apart_sorted apart
  have leftSorted := (pairwise_append.mp sorted).1
  have crossing := (pairwise_append.mp sorted).2.2
  rcases link_from_fields pmm (lastOr 0 left) target with ⟨_, nexts, starts⟩
  refine ⟨segment_splice linked.chain ?_ ?_ (leftSorted.imp ne_of_lt) ?_ ?_ ?_ ?_, ends, nodes⟩
  · intro item member
    exact (outside item (mem_append_left right member)).1
  · intro item member other
    rw [(outside item (mem_append_left right member)).2, nexts, if_neg (fun both => other both.2)]
  · intro nonempty
    rw [start, starts, if_neg (last_of_left_ne_zero linked nonempty)]
  · by_cases nothing : left = []
    · rw [if_pos nothing, start, starts, nothing, last_or_nil, if_pos rfl, entry]
    · rw [if_neg nothing]
      rcases last_or_mem 0 nothing with ⟨item, member, final⟩
      rw [final, (outside item (mem_append_left right member)).2, nexts, ← final,
        if_pos ⟨last_of_left_ne_zero linked nothing, rfl⟩, entry]
  · rw [← entry]
    exact middle
  · intro item member
    have here := outside item (mem_append_right left member)
    refine ⟨?_, here.1⟩
    rw [here.2, nexts, if_neg]
    intro both
    have nonempty : left ≠ [] := by
      intro nothing
      exact both.1 (by simp [nothing])
    rcases last_or_mem 0 nonempty with ⟨last, lastMember, final⟩
    have order := crossing last lastMember item (mem_append_right old member)
    rw [← final] at order
    omega

/-- The last run stays the last one when a run before it changes. -/
theorem end_after_change (left : List (Nat × Nat))
    (linked : Linked pmm (left ++ (address, pages) :: right))
    (apart : Apart runLength low (left ++ (address, pages) :: right) high)
    (new : List (Nat × Nat)) {final : Nat} (finalIs : final = lastOr 0 (left ++ new)) :
    (if address = pmm.freeListEnd then final else pmm.freeListEnd) =
      lastOr 0 (left ++ (new ++ right)) := by
  have ends := ends_at_iff left apart
  rw [← linked.last] at ends
  by_cases nothing : right = []
  · rw [if_pos (ends.mpr nothing), finalIs, nothing, append_nil]
  · rw [if_neg (fun same => nothing (ends.mp same)), linked.last, ← append_assoc, last_or_tail
      nothing 0 0, ← singleton_append, ← append_assoc, last_or_tail nothing 0 0]

theorem unlink_linked (linked : Linked pmm (left ++ (address, pages) :: right))
    (apart : Apart runLength low (left ++ (address, pages) :: right) high)
    (word : high < 2 ^ 64) : Linked (pmm.unlink (lastOr 0 left) address) (left ++ right) := by
  have few := runs_length_lt apart word
  have counts := (link_from_fields pmm (lastOr 0 left) (pmm.next address)).1
  have nextIs := segment_next linked.chain
  have ends := end_after_change left linked apart []
    (show lastOr 0 left = lastOr 0 (left ++ []) by simp)
  have whole : left ++ (address, pages) :: right = left ++ ([(address, pages)] ++ right) := rfl
  rw [whole] at linked apart
  apply linked_splice left [(address, pages)] [] (pmm.next address) linked apart
  · intro item _
    exact ⟨congrFun counts item.1, rfl⟩
  · rfl
  · exact nextIs
  · exact nextIs
  · exact ends
  · simp only [length_append, length_cons] at few
    simp only [unlink, linked.nodes, length_append, length_cons, length_nil]
    rw [sub64_of_le (by omega) (by omega)]
    omega

/-- A node that stands for `size` pages takes the place of the runs `old`. -/
theorem replaced_linked {holder size : Nat} (left old : List (Nat × Nat))
    (linked : Linked pmm (left ++ (old ++ right)))
    (apart : Apart runLength low (left ++ (old ++ right)) high) (nonzero : holder ≠ 0)
    (before : Apart runLength low left holder) (behind : Apart runLength (holder + 1) right high)
    (counts : ∀ other, after.count other = if other = holder then size else pmm.count other)
    (nexts : ∀ other, after.next other = if other = holder then firstOr right 0
      else (pmm.linkFrom (lastOr 0 left) holder).next other)
    (start : after.freeListStart = (pmm.linkFrom (lastOr 0 left) holder).freeListStart)
    (ends : after.freeListEnd = lastOr 0 (left ++ (holder, size) :: right))
    (nodes : after.freeListNodeCount = (left ++ (holder, size) :: right).length) :
    Linked after (left ++ (holder, size) :: right) := by
  apply linked_splice left old [(holder, size)] holder linked apart _ start rfl _ ends nodes
  · intro item member
    have fresh : item.1 ≠ holder := by
      rcases mem_append.mp member with early | late
      · have order := apart_piece_bounds before early
        omega
      · have order := apart_piece_bounds behind late
        omega
    rw [counts, nexts, if_neg fresh, if_neg fresh]
    exact ⟨rfl, rfl⟩
  · exact ⟨rfl, nonzero, by rw [counts, if_pos rfl], by rw [nexts, if_pos rfl]; rfl⟩

/-- The node fields after the first pages of a run were taken. -/
theorem shrink_fields (pmm : PMM) (previous : Nat) {rest : Nat}
    (moved : add64 address (mul64 pageSize taken) = rest) (other : Nat) :
    (pmm.shrink previous address taken).count other =
        (if other = rest then sub64 (pmm.count address) taken else pmm.count other) ∧
      (pmm.shrink previous address taken).next other =
        if other = rest then (pmm.linkFrom previous rest).next address
        else (pmm.linkFrom previous rest).next other := by
  have counts := (link_from_fields pmm previous rest).1
  unfold shrink
  rw [moved]
  constructor
  · change ((PMM.setCount _ _ _).setNext _ _).count other = _
    rw [count_set_next, count_set_count, counts]
  · change ((PMM.setCount _ _ _).setNext _ _).next other = _
    rw [next_set_next, next_set_count, next_set_count]

theorem shrink_linked (linked : Linked pmm (left ++ (address, pages) :: right))
    (apart : Apart runLength low (left ++ (address, pages) :: right) high) (word : high < 2 ^ 64)
    (less : taken < pages) :
    Linked (pmm.shrink (lastOr 0 left) address taken)
      (left ++ (address + runLength taken, pages - taken) :: right) := by
  have below := (apart_around apart).1
  have bounds := apart_piece_bounds apart (show (address, pages) ∈ _ by simp)
  have inside : runLength taken < runLength pages := Nat.mul_lt_mul_of_pos_right less (by decide)
  have nonzero : address ≠ 0 := (segment_mem linked.chain (show (address, pages) ∈ _ by simp)).1
  have rest : add64 address (mul64 pageSize taken) = address + runLength taken := by
    unfold runLength at bounds inside ⊢
    rw [mul_comm taken, mul64_of_lt (by rw [mul_comm]; simp only at bounds; omega)]
    exact add64_of_lt (by rw [mul_comm]; simp only at bounds; omega)
  have holds : pmm.count address = pages :=
    (segment_mem linked.chain (show (address, pages) ∈ _ by simp)).2
  have remaining : sub64 pages taken = pages - taken := by
    apply sub64_of_le _ less.le
    unfold runLength at bounds
    simp only [pageSize] at bounds
    omega
  have nextIs := segment_next linked.chain
  have ends := end_after_change left linked apart
    [(address + runLength taken, pages - taken)] (by rw [last_or_snoc])
  rcases link_from_fields pmm (lastOr 0 left) (address + runLength taken) with ⟨_, nexts, _⟩
  have untouched : (pmm.linkFrom (lastOr 0 left) (address + runLength taken)).next address =
      firstOr right 0 := by
    rw [nexts, if_neg, nextIs]
    intro both
    have nonempty : left ≠ [] := by
      intro nothing
      exact both.1 (by simp [nothing])
    rcases last_or_mem 0 nonempty with ⟨last, member, final⟩
    have order := (below last member).2
    rw [← final] at order
    simp only at order
    omega
  have fields := shrink_fields pmm (lastOr 0 left) rest
  rw [holds, remaining, untouched] at fields
  rcases apart_cut.mp apart with ⟨front, _, back⟩
  simp only at front back
  apply replaced_linked left [(address, pages)] linked apart (by omega)
    (apart_mono front le_rfl (by omega)) (apart_mono back (by omega) le_rfl)
    (fun other => (fields other).1) (fun other => (fields other).2)
  · unfold shrink
    rw [rest]
    rfl
  · unfold shrink
    rw [rest]
    exact ends
  · have same := linked.nodes
    unfold shrink linkFrom
    simp only [length_append, length_cons] at same ⊢
    split <;> exact same

end Lists

/-! ## Inserting a run -/

def prependRun (node pages : Nat) : List (Nat × Nat) → List (Nat × Nat)
  | [] => [(node, pages)]
  | run :: rest =>
    if node + runLength pages = run.1 then (node, pages + run.2) :: rest
    else (node, pages) :: run :: rest

section Insert
variable {pmm : PMM} {left right : List (Nat × Nat)} {node pages low high : Nat}
  {rest : List (Nat × Nat)} {address : Nat} {run : Nat × Nat}

/-- The sum of a run's start and its length, as the code computes it. -/
theorem run_end_spec {count : Nat} (holds : pmm.count address = count)
    (noWrap : address + runLength count < 2 ^ 64) :
    pmm.runEnd address = address + runLength count := by
  unfold runEnd runLength at *
  rw [holds, mul64_of_lt (by omega)]
  exact add64_of_lt noWrap

theorem insert_front_linked (linked : Linked pmm (run :: rest)) (word : high < 2 ^ 64)
    (positive : 0 < pages) (nonzero : node ≠ 0)
    (apart : Apart runLength (node + runLength pages) (run :: rest) high) :
    Linked (pmm.insertFront node pages run.1) (prependRun node pages (run :: rest)) := by
  have few := apart_length_le apart
  have bounds := apart_piece_bounds apart (show run ∈ run :: rest by simp)
  have moved : 0 < runLength pages := mul_pos positive (by decide)
  have ends : add64 node (mul64 pageSize pages) = node + runLength pages := by
    unfold runLength at bounds ⊢
    rw [mul_comm pages, mul64_of_lt (by rw [mul_comm]; omega)]
    exact add64_of_lt (by rw [mul_comm]; omega)
  have holds : pmm.count run.1 = run.2 := (segment_mem linked.chain (by simp)).2
  have nextIs : pmm.next run.1 = firstOr rest 0 := segment_first linked.chain.2.2.2
  by_cases touches : node + runLength pages = run.1
  · have sum : add64 run.2 pages = pages + run.2 := by
      unfold runLength at bounds
      simp only [pageSize] at bounds
      rw [add_comm pages]
      exact add64_of_lt (by omega)
    have final := end_after_change [] linked apart [(node, pages + run.2)] rfl
    simp only [insertFront, prependRun, ends, touches, if_true]
    apply replaced_linked [] [run] linked (apart_mono apart (by omega) le_rfl) nonzero le_rfl
      (apart_mono apart.2.2 (by omega) le_rfl)
    · simp [holds, sum]
    · simp [linkFrom, nextIs]
    · rfl
    · rw [← singleton_append, ← final]
      simp [lastOr, eq_comm]
    · simpa using linked.nodes
  · have first := segment_first linked.chain
    simp only [insertFront, prependRun, ends, touches, if_false]
    apply replaced_linked [] [] linked (apart_mono apart (by omega) le_rfl) nonzero le_rfl
      (apart_mono apart (by omega) le_rfl)
    · simp
    · simp [linkFrom, first]
    · rfl
    · simp [linked.last, last_or_cons]
    · rw [length_cons] at few
      simp only [linked.nodes, nil_append, length_cons]
      exact add64_of_lt (by omega)

theorem set_next_same {target : Nat} (leads : pmm.next address = target) :
    pmm.setNext address target = pmm := by
  subst leads
  unfold setNext next
  rw [Function.update_eq_self]

/-- The next pointer of the node that is joined is written anew. -/
theorem join_next_set_next {current : Nat} (target : Nat) (other : current ≠ node) :
    (pmm.setNext node target).joinNext node current = pmm.joinNext node current := by
  unfold joinNext runEnd
  simp only [count_set_next]
  split
  · simp [setNext, setCount, next, count, other]
    rfl
  · simp [setNext]

theorem grow_linked (left : List (Nat × Nat)) (size : Nat)
    (linked : Linked pmm (left ++ run :: right))
    (apart : Apart runLength low (left ++ run :: right) high) :
    Linked (pmm.setCount run.1 size) (left ++ (run.1, size) :: right) := by
  have same := link_from_same linked
  have nonzero := (segment_mem linked.chain (show run ∈ left ++ run :: right by simp)).1
  rcases apart_cut.mp apart with ⟨front, positive, back⟩
  apply replaced_linked left [run] linked apart nonzero front (apart_mono back (by omega) le_rfl)
  · simp
  · intro other
    by_cases here : other = run.1
    · simp [here, segment_next linked.chain]
    · simp [here, same.1]
  · exact same.2.symm
  · simp [linked.last, last_or_append, last_or_cons]
  · simpa using linked.nodes

theorem join_next_linked {holder size : Nat}
    (linked : Linked pmm (left ++ (holder, size) :: run :: rest)) (word : high < 2 ^ 64)
    (apart : Apart runLength low (left ++ (holder, size) :: run :: rest) high) :
    Linked (pmm.joinNext holder run.1) (left ++ prependRun holder size (run :: rest)) := by
  have holds := segment_mem linked.chain (show (holder, size) ∈ _ by simp)
  have apart' : Apart runLength low (left ++ [(holder, size)] ++ run :: rest) high := by
    simpa using apart
  have linked' : Linked pmm (left ++ [(holder, size)] ++ run :: rest) := by simpa using linked
  have runHolds := (segment_mem linked'.chain (show run ∈ _ ++ run :: rest by simp)).2
  have bounds := apart_piece_bounds apart (show (holder, size) ∈ _ by simp)
  have runBounds := apart_piece_bounds apart' (show run ∈ _ ++ run :: rest by simp)
  rcases apart_cut.mp apart with ⟨front, _, back⟩
  simp only at holds bounds back
  have ends := run_end_spec holds.2 (show holder + runLength size < 2 ^ 64 by omega)
  by_cases touches : holder + runLength size = run.1
  · have sum : add64 size run.2 = size + run.2 := by
      unfold runLength at bounds runBounds
      simp only [pageSize] at bounds runBounds
      exact add64_of_lt (by omega)
    have final := end_after_change (left ++ [(holder, size)]) linked' apart' []
      (show holder = _ by simp)
    have nodes := linked.nodes
    have few := runs_length_lt apart word
    simp only [joinNext, prependRun, ends, touches, if_true]
    apply replaced_linked left [(holder, size), run] linked apart holds.1 front
      (apart_mono back.2.2 (by omega) le_rfl)
    · simp [holds.2, runHolds, sum]
    · intro other
      by_cases here : other = holder
      · simp [here, segment_next linked'.chain]
      · simp [here, (link_from_same linked).1]
    · exact (link_from_same linked).2.symm
    · simpa [last_or_append, last_or_cons, eq_comm] using final
    · simp only [nodes, length_append, length_cons] at few ⊢
      rw [sub64_of_le (by omega) (by omega)]
      omega
  · simp only [joinNext, prependRun, ends, touches, if_false]
    have leads : pmm.next holder = run.1 := segment_next linked.chain
    rwa [set_next_same leads]

section Behind
variable {initial : List (Nat × Nat)} {last : Nat × Nat}

theorem insert_between_linked {run : Nat × Nat} {rest : List (Nat × Nat)}
    (linked : Linked pmm (initial ++ [last] ++ run :: rest)) (word : high < 2 ^ 64)
    (positive : 0 < pages) (nonzero : node ≠ 0)
    (before : Apart runLength low (initial ++ [last]) node)
    (behind : Apart runLength (node + runLength pages) (run :: rest) high) :
    Linked ((pmm.joinPrevious node pages last.1).1.joinNext
        (pmm.joinPrevious node pages last.1).2 run.1)
      (if last.1 + runLength last.2 = node then
        initial ++ prependRun last.1 (last.2 + pages) (run :: rest)
      else initial ++ [last] ++ prependRun node pages (run :: rest)) := by
  have moved : 0 < runLength pages := mul_pos positive (by decide)
  have apart : Apart runLength low (initial ++ [last] ++ run :: rest) high :=
    apart_append.mpr ⟨node, before, apart_mono behind (by omega) le_rfl⟩
  have bounds := apart_low_le_high behind
  have lastBounds := apart_piece_bounds before (show last ∈ initial ++ [last] by simp)
  have holds := segment_mem linked.chain (show last ∈ initial ++ [last] ++ run :: rest by simp)
  have ends := run_end_spec holds.2 (show last.1 + runLength last.2 < 2 ^ 64 by omega)
  unfold joinPrevious
  rw [ends, holds.2]
  split_ifs with touches
  · have sum : add64 last.2 pages = last.2 + pages := by
      unfold runLength at bounds lastBounds
      simp only [pageSize] at bounds lastBounds
      exact add64_of_lt (by omega)
    have reach : last.1 + runLength (last.2 + pages) = node + runLength pages := by
      rw [run_length_add]
      omega
    rw [append_assoc] at linked apart
    have grown := grow_linked initial (last.2 + pages) linked apart
    rw [sum]
    apply join_next_linked grown word
    apply apart_cut.mpr
    exact ⟨(apart_cut.mp before).1, by simp only; omega, by simpa only [reach] using behind⟩
  · have few := apart_length_le behind
    rw [← join_next_set_next run.1 (by have := behind.1; omega)]
    apply join_next_linked _ word
    · apply apart_cut.mpr
      exact ⟨before, moved, behind⟩
    · apply replaced_linked (initial ++ [last]) [] linked apart nonzero before
        (apart_mono behind (by omega) le_rfl)
      · simp
      · simp [linkFrom, holds.1]
      · simp [linkFrom, holds.1]
      · simp [linked.last, last_or_append, last_or_cons]
      · have fewBefore := apart_length_le before
        simp only [linked.nodes, length_append, length_cons, length_nil,
          set_next_fields] at few fewBefore ⊢
        rw [add64_of_lt (by omega)]
        omega

theorem insert_end_linked (linked : Linked pmm (initial ++ [last]))
    (word : node + runLength pages < 2 ^ 64) (positive : 0 < pages) (nonzero : node ≠ 0)
    (before : Apart runLength low (initial ++ [last]) node) :
    Linked (pmm.insertEnd node pages)
      (if last.1 + runLength last.2 = node then initial ++ [(last.1, last.2 + pages)]
      else initial ++ [last] ++ [(node, pmm.count node)]) := by
  have lastBounds := apart_piece_bounds before (show last ∈ initial ++ [last] by simp)
  have holds := segment_mem linked.chain (show last ∈ initial ++ [last] by simp)
  have ends := run_end_spec holds.2 (show last.1 + runLength last.2 < 2 ^ 64 by omega)
  have lastIs : pmm.freeListEnd = last.1 := by
    rw [linked.last, last_or_snoc]
  unfold insertEnd
  rw [lastIs, if_neg holds.1, ends, holds.2]
  split_ifs with touches
  · have sum : add64 last.2 pages = last.2 + pages := by
      unfold runLength at lastBounds word
      simp only [pageSize] at lastBounds word
      exact add64_of_lt (by omega)
    rw [sum]
    exact grow_linked initial (last.2 + pages) linked before
  · have few := apart_length_le before
    have moved : 0 < runLength pages := mul_pos positive (by decide)
    have whole : initial ++ [last] = initial ++ [last] ++ ([] ++ []) := by simp
    apply replaced_linked (initial ++ [last]) [] (whole ▸ linked)
      (whole ▸ apart_mono before le_rfl (Nat.le_succ node)) nonzero before le_rfl
    · simp
    · simp [linkFrom, holds.1]
    · simp [linkFrom, holds.1]
    · rw [last_or_snoc]
    · simp only [linked.nodes, length_append, length_cons, length_nil] at few ⊢
      rw [add64_of_lt (by omega)]

end Behind
end Insert
end FrostyKernel.PMM
