import FrostyKernel.Physical.FreeList

/-!
# Calls of the physical memory manager

What `AllocatePages` and `FreePages` do to a state that passes `Verify`: the
first run that is long enough loses its first pages, and freed pages are merged
with the runs they touch. The exception is an insertion above every free run,
where the source does not write the page count of the new node and does not
count a first node.
-/

namespace FrostyKernel.PMM

open Word List

open Memory (pageSize)

def pagesIn (runs : List (Nat × Nat)) : Nat := (runs.map Prod.snd).sum

def top : Nat := 2 ^ 64 - 1

/-! ## Taking pages from a run -/

/-- What is left of a run after its first `taken` pages are gone. -/
def restOfRun (address pages taken : Nat) : List (Nat × Nat) :=
  if pages = taken then [] else [(address + runLength taken, pages - taken)]

section Take
variable {left right : List (Nat × Nat)} {address pages taken low high : Nat}

theorem run_length_split (fits : taken ≤ pages) :
    runLength pages = runLength taken + runLength (pages - taken) := by
  rw [← run_length_add, Nat.add_sub_cancel' fits]

theorem rest_of_run_apart (fits : taken ≤ pages)
    (apart : Apart runLength low (left ++ (address, pages) :: right) high) :
    Apart runLength low (left ++ (restOfRun address pages taken ++ right)) high := by
  rcases apart_cut.mp apart with ⟨front, positive, back⟩
  have whole := run_length_split fits
  unfold restOfRun
  split_ifs with all
  · apply apart_append.mpr
    exact ⟨address, front, apart_mono back (Nat.le_add_right _ _) le_rfl⟩
  · apply apart_cut.mpr
    refine ⟨apart_mono front le_rfl (Nat.le_add_right _ _), ?_, ?_⟩
    · exact mul_pos (by simp only; omega) (by decide)
    · simp only at back ⊢
      rwa [add_assoc, ← whole]

theorem rest_of_run_covers (fits : taken ≤ pages)
    (apart : Apart runLength low (left ++ (address, pages) :: right) high) (point : Nat) :
    Covers runLength (left ++ (restOfRun address pages taken ++ right)) point ↔
      Covers runLength (left ++ (address, pages) :: right) point ∧
        ¬ (address ≤ point ∧ point < address + runLength taken) := by
  rcases apart_cut.mp apart with ⟨front, positive, back⟩
  have whole := run_length_split fits
  have leftBounds : Covers runLength left point → point < address := fun covered =>
    (covers_bounds front covered).2
  have rightBounds : Covers runLength right point → address + runLength pages ≤ point :=
    fun covered => (covers_bounds back covered).1
  have middle : Covers runLength (restOfRun address pages taken) point ↔
      address + runLength taken ≤ point ∧ point < address + runLength pages := by
    unfold restOfRun
    split_ifs with all
    · simp only [not_covers_nil, false_iff, all]
      omega
    · simp only [covers_cons, not_covers_nil, or_false]
      omega
  simp only [covers_append, covers_cons, middle]
  constructor
  · intro inside
    rcases inside with before | here | after
    · have bound := leftBounds before
      exact ⟨.inl before, by omega⟩
    · exact ⟨.inr (.inl (by omega)), by omega⟩
    · have bound := rightBounds after
      exact ⟨.inr (.inr after), by omega⟩
  · intro inside
    rcases inside with ⟨before | here | after, outside⟩
    · exact .inl before
    · exact .inr (.inl (by omega))
    · exact .inr (.inr after)

theorem pages_in_rest_of_run (left right : List (Nat × Nat)) (address : Nat) (fits : taken ≤ pages) :
    pagesIn (left ++ (restOfRun address pages taken ++ right)) + taken =
      pagesIn (left ++ (address, pages) :: right) := by
  unfold restOfRun
  split_ifs with all
  · simp [pagesIn]
    omega
  · simp [pagesIn]
    omega

theorem rest_of_run_aligned (aligned : ∀ run ∈ left ++ (address, pages) :: right, pageSize ∣ run.1) :
    ∀ run ∈ left ++ (restOfRun address pages taken ++ right), pageSize ∣ run.1 := by
  intro run member
  simp only [mem_append] at member
  rcases member with before | here | after
  · exact aligned run (by simp [before])
  · unfold restOfRun at here
    split_ifs at here
    · simp at here
    · rw [mem_singleton.mp here]
      exact dvd_add (aligned (address, pages) (by simp)) (dvd_mul_left _ _)
  · exact aligned run (by simp [after])

end Take

/-! ## Inserting a run -/

section Prepend
variable {left right : List (Nat × Nat)} {node pages low high : Nat}

theorem prepend_run_apart (positive : 0 < pages)
    (apart : Apart runLength (node + runLength pages) right high) :
    Apart runLength node (prependRun node pages right) high := by
  have moved : 0 < runLength pages := mul_pos positive (by decide)
  cases right with
  | nil => exact ⟨le_rfl, moved, apart⟩
  | cons run rest =>
    simp only [prependRun]
    split_ifs with touches
    · refine ⟨le_rfl, ?_, ?_⟩
      · simp only [run_length_add]
        omega
      · have back := apart.2.2
        simp only [run_length_add]
        rwa [← add_assoc, touches]
    · exact ⟨le_rfl, moved, apart⟩

theorem prepend_run_covers (apart : Apart runLength (node + runLength pages) right high)
    (point : Nat) :
    Covers runLength (prependRun node pages right) point ↔
      (node ≤ point ∧ point < node + runLength pages) ∨ Covers runLength right point := by
  cases right with
  | nil => simp [prependRun]
  | cons run rest =>
    simp only [prependRun]
    split_ifs with touches
    · simp only [covers_cons, run_length_add, ← or_assoc]
      apply or_congr _ Iff.rfl
      omega
    · simp only [covers_cons]

theorem pages_in_prepend_run (node pages : Nat) (right : List (Nat × Nat)) :
    pagesIn (prependRun node pages right) = pages + pagesIn right := by
  cases right with
  | nil => simp [prependRun, pagesIn]
  | cons run rest =>
    simp only [prependRun]
    split_ifs
    · simp [pagesIn, add_assoc]
    · simp [pagesIn]

theorem prepend_run_aligned (nodeAligned : pageSize ∣ node)
    (aligned : ∀ run ∈ right, pageSize ∣ run.1) :
    ∀ run ∈ prependRun node pages right, pageSize ∣ run.1 := by
  intro run member
  cases right with
  | nil => rw [mem_singleton.mp member]; exact nodeAligned
  | cons first rest =>
    simp only [prependRun] at member
    split_ifs at member
    · rcases mem_cons.mp member with same | later
      · rw [same]
        exact nodeAligned
      · exact aligned run (by simp [later])
    · rcases mem_cons.mp member with same | later
      · rw [same]
        exact nodeAligned
      · exact aligned run later

/-- A list of runs to which the pages from `node` on were added. -/
structure Inserted (low high node pages : Nat) (old new : List (Nat × Nat)) : Prop where
  apart : Apart runLength low new high
  covers : ∀ point, Covers runLength new point ↔
    Covers runLength old point ∨ (node ≤ point ∧ point < node + runLength pages)
  total : pagesIn new = pagesIn old + pages
  aligned : (∀ run ∈ old, pageSize ∣ run.1) → pageSize ∣ node → ∀ run ∈ new, pageSize ∣ run.1

theorem inserted_between (positive : 0 < pages) (before : Apart runLength low left node)
    (after : Apart runLength (node + runLength pages) right high) :
    Inserted low high node pages (left ++ right) (left ++ prependRun node pages right) := by
  refine ⟨apart_append.mpr ⟨node, before, prepend_run_apart positive after⟩, ?_, ?_, ?_⟩
  · intro point
    rw [covers_append, covers_append, prepend_run_covers after, or_assoc]
    apply or_congr Iff.rfl
    exact or_comm
  · have total := pages_in_prepend_run node pages right
    simp only [pagesIn, map_append, sum_append] at total ⊢
    omega
  · intro aligned nodeAligned run member
    rcases mem_append.mp member with early | late
    · exact aligned run (by simp [early])
    · exact prepend_run_aligned nodeAligned (fun other inside => aligned other (by simp [inside]))
        run late

variable {initial : List (Nat × Nat)} {last : Nat × Nat}

theorem inserted_touching (positive : 0 < pages) (touches : last.1 + runLength last.2 = node)
    (before : Apart runLength low (initial ++ [last]) node)
    (after : Apart runLength (node + runLength pages) right high) :
    Inserted low high node pages (initial ++ [last] ++ right)
      (initial ++ prependRun last.1 (last.2 + pages) right) := by
  rcases apart_cut.mp before with ⟨front, _, _⟩
  have grown : last.1 + runLength (last.2 + pages) = node + runLength pages := by
    rw [run_length_add]
    omega
  rw [← grown] at after
  have joined := inserted_between (show 0 < last.2 + pages by omega) front after
  refine ⟨joined.apart, ?_, ?_, ?_⟩
  · intro point
    rw [joined.covers]
    simp only [covers_append, covers_cons, not_covers_nil, or_false, grown]
    constructor
    · intro inside
      rcases inside with (early | late) | here
      · exact .inl (.inl (.inl early))
      · exact .inl (.inr late)
      · by_cases old : point < node
        · exact .inl (.inl (.inr (by omega)))
        · exact .inr (by omega)
    · intro inside
      rcases inside with ((early | here) | late) | fresh
      · exact .inl (.inl early)
      · exact .inr (by omega)
      · exact .inl (.inr late)
      · exact .inr (by omega)
  · have total := joined.total
    simp only [pagesIn, map_append, sum_append, map_cons, map_nil, sum_cons, sum_nil] at total ⊢
    omega
  · intro aligned _
    apply joined.aligned
    · intro run member
      rcases mem_append.mp member with early | late
      · exact aligned run (by simp [early])
      · exact aligned run (by simp [late])
    · exact aligned last (by simp)

/-- One run of the new list holds the added pages and the old runs that they touch. -/
def Merged (node pages : Nat) (old new : List (Nat × Nat)) : Prop :=
  ∃ holder ∈ new, holder.1 ≤ node ∧ node + runLength pages ≤ holder.1 + runLength holder.2 ∧
    ∀ run ∈ old, run.1 + runLength run.2 = node ∨ run.1 = node + runLength pages →
      holder.1 ≤ run.1 ∧ run.1 + runLength run.2 ≤ holder.1 + runLength holder.2

theorem prepend_run_holds (after : Apart runLength (node + runLength pages) right high) :
    ∃ count, (node, count) ∈ prependRun node pages right ∧ pages ≤ count ∧
      ∀ run ∈ right, run.1 = node + runLength pages →
        run.1 + runLength run.2 ≤ node + runLength count := by
  cases right with
  | nil => exact ⟨pages, by simp [prependRun]⟩
  | cons first rest =>
    have later : ∀ run ∈ rest, run.1 ≠ node + runLength pages := by
      intro run member
      have order := apart_piece_bounds after.2.2 member
      have start := after.1
      have positive := after.2.1
      omega
    simp only [prependRun]
    split_ifs with touches
    · refine ⟨pages + first.2, by simp, by omega, ?_⟩
      intro run member starts
      rcases mem_cons.mp member with same | inRest
      · rw [same, run_length_add]
        omega
      · exact absurd starts (later run inRest)
    · refine ⟨pages, by simp, le_rfl, ?_⟩
      intro run member starts
      rcases mem_cons.mp member with same | inRest
      · exact absurd (same ▸ starts).symm touches
      · exact absurd starts (later run inRest)

theorem merged_between (before : Apart runLength low left node)
    (after : Apart runLength (node + runLength pages) right high)
    (free : ∀ run ∈ left, run.1 + runLength run.2 ≠ node) :
    Merged node pages (left ++ right) (left ++ prependRun node pages right) := by
  rcases prepend_run_holds after with ⟨count, member, larger, joined⟩
  have reach : runLength pages ≤ runLength count := Nat.mul_le_mul_right _ larger
  refine ⟨(node, count), by simp [member], le_rfl, by simp only; omega, ?_⟩
  intro run inOld touches
  rcases mem_append.mp inOld with early | late
  · have bounds := apart_piece_bounds before early
    have ends := free run early
    omega
  · have bounds := apart_piece_bounds after late
    have ends := joined run late
    simp only
    omega

theorem merged_touching (touches : last.1 + runLength last.2 = node)
    (before : Apart runLength low (initial ++ [last]) node)
    (after : Apart runLength (node + runLength pages) right high) :
    Merged node pages (initial ++ [last] ++ right)
      (initial ++ prependRun last.1 (last.2 + pages) right) := by
  rcases apart_cut.mp before with ⟨front, positive, _⟩
  have grown := run_length_add last.2 pages
  rw [← touches, add_assoc, ← grown] at after
  rcases prepend_run_holds after with ⟨count, member, larger, joined⟩
  have reach : runLength (last.2 + pages) ≤ runLength count := Nat.mul_le_mul_right _ larger
  refine ⟨(last.1, count), by simp [member], by simp only; omega, by simp only; omega, ?_⟩
  intro run inOld sides
  simp only
  rcases mem_append.mp inOld with early | late
  · rcases mem_append.mp early with first | same
    · have bounds := apart_piece_bounds front first
      omega
    · rw [mem_singleton.mp same]
      omega
  · have bounds := apart_piece_bounds after late
    have ends := joined run late
    omega

end Prepend

/-! ## States that pass `Verify` -/

/-- The free list is the list of runs and the counts are right. -/
structure Verified (pmm : PMM) (runs : List (Nat × Nat)) : Prop where
  linked : Linked pmm runs
  apart : Apart runLength 1 runs top
  freeCount : pmm.freePageCount = pagesIn runs
  total : pmm.totalPageCount = add64 pmm.freePageCount pmm.usedPageCount

/-- All assertions of `Verify` hold, and the nodes stand for one page or more of
the address space. -/
def WellFormed (pmm : PMM) : Prop :=
  pmm.verify = true ∧ ∀ run ∈ pmm.freeRuns, 0 < run.2 ∧ run.1 + runLength run.2 ≤ top

instance (pmm : PMM) : Decidable pmm.WellFormed := by
  unfold WellFormed
  infer_instance

section Verified
variable {pmm : PMM} {runs : List (Nat × Nat)} {left right : List (Nat × Nat)}
  {current high low pageCount : Nat} {run : Nat × Nat}

theorem pages_in_bound (apart : Apart runLength low runs high) :
    low + runLength (pagesIn runs) ≤ high := by
  induction runs generalizing low with
  | nil => simpa [pagesIn, runLength] using apart
  | cons run rest ih =>
    have further := ih apart.2.2
    have start := apart.1
    have sum : pagesIn (run :: rest) = run.2 + pagesIn rest := by simp [pagesIn]
    rw [sum, run_length_add]
    omega

theorem verify_list_spec (previous pageCount : Nat)
    (chain : Segment pmm.next pmm.count current runs 0) (apart : Apart runLength low runs high)
    (word : high < 2 ^ 64) (small : pageCount + pagesIn runs < 2 ^ 64)
    (before : previous = 0 ∨ pmm.runEnd previous ≤ low) :
    pmm.verifyList runs.length previous current pageCount =
      some (lastOr previous runs, 0, pageCount + pagesIn runs) := by
  induction runs generalizing low previous current pageCount with
  | nil =>
    have null : current = 0 := chain
    simp [verifyList, null, pagesIn]
  | cons run rest ih =>
    rcases chain with ⟨atRun, nonzero, holds, tail⟩
    have order := apart_low_le_high apart.2.2
    have ends := run_end_spec holds (show run.1 + runLength run.2 < 2 ^ 64 by omega)
    have whole : pagesIn (run :: rest) = run.2 + pagesIn rest := by simp [pagesIn]
    have sum : add64 pageCount run.2 = pageCount + run.2 := add64_of_lt (by omega)
    have sorted : ¬ (previous ≠ 0 ∧ current < pmm.runEnd previous) := by
      have start := apart.1
      rcases before with null | below
      · exact fun both => both.1 null
      · intro both
        omega
    have further := ih run.1 (pageCount + run.2) tail apart.2.2
      (show pageCount + run.2 + pagesIn rest < 2 ^ 64 by omega)
      (.inr (le_of_eq ends))
    simp only [length_cons, verifyList]
    rw [if_neg (by rw [atRun]; exact nonzero), if_neg sorted, atRun, holds, sum, further,
      last_or_cons, whole, add_assoc]

theorem linked_runs (linked : Linked pmm runs) : pmm.freeRuns = runs := by
  unfold freeRuns
  rw [linked.nodes]
  exact walk_of_segment linked.chain

section
variable (verified : Verified pmm runs)
include verified

theorem free_pages_lt : pagesIn runs < 2 ^ 52 := by
  have bound := pages_in_bound verified.apart
  unfold runLength top at bound
  simp only [pageSize] at bound
  omega

theorem verify_of_verified : pmm.verify = true := by
  have small := free_pages_lt verified
  have walked := verify_list_spec 0 0 verified.linked.chain verified.apart (by decide) (by omega)
    (.inl rfl)
  unfold verify
  rw [verified.linked.nodes, walked]
  simp only [zero_add, decide_eq_true_eq]
  exact ⟨trivial, verified.freeCount.symm, verified.linked.last, verified.total⟩

theorem well_formed_of_verified : pmm.WellFormed := by
  refine ⟨verify_of_verified verified, ?_⟩
  rw [linked_runs verified.linked]
  intro run member
  have bounds := apart_piece_bounds verified.apart member
  exact ⟨Nat.pos_of_mul_pos_right bounds.2.1, bounds.2.2⟩

end

/-- The nodes that the loop of `Verify` has seen when it does not fail. -/
theorem verify_list_walk (nodes : Nat) {previous last stop total : Nat}
    (passed : pmm.verifyList nodes previous current pageCount = some (last, stop, total))
    (sizes : ∀ run ∈ walk pmm.next pmm.count nodes current,
      0 < run.2 ∧ run.1 + runLength run.2 ≤ top)
    (before : (previous = 0 ∧ low = 1) ∨ (previous ≠ 0 ∧ pmm.runEnd previous = low))
    (inside : low ≤ top) :
    (walk pmm.next pmm.count nodes current).length = nodes ∧
      Segment pmm.next pmm.count current (walk pmm.next pmm.count nodes current) stop ∧
      Apart runLength low (walk pmm.next pmm.count nodes current) top := by
  induction nodes generalizing previous current pageCount low with
  | zero =>
    simp only [verifyList, Option.some.injEq, Prod.mk.injEq] at passed
    exact ⟨rfl, passed.2.1, inside⟩
  | succ nodes ih =>
    simp only [verifyList] at passed
    split_ifs at passed with null sorted
    simp only [walk, null, if_false] at sizes ⊢
    have here : 0 < pmm.count current ∧ current + runLength (pmm.count current) ≤ top :=
      sizes (current, pmm.count current) (by simp)
    have topWord : top < 2 ^ 64 := by decide
    have ends : pmm.runEnd current = current + runLength (pmm.count current) :=
      run_end_spec rfl (by omega)
    rcases ih passed (fun run member => sizes run (by simp [member])) (.inr ⟨null, ends⟩) here.2
      with ⟨length, chain, apart⟩
    exact ⟨by simp [length], ⟨rfl, null, rfl, chain⟩, by simp only; omega,
      mul_pos here.1 (by decide), apart⟩

theorem verified_of_well_formed (wellFormed : pmm.WellFormed) : Verified pmm pmm.freeRuns := by
  rcases wellFormed with ⟨passed, sizes⟩
  unfold verify at passed
  cases walked : pmm.verifyList pmm.freeListNodeCount 0 pmm.freeListStart 0 with
  | none => simp [walked] at passed
  | some seen =>
    rcases seen with ⟨last, stop, total⟩
    simp only [walked, decide_eq_true_eq] at passed
    rcases passed with ⟨null, free, ends, sum⟩
    rcases verify_list_walk _ walked sizes (.inl ⟨rfl, rfl⟩) (by decide) with ⟨length, chain, apart⟩
    rw [null] at chain
    have small := pages_in_bound apart
    unfold runLength top at small
    simp only [pageSize] at small
    have again := verify_list_spec 0 0 chain apart (by decide) (by omega) (.inl rfl)
    rw [length, walked] at again
    simp only [zero_add, Option.some.injEq, Prod.mk.injEq] at again
    exact ⟨⟨chain, ends.trans again.1, length.symm⟩, apart, free.symm.trans again.2.2, sum⟩

/-! ## Taking pages -/

/-- The page counts that moving nodes leaves alone. -/
structure SameCounts (before after : PMM) : Prop where
  free : after.freePageCount = before.freePageCount
  used : after.usedPageCount = before.usedPageCount
  total : after.totalPageCount = before.totalPageCount

/-- The state after the first `taken` pages of a run were handed out. -/
structure Taken (pmm after : PMM) (left : List (Nat × Nat)) (run : Nat × Nat)
    (right : List (Nat × Nat)) (taken : Nat) : Prop
    extends Verified after (left ++ (restOfRun run.1 run.2 taken ++ right)) where
  fits : taken ≤ run.2
  used : after.usedPageCount = add64 pmm.usedPageCount taken

theorem link_from_counts (pmm : PMM) (previous target : Nat) :
    SameCounts pmm (pmm.linkFrom previous target) := by
  unfold linkFrom
  split <;> exact ⟨rfl, rfl, rfl⟩

theorem take_run_spec (left : List (Nat × Nat)) {taken : Nat}
    (verified : Verified pmm (left ++ run :: right)) (fits : taken ≤ run.2) :
    Taken pmm ((if pmm.count run.1 = taken then pmm.unlink (lastOr 0 left) run.1
      else pmm.shrink (lastOr 0 left) run.1 taken).countUsed taken) left run right taken := by
  have holds := (segment_mem verified.linked.chain (show run ∈ left ++ run :: right by simp)).2
  have small := free_pages_lt verified
  have sum : pagesIn (left ++ (restOfRun run.1 run.2 taken ++ right)) + taken =
      pagesIn (left ++ run :: right) := pages_in_rest_of_run left right run.1 fits
  have freeCount := verified.freeCount
  have total := verified.total
  have moved : Linked (if pmm.count run.1 = taken then pmm.unlink (lastOr 0 left) run.1
        else pmm.shrink (lastOr 0 left) run.1 taken)
      (left ++ (restOfRun run.1 run.2 taken ++ right)) := by
    unfold restOfRun
    rw [holds]
    split_ifs with all
    · exact unlink_linked verified.linked verified.apart (by decide)
    · exact shrink_linked verified.linked verified.apart (by decide) (by omega)
  have counts : SameCounts pmm (if pmm.count run.1 = taken then pmm.unlink (lastOr 0 left) run.1
      else pmm.shrink (lastOr 0 left) run.1 taken) := by
    split
    · have same := link_from_counts pmm (lastOr 0 left) (pmm.next run.1)
      exact ⟨same.free, same.used, same.total⟩
    · have same := link_from_counts pmm (lastOr 0 left) (add64 run.1 (mul64 pageSize taken))
      exact ⟨same.free, same.used, same.total⟩
  have newFree : sub64 pmm.freePageCount taken = pmm.freePageCount - taken :=
    sub64_of_le (by omega) (by omega)
  refine ⟨⟨⟨moved.chain, moved.last, moved.nodes⟩, rest_of_run_apart fits verified.apart, ?_, ?_⟩,
    fits, ?_⟩
  · simp only [countUsed, counts.free, newFree]
    omega
  · simp only [countUsed, counts.free, counts.used, counts.total, newFree, total]
    unfold add64
    omega
  · simp only [countUsed, counts.used]

theorem allocate_page_spec (verified : Verified pmm runs) (someFree : 0 < pmm.freePageCount) :
    ∃ run rest after, runs = run :: rest ∧ pmm.allocatePage = some (after, run.1) ∧
      Taken pmm after [] run rest 1 := by
  cases runs with
  | nil =>
    rw [verified.freeCount] at someFree
    simp [pagesIn] at someFree
  | cons run rest =>
    have start : pmm.freeListStart = run.1 := verified.linked.chain.1
    have nonzero : run.1 ≠ 0 := verified.linked.chain.2.1
    have positive : 1 ≤ run.2 := Nat.pos_of_mul_pos_right verified.apart.2.1
    refine ⟨run, rest, _, rfl, ?_, take_run_spec [] verified positive⟩
    unfold allocatePage
    rw [if_neg (by omega), start, if_neg nonzero]
    rfl

theorem exists_first_run (wanted : Nat × Nat → Prop) [DecidablePred wanted]
    (items : List (Nat × Nat)) :
    ∃ left right, items = left ++ right ∧ (∀ item ∈ left, ¬ wanted item) ∧
      ∀ item ∈ right.head?, wanted item := by
  induction items with
  | nil => exact ⟨[], [], by simp⟩
  | cons item rest ih =>
    by_cases found : wanted item
    · exact ⟨[], item :: rest, by simp [found]⟩
    · rcases ih with ⟨left, right, whole, before, first⟩
      refine ⟨item :: left, right, by rw [whole, cons_append], ?_, first⟩
      intro other member
      rcases mem_cons.mp member with same | later
      · rw [same]
        exact found
      · exact before other later

theorem find_run_spec (linked : Linked pmm (left ++ right)) (few : (left ++ right).length < 2 ^ 64)
    (before : ∀ item ∈ left, ¬ pageCount ≤ item.2)
    (first : ∀ item ∈ right.head?, pageCount ≤ item.2) :
    pmm.findRun pageCount = some (lastOr 0 left, firstOr right 0) := by
  have holds : ∀ item ∈ left ++ right, pmm.count item.1 = item.2 := fun item member =>
    (segment_mem linked.chain member).2
  unfold findRun
  apply search_passes linked.chain (passes_of_forall _ 0)
  · intro item member
    refine ⟨rfl, decide_eq_true ?_⟩
    rw [holds item (mem_append_right left (mem_of_head? member))]
    exact first item member
  · rw [length_append] at few
    omega
  · intro _ item member
    refine ⟨rfl, decide_eq_false ?_⟩
    rw [holds item (by simp [member])]
    exact before item member

/-- The call fails when no run is long enough; otherwise the first one is taken. -/
theorem allocate_pages_spec (pageCount : Nat) (verified : Verified pmm runs)
    (someFree : 0 < pmm.freePageCount) :
    ((∀ run ∈ runs, ¬ pageCount ≤ run.2) ∧ pmm.allocatePages pageCount = some (pmm, 0)) ∨
      ∃ left run right after, runs = left ++ run :: right ∧ (∀ item ∈ left, ¬ pageCount ≤ item.2) ∧
        pmm.allocatePages pageCount = some (after, run.1) ∧
        Taken pmm after left run right pageCount := by
  by_cases single : pageCount = 1
  · subst single
    rcases allocate_page_spec verified someFree with ⟨run, rest, after, whole, call, taken⟩
    exact .inr ⟨[], run, rest, after, whole, by simp, call, taken⟩
  rcases exists_first_run (fun item => pageCount ≤ item.2) runs with
    ⟨left, right, whole, before, first⟩
  subst whole
  have found := find_run_spec verified.linked
    (runs_length_lt verified.apart (by decide)) before first
  unfold allocatePages
  rw [if_neg single, if_neg (by omega), found]
  cases right with
  | nil => exact .inl ⟨by simpa using before, rfl⟩
  | cons run rest =>
    have nonzero : run.1 ≠ 0 := (segment_mem verified.linked.chain (by simp)).1
    refine .inr ⟨left, run, rest, _, rfl, before, ?_,
      take_run_spec left verified (first run (by simp))⟩
    simp only [first_or_cons, nonzero, if_false]
    rfl

/-! ## Freeing -/

theorem find_place_spec {node : Nat} (linked : Linked pmm (left ++ right))
    (apart : Apart runLength low (left ++ right) high) (word : high < 2 ^ 64)
    (before : ∀ item ∈ left, item.1 < node) (after : ∀ item ∈ right, node < item.1) :
    pmm.findPlace node = some (lastOr 0 left, firstOr right 0) := by
  have passes : ∀ previous, (∀ item ∈ left, previous < item.1) →
      left.Pairwise (fun first second => first.1 < second.1) →
      Passes (fun previous current => decide (previous < current))
        (fun _ current => decide (node < current)) previous left := by
    clear linked apart
    induction left with
    | nil => exact fun _ _ _ => trivial
    | cons item rest ih =>
      intro previous above sorted
      rcases pairwise_cons.mp sorted with ⟨first, tail⟩
      refine ⟨decide_eq_true (above item (by simp)), ?_,
        ih (fun other member => before other (by simp [member])) item.1 first tail⟩
      have below := before item (by simp)
      exact decide_eq_false (by omega)
  have sorted := pairwise_append.mp (apart_sorted apart)
  have few := runs_length_lt apart word
  unfold findPlace
  apply search_passes linked.chain (passes 0 ?_ sorted.1)
  · intro item member
    have inRight := mem_of_head? member
    refine ⟨decide_eq_true ?_, decide_eq_true (after item inRight)⟩
    by_cases nothing : left = []
    · rw [nothing, last_or_nil]
      exact Nat.pos_of_ne_zero (segment_mem linked.chain (by simp [inRight])).1
    · rcases last_or_mem 0 nothing with ⟨last, lastMember, final⟩
      rw [final]
      exact sorted.2.2 last lastMember item inRight
  · rw [length_append] at few
    omega
  · intro item member
    exact Nat.pos_of_ne_zero (segment_mem linked.chain (by simp [member])).1

section
variable (pmm : PMM) (node pages previous : Nat)

theorem insert_front_counts (current : Nat) :
    SameCounts pmm (pmm.insertFront node pages current) := by
  unfold insertFront
  split <;> exact ⟨rfl, rfl, rfl⟩

theorem insert_end_counts : SameCounts pmm (pmm.insertEnd node pages) := by
  unfold insertEnd
  split_ifs <;> exact ⟨rfl, rfl, rfl⟩

theorem join_counts (holder current : Nat) :
    SameCounts pmm ((pmm.joinPrevious node pages previous).1.joinNext holder current) := by
  unfold joinPrevious joinNext
  split <;> split <;> exact ⟨rfl, rfl, rfl⟩

/-- Where the page counts of a freed run are written: below the last free run, or
right behind it, or where the first word of the run already holds its page
count. -/
def WritesCount : Prop :=
  pmm.freeListEnd ≠ 0 ∧
    (node < pmm.freeListEnd ∨ pmm.runEnd pmm.freeListEnd = node ∨ pmm.count node = pages)

end

instance (pmm : PMM) (node pages : Nat) : Decidable (pmm.WritesCount node pages) := by
  unfold WritesCount
  infer_instance

section FreeRun
variable {node pages : Nat}

/-- The list and the counts after `pages` pages from `node` on were freed. -/
structure Freed (pmm after : PMM) (node pages : Nat) (old new : List (Nat × Nat)) : Prop
    extends Verified after new where
  inserted : Inserted 1 top node pages old new
  merged : Merged node pages old new
  used : after.usedPageCount = sub64 pmm.usedPageCount pages

theorem freed_of_linked {after : PMM} {new : List (Nat × Nat)} (verified : Verified pmm runs)
    (inserted : Inserted 1 top node pages runs new) (merged : Merged node pages runs new)
    (linked : Linked after new) (counts : SameCounts pmm after) :
    Freed pmm (after.countFreed pages) node pages runs new := by
  have small := free_pages_lt verified
  have bound := pages_in_bound inserted.apart
  have freeCount := verified.freeCount
  rw [inserted.total] at bound
  unfold runLength top at bound
  simp only [pageSize] at bound
  refine ⟨⟨⟨linked.chain, linked.last, linked.nodes⟩, inserted.apart, ?_, ?_⟩, inserted, merged, ?_⟩
  · simp only [countFreed, counts.free]
    rw [add64_of_lt (by omega), freeCount, inserted.total]
  · simp only [countFreed, counts.free, counts.used, counts.total, verified.total]
    unfold add64 sub64
    omega
  · simp only [countFreed, counts.used]

variable {initial : List (Nat × Nat)} {last : Nat × Nat}

/-- No run ends where the freed pages start unless the last one before them does. -/
theorem no_run_touches {low : Nat} (before : Apart runLength low (initial ++ [last]) node)
    (apart : last.1 + runLength last.2 ≠ node) :
    ∀ run ∈ initial ++ [last], run.1 + runLength run.2 ≠ node := by
  intro run member
  rcases mem_append.mp member with early | same
  · have bounds := apart_piece_bounds (apart_cut.mp before).1 early
    have lastBounds := apart_piece_bounds before (show last ∈ initial ++ [last] by simp)
    omega
  · rwa [mem_singleton.mp same]

theorem insert_end_spec (verified : Verified pmm runs) (positive : 0 < pages)
    (writes : pmm.WritesCount node pages) (lowest : 1 ≤ node)
    (highest : node + runLength pages ≤ top) (before : Apart runLength 1 runs node) :
    ∃ new, Freed pmm ((pmm.insertEnd node pages).countFreed pages) node pages runs new := by
  have topWord : top < 2 ^ 64 := by decide
  rcases eq_nil_or_concat runs with nothing | ⟨initial, last, whole⟩
  · have null := verified.linked.last
    rw [nothing, last_or_nil] at null
    exact absurd null writes.1
  rw [concat_eq_append] at whole
  subst whole
  have linked := insert_end_linked verified.linked (show node + runLength pages < 2 ^ 64 by omega)
    positive (by omega) before
  have counts := insert_end_counts pmm node pages
  have lastIs : pmm.freeListEnd = last.1 := by
    rw [verified.linked.last, last_or_snoc]
  have lastBounds := apart_piece_bounds before (show last ∈ initial ++ [last] by simp)
  have behind : Apart runLength (node + runLength pages) [] top := highest
  split_ifs at linked with touches
  · have inserted := inserted_touching positive touches before behind
    have merged := merged_touching touches before behind
    rw [append_nil] at inserted merged
    exact ⟨_, freed_of_linked verified inserted merged linked counts⟩
  · have ends := run_end_of_mem verified.linked verified.apart topWord
      (show last ∈ initial ++ [last] by simp)
    have stale : pmm.count node = pages := by
      rcases writes.2 with below | adjacent | holds
      · omega
      · rw [lastIs, ends] at adjacent
        exact absurd adjacent touches
      · exact holds
    rw [stale] at linked
    have inserted := inserted_between positive before behind
    have merged := merged_between before behind (no_run_touches before touches)
    rw [append_nil] at inserted merged
    exact ⟨_, freed_of_linked verified inserted merged linked counts⟩

theorem insert_between_spec {rest : List (Nat × Nat)} {run : Nat × Nat}
    (verified : Verified pmm (initial ++ [last] ++ run :: rest)) (positive : 0 < pages)
    (nonzero : node ≠ 0) (before : Apart runLength 1 (initial ++ [last]) node)
    (behind : Apart runLength (node + runLength pages) (run :: rest) top) :
    ∃ new, Freed pmm (((pmm.joinPrevious node pages last.1).1.joinNext
      (pmm.joinPrevious node pages last.1).2 run.1).countFreed pages) node pages
      (initial ++ [last] ++ run :: rest) new := by
  have counts := join_counts pmm node pages last.1 (pmm.joinPrevious node pages last.1).2 run.1
  have linked := insert_between_linked verified.linked (by decide) positive nonzero before behind
  split_ifs at linked with touches
  · exact ⟨_, freed_of_linked verified (inserted_touching positive touches before behind)
      (merged_touching touches before behind) linked counts⟩
  · exact ⟨_, freed_of_linked verified (inserted_between positive before behind)
      (merged_between before behind (no_run_touches before touches)) linked counts⟩

/-- Pages outside the free runs are freed; above all of them their count has to
be where the code reads it. -/
theorem free_pages_spec (verified : Verified pmm runs) (positive : 0 < pages) (lowest : 1 ≤ node)
    (highest : node + runLength pages ≤ top)
    (outside : ∀ point, node ≤ point → point < node + runLength pages →
      ¬ Covers runLength runs point)
    (writes : (∀ run ∈ runs, run.1 < node) → pmm.WritesCount node pages) :
    ∃ after new, pmm.freePages node pages = some after ∧ Freed pmm after node pages runs new := by
  have moved : 0 < runLength pages := mul_pos positive (by decide)
  rcases apart_gap verified.apart lowest highest outside moved with
    ⟨left, right, whole, below, above, before, behind⟩
  subst whole
  have nonzero : node ≠ 0 := by omega
  have place := find_place_spec verified.linked verified.apart (by decide) below above
  unfold freePages
  rw [place]
  cases right with
  | nil =>
    rw [append_nil] at verified writes ⊢
    rcases insert_end_spec verified positive (writes below) lowest highest before with ⟨new, freed⟩
    exact ⟨_, new, rfl, freed⟩
  | cons run rest =>
    have runNonzero : run.1 ≠ 0 := (segment_mem verified.linked.chain (by simp)).1
    rcases eq_nil_or_concat left with nothing | ⟨initial, last, concat⟩
    · subst nothing
      have linked := insert_front_linked verified.linked (by decide) positive nonzero behind
      refine ⟨_, _, ?_, freed_of_linked verified (inserted_between positive before behind)
        (merged_between before behind (by simp)) linked (insert_front_counts pmm node pages run.1)⟩
      simp [runNonzero]
    · rw [concat_eq_append] at concat
      subst concat
      have lastBounds := apart_piece_bounds before (show last ∈ initial ++ [last] by simp)
      have lastNonzero : last.1 ≠ 0 := (segment_mem verified.linked.chain (by simp)).1
      rcases insert_between_spec verified positive nonzero before behind with ⟨new, freed⟩
      refine ⟨_, new, ?_, freed⟩
      simp only [last_or_snoc, first_or_cons, runNonzero, if_false, lastNonzero,
        show last.1 < node by omega, if_true]

end FreeRun

/-! ## The calls as a whole -/

/-- Nodes around the ones that are exchanged keep their page counts, and only
the one before them gets another next pointer. -/
theorem kept_nodes {after : PMM} {old new : List (Nat × Nat)}
    (linked : Linked pmm (left ++ (old ++ right))) (result : Linked after (left ++ (new ++ right)))
    (member : run ∈ left ++ right) :
    after.count run.1 = pmm.count run.1 ∧
      (pmm.next run.1 ≠ firstOr (old ++ right) 0 → after.next run.1 = pmm.next run.1) := by
  rcases mem_append.mp member with early | late
  · have before := segment_mem linked.chain (mem_append_left _ early)
    have later := segment_mem result.chain (mem_append_left _ early)
    refine ⟨later.2.trans before.2.symm, ?_⟩
    rcases append_of_mem early with ⟨front, back, whole⟩
    subst whole
    rw [append_assoc, cons_append] at linked result
    rw [segment_next linked.chain, segment_next result.chain]
    cases back with
    | nil => exact fun other => absurd rfl other
    | cons following rest => exact fun _ => rfl
  · rcases append_of_mem late with ⟨front, back, whole⟩
    subst whole
    rw [← append_assoc, ← append_assoc] at linked result
    have before := segment_mem linked.chain (mem_append_right _ (show run ∈ run :: back by simp))
    have later := segment_mem result.chain (mem_append_right _ (show run ∈ run :: back by simp))
    exact ⟨later.2.trans before.2.symm,
      fun _ => (segment_next result.chain).trans (segment_next linked.chain).symm⟩

/-- `AllocatePages` fails exactly when no run is long enough, and then changes
nothing. Otherwise it takes the first pages of the lowest run that is long enough;
of the other nodes only the one before that run changes, in its next pointer. -/
theorem allocate_pages_takes_first_fit {pmm : PMM} (wellFormed : pmm.WellFormed)
    (someFree : 0 < pmm.freePageCount) (pageCount : Nat) :
    ((∃ after, pmm.allocatePages pageCount = some (after, 0)) ↔
        ∀ run ∈ pmm.freeRuns, run.2 < pageCount) ∧
      ((∀ run ∈ pmm.freeRuns, run.2 < pageCount) →
        pmm.allocatePages pageCount = some (pmm, 0)) ∧
      ∀ first ∈ pmm.freeRuns, pageCount ≤ first.2 →
        (∀ run ∈ pmm.freeRuns, pageCount ≤ run.2 → first.1 ≤ run.1) →
        ∃ after, pmm.allocatePages pageCount = some (after, first.1) ∧ after.WellFormed ∧
          (∀ point, Covers runLength after.freeRuns point ↔ Covers runLength pmm.freeRuns point ∧
            ¬ (first.1 ≤ point ∧ point < first.1 + runLength pageCount)) ∧
          ∀ run ∈ pmm.freeRuns, run ≠ first → after.count run.1 = pmm.count run.1 ∧
            (pmm.next run.1 ≠ first.1 → after.next run.1 = pmm.next run.1) := by
  have verified := verified_of_well_formed wellFormed
  rcases allocate_pages_spec pageCount verified someFree with
    ⟨tooShort, failed⟩ | ⟨left, found, right, after, whole, before, call, taken⟩
  · have short : ∀ run ∈ pmm.freeRuns, run.2 < pageCount := fun run member =>
      Nat.lt_of_not_le (tooShort run member)
    refine ⟨⟨fun _ => short, fun _ => ⟨pmm, failed⟩⟩, fun _ => failed, ?_⟩
    exact fun first member fits => absurd fits (tooShort first member)
  · rw [whole] at verified ⊢
    have inList : found ∈ left ++ found :: right := by simp
    have nonzero := (segment_mem verified.linked.chain inList).1
    have long : ¬ ∀ run ∈ left ++ found :: right, run.2 < pageCount := fun short =>
      Nat.not_lt.mpr taken.fits (short found inList)
    refine ⟨⟨?_, fun short => absurd short long⟩, fun short => absurd short long, ?_⟩
    · intro null
      rcases null with ⟨other, same⟩
      rw [call] at same
      exact absurd (congrArg Prod.snd (Option.some.inj same)) nonzero
    · intro first member fits lowest
      have here : first = found := by
        have order := (apart_around verified.apart).2
        have least := lowest found inList taken.fits
        rcases mem_append.mp member with early | late
        · exact absurd fits (before first early)
        · rcases mem_cons.mp late with same | later
          · exact same
          · have above := (order first later).2
            omega
      subst here
      refine ⟨after, call, well_formed_of_verified taken.toVerified, ?_, ?_⟩
      · rw [linked_runs taken.linked]
        exact rest_of_run_covers taken.fits verified.apart
      · intro run inRuns other
        have linked : Linked pmm (left ++ ([first] ++ right)) := verified.linked
        apply kept_nodes linked taken.linked
        rcases mem_append.mp inRuns with early | late
        · exact mem_append_left right early
        · exact mem_append_right left (mem_of_ne_of_mem other late)

/-- One free page, and a run of two pages behind a gap. -/
def twoRuns : PMM := init (fun _ => ⟨7, 9⟩) [⟨0x1000, 0x1000, .usable⟩, ⟨0x3000, 0x2000, .usable⟩]

theorem allocate_pages_takes_first_fit_two_runs :
    ∃ after, twoRuns.allocatePages 2 = some (after, 0x3000) ∧ after.WellFormed := by
  have spec := allocate_pages_takes_first_fit (show twoRuns.WellFormed by decide) (by decide) 2
  rcases spec.2.2 (0x3000, 2) (by decide) (by decide) (by decide) with ⟨after, call, wellFormed, _⟩
  exact ⟨after, call, wellFormed⟩

/-- Taking the second run rewrites the next pointer of the first node. -/
theorem allocate_pages_rewrites_previous_node :
    twoRuns.WellFormed ∧ (0x1000, 1) ∈ twoRuns.freeRuns ∧
      ∃ after, twoRuns.allocatePages 2 = some (after, 0x3000) ∧
        twoRuns.memory 0x1000 = ⟨1, 0x3000⟩ ∧ after.memory 0x1000 = ⟨1, 0⟩ := by
  refine ⟨by decide, by decide, _, rfl, ?_, ?_⟩
  all_goals decide

theorem free_page_eq (pmm : PMM) (page : Nat) : pmm.freePage page = pmm.freePages page 1 := by
  have one : add64 page (mul64 pageSize 1) = add64 page pageSize := rfl
  unfold freePage freePages insertEnd insertFront joinPrevious
  rw [one]
  cases pmm.findPlace page with
  | none => rfl
  | some place =>
    simp only
    split_ifs <;> rfl

/-- Freeing pages below a free run adds exactly these pages and leaves one node
for them and the runs they touch; `FreePage` does the same for one page. -/
theorem free_pages_merges_neighbours {pmm : PMM} (wellFormed : pmm.WellFormed) {node pages : Nat}
    (positive : 1 ≤ pages) (nonzero : node ≠ 0)
    (disjoint : ∀ point, node ≤ point → point < node + runLength pages →
      ¬ Covers runLength pmm.freeRuns point)
    (below : ∃ run ∈ pmm.freeRuns, node < run.1) :
    (∃ after, pmm.freePages node pages = some after ∧ after.WellFormed ∧
      (∀ point, Covers runLength after.freeRuns point ↔ Covers runLength pmm.freeRuns point ∨
        (node ≤ point ∧ point < node + runLength pages)) ∧
      Merged node pages pmm.freeRuns after.freeRuns) ∧
    ∀ (state : PMM) (page : Nat), state.freePage page = state.freePages page 1 := by
  have verified := verified_of_well_formed wellFormed
  rcases below with ⟨run, member, order⟩
  have bounds := apart_piece_bounds verified.apart member
  have inside : node + runLength pages ≤ run.1 := by
    by_contra beyond
    exact disjoint run.1 (by omega) (by omega) ⟨run, member, le_rfl, by omega⟩
  have highest : ¬ ∀ run ∈ pmm.freeRuns, run.1 < node := fun all =>
    absurd (all run member) (by omega)
  rcases free_pages_spec verified positive (by omega) (by omega) disjoint
    (fun all => absurd all highest) with ⟨after, new, call, freed⟩
  refine ⟨⟨after, call, well_formed_of_verified freed.toVerified, ?_⟩, free_page_eq⟩
  rw [linked_runs freed.linked]
  exact ⟨freed.inserted.covers, freed.merged⟩

def threeFree : PMM := init (fun _ => ⟨7, 9⟩) [⟨0x1000, 0x3000, .usable⟩]

def firstTaken : PMM := (threeFree.shrink 0 0x1000 1).countUsed 1

/-- The first page of three is taken and joins the other two again. -/
theorem free_pages_merges_neighbours_three_pages :
    threeFree.allocatePage = some (firstTaken, 0x1000) ∧
      ∃ after, firstTaken.freePages 0x1000 1 = some after ∧ after.WellFormed := by
  refine ⟨rfl, ?_⟩
  have disjoint : ∀ point, 0x1000 ≤ point → point < 0x1000 + runLength 1 →
      ¬ Covers runLength firstTaken.freeRuns point := by
    intro point _ upper covered
    rcases covered with ⟨run, member, lower, _⟩
    have runs : firstTaken.freeRuns = [(0x2000, 2)] := by decide
    rw [runs, mem_singleton] at member
    subst member
    exact absurd (lt_of_le_of_lt lower upper) (by decide)
  have merged := (free_pages_merges_neighbours (show firstTaken.WellFormed by decide) le_rfl
    (by decide) disjoint ⟨(0x2000, 2), by decide, by decide⟩).1
  rcases merged with ⟨after, call, wellFormed, _⟩
  exact ⟨after, call, wellFormed⟩

end Verified
end FrostyKernel.PMM
