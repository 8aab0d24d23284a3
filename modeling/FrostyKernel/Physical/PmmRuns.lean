import FrostyKernel.Lib.Run
import FrostyKernel.Physical.PmmAccounts

/-!
# Runs of the physical memory manager

From `Init` on, every call keeps the free list and the set of allocated pages in
step, as long as no run is freed above every free run with another number in its
first word than its page count, and none into an empty list. Between the calls
the owners of allocated pages may write anything to them.
-/

namespace FrostyKernel.PMM

open Word List
open Memory (pageSize)

/-! ## Init -/

section
variable (memoryMap : List MemoryMapEntry)

/-- The ranges that `Init` puts on the free list. -/
def managedRanges : List (Nat × Nat) := memoryMap.filterMap managedRange

def InRanges (ranges : List (Nat × Nat)) (address : Nat) : Prop :=
  ∃ range ∈ ranges, range.1 ≤ address ∧ address < range.1 + range.2

def Managed : Nat → Prop := InRanges (managedRanges memoryMap)

/-- Usable entries are page-aligned, hold at least one page, lie in the address
space and are sorted and disjoint. -/
def WellFormedMap : Prop :=
  (∀ entry ∈ memoryMap, entry.type = .usable → pageSize ∣ entry.base ∧ pageSize ∣ entry.length ∧
    pageSize ≤ entry.length ∧ entry.base + entry.length < 2 ^ 64) ∧
  memoryMap.Pairwise fun first second => first.type = .usable → second.type = .usable →
    first.base + first.length ≤ second.base

end

instance (memoryMap : List MemoryMapEntry) : Decidable (WellFormedMap memoryMap) := by
  unfold WellFormedMap
  infer_instance

def runOf (range : Nat × Nat) : Nat × Nat := (range.1, range.2 / 2 ^ 12)

structure GoodRange (range : Nat × Nat) : Prop where
  aligned : pageSize ∣ range.1
  whole : runLength (range.2 / 2 ^ 12) = range.2
  positive : 0 < range.2
  lowest : pageSize ≤ range.1
  highest : range.1 + range.2 ≤ top

variable {range : Nat × Nat} {memoryMap : List MemoryMapEntry} {pmm : PMM}

theorem managed_range_spec {entry : MemoryMapEntry} (found : managedRange entry = some range)
    (wellFormed : entry.type = .usable → pageSize ∣ entry.base ∧ pageSize ∣ entry.length ∧
      pageSize ≤ entry.length ∧ entry.base + entry.length < 2 ^ 64) :
    entry.type = .usable ∧ GoodRange range ∧ entry.base ≤ range.1 ∧
      range.1 + range.2 = entry.base + entry.length := by
  unfold managedRange at found
  by_cases usable : entry.type = .usable
  · rcases wellFormed usable with ⟨baseAligned, lengthAligned, large, noWrap⟩
    have pageWord : pageSize = 2 ^ 12 := rfl
    rw [if_neg (not_not.mpr usable)] at found
    by_cases zero : entry.base = 0
    · have rest : sub64 entry.length pageSize = entry.length - pageSize :=
        sub64_of_le (by omega) large
      rw [if_pos zero, rest] at found
      split_ifs at found with small
      simp only [Option.some.injEq] at found
      subst found
      have restAligned : pageSize ∣ entry.length - pageSize :=
        Nat.dvd_sub lengthAligned (dvd_refl pageSize)
      refine ⟨usable, ⟨dvd_refl pageSize, Nat.div_mul_cancel restAligned, ?_, le_rfl, ?_⟩, ?_, ?_⟩
      · simp only
        omega
      · unfold top
        simp only
        omega
      · simp only
        omega
      · simp only
        omega
    · rw [if_neg zero] at found
      simp only [Option.some.injEq] at found
      subst found
      refine ⟨usable, ⟨baseAligned, Nat.div_mul_cancel lengthAligned, ?_, ?_, ?_⟩, le_rfl, rfl⟩
      · simp only
        omega
      · exact Nat.le_of_dvd (Nat.pos_of_ne_zero zero) baseAligned
      · unfold top
        simp only
        omega
  · rw [if_pos usable] at found
    simp at found

def Ordered (ranges : List (Nat × Nat)) : Prop :=
  ranges.Pairwise fun first second => first.1 + first.2 ≤ second.1

theorem managed_ranges_spec (wellFormed : WellFormedMap memoryMap) :
    (∀ range ∈ managedRanges memoryMap, GoodRange range) ∧ Ordered (managedRanges memoryMap) := by
  constructor
  · intro range member
    rcases mem_filterMap.mp member with ⟨entry, inMap, found⟩
    exact (managed_range_spec found (wellFormed.1 entry inMap)).2.1
  · unfold Ordered managedRanges
    rw [pairwise_filterMap]
    apply wellFormed.2.imp_of_mem
    intro first second firstIn secondIn order range found other otherFound
    have firstSpec := managed_range_spec found (wellFormed.1 first firstIn)
    have secondSpec := managed_range_spec otherFound (wellFormed.1 second secondIn)
    have apart := order firstSpec.1 secondSpec.1
    omega

variable {done ranges runs : List (Nat × Nat)}

theorem ranges_apart {low : Nat} (good : ∀ range ∈ ranges, GoodRange range)
    (ordered : Ordered ranges) (above : ∀ range ∈ ranges, low ≤ range.1) (inside : low ≤ top) :
    Apart runLength low (ranges.map runOf) top := by
  induction ranges generalizing low with
  | nil => exact inside
  | cons range rest ih =>
    have here := good range (by simp)
    rcases pairwise_cons.mp ordered with ⟨first, tail⟩
    refine ⟨above range (by simp), ?_, ?_⟩
    · simp only [runOf, here.whole]
      exact here.positive
    · simp only [runOf, here.whole]
      exact ih (fun other member => good other (by simp [member])) tail first here.highest

theorem covers_ranges (good : ∀ range ∈ ranges, GoodRange range) (address : Nat) :
    Covers runLength (ranges.map runOf) address ↔ InRanges ranges address := by
  unfold Covers InRanges
  constructor
  · intro covered
    rcases covered with ⟨run, member, inside⟩
    rcases mem_map.mp member with ⟨range, inRanges, same⟩
    subst same
    simp only [runOf, (good range inRanges).whole] at inside
    exact ⟨range, inRanges, inside⟩
  · intro within
    rcases within with ⟨range, member, inside⟩
    refine ⟨runOf range, mem_map_of_mem member, ?_⟩
    simpa only [runOf, (good range member).whole] using inside

theorem append_range_linked (linked : Linked pmm runs) (nonzero : range.1 ≠ 0)
    (before : Apart runLength 1 runs range.1) (word : range.1 < 2 ^ 64) :
    Linked (pmm.appendRange range) (runs ++ [runOf range]) := by
  have few := apart_length_le before
  have whole : runs = runs ++ ([] ++ []) := by simp
  have counted : add64 pmm.freeListNodeCount 1 = (runs ++ [runOf range]).length := by
    rw [linked.nodes, length_append, add64_of_lt (by omega)]
    rfl
  unfold appendRange
  by_cases null : pmm.freeListEnd = 0
  all_goals
    have last : lastOr 0 runs = pmm.freeListEnd := linked.last.symm
    simp only [null, if_true, if_false]
    apply replaced_linked runs [] (whole ▸ linked)
      (whole ▸ apart_mono before le_rfl (Nat.le_succ _)) nonzero before le_rfl
    · simp
    · simp [linkFrom, last, null]
    · simp [linkFrom, last, null]
    · rw [last_or_snoc]
    · exact counted

theorem append_range_accounts (accounts : Accounts (InRanges done) pmm ∅ (done.map runOf))
    (good : ∀ other ∈ done ++ [range], GoodRange other) (ordered : Ordered (done ++ [range])) :
    Accounts (InRanges (done ++ [range])) (pmm.appendRange range) ∅
      ((done ++ [range]).map runOf) := by
  have here := good range (by simp)
  have pageWord : pageSize = 2 ^ 12 := rfl
  have topWord : top < 2 ^ 64 := by decide
  have apart : Apart runLength 1 ((done ++ [range]).map runOf) top :=
    ranges_apart good ordered (fun other member => le_trans (by decide) (good other member).lowest)
      (by decide)
  rw [map_append, map_singleton] at apart ⊢
  have before : Apart runLength 1 (done.map runOf) range.1 := (apart_cut.mp apart).1
  have lowest := here.lowest
  have highest := here.highest
  have linked := append_range_linked accounts.linked (show range.1 ≠ 0 by omega) before (by omega)
  have small : pagesIn (done.map runOf) + range.2 / 2 ^ 12 < 2 ^ 52 := by
    have bound := pages_in_bound apart
    have whole : pagesIn (done.map runOf ++ [runOf range]) =
        pagesIn (done.map runOf) + range.2 / 2 ^ 12 := by
      simp [pagesIn, runOf]
    rw [whole] at bound
    unfold runLength top at bound
    rw [pageWord] at bound
    omega
  have sum : pagesIn (done.map runOf ++ [runOf range]) =
      pagesIn (done.map runOf) + range.2 / 2 ^ 12 := by
    simp [pagesIn, runOf]
  have freeCount := accounts.freeCount
  have usedCount := accounts.usedCount
  have total := accounts.total
  have fields : (pmm.appendRange range).freePageCount = add64 pmm.freePageCount (range.2 / 2 ^ 12) ∧
      (pmm.appendRange range).totalPageCount = add64 pmm.totalPageCount (range.2 / 2 ^ 12) ∧
      (pmm.appendRange range).usedPageCount = pmm.usedPageCount := by
    unfold appendRange
    simp only
    split <;> exact ⟨rfl, rfl, rfl⟩
  rw [Finset.card_empty] at usedCount
  refine ⟨⟨linked, apart, ?_, ?_⟩, ?_, ?_, by simp, ?_, ?_⟩
  · rw [fields.1, add64_of_lt (by omega), sum, freeCount]
  · rw [fields.1, fields.2.1, fields.2.2, total, usedCount]
    unfold add64
    omega
  · intro run member
    rw [← map_singleton, ← map_append] at member
    rcases mem_map.mp member with ⟨other, inRanges, same⟩
    rw [← same]
    exact (good other inRanges).aligned
  · intro address
    rw [← map_singleton, ← map_append, covers_ranges good]
    simp
  · intro address within
    rcases within with ⟨other, member, inside⟩
    have lowest := (good other member).lowest
    have highest := (good other member).highest
    omega
  · rw [fields.2.2, usedCount]
    rfl

theorem append_ranges_accounts {todo : List (Nat × Nat)}
    (accounts : Accounts (InRanges done) pmm ∅ (done.map runOf))
    (good : ∀ other ∈ done ++ todo, GoodRange other) (ordered : Ordered (done ++ todo)) :
    Accounts (InRanges (done ++ todo)) (todo.foldl appendRange pmm) ∅
      ((done ++ todo).map runOf) := by
  induction todo generalizing pmm done with
  | nil => simpa using accounts
  | cons range rest ih =>
    have split : done ++ range :: rest = done ++ [range] ++ rest := by simp
    rw [split] at good ordered ⊢
    have ordered' := (pairwise_append.mp ordered).1
    have step := append_range_accounts accounts
      (fun other member => good other (mem_append_left rest member)) ordered'
    exact ih step good ordered

theorem fold_init_entry (memoryMap : List MemoryMapEntry) (pmm : PMM) :
    memoryMap.foldl initEntry pmm = (managedRanges memoryMap).foldl appendRange pmm := by
  induction memoryMap generalizing pmm with
  | nil => rfl
  | cons entry rest ih =>
    rw [foldl_cons, ih]
    unfold managedRanges
    cases found : managedRange entry with
    | none => simp [initEntry, found]
    | some range => simp [initEntry, found]

theorem init_accounts (memory : Nat → FreeListNode) (wellFormed : WellFormedMap memoryMap) :
    ∃ runs, Accounts (Managed memoryMap) (init memory memoryMap) ∅ runs := by
  rcases managed_ranges_spec wellFormed with ⟨good, ordered⟩
  have empty : Accounts (InRanges []) (fresh memory) ∅ (([] : List (Nat × Nat)).map runOf) := by
    refine ⟨⟨⟨rfl, rfl, rfl⟩, ?_, rfl, rfl⟩, by simp, by simp [InRanges], by simp,
      by simp [InRanges], rfl⟩
    change 1 ≤ top
    decide
  have accounts : Accounts (InRanges ([] ++ managedRanges memoryMap))
      ((managedRanges memoryMap).foldl appendRange (fresh memory)) ∅
      (([] ++ managedRanges memoryMap).map runOf) := append_ranges_accounts empty good ordered
  rw [← fold_init_entry] at accounts
  have used : (memoryMap.foldl initEntry (fresh memory)).usedPageCount = 0 := by
    rw [accounts.usedCount]
    rfl
  refine ⟨_, ⟨⟨accounts.linked.chain, accounts.linked.last, accounts.linked.nodes⟩, accounts.apart,
    accounts.freeCount, ?_⟩, accounts.aligned, accounts.covered, accounts.managed, accounts.bounded,
    rfl⟩
  have total := accounts.total
  rw [used] at total
  exact total

/-! ## Calls -/

/-- The manager together with the pages that are handed out. -/
structure World where
  pmm : PMM
  allocated : Finset Nat

def start (memory : Nat → FreeListNode) (memoryMap : List MemoryMapEntry) : World :=
  ⟨init memory memoryMap, ∅⟩

/-- The calls of the interface, and a write by the owner of an allocated page to
the words that a list node would occupy. -/
inductive Call
  | allocatePage
  | allocatePages (pageCount : Nat)
  | freePage (page : Nat)
  | freePages (pages pageCount : Nat)
  | write (page : Nat) (contents : FreeListNode)

def pageRange (address pageCount : Nat) : Finset Nat :=
  Finset.Ico (address / pageSize) (address / pageSize + pageCount)

/-- Pages are taken while some are free; only allocated pages are freed or
written. -/
def Call.Legal (world : World) : Call → Prop
  | .allocatePage => 0 < world.pmm.freePageCount
  | .allocatePages _ => 0 < world.pmm.freePageCount
  | .freePage page => pageSize ∣ page ∧ pageRange page 1 ⊆ world.allocated
  | .freePages pages pageCount => pageSize ∣ pages ∧ pageRange pages pageCount ⊆ world.allocated
  | .write page _ => pageSize ∣ page ∧ page / pageSize ∈ world.allocated

def Call.Conforming (world : World) : Call → Prop
  | .freePage page => world.pmm.WritesCount page 1
  | .freePages pages pageCount => 0 < pageCount ∧ world.pmm.WritesCount pages pageCount
  | _ => True

instance (world : World) : DecidablePred (Call.Legal world) := fun call => by
  cases call <;> unfold Call.Legal <;> infer_instance

instance (world : World) : DecidablePred (Call.Conforming world) := fun call => by
  cases call <;> unfold Call.Conforming <;> infer_instance

def Call.apply (world : World) : Call → Option World
  | .allocatePage =>
    world.pmm.allocatePage.map fun result => ⟨result.1, world.allocated ∪ pageRange result.2 1⟩
  | .allocatePages pageCount =>
    (world.pmm.allocatePages pageCount).map fun result =>
      ⟨result.1, if result.2 = 0 then world.allocated
        else world.allocated ∪ pageRange result.2 pageCount⟩
  | .freePage page =>
    (world.pmm.freePage page).map fun pmm => ⟨pmm, world.allocated \ pageRange page 1⟩
  | .freePages pages pageCount =>
    (world.pmm.freePages pages pageCount).map fun pmm =>
      ⟨pmm, world.allocated \ pageRange pages pageCount⟩
  | .write page contents =>
    some ⟨{ world.pmm with memory := Function.update world.pmm.memory page contents },
      world.allocated⟩

def LegalStep (before : World) (call : Call) (after : World) : Prop :=
  call.Legal before ∧ call.apply before = some after

def ConformingStep (before : World) (call : Call) (after : World) : Prop :=
  call.Legal before ∧ call.Conforming before ∧ call.apply before = some after

/-- What `Verify` asserts, and that the list covers exactly the managed memory
that is not handed out. -/
structure Sound (memoryMap : List MemoryMapEntry) (world : World) : Prop where
  verified : world.pmm.verify = true
  exact : ∀ address, Covers runLength world.pmm.freeRuns address ↔
    Managed memoryMap address ∧ address / pageSize ∉ world.allocated
  total : world.pmm.totalPageCount = world.pmm.freePageCount + world.pmm.usedPageCount

def Accounted (memoryMap : List MemoryMapEntry) (world : World) : Prop :=
  ∃ runs, Accounts (Managed memoryMap) world.pmm world.allocated runs

variable {world : World}

theorem sound_of_accounted (accounted : Accounted memoryMap world) : Sound memoryMap world := by
  rcases accounted with ⟨runs, accounts⟩
  refine ⟨verify_of_verified accounts.toVerified, ?_, accounts_total accounts⟩
  rw [linked_runs accounts.linked]
  exact accounts.covered

theorem write_accounts {region : Nat → Prop} {allocated : Finset Nat} {page : Nat}
    (contents : FreeListNode) (accounts : Accounts region pmm allocated runs)
    (owned : page / pageSize ∈ allocated) :
    Accounts region { pmm with memory := Function.update pmm.memory page contents } allocated
      runs := by
  have elsewhere : ∀ run ∈ runs, run.1 ≠ page := by
    intro run member same
    have positive := (apart_piece_bounds accounts.apart member).2.1
    have free := ((accounts.covered run.1).mp ⟨run, member, le_rfl, by omega⟩).2
    rw [same] at free
    exact free owned
  refine ⟨⟨⟨segment_congr accounts.linked.chain ?_, accounts.linked.last, accounts.linked.nodes⟩,
    accounts.apart, accounts.freeCount, accounts.total⟩, accounts.aligned, accounts.covered,
    accounts.managed, accounts.bounded, accounts.usedCount⟩
  intro run member
  simp [next, count, elsewhere run member]

theorem apply_accounted (accounted : Accounted memoryMap world) {call : Call}
    (legal : call.Legal world) (conforming : call.Conforming world) :
    ∃ after, call.apply world = some after ∧ Accounted memoryMap after := by
  rcases accounted with ⟨runs, accounts⟩
  cases call with
  | allocatePage =>
    rcases allocate_page_spec accounts.toVerified legal with ⟨run, rest, after, whole, call, taken⟩
    subst whole
    exact ⟨⟨after, world.allocated ∪ pageRange run.1 1⟩, by simp [Call.apply, call], _,
      taken_accounts accounts taken⟩
  | allocatePages pageCount =>
    rcases allocate_pages_spec pageCount accounts.toVerified legal with
      ⟨_, failed⟩ | ⟨left, run, right, after, whole, _, call, taken⟩
    · exact ⟨world, by simp [Call.apply, failed], runs, accounts⟩
    · subst whole
      have nonzero : run.1 ≠ 0 := (segment_mem accounts.linked.chain (by simp)).1
      exact ⟨⟨after, world.allocated ∪ pageRange run.1 pageCount⟩,
        by simp [Call.apply, call, nonzero], _, taken_accounts accounts taken⟩
  | freePage page =>
    rcases free_pages_accounts accounts Nat.one_pos legal.1 legal.2 conforming with
      ⟨after, newRuns, call, result⟩
    exact ⟨⟨after, world.allocated \ pageRange page 1⟩, by simp [Call.apply, free_page_eq, call],
      newRuns, result⟩
  | freePages pages pageCount =>
    rcases free_pages_accounts accounts conforming.1 legal.1 legal.2 conforming.2 with
      ⟨after, newRuns, call, result⟩
    exact ⟨⟨after, world.allocated \ pageRange pages pageCount⟩,
      by simp [Call.apply, call], newRuns, result⟩
  | write page contents =>
    exact ⟨_, rfl, runs, write_accounts contents accounts legal.2⟩

/-- In every run from `Init` whose frees all conform, the list passes `Verify`
and covers exactly the pages not handed out, and every further legal call that
conforms returns. -/
theorem conforming_run_sound {memory : Nat → FreeListNode} {memoryMap : List MemoryMapEntry}
    (wellFormed : WellFormedMap memoryMap) {calls : List Call} {world : World}
    (run : Run ConformingStep (start memory memoryMap) calls world) :
    Sound memoryMap world ∧ ∀ call : Call, call.Legal world → call.Conforming world →
      ∃ after, call.apply world = some after := by
  have accounted : Accounted memoryMap world := by
    have begins : Accounted memoryMap (start memory memoryMap) := init_accounts memory wellFormed
    apply run_invariant (Accounted memoryMap) _ begins run
    intro before call after holds step
    rcases apply_accounted holds step.1 step.2.1 with ⟨found, applied, result⟩
    have same : found = after := Option.some.inj (applied.symm.trans step.2.2)
    rw [← same]
    exact result
  refine ⟨sound_of_accounted accounted, ?_⟩
  intro call legal conforming
  rcases apply_accounted accounted legal conforming with ⟨after, applied, _⟩
  exact ⟨after, applied⟩

def twoPages : List MemoryMapEntry := [⟨0x1000, 0x2000, .usable⟩]

def threePages : List MemoryMapEntry := [⟨0x1000, 0x3000, .usable⟩]

def stale : Nat → FreeListNode := fun _ => ⟨7, 9⟩

/-- Freeing the first page of three back onto the list. -/
theorem conforming_run_sound_three_pages :
    ∃ world, Run ConformingStep (start stale threePages) [.allocatePage, .freePage 0x1000] world ∧
      Sound threePages world := by
  refine exists_run_of (fun _ => True)
    ⟨_, Run.snoc (Run.snoc (Run.nil _) ⟨?_, trivial, rfl⟩) ⟨⟨?_, ?_⟩, ?_, rfl⟩, trivial⟩
    (fun _ run _ => (conforming_run_sound (by decide) run).1)
  all_goals decide

/-- A page freed into the empty list is not counted. -/
theorem free_into_empty_list_fails_verify :
    ∃ world, Run LegalStep (start stale twoPages)
        [.allocatePage, .allocatePage, .freePage 0x1000] world ∧
      world.pmm.verify = false := by
  refine ⟨_, Run.snoc (Run.snoc (Run.snoc (Run.nil _) ⟨?_, rfl⟩) ⟨?_, rfl⟩) ⟨⟨?_, ?_⟩, rfl⟩, ?_⟩
  all_goals decide

end FrostyKernel.PMM
