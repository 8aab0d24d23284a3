import FrostyKernel.Physical.PmmCalls

/-!
# The free list and the pages that are handed out

The free list is compared with the set of pages that are handed out. Taking
pages from a run and freeing a run change both in the same way.
-/

namespace FrostyKernel.PMM

open Word Finset
open Memory (pageSize)

/-- The free list, the pages that are handed out and the addresses the manager
is responsible for agree. -/
structure Accounts (region : Nat → Prop) (pmm : PMM) (allocated : Finset Nat)
    (runs : List (Nat × Nat)) : Prop extends Verified pmm runs where
  aligned : ∀ run ∈ runs, pageSize ∣ run.1
  covered : ∀ address, Covers runLength runs address ↔
    region address ∧ address / pageSize ∉ allocated
  managed : ∀ address, address / pageSize ∈ allocated → region address
  bounded : ∀ address, region address → pageSize ≤ address ∧ address < top
  usedCount : pmm.usedPageCount = allocated.card

section Accounts
variable {region : Nat → Prop} {pmm : PMM} {allocated : Finset Nat}
  {runs : List (Nat × Nat)}

theorem allocated_card_lt (accounts : Accounts region pmm allocated runs) :
    allocated.card < 2 ^ 53 := by
  have inside : allocated ⊆ range (2 ^ 52) := by
    intro page member
    have same : page * pageSize / pageSize = page := Nat.mul_div_cancel page (by decide)
    have bound := (accounts.bounded _ (accounts.managed (page * pageSize) (by rwa [same]))).2
    unfold top at bound
    simp only [pageSize] at bound
    rw [mem_range]
    omega
  have card := card_le_card inside
  rw [card_range] at card
  omega

theorem accounts_total (accounts : Accounts region pmm allocated runs) :
    pmm.totalPageCount = pmm.freePageCount + pmm.usedPageCount := by
  have small := free_pages_lt accounts.toVerified
  have few := allocated_card_lt accounts
  rw [accounts.total, accounts.freeCount, accounts.usedCount]
  exact add64_of_lt (by omega)

variable {node pages : Nat} {after : PMM}

theorem page_in_range (pages : Nat) (aligned : pageSize ∣ node) (address : Nat) :
    address / pageSize ∈ Ico (node / pageSize) (node / pageSize + pages) ↔
      node ≤ address ∧ address < node + runLength pages := by
  rcases aligned with ⟨index, whole⟩
  subst whole
  rw [Nat.mul_div_cancel_left index (by decide), mem_Ico, Nat.le_div_iff_mul_le (by decide),
    Nat.div_lt_iff_lt_mul (by decide), add_mul, mul_comm index]
  rfl

theorem page_of_multiple (page : Nat) : page * pageSize / pageSize = page :=
  Nat.mul_div_cancel page (by decide)

theorem taken_accounts {left right : List (Nat × Nat)} {run : Nat × Nat} {taken : Nat}
    (accounts : Accounts region pmm allocated (left ++ run :: right))
    (result : Taken pmm after left run right taken) :
    Accounts region after (allocated ∪ Ico (run.1 / pageSize) (run.1 / pageSize + taken))
      (left ++ (restOfRun run.1 run.2 taken ++ right)) := by
  have small := free_pages_lt accounts.toVerified
  have few := allocated_card_lt accounts
  have inRange := page_in_range taken (accounts.aligned run (by simp))
  have covers := rest_of_run_covers result.fits accounts.apart
  have wasCovered : ∀ point, run.1 ≤ point ∧ point < run.1 + runLength taken →
      Covers runLength (left ++ run :: right) point := by
    intro point inside
    have whole := run_length_split result.fits
    exact ⟨run, by simp, inside.1, by omega⟩
  have disjoint : Disjoint allocated (Ico (run.1 / pageSize) (run.1 / pageSize + taken)) := by
    rw [disjoint_right]
    intro page member
    have inside := (inRange (page * pageSize)).mp (by rwa [page_of_multiple])
    have free := ((accounts.covered _).mp (wasCovered _ inside)).2
    rwa [page_of_multiple] at free
  have free : pagesIn (left ++ (restOfRun run.1 run.2 taken ++ right)) + taken =
      pagesIn (left ++ run :: right) := pages_in_rest_of_run left right run.1 result.fits
  refine ⟨result.toVerified, rest_of_run_aligned accounts.aligned, ?_, ?_, accounts.bounded, ?_⟩
  · intro point
    rw [covers, accounts.covered, mem_union, inRange]
    tauto
  · intro point member
    rcases mem_union.mp member with old | new
    · exact accounts.managed point old
    · exact ((accounts.covered point).mp (wasCovered point ((inRange point).mp new))).1
  · rw [result.used, accounts.usedCount, card_union_of_disjoint disjoint, Nat.card_Ico,
      Nat.add_sub_cancel_left, add64_of_lt (by omega)]

theorem freed_accounts {new : List (Nat × Nat)} (accounts : Accounts region pmm allocated runs)
    (aligned : pageSize ∣ node)
    (owned : Ico (node / pageSize) (node / pageSize + pages) ⊆ allocated)
    (result : Freed pmm after node pages runs new) :
    Accounts region after (allocated \ Ico (node / pageSize) (node / pageSize + pages)) new := by
  have few := allocated_card_lt accounts
  have inRange := page_in_range pages aligned
  have fewer : pages ≤ allocated.card := by
    have subset := card_le_card owned
    rwa [Nat.card_Ico, Nat.add_sub_cancel_left] at subset
  refine ⟨result.toVerified, result.inserted.aligned accounts.aligned aligned, ?_, ?_,
    accounts.bounded, ?_⟩
  · intro point
    rw [result.inserted.covers, accounts.covered, mem_sdiff, inRange]
    have wasAllocated : node ≤ point ∧ point < node + runLength pages →
        region point := fun inside =>
      accounts.managed point (owned ((inRange point).mpr inside))
    tauto
  · intro point member
    exact accounts.managed point (mem_sdiff.mp member).1
  · rw [result.used, accounts.usedCount, card_sdiff_of_subset owned, Nat.card_Ico,
      Nat.add_sub_cancel_left, sub64_of_le (by omega) fewer]

theorem free_pages_accounts (accounts : Accounts region pmm allocated runs) (positive : 0 < pages)
    (aligned : pageSize ∣ node)
    (owned : Ico (node / pageSize) (node / pageSize + pages) ⊆ allocated)
    (writes : pmm.WritesCount node pages) :
    ∃ after newRuns, pmm.freePages node pages = some after ∧
      Accounts region after
        (allocated \ Ico (node / pageSize) (node / pageSize + pages)) newRuns := by
  have moved : 0 < runLength pages := mul_pos positive (by decide)
  have pageWord : pageSize = 4096 := rfl
  have inRange := page_in_range pages aligned
  have taken : ∀ point, node ≤ point → point < node + runLength pages →
      point / pageSize ∈ allocated := fun point above below =>
    owned ((inRange point).mpr ⟨above, below⟩)
  have first := accounts.bounded node (accounts.managed node (taken node le_rfl (by omega)))
  have last := accounts.bounded (node + runLength pages - 1)
    (accounts.managed _ (taken _ (by omega) (by omega)))
  rcases free_pages_spec accounts.toVerified positive (by omega) (by omega)
      (fun point above below covered =>
        ((accounts.covered point).mp covered).2 (taken point above below)) (fun _ => writes) with
    ⟨after, newRuns, call, freed⟩
  exact ⟨after, newRuns, call, freed_accounts accounts aligned owned freed⟩

end Accounts
end FrostyKernel.PMM
