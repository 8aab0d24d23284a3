import FrostyKernel.Paging.PageMapSteps

/-!
# Runs of the page table operations

From a cleared root on, the tables refine the map of pages that the operations make:
the walk of the processor and `x86_64_GetPhysicalAddress` find what was mapped last, and
the tables in use are those above the mapped pages.
-/

namespace FrostyKernel.Paging

open Tables Option Function

/-- A canonical address of a page. -/
structure PageAddress (virtualAddress : Nat) : Prop where
  aligned : virtualAddress % 4096 = 0
  canonical : virtualAddress < 2 ^ 47 ∨ 2 ^ 64 - 2 ^ 47 ≤ virtualAddress ∧ virtualAddress < 2 ^ 64

theorem page_of_injective {one two : Nat} (first : PageAddress one) (second : PageAddress two)
    (same : pageOf one = pageOf two) : one = two := by
  rcases first with ⟨alignedOne, canonicalOne⟩
  rcases second with ⟨alignedTwo, canonicalTwo⟩
  unfold pageOf at same
  omega

inductive PageOp
  | map (virtualAddress : Nat) (physicalAddress : BitVec 64) (flags : BitVec 32)
      (supply : Nat → BitVec 64)
  | remap (virtualAddress : Nat) (flags : BitVec 32)
  | unmap (virtualAddress : Nat)

namespace PageOp

def address : PageOp → Nat
  | map virtualAddress _ _ _ => virtualAddress
  | remap virtualAddress _ => virtualAddress
  | unmap virtualAddress => virtualAddress

section
variable (root : BitVec 64) (tables : Tables)

def run : PageOp → Tables
  | map virtualAddress physicalAddress flags supply =>
    mapPage virtualAddress physicalAddress flags supply 4 0 root tables
  | remap virtualAddress flags => remapPage virtualAddress flags 4 root tables
  | unmap virtualAddress => unmapPage virtualAddress root tables

/-- The frames that are handed out are not used otherwise, and only a mapped page is
remapped. -/
def Legal : PageOp → Prop
  | map _ _ _ supply => Fresh root supply tables
  | remap virtualAddress _ => (tables.hardwareWalk virtualAddress 4 root).isSome = true
  | unmap _ => True

def Step (op : PageOp) (next : Tables) : Prop :=
  PageAddress op.address ∧ op.Legal root tables ∧ next = op.run root tables

end

def apply (pages : Nat → Option Mapping) : PageOp → Nat → Option Mapping
  | map virtualAddress physicalAddress flags _ =>
    Function.update pages (pageOf virtualAddress) (some (.of physicalAddress flags))
  | remap virtualAddress flags =>
    Function.update pages (pageOf virtualAddress)
      ((pages (pageOf virtualAddress)).map fun mapping => { mapping with flags := flags })
  | unmap virtualAddress => Function.update pages (pageOf virtualAddress) none

def pagesAfter (ops : List PageOp) : Nat → Option Mapping := ops.foldl apply fun _ => none

theorem apply_other (pages : Nat → Option Mapping) {op : PageOp} {page : Nat}
    (other : page ≠ pageOf op.address) : op.apply pages page = pages page := by
  cases op <;> exact update_of_ne other _ _

end PageOp

section
variable (root : BitVec 64) (pages : Nat → Option Mapping) (tables : Tables)

/-- A root without entries, before any table is allocated. -/
structure Zeroed : Prop where
  entries : ∀ i < 512, tables.mem root i = 0
  allocated : tables.allocated = []
  freed : tables.freed = []

def Covers (level number : Nat) : Prop :=
  ∃ page mapping, pages page = some mapping ∧ page / 512 ^ level = number

/-- The tables are an implementation of a map of pages. -/
structure Refines : Prop where
  walk : ∀ virtualAddress, PageAddress virtualAddress →
    tables.hardwareWalk virtualAddress 4 root =
      (pages (pageOf virtualAddress)).map Mapping.translation
  address : ∀ virtualAddress, PageAddress virtualAddress →
    tables.getPhysicalAddress virtualAddress 4 root =
      ((pages (pageOf virtualAddress)).map Mapping.frame).getD 0
  covered : ∀ level depth number, level + (depth + 1) = 4 → 0 < level →
    ((tables.tableAt root (depth + 1) number).isSome = true ↔ Covers pages level number)
  owned : ∀ depth number table, tables.tableAt root (depth + 1) number = some table →
    tables.allocated.count table = tables.freed.count table + 1
  returned : ∀ frame, (∀ depth number, tables.tableAt root (depth + 1) number ≠ some frame) →
    tables.Unused frame

end

/-- An operation returns the tables that are above no mapped page any more, once, and no
other frames. -/
structure ReturnsEmptied (root : BitVec 64) (pages : Nat → Option Mapping)
    (before after : Tables) : Prop where
  emptied : ∀ level depth number table, level + (depth + 1) = 4 →
    before.tableAt root (depth + 1) number = some table → ¬ Covers pages level number →
    after.freed.count table = before.freed.count table + 1
  kept : ∀ level depth number table, level + (depth + 1) = 4 →
    before.tableAt root (depth + 1) number = some table → Covers pages level number →
    after.freed.count table = before.freed.count table
  others : ∀ frame, (∀ depth number, before.tableAt root (depth + 1) number ≠ some frame) →
    after.freed.count frame = before.freed.count frame

/-! ## The invariant -/

structure Sound (root : BitVec 64) (pages : Nat → Option Mapping) (tables : Tables) : Prop where
  shaped : TreeShaped root tables
  represents : Represents root pages tables
  filled : Filled root pages tables

variable {root : BitVec 64} {tables : Tables}

theorem zeroed_sound (zeroed : Zeroed root tables) : Sound root (fun _ => none) tables := by
  have none : ∀ depth number, tables.tableAt root (depth + 1) number = none := by
    intro depth
    induction depth with
    | zero =>
      intro number
      rw [tableAt]
      cases here : tables.tableAt root 0 (number / 512) with
      | none => rfl
      | some table =>
        rw [bind_some, (table_at_zero here).2,
          zeroed.entries _ (Nat.mod_lt _ (by omega)), next_zero]
    | succ depth ih =>
      intro number
      rw [tableAt, ih]
      rfl
  have nowhere : ∀ {depth number : Nat} {table : BitVec 64},
      tables.tableAt root (depth + 1) number ≠ some table := by
    intro depth number table here
    rw [none] at here
    cases here
  constructor
  · constructor
    · intro depth number depth' number' table one two
      cases depth with
      | succ depth => exact absurd one nowhere
      | zero =>
        cases depth' with
        | succ depth' => exact absurd two nowhere
        | zero => exact ⟨rfl, (table_at_zero one).1.trans (table_at_zero two).1.symm⟩
    · intro depth number table here
      exact absurd here nowhere
  · constructor
    · intro depth number table i _ here inside
      cases depth with
      | zero => exact .inl ((table_at_zero here).2 ▸ zeroed.entries i inside)
      | succ depth => exact absurd here nowhere
    · intro number table i here
      exact absurd here nowhere
    · intro page mapping impossible
      cases impossible
    · intro page mapping level depth table impossible
      cases impossible
    · intro depth number table here
      exact absurd here nowhere
    · intro frame _
      rw [Unused, zeroed.allocated, zeroed.freed]
  · intro level depth number table _ here
    exact absurd here nowhere

section Consequences
variable {root : BitVec 64} {pages : Nat → Option Mapping} {tables : Tables}

theorem Sound.walk (sound : Sound root pages tables) (virt : Nat) :
    tables.hardwareWalk virt 4 root = (pages (pageOf virt)).map Mapping.translation :=
  walk_of_represents sound.represents rfl (at_root sound.shaped).here

theorem Sound.refines (sound : Sound root pages tables) : Refines root pages tables where
  walk := fun virt _ => sound.walk virt
  address := fun virt _ =>
    physical_address_of_represents sound.represents rfl (at_root sound.shaped).here
  covered := by
    intro level depth number total positive
    rw [isSome_iff_exists]
    constructor
    · rintro ⟨table, here⟩
      exact sound.filled level depth number table total here id
    · rintro ⟨page, mapping, mapped, rfl⟩
      rcases Nat.exists_eq_succ_of_ne_zero (ne_of_gt positive) with ⟨lower, rfl⟩
      exact sound.represents.path mapped total
  owned := sound.represents.owned
  returned := sound.represents.returned

variable {op : PageOp} {next : Tables}

theorem map_page_freed (virt : Nat) (physicalAddress : BitVec 64) (flags : BitVec 32)
    (supply : Nat → BitVec 64) (level calls : Nat) (table : BitVec 64) (tables : Tables) :
    (mapPage virt physicalAddress flags supply level calls table tables).freed = tables.freed := by
  induction level generalizing calls table tables with
  | zero => rfl
  | succ level ih =>
    unfold mapPage
    simp only
    cases getNextPageTable (tables.mem table (entryIndex virt (level + 1))) (level + 1) with
    | some next => exact ih _ _ _
    | none =>
      simp only
      split_ifs
      · rfl
      · rfl
      · exact ih _ _ _

theorem remap_page_freed (virt : Nat) (flags : BitVec 32) (level : Nat) (table : BitVec 64)
    (tables : Tables) : (remapPage virt flags level table tables).freed = tables.freed := by
  induction level generalizing table tables with
  | zero => rfl
  | succ level ih =>
    unfold remapPage
    simp only
    split_ifs
    · rfl
    · cases getNextPageTable (tables.mem table (entryIndex virt (level + 1))) (level + 1) with
      | some next => exact ih _ _
      | none => rfl

theorem reclaim_allocated (stack : List (BitVec 64 × Nat)) (tables : Tables) :
    (reclaim stack tables).allocated = tables.allocated := by
  induction stack generalizing tables with
  | nil => rfl
  | cons entry rest ih =>
    unfold reclaim
    simp only
    split_ifs
    · exact ih _
    · rfl

theorem unmap_page_allocated {virt : Nat} (shaped : TreeShaped root tables) :
    (unmapPage virt root tables).allocated = tables.allocated := by
  unfold unmapPage
  cases done : clearPage virt 4 root [] tables with
  | none => rfl
  | some result =>
    rcases result with ⟨cleared, stack⟩
    rcases clear_page_cases (at_root shaped) .nil done with ⟨last, _, rfl, _⟩
    exact reclaim_allocated stack _

section
variable (sound : Sound root pages tables)
include sound

/-- Each operation updates the map of pages. -/
theorem Sound.step (step : op.Step root tables next) : Sound root (op.apply pages) next := by
  rcases step with ⟨_, legal, rfl⟩
  rcases sound with ⟨shaped, represents, filled⟩
  cases op with
  | map virt physicalAddress flags supply =>
    rcases map_page_represents shaped represents filled physicalAddress flags legal with
      ⟨shaped', represents', filled'⟩
    exact ⟨shaped', represents', filled'⟩
  | remap virt flags =>
    have walk := Sound.walk ⟨shaped, represents, filled⟩ virt
    have present : (tables.hardwareWalk virt 4 root).isSome = true := legal
    rw [walk, isSome_map] at present
    rcases isSome_iff_exists.mp present with ⟨mapping, mapped⟩
    rcases remap_page_represents shaped represents filled flags mapped with
      ⟨shaped', represents', filled'⟩
    have applied : (PageOp.remap virt flags).apply pages =
        update pages (pageOf virt) (some { mapping with flags := flags }) := by
      rw [PageOp.apply, mapped]
      rfl
    rw [applied]
    exact ⟨shaped', represents', filled'⟩
  | unmap virt =>
    rcases @unmap_page_represents root pages tables virt shaped represents filled with
      ⟨shaped', represents', filled', _⟩
    exact ⟨shaped', represents', filled'⟩

theorem ReturnsEmptied.of_freed (same : next.freed = tables.freed)
    (still : ∀ page, pages page ≠ none → op.apply pages page ≠ none) :
    ReturnsEmptied root (op.apply pages) tables next := by
  constructor
  · intro level depth number table total here empty
    rcases sound.filled level depth number table total here id with ⟨page, mapping, mapped, passes⟩
    have kept := still page (by rw [mapped]; exact some_ne_none mapping)
    rcases ne_none_iff_exists'.mp kept with ⟨other, found⟩
    exact absurd ⟨page, other, found, passes⟩ empty
  · intro level depth number table _ _ _
    rw [same]
  · intro frame _
    rw [same]

theorem Sound.returns_emptied (step : op.Step root tables next) :
    ReturnsEmptied root (op.apply pages) tables next := by
  have after := sound.step step
  rcases step with ⟨_, legal, rfl⟩
  cases op with
  | map virt physicalAddress flags supply =>
    refine .of_freed sound (map_page_freed _ _ _ _ _ _ _ _) ?_
    intro page mapped
    by_cases same : page = pageOf virt
    · rw [same, PageOp.apply, update_self]
      exact some_ne_none _
    · rw [PageOp.apply_other _ same]
      exact mapped
  | remap virt flags =>
    refine .of_freed sound (remap_page_freed _ _ _ _ _) ?_
    intro page mapped
    by_cases same : page = pageOf virt
    · rw [same] at mapped ⊢
      rw [PageOp.apply, update_self]
      simpa using mapped
    · rw [PageOp.apply_other _ same]
      exact mapped
  | unmap virt =>
    have shrinks := (@unmap_page_represents root pages tables virt sound.shaped
      sound.represents sound.filled).2.2.2
    have allocated : (PageOp.run root tables (.unmap virt)).allocated =
        tables.allocated := unmap_page_allocated sound.shaped
    have gone : ∀ frame,
        (∀ depth number, (PageOp.run root tables (.unmap virt)).tableAt root
          (depth + 1) number ≠ some frame) →
        (PageOp.run root tables (.unmap virt)).freed.count frame =
          tables.allocated.count frame := by
      intro frame nowhere
      have unused := after.represents.returned frame nowhere
      rw [Unused, allocated] at unused
      exact unused
    constructor
    · intro level depth number table total here empty
      rw [gone table, sound.represents.owned depth number table here]
      intro depth' number' there
      rcases sound.shaped.distinct _ _ _ _ _ (shrinks _ _ _ there) here with ⟨deep, same⟩
      cases Nat.succ.inj deep
      cases same
      exact empty (after.filled level depth number table total there id)
    · intro level depth number table total here covers
      have positive : 0 < level := by
        have deep := table_at_depth here
        omega
      rcases isSome_iff_exists.mp
        ((after.refines.covered level depth number total positive).mpr covers) with ⟨other, there⟩
      have same := shrinks _ _ _ there
      rw [here] at same
      cases same
      have one := after.represents.owned depth number table there
      have two := sound.represents.owned depth number table here
      rw [allocated] at one
      omega
    · intro frame nowhere
      rw [gone frame fun depth number there => nowhere depth number (shrinks _ _ _ there)]
      exact (sound.represents.returned frame nowhere).symm

end
end Consequences

/-! ## Runs -/

theorem run_sound {start final : Tables} {ops : List PageOp} (zeroed : Zeroed root start)
    (run : Run (fun tables op => op.Step root tables) start ops final) :
    Sound root (PageOp.pagesAfter ops) final := by
  induction run with
  | nil => exact zeroed_sound zeroed
  | snoc initial last ih =>
    rw [PageOp.pagesAfter, List.foldl_append]
    exact ih.step last

/-- From a cleared root on, the tables refine the map of pages that the operations make.
A further operation changes the translation of no other page, and returns exactly the
tables that it empties. -/
theorem page_tables_refine {root : BitVec 64} {start final : Tables} {ops : List PageOp}
    (zeroed : Zeroed root start) (run : Run (fun tables op => op.Step root tables) start ops final) :
    Refines root (PageOp.pagesAfter ops) final ∧
      ∀ op next, op.Step root final next →
        (∀ virtualAddress, PageAddress virtualAddress → virtualAddress ≠ op.address →
          next.hardwareWalk virtualAddress 4 root = final.hardwareWalk virtualAddress 4 root ∧
          next.getPhysicalAddress virtualAddress 4 root =
            final.getPhysicalAddress virtualAddress 4 root) ∧
        ReturnsEmptied root (PageOp.pagesAfter (ops ++ [op])) final next := by
  have sound := run_sound zeroed run
  refine ⟨sound.refines, ?_⟩
  intro op next step
  have after := sound.step step
  constructor
  · intro virtualAddress page other
    have elsewhere : pageOf virtualAddress ≠ pageOf op.address :=
      fun same => other (page_of_injective page step.1 same)
    rw [after.refines.walk _ page, sound.refines.walk _ page, after.refines.address _ page,
      sound.refines.address _ page, PageOp.apply_other _ elsewhere]
    exact ⟨rfl, rfl⟩
  · rw [PageOp.pagesAfter, List.foldl_append]
    exact sound.returns_emptied step

/-- Consecutive frames behind the root. -/
theorem consecutive_frames_fresh
    (unused : ∀ k < 3, tables.Unused (BitVec.ofNat 64 (0x2000 + k * 0x1000))) :
    Fresh 0x1000 (fun k => BitVec.ofNat 64 (0x2000 + k * 0x1000)) tables where
  valid := by
    intro k bound
    interval_cases k <;> exact ⟨by decide, by decide⟩
  notRoot := by
    intro k bound
    interval_cases k <;> decide
  injective := by
    intro j boundJ k boundK same
    interval_cases j <;> interval_cases k <;> first | rfl | exact absurd same (by decide)
  unused := unused

/-- One page mapped below a cleared root. -/
theorem first_page_refined :
    Refines 0x1000
      (PageOp.pagesAfter [.map 0x400000 0x9000 7 fun k => BitVec.ofNat 64 (0x2000 + k * 0x1000)])
      (PageOp.run 0x1000 ⟨fun _ _ => 0, [], []⟩
        (.map 0x400000 0x9000 7 fun k => BitVec.ofNat 64 (0x2000 + k * 0x1000))) := by
  have start : Zeroed 0x1000 ⟨fun _ _ => 0, [], []⟩ := ⟨fun _ _ => rfl, rfl, rfl⟩
  have address : PageAddress 0x400000 := ⟨by omega, by omega⟩
  have step : PageOp.Step 0x1000 ⟨fun _ _ => 0, [], []⟩
      (.map 0x400000 0x9000 7 fun k => BitVec.ofNat 64 (0x2000 + k * 0x1000)) _ :=
    ⟨address, consecutive_frames_fresh fun _ _ => rfl, rfl⟩
  exact (page_tables_refine start (.snoc (.nil _) step)).1

end FrostyKernel.Paging
