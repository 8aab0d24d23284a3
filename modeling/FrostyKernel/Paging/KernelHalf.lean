import FrostyKernel.Paging.FiveLevelUnmap

/-!
# The kernel half of created page tables

`PageMapper::Create` copies the root table of the kernel once. Later operations on the
kernel page table write tables that both roots share, as long as they do not write the
root of the kernel itself. The number of levels is four or five.
-/

namespace FrostyKernel.Paging

open Tables Option

/-- The tables, with the roots that were created. -/
structure PageMappers where
  tables : Tables
  roots : List (BitVec 64)

/-- A page of the upper half. -/
structure KernelAddress (levels virtualAddress : Nat) : Prop where
  aligned : virtualAddress % 4096 = 0
  low : 2 ^ 64 - 2 ^ (11 + 9 * levels) ≤ virtualAddress
  high : virtualAddress < 2 ^ 64

inductive KernelCall
  | create (frame : BitVec 64)
  | mapPage (virtualAddress : Nat) (physicalAddress : BitVec 64) (flags : BitVec 32)
      (supply : Nat → BitVec 64)
  | unmapPage (virtualAddress : Nat)

/-- `PageMapper::Create`: a frame of its own, with the entries of the kernel root. -/
def Tables.create (tables : Tables) (kernel frame : BitVec 64) : Tables :=
  { tables with
    mem := fun other index =>
      if other = frame then tables.mem kernel index else tables.mem other index
    allocated := frame :: tables.allocated }

/-- The frames of the supply from `calls` on are not used otherwise. -/
structure Supplied (levels : Nat) (kernel : BitVec 64) (supply : Nat → BitVec 64) (calls : Nat)
    (tables : Tables) : Prop where
  valid : ∀ k < levels - 1, ValidFrame (supply k)
  notRoot : ∀ k < levels - 1, supply k ≠ kernel
  injective : ∀ j < levels - 1, ∀ k < levels - 1, supply j = supply k → j = k
  unused : ∀ k < levels - 1, calls ≤ k → tables.Unused (supply k)

section
variable (levels : Nat) (kernel : BitVec 64)

/-- The entry of the kernel root for the address is there and has the flags of the page. -/
def MapsBelowRoot (tables : Tables) (virtualAddress : Nat) (flags : BitVec 32) : Prop :=
  (getNextPageTable (tables.mem kernel (entryIndex virtualAddress levels)) levels).isSome ∧
    addFlags (tables.mem kernel (entryIndex virtualAddress levels)) flags =
      tables.mem kernel (entryIndex virtualAddress levels)

/-- The page has no table of the last level, or a table below the root on its path has another
entry. -/
def UnmapsBelowRoot (tables : Tables) (virtualAddress : Nat) : Prop :=
  tables.lastTable virtualAddress levels kernel = none ∨
    ∃ depth table index, 1 ≤ depth ∧ depth < levels ∧
      tables.walkTable levels kernel virtualAddress depth = some table ∧ index < 512 ∧
      index ≠ entryIndex virtualAddress (levels - depth) ∧ isPresent (tables.mem table index) = true

end

namespace KernelCall

section
variable (levels : Nat) (kernel : BitVec 64) (mappers : PageMappers) (call : KernelCall)

def run : KernelCall → Option PageMappers
  | create frame => some ⟨mappers.tables.create kernel frame, frame :: mappers.roots⟩
  | mapPage virtualAddress physicalAddress flags supply =>
    some { mappers with
      tables := Tables.mapPage virtualAddress physicalAddress flags supply levels 0 kernel
        mappers.tables }
  | unmapPage virtualAddress =>
    (mappers.tables.unmapPageLevels levels virtualAddress kernel).map fun after =>
      { mappers with tables := after }

/-- The frames that are handed out are not used otherwise, and only the kernel half is
mapped and unmapped. -/
def Legal : KernelCall → Prop
  | create frame => frame ≠ kernel ∧ mappers.tables.Unused frame
  | mapPage virtualAddress _ _ supply =>
    KernelAddress levels virtualAddress ∧ Supplied levels kernel supply 0 mappers.tables
  | unmapPage virtualAddress => KernelAddress levels virtualAddress

def Step (next : PageMappers) : Prop :=
  call.Legal levels kernel mappers ∧ call.run levels kernel mappers = some next

/-- After a root was created, pages are mapped and unmapped below the entries of the kernel root
that are there. -/
def LeavesRoot : KernelCall → Prop
  | create _ => True
  | mapPage virtualAddress _ flags _ =>
    mappers.roots ≠ [] → MapsBelowRoot levels kernel mappers.tables virtualAddress flags
  | unmapPage virtualAddress =>
    mappers.roots ≠ [] → UnmapsBelowRoot levels kernel mappers.tables virtualAddress

end
end KernelCall

/-- The created roots show the kernel half as the kernel root does, and lead to tables in
use only. -/
def KernelHalfShared (levels : Nat) (kernel : BitVec 64) (mappers : PageMappers) : Prop :=
  ∀ root ∈ mappers.roots,
    (∀ virtualAddress, KernelAddress levels virtualAddress →
      mappers.tables.hardwareWalk virtualAddress levels root =
        mappers.tables.hardwareWalk virtualAddress levels kernel) ∧
    ∀ index < 512, ∀ table, getNextPageTable (mappers.tables.mem root index) levels = some table →
      mappers.tables.InUse table

/-! ## Walks after an edit -/

section
variable (levels : Nat) (kernel : BitVec 64)

/-- No table has two places below the root, and those below the root are in use. -/
structure Shaped (tables : Tables) : Prop where
  unshared : Unshared levels kernel tables
  held : ∀ address depth table,
    tables.walkTable levels kernel address (depth + 1) = some table → tables.InUse table

def OffTree (tables : Tables) (frame : BitVec 64) : Prop :=
  ∀ address depth, tables.walkTable levels kernel address depth ≠ some frame

/-- The tree keeps its shape, and a frame in use that is no table of it is left alone. -/
structure Undisturbed (before after : Tables) : Prop where
  shaped : Shaped levels kernel after
  alone : ∀ frame, OffTree levels kernel before frame → before.InUse frame →
    OffTree levels kernel after frame ∧ after.InUse frame ∧ after.mem frame = before.mem frame

end

section Edits
variable {levels : Nat} {kernel : BitVec 64} {tables middle after : Tables}

theorem Undisturbed.refl (shaped : Shaped levels kernel tables) :
    Undisturbed levels kernel tables tables :=
  ⟨shaped, fun _ off inUse => ⟨off, inUse, rfl⟩⟩

theorem Undisturbed.trans (first : Undisturbed levels kernel tables middle)
    (second : Undisturbed levels kernel middle after) :
    Undisturbed levels kernel tables after := by
  refine ⟨second.shaped, ?_⟩
  intro frame off inUse
  rcases first.alone frame off inUse with ⟨offMiddle, usedMiddle, same⟩
  rcases second.alone frame offMiddle usedMiddle with ⟨offAfter, usedAfter, again⟩
  exact ⟨offAfter, usedAfter, again.trans same⟩

theorem unused_off_tree {frame : BitVec 64} (shaped : Shaped levels kernel tables)
    (other : frame ≠ kernel) (unused : tables.Unused frame) : OffTree levels kernel tables frame := by
  intro address depth here
  cases depth with
  | zero => exact other (some.inj here).symm
  | succ depth => exact absurd unused (ne_of_lt (shaped.held _ _ _ here))

/-- Tables with the same walks have the same shape, if those on the walks stay in use. -/
theorem Shaped.congr (shaped : Shaped levels kernel tables)
    (walks : ∀ address depth, after.walkTable levels kernel address depth =
      tables.walkTable levels kernel address depth)
    (inUse : ∀ address depth table, tables.walkTable levels kernel address depth = some table →
      tables.InUse table → after.InUse table) : Shaped levels kernel after := by
  refine ⟨?_, ?_⟩
  · intro one two depth depth' found first second
    rw [walks] at first second
    exact shaped.unshared one two depth depth' found first second
  · intro address depth found reached
    rw [walks] at reached
    exact inUse address _ found reached (shaped.held address depth found reached)

variable {virt depth : Nat} {table : BitVec 64} (shaped : Shaped levels kernel tables)
  (here : tables.walkTable levels kernel virt depth = some table)
include shaped here

/-- Below the root the kernel root is not met again. -/
theorem not_kernel (below : 0 < depth) : table ≠ kernel := by
  rintro rfl
  have top : tables.walkTable levels table virt 0 = some table := rfl
  exact absurd (shaped.unshared _ _ _ _ _ here top).1 (by omega)

section
variable {index : Nat} {value : BitVec 64}
  (same : levels - depth < 2 ∨ SameShape (tables.mem table index) value)
include same

/-- An entry is written that leads to no table, or to the same one as before. -/
theorem walk_set_entry (address below : Nat) :
    (tables.setEntry table index value).walkTable levels kernel address below =
      tables.walkTable levels kernel address below := by
  induction below with
  | zero => rfl
  | succ below ih =>
    rw [walkTable, walkTable, ih]
    cases reached : tables.walkTable levels kernel address below with
    | none => rfl
    | some parent =>
      simp only [bind_some]
      by_cases written : parent = table ∧ entryIndex address (levels - below) = index
      · rcases written with ⟨rfl, rfl⟩
        obtain rfl := (shaped.unshared _ _ _ _ _ reached here).1
        rw [set_entry_same]
        rcases same with last | shape
        · rw [if_neg fun conditions => absurd conditions.1 (by omega),
            if_neg fun conditions => absurd conditions.1 (by omega)]
        · rw [shape.present, shape.large, shape.address]
      · rw [set_entry_other _ _ _ _ _ _ written]

theorem undisturbed_set_entry :
    Undisturbed levels kernel tables (tables.setEntry table index value) := by
  have walks := walk_set_entry shaped here same
  refine ⟨shaped.congr walks fun _ _ _ _ => id, ?_⟩
  intro frame off inUse
  refine ⟨?_, inUse, ?_⟩
  · intro address depth
    rw [walks]
    exact off address depth
  · funext position
    refine set_entry_other _ _ _ _ _ _ ?_
    rintro ⟨rfl, _⟩
    exact off _ _ here

end

section Hang
variable {frame : BitVec 64} (valid : ValidFrame frame) (off : OffTree levels kernel tables frame)
  (flags : BitVec 32)

section
include off

omit shaped here in
/-- The entries of the tables of the tree, but for the one that is written. -/
theorem hang_entry {address below : Nat} {parent : BitVec 64} {index position : Nat}
    (reached : tables.walkTable levels kernel address below = some parent)
    (elsewhere : ¬ (parent = table ∧ position = index)) :
    (tables.hang table index frame flags).mem parent position = tables.mem parent position := by
  unfold Tables.hang
  rw [set_entry_other _ _ _ _ _ _ elsewhere, allocate_other]
  rintro rfl
  exact off _ _ reached

theorem walk_hang_above (index address : Nat) {below : Nat} (above : below ≤ depth) :
    (tables.hang table index frame flags).walkTable levels kernel address below =
      tables.walkTable levels kernel address below := by
  induction below with
  | zero => rfl
  | succ below ih =>
    rw [walkTable, walkTable, ih (by omega)]
    cases reached : tables.walkTable levels kernel address below with
    | none => rfl
    | some parent =>
      simp only [bind_some]
      rw [hang_entry off flags reached]
      rintro ⟨rfl, _⟩
      have same := (shaped.unshared _ _ _ _ _ reached here).1
      omega

end

include valid off

/-- A walk afterwards is one from before, or it ends in the new table. -/
theorem walk_hang {address below : Nat} {found : BitVec 64}
    (reached : (tables.hang table (entryIndex virt (levels - depth)) frame flags).walkTable levels
      kernel address below = some found) :
    tables.walkTable levels kernel address below = some found ∨
      found = frame ∧ below = depth + 1 ∧ SamePath levels address virt (depth + 1) := by
  induction below generalizing found with
  | zero => exact .inl reached
  | succ below ih =>
    rcases walk_table_succ.mp reached with ⟨parent, above, upper, present, small, link⟩
    rcases ih above with before | ⟨rfl, rfl, _⟩
    · by_cases written : parent = table ∧
          entryIndex address (levels - below) = entryIndex virt (levels - depth)
      · rcases written with ⟨rfl, index⟩
        rcases shaped.unshared _ _ _ _ _ before here with ⟨rfl, same⟩
        rw [index, Tables.hang, set_entry_same, (links_new valid flags).address] at link
        exact .inr ⟨link.symm, rfl, Nat.forall_lt_succ_right.mpr ⟨same, index⟩⟩
      · rw [hang_entry off flags before written] at present small link
        exact .inl (walk_table_succ.mpr ⟨parent, before, upper, present, small, link⟩)
    · -- The new table is cleared.
      have cleared : (tables.hang table (entryIndex virt (levels - depth)) parent flags).mem parent
          (entryIndex address (levels - (depth + 1))) = 0 := by
        unfold Tables.hang
        rw [set_entry_other, allocate_same]
        rintro ⟨rfl, _⟩
        exact off _ _ here
      rw [cleared, zero_not_present] at present
      cases present

theorem walk_hang_new (upper : 2 ≤ levels - depth) :
    (tables.hang table (entryIndex virt (levels - depth)) frame flags).walkTable levels kernel virt
      (depth + 1) = some frame := by
  have links := links_new valid flags
  refine @walk_table_next levels kernel virt _ depth table frame ?_ ?_
  · rw [walk_hang_above shaped here off flags _ _ le_rfl, here]
  · rw [Tables.hang, set_entry_same]
    exact links.next upper

theorem undisturbed_hang (unused : tables.Unused frame) :
    Undisturbed levels kernel tables
      (tables.hang table (entryIndex virt (levels - depth)) frame flags) := by
  have walks {address below found} := @walk_hang levels kernel tables virt depth table shaped here
    frame valid off flags address below found
  refine ⟨⟨?_, ?_⟩, ?_⟩
  · intro one two below below' found first second
    rcases walks first with before | ⟨isNew, rfl, same⟩
    · rcases walks second with before' | ⟨rfl, _, _⟩
      · exact shaped.unshared _ _ _ _ _ before before'
      · exact absurd before (off _ _)
    · rcases walks second with before' | ⟨_, rfl, same'⟩
      · rw [isNew] at before'
        exact absurd before' (off _ _)
      · exact ⟨rfl, fun above bound => (same above bound).trans (same' above bound).symm⟩
  · intro address below found reached
    rcases walks reached with before | ⟨rfl, _, _⟩
    · have elsewhere : found ≠ frame := by
        rintro rfl
        exact off _ _ before
      exact (allocate_in_use _ _ _ elsewhere).mpr (shaped.held _ _ _ before)
    · exact allocate_in_use_self _ _ unused
  · intro other offOther inUse
    have elsewhere : other ≠ frame := by
      rintro rfl
      exact absurd unused (ne_of_lt inUse)
    refine ⟨?_, (allocate_in_use _ _ _ elsewhere).mpr inUse, ?_⟩
    · intro address below reached
      rcases walks reached with before | ⟨same, _, _⟩
      · exact offOther _ _ before
      · exact elsewhere same
    · funext position
      unfold Tables.hang
      rw [set_entry_other, allocate_other _ _ _ _ elsewhere]
      rintro ⟨rfl, _⟩
      exact offOther _ _ here

end Hang
end Edits

/-! ## The calls -/

section Calls
variable {levels : Nat} {kernel : BitVec 64} {virt : Nat}

/-- The loop of `x86_64_MapPage` from a table of the tree on; below the root it does not write the
root. -/
theorem map_page_undisturbed (physicalAddress : BitVec 64) (flags : BitVec 32)
    {supply : Nat → BitVec 64} {level depth calls : Nat} {table : BitVec 64} {tables : Tables}
    (total : level + depth = levels)
    (here : tables.walkTable levels kernel virt depth = some table)
    (shaped : Shaped levels kernel tables) (used : calls ≤ depth)
    (supplied : Supplied levels kernel supply calls tables) :
    Undisturbed levels kernel tables
        (mapPage virt physicalAddress flags supply level calls table tables) ∧
      (0 < depth → (mapPage virt physicalAddress flags supply level calls table tables).mem kernel =
        tables.mem kernel) := by
  induction level generalizing depth calls table tables with
  | zero => exact ⟨.refl shaped, fun _ => rfl⟩
  | succ level ih =>
    have index : levels - depth = level + 1 := by omega
    have spared : ∀ (position : Nat) (value : BitVec 64), 0 < depth →
        (tables.setEntry table position value).mem kernel = tables.mem kernel := by
      intro position value below
      funext other
      exact set_entry_other _ _ _ _ _ _ fun written => not_kernel shaped here below written.1.symm
    unfold mapPage
    simp only
    cases found : getNextPageTable (tables.mem table (entryIndex virt (level + 1))) (level + 1) with
    | some next =>
      have shape := add_flags_same_shape (next_cases found).2.1 flags
      have edited := undisturbed_set_entry shaped here (.inr shape)
      have below := walk_table_next here (index.symm ▸ found)
      rw [← walk_set_entry shaped here (.inr shape)] at below
      rcases ih (by omega) below edited.shaped (by omega)
        ⟨supplied.valid, supplied.notRoot, supplied.injective, supplied.unused⟩ with ⟨rest, same⟩
      exact ⟨edited.trans rest, fun positive => (same (by omega)).trans (spared _ _ positive)⟩
    | none =>
      simp only
      split_ifs with large leaf
      · exact ⟨.refl shaped, fun _ => rfl⟩
      · exact ⟨undisturbed_set_entry shaped here (.inl (by omega)), spared _ _⟩
      · have bound : calls < levels - 1 := by omega
        have valid := supplied.valid calls bound
        have unused := supplied.unused calls bound le_rfl
        have off := unused_off_tree shaped (supplied.notRoot calls bound) unused
        have edited := undisturbed_hang shaped here valid off flags unused
        have below := walk_hang_new shaped here valid off flags (by omega)
        rw [index] at edited below
        have left : Supplied levels kernel supply (calls + 1)
            (tables.hang table (entryIndex virt (level + 1)) (supply calls) flags) := by
          refine ⟨supplied.valid, supplied.notRoot, supplied.injective, ?_⟩
          intro k small later
          have other : supply k ≠ supply calls := fun same =>
            absurd (supplied.injective k small calls bound same) (by omega)
          exact (allocate_unused _ _ _ other).mpr (supplied.unused k small (by omega))
        rcases ih (by omega) below edited.shaped (by omega) left with ⟨rest, same⟩
        refine ⟨edited.trans rest, fun positive => (same (by omega)).trans ?_⟩
        funext position
        refine hang_entry off flags (show tables.walkTable levels kernel virt 0 =
          some kernel from rfl) ?_
        rintro ⟨isTable, _⟩
        exact not_kernel shaped here positive isTable.symm

theorem map_page_leaves_root {tables : Tables} {physicalAddress : BitVec 64} {flags : BitVec 32}
    {supply : Nat → BitVec 64} (shaped : Shaped levels kernel tables)
    (supplied : Supplied levels kernel supply 0 tables)
    (below : MapsBelowRoot levels kernel tables virt flags) :
    (mapPage virt physicalAddress flags supply levels 0 kernel tables).mem kernel =
      tables.mem kernel := by
  rcases below with ⟨linked, same⟩
  rcases isSome_iff_exists.mp linked with ⟨next, found⟩
  have upper := (next_cases found).1
  obtain ⟨level, rfl⟩ : ∃ level, levels = level + 1 := ⟨levels - 1, by omega⟩
  have kept : tables.setEntry kernel (entryIndex virt (level + 1))
      (tables.mem kernel (entryIndex virt (level + 1))) = tables := by
    unfold setEntry
    congr 1
    funext other position
    split_ifs with written
    · rw [written.1, written.2]
    · rfl
  have child : tables.walkTable (level + 1) kernel virt (0 + 1) = some next :=
    walk_table_next rfl found
  unfold mapPage
  simp only [found, same, kept]
  exact (map_page_undisturbed physicalAddress flags (by omega) child shaped (Nat.zero_le _)
    supplied).2 (by omega)

theorem unmap_page_undisturbed {tables after : Tables} (fits : levels ≤ 5)
    (shaped : Shaped levels kernel tables)
    (call : tables.unmapPageLevels levels virt kernel = some after) :
    Undisturbed levels kernel tables after ∧
      (UnmapsBelowRoot levels kernel tables virt → after.mem kernel = tables.mem kernel) := by
  cases ends : tables.lastTable virt levels kernel with
  | none =>
    have missing : clearPage virt levels kernel [] tables = none := clear_page_missing ends
    unfold unmapPageLevels at call
    rw [missing] at call
    split_ifs at call
    cases call
    exact ⟨.refl shaped, fun _ => rfl⟩
  | some last =>
    rcases exists_path ends with ⟨path, is⟩
    have cuts : ∀ stop, Undisturbed levels kernel tables (tables.cut levels virt path stop) := by
      intro stop
      have walks {address depth table} := @Path.walk_of_cut levels kernel virt tables path stop is
        shaped.unshared address depth table
      have inUse : ∀ {table : BitVec 64}, ¬ Pruned levels path stop table → tables.InUse table →
          (tables.cut levels virt path stop).InUse table := by
        intro table stays used
        unfold InUse at used ⊢
        rw [(is.freed_cut shaped.unshared table).2 stays]
        exact used
      refine ⟨⟨?_, ?_⟩, ?_⟩
      · intro one two depth depth' table first second
        exact shaped.unshared _ _ _ _ _ (walks first).1 (walks second).1
      · intro address depth table reached
        rcases walks reached with ⟨before, stays⟩
        exact inUse stays (shaped.held _ _ _ before)
      · intro frame off used
        refine ⟨fun address depth reached => off _ _ (walks reached).1, inUse ?_ used, ?_⟩
        · rintro ⟨depth, _, inside, rfl⟩
          exact off _ _ (is.walk inside)
        · funext position
          apply cut_other
          rintro below inside _ rfl
          exact absurd (is.walk inside) (off _ _)
    rcases is.unmap_page shaped.unshared fits with ⟨stop, stops, result⟩ | ⟨alone, result⟩
    · rw [result] at call
      cases call
      refine ⟨cuts stop, fun _ => ?_⟩
      funext position
      apply cut_other
      intro below inside deep same
      have top := is.injective shaped.unshared inside is.positive (same.symm.trans is.start.symm)
      have lowest := stops.below
      omega
    · have shared : ¬ UnmapsBelowRoot levels kernel tables virt := by
        rintro (missing | ⟨depth, table, index, below, inside, reached, bound, other, present⟩)
        · rw [ends] at missing
          cases missing
        · rw [is.walk inside] at reached
          cases reached
          rw [alone depth below (by omega) index bound other] at present
          cases present
      rw [result] at call
      split_ifs at call
      cases call
      exact ⟨cuts 0, fun below => absurd below shared⟩

end Calls

/-! ## The invariant -/

/-- The created roots are copies of the kernel root outside of its tree. -/
structure Copied (levels : Nat) (kernel : BitVec 64) (mappers : PageMappers) : Prop where
  shaped : Shaped levels kernel mappers.tables
  outside : ∀ root ∈ mappers.roots, OffTree levels kernel mappers.tables root
  inUse : ∀ root ∈ mappers.roots, mappers.tables.InUse root
  same : ∀ root ∈ mappers.roots, mappers.tables.mem root = mappers.tables.mem kernel

section
variable {levels : Nat} {kernel : BitVec 64} {mappers : PageMappers}
  (copied : Copied levels kernel mappers)
include copied

theorem Copied.shared : KernelHalfShared levels kernel mappers := by
  intro root member
  constructor
  · intro virt _
    cases levels with
    | zero => rfl
    | succ level =>
      unfold hardwareWalk
      rw [copied.same root member]
  · intro index bound table next
    rw [copied.same root member] at next
    have here : entryIndex (index * 2 ^ (12 + (levels - 1) * 9)) levels = index := by
      unfold entryIndex
      rw [Nat.mul_div_cancel _ (Nat.two_pow_pos _), Nat.mod_eq_of_lt bound]
    refine copied.shaped.held (index * 2 ^ (12 + (levels - 1) * 9)) 0 table ?_
    refine @walk_table_next levels kernel _ mappers.tables 0 kernel table rfl ?_
    rw [Nat.sub_zero, here]
    exact next

theorem Copied.of_undisturbed {after : Tables}
    (undisturbed : Undisturbed levels kernel mappers.tables after)
    (leaves : mappers.roots ≠ [] → after.mem kernel = mappers.tables.mem kernel) :
    Copied levels kernel { mappers with tables := after } := by
  have alone := fun root member =>
    undisturbed.alone root (copied.outside root member) (copied.inUse root member)
  refine ⟨undisturbed.shaped, fun root member => (alone root member).1,
    fun root member => (alone root member).2.1, ?_⟩
  intro root member
  show after.mem root = after.mem kernel
  rw [leaves (List.ne_nil_of_mem member), (alone root member).2.2]
  exact copied.same root member

theorem Copied.create {frame : BitVec 64} (other : frame ≠ kernel)
    (unused : mappers.tables.Unused frame) :
    Copied levels kernel ⟨mappers.tables.create kernel frame, frame :: mappers.roots⟩ := by
  have off := unused_off_tree copied.shaped other unused
  have memory : ∀ found, found ≠ frame →
      (mappers.tables.create kernel frame).mem found = mappers.tables.mem found := by
    intro found elsewhere
    funext index
    exact if_neg elsewhere
  have walks : ∀ address depth,
      (mappers.tables.create kernel frame).walkTable levels kernel address depth =
        mappers.tables.walkTable levels kernel address depth := by
    intro address depth
    induction depth with
    | zero => rfl
    | succ depth ih =>
      rw [walkTable, walkTable, ih]
      cases reached : mappers.tables.walkTable levels kernel address depth with
      | none => rfl
      | some parent =>
        simp only [bind_some]
        rw [memory parent]
        rintro rfl
        exact off _ _ reached
  have inUse : ∀ found, found ≠ frame → mappers.tables.InUse found →
      (mappers.tables.create kernel frame).InUse found :=
    fun found elsewhere => (allocate_in_use mappers.tables found frame elsewhere).mpr
  have oldRoot : ∀ root ∈ mappers.roots, root ≠ frame := by
    rintro root member rfl
    exact absurd unused (ne_of_lt (copied.inUse root member))
  refine ⟨copied.shaped.congr walks fun _ _ found reached =>
    inUse found fun same => off _ _ (same ▸ reached), ?_, ?_, ?_⟩
  · intro root member address depth
    rw [walks]
    rcases List.mem_cons.mp member with rfl | old
    · exact off address depth
    · exact copied.outside root old address depth
  · intro root member
    rcases List.mem_cons.mp member with rfl | old
    · exact allocate_in_use_self mappers.tables root unused
    · exact inUse root (oldRoot root old) (copied.inUse root old)
  · intro root member
    show (mappers.tables.create kernel frame).mem root = _
    rw [memory kernel other.symm]
    rcases List.mem_cons.mp member with rfl | old
    · funext index
      exact if_pos rfl
    · rw [memory root (oldRoot root old)]
      exact copied.same root old

theorem Copied.step {next : PageMappers} {call : KernelCall} (fits : levels ≤ 5)
    (step : call.Step levels kernel mappers next)
    (leaves : call.LeavesRoot levels kernel mappers) : Copied levels kernel next := by
  rcases step with ⟨legal, ran⟩
  cases call with
  | create frame =>
    cases ran
    exact copied.create legal.1 legal.2
  | mapPage virt physicalAddress flags supply =>
    cases ran
    refine copied.of_undisturbed (map_page_undisturbed physicalAddress flags (add_zero levels) rfl
      copied.shaped le_rfl legal.2).1 ?_
    intro created
    exact map_page_leaves_root copied.shaped legal.2 (leaves created)
  | unmapPage virt =>
    rcases map_eq_some_iff.mp ran with ⟨after, call, rfl⟩
    rcases unmap_page_undisturbed fits copied.shaped call with ⟨undisturbed, spared⟩
    exact copied.of_undisturbed undisturbed fun created => spared (leaves created)

end

/-- With four levels or five: while the pages that are mapped and unmapped after the root table of
the kernel was copied lie below entries that it has and keeps, the kernel half stays shared. -/
theorem kernel_half_shared {levels : Nat} (depths : levels = 4 ∨ levels = 5) {kernel : BitVec 64}
    {start : Tables} {final : PageMappers} {calls : List KernelCall}
    (shaped : Shaped levels kernel start)
    (run : Run (fun mappers call next => call.Step levels kernel mappers next ∧
      call.LeavesRoot levels kernel mappers) ⟨start, []⟩ calls final) :
    KernelHalfShared levels kernel final := by
  have first : Copied levels kernel ⟨start, []⟩ := ⟨shaped, nofun, nofun, nofun⟩
  have fits : levels ≤ 5 := by omega
  have copied := run_invariant (Copied levels kernel)
    (fun mappers call next holds step => holds.step fits step.1 step.2) first run
  exact copied.shared

/-! ## A root that is copied -/

def cleared : PageMappers := ⟨⟨fun _ _ => 0, [], []⟩, []⟩

/-- Consecutive frames behind the root. -/
def framesBehind (n k : Nat) : BitVec 64 := BitVec.ofNat 64 (0x2000 + (4 * n + k) * 0x1000)

theorem cleared_shaped (levels : Nat) : Shaped levels 0x1000 cleared.tables := by
  have nothing : ∀ address depth,
      cleared.tables.walkTable levels 0x1000 address (depth + 1) = none := by
    intro address depth
    rw [walkTable, bind_eq_none_iff]
    intro table _
    exact if_neg fun conditions =>
      absurd (show isPresent 0 = true from conditions.2.1) (by decide)
  constructor
  · intro one two depth depth' table first second
    cases depth with
    | succ depth =>
      rw [nothing] at first
      cases first
    | zero =>
      cases depth' with
      | succ depth' =>
        rw [nothing] at second
        cases second
      | zero => exact ⟨rfl, fun _ below => absurd below (Nat.not_lt_zero _)⟩
  · intro address depth table reached
    rw [nothing] at reached
    cases reached

theorem frames_behind_supplied {levels n : Nat} {tables : Tables} (few : levels ≤ 5) (small : n < 2)
    (unused : ∀ k < 4, tables.Unused (framesBehind n k)) :
    Supplied levels 0x1000 (framesBehind n) 0 tables where
  valid := by
    have each : ∀ n < 2, ∀ k < 4, framesBehind n k ≠ 0 ∧
        framesBehind n k &&& addressMask = framesBehind n k := by decide
    exact fun k bound => each n small k (by omega)
  notRoot := by
    have each : ∀ n < 2, ∀ k < 4, framesBehind n k ≠ 0x1000 := by decide
    exact fun k bound => each n small k (by omega)
  injective := by
    have each : ∀ n < 2, ∀ j < 4, ∀ k < 4, framesBehind n j = framesBehind n k → j = k := by decide
    exact fun j first k second => each n small j (by omega) k (by omega)
  unused := fun k bound _ => unused k (by omega)

def runFrom (mappers : PageMappers) (call : KernelCall) : PageMappers :=
  (call.run 5 0x1000 mappers).getD mappers

theorem run_from_step {mappers : PageMappers} {call : KernelCall}
    (legal : call.Legal 5 0x1000 mappers) (returns : (call.run 5 0x1000 mappers).isSome) :
    call.Step 5 0x1000 mappers (runFrom mappers call) := by
  refine ⟨legal, ?_⟩
  rcases isSome_iff_exists.mp returns with ⟨next, ran⟩
  rw [runFrom, ran, getD_some]

def mappedPages : PageMappers :=
  runFrom (runFrom cleared (.mapPage 0xFF00000000000000 0x100000 3 (framesBehind 0)))
    (.mapPage 0xFF00000000001000 0x101000 3 (framesBehind 1))

def copiedRoot : PageMappers := runFrom mappedPages (.create 0x80000)

def unmappedPage : PageMappers := runFrom copiedRoot (.unmapPage 0xFF00000000001000)

theorem first_kernel_page : KernelAddress 5 0xFF00000000000000 := ⟨by omega, by omega, by omega⟩

theorem second_kernel_page : KernelAddress 5 0xFF00000000001000 := ⟨by omega, by omega, by omega⟩

/-- Two pages are mapped, the root is copied, and the second page is unmapped and mapped again. -/
def secondPageCalls : List KernelCall :=
  [.mapPage 0xFF00000000000000 0x100000 3 (framesBehind 0),
    .mapPage 0xFF00000000001000 0x101000 3 (framesBehind 1), .create 0x80000,
    .unmapPage 0xFF00000000001000, .mapPage 0xFF00000000001000 0x102000 3 (framesBehind 1)]

theorem kernel_half_shared_second_page :
    ∃ final, Run (KernelCall.Step 5 0x1000) cleared secondPageCalls final ∧
      final.roots = [0x80000] ∧ KernelHalfShared 5 0x1000 final := by
  have run : Run (fun mappers call next => KernelCall.Step 5 0x1000 mappers call next ∧
      call.LeavesRoot 5 0x1000 mappers) cleared secondPageCalls
      (runFrom unmappedPage (.mapPage 0xFF00000000001000 0x102000 3 (framesBehind 1))) := by
    refine run_cons ⟨run_from_step ⟨first_kernel_page, ?_⟩ rfl, fun none => absurd rfl none⟩
      (run_cons ⟨run_from_step ⟨second_kernel_page, ?_⟩ rfl, fun none => absurd rfl none⟩
        (run_cons ⟨run_from_step ⟨by decide, ?_⟩ rfl, trivial⟩
          (run_cons ⟨run_from_step second_kernel_page ?_, fun _ => .inr ?_⟩
            (run_cons ⟨run_from_step ⟨second_kernel_page, ?_⟩ rfl, fun _ => ?_⟩ (.nil _)))))
    · exact frames_behind_supplied le_rfl (by decide) fun _ _ => rfl
    · exact frames_behind_supplied le_rfl (by decide) (by unfold Unused; decide +kernel)
    · unfold Unused
      decide +kernel
    · decide +kernel
    · exact ⟨4, framesBehind 0 3, 0, by decide, by decide, by decide +kernel, by decide, by decide,
        by decide +kernel⟩
    · exact frames_behind_supplied le_rfl (by decide) (by unfold Unused; decide +kernel)
    · unfold MapsBelowRoot
      decide +kernel
  exact ⟨_, run_mono (fun _ _ _ both => both.1) run, by decide +kernel,
    kernel_half_shared (.inr rfl) (cleared_shaped 5) run⟩

/-- A page of the kernel half that is mapped after a root was created is missing from it. -/
theorem later_mapping_not_shared :
    ∃ final, Run (KernelCall.Step 4 0x1000) cleared
      [.create 0x80000, .mapPage 0xFFFF800000000000 0x100000 3 (framesBehind 0)] final ∧
      ¬ KernelHalfShared 4 0x1000 final := by
  have page : KernelAddress 4 0xFFFF800000000000 := ⟨by omega, by omega, by omega⟩
  have supplied : Supplied 4 0x1000 (framesBehind 0) 0 (cleared.tables.create 0x1000 0x80000) :=
    frames_behind_supplied (by decide) (by decide) (by unfold Unused; decide)
  refine ⟨_, run_cons ⟨⟨by decide, rfl⟩, rfl⟩ (run_cons ⟨⟨page, supplied⟩, rfl⟩ (.nil _)), ?_⟩
  intro shared
  have walks := (shared 0x80000 List.mem_cons_self).1 _ page
  revert walks
  decide +kernel

end FrostyKernel.Paging
