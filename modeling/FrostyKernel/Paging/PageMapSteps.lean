import FrostyKernel.Paging.PageMap

/-!
# The operations on the map of pages

Each edit of the tree keeps the map that it represents, or changes it at one page. With
the rules for the loops, `x86_64_MapPage`, `x86_64_RemapPage` and `x86_64_UnmapPage`
update the map at their page, and leave no table without a page below it.
-/

namespace FrostyKernel.Paging

open Tables Function List Option

section Edits
variable {root : BitVec 64} {map : Nat → Option Mapping} {tables : Tables}
  {depth number index : Nat} {table : BitVec 64}

/-- Tables of different depths are different. -/
theorem TreeShaped.other_depth (shaped : TreeShaped root tables) {depth' number' : Nat}
    {other : BitVec 64} (here : tables.tableAt root depth number = some table)
    (there : tables.tableAt root depth' number' = some other) (differ : depth ≠ depth') :
    other ≠ table := by
  rintro rfl
  exact differ (shaped.distinct _ _ _ _ _ here there).1

variable (represents : Represents root map tables)
include represents
variable {child : BitVec 64}

theorem Represents.set_upper {value : BitVec 64}
    (keeps : Keeps root tables depth number table index value) (upper : depth < 3)
    (links : Links value child)
    (more : ∀ flags, Grants (tables.mem table index) flags → Grants value flags) :
    Represents root map (tables.setEntry table index value) := by
  have tree := keeps.tree
  constructor
  · intro below place other i bound found inside
    rw [tree] at found
    by_cases written : other = table ∧ i = index
    · rw [written.1, written.2, set_entry_same]
      exact .inr ⟨child, links⟩
    · rw [set_entry_other _ _ _ _ _ _ written]
      exact represents.upper below place other i bound found inside
  · intro place other i found inside
    rw [tree] at found
    have elsewhere := keeps.shaped.other_depth keeps.here found (by omega)
    rw [set_entry_other _ _ _ _ _ _ fun both => elsewhere both.1]
    exact represents.last place other i found inside
  · rw [tree]
    exact represents.mapped
  · intro page mapping level below other mapped total bound found
    rw [tree] at found
    have grants := represents.rights page mapping level below other mapped total bound found
    by_cases written : other = table ∧ page / 512 ^ level % 512 = index
    · rw [written.1, written.2] at grants ⊢
      rw [set_entry_same]
      exact more _ grants
    · rw [set_entry_other _ _ _ _ _ _ written]
      exact grants
  · rw [tree]
    exact represents.owned
  · rw [tree]
    exact represents.returned

/-- A cleared table is hung up where nothing is mapped. -/
theorem Represents.hang {frame : BitVec 64}
    (hangs : Hangs root tables depth number table index frame) (flags : BitVec 32) :
    Represents root map (tables.hang table index frame flags) := by
  have tree := hangs.tree flags
  obtain ⟨shaped, here, inside, upper, vacant, valid, outside, unused⟩ := hangs
  have none : tables.tableAt root (depth + 1) (number * 512 + index) = none := by
    rw [table_at_child here inside, vacant]
  have memory : ∀ other i, other ≠ frame → ¬ (other = table ∧ i = index) →
      (tables.hang table index frame flags).mem other i = tables.mem other i := by
    intro other i notFrame elsewhere
    unfold Tables.hang
    rw [set_entry_other _ _ _ _ _ _ elsewhere, allocate_other _ _ _ _ notFrame]
  have notTable : frame ≠ table := fun same => outside _ _ (same ▸ here)
  have cleared : ∀ i, (tables.hang table index frame flags).mem frame i = 0 := by
    intro i
    unfold Tables.hang
    rw [set_entry_other _ _ _ _ _ _ fun both => notTable both.1, allocate_same]
  have notFrame : ∀ {below place : Nat} {other : BitVec 64},
      tables.tableAt root below place = some other → other ≠ frame :=
    fun found same => outside _ _ (same ▸ found)
  -- A mapped page does not pass the new table, for the table was missing.
  have unmapped : ∀ page mapping level, map page = some mapping → level + 1 + (depth + 1) = 4 →
      page / 512 ^ (level + 1) ≠ number * 512 + index := by
    intro page mapping level mapped total same
    rcases represents.path mapped total with ⟨child, found⟩
    rw [same, none] at found
    cases found
  constructor
  · intro below place other i bound found small
    rw [tree] at found
    split_ifs at found with new
    · cases found
      exact .inl (cleared i)
    by_cases written : other = table ∧ i = index
    · right
      refine ⟨frame, ?_⟩
      unfold Tables.hang
      rw [written.1, written.2, set_entry_same]
      exact links_new valid flags
    · rw [memory other i (notFrame found) written]
      exact represents.upper below place other i bound found small
  · intro place other i found small
    rw [tree] at found
    split_ifs at found with new
    · cases found
      cases mapped : map (place * 512 + i) with
      | none => exact cleared i
      | some mapping =>
        refine absurd ?_ (unmapped _ mapping 0 mapped (by omega))
        rw [← new.2]
        omega
    · have elsewhere := shaped.other_depth here found (by omega)
      rw [memory other i (notFrame found) fun both => elsewhere both.1]
      exact represents.last place other i found small
  · intro page mapping mapped
    rcases represents.mapped page mapping mapped with ⟨other, found⟩
    refine ⟨other, ?_⟩
    rw [tree, if_neg, found]
    rintro ⟨bottom, same⟩
    cases (show depth = 2 by omega)
    rw [same, none] at found
    cases found
  · intro page mapping level below other mapped total bound found
    rw [tree] at found
    split_ifs at found with new
    · cases new.1
      exact absurd new.2 (unmapped page mapping level mapped total)
    have grants := represents.rights page mapping level below other mapped total bound found
    by_cases written : other = table ∧ page / 512 ^ level % 512 = index
    · rcases written with ⟨rfl, rfl⟩
      rcases shaped.distinct _ _ _ _ _ found here with ⟨rfl, rfl⟩
      cases level with
      | zero => omega
      | succ level =>
        refine absurd ?_ (unmapped page mapping level mapped (by omega))
        rw [← number_up page (level + 1)]
        omega
    · rw [memory other _ (notFrame found) written]
      exact grants
  · intro below place other found
    rw [tree] at found
    show (frame :: tables.allocated).count other = tables.freed.count other + 1
    split_ifs at found with new
    · cases found
      rw [count_cons_self, unused]
    · rw [count_cons_of_ne (notFrame found).symm]
      exact represents.owned below place other found
  · intro other nowhere
    have notNew : other ≠ frame := by
      rintro rfl
      refine nowhere depth (number * 512 + index) ?_
      rw [tree, if_pos ⟨rfl, rfl⟩]
    refine (allocate_unused _ _ _ notNew).mpr (represents.returned other ?_)
    intro below place found
    refine nowhere below place ?_
    rw [tree, if_neg, found]
    rintro ⟨deeper, same⟩
    rw [deeper, same, none] at found
    cases found

def PathGrants (root : BitVec 64) (tables : Tables) (page : Nat) (flags : BitVec 32)
    (depth : Nat) : Prop :=
  ∀ level above table, level + 1 + above = 4 → above < depth → above < 3 →
    tables.tableAt root above (page / 512 ^ (level + 1)) = some table →
    Grants (tables.mem table (page / 512 ^ level % 512)) flags

theorem Represents.set_last {page : Nat} (new : Option Mapping)
    (keeps : Keeps root tables 3 (page / 512) table (page % 512) (entryOf new))
    (granted : ∀ mapping, new = some mapping → PathGrants root tables page mapping.flags 3) :
    Represents root (update map page new) (tables.setEntry table (page % 512) (entryOf new)) := by
  have tree := keeps.tree
  obtain ⟨shaped, here, _⟩ := keeps
  have memory : ∀ {depth number i : Nat} {other : BitVec 64}, depth < 3 →
      tables.tableAt root depth number = some other →
      (tables.setEntry table (page % 512) (entryOf new)).mem other i = tables.mem other i := by
    intro depth number i other bound found
    have elsewhere := shaped.other_depth here found (by omega)
    exact set_entry_other _ _ _ _ _ _ fun both => elsewhere both.1
  constructor
  · intro depth number other i bound found inside
    rw [tree] at found
    rw [memory bound found]
    exact represents.upper depth number other i bound found inside
  · intro number other i found inside
    rw [tree] at found
    by_cases written : other = table ∧ i = page % 512
    · rcases written with ⟨rfl, rfl⟩
      have same := (shaped.distinct _ _ _ _ _ found here).2
      rw [set_entry_same, same, Nat.div_add_mod' page 512, update_self]
    · rw [set_entry_other _ _ _ _ _ _ written, represents.last number other i found inside,
        update_of_ne]
      intro same
      have number' : number = page / 512 := by omega
      rw [number', here] at found
      exact written ⟨(Option.some.inj found).symm, by omega⟩
  · intro other mapping mapped
    rw [tree]
    by_cases same : other = page
    · exact ⟨table, same ▸ here⟩
    · rw [update_of_ne same] at mapped
      exact represents.mapped other mapping mapped
  · intro other mapping level depth found mapped total bound above
    rw [tree] at above
    rw [memory bound above]
    by_cases same : other = page
    · rw [same] at mapped above ⊢
      rw [update_self] at mapped
      exact granted mapping mapped level depth found total bound bound above
    · rw [update_of_ne same] at mapped
      exact represents.rights other mapping level depth found mapped total bound above
  · rw [tree]
    exact represents.owned
  · rw [tree]
    exact represents.returned

/-- An empty table is taken down. -/
theorem Represents.take_down (takes : TakesDown root tables depth number table index child) :
    Represents root map (tables.takeDown table index child) := by
  have tree := takes.tree
  have childHere := takes.child_here
  obtain ⟨shaped, here, inside, next, empty⟩ := takes
  have upper : depth < 3 := by
    have deeper := table_at_depth childHere
    omega
  have memory : ∀ other i, ¬ (other = table ∧ i = index) →
      (tables.takeDown table index child).mem other i = tables.mem other i :=
    fun other i elsewhere => set_entry_other (tables.free child) table other 0 index i elsewhere
  -- A mapped page does not pass the child, for the child is empty.
  have unmapped : ∀ page mapping level, map page = some mapping → level + 1 + (depth + 1) = 4 →
      page / 512 ^ (level + 1) ≠ number * 512 + index := by
    intro page mapping level mapped total same
    rw [← same] at childHere
    have full := represents.not_below_empty mapped total childHere
    rw [empty] at full
    cases full
  constructor
  · intro below place other i bound found small
    rw [tree] at found
    split_ifs at found
    by_cases written : other = table ∧ i = index
    · left
      unfold takeDown
      rw [written.1, written.2, set_entry_same]
    · rw [memory other i written]
      exact represents.upper below place other i bound found small
  · intro place other i found small
    rw [tree] at found
    split_ifs at found
    have elsewhere := shaped.other_depth here found (by omega)
    rw [memory other i fun both => elsewhere both.1]
    exact represents.last place other i found small
  · intro page mapping mapped
    rcases represents.mapped page mapping mapped with ⟨other, found⟩
    refine ⟨other, ?_⟩
    rw [tree, if_neg, found]
    rintro ⟨bottom, same⟩
    refine unmapped page mapping 0 mapped (by omega) ?_
    rw [zero_add, pow_one]
    exact same
  · intro page mapping level below other mapped total bound found
    rw [tree] at found
    split_ifs at found
    have grants := represents.rights page mapping level below other mapped total bound found
    by_cases written : other = table ∧ page / 512 ^ level % 512 = index
    · rcases written with ⟨rfl, rfl⟩
      rcases shaped.distinct _ _ _ _ _ found here with ⟨rfl, rfl⟩
      cases level with
      | zero => omega
      | succ level =>
        refine absurd ?_ (unmapped page mapping level mapped (by omega))
        rw [← number_up page (level + 1)]
        omega
    · rw [memory other _ written]
      exact grants
  · intro below place other found
    rw [tree] at found
    split_ifs at found with gone
    have elsewhere : child ≠ other := by
      rintro rfl
      exact gone (shaped.distinct _ _ _ _ _ found childHere)
    show tables.allocated.count other = (child :: tables.freed).count other + 1
    rw [count_cons_of_ne elsewhere]
    exact represents.owned below place other found
  · intro other nowhere
    show (child :: tables.freed).count other = tables.allocated.count other
    by_cases same : child = other
    · rw [← same, count_cons_self]
      exact (represents.owned _ _ _ childHere).symm
    rw [count_cons_of_ne same]
    refine represents.returned other ?_
    intro below place found
    refine nowhere below place ?_
    rw [tree, if_neg, found]
    rintro ⟨deeper, place'⟩
    rw [deeper, place', childHere] at found
    exact same (Option.some.inj found)

end Edits

/-! ## The operations -/

section Operations
variable {root : BitVec 64} {map : Nat → Option Mapping} {tables : Tables} {virt : Nat}

def OnPath (page depth number : Nat) : Prop := number = page / 512 ^ (4 - depth)

/-- While a page is being mapped, the tables above it need not be filled yet. -/
structure Mapping.Underway (root : BitVec 64) (map : Nat → Option Mapping) (page : Nat)
    (flags : BitVec 32) (depth : Nat) (tables : Tables) : Prop where
  represents : Represents root map tables
  filled : FilledBut root map tables (OnPath page)
  granted : PathGrants root tables page flags depth

variable {depth level : Nat} {table : BitVec 64} {flags : BitVec 32} {mapping : Mapping}

/-- Flags are added to an entry on the path. -/
theorem Mapping.Underway.add {next : BitVec 64}
    (position : At root tables virt (level + 1) depth table)
    (underway : Mapping.Underway root map (pageOf virt) flags depth tables)
    (found : getNextPageTable (tables.mem table (entryIndex virt (level + 1)))
      (level + 1) = some next) :
    Mapping.Underway root map (pageOf virt) flags (depth + 1)
      (tables.setEntry table (entryIndex virt (level + 1))
        (addFlags (tables.mem table (entryIndex virt (level + 1))) flags)) := by
  have total := position.total
  have upper := (next_cases found).1
  have keeps := position.adds flags found
  have links : ∃ child, Links (tables.mem table (entryIndex virt (level + 1))) child := by
    rcases underway.represents.upper depth _ table _ (by omega) position.here
      (entry_index_lt virt (level + 1)) with zero | links
    · rw [zero, next_zero] at found
      cases found
    · exact links
  rcases links with ⟨child, links⟩
  constructor
  · exact underway.represents.set_upper keeps (by omega) (links.add_flags flags)
      fun more grants => grants.add_flags flags
  · unfold FilledBut
    rw [keeps.tree]
    exact underway.filled
  · intro level' above other total' bound small here
    rw [keeps.tree] at here
    by_cases written : other = table ∧
        pageOf virt / 512 ^ level' % 512 = entryIndex virt (level + 1)
    · rw [written.1, written.2, set_entry_same]
      exact grants_add_flags _ flags
    rw [set_entry_other _ _ _ _ _ _ written]
    refine underway.granted level' above other total' ?_ small here
    by_contra notBelow
    have same : above = depth := by omega
    cases same
    cases (show level' = level by omega)
    rw [position.here] at here
    exact written ⟨(Option.some.inj here).symm, (entry_index_eq virt (by omega)).symm⟩

/-- A new table is hung up on the path. -/
theorem Mapping.Underway.hang {frame : BitVec 64}
    (position : At root tables virt (level + 2) depth table)
    (underway : Mapping.Underway root map (pageOf virt) flags depth tables)
    (hangs : Hangs root tables depth (pageOf virt / 512 ^ (level + 2)) table
      (entryIndex virt (level + 2)) frame) :
    Mapping.Underway root map (pageOf virt) flags (depth + 1)
      (tables.hang table (entryIndex virt (level + 2)) frame flags) := by
  have total := position.total
  have tree := hangs.tree flags
  rw [path_number virt (show level + 1 < 4 by omega)] at tree
  constructor
  · exact underway.represents.hang hangs flags
  · intro level' below number other total' here notOnPath
    rw [tree] at here
    split_ifs at here with new
    · refine absurd ?_ notOnPath
      rw [new.1, new.2, OnPath, show 4 - (depth + 1) = level + 1 by omega]
    · exact underway.filled level' below number other total' here notOnPath
  · intro level' above other total' bound small here
    rw [tree, if_neg (by omega)] at here
    have notFrame : other ≠ frame := fun same => hangs.outside _ _ (same ▸ here)
    unfold Tables.hang
    by_cases written : other = table ∧
        pageOf virt / 512 ^ level' % 512 = entryIndex virt (level + 2)
    · rw [written.1, written.2, set_entry_same]
      exact grants_new frame flags
    rw [set_entry_other _ _ _ _ _ _ written, allocate_other _ _ _ _ notFrame]
    refine underway.granted level' above other total' ?_ small here
    by_contra notBelow
    have same : above = depth := by omega
    cases same
    cases (show level' = level + 1 by omega)
    rw [position.here] at here
    exact written ⟨(Option.some.inj here).symm, (entry_index_eq virt (by omega)).symm⟩

def Filled (root : BitVec 64) (map : Nat → Option Mapping) (tables : Tables) : Prop :=
  FilledBut root map tables fun _ _ => False

/-- The entry of the page is written, and the page fills the tables above it. -/
theorem Mapping.Underway.finish (mapping : Mapping) (position : At root tables virt 1 3 table)
    (underway : Mapping.Underway root map (pageOf virt) mapping.flags 3 tables) :
    Represents root (update map (pageOf virt) (some mapping))
        (tables.setEntry table (entryIndex virt 1) mapping.entry) ∧
      Filled root (update map (pageOf virt) (some mapping))
        (tables.setEntry table (entryIndex virt 1) mapping.entry) := by
  have index := entry_index_eq virt (show 0 < 4 by omega)
  rw [zero_add, pow_zero, Nat.div_one] at index
  have keeps := position.writes mapping.entry
  have tree := keeps.tree
  rw [pow_one, index] at keeps
  constructor
  · rw [index]
    refine underway.represents.set_last (some mapping) keeps ?_
    intro other isMapping
    cases isMapping
    exact underway.granted
  · intro level depth number other total found _
    rw [tree] at found
    by_cases onPath : OnPath (pageOf virt) (depth + 1) number
    · refine ⟨pageOf virt, mapping, update_self _ _ _, ?_⟩
      rw [OnPath, show 4 - (depth + 1) = level by omega] at onPath
      exact onPath.symm
    · rcases underway.filled level depth number other total found onPath with
        ⟨page, below, mapped, passes⟩
      by_cases samePage : page = pageOf virt
      · exact ⟨page, mapping, by rw [samePage, update_self], passes⟩
      · exact ⟨page, below, by rw [update_of_ne samePage, mapped], passes⟩

theorem underway_start (represents : Represents root map tables) (filled : Filled root map tables)
    (page : Nat) (flags : BitVec 32) : Mapping.Underway root map page flags 0 tables where
  represents := represents
  filled := fun level depth number table total here _ =>
    filled level depth number table total here id
  granted := fun _ above _ _ bound => absurd bound (Nat.not_lt_zero above)

theorem map_page_represents (shaped : TreeShaped root tables)
    (represents : Represents root map tables) (filled : Filled root map tables)
    (physicalAddress : BitVec 64) (flags : BitVec 32) {supply : Nat → BitVec 64}
    (fresh : Fresh root supply tables) :
    TreeShaped root (mapPage virt physicalAddress flags supply 4 0 root tables) ∧
      Represents root (update map (pageOf virt) (some (.of physicalAddress flags)))
        (mapPage virt physicalAddress flags supply 4 0 root tables) ∧
      Filled root (update map (pageOf virt) (some (.of physicalAddress flags)))
        (mapPage virt physicalAddress flags supply 4 0 root tables) := by
  refine map_page_rule (Mapping.Underway root map (pageOf virt) flags)
    (fun final => Represents root _ final ∧ Filled root _ final) ?_ ?_ ?_ ?_ shaped fresh
    (underway_start represents filled _ flags)
  · intro level depth table next tables position underway found
    exact underway.add position found
  · intro level depth table k tables position underway hangs
    exact underway.hang position hangs
  · -- There are no large pages in a tree that represents a map.
    intro level depth table tables position underway large
    have total := position.total
    unfold isLarge at large
    simp only [Bool.and_eq_true, Bool.or_eq_true, decide_eq_true_eq] at large
    rcases large with ⟨⟨levels, size⟩, present⟩
    rcases underway.represents.upper depth _ table _ (by omega) position.here
      (entry_index_lt virt (level + 1)) with zero | ⟨child, links⟩
    · rw [zero, zero_not_present] at present
      cases present
    · rw [links.small] at size
      cases size
  · intro table tables position underway
    exact underway.finish (.of physicalAddress flags) position

theorem remap_page_represents (shaped : TreeShaped root tables)
    (represents : Represents root map tables) (filled : Filled root map tables) (flags : BitVec 32)
    (mapped : map (pageOf virt) = some mapping) :
    TreeShaped root (remapPage virt flags 4 root tables) ∧
      Represents root (update map (pageOf virt) (some { mapping with flags := flags }))
        (remapPage virt flags 4 root tables) ∧
      Filled root (update map (pageOf virt) (some { mapping with flags := flags }))
        (remapPage virt flags 4 root tables) := by
  refine remap_page_rule (Mapping.Underway root map (pageOf virt) flags)
    (fun final => Represents root _ final ∧ Filled root _ final) ?_ ?_ ?_ shaped
    (underway_start represents filled _ flags)
  · intro level depth table next tables position underway found
    exact underway.add position found
  · intro level depth table tables position underway missing
    rcases underway.represents.next mapped position.total position.here with ⟨child, below, _⟩
    have found := position.child
    rw [missing, below] at found
    cases found
  · intro table tables position underway
    have index := entry_index_eq virt (show 0 < 4 by omega)
    rw [zero_add, pow_zero, Nat.div_one] at index
    have here := position.here
    rw [pow_one] at here
    have entry := underway.represents.last_entry here
    rw [mapped, ← index] at entry
    rw [entry, entryOf, map_some, getD_some, mapping.entry_address]
    exact underway.finish { mapping with flags := flags } position

/-! ## Unmapping -/

def OnPathAbove (page deepest depth number : Nat) : Prop := depth ≤ deepest ∧ OnPath page depth number

theorem clear_page_mapped (represents : Represents root map tables)
    (mapped : map (pageOf virt) = some mapping) :
    ∀ {level depth : Nat} {table : BitVec 64} (stack : List (BitVec 64 × Nat)),
      At root tables virt (level + 1) depth table →
      clearPage virt (level + 1) table stack tables ≠ none := by
  intro level
  induction level with
  | zero =>
    intro depth table stack _ missing
    unfold clearPage at missing
    cases missing
  | succ level ih =>
    intro depth table stack position missing
    have total := position.total
    rcases represents.next mapped total position.here with ⟨child, below, _⟩
    have found := position.child
    rw [below] at found
    unfold clearPage at missing
    simp only [if_neg (show ¬ level + 1 + 1 = 1 by omega), ← found] at missing
    exact ih _ ⟨position.shaped, by omega, below⟩ missing

theorem filled_of_not_empty (represents : Represents root map tables) {child : BitVec 64}
    (position : At root tables virt level (depth + 1) child)
    (filled : FilledBut root map tables (OnPathAbove (pageOf virt) (depth + 1)))
    (notEmpty : tables.isEmpty child = false) : Filled root map tables := by
  have total := position.total
  have entry : ∃ j < 512, isPresent (tables.mem child j) = true := by
    by_contra none
    have empty : tables.isEmpty child = true := by
      rw [empty_not_present]
      intro j bound
      by_contra present
      exact none ⟨j, bound, by simpa using present⟩
    rw [empty] at notEmpty
    cases notEmpty
  rcases entry with ⟨j, bound, present⟩
  -- A page below the child.
  have below : ∃ page mapping, map page = some mapping ∧
      page / 512 ^ level = pageOf virt / 512 ^ level := by
    by_cases bottom : depth = 2
    · subst bottom
      cases (show level = 1 by omega)
      have entry := represents.last _ child j position.here bound
      rw [pow_one] at entry ⊢
      cases found : map (pageOf virt / 512 * 512 + j) with
      | none =>
        rw [found] at entry
        rw [entry] at present
        cases present
      | some mapping => exact ⟨_, mapping, found, by omega⟩
    · cases level with
      | zero =>
        have deep := table_at_depth position.here
        omega
      | succ level =>
        rcases represents.upper (depth + 1) _ child j (by omega) position.here bound with
          zero | ⟨lower, links⟩
        · rw [zero] at present
          cases present
        have next := table_at_child position.here bound
        rw [links.next (by omega)] at next
        have notSpared : ¬ OnPathAbove (pageOf virt) (depth + 1) (depth + 1 + 1)
            (pageOf virt / 512 ^ (level + 1) * 512 + j) := by
          intro spared
          have deep := spared.1
          omega
        rcases filled level (depth + 1) _ lower (by omega) next notSpared with
          ⟨page, mapping, mapped, passes⟩
        refine ⟨page, mapping, mapped, ?_⟩
        rw [← number_up, passes]
        omega
  rcases below with ⟨page, mapping, mapped, passes⟩
  intro level' depth' number table total' here _
  by_cases spared : OnPathAbove (pageOf virt) (depth + 1) (depth' + 1) number
  · refine ⟨page, mapping, mapped, ?_⟩
    rcases spared with ⟨above, onPath⟩
    rw [onPath, show 4 - (depth' + 1) = level' by omega]
    exact number_above (by omega) passes
  · exact filled level' depth' number table total' here spared

def Shrinks (root : BitVec 64) (before after : Tables) : Prop :=
  ∀ depth number table, after.tableAt root depth number = some table →
    before.tableAt root depth number = some table

theorem unmap_page_represents (shaped : TreeShaped root tables)
    (represents : Represents root map tables) (filled : Filled root map tables) :
    TreeShaped root (unmapPage virt root tables) ∧
      Represents root (update map (pageOf virt) none) (unmapPage virt root tables) ∧
      Filled root (update map (pageOf virt) none) (unmapPage virt root tables) ∧
      Shrinks root tables (unmapPage virt root tables) := by
  refine unmap_page_rule
    (fun depth current =>
      Represents root (update map (pageOf virt) none) current ∧
      FilledBut root (update map (pageOf virt) none) current
        (OnPathAbove (pageOf virt) depth) ∧ Shrinks root tables current)
    (fun final => Represents root _ final ∧ Filled root _ final ∧ Shrinks root tables final)
    ?_ ?_ ?_ ?_ ?_ shaped
  · intro level depth child current position holds notEmpty
    exact ⟨holds.1, filled_of_not_empty holds.1 position holds.2.1 notEmpty, holds.2.2⟩
  · intro level depth table child current position holds takes
    rcases holds with ⟨represents, filled, shrinks⟩
    have total := position.total
    have tree := takes.tree
    rw [path_number virt (show level < 4 by omega)] at tree
    refine ⟨represents.take_down takes, ?_, ?_⟩
    · intro level' depth' number other total' here notSpared
      rw [tree] at here
      split_ifs at here with gone
      refine filled level' depth' number other total' here ?_
      rintro ⟨bound, onPath⟩
      by_cases same : depth' = depth
      · refine gone ⟨by omega, ?_⟩
        rw [onPath, show 4 - (depth' + 1) = level by omega]
      · exact notSpared ⟨by omega, onPath⟩
    · intro depth' number other here
      rw [tree] at here
      split_ifs at here
      exact shrinks depth' number other here
  · intro current _ holds
    refine ⟨holds.1, ?_, holds.2.2⟩
    intro level depth number table total here _
    refine holds.2.1 level depth number table total here ?_
    rintro ⟨bound, _⟩
    omega
  · intro missing
    have unmapped : map (pageOf virt) = none := by
      by_contra notNone
      rcases ne_none_iff_exists'.mp notNone with ⟨mapping, mapped⟩
      exact clear_page_mapped represents mapped [] (at_root shaped) missing
    have same : update map (pageOf virt) none = map := by
      rw [← unmapped]
      exact update_eq_self _ _
    rw [same]
    exact ⟨represents, filled, fun _ _ _ here => here⟩
  · intro table position
    have index := entry_index_eq virt (show 0 < 4 by omega)
    rw [zero_add, pow_zero, Nat.div_one] at index
    have keeps := position.writes 0
    have tree := keeps.tree
    rw [pow_one, index] at keeps
    refine ⟨?_, ?_, ?_⟩
    · rw [index]
      exact represents.set_last none keeps fun _ impossible => nomatch impossible
    · intro level depth number other total found notSpared
      rw [tree] at found
      have deep := table_at_depth found
      rcases filled level depth number other total found id with ⟨page, mapping, mapped, passes⟩
      refine ⟨page, mapping, ?_, passes⟩
      rw [update_of_ne, mapped]
      rintro rfl
      refine notSpared ⟨by omega, ?_⟩
      rw [OnPath, show 4 - (depth + 1) = level by omega, passes]
    · intro depth number other found
      rw [tree] at found
      exact found

end Operations
end FrostyKernel.Paging
