import FrostyKernel.Paging.PageTables

/-!
# The tree of tables below a root

The tables of one depth are numbered by the indices that lead to them, as digits in
base 512. Every write of the paging code is one of three edits of this tree: flags are
added to an entry, a cleared table is hung up, an empty table is taken down.
-/

namespace FrostyKernel.Paging

open Tables List Option

def Tables.tableAt (tables : Tables) (root : BitVec 64) : Nat → Nat → Option (BitVec 64)
  | 0, number => if number = 0 then some root else none
  | depth + 1, number =>
    (tables.tableAt root depth (number / 512)).bind fun table =>
      getNextPageTable (tables.mem table (number % 512)) (4 - depth)

/-- No table has two places in the tree, and those below the root are in use. -/
structure TreeShaped (root : BitVec 64) (tables : Tables) : Prop where
  distinct : ∀ depth number depth' number' table, tables.tableAt root depth number = some table →
    tables.tableAt root depth' number' = some table → depth = depth' ∧ number = number'
  held : ∀ depth number table, tables.tableAt root (depth + 1) number = some table →
    tables.InUse table

/-! ## Updates of the memory -/

section Updates
variable (tables : Tables) (table other frame value : BitVec 64) (index position : Nat)

@[simp] theorem set_entry_same : (tables.setEntry table index value).mem table index = value :=
  if_pos ⟨rfl, rfl⟩

theorem set_entry_other (elsewhere : ¬ (other = table ∧ position = index)) :
    (tables.setEntry table index value).mem other position = tables.mem other position :=
  if_neg elsewhere

@[simp] theorem allocate_same : (tables.allocate frame).mem frame index = 0 := if_pos rfl

section
variable (elsewhere : other ≠ frame)
include elsewhere

theorem allocate_other :
    (tables.allocate frame).mem other index = tables.mem other index := if_neg elsewhere

theorem allocate_in_use : (tables.allocate frame).InUse other ↔ tables.InUse other := by
  unfold InUse allocate
  rw [count_cons_of_ne (Ne.symm elsewhere)]

theorem allocate_unused : (tables.allocate frame).Unused other ↔ tables.Unused other := by
  unfold Unused allocate
  rw [count_cons_of_ne (Ne.symm elsewhere)]

theorem free_in_use : (tables.free frame).InUse other ↔ tables.InUse other := by
  unfold InUse free
  rw [count_cons_of_ne (Ne.symm elsewhere)]

end

theorem allocate_in_use_self (unused : tables.Unused frame) :
    (tables.allocate frame).InUse frame := by
  show tables.freed.count frame < (frame :: tables.allocated).count frame
  rw [count_cons_self, unused]
  exact Nat.lt_succ_self _

end Updates

/-! ## The tree -/

section Tree
variable {root : BitVec 64} {tables : Tables} {table : BitVec 64} {depth number index : Nat}

theorem table_at_root : tables.tableAt root 0 0 = some root := if_pos rfl

theorem table_at_zero {found : BitVec 64} (here : tables.tableAt root 0 number = some found) :
    number = 0 ∧ found = root := by
  unfold tableAt at here
  split_ifs at here with zero
  exact ⟨zero, (Option.some.inj here).symm⟩

/-- A table hangs in an entry of its parent. -/
theorem table_at_succ {child : BitVec 64} :
    tables.tableAt root (depth + 1) number = some child ↔
      ∃ parent, tables.tableAt root depth (number / 512) = some parent ∧
        getNextPageTable (tables.mem parent (number % 512)) (4 - depth) = some child := by
  rw [tableAt, bind_eq_some_iff]

theorem table_at_child (here : tables.tableAt root depth number = some table)
    (inside : index < 512) :
    tables.tableAt root (depth + 1) (number * 512 + index) =
      getNextPageTable (tables.mem table index) (4 - depth) := by
  have up : (number * 512 + index) / 512 = number := by omega
  have down : (number * 512 + index) % 512 = index := by omega
  rw [tableAt, up, down, here, bind_some]

theorem table_at_depth (here : tables.tableAt root depth number = some table) : depth < 4 := by
  cases depth with
  | zero => omega
  | succ depth =>
    rcases table_at_succ.mp here with ⟨parent, _, next⟩
    have upper := (next_cases next).1
    omega

/-- The tree depends only on the tables that the entries of its tables lead to. -/
theorem table_at_congr {other : Tables}
    (same : ∀ depth number table, tables.tableAt root depth number = some table → ∀ index,
      getNextPageTable (other.mem table index) (4 - depth) =
        getNextPageTable (tables.mem table index) (4 - depth)) :
    other.tableAt root = tables.tableAt root := by
  funext depth
  induction depth with
  | zero => rfl
  | succ depth ih =>
    funext number
    rw [tableAt, tableAt, ih]
    cases found : tables.tableAt root depth (number / 512) with
    | none => rfl
    | some parent => rw [bind_some, bind_some, same _ _ _ found]

theorem table_at_set_child (shaped : TreeShaped root tables) {value : BitVec 64}
    (here : tables.tableAt root depth number = some table) (inside : index < 512)
    (oldChildless : ∀ child, getNextPageTable (tables.mem table index) (4 - depth) = some child →
      ∀ j < 512, getNextPageTable (tables.mem child j) (4 - (depth + 1)) = none)
    (newChildless : ∀ child, getNextPageTable value (4 - depth) = some child →
      child ≠ table ∧ ∀ j < 512, getNextPageTable (tables.mem child j) (4 - (depth + 1)) = none)
    (below place : Nat) :
    (tables.setEntry table index value).tableAt root below place =
      if below = depth + 1 ∧ place = number * 512 + index then getNextPageTable value (4 - depth)
      else tables.tableAt root below place := by
  induction below generalizing place with
  | zero => rw [if_neg (by omega), tableAt, tableAt]
  | succ below ih =>
    have digit : place % 512 < 512 := Nat.mod_lt _ (by omega)
    rw [tableAt, ih]
    by_cases under : below = depth + 1 ∧ place / 512 = number * 512 + index
    · -- Below the table that is replaced there is nothing, before and after.
      rcases under with ⟨rfl, parent⟩
      rw [if_pos ⟨rfl, parent⟩, if_neg (by omega), tableAt, parent, table_at_child here inside]
      have empty : ∀ found : Option (BitVec 64), ∀ tables : Tables,
          (∀ child, found = some child →
            ∀ j < 512, getNextPageTable (tables.mem child j) (4 - (depth + 1)) = none) →
          (found.bind fun table =>
            getNextPageTable (tables.mem table (place % 512)) (4 - (depth + 1))) = none := by
        intro found tables childless
        cases found with
        | none => rfl
        | some child => exact childless child rfl _ digit
      rw [empty _ _ oldChildless, empty]
      intro child next j bound
      rcases newChildless child next with ⟨other, childless⟩
      rw [set_entry_other _ _ _ _ _ _ (fun both => other both.1)]
      exact childless j bound
    · rw [if_neg under]
      rw [tableAt]
      have position : below + 1 = depth + 1 ∧ place = number * 512 + index →
          tables.tableAt root below (place / 512) = some table ∧ place % 512 = index := by
        rintro ⟨level, rfl⟩
        have up : (number * 512 + index) / 512 = number := by omega
        have same : below = depth := by omega
        rw [same, up]
        exact ⟨here, by omega⟩
      cases found : tables.tableAt root below (place / 512) with
      | none =>
        rw [if_neg fun both => by cases found.symm.trans (position both).1]
        rfl
      | some parent =>
        rw [bind_some, bind_some]
        by_cases written : parent = table ∧ place % 512 = index
        · rcases written with ⟨rfl, rfl⟩
          rcases shaped.distinct _ _ _ _ _ found here with ⟨rfl, rfl⟩
          rw [set_entry_same, if_pos ⟨rfl, by omega⟩]
        · rw [set_entry_other _ _ _ _ _ _ written, if_neg]
          intro both
          obtain ⟨there, digit⟩ := position both
          exact written ⟨Option.some.inj (found.symm.trans there), digit⟩

theorem empty_not_present :
    tables.isEmpty table = true ↔ ∀ j < 512, isPresent (tables.mem table j) = false := by
  unfold Tables.isEmpty
  simp

end Tree

/-! ## The three edits -/

def Outside (root : BitVec 64) (tables : Tables) (frame : BitVec 64) : Prop :=
  ∀ depth number, tables.tableAt root depth number ≠ some frame

theorem unused_outside {root frame : BitVec 64} {tables : Tables} (shaped : TreeShaped root tables)
    (other : frame ≠ root) (unused : tables.Unused frame) : Outside root tables frame := by
  intro depth number here
  cases depth with
  | zero => exact other (table_at_zero here).2
  | succ depth =>
    have held := shaped.held _ _ _ here
    unfold Unused at unused
    unfold InUse at held
    omega

def Tables.hang (tables : Tables) (table : BitVec 64) (index : Nat) (frame : BitVec 64)
    (flags : BitVec 32) : Tables :=
  (tables.allocate frame).setEntry table index (frame ||| tableFlags flags ||| 1)

def Tables.takeDown (tables : Tables) (table : BitVec 64) (index : Nat) (child : BitVec 64) :
    Tables :=
  (tables.free child).setEntry table index 0

section Premises
variable (root : BitVec 64) (tables : Tables) (depth number : Nat) (table : BitVec 64)
  (index : Nat)

/-- The entry is written, and leads to the next table as before. -/
structure Keeps (value : BitVec 64) : Prop where
  shaped : TreeShaped root tables
  here : tables.tableAt root depth number = some table
  same : getNextPageTable value (4 - depth) = getNextPageTable (tables.mem table index) (4 - depth)

/-- A new table goes where there is none. -/
structure Hangs (frame : BitVec 64) : Prop where
  shaped : TreeShaped root tables
  here : tables.tableAt root depth number = some table
  inside : index < 512
  upper : depth < 3
  vacant : getNextPageTable (tables.mem table index) (4 - depth) = none
  valid : ValidFrame frame
  outside : Outside root tables frame
  unused : tables.Unused frame

/-- The table below the entry is empty. -/
structure TakesDown (child : BitVec 64) : Prop where
  shaped : TreeShaped root tables
  here : tables.tableAt root depth number = some table
  inside : index < 512
  next : getNextPageTable (tables.mem table index) (4 - depth) = some child
  empty : tables.isEmpty child = true

end Premises

section Edits
variable {root : BitVec 64} {tables : Tables} {table : BitVec 64} {depth number index : Nat}
  {value frame child : BitVec 64}

theorem Keeps.tree (keeps : Keeps root tables depth number table index value) :
    (tables.setEntry table index value).tableAt root = tables.tableAt root := by
  refine table_at_congr fun below place parent found child => ?_
  by_cases written : parent = table ∧ child = index
  · rcases written with ⟨rfl, rfl⟩
    rw [set_entry_same, (keeps.shaped.distinct _ _ _ _ _ found keeps.here).1, keeps.same]
  · rw [set_entry_other _ _ _ _ _ _ written]

theorem Keeps.shape (keeps : Keeps root tables depth number table index value) :
    TreeShaped root (tables.setEntry table index value) := by
  constructor
  · rw [keeps.tree]
    exact keeps.shaped.distinct
  · rw [keeps.tree]
    exact keeps.shaped.held

theorem Hangs.tree (hangs : Hangs root tables depth number table index frame)
    (flags : BitVec 32) (below place : Nat) :
    (tables.hang table index frame flags).tableAt root below place =
      if below = depth + 1 ∧ place = number * 512 + index then some frame
      else tables.tableAt root below place := by
  obtain ⟨shaped, here, inside, upper, vacant, valid, outside, _⟩ := hangs
  have tree : (tables.allocate frame).tableAt root = tables.tableAt root := by
    refine table_at_congr fun below place found present position => ?_
    have elsewhere : found ≠ frame := fun same => outside _ _ (same ▸ present)
    rw [allocate_other _ _ _ _ elsewhere]
  have other : table ≠ frame := fun same => outside _ _ (same ▸ here)
  have allocatedShaped : TreeShaped root (tables.allocate frame) := by
    constructor
    · rw [tree]
      exact shaped.distinct
    · rw [tree]
      intro below place found present
      have elsewhere : found ≠ frame := fun same => outside _ _ (same ▸ present)
      exact (allocate_in_use _ _ _ elsewhere).mpr (shaped.held _ _ _ present)
  have next := (links_new valid flags).next (show 2 ≤ 4 - depth by omega)
  unfold Tables.hang
  rw [table_at_set_child allocatedShaped (tree ▸ here) inside, next, tree]
  · intro child found
    rw [allocate_other _ _ _ _ other, vacant] at found
    cases found
  · intro child found
    rw [next] at found
    cases found
    refine ⟨Ne.symm other, ?_⟩
    intro j _
    rw [allocate_same]
    exact next_zero _

theorem Hangs.shape (hangs : Hangs root tables depth number table index frame)
    (flags : BitVec 32) : TreeShaped root (tables.hang table index frame flags) := by
  constructor
  · intro below place below' place' found one two
    rw [hangs.tree] at one two
    split_ifs at one two with first second second
    · exact ⟨first.1.trans second.1.symm, first.2.trans second.2.symm⟩
    · cases one
      exact absurd two (hangs.outside _ _)
    · cases two
      exact absurd one (hangs.outside _ _)
    · exact hangs.shaped.distinct _ _ _ _ _ one two
  · intro below place found one
    rw [hangs.tree] at one
    split_ifs at one with new
    · cases one
      exact allocate_in_use_self _ _ hangs.unused
    · have elsewhere : found ≠ frame := fun same => hangs.outside _ _ (same ▸ one)
      exact (allocate_in_use _ _ _ elsewhere).mpr (hangs.shaped.held _ _ _ one)

section
variable (takes : TakesDown root tables depth number table index child)
include takes

theorem TakesDown.tree (below place : Nat) :
    (tables.takeDown table index child).tableAt root below place =
      if below = depth + 1 ∧ place = number * 512 + index then none
      else tables.tableAt root below place := by
  have same : (tables.takeDown table index child).tableAt root =
      (tables.setEntry table index 0).tableAt root := table_at_congr fun _ _ _ _ _ => rfl
  rw [same, table_at_set_child takes.shaped takes.here takes.inside, next_zero]
  · intro other found j bound
    rw [takes.next] at found
    cases found
    exact next_of_not_present (empty_not_present.mp takes.empty j bound) _
  · intro other found
    rw [next_zero] at found
    cases found

theorem TakesDown.child_here :
    tables.tableAt root (depth + 1) (number * 512 + index) = some child := by
  rw [table_at_child takes.here takes.inside, takes.next]

theorem TakesDown.shape : TreeShaped root (tables.takeDown table index child) := by
  constructor
  · intro below place below' place' found one two
    rw [takes.tree] at one two
    split_ifs at one two
    exact takes.shaped.distinct _ _ _ _ _ one two
  · intro below place found one
    rw [takes.tree] at one
    split_ifs at one with gone
    have elsewhere : found ≠ child := by
      rintro rfl
      exact gone (takes.shaped.distinct _ _ _ _ _ one takes.child_here)
    exact (free_in_use _ _ _ elsewhere).mpr (takes.shaped.held _ _ _ one)

end
end Edits
end FrostyKernel.Paging
