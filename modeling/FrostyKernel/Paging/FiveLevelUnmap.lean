import FrostyKernel.Paging.Remapping

/-!
# Unmapping a page below more than four levels

`x86_64_UnmapPage` records the entries on the path of the page in `entryStack[4]`, and its
second loop runs up to the number of levels. With four levels the loop ends at the entry
that was never recorded. With five all entries are recorded, and when every table on the
path has become empty the loop reads behind the stack.
-/

namespace FrostyKernel.Paging

open Tables List Option

/-- `uint64_t entryStack[4]`. -/
def entryStackSize : Nat := 4

/-- The second loop of `x86_64_UnmapPage` from an index on. An entry that was not recorded
is null. There is no result when the stack is read out of its bounds. -/
def Tables.reclaimStack (entryStack : List (BitVec 64 × Nat)) : Nat → Nat → Tables → Option Tables
  | 0, _, tables => some tables
  | rounds + 1, i, tables =>
    if entryStackSize ≤ i then none
    else
      match entryStack[i]? with
      | none => some tables
      | some (table, index) =>
        let child := tables.mem table index &&& addressMask
        if tables.isEmpty child then
          reclaimStack entryStack rounds (i + 1) (tables.takeDown table index child)
        else some tables

/-- `x86_64_UnmapPage` with a number of levels. The first entry is recorded at
`entryStack[levels - 2]`, the others below it. -/
def Tables.unmapPageLevels (tables : Tables) (levels virtualAddress : Nat) (root : BitVec 64) :
    Option Tables :=
  if entryStackSize ≤ levels - 2 then none
  else
    match clearPage virtualAddress levels root [] tables with
    | none => some tables
    | some (cleared, stack) => reclaimStack stack levels 0 cleared

/-! ## What is asked of the call -/

section
variable (levels : Nat) (root : BitVec 64)

def Unshared (tables : Tables) : Prop :=
  ∀ one two depth depth' table, tables.walkTable levels root one depth = some table →
    tables.walkTable levels root two depth' = some table →
    depth = depth' ∧
      ∀ above < depth, entryIndex one (levels - above) = entryIndex two (levels - above)

def SamePath (one two depth : Nat) : Prop :=
  ∀ above < depth, entryIndex one (levels - above) = entryIndex two (levels - above)

def Emptied (before after : Tables) (table : BitVec 64) : Prop :=
  (∃ address depth, before.walkTable levels root address (depth + 1) = some table) ∧
    before.isEmpty table = false ∧ after.isEmpty table = true

/-- The page is gone, every other page is translated as before, exactly the tables that
became empty are returned, once, and exactly they are not reached any more. -/
structure Unmaps (virtualAddress : Nat) (before after : Tables) :
    Prop where
  removed : after.hardwareWalk virtualAddress levels root = none
  others : ∀ address,
    (∃ level, 1 ≤ level ∧ level ≤ levels ∧
      entryIndex address level ≠ entryIndex virtualAddress level) →
    after.hardwareWalk address levels root = before.hardwareWalk address levels root
  returned : ∀ table, Emptied levels root before after table →
    after.freed.count table = before.freed.count table + 1
  kept : ∀ table, ¬ Emptied levels root before after table →
    after.freed.count table = before.freed.count table
  reached : ∀ address depth table, after.walkTable levels root address depth = some table ↔
    before.walkTable levels root address depth = some table ∧
      ¬ Emptied levels root before after table

end

/-! ## The path of a page -/

section
variable (levels : Nat) (root : BitVec 64) (virtualAddress : Nat) (tables : Tables)
  (path : Nat → BitVec 64)

/-- The tables on the path that the code follows. -/
structure Path : Prop where
  positive : 0 < levels
  start : path 0 = root
  next : ∀ depth, depth + 1 < levels →
    getNextPageTable (tables.mem (path depth) (entryIndex virtualAddress (levels - depth)))
      (levels - depth) = some (path (depth + 1))

def Alone (depth : Nat) : Prop :=
  ∀ index < 512, index ≠ entryIndex virtualAddress (levels - depth) →
    isPresent (tables.mem (path depth) index) = false

end

def pathStack (levels virtualAddress : Nat) (path : Nat → BitVec 64) : Nat → List (BitVec 64 × Nat)
  | 0 => []
  | depth + 1 => (path depth, entryIndex virtualAddress (levels - depth)) ::
      pathStack levels virtualAddress path depth

def Tables.cut (tables : Tables) (levels virtualAddress : Nat) (path : Nat → BitVec 64)
    (depth : Nat) : Tables :=
  { tables with
    mem := fun table index =>
      if ∃ below < levels, depth ≤ below ∧ table = path below ∧
          index = entryIndex virtualAddress (levels - below) then 0
      else tables.mem table index
    freed := (List.range' (depth + 1) (levels - 1 - depth)).map path ++ tables.freed }

section Paths
variable {levels : Nat} {root : BitVec 64} {virt : Nat} {tables : Tables}
  {path : Nat → BitVec 64} {child last table : BitVec 64} {level : Nat}

theorem last_table_next (ends : tables.lastTable virt (level + 2) table = some last) :
    ∃ child, getNextPageTable (tables.mem table (entryIndex virt (level + 2))) (level + 2) =
        some child ∧ tables.lastTable virt (level + 1) child = some last := by
  rw [lastTable, if_neg (by omega)] at ends
  exact bind_eq_some_iff.mp ends

theorem exists_path (ends : tables.lastTable virt levels root = some last) :
    ∃ path, Path levels root virt tables path := by
  have step : ∀ {depth : Nat} {table : BitVec 64}, depth + 1 < levels →
      tables.lastTable virt (levels - depth) table = some last →
      ∃ child, getNextPageTable (tables.mem table (entryIndex virt (levels - depth)))
          (levels - depth) = some child ∧
        tables.lastTable virt (levels - (depth + 1)) child = some last := by
    intro depth table inside below
    rcases Nat.exists_eq_add_of_le' (show 2 ≤ levels - depth by omega) with ⟨level, total⟩
    rw [show levels - (depth + 1) = level + 1 by omega]
    rw [total] at below ⊢
    exact last_table_next below
  have reached : ∀ depth < levels, ∃ table,
      tables.walkTable levels root virt depth = some table ∧
        tables.lastTable virt (levels - depth) table = some last := by
    intro depth
    induction depth with
    | zero => exact fun _ => ⟨root, rfl, ends⟩
    | succ depth ih =>
      intro inside
      rcases ih (by omega) with ⟨table, here, below⟩
      rcases step inside below with ⟨child, next, rest⟩
      exact ⟨child, walk_table_next here next, rest⟩
  have positive : 0 < levels := by
    cases levels with
    | zero => cases ends
    | succ levels => omega
  refine ⟨fun depth => (tables.walkTable levels root virt depth).getD 0, positive, rfl, ?_⟩
  intro depth inside
  rcases reached depth (by omega) with ⟨table, here, below⟩
  rcases step inside below with ⟨child, next, _⟩
  rw [here, walk_table_next here next, getD_some, getD_some]
  exact next

section
variable (is : Path levels root virt tables path)
include is
variable {depth depth' : Nat}

theorem Path.walk (inside : depth < levels) :
    tables.walkTable levels root virt depth = some (path depth) := by
  induction depth with
  | zero => rw [is.start]; rfl
  | succ depth ih =>
    exact walk_table_next (ih (by omega)) (is.next depth inside)

/-- A walk that meets the path meets it at the same depth, after the same indices. -/
theorem Path.met (unshared : Unshared levels root tables) {address : Nat} (inside : depth' < levels)
    (here : tables.walkTable levels root address depth = some (path depth')) :
    depth = depth' ∧ SamePath levels address virt depth :=
  unshared _ _ _ _ _ here (is.walk inside)

theorem Path.injective (unshared : Unshared levels root tables) (inside : depth < levels)
    (inside' : depth' < levels) (same : path depth = path depth') : depth = depth' :=
  (is.met unshared inside' (same ▸ is.walk inside)).1

theorem Path.clear_page :
    ∀ {level depth : Nat}, level + 1 + depth = levels →
      clearPage virt (level + 1) (path depth) (pathStack levels virt path depth) tables =
        some (tables.setEntry (path (levels - 1)) (entryIndex virt 1) 0,
          pathStack levels virt path (levels - 1)) := by
  intro level
  induction level with
  | zero =>
    intro depth total
    have deepest : levels - 1 = depth := by omega
    rw [clearPage, deepest]
    rfl
  | succ level ih =>
    intro depth total
    have next := is.next depth (by omega)
    have index : levels - depth = level + 1 + 1 := by omega
    rw [index] at next
    rw [clearPage]
    simp only [if_neg (show ¬ level + 1 + 1 = 1 by omega), next]
    have rest := ih (show level + 1 + (depth + 1) = levels by omega)
    rw [pathStack, index] at rest
    exact rest

end

theorem clear_page_missing {stack : List (BitVec 64 × Nat)}
    (missing : tables.lastTable virt level table = none) :
    clearPage virt level table stack tables = none := by
  induction level generalizing table stack with
  | zero => rfl
  | succ level ih =>
    rw [lastTable] at missing
    rw [clearPage]
    split_ifs at missing with leaf
    rw [if_neg leaf]
    cases next : getNextPageTable (tables.mem table (entryIndex virt (level + 1))) (level + 1) with
    | none => rfl
    | some child =>
      rw [next, bind_some] at missing
      exact ih missing

variable {address depth : Nat}

theorem path_stack_length : (pathStack levels virt path depth).length = depth := by
  induction depth with
  | zero => rfl
  | succ depth ih => rw [pathStack, length_cons, ih]

theorem path_stack_get {i : Nat} (inside : i < depth) :
    (pathStack levels virt path depth)[i]? =
      some (path (depth - 1 - i), entryIndex virt (levels - (depth - 1 - i))) := by
  induction depth generalizing i with
  | zero => omega
  | succ depth ih =>
    cases i with
    | zero => rfl
    | succ i =>
      rw [pathStack, getElem?_cons_succ, ih (by omega)]
      rw [show depth + 1 - 1 - (i + 1) = depth - 1 - i by omega]

/-! ## The entries that are cleared -/

theorem cut_entry {below : Nat} (inside : below < levels) (deep : depth ≤ below) :
    (tables.cut levels virt path depth).mem (path below) (entryIndex virt (levels - below)) = 0 :=
  if_pos ⟨below, inside, deep, rfl, rfl⟩

theorem cut_other {index : Nat} (other : ∀ below < levels, depth ≤ below → table = path below →
      index ≠ entryIndex virt (levels - below)) :
    (tables.cut levels virt path depth).mem table index = tables.mem table index := by
  apply if_neg
  rintro ⟨below, inside, deep, same, here⟩
  exact other below inside deep same here

section
variable (is : Path levels root virt tables path)
include is

theorem Path.cut_off_path (unshared : Unshared levels root tables) {below index : Nat}
    (inside : below < levels) (off : below < depth ∨ index ≠ entryIndex virt (levels - below)) :
    (tables.cut levels virt path depth).mem (path below) index = tables.mem (path below) index := by
  apply cut_other
  intro other insideOther deep same here
  obtain rfl := is.injective unshared inside insideOther same
  rcases off with above | elsewhere
  · omega
  · exact elsewhere here

theorem Path.cut_last :
    tables.setEntry (path (levels - 1)) (entryIndex virt 1) 0 =
      tables.cut levels virt path (levels - 1) := by
  have positive := is.positive
  have last : levels - (levels - 1) = 1 := by omega
  unfold setEntry Tables.cut
  congr 1
  · funext table index
    congr 1
    apply propext
    constructor
    · rintro ⟨rfl, rfl⟩
      exact ⟨levels - 1, by omega, le_refl _, rfl, by rw [last]⟩
    · rintro ⟨below, inside, deep, rfl, rfl⟩
      obtain rfl : below = levels - 1 := by omega
      rw [last]
      exact ⟨rfl, rfl⟩
  · rw [Nat.sub_self]
    rfl

theorem Path.empty_iff_alone (unshared : Unshared levels root tables) {stop : Nat}
    (inside : depth < levels) (deep : stop ≤ depth) :
    (tables.cut levels virt path stop).isEmpty (path depth) = true ↔
      Alone levels virt tables path depth := by
  rw [empty_not_present]
  constructor
  · intro empty index bound other
    rw [← empty index bound, is.cut_off_path unshared inside (.inr other)]
  · intro alone index bound
    by_cases here : index = entryIndex virt (levels - depth)
    · rw [here, cut_entry inside deep]
      exact zero_not_present
    · rw [is.cut_off_path unshared inside (.inr here)]
      exact alone index bound here

end

theorem cut_take_down (inside : depth + 1 < levels) :
    (tables.cut levels virt path (depth + 1)).takeDown (path depth)
        (entryIndex virt (levels - depth)) (path (depth + 1)) =
      tables.cut levels virt path depth := by
  unfold Tables.takeDown setEntry Tables.free Tables.cut
  dsimp only
  congr 1
  · funext table index
    by_cases here : table = path depth ∧ index = entryIndex virt (levels - depth)
    · rw [if_pos here, if_pos ⟨depth, by omega, le_refl _, here.1, here.2⟩]
    rw [if_neg here]
    congr 1
    apply propext
    constructor
    · rintro ⟨below, bound, deep, same⟩
      exact ⟨below, bound, by omega, same⟩
    · rintro ⟨below, bound, deep, same, position⟩
      have other : below ≠ depth := by
        rintro rfl
        exact here ⟨same, position⟩
      exact ⟨below, bound, by omega, same, position⟩
  · have size : levels - 1 - depth = levels - 1 - (depth + 1) + 1 := by omega
    rw [size, range'_succ, map_cons, cons_append]

theorem not_alone (crowded : ¬ Alone levels virt tables path depth) :
    ∃ index < 512, index ≠ entryIndex virt (levels - depth) ∧
      isPresent (tables.mem (path depth) index) = true := by
  by_contra none
  apply crowded
  intro index bound other
  by_contra present
  exact none ⟨index, bound, other, by simpa using present⟩

/-- The deepest table below the root that keeps an entry. -/
structure StopsAt (levels virtualAddress : Nat) (tables : Tables) (path : Nat → BitVec 64)
    (deepest stop : Nat) : Prop where
  below : 1 ≤ stop
  inside : stop ≤ deepest
  crowded : ¬ Alone levels virtualAddress tables path stop
  alone : ∀ depth, stop < depth → depth ≤ deepest → Alone levels virtualAddress tables path depth

/-! ## The tree after the call -/

def Pruned (levels : Nat) (path : Nat → BitVec 64) (stop : Nat) (table : BitVec 64) : Prop :=
  ∃ depth, stop < depth ∧ depth < levels ∧ table = path depth

theorem walk_table_congr {one two : Nat} (same : SamePath levels one two depth) :
    tables.walkTable levels root one depth = tables.walkTable levels root two depth := by
  induction depth with
  | zero => rfl
  | succ depth ih =>
    rw [walkTable, walkTable, ih fun above bound => same above (by omega), same depth (by omega)]

def OtherPage (levels address virtualAddress : Nat) : Prop :=
  ∃ level, 1 ≤ level ∧ level ≤ levels ∧ entryIndex address level ≠ entryIndex virtualAddress level

theorem OtherPage.not_same_path (other : OtherPage levels address virt)
    (whole : levels ≤ depth) : ¬ SamePath levels address virt depth := by
  intro same
  rcases other with ⟨upper, one, bound, differs⟩
  have agrees := same (levels - upper) (by omega)
  rw [show levels - (levels - upper) = upper by omega] at agrees
  exact differs agrees

theorem Path.present (is : Path levels root virt tables path)
    (mapped : isPresent (tables.mem (path (levels - 1)) (entryIndex virt 1)) = true)
    (inside : depth < levels) :
    isPresent (tables.mem (path depth) (entryIndex virt (levels - depth))) = true := by
  by_cases last : depth + 1 < levels
  · exact (next_cases (is.next depth last)).2.1
  · obtain rfl : depth = levels - 1 := by omega
    rw [show levels - (levels - 1) = 1 by omega]
    exact mapped

theorem Path.link (is : Path levels root virt tables path) (inside : depth + 1 < levels) :
    tables.mem (path depth) (entryIndex virt (levels - depth)) &&& addressMask = path (depth + 1) :=
  (next_cases (is.next depth inside)).2.2.1

variable {stop : Nat}

/-- A walk goes through a pruned table only along the path. -/
theorem StopsAt.index (stops : StopsAt levels virt tables path (levels - 1) stop)
    (deep : stop < depth) (inside : depth < levels)
    (present : isPresent (tables.mem (path depth) (entryIndex address (levels - depth))) = true) :
    entryIndex address (levels - depth) = entryIndex virt (levels - depth) := by
  by_contra other
  have absent := stops.alone depth deep (by omega) _ (entry_index_lt address _) other
  rw [absent] at present
  cases present

theorem Path.leads_to_pruned (is : Path levels root virt tables path)
    (unshared : Unshared levels root tables) {parent : BitVec 64}
    (here : tables.walkTable levels root address depth = some parent)
    (below : tables.walkTable levels root address (depth + 1) = some child)
    (pruned : Pruned levels path stop child) :
    (tables.cut levels virt path stop).mem parent (entryIndex address (levels - depth)) = 0 := by
  rcases pruned with ⟨deeper, deep, inside, rfl⟩
  rcases is.met unshared inside below with ⟨rfl, same⟩
  have onPath := is.walk (show depth < levels by omega)
  rw [walk_table_congr fun above bound => same above (by omega), onPath] at here
  cases here
  rw [same depth (by omega)]
  exact cut_entry (by omega) (by omega)

/-- An entry of a table that stays is kept, or it leads to a pruned table or to the page. -/
theorem Path.entry_cases (is : Path levels root virt tables path)
    (unshared : Unshared levels root tables)
    (here : tables.walkTable levels root address depth = some table)
    (stays : ¬ Pruned levels path stop table) :
    (tables.cut levels virt path stop).mem table (entryIndex address (levels - depth)) =
        tables.mem table (entryIndex address (levels - depth)) ∨
      (depth = stop ∧ stop < levels ∧ table = path stop ∧
        SamePath levels address virt (depth + 1)) := by
  by_cases cleared : ∃ below < levels, stop ≤ below ∧ table = path below ∧
      entryIndex address (levels - depth) = entryIndex virt (levels - below)
  · right
    rcases cleared with ⟨below, inside, deep, rfl, index⟩
    rcases is.met unshared inside here with ⟨rfl, same⟩
    have last : depth = stop := by
      by_contra other
      exact stays ⟨depth, by omega, inside, rfl⟩
    exact ⟨last, by omega, by rw [last], Nat.forall_lt_succ_right.mpr ⟨same, index⟩⟩
  · exact .inl (if_neg cleared)

theorem walk_table_succ :
    tables.walkTable levels root address (depth + 1) = some child ↔
      ∃ parent, tables.walkTable levels root address depth = some parent ∧
        2 ≤ levels - depth ∧
        isPresent (tables.mem parent (entryIndex address (levels - depth))) = true ∧
        isLarge (levels - depth) (tables.mem parent (entryIndex address (levels - depth))) = false ∧
        tables.mem parent (entryIndex address (levels - depth)) &&& addressMask = child := by
  rw [walkTable, bind_eq_some_iff]
  constructor
  · rintro ⟨parent, here, link⟩
    dsimp only at link
    split_ifs at link with conditions
    exact ⟨parent, here, conditions.1, conditions.2.1, conditions.2.2, Option.some.inj link⟩
  · rintro ⟨parent, here, upper, present, small, link⟩
    exact ⟨parent, here, (if_pos ⟨upper, present, small⟩).trans (congrArg some link)⟩

variable (is : Path levels root virt tables path)
include is

section
variable (unshared : Unshared levels root tables)
include unshared

/-- A walk after the cut is a walk before it that does not end in a pruned table. -/
theorem Path.walk_of_cut {address depth : Nat} {table : BitVec 64}
    (here : (tables.cut levels virt path stop).walkTable levels root address depth = some table) :
    tables.walkTable levels root address depth = some table ∧ ¬ Pruned levels path stop table := by
  induction depth generalizing table with
  | zero =>
    refine ⟨here, ?_⟩
    rintro ⟨depth, deep, inside, rfl⟩
    have top := (is.met unshared inside (show tables.walkTable levels root address 0 = _
      from here)).1
    omega
  | succ depth ih =>
    rcases walk_table_succ.mp here with ⟨parent, above, upper, present, small, link⟩
    rcases ih above with ⟨before, stays⟩
    rcases is.entry_cases unshared before stays with kept | ⟨rfl, inside, rfl, same⟩
    · rw [kept] at present small link
      have below := walk_table_succ.mpr ⟨parent, before, upper, present, small, link⟩
      refine ⟨below, ?_⟩
      intro pruned
      rw [← kept, is.leads_to_pruned unshared before below pruned, zero_not_present] at present
      cases present
    · rw [same depth (by omega), cut_entry inside (le_refl depth), zero_not_present] at present
      cases present

theorem Path.walk_cut (stops : StopsAt levels virt tables path (levels - 1) stop)
    (address depth : Nat) (table : BitVec 64) :
    (tables.cut levels virt path stop).walkTable levels root address depth = some table ↔
      tables.walkTable levels root address depth = some table ∧ ¬ Pruned levels path stop table := by
  refine ⟨is.walk_of_cut unshared, ?_⟩
  rintro ⟨below, stays⟩
  induction depth generalizing table with
  | zero => exact below
  | succ depth ih =>
    rcases walk_table_succ.mp below with ⟨parent, here, upper, present, small, link⟩
    have parentStays : ¬ Pruned levels path stop parent := by
      rintro ⟨deeper, deep, inside, rfl⟩
      rcases is.met unshared inside here with ⟨rfl, _⟩
      rw [stops.index deep inside present, is.link (by omega)] at link
      exact stays ⟨depth + 1, by omega, by omega, link.symm⟩
    rcases is.entry_cases unshared here parentStays with kept | ⟨rfl, inside, rfl, same⟩
    · refine walk_table_succ.mpr ⟨parent, ih parent here parentStays, upper, ?_, ?_, ?_⟩
      · rw [kept]
        exact present
      · rw [kept]
        exact small
      · rw [kept]
        exact link
    · rw [same depth (by omega), is.link (by omega)] at link
      exact absurd ⟨depth + 1, by omega, by omega, link.symm⟩ stays

theorem Path.emptied_iff (stops : StopsAt levels virt tables path (levels - 1) stop)
    (mapped : isPresent (tables.mem (path (levels - 1)) (entryIndex virt 1)) = true)
    (table : BitVec 64) :
    Emptied levels root tables (tables.cut levels virt path stop) table ↔
      Pruned levels path stop table := by
  have nonempty : ∀ {tables : Tables} {table : BitVec 64}, tables.isEmpty table = false ↔
      ∃ index < 512, isPresent (tables.mem table index) = true := by
    intro tables table
    rw [← Bool.not_eq_true, empty_not_present]
    simp
  constructor
  · rintro ⟨⟨address, above, reached⟩, full, empty⟩
    rcases nonempty.mp full with ⟨index, bound, present⟩
    have absent := empty_not_present.mp empty
    have cleared : ∃ below < levels, stop ≤ below ∧ table = path below ∧
        index = entryIndex virt (levels - below) := by
      by_contra kept
      have same : (tables.cut levels virt path stop).mem table index =
          tables.mem table index := if_neg kept
      rw [← same, absent index bound] at present
      cases present
    rcases cleared with ⟨below, inside, deep, rfl, _⟩
    refine ⟨below, ?_, inside, rfl⟩
    by_contra shallow
    obtain rfl : below = stop := by omega
    exact stops.crowded ((is.empty_iff_alone unshared inside le_rfl).mp empty)
  · rintro ⟨depth, deep, inside, rfl⟩
    refine ⟨⟨virt, depth - 1, ?_⟩, ?_, ?_⟩
    · rw [Nat.sub_add_cancel (by omega)]
      exact is.walk inside
    · exact nonempty.mpr ⟨_, entry_index_lt virt _, is.present mapped inside⟩
    · rw [is.empty_iff_alone unshared inside deep.le]
      exact stops.alone depth deep (by omega)

theorem Path.freed_cut (table : BitVec 64) :
    (Pruned levels path stop table →
      (tables.cut levels virt path stop).freed.count table = tables.freed.count table + 1) ∧
    (¬ Pruned levels path stop table →
      (tables.cut levels virt path stop).freed.count table = tables.freed.count table) := by
  have listed : table ∈ (List.range' (stop + 1) (levels - 1 - stop)).map path ↔
      Pruned levels path stop table := by
    rw [List.mem_map]
    constructor
    · rintro ⟨depth, bounds, rfl⟩
      rw [mem_range'_1] at bounds
      exact ⟨depth, by omega, by omega, rfl⟩
    · rintro ⟨depth, deep, inside, rfl⟩
      exact ⟨depth, mem_range'_1.mpr (by omega), rfl⟩
  have once : ((List.range' (stop + 1) (levels - 1 - stop)).map path).Nodup := by
    apply List.Nodup.map_on _ nodup_range'
    intro one first two second same
    rw [mem_range'_1] at first second
    exact is.injective unshared (by omega) (by omega) same
  unfold Tables.cut
  rw [count_append]
  constructor
  · intro pruned
    rw [count_eq_one_of_mem once (listed.mpr pruned), add_comm]
  · intro stays
    rw [count_eq_zero_of_not_mem (fun there => stays (listed.mp there)), Nat.zero_add]

/-! ## The translations after the call -/

theorem Path.removed (inside : stop < levels) :
    ∀ {more depth : Nat}, depth + more = stop →
      (tables.cut levels virt path stop).hardwareWalk virt (levels - depth)
        (path depth) = none := by
  intro more
  induction more with
  | zero =>
    intro depth here
    obtain rfl : depth = stop := by omega
    rcases Nat.exists_eq_add_of_le' (show 1 ≤ levels - depth by omega) with ⟨level, total⟩
    have cleared := @cut_entry levels virt tables path depth depth inside (le_refl depth)
    rw [total] at cleared ⊢
    rw [hardwareWalk]
    exact if_pos (by rw [cleared]; exact zero_not_present)
  | succ more ih =>
    intro depth here
    have rest := ih (show depth + 1 + more = stop by omega)
    rcases Nat.exists_eq_add_of_le' (show 2 ≤ levels - depth by omega) with ⟨level, total⟩
    rcases next_cases (is.next depth (by omega)) with ⟨_, present, address, _, small⟩
    have kept := @Path.cut_off_path levels root virt tables path stop is unshared depth
      (entryIndex virt (levels - depth)) (by omega) (.inl (by omega))
    rw [show levels - (depth + 1) = level + 1 by omega] at rest
    rw [total] at kept present address small ⊢
    rw [show level + 2 = level + 1 + 1 from rfl] at kept present address small ⊢
    rw [hardwareWalk]
    simp only [kept, present, small, address, Bool.true_eq_false, Bool.false_eq_true, if_false,
      if_neg (show ¬ level + 1 + 1 = 1 by omega), rest, map_none]

end

theorem Path.pruned_walk (stops : StopsAt levels virt tables path (levels - 1) stop)
    (other : OtherPage levels address virt) :
    ∀ {level depth : Nat}, level + depth = levels → stop < depth →
      SamePath levels address virt depth →
      tables.hardwareWalk address level (path depth) = none := by
  intro level
  induction level with
  | zero => intro depth _ _ _; rfl
  | succ level ih =>
    intro depth total deep same
    rw [hardwareWalk]
    by_cases absent : isPresent (tables.mem (path depth) (entryIndex address (level + 1))) = false
    · exact if_pos absent
    have index : levels - depth = level + 1 := by omega
    have here := @StopsAt.index levels virt tables path address depth stop stops deep
      (by omega) (by rw [index]; simpa using absent)
    have longer : SamePath levels address virt (depth + 1) :=
      Nat.forall_lt_succ_right.mpr ⟨same, here⟩
    by_cases leaf : level = 0
    · exact absurd longer (other.not_same_path (by omega))
    · have next := is.next depth (by omega)
      rw [index] at here next
      rcases next_cases next with ⟨_, present, link, _, small⟩
      rw [here, present, link, small, ih (by omega) (by omega) longer]
      simp [leaf]

/-- Every other page is translated as before. -/
theorem Path.others (unshared : Unshared levels root tables)
    (stops : StopsAt levels virt tables path (levels - 1) stop)
    (other : OtherPage levels address virt) :
    ∀ {level depth : Nat} {table : BitVec 64}, level + depth = levels →
      tables.walkTable levels root address depth = some table → ¬ Pruned levels path stop table →
      (tables.cut levels virt path stop).hardwareWalk address level table =
        tables.hardwareWalk address level table := by
  intro level
  induction level with
  | zero => intro depth table _ _ _; rfl
  | succ level ih =>
    intro depth table total here stays
    have index : levels - depth = level + 1 := by omega
    rw [hardwareWalk, hardwareWalk]
    rcases is.entry_cases unshared here stays with kept | ⟨rfl, inside, rfl, same⟩
    · rw [index] at kept
      rw [kept]
      by_cases absent : isPresent (tables.mem table (entryIndex address (level + 1))) = false
      · rw [if_pos absent, if_pos absent]
      by_cases leaf : level + 1 = 1
      · rw [if_neg absent, if_neg absent, if_pos leaf, if_pos leaf]
      by_cases large : isLarge (level + 1) (tables.mem table (entryIndex address (level + 1))) = true
      · rw [if_neg absent, if_neg absent, if_neg leaf, if_neg leaf, if_pos large, if_pos large]
      have present : isPresent (tables.mem table (entryIndex address (level + 1))) = true := by
        simpa using absent
      have below : tables.walkTable levels root address (depth + 1) =
          some (tables.mem table (entryIndex address (level + 1)) &&& addressMask) := by
        refine walk_table_succ.mpr ⟨table, here, by omega, ?_⟩
        rw [index]
        exact ⟨present, by simpa using large, rfl⟩
      have childStays : ¬ Pruned levels path stop
          (tables.mem table (entryIndex address (level + 1)) &&& addressMask) := by
        intro pruned
        have cleared := is.leads_to_pruned unshared here below pruned
        rw [index, kept] at cleared
        rw [cleared, zero_not_present] at present
        cases present
      rw [if_neg absent, if_neg absent, if_neg leaf, if_neg leaf, if_neg large, if_neg large,
        ih (show level + (depth + 1) = levels by omega) below childStays]
    · -- The walk leaves the tree here, where it went to the pruned tables before.
      have cleared := @cut_entry levels virt tables path depth depth inside (le_refl depth)
      have agrees := same depth (by omega)
      rw [index] at agrees cleared
      rw [agrees, cleared, if_pos zero_not_present]
      have leaf : ¬ level = 0 := by
        intro bottom
        exact other.not_same_path (by omega) same
      have next := is.next depth (by omega)
      rw [index] at next
      rcases next_cases next with ⟨_, present, link, _, small⟩
      rw [present, link, small,
        is.pruned_walk stops other (show level + (depth + 1) = levels by omega) (by omega) same]
      simp [leaf]

theorem Path.unmaps (unshared : Unshared levels root tables)
    (stops : StopsAt levels virt tables path (levels - 1) stop)
    (mapped : isPresent (tables.mem (path (levels - 1)) (entryIndex virt 1)) = true) :
    Unmaps levels root virt tables (tables.cut levels virt path stop) := by
  have positive := is.positive
  have inside := stops.inside
  have emptied := is.emptied_iff unshared stops mapped
  have rootStays : ¬ Pruned levels path stop root := by
    have here := (is.walk_cut unshared stops virt 0 root).mp rfl
    exact here.2
  constructor
  · have gone := is.removed unshared (by omega) (Nat.zero_add stop)
    rw [is.start, Nat.sub_zero] at gone
    exact gone
  · intro address other
    exact is.others unshared stops other (add_zero levels) rfl rootStays
  · intro table became
    exact (is.freed_cut unshared table).1 ((emptied table).mp became)
  · intro table stays
    exact (is.freed_cut unshared table).2 fun pruned => stays ((emptied table).mpr pruned)
  · intro address depth table
    rw [emptied table]
    exact is.walk_cut unshared stops address depth table

/-- The second loop stops at a table that keeps an entry, or reaches the entry of the root: with four
levels there is none on the stack, with five the stack ends before it. -/
theorem Path.reclaim (unshared : Unshared levels root tables) (fits : levels ≤ 5) {depth : Nat}
    (inside : depth < levels) :
    (∃ stop, StopsAt levels virt tables path depth stop ∧
      reclaimStack (pathStack levels virt path (levels - 1)) (depth + 1) (levels - 1 - depth)
        (tables.cut levels virt path depth) = some (tables.cut levels virt path stop)) ∨
    ((∀ below, 1 ≤ below → below ≤ depth → Alone levels virt tables path below) ∧
      reclaimStack (pathStack levels virt path (levels - 1)) (depth + 1) (levels - 1 - depth)
        (tables.cut levels virt path depth) =
          if levels = 5 then none else some (tables.cut levels virt path 0)) := by
  induction depth with
  | zero =>
    refine .inr ⟨fun below one zero => by omega, ?_⟩
    rw [reclaimStack, Nat.sub_zero]
    by_cases five : levels = 5
    · rw [if_pos five, if_pos (by unfold entryStackSize; omega)]
    · have ended : (pathStack levels virt path (levels - 1))[levels - 1]? = none := by
        rw [getElem?_eq_none_iff, path_stack_length]
      rw [if_neg five, if_neg (by unfold entryStackSize; omega), ended]
  | succ depth ih =>
    have entry := @path_stack_get levels virt path (levels - 1) (levels - 1 - (depth + 1)) (by omega)
    rw [show levels - 1 - 1 - (levels - 1 - (depth + 1)) = depth by omega] at entry
    have address : (tables.cut levels virt path (depth + 1)).mem (path depth)
        (entryIndex virt (levels - depth)) &&& addressMask = path (depth + 1) := by
      rw [is.cut_off_path unshared (by omega) (.inl (by omega))]
      exact is.link inside
    rw [reclaimStack, if_neg (show ¬ entryStackSize ≤ levels - 1 - (depth + 1) by
      unfold entryStackSize
      omega), entry]
    simp only [address]
    by_cases alone : Alone levels virt tables path (depth + 1)
    · rw [if_pos ((is.empty_iff_alone unshared inside le_rfl).mpr alone), cut_take_down inside,
        show levels - 1 - (depth + 1) + 1 = levels - 1 - depth by omega]
      rcases ih (by omega) with ⟨stop, stops, result⟩ | ⟨rest, result⟩
      · left
        refine ⟨stop, ⟨stops.below, Nat.le_succ_of_le stops.inside, stops.crowded, ?_⟩, result⟩
        intro below deeper bound
        rcases Nat.le_succ_iff.mp bound with earlier | rfl
        · exact stops.alone below deeper earlier
        · exact alone
      · right
        refine ⟨?_, result⟩
        intro below one bound
        rcases Nat.le_succ_iff.mp bound with earlier | rfl
        · exact rest below one earlier
        · exact alone
    · rw [if_neg (fun empty => alone ((is.empty_iff_alone unshared inside le_rfl).mp empty))]
      left
      exact ⟨depth + 1, ⟨by omega, le_refl _, alone, fun below deeper bound => by omega⟩, rfl⟩

theorem Path.unmap_page (unshared : Unshared levels root tables) (fits : levels ≤ 5) :
    (∃ stop, StopsAt levels virt tables path (levels - 1) stop ∧
      tables.unmapPageLevels levels virt root = some (tables.cut levels virt path stop)) ∨
    ((∀ below, 1 ≤ below → below ≤ levels - 1 → Alone levels virt tables path below) ∧
      tables.unmapPageLevels levels virt root =
        if levels = 5 then none else some (tables.cut levels virt path 0)) := by
  have positive := is.positive
  have cleared := is.clear_page (show levels - 1 + 1 + 0 = levels by omega)
  rw [is.start, pathStack, show levels - 1 + 1 = levels by omega] at cleared
  have loop := is.reclaim unshared fits (show levels - 1 < levels by omega)
  rw [show levels - 1 + 1 = levels by omega, Nat.sub_self] at loop
  have call : tables.unmapPageLevels levels virt root =
      reclaimStack (pathStack levels virt path (levels - 1)) levels 0
        (tables.cut levels virt path (levels - 1)) := by
    unfold unmapPageLevels
    rw [if_neg (by unfold entryStackSize; omega), cleared, is.cut_last]
  rw [call]
  exact loop

end Paths

/-! ## Four levels -/

section FourLevels
variable {tables : Tables} {stack : List (BitVec 64 × Nat)}

theorem reclaim_stack_eq {rounds i : Nat} (inside : i ≤ stack.length)
    (enough : stack.length < i + rounds) (small : stack.length < entryStackSize) :
    reclaimStack stack rounds i tables = some (Tables.reclaim (stack.drop i) tables) := by
  induction rounds generalizing i tables with
  | zero => omega
  | succ rounds ih =>
    rw [reclaimStack, if_neg (by omega)]
    rcases Nat.lt_or_ge i stack.length with within | ended
    · rw [getElem?_eq_getElem within, drop_eq_getElem_cons within]
      simp only [Tables.reclaim]
      split
      · exact ih within (by omega)
      · rfl
    · rw [getElem?_eq_none_iff.mpr ended, drop_of_length_le ended]
      rfl

theorem clear_page_length {virt level : Nat} {table : BitVec 64} {cleared : Tables}
    {found : List (BitVec 64 × Nat)}
    (done : clearPage virt (level + 1) table stack tables = some (cleared, found)) :
    found.length = stack.length + level := by
  induction level generalizing table stack with
  | zero =>
    cases done
    rfl
  | succ level ih =>
    rw [clearPage] at done
    simp only [if_neg (show ¬ level + 1 + 1 = 1 by omega)] at done
    split at done
    · cases done
    · rw [ih done, length_cons]
      omega

/-- With four levels the loop over the stack is the one that stops at its end. -/
theorem unmap_page_four_levels (tables : Tables) (virtualAddress : Nat) (root : BitVec 64) :
    tables.unmapPageLevels 4 virtualAddress root = some (unmapPage virtualAddress root tables) := by
  unfold unmapPageLevels unmapPage
  rw [if_neg (by decide)]
  cases done : clearPage virtualAddress 4 root [] tables with
  | none => rfl
  | some result =>
    have length := clear_page_length done
    exact reclaim_stack_eq (Nat.zero_le _) (by rw [length]; decide) (by rw [length]; decide)

end FourLevels

section FiveLevels
variable {root : BitVec 64} {virt : Nat} {tables : Tables} {path : Nat → BitVec 64}

section
variable (is : Path 5 root virt tables path)
include is

def SharesTable (root : BitVec 64) (tables : Tables) (virtualAddress : Nat) : Prop :=
  ∃ depth table index, 1 ≤ depth ∧ depth < 5 ∧
    tables.walkTable 5 root virtualAddress depth = some table ∧ index < 512 ∧
    index ≠ entryIndex virtualAddress (5 - depth) ∧ isPresent (tables.mem table index) = true

theorem StopsAt.shares_table {stop : Nat} (stops : StopsAt 5 virt tables path 4 stop) :
    SharesTable root tables virt := by
  have inside := stops.inside
  rcases not_alone stops.crowded with ⟨index, bound, other, present⟩
  exact ⟨stop, path stop, index, stops.below, by omega, is.walk (by omega), bound, other, present⟩

end

/-- A page that is mapped is unmapped as it should exactly when it has an entry in a table of
the last level and is not alone below its entry of the root. -/
theorem five_level_unmap_iff (root : BitVec 64) (tables : Tables)
    (unshared : Unshared 5 root tables) (virtualAddress : Nat)
    (mapped : (tables.hardwareWalk virtualAddress 5 root).isSome = true) :
    (∃ after, tables.unmapPageLevels 5 virtualAddress root = some after ∧
        Unmaps 5 root virtualAddress tables after) ↔
      (tables.lastTable virtualAddress 5 root).isSome = true ∧
        SharesTable root tables virtualAddress := by
  have walked : tables.frameOf virtualAddress 5 root ≠ none := by
    unfold frameOf
    rw [ne_eq, map_eq_none_iff, ← ne_eq, ne_none_iff_isSome]
    exact mapped
  cases ends : tables.lastTable virtualAddress 5 root with
  | none =>
    constructor
    · rintro ⟨after, call, unmaps⟩
      -- The first loop gives up, so that the page stays.
      have missing : clearPage virtualAddress 5 root [] tables = none := clear_page_missing ends
      unfold unmapPageLevels at call
      rw [if_neg (by decide), missing] at call
      cases call
      rw [unmaps.removed] at mapped
      cases mapped
    · rintro ⟨impossible, _⟩
      cases impossible
  | some last =>
    rcases exists_path ends with ⟨path, is⟩
    have present : isPresent (tables.mem (path (5 - 1)) (entryIndex virtualAddress 1)) = true := by
      rcases walk_of_last_table (add_zero 5) rfl ends with ⟨here, _⟩
      rw [is.walk (by omega)] at here
      cases here
      rw [frame_of_last_table ends] at walked
      by_contra absent
      rw [if_neg absent] at walked
      exact walked rfl
    rcases is.unmap_page unshared (le_refl 5) with ⟨stop, stops, call⟩ | ⟨alone, call⟩
    · constructor
      · intro _
        exact ⟨rfl, stops.shares_table is⟩
      · intro _
        exact ⟨_, call, is.unmaps unshared stops present⟩
    · constructor
      · rintro ⟨after, result, _⟩
        rw [call] at result
        cases result
      · rintro ⟨_, depth, table, index, below, inside, here, bound, other, there⟩
        rw [is.walk inside] at here
        cases here
        rw [alone depth below (by omega) index bound other] at there
        cases there

end FiveLevels

/-! ## Pages below one last table -/

def chainTables (pages : Nat) : Tables where
  mem := fun table index =>
    if table = 0x5000 then if index < pages then 0x9007 else 0
    else if index ≠ 0 then 0
    else if table = 0x1000 then 0x2007
    else if table = 0x2000 then 0x3007
    else if table = 0x3000 then 0x4007
    else if table = 0x4000 then 0x5007
    else 0
  allocated := [0x2000, 0x3000, 0x4000, 0x5000]
  freed := []

theorem chain_walk {pages address depth : Nat} {table : BitVec 64}
    (here : (chainTables pages).walkTable 5 0x1000 address depth = some table) :
    depth < 5 ∧ table = BitVec.ofNat 64 (0x1000 * (depth + 1)) ∧
      ∀ above < depth, entryIndex address (5 - above) = 0 := by
  induction depth generalizing table with
  | zero =>
    cases here
    exact ⟨by omega, rfl, fun above bound => by omega⟩
  | succ depth ih =>
    rcases walk_table_succ.mp here with ⟨parent, above, upper, present, _, link⟩
    rcases ih above with ⟨_, rfl, zeros⟩
    have small : depth < 4 := by omega
    have entry : ∀ d < 4, ∀ index,
        (chainTables pages).mem (BitVec.ofNat 64 (0x1000 * (d + 1))) index =
          if index ≠ 0 then 0 else BitVec.ofNat 64 (0x1000 * (d + 2) + 7) := by
      intro d bound index
      interval_cases d <;> rfl
    rw [entry depth small] at present link
    by_cases zero : entryIndex address (5 - depth) ≠ 0
    · rw [if_pos zero] at present
      cases present
    rw [if_neg zero] at link
    refine ⟨by omega, ?_, ?_⟩
    · rw [← link]
      interval_cases depth <;> rfl
    · exact Nat.forall_lt_succ_right.mpr ⟨zeros, not_not.mp zero⟩

theorem chain_unshared (pages : Nat) : Unshared 5 0x1000 (chainTables pages) := by
  intro one two depth depth' table first second
  rcases chain_walk first with ⟨small, here, zeros⟩
  rcases chain_walk second with ⟨small', there, zeros'⟩
  have same : depth = depth' := by
    rw [here] at there
    have numbers := congrArg BitVec.toNat there
    simp only [BitVec.toNat_ofNat] at numbers
    omega
  refine ⟨same, ?_⟩
  intro above bound
  rw [zeros above bound, zeros' above (same ▸ bound)]

/-- When the only page is unmapped, the stack is read out of its bounds. -/
theorem unmap_only_page_overruns :
    Unshared 5 0x1000 (chainTables 1) ∧
      ((chainTables 1).hardwareWalk 0 5 0x1000).isSome = true ∧
      (chainTables 1).unmapPageLevels 5 0 0x1000 = none :=
  ⟨chain_unshared 1, by decide, by decide +kernel⟩

theorem unmap_one_of_two_pages :
    ∃ after, (chainTables 2).unmapPageLevels 5 0 0x1000 = some after ∧
      Unmaps 5 0x1000 0 (chainTables 2) after := by
  apply (five_level_unmap_iff 0x1000 (chainTables 2) (chain_unshared 2) 0 (by decide)).mpr
  refine ⟨by decide, 4, 0x5000, 1, by omega, by omega, ?_⟩
  decide

end FrostyKernel.Paging
