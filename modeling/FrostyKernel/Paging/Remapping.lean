import FrostyKernel.Memory.Types
import FrostyKernel.Paging.PageTableRuns

/-!
# Changing the rights of a range of pages

`PageMapper::RemapPages` on tables of any number of levels. The entries above a page keep
their address and their presence, and so does the entry of the page itself, unless the
page is not mapped and its last table exists: `x86_64_RemapPage` then makes the entry
present with frame 0.
-/

namespace FrostyKernel.Paging

open Tables Word Option

open FrostyKernel.Memory (Protection CacheType)

/-- `x86_64_PATOffset` of a cache type. -/
def patOffset : CacheType → BitVec 32
  | .uncachable => 3
  | .writeBack => 0
  | .writeThrough => 1
  | .writeProtected => 4
  | .writeCombining => 5

/-- `x86_64_PAT_GetPageMappingFlags(offset)`. -/
def getPageMappingFlags (offset : BitVec 32) : BitVec 32 :=
  ((offset &&& 3) <<< 3) ||| ((offset &&& 4) <<< 5)

def protectionFlags (prot : Protection) : Option (BitVec 32) :=
  if prot = .READ then some 0x08000000
  else if prot = .READ_WRITE then some 0x08000002
  else if prot = .READ_EXECUTE then some 0
  else if prot = .READ_WRITE_EXECUTE then some 2
  else none

/-- The flags that `PageMapper::RemapPage` hands to `x86_64_RemapPage`. -/
def remapFlags (prot : Protection) (user : Bool) (cacheType : CacheType) : Option (BitVec 32) :=
  (protectionFlags prot).map fun rights =>
    1 ||| rights ||| (if user then 4 else 0) ||| getPageMappingFlags (patOffset cacheType)

/-- `PageMapper::RemapPages` from an index on, for the flags of the call. -/
def Tables.remapPagesFrom (levels : Nat) (root : BitVec 64) (virt : Nat)
    (flags : Option (BitVec 32)) : Nat → Nat → Tables → Tables × Bool
  | _, 0, tables => (tables, true)
  | index, count + 1, tables =>
    match flags with
    | none => (tables, false)
    | some bits =>
      remapPagesFrom levels root virt flags (index + 1) count
        (tables.remapPage (add64 virt (mul64 index 4096)) bits levels root)

/-- `PageMapper::RemapPages(virt, count, prot, user, cacheType)`. -/
def Tables.remapPages (tables : Tables) (levels : Nat) (root : BitVec 64) (virt count : Nat)
    (prot : Protection) (user : Bool) (cacheType : CacheType) : Tables × Bool :=
  tables.remapPagesFrom levels root virt (remapFlags prot user cacheType) 0 count

/-! ## The walks -/

def Tables.walkTable (tables : Tables) (levels : Nat) (root : BitVec 64) (virtualAddress : Nat) :
    Nat → Option (BitVec 64)
  | 0 => some root
  | depth + 1 =>
    (tables.walkTable levels root virtualAddress depth).bind fun table =>
      let entry := tables.mem table (entryIndex virtualAddress (levels - depth))
      if 2 ≤ levels - depth ∧ isPresent entry = true ∧ isLarge (levels - depth) entry = false then
        some (entry &&& addressMask)
      else none

def Layered (levels : Nat) (root : BitVec 64) (tables : Tables) : Prop :=
  ∀ one two depth depth' table, tables.walkTable levels root one depth = some table →
    tables.walkTable levels root two depth' = some table → depth = depth'

def Tables.frameOf (tables : Tables) (virtualAddress level : Nat) (table : BitVec 64) :
    Option (BitVec 64) :=
  (tables.hardwareWalk virtualAddress level table).map Translation.frame

/-- The table of the last level that the loop of `x86_64_RemapPage` ends in. -/
def Tables.lastTable (tables : Tables) (virtualAddress : Nat) : Nat → BitVec 64 → Option (BitVec 64)
  | 0, _ => none
  | level + 1, table =>
    if level + 1 = 1 then some table
    else
      (getNextPageTable (tables.mem table (entryIndex virtualAddress (level + 1)))
        (level + 1)).bind (tables.lastTable virtualAddress level)

/-- The entry that `x86_64_RemapPage` writes in the last table of an address. -/
def SlotOf (virtualAddress level : Nat) (table : BitVec 64) (tables : Tables) (last : BitVec 64)
    (index : Nat) : Prop :=
  tables.lastTable virtualAddress level table = some last ∧ index = entryIndex virtualAddress 1

def SlotEmpty (levels : Nat) (root : BitVec 64) (tables : Tables) (virtualAddress : Nat) : Prop :=
  ∃ last index, SlotOf virtualAddress levels root tables last index ∧
    isPresent (tables.mem last index) = false

/-- Two entries that lead to the same place. -/
structure SameShape (entry other : BitVec 64) : Prop where
  present : isPresent other = isPresent entry
  address : other &&& addressMask = entry &&& addressMask
  pageSize : isPageSize other = isPageSize entry

namespace SameShape

variable {entry other third : BitVec 64}

theorem refl (entry : BitVec 64) : SameShape entry entry := ⟨rfl, rfl, rfl⟩

theorem trans (first : SameShape entry other) (second : SameShape other third) :
    SameShape entry third where
  present := second.present.trans first.present
  address := second.address.trans first.address
  pageSize := second.pageSize.trans first.pageSize

section
variable (same : SameShape entry other)
include same

theorem next (level : Nat) : getNextPageTable other level = getNextPageTable entry level := by
  unfold getNextPageTable
  rw [same.present, same.address, same.pageSize]

theorem large (level : Nat) : isLarge level other = isLarge level entry := by
  unfold isLarge
  rw [same.present, same.pageSize]

theorem large_frame (virt level : Nat) :
    largeFrame other virt level = largeFrame entry virt level := by
  unfold largeFrame
  rw [same.address]

end
end SameShape

theorem add_flags_same_shape {entry : BitVec 64} (present : isPresent entry = true)
    (flags : BitVec 32) : SameShape entry (addFlags entry flags) where
  present := by rw [add_flags_present present, present]
  address := add_flags_address entry flags
  pageSize := add_flags_page_size entry flags

def KeepsBut (spared : BitVec 64 → Nat → Prop) (before after : Tables) : Prop :=
  ∀ table index, ¬ spared table index → SameShape (before.mem table index) (after.mem table index)

/-- What `x86_64_RemapPage` does to an entry of the last level. -/
structure Rewritten (entry other : BitVec 64) : Prop where
  present : isPresent other = true
  address : other &&& addressMask = entry &&& addressMask

theorem leaf_rewritten (entry : BitVec 64) (flags : BitVec 32) :
    Rewritten entry ((entry &&& addressMask) ||| leafFlags flags) := by
  constructor
  · rw [isPresent, BitVec.getLsbD_or, leaf_flags_bit flags (by omega)]
    simp
  · apply masked_address (mask_idempotent entry)
    intro i low high
    have notZero : ¬ i = 0 := by omega
    have notLow : ¬ i < 12 := by omega
    have notLast : ¬ i = 63 := by omega
    rw [BitVec.getLsbD_or, leaf_flags_bit flags (by omega)]
    simp [notZero, notLow, notLast]

/-! ## One page -/

section OnePage
variable {levels : Nat} {root : BitVec 64} {virt : Nat} {flags : BitVec 32}

theorem last_table_kept {before after : Tables} (kept : KeepsBut (fun _ _ => False) before after) :
    ∀ (level : Nat) (table : BitVec 64),
      after.lastTable virt level table = before.lastTable virt level table := by
  intro level
  induction level with
  | zero => intro table; rfl
  | succ level ih =>
    intro table
    have below : after.lastTable virt level = before.lastTable virt level := funext ih
    rw [lastTable, lastTable, (kept table _ not_false).next, below]

theorem remap_page_entries (level : Nat) (table : BitVec 64) (tables : Tables) :
    KeepsBut (SlotOf virt level table tables) tables (tables.remapPage virt flags level table) ∧
      ∀ last index, SlotOf virt level table tables last index →
        Rewritten (tables.mem last index)
          ((tables.remapPage virt flags level table).mem last index) := by
  induction level generalizing table tables with
  | zero => exact ⟨fun other index _ => SameShape.refl _, fun last index slot => nomatch slot.1⟩
  | succ level ih =>
    unfold remapPage SlotOf lastTable
    by_cases leaf : level + 1 = 1
    · obtain rfl : level = 0 := by omega
      simp only [zero_add, if_true, some.injEq]
      constructor
      · intro other index elsewhere
        have notHere : ¬ (other = table ∧ index = entryIndex virt 1) :=
          fun here => elsewhere ⟨here.1.symm, here.2⟩
        rw [set_entry_other _ _ _ _ _ _ notHere]
        exact SameShape.refl _
      · intro last index here
        rw [← here.1, here.2, set_entry_same]
        exact leaf_rewritten _ flags
    · simp only [if_neg leaf]
      cases next : getNextPageTable (tables.mem table (entryIndex virt (level + 1)))
          (level + 1) with
      | none =>
        exact ⟨fun other index _ => SameShape.refl _, fun last index slot => nomatch slot.1⟩
      | some child =>
        -- Flags in the entry of a table do not change the rest of the path.
        have kept : KeepsBut (fun _ _ => False) tables
            (tables.setEntry table (entryIndex virt (level + 1))
              (addFlags (tables.mem table (entryIndex virt (level + 1))) flags)) := by
          intro other index _
          by_cases written : other = table ∧ index = entryIndex virt (level + 1)
          · rw [written.1, written.2, set_entry_same]
            exact add_flags_same_shape (next_cases next).2.1 flags
          · rw [set_entry_other _ _ _ _ _ _ written]
            exact SameShape.refl _
        have path := @last_table_kept virt _ _ kept level child
        rcases ih child (tables.setEntry table (entryIndex virt (level + 1))
          (addFlags (tables.mem table (entryIndex virt (level + 1))) flags)) with
          ⟨shapes, rewritten⟩
        unfold SlotOf at shapes rewritten
        rw [path] at shapes rewritten
        simp only [bind_some]
        constructor
        · intro other index spared
          exact (kept other index not_false).trans (shapes other index spared)
        · intro last index slot
          have written := rewritten last index slot
          exact ⟨written.present, written.address.trans (kept last index not_false).address⟩

variable {last : BitVec 64} {tables : Tables}

/-- A table that the code goes to next is the one that the processor goes to. -/
theorem walk_table_next {depth : Nat} {table child : BitVec 64}
    (here : tables.walkTable levels root virt depth = some table)
    (next : getNextPageTable (tables.mem table (entryIndex virt (levels - depth)))
      (levels - depth) = some child) :
    tables.walkTable levels root virt (depth + 1) = some child := by
  rcases next_cases next with ⟨upper, present, address, _, small⟩
  rw [walkTable, here, bind_some]
  exact (if_pos ⟨upper, present, small⟩).trans (congrArg some address)

theorem walk_of_last_table :
    ∀ {level depth : Nat} {table : BitVec 64}, level + depth = levels →
      tables.walkTable levels root virt depth = some table →
      tables.lastTable virt level table = some last →
      tables.walkTable levels root virt (levels - 1) = some last ∧ 1 ≤ levels := by
  intro level
  induction level with
  | zero =>
    intro depth table _ _ ends
    cases ends
  | succ level ih =>
    intro depth table total here ends
    unfold lastTable at ends
    split_ifs at ends with leaf
    · cases ends
      rw [show levels - 1 = depth by omega]
      exact ⟨here, by omega⟩
    · rcases bind_eq_some_iff.mp ends with ⟨child, next, below⟩
      rw [← show levels - depth = level + 1 by omega] at next
      exact ih (show level + (depth + 1) = levels by omega) (walk_table_next here next) below

/-- The walk to a page whose last table the code finds ends in the entry of that table. -/
theorem frame_of_last_table :
    ∀ {level : Nat} {table : BitVec 64},
      tables.lastTable virt level table = some last →
      tables.frameOf virt level table =
        if isPresent (tables.mem last (entryIndex virt 1)) = true then
          some (tables.mem last (entryIndex virt 1) &&& addressMask)
        else none := by
  intro level
  induction level with
  | zero => intro table ends; cases ends
  | succ level ih =>
    intro table ends
    unfold lastTable at ends
    unfold frameOf hardwareWalk
    split_ifs at ends with leaf
    · cases ends
      obtain rfl : level = 0 := by omega
      cases present : isPresent (tables.mem last (entryIndex virt 1)) with
      | true => simp [present, translate]
      | false => simp [present]
    · rcases bind_eq_some_iff.mp ends with ⟨child, next, below⟩
      rcases next_cases next with ⟨_, present, address, _, small⟩
      rw [← ih below]
      simp only [present, Bool.true_eq_false, if_false, if_neg leaf, small, Bool.false_eq_true,
        address, map_map]
      rfl

end OnePage

/-! ## All walks -/

/-- Entries of the last level are rewritten, the others keep their shape. -/
structure Rewrites (levels : Nat) (root : BitVec 64) (spared : BitVec 64 → Nat → Prop)
    (before after : Tables) : Prop where
  bottom : ∀ table index, spared table index → ∀ address depth,
    before.walkTable levels root address depth = some table → levels ≤ depth + 1
  kept : KeepsBut spared before after
  rewritten : ∀ table index, spared table index →
    Rewritten (before.mem table index) (after.mem table index)

section Walks
variable {levels : Nat} {root : BitVec 64}

theorem remap_page_rewrites {tables : Tables} (layered : Layered levels root tables)
    (virt : Nat) (flags : BitVec 32) :
    Rewrites levels root (SlotOf virt levels root tables) tables
      (tables.remapPage virt flags levels root) := by
  rcases @remap_page_entries virt flags levels root tables with ⟨kept, rewritten⟩
  refine ⟨?_, kept, rewritten⟩
  intro table index slot address depth here
  rcases walk_of_last_table (add_zero levels) rfl slot.1 with ⟨ends, _⟩
  have depths := layered _ _ _ _ table here ends
  omega

variable {spared : BitVec 64 → Nat → Prop} {before after : Tables}
  (rewrites : Rewrites levels root spared before after)
include rewrites

/-- The entries of a table above the last level keep their shape. -/
theorem Rewrites.upper {address depth : Nat} {table : BitVec 64}
    (here : before.walkTable levels root address depth = some table) (upper : depth + 1 < levels)
    (index : Nat) : SameShape (before.mem table index) (after.mem table index) := by
  apply rewrites.kept
  intro slot
  have bottom := rewrites.bottom table index slot address depth here
  omega

variable (address : Nat)

theorem Rewrites.walk_table (depth : Nat) :
    after.walkTable levels root address depth = before.walkTable levels root address depth := by
  induction depth with
  | zero => rfl
  | succ depth ih =>
    rw [walkTable, walkTable, ih]
    cases here : before.walkTable levels root address depth with
    | none => rfl
    | some table =>
      rw [bind_some, bind_some]
      by_cases upper : 2 ≤ levels - depth
      · have shape := rewrites.upper here (by omega) (entryIndex address (levels - depth))
        simp only [shape.present, shape.large, shape.address]
      · simp only [upper, false_and, if_false]

theorem Rewrites.last_table :
    ∀ {level depth : Nat} {table : BitVec 64}, level + depth = levels →
      before.walkTable levels root address depth = some table →
      after.lastTable address level table = before.lastTable address level table := by
  intro level
  induction level with
  | zero => intro depth table _ _; rfl
  | succ level ih =>
    intro depth table total here
    unfold lastTable
    by_cases leaf : level + 1 = 1
    · rw [if_pos leaf, if_pos leaf]
    have shape := rewrites.upper here (by omega) (entryIndex address (level + 1))
    rw [if_neg leaf, if_neg leaf, shape.next]
    cases next : getNextPageTable (before.mem table (entryIndex address (level + 1)))
        (level + 1) with
    | none => rfl
    | some child =>
      rw [bind_some, bind_some]
      rw [← show levels - depth = level + 1 by omega] at next
      exact ih (show level + (depth + 1) = levels by omega) (walk_table_next here next)

theorem Rewrites.frame_of :
    ∀ {level depth : Nat} {table : BitVec 64}, level + depth = levels →
      before.walkTable levels root address depth = some table →
      after.frameOf address level table = before.frameOf address level table ∨
        (before.frameOf address level table = none ∧
          ∃ last index, spared last index ∧ isPresent (before.mem last index) = false) := by
  intro level
  induction level with
  | zero => intro depth table _ _; exact .inl rfl
  | succ level ih =>
    intro depth table total here
    unfold frameOf hardwareWalk
    by_cases leaf : level + 1 = 1
    · by_cases slot : spared table (entryIndex address (level + 1))
      · have written := rewrites.rewritten _ _ slot
        cases present : isPresent (before.mem table (entryIndex address (level + 1))) with
        | true =>
          left
          simp only [present, written.present, Bool.true_eq_false, if_false, if_pos leaf,
            map_some, translate, written.address]
        | false =>
          right
          simp only [present, if_true, map_none, true_and]
          exact ⟨_, _, slot, present⟩
      · left
        have shape := rewrites.kept _ _ slot
        simp only [shape.present, shape.address, if_pos leaf]
        split_ifs <;> rfl
    · have shape := rewrites.upper here (by omega) (entryIndex address (level + 1))
      simp only [shape.present, shape.address, shape.large, shape.large_frame, if_neg leaf]
      by_cases absent : isPresent (before.mem table (entryIndex address (level + 1))) = false
      · left
        simp only [if_pos absent]
      by_cases large : isLarge (level + 1)
          (before.mem table (entryIndex address (level + 1))) = true
      · left
        simp only [if_neg absent, if_pos large]
        rfl
      · simp only [if_neg absent, if_neg large, map_map]
        refine ih (show level + (depth + 1) = levels by omega) ?_
        rw [walkTable, here, bind_some, show levels - depth = level + 1 by omega]
        exact if_pos ⟨by omega, by simpa using absent, by simpa using large⟩

end Walks

/-! ## A range of pages -/

/-- What remapping one page does to the walks of all addresses. -/
structure Remaps (levels : Nat) (root : BitVec 64) (virtualAddress : Nat) (before after : Tables) :
    Prop where
  layered : Layered levels root after
  /-- Without an empty entry to write to, no frame changes. -/
  unchanged : ¬ SlotEmpty levels root before virtualAddress → ∀ address,
    after.frameOf address levels root = before.frameOf address levels root
  /-- A frame that was found is found again. -/
  found : ∀ address frame, before.frameOf address levels root = some frame →
    after.frameOf address levels root = some frame
  paths : ∀ address, after.lastTable address levels root = before.lastTable address levels root
  /-- An entry that is written to leads to a frame. -/
  appears : before.lastTable virtualAddress levels root ≠ none →
    ∃ frame, after.frameOf virtualAddress levels root = some frame
  /-- No entry becomes empty. -/
  filled : ∀ address, SlotEmpty levels root after address → SlotEmpty levels root before address

section Range
variable {levels : Nat} {root : BitVec 64} {tables : Tables}

theorem slot_empty_frame {virt : Nat} (empty : SlotEmpty levels root tables virt) :
    tables.frameOf virt levels root = none := by
  rcases empty with ⟨last, index, ⟨ends, rfl⟩, absent⟩
  rw [frame_of_last_table ends, absent]
  rfl

theorem remap_page_remaps (layered : Layered levels root tables) (virt : Nat) (flags : BitVec 32) :
    Remaps levels root virt tables (tables.remapPage virt flags levels root) := by
  have rewrites := remap_page_rewrites layered virt flags
  have paths : ∀ address,
      (tables.remapPage virt flags levels root).lastTable address levels root =
        tables.lastTable address levels root :=
    fun address => rewrites.last_table address (add_zero levels) rfl
  have frames := fun address => rewrites.frame_of address (add_zero levels) rfl
  constructor
  · intro one two depth depth' table here there
    rw [rewrites.walk_table] at here there
    exact layered one two depth depth' table here there
  · intro full address
    rcases frames address with same | ⟨_, empty⟩
    · exact same
    · exact absurd empty full
  · intro address frame before
    rcases frames address with same | ⟨none, _⟩
    · rw [same, before]
    · rw [before] at none
      cases none
  · exact paths
  · intro reached
    rcases ne_none_iff_exists'.mp reached with ⟨last, ends⟩
    have written := rewrites.rewritten last _ ⟨ends, rfl⟩
    rw [frame_of_last_table ((paths virt).trans ends), if_pos written.present]
    exact ⟨_, rfl⟩
  · rintro address ⟨last, index, ⟨ends, rfl⟩, absent⟩
    refine ⟨last, _, ⟨(paths address).symm.trans ends, rfl⟩, ?_⟩
    by_cases slot : SlotOf virt levels root tables last (entryIndex address 1)
    · rw [(rewrites.rewritten _ _ slot).present] at absent
      cases absent
    · rw [← (rewrites.kept _ _ slot).present]
      exact absent

variable {virt : Nat}

theorem remap_pages_found {flags : Option (BitVec 32)} {address : Nat} {frame : BitVec 64}
    (count index : Nat) (layered : Layered levels root tables)
    (found : tables.frameOf address levels root = some frame) :
    (tables.remapPagesFrom levels root virt flags index count).1.frameOf address levels root =
      some frame := by
  induction count generalizing tables index with
  | zero => exact found
  | succ count ih =>
    unfold remapPagesFrom
    cases flags with
    | none => exact found
    | some bits =>
      have remaps := remap_page_remaps layered (add64 virt (mul64 index 4096)) bits
      exact ih (index + 1) remaps.layered (remaps.found address frame found)

theorem remap_pages_appear {bits : BitVec 32} (count index : Nat)
    (layered : Layered levels root tables) {later : Nat} (inside : later < count)
    (reached : tables.lastTable (add64 virt (mul64 (index + later) 4096)) levels root ≠ none) :
    ∃ frame, (tables.remapPagesFrom levels root virt (some bits) index count).1.frameOf
      (add64 virt (mul64 (index + later) 4096)) levels root = some frame := by
  induction count generalizing tables index later with
  | zero => omega
  | succ count ih =>
    have remaps := remap_page_remaps layered (add64 virt (mul64 index 4096)) bits
    unfold remapPagesFrom
    cases later with
    | zero =>
      rcases remaps.appears reached with ⟨frame, found⟩
      exact ⟨frame, remap_pages_found count (index + 1) remaps.layered found⟩
    | succ later =>
      have next : index + (later + 1) = index + 1 + later := by omega
      rw [next] at reached ⊢
      apply ih (index + 1) remaps.layered (by omega)
      rw [remaps.paths]
      exact reached

theorem remap_pages_keep {bits : BitVec 32} (count index : Nat)
    (layered : Layered levels root tables) (full : ∀ later < count,
      ¬ SlotEmpty levels root tables (add64 virt (mul64 (index + later) 4096))) (address : Nat) :
    (tables.remapPagesFrom levels root virt (some bits) index count).1.frameOf address levels root =
      tables.frameOf address levels root := by
  induction count generalizing tables index with
  | zero => rfl
  | succ count ih =>
    have remaps := remap_page_remaps layered (add64 virt (mul64 index 4096)) bits
    unfold remapPagesFrom
    rw [ih (index + 1) remaps.layered, remaps.unchanged (full 0 (by omega))]
    intro later inside empty
    have next : index + 1 + later = index + (later + 1) := by omega
    have before := remaps.filled _ empty
    rw [next] at before
    exact full (later + 1) (by omega) before

/-- Four levels that represent a map of pages are layered. -/
theorem Sound.layered {pages : Nat → Option Mapping} (sound : Sound root pages tables) :
    Layered 4 root tables := by
  have numbered : ∀ address depth table, tables.walkTable 4 root address depth = some table →
      depth < 4 ∧ tables.tableAt root depth (pageOf address / 512 ^ (4 - depth)) = some table := by
    intro address depth
    induction depth with
    | zero =>
      intro table here
      have zero : pageOf address / 512 ^ 4 = 0 := by
        unfold pageOf
        omega
      rw [Nat.sub_zero, zero, table_at_root]
      exact ⟨by omega, here⟩
    | succ depth ih =>
      intro table here
      rcases bind_eq_some_iff.mp here with ⟨parent, above, link⟩
      rcases ih parent above with ⟨_, place⟩
      dsimp only at link
      split_ifs at link with conditions
      cases link
      rcases conditions with ⟨upper, present, _⟩
      rcases Nat.exists_eq_add_of_le' upper with ⟨level, total⟩
      have index := entry_index_eq address (show level + 1 < 4 by omega)
      rw [total] at place present ⊢
      rw [show level + 2 = level + 1 + 1 from rfl, index] at present ⊢
      rcases sound.represents.entry_cases (show level + 2 + depth = 4 by omega) place with
        ⟨zero, _⟩ | ⟨child, links, below⟩
      · rw [zero, zero_not_present] at present
        cases present
      · rw [links.address, show 4 - (depth + 1) = level + 1 by omega]
        exact ⟨by omega, below⟩
  intro one two depth depth' table here there
  exact (sound.shaped.distinct _ _ _ _ table (numbered _ _ _ here).2 (numbered _ _ _ there).2).1

/-- Presence and frame of every page are kept exactly when the call is refused or no page
of the range has an empty entry in a last table that exists. -/
theorem remap_pages_keeps_frames_iff (levels : Nat) (root : BitVec 64) (tables : Tables)
    (layered : Layered levels root tables) (virt count : Nat) (prot : Protection) (user : Bool)
    (cacheType : CacheType) :
    (∀ address,
        (tables.remapPages levels root virt count prot user cacheType).1.frameOf
            address levels root =
          tables.frameOf address levels root) ↔
      remapFlags prot user cacheType = none ∨
        ∀ index < count, ¬ SlotEmpty levels root tables (add64 virt (mul64 index 4096)) := by
  unfold remapPages
  cases remapFlags prot user cacheType with
  | none =>
    refine ⟨fun _ => .inl rfl, fun _ address => ?_⟩
    cases count <;> rfl
  | some bits =>
    constructor
    · intro same
      right
      intro index inside empty
      have reached : tables.lastTable (add64 virt (mul64 index 4096)) levels root ≠ none := by
        rcases empty with ⟨last, _, ⟨ends, _⟩, _⟩
        rw [ends]
        exact some_ne_none last
      have appears := @remap_pages_appear levels root tables virt bits count 0 layered index inside
        (by rwa [zero_add])
      rw [zero_add, same, slot_empty_frame empty] at appears
      rcases appears with ⟨frame, found⟩
      cases found
    · intro full address
      apply remap_pages_keep count 0 layered
      intro later inside
      rw [zero_add]
      rcases full with refused | full
      · cases refused
      · exact full later inside

end Range

def onePageTables : Tables :=
  PageOp.run 0x1000 ⟨fun _ _ => 0, [], []⟩
    (.map 0x400000 0x9000 7 fun k => BitVec.ofNat 64 (0x2000 + k * 0x1000))

theorem one_page_layered : Layered 4 0x1000 onePageTables := by
  have start : Zeroed 0x1000 ⟨fun _ _ => 0, [], []⟩ := ⟨fun _ _ => rfl, rfl, rfl⟩
  have step : PageOp.Step 0x1000 ⟨fun _ _ => 0, [], []⟩
      (.map 0x400000 0x9000 7 fun k => BitVec.ofNat 64 (0x2000 + k * 0x1000)) onePageTables :=
    ⟨⟨by decide, by decide⟩, consecutive_frames_fresh fun _ _ => rfl, rfl⟩
  exact (run_sound start (.snoc (.nil _) step)).layered

/-- The page behind it, which is not mapped, gets frame 0 when both lose the right to write. -/
theorem remap_maps_frame_zero :
    onePageTables.frameOf 0x401000 4 0x1000 = none ∧
      (onePageTables.remapPages 4 0x1000 0x400000 2 .READ true .writeBack).2 = true ∧
      (onePageTables.remapPages 4 0x1000 0x400000 2 .READ true .writeBack).1.frameOf
        0x401000 4 0x1000 = some 0 := by
  decide

theorem remap_mapped_page_keeps_frames :
    (onePageTables.remapPages 4 0x1000 0x400000 1 .READ true .writeBack).1.frameOf
        0x400000 4 0x1000 =
      onePageTables.frameOf 0x400000 4 0x1000 := by
  apply (remap_pages_keeps_frames_iff 4 0x1000 onePageTables one_page_layered 0x400000 1 .READ true
    .writeBack).mpr
  right
  intro index inside empty
  obtain rfl : index = 0 := by omega
  have absent := slot_empty_frame empty
  revert absent
  decide

end FrostyKernel.Paging
