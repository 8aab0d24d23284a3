import FrostyKernel.Lib.Run

/-!
# Page tables of the x86-64

`PageTables.cpp` with four levels. The tables are reached through the direct map of
physical memory, so their memory is a function of the physical address of a table and
of an index. What `AllocatePage` returns in a call is given by the supply of frames of
the call, and the frames that were handed out and returned are logged.
-/

namespace FrostyKernel.Paging

def addressMask : BitVec 64 := 0x000FFFFFFFFFF000

def keptMask : BitVec 64 := 0x000FFFFFFFFFFFFF

section
variable (entry : BitVec 64) (flags : BitVec 32) (level : Nat)

def isPresent : Bool := entry.getLsbD 0

def isReadWrite : Bool := entry.getLsbD 1

def isUser : Bool := entry.getLsbD 2

def isPageSize : Bool := entry.getLsbD 7

def isExecuteDisable : Bool := entry.getLsbD 63

def leafFlags : BitVec 64 :=
  ((flags.setWidth 64 &&& 0x08000000) <<< (52 - 16)) ||| (flags.setWidth 64 &&& 0xFFF) ||| 1

def tableFlags : BitVec 64 := flags.setWidth 64 &&& 0xF67

def addFlags : BitVec 64 := (entry &&& keptMask) ||| tableFlags flags

/-- `((virtualAddress >> (12 + (i - 1) * 9)) & 0x1FF)`. -/
def entryIndex (virtualAddress level : Nat) : Nat :=
  virtualAddress / 2 ^ (12 + (level - 1) * 9) % 512

def isLarge (entry : BitVec 64) : Bool :=
  (level = 3 || level = 2) && isPageSize entry && isPresent entry

/-- `x86_64_GetNextPageTable` on an entry of a level. The null pointer is no table. -/
def getNextPageTable : Option (BitVec 64) :=
  if level ≤ 1 then none
  else if (level = 3 || level = 2) && isPageSize entry then none
  else if isPresent entry = false then none
  else if entry &&& addressMask = 0 then none
  else some (entry &&& addressMask)

end

structure Tables where
  mem : BitVec 64 → Nat → BitVec 64
  allocated : List (BitVec 64)
  freed : List (BitVec 64)

namespace Tables

section
variable (tables : Tables) (frame table : BitVec 64)

def setEntry (index : Nat) (value : BitVec 64) : Tables :=
  { tables with
    mem := fun other position =>
      if other = table ∧ position = index then value else tables.mem other position }

/-- `AllocatePage` returns the frame, which is cleared. -/
def allocate : Tables :=
  { tables with
    mem := fun other position => if other = frame then 0 else tables.mem other position
    allocated := frame :: tables.allocated }

/-- `FreePage(frame)`. -/
def free : Tables := { tables with freed := frame :: tables.freed }

def InUse : Prop := tables.freed.count frame < tables.allocated.count frame

def Unused : Prop := tables.freed.count frame = tables.allocated.count frame

end

/-- `x86_64_GetPhysicalAddress` from a table of a level on. -/
def getPhysicalAddress (tables : Tables) (virtualAddress : Nat) : Nat → BitVec 64 → BitVec 64
  | 0, _ => 0
  | level + 1, table =>
    let entry := tables.mem table (entryIndex virtualAddress (level + 1))
    if level + 1 = 1 then entry &&& addressMask
    else
      match getNextPageTable entry (level + 1) with
      | some next => tables.getPhysicalAddress virtualAddress level next
      | none =>
        if level + 1 = 3 ∧ isPageSize entry = true ∧ isPresent entry = true then
          entry &&& 0x000FFFFFC0000000
        else if level + 1 = 2 ∧ isPageSize entry = true ∧ isPresent entry = true then
          entry &&& 0x000FFFFFFFE00000
        else 0

/-- `x86_64_MapPage` from a table of a level on, when `calls` frames of the supply have
been used. -/
def mapPage (virtualAddress : Nat) (physicalAddress : BitVec 64) (flags : BitVec 32)
    (supply : Nat → BitVec 64) : Nat → Nat → BitVec 64 → Tables → Tables
  | 0, _, _, tables => tables
  | level + 1, calls, table, tables =>
    let index := entryIndex virtualAddress (level + 1)
    let entry := tables.mem table index
    match getNextPageTable entry (level + 1) with
    | none =>
      if isLarge (level + 1) entry then tables
      else if level + 1 = 1 then
        tables.setEntry table index ((physicalAddress &&& addressMask) ||| leafFlags flags)
      else
        mapPage virtualAddress physicalAddress flags supply level (calls + 1) (supply calls)
          ((tables.allocate (supply calls)).setEntry table index
            (supply calls ||| tableFlags flags ||| 1))
    | some next =>
      mapPage virtualAddress physicalAddress flags supply level calls next
        (tables.setEntry table index (addFlags entry flags))

/-- `x86_64_RemapPage` from a table of a level on. -/
def remapPage (virtualAddress : Nat) (flags : BitVec 32) : Nat → BitVec 64 → Tables → Tables
  | 0, _, tables => tables
  | level + 1, table, tables =>
    let index := entryIndex virtualAddress (level + 1)
    let entry := tables.mem table index
    if level + 1 = 1 then
      tables.setEntry table index ((entry &&& addressMask) ||| leafFlags flags)
    else
      match getNextPageTable entry (level + 1) with
      | none => tables
      | some next =>
        remapPage virtualAddress flags level next
          (tables.setEntry table index (addFlags entry flags))

/-- The first loop of `x86_64_UnmapPage`, which clears the entry of the page. The stack
holds the entries of the tables that were passed, the last one first. -/
def clearPage (virtualAddress : Nat) :
    Nat → BitVec 64 → List (BitVec 64 × Nat) → Tables → Option (Tables × List (BitVec 64 × Nat))
  | 0, _, _, _ => none
  | level + 1, table, stack, tables =>
    let index := entryIndex virtualAddress (level + 1)
    if level + 1 = 1 then some (tables.setEntry table index 0, stack)
    else
      match getNextPageTable (tables.mem table index) (level + 1) with
      | none => none
      | some next => clearPage virtualAddress level next ((table, index) :: stack) tables

def isEmpty (tables : Tables) (table : BitVec 64) : Bool :=
  (List.range 512).all fun index => !isPresent (tables.mem table index)

/-- The second loop of `x86_64_UnmapPage`: tables that are empty are returned, up to the
first that is not. -/
def reclaim : List (BitVec 64 × Nat) → Tables → Tables
  | [], tables => tables
  | (table, index) :: rest, tables =>
    let child := tables.mem table index &&& addressMask
    if tables.isEmpty child then reclaim rest ((tables.free child).setEntry table index 0)
    else tables

/-- `x86_64_UnmapPage(root, virtualAddress)`. -/
def unmapPage (virtualAddress : Nat) (root : BitVec 64) (tables : Tables) : Tables :=
  match clearPage virtualAddress 4 root [] tables with
  | none => tables
  | some (cleared, stack) => reclaim stack cleared

end Tables

/-! ## The processor -/

/-- Where a walk of the processor ends, with the effective rights. -/
structure Translation where
  frame : BitVec 64
  writable : Bool
  user : Bool
  executeDisable : Bool
deriving DecidableEq

def translate (frame entry : BitVec 64) : Translation :=
  ⟨frame, isReadWrite entry, isUser entry, isExecuteDisable entry⟩

def restrict (entry : BitVec 64) (below : Translation) : Translation :=
  ⟨below.frame, isReadWrite entry && below.writable, isUser entry && below.user,
    isExecuteDisable entry || below.executeDisable⟩

/-- The frame of a page inside a page of `512 ^ level` pages. -/
def largeFrame (entry : BitVec 64) (virtualAddress level : Nat) : BitVec 64 :=
  let size := 2 ^ (12 + 9 * level)
  BitVec.ofNat 64 ((entry &&& addressMask).toNat / size * size + virtualAddress % size / 4096 * 4096)

def Tables.hardwareWalk (tables : Tables) (virtualAddress : Nat) :
    Nat → BitVec 64 → Option Translation
  | 0, _ => none
  | level + 1, table =>
    let entry := tables.mem table (entryIndex virtualAddress (level + 1))
    if isPresent entry = false then none
    else if level + 1 = 1 then some (translate (entry &&& addressMask) entry)
    else if isLarge (level + 1) entry then
      some (translate (largeFrame entry virtualAddress level) entry)
    else (tables.hardwareWalk virtualAddress level (entry &&& addressMask)).map (restrict entry)

/-! ## Entries -/

def ValidFrame (frame : BitVec 64) : Prop := frame ≠ 0 ∧ frame &&& addressMask = frame

/-- The entry of a table. -/
structure Links (entry child : BitVec 64) : Prop where
  address : entry &&& addressMask = child
  nonzero : child ≠ 0
  present : isPresent entry = true
  small : isPageSize entry = false
  executable : isExecuteDisable entry = false

def Grants (entry : BitVec 64) (flags : BitVec 32) : Prop :=
  (flags.getLsbD 1 = true → isReadWrite entry = true) ∧
    (flags.getLsbD 2 = true → isUser entry = true)

variable {i level : Nat} {entry child : BitVec 64}

theorem address_mask_bit (inside : i < 64) :
    addressMask.getLsbD i = (decide (12 ≤ i) && decide (i < 52)) := by
  have table : ∀ j < 64, addressMask.getLsbD j = (decide (12 ≤ j) && decide (j < 52)) := by decide
  exact table i inside

theorem kept_mask_bit (inside : i < 64) : keptMask.getLsbD i = decide (i < 52) := by
  have table : ∀ j < 64, keptMask.getLsbD j = decide (j < 52) := by decide
  exact table i inside

/-- The flags of a page, as they stand in the entries above it. -/
theorem table_flags_bit (flags : BitVec 32) (inside : i < 64) :
    (tableFlags flags).getLsbD i =
      (decide (i ∈ [0, 1, 2, 5, 6, 8, 9, 10, 11]) && flags.getLsbD i) := by
  have table : ∀ j < 64,
      (0xF67 : BitVec 64).getLsbD j = decide (j ∈ [0, 1, 2, 5, 6, 8, 9, 10, 11]) := by decide
  rw [tableFlags, BitVec.getLsbD_and, BitVec.getLsbD_setWidth, table i inside]
  simp [inside, Bool.and_comm]

theorem leaf_flags_bit (flags : BitVec 32) (inside : i < 64) :
    (leafFlags flags).getLsbD i =
      (decide (i = 0) || decide (i < 12) && flags.getLsbD i ||
        decide (i = 63) && flags.getLsbD 27) := by
  have bar : ∀ j < 64, (0x08000000 : BitVec 64).getLsbD j = decide (j = 27) := by decide
  have small : ∀ j < 64, (0xFFF : BitVec 64).getLsbD j = decide (j < 12) := by decide
  have one : ∀ j < 64, (1 : BitVec 64).getLsbD j = decide (j = 0) := by decide
  rw [leafFlags, BitVec.getLsbD_or, BitVec.getLsbD_or, BitVec.getLsbD_shiftLeft,
    BitVec.getLsbD_and, BitVec.getLsbD_and, BitVec.getLsbD_setWidth, BitVec.getLsbD_setWidth,
    bar (i - (52 - 16)) (by omega), small i inside, one i inside]
  by_cases last : i = 63
  · subst last
    simp
  · have other : ¬ i - 36 = 27 := by omega
    simp only [other, last]
    cases flags.getLsbD i <;> simp [inside, Bool.or_comm]

variable {frame : BitVec 64}

/-- The address in an entry is read off its middle bits. -/
theorem masked_address (fits : frame &&& addressMask = frame)
    (same : ∀ i, 12 ≤ i → i < 52 → entry.getLsbD i = frame.getLsbD i) :
    entry &&& addressMask = frame := by
  rw [← fits]
  apply BitVec.eq_of_getLsbD_eq
  intro i inside
  rw [BitVec.getLsbD_and, BitVec.getLsbD_and, address_mask_bit inside]
  by_cases middle : 12 ≤ i ∧ i < 52
  · rw [same i middle.1 middle.2]
  · have outside : (decide (12 ≤ i) && decide (i < 52)) = false := by
      simpa using middle
    rw [outside, Bool.and_false, Bool.and_false]

section
variable (entry : BitVec 64) (flags : BitVec 32)

theorem mask_idempotent : (entry &&& addressMask) &&& addressMask = entry &&& addressMask := by
  rw [BitVec.and_assoc, BitVec.and_self]

theorem links_new (valid : ValidFrame frame) (flags : BitVec 32) :
    Links (frame ||| tableFlags flags ||| 1) frame := by
  have one : ∀ j < 64, (1 : BitVec 64).getLsbD j = decide (j = 0) := by decide
  have bit : ∀ i < 64, (frame ||| tableFlags flags ||| 1).getLsbD i =
      (frame.getLsbD i || decide (i ∈ [0, 1, 2, 5, 6, 8, 9, 10, 11]) && flags.getLsbD i ||
        decide (i = 0)) := by
    intro i inside
    rw [BitVec.getLsbD_or, BitVec.getLsbD_or, table_flags_bit flags inside, one i inside]
  -- A frame has no bits outside of the address.
  have outside : ∀ i < 64, ¬ (12 ≤ i ∧ i < 52) → frame.getLsbD i = false := by
    intro i inside beyond
    rw [← valid.2, BitVec.getLsbD_and, address_mask_bit inside]
    simp only [Bool.and_eq_false_imp, decide_eq_true_eq, decide_eq_false_iff_not]
    intro _ low high
    exact beyond ⟨low, high⟩
  constructor
  · apply masked_address valid.2
    intro i low high
    have none : i ∉ [0, 1, 2, 5, 6, 8, 9, 10, 11] := by simp; omega
    have positive : ¬ i = 0 := by omega
    rw [bit i (by omega)]
    simp [none, positive]
  · exact valid.1
  · rw [isPresent, bit 0 (by omega)]
    simp
  · rw [isPageSize, bit 7 (by omega), outside 7 (by omega) (by omega)]
    simp
  · rw [isExecuteDisable, bit 63 (by omega), outside 63 (by omega) (by omega)]
    simp

theorem add_flags_bit (inside : i < 64) :
    (addFlags entry flags).getLsbD i =
      (entry.getLsbD i && decide (i < 52) ||
        decide (i ∈ [0, 1, 2, 5, 6, 8, 9, 10, 11]) && flags.getLsbD i) := by
  rw [addFlags, BitVec.getLsbD_or, BitVec.getLsbD_and, kept_mask_bit inside,
    table_flags_bit flags inside]

theorem add_flags_address : addFlags entry flags &&& addressMask = entry &&& addressMask := by
  apply masked_address (mask_idempotent entry)
  intro i low high
  have none : i ∉ [0, 1, 2, 5, 6, 8, 9, 10, 11] := by simp; omega
  rw [add_flags_bit entry flags (by omega), BitVec.getLsbD_and, address_mask_bit (by omega)]
  simp [none, low, high]

end

theorem add_flags_present (present : isPresent entry = true) (flags : BitVec 32) :
    isPresent (addFlags entry flags) = true := by
  rw [isPresent] at present ⊢
  rw [add_flags_bit entry flags (by omega), present]
  rfl

theorem add_flags_page_size (entry : BitVec 64) (flags : BitVec 32) :
    isPageSize (addFlags entry flags) = isPageSize entry := by
  rw [isPageSize, add_flags_bit entry flags (by omega)]
  simp [isPageSize]

theorem Links.add_flags (links : Links entry child) (flags : BitVec 32) :
    Links (addFlags entry flags) child where
  address := (add_flags_address entry flags).trans links.address
  nonzero := links.nonzero
  present := add_flags_present links.present flags
  small := (add_flags_page_size entry flags).trans links.small
  executable := by
    rw [isExecuteDisable, add_flags_bit entry flags (by omega)]
    simp

theorem grants_new (frame : BitVec 64) (flags : BitVec 32) :
    Grants (frame ||| tableFlags flags ||| 1) flags := by
  constructor
  · intro granted
    rw [isReadWrite, BitVec.getLsbD_or, BitVec.getLsbD_or, table_flags_bit flags (by omega),
      granted]
    simp
  · intro granted
    rw [isUser, BitVec.getLsbD_or, BitVec.getLsbD_or, table_flags_bit flags (by omega), granted]
    simp

theorem grants_add_flags (entry : BitVec 64) (flags : BitVec 32) :
    Grants (addFlags entry flags) flags := by
  constructor
  · intro granted
    rw [isReadWrite, add_flags_bit entry flags (by omega), granted]
    simp
  · intro granted
    rw [isUser, add_flags_bit entry flags (by omega), granted]
    simp

theorem Grants.add_flags {flags : BitVec 32} (grants : Grants entry flags) (more : BitVec 32) :
    Grants (addFlags entry more) flags := by
  constructor
  · intro granted
    have before := grants.1 granted
    rw [isReadWrite] at before ⊢
    rw [add_flags_bit entry more (by omega), before]
    rfl
  · intro granted
    have before := grants.2 granted
    rw [isUser] at before ⊢
    rw [add_flags_bit entry more (by omega), before]
    rfl

/-! ## The next table -/

theorem zero_not_present : isPresent 0 = false := by decide

theorem next_of_not_present (absent : isPresent entry = false) (level : Nat) :
    getNextPageTable entry level = none := by
  unfold getNextPageTable
  rw [if_pos absent]
  split_ifs <;> rfl

theorem next_zero (level : Nat) : getNextPageTable 0 level = none :=
  next_of_not_present zero_not_present level

theorem next_last (last : level ≤ 1) (entry : BitVec 64) :
    getNextPageTable entry level = none := if_pos last

theorem Links.next (links : Links entry child) (upper : 2 ≤ level) :
    getNextPageTable entry level = some child := by
  have notLast : ¬ level ≤ 1 := by omega
  have notPresent : ¬ isPresent entry = false := by simp [links.present]
  have nonzero : ¬ entry &&& addressMask = 0 := by
    rw [links.address]
    exact links.nonzero
  unfold getNextPageTable
  rw [if_neg notLast, links.small, Bool.and_false, if_neg Bool.false_ne_true, if_neg notPresent,
    if_neg nonzero, links.address]

theorem next_cases (next : getNextPageTable entry level = some child) :
    2 ≤ level ∧ isPresent entry = true ∧ entry &&& addressMask = child ∧ ValidFrame child ∧
      isLarge level entry = false := by
  unfold getNextPageTable at next
  split_ifs at next with last large absent zero
  have here : entry &&& addressMask = child := Option.some.inj next
  refine ⟨by omega, by simpa using absent, here, ⟨here ▸ zero, ?_⟩, ?_⟩
  · rw [← here]
    exact mask_idempotent entry
  · unfold isLarge
    rw [Bool.eq_false_iff.mpr large, Bool.false_and]

/-- Flags added to the entry of a table do not change which table it is. -/
theorem next_add_flags (next : getNextPageTable entry level = some child) (flags : BitVec 32) :
    getNextPageTable (addFlags entry flags) level = some child := by
  rcases next_cases next with ⟨upper, present, address, valid, _⟩
  unfold getNextPageTable at next ⊢
  rw [if_neg (by omega)] at next ⊢
  rw [add_flags_page_size, add_flags_present present, add_flags_address, address]
  split_ifs at next with large
  rw [if_neg large, if_neg Bool.true_eq_false_eq_False, if_neg valid.1]

end FrostyKernel.Paging
