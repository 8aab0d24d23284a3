import FrostyKernel.Paging.TableRules

/-!
# The map of pages that a tree of tables represents

The purpose of the tables is a map from pages to frames and flags. The tree represents
such a map when the entries of the last level are those of the map and every entry above
a page grants at least the rights of the page.
-/

namespace FrostyKernel.Paging

open Tables Option

/-- What a page is mapped to. -/
structure Mapping where
  frame : BitVec 64
  flags : BitVec 32
  fits : frame &&& addressMask = frame

namespace Mapping

def of (physicalAddress : BitVec 64) (flags : BitVec 32) : Mapping :=
  ⟨physicalAddress &&& addressMask, flags, mask_idempotent physicalAddress⟩

def entry (mapping : Mapping) : BitVec 64 := mapping.frame ||| leafFlags mapping.flags

def translation (mapping : Mapping) : Translation :=
  ⟨mapping.frame, mapping.flags.getLsbD 1, mapping.flags.getLsbD 2, mapping.flags.getLsbD 27⟩

variable (mapping : Mapping)

theorem frame_bit {i : Nat} (inside : i < 64) (beyond : ¬ (12 ≤ i ∧ i < 52)) :
    mapping.frame.getLsbD i = false := by
  rw [← mapping.fits, BitVec.getLsbD_and, address_mask_bit inside]
  simp only [Bool.and_eq_false_imp, decide_eq_true_eq, decide_eq_false_iff_not]
  intro _ low high
  exact beyond ⟨low, high⟩

theorem entry_bit {i : Nat} (inside : i < 64) :
    mapping.entry.getLsbD i = (mapping.frame.getLsbD i || (decide (i = 0) ||
      decide (i < 12) && mapping.flags.getLsbD i || decide (i = 63) && mapping.flags.getLsbD 27)) := by
  rw [entry, BitVec.getLsbD_or, leaf_flags_bit _ inside]

theorem entry_present : isPresent mapping.entry = true := by
  rw [isPresent, mapping.entry_bit (by omega)]
  simp

theorem entry_address : mapping.entry &&& addressMask = mapping.frame := by
  apply masked_address mapping.fits
  intro i low high
  have notZero : ¬ i = 0 := by omega
  have notLow : ¬ i < 12 := by omega
  have notLast : ¬ i = 63 := by omega
  rw [mapping.entry_bit (by omega)]
  simp [notZero, notLow, notLast]

theorem translate_entry :
    translate (mapping.entry &&& addressMask) mapping.entry = mapping.translation := by
  unfold translate translation isReadWrite isUser isExecuteDisable
  rw [mapping.entry_address, mapping.entry_bit (by omega), mapping.entry_bit (by omega),
    mapping.entry_bit (by omega), mapping.frame_bit (by omega) (by omega),
    mapping.frame_bit (by omega) (by omega), mapping.frame_bit (by omega) (by omega)]
  simp

end Mapping

def entryOf (mapping : Option Mapping) : BitVec 64 := (mapping.map Mapping.entry).getD 0

structure Represents (root : BitVec 64) (map : Nat → Option Mapping) (tables : Tables) : Prop where
  upper : ∀ depth number table i, depth < 3 → tables.tableAt root depth number = some table →
    i < 512 → tables.mem table i = 0 ∨ ∃ child, Links (tables.mem table i) child
  last : ∀ number table i, tables.tableAt root 3 number = some table → i < 512 →
    tables.mem table i = entryOf (map (number * 512 + i))
  mapped : ∀ page mapping, map page = some mapping →
    ∃ table, tables.tableAt root 3 (page / 512) = some table
  rights : ∀ page mapping level depth table, map page = some mapping → level + 1 + depth = 4 →
    depth < 3 → tables.tableAt root depth (page / 512 ^ (level + 1)) = some table →
    Grants (tables.mem table (page / 512 ^ level % 512)) mapping.flags
  owned : ∀ depth number table, tables.tableAt root (depth + 1) number = some table →
    tables.allocated.count table = tables.freed.count table + 1
  returned : ∀ frame, (∀ depth number, tables.tableAt root (depth + 1) number ≠ some frame) →
    tables.Unused frame

def FilledBut (root : BitVec 64) (map : Nat → Option Mapping) (tables : Tables)
    (spared : Nat → Nat → Prop) : Prop :=
  ∀ level depth number table, level + (depth + 1) = 4 →
    tables.tableAt root (depth + 1) number = some table → ¬ spared (depth + 1) number →
    ∃ page mapping, map page = some mapping ∧ page / 512 ^ level = number

theorem number_up (page level : Nat) : page / 512 ^ level / 512 = page / 512 ^ (level + 1) := by
  rw [Nat.div_div_eq_div_mul, pow_succ]

theorem number_above {page other level level' : Nat} (above : level ≤ level')
    (same : page / 512 ^ level = other / 512 ^ level) :
    page / 512 ^ level' = other / 512 ^ level' := by
  rcases Nat.exists_eq_add_of_le above with ⟨more, rfl⟩
  rw [pow_add, ← Nat.div_div_eq_div_mul, ← Nat.div_div_eq_div_mul, same]

section Paths
variable {root : BitVec 64} {map : Nat → Option Mapping} {tables : Tables} {depth level page : Nat}
  {mapping : Mapping} {table : BitVec 64} {child : BitVec 64} {virt : Nat}

theorem table_above (here : tables.tableAt root (depth + 1) (page / 512 ^ level) = some child) :
    ∃ table, tables.tableAt root depth (page / 512 ^ (level + 1)) = some table ∧
      getNextPageTable (tables.mem table (page / 512 ^ level % 512)) (4 - depth) = some child := by
  rcases table_at_succ.mp here with ⟨table, above, next⟩
  rw [number_up] at above
  exact ⟨table, above, next⟩

section
variable (represents : Represents root map tables)
include represents

namespace Represents

theorem last_entry (here : tables.tableAt root 3 (page / 512) = some table) :
    tables.mem table (page % 512) = entryOf (map page) := by
  rw [represents.last _ table _ here (Nat.mod_lt _ (by omega)), Nat.div_add_mod' page 512]

section
variable (mapped : map page = some mapping)
include mapped

/-- All tables on the path of a mapped page are there. -/
theorem path (total : level + 1 + depth = 4) :
    ∃ table, tables.tableAt root depth (page / 512 ^ (level + 1)) = some table := by
  induction level generalizing depth with
  | zero =>
    cases (show depth = 3 by omega)
    rw [zero_add, pow_one]
    exact represents.mapped page mapping mapped
  | succ level ih =>
    rcases ih (show level + 1 + (depth + 1) = 4 by omega) with ⟨child, below⟩
    rcases table_above below with ⟨table, here, _⟩
    exact ⟨table, here⟩

/-- The entries on the path of a mapped page lead on. -/
theorem next (total : level + 2 + depth = 4)
    (here : tables.tableAt root depth (page / 512 ^ (level + 2)) = some table) :
    ∃ child, tables.tableAt root (depth + 1) (page / 512 ^ (level + 1)) = some child ∧
      getNextPageTable (tables.mem table (page / 512 ^ (level + 1) % 512)) (4 - depth) =
        some child := by
  rcases represents.path mapped (show level + 1 + (depth + 1) = 4 by omega) with ⟨child, below⟩
  rcases table_above below with ⟨parent, above, next⟩
  rw [here] at above
  cases above
  exact ⟨child, below, next⟩

theorem present (total : level + 1 + depth = 4)
    (here : tables.tableAt root depth (page / 512 ^ (level + 1)) = some table) :
    isPresent (tables.mem table (page / 512 ^ level % 512)) = true := by
  cases level with
  | zero =>
    cases (show depth = 3 by omega)
    rw [zero_add, pow_one] at here
    rw [pow_zero, Nat.div_one, represents.last_entry here, mapped]
    exact mapping.entry_present
  | succ level =>
    rcases represents.next mapped total here with ⟨child, _, next⟩
    exact (next_cases next).2.1

theorem not_below_empty (total : level + 1 + depth = 4)
    (here : tables.tableAt root depth (page / 512 ^ (level + 1)) = some table) :
    tables.isEmpty table = false := by
  by_contra notFalse
  have empty : tables.isEmpty table = true := by simpa using notFalse
  have absent := empty_not_present.mp empty (page / 512 ^ level % 512) (Nat.mod_lt _ (by omega))
  rw [represents.present mapped total here] at absent
  cases absent

end

/-- An entry on the path of a page leads on, or nothing is mapped there. -/
theorem entry_cases (total : level + 2 + depth = 4)
    (here : tables.tableAt root depth (page / 512 ^ (level + 2)) = some table) :
    (tables.mem table (page / 512 ^ (level + 1) % 512) = 0 ∧ map page = none) ∨
      ∃ child, Links (tables.mem table (page / 512 ^ (level + 1) % 512)) child ∧
        tables.tableAt root (depth + 1) (page / 512 ^ (level + 1)) = some child := by
  have inside : page / 512 ^ (level + 1) % 512 < 512 := Nat.mod_lt _ (by omega)
  rcases represents.upper depth _ table _ (by omega) here inside with zero | ⟨child, links⟩
  · left
    refine ⟨zero, ?_⟩
    by_contra mapped
    rcases ne_none_iff_exists'.mp mapped with ⟨mapping, found⟩
    have present := represents.present found total here
    rw [zero, zero_not_present] at present
    cases present
  · right
    refine ⟨child, links, table_at_succ.mpr ⟨table, ?_, links.next (by omega)⟩⟩
    rw [number_up]
    exact here

end Represents
end

/-! ## What the walks find -/

theorem restrict_granted {entry : BitVec 64} (links : Links entry child)
    (grants : Grants entry mapping.flags) :
    restrict entry mapping.translation = mapping.translation := by
  rcases grants with ⟨writable, user⟩
  unfold restrict Mapping.translation
  rw [links.executable]
  congr 1
  · cases granted : mapping.flags.getLsbD 1 with
    | false => exact Bool.and_false _
    | true => rw [writable granted]; rfl
  · cases granted : mapping.flags.getLsbD 2 with
    | false => exact Bool.and_false _
    | true => rw [user granted]; rfl

theorem walk_of_represents (represents : Represents root map tables) :
    ∀ {level depth : Nat} {table : BitVec 64}, level + 1 + depth = 4 →
      tables.tableAt root depth (pageOf virt / 512 ^ (level + 1)) = some table →
      tables.hardwareWalk virt (level + 1) table = (map (pageOf virt)).map Mapping.translation := by
  intro level
  induction level with
  | zero =>
    intro depth table total here
    cases (show depth = 3 by omega)
    rw [zero_add, pow_one] at here
    have entry := represents.last_entry here
    unfold hardwareWalk
    simp only [entry_index_eq virt (show 0 < 4 by omega), pow_zero, Nat.div_one, entry]
    cases map (pageOf virt) with
    | none => rfl
    | some mapping =>
      have present : ¬ isPresent mapping.entry = false := by simp [mapping.entry_present]
      simp only [entryOf, map_some, getD_some, if_neg present, zero_add, if_true,
        mapping.translate_entry]
  | succ level ih =>
    intro depth table total here
    have index := entry_index_eq virt (show level + 1 < 4 by omega)
    unfold hardwareWalk
    simp only [index]
    rcases represents.entry_cases total here with ⟨zero, unmapped⟩ | ⟨child, links, below⟩
    · rw [zero, unmapped, if_pos zero_not_present]
      rfl
    have present : ¬ isPresent (tables.mem table
        (pageOf virt / 512 ^ (level + 1) % 512)) = false := by simp [links.present]
    have notLarge : ¬ isLarge (level + 1 + 1) (tables.mem table
        (pageOf virt / 512 ^ (level + 1) % 512)) = true := by
      unfold isLarge
      simp [links.small]
    rw [if_neg present, if_neg (by omega), if_neg notLarge, links.address,
      ih (show level + 1 + (depth + 1) = 4 by omega) below]
    cases found : map (pageOf virt) with
    | none => rfl
    | some mapping =>
      have grants := represents.rights _ _ _ _ _ found total (by omega) here
      simp only [map_some, restrict_granted links grants]

theorem physical_address_of_represents (represents : Represents root map tables) :
    ∀ {level depth : Nat} {table : BitVec 64}, level + 1 + depth = 4 →
      tables.tableAt root depth (pageOf virt / 512 ^ (level + 1)) = some table →
      tables.getPhysicalAddress virt (level + 1) table =
        ((map (pageOf virt)).map Mapping.frame).getD 0 := by
  intro level
  induction level with
  | zero =>
    intro depth table total here
    cases (show depth = 3 by omega)
    rw [zero_add, pow_one] at here
    have entry := represents.last_entry here
    unfold getPhysicalAddress
    simp only [entry_index_eq virt (show 0 < 4 by omega), pow_zero, Nat.div_one, entry,
      zero_add, if_true]
    cases map (pageOf virt) with
    | none => exact BitVec.zero_and
    | some mapping => exact mapping.entry_address
  | succ level ih =>
    intro depth table total here
    have index := entry_index_eq virt (show level + 1 < 4 by omega)
    unfold getPhysicalAddress
    simp only [index]
    rw [if_neg (by omega)]
    rcases represents.entry_cases total here with ⟨zero, unmapped⟩ | ⟨child, links, below⟩
    · rw [zero, unmapped, next_zero]
      simp [isPresent]
    · rw [links.next (by omega)]
      exact ih (show level + 1 + (depth + 1) = 4 by omega) below

end Paths
end FrostyKernel.Paging
