import FrostyKernel.Paging.TableTree

/-!
# Rules for the loops over the levels

The loops of `x86_64_MapPage`, `x86_64_RemapPage` and `x86_64_UnmapPage` go down the path
of a page, and the last one up again. A property of the tables that every edit on the
path keeps holds when the loop ends.
-/

namespace FrostyKernel.Paging

open Tables

def pageOf (virtualAddress : Nat) : Nat := virtualAddress / 4096 % 2 ^ 36

variable {level : Nat} (virt : Nat)

theorem entry_index_eq (inside : level < 4) :
    entryIndex virt (level + 1) = pageOf virt / 512 ^ level % 512 := by
  unfold entryIndex pageOf
  interval_cases level <;> norm_num <;> omega

theorem entry_index_lt (level : Nat) : entryIndex virt level < 512 := Nat.mod_lt _ (by omega)

/-- The number of the table on the path of a page, one level down. -/
theorem path_number (inside : level < 4) :
    pageOf virt / 512 ^ (level + 1) * 512 + entryIndex virt (level + 1) =
      pageOf virt / 512 ^ level := by
  rw [entry_index_eq virt inside, pow_succ, ← Nat.div_div_eq_div_mul]
  omega

/-- A loop stands at a table of a level, on the path of the address. -/
structure At (root : BitVec 64) (tables : Tables) (virtualAddress level depth : Nat)
    (table : BitVec 64) : Prop where
  shaped : TreeShaped root tables
  total : level + depth = 4
  here : tables.tableAt root depth (pageOf virtualAddress / 512 ^ level) = some table

section Rules
variable {root : BitVec 64} {virt : Nat} {tables : Tables} {depth level : Nat}
  {table : BitVec 64}

theorem at_root (shaped : TreeShaped root tables) : At root tables virt 4 0 root := by
  have zero : pageOf virt / 512 ^ 4 = 0 := by
    unfold pageOf
    omega
  refine ⟨shaped, rfl, ?_⟩
  rw [zero]
  exact table_at_root

theorem At.level_eq (position : At root tables virt level depth table) : 4 - depth = level := by
  have total := position.total
  omega

/-- The table on the path one level down. -/
theorem At.child (position : At root tables virt (level + 1) depth table) :
    tables.tableAt root (depth + 1) (pageOf virt / 512 ^ level) =
      getNextPageTable (tables.mem table (entryIndex virt (level + 1))) (level + 1) := by
  have total := position.total
  have child := table_at_child position.here (entry_index_lt virt (level + 1))
  rw [path_number virt (by omega), position.level_eq] at child
  exact child

variable {next : BitVec 64}

/-- Flags are added to an entry on the path. -/
theorem At.adds (position : At root tables virt (level + 1) depth table) (flags : BitVec 32)
    (found : getNextPageTable (tables.mem table (entryIndex virt (level + 1)))
      (level + 1) = some next) :
    Keeps root tables depth (pageOf virt / 512 ^ (level + 1)) table (entryIndex virt (level + 1))
      (addFlags (tables.mem table (entryIndex virt (level + 1))) flags) := by
  refine ⟨position.shaped, position.here, ?_⟩
  rw [position.level_eq, found]
  exact next_add_flags found flags

/-- The entry of the page is written. -/
theorem At.writes (position : At root tables virt 1 3 table) (value : BitVec 64) :
    Keeps root tables 3 (pageOf virt / 512 ^ 1) table (entryIndex virt 1) value := by
  refine ⟨position.shaped, position.here, ?_⟩
  rw [next_last (by omega), next_last (by omega)]

theorem At.add_flags (position : At root tables virt (level + 1) depth table) (flags : BitVec 32)
    (found : getNextPageTable (tables.mem table (entryIndex virt (level + 1)))
      (level + 1) = some next) :
    At root (tables.setEntry table (entryIndex virt (level + 1))
      (addFlags (tables.mem table (entryIndex virt (level + 1))) flags))
      virt level (depth + 1) next := by
  have total := position.total
  have keeps := position.adds flags found
  refine ⟨keeps.shape, by omega, ?_⟩
  rw [keeps.tree, position.child, found]

/-- The supply of a call consists of frames that are not used otherwise. -/
structure Fresh (root : BitVec 64) (supply : Nat → BitVec 64) (tables : Tables) : Prop where
  valid : ∀ k < 3, ValidFrame (supply k)
  notRoot : ∀ k < 3, supply k ≠ root
  injective : ∀ j < 3, ∀ k < 3, supply j = supply k → j = k
  unused : ∀ k < 3, tables.Unused (supply k)

section Descent
variable {flags : BitVec 32} (P : Nat → Tables → Prop) (Q : Tables → Prop)
  (add : ∀ level depth table next tables,
    At root tables virt (level + 1) depth table → P depth tables →
    getNextPageTable (tables.mem table (entryIndex virt (level + 1))) (level + 1) = some next →
    P (depth + 1) (tables.setEntry table (entryIndex virt (level + 1))
      (addFlags (tables.mem table (entryIndex virt (level + 1))) flags)))
include add

theorem map_page_rule {physicalAddress : BitVec 64} {supply : Nat → BitVec 64}
    (hang : ∀ level depth table k tables,
      At root tables virt (level + 2) depth table → P depth tables →
      Hangs root tables depth (pageOf virt / 512 ^ (level + 2)) table
        (entryIndex virt (level + 2)) (supply k) →
      P (depth + 1) (tables.hang table (entryIndex virt (level + 2)) (supply k) flags))
    (large : ∀ level depth table tables,
      At root tables virt (level + 1) depth table → P depth tables →
      isLarge (level + 1) (tables.mem table (entryIndex virt (level + 1))) = true →
      Q tables) (leaf : ∀ table tables, At root tables virt 1 3 table → P 3 tables →
      Q (tables.setEntry table (entryIndex virt 1)
        ((physicalAddress &&& addressMask) ||| leafFlags flags))) (shaped : TreeShaped root tables)
    (fresh : Fresh root supply tables) (start : P 0 tables) :
    TreeShaped root (mapPage virt physicalAddress flags supply 4 0 root tables) ∧
      Q (mapPage virt physicalAddress flags supply 4 0 root tables) := by
  -- The frames from `calls` on are still unused, and no more have been used than levels passed.
  suffices descends : ∀ level depth calls table tables,
      At root tables virt level depth table → 0 < level → calls ≤ depth →
      (∀ k, calls ≤ k → k < 3 → tables.Unused (supply k)) → P depth tables →
      TreeShaped root (mapPage virt physicalAddress flags supply level calls table tables) ∧
        Q (mapPage virt physicalAddress flags supply level calls table tables) from
    descends 4 0 0 root tables (at_root shaped) (by omega) (le_refl 0)
      (fun k _ bound => fresh.unused k bound) start
  intro level
  induction level with
  | zero =>
    intro depth calls table tables _ positive
    omega
  | succ level ih =>
    intro depth calls table tables position _ used unused holds
    have total := position.total
    unfold mapPage
    simp only
    cases found : getNextPageTable (tables.mem table (entryIndex virt (level + 1))) (level + 1) with
    | some next =>
      have upper := (next_cases found).1
      exact ih (depth + 1) calls next _ (position.add_flags flags found) (by omega) (by omega)
        unused (add level depth table next tables position holds found)
    | none =>
      simp only
      split_ifs with isLarge bottom
      · exact ⟨position.shaped, large level depth table tables position holds isLarge⟩
      · have deepest : depth = 3 := by omega
        cases deepest
        cases (show level = 0 by omega)
        exact ⟨(position.writes _).shape, leaf table tables position holds⟩
      · cases level with
        | zero => omega
        | succ level =>
          have bound : calls < 3 := by omega
          have notUsed := unused calls (le_refl _) bound
          have hangs : Hangs root tables depth (pageOf virt / 512 ^ (level + 1 + 1)) table
              (entryIndex virt (level + 1 + 1)) (supply calls) :=
            ⟨position.shaped, position.here, entry_index_lt _ _, by omega,
              position.level_eq.symm ▸ found, fresh.valid calls bound,
              unused_outside position.shaped (fresh.notRoot calls bound) notUsed, notUsed⟩
          refine ih (depth + 1) (calls + 1) (supply calls) _ ⟨hangs.shape _, by omega, ?_⟩
            (by omega) (by omega) ?_ (hang level depth table calls tables position holds hangs)
          · refine (hangs.tree _ _ _).trans (if_pos ⟨rfl, ?_⟩)
            rw [path_number virt (by omega)]
          · intro k later small
            have other : supply k ≠ supply calls := by
              intro same
              have equal := fresh.injective k small calls bound same
              omega
            exact (allocate_unused _ _ _ other).mpr (unused k (by omega) small)

theorem remap_page_rule (missing : ∀ level depth table tables,
      At root tables virt (level + 2) depth table → P depth tables →
      getNextPageTable (tables.mem table (entryIndex virt (level + 2))) (level + 2) =
        none → Q tables) (leaf : ∀ table tables, At root tables virt 1 3 table → P 3 tables →
      Q (tables.setEntry table (entryIndex virt 1)
        ((tables.mem table (entryIndex virt 1) &&& addressMask) ||| leafFlags flags)))
    (shaped : TreeShaped root tables) (start : P 0 tables) :
    TreeShaped root (remapPage virt flags 4 root tables) ∧
      Q (remapPage virt flags 4 root tables) := by
  suffices descends : ∀ level depth table tables,
      At root tables virt level depth table → 0 < level → P depth tables →
      TreeShaped root (remapPage virt flags level table tables) ∧
        Q (remapPage virt flags level table tables) from
    descends 4 0 root tables (at_root shaped) (by omega) start
  intro level
  induction level with
  | zero =>
    intro depth table tables _ positive
    omega
  | succ level ih =>
    intro depth table tables position _ holds
    have total := position.total
    unfold remapPage
    simp only
    split_ifs with bottom
    · have deepest : depth = 3 := by omega
      cases deepest
      cases (show level = 0 by omega)
      exact ⟨(position.writes _).shape, leaf table tables position holds⟩
    · cases found : getNextPageTable
          (tables.mem table (entryIndex virt (level + 1))) (level + 1) with
      | some next =>
        exact ih (depth + 1) next _ (position.add_flags flags found) (by omega)
          (add level depth table next tables position holds found)
      | none =>
        cases level with
        | zero => omega
        | succ level =>
          exact ⟨position.shaped, missing level depth table tables position holds found⟩

end Descent

/-! ## The stack of entries -/

/-- The stack of `x86_64_UnmapPage` below a depth: the entries on the path. -/
inductive Stacked (root : BitVec 64) (tables : Tables) (virtualAddress : Nat) :
    Nat → List (BitVec 64 × Nat) → Prop
  | nil : Stacked root tables virtualAddress 0 []
  | cons {level depth : Nat} {table : BitVec 64} {rest : List (BitVec 64 × Nat)}
      (total : level + 1 + depth = 4)
      (here : tables.tableAt root depth (pageOf virtualAddress / 512 ^ (level + 1)) = some table)
      (above : Stacked root tables virtualAddress depth rest) :
      Stacked root tables virtualAddress (depth + 1)
        ((table, entryIndex virtualAddress (level + 1)) :: rest)

/-- The stack stays right while only deeper tables change. -/
theorem Stacked.kept {other : Tables} {stack : List (BitVec 64 × Nat)}
    (stacked : Stacked root tables virt depth stack)
    (same : ∀ above < depth, other.tableAt root above = tables.tableAt root above) :
    Stacked root other virt depth stack := by
  induction stacked with
  | nil => exact .nil
  | cons total here above ih =>
    refine .cons total ?_ (ih fun upper small => same upper (by omega))
    rw [same _ (by omega)]
    exact here

theorem clear_page_cases {cleared : Tables} {found : List (BitVec 64 × Nat)} :
    ∀ {level depth : Nat} {table : BitVec 64} {stack : List (BitVec 64 × Nat)},
      At root tables virt level depth table →
      Stacked root tables virt depth stack →
      clearPage virt level table stack tables = some (cleared, found) →
      ∃ last, At root tables virt 1 3 last ∧
        cleared = tables.setEntry last (entryIndex virt 1) 0 ∧
        Stacked root tables virt 3 found := by
  intro level
  induction level with
  | zero =>
    intro depth table stack _ _ done
    cases done
  | succ level ih =>
    intro depth table stack position stacked done
    have total := position.total
    unfold clearPage at done
    simp only at done
    split_ifs at done with bottom
    · have deepest : depth = 3 := by omega
      cases deepest
      cases (show level = 0 by omega)
      cases done
      exact ⟨table, position, rfl, stacked⟩
    · cases next : getNextPageTable
          (tables.mem table (entryIndex virt (level + 1))) (level + 1) with
      | none =>
        rw [next] at done
        cases done
      | some child =>
        rw [next] at done
        have below := position.child
        rw [next] at below
        exact ih ⟨position.shaped, by omega, below⟩ (.cons total position.here stacked) done

section Ascent
variable (P : Nat → Tables → Prop) (Q : Tables → Prop)
  (stop : ∀ level depth child tables, At root tables virt level (depth + 1) child →
    P (depth + 1) tables → tables.isEmpty child = false → Q tables)
  (down : ∀ level depth table child tables,
    At root tables virt (level + 1) depth table → P (depth + 1) tables →
    TakesDown root tables depth (pageOf virt / 512 ^ (level + 1)) table
      (entryIndex virt (level + 1)) child →
    P depth (tables.takeDown table (entryIndex virt (level + 1)) child))
  (top : ∀ tables, TreeShaped root tables → P 0 tables → Q tables)
include stop down top

theorem reclaim_rule :
    ∀ {stack : List (BitVec 64 × Nat)} {level depth : Nat} {child : BitVec 64} {tables : Tables},
      At root tables virt level depth child →
      Stacked root tables virt depth stack → P depth tables →
      TreeShaped root (reclaim stack tables) ∧ Q (reclaim stack tables) := by
  intro stack
  induction stack with
  | nil =>
    intro level depth child tables position stacked holds
    cases stacked
    exact ⟨position.shaped, top tables position.shaped holds⟩
  | cons entry rest ih =>
    intro level depth child tables position stacked holds
    cases stacked with
    | @cons upper depth table rest total here above =>
      have totalBelow := position.total
      cases (show level = upper by omega)
      have parent : At root tables virt (level + 1) depth table := ⟨position.shaped, total, here⟩
      have next := parent.child
      rw [position.here] at next
      have address := (next_cases next.symm).2.2.1
      unfold reclaim
      simp only [address]
      split_ifs with empty
      · have takes : TakesDown root tables depth (pageOf virt / 512 ^ (level + 1)) table
            (entryIndex virt (level + 1)) child :=
          ⟨position.shaped, here, entry_index_lt _ _, parent.level_eq.symm ▸ next.symm, empty⟩
        have upperSame : ∀ upper < depth + 1,
            (tables.takeDown table (entryIndex virt (level + 1)) child).tableAt root
              upper = tables.tableAt root upper := by
          intro upper small
          funext place
          rw [takes.tree, if_neg (by omega)]
        have still : At root
            (tables.takeDown table (entryIndex virt (level + 1)) child)
            virt (level + 1) depth table := by
          refine ⟨takes.shape, total, ?_⟩
          rw [upperSame depth (by omega)]
          exact here
        exact ih still (above.kept fun upper small => upperSame upper (by omega))
          (down level depth table child tables parent holds takes)
      · exact ⟨position.shaped, stop level depth child tables position holds (by simpa using empty)⟩

theorem unmap_page_rule (missing : clearPage virt 4 root [] tables = none → Q tables)
    (clear : ∀ table, At root tables virt 1 3 table →
      P 3 (tables.setEntry table (entryIndex virt 1) 0)) (shaped : TreeShaped root tables) :
    TreeShaped root (unmapPage virt root tables) ∧ Q (unmapPage virt root tables) := by
  unfold unmapPage
  cases done : clearPage virt 4 root [] tables with
  | none => exact ⟨shaped, missing done⟩
  | some result =>
    rcases result with ⟨cleared, stack⟩
    rcases clear_page_cases (at_root shaped) .nil done with ⟨last, position, rfl, stacked⟩
    have keeps := position.writes 0
    have still : At root (tables.setEntry last (entryIndex virt 1) 0) virt 1 3 last := by
      refine ⟨keeps.shape, rfl, ?_⟩
      rw [keeps.tree]
      exact position.here
    exact reclaim_rule P Q stop down top still (stacked.kept fun above _ => congrFun keeps.tree above)
      (clear last position)

end Ascent
end Rules
end FrostyKernel.Paging
