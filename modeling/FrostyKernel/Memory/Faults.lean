import FrostyKernel.Memory.Cases

/-!
# The parts of `HandlePageFault`

For each part of the handler, what it leaves in the page table where it reports success.
-/

namespace FrostyKernel.Memory.VMM

open Word Option

variable {vmm next : VMM} {object : MemoryObject} {offset : Nat}

namespace Fault

variable {fault : Fault} {success : Bool} {anonMap : AnonMap} {anon : Anon} {id : ObjectId}
  {frame : Nat} {prot : Protection}

theorem get_page_table {page : Option Page}
    (result : vmm.getPage id object offset = some (next, page)) :
    next.pageTable = vmm.pageTable := by
  rcases get_page_cases result with ⟨_, outcomes, rfl⟩ | ⟨_, _, _, rfl⟩ |
    ⟨outcomes, frame, rest, prot, _, _, _, rfl⟩
  · rfl
  · rfl
  · rfl

/-! ### Ends of a path -/

/-- The page was mapped with the protection. -/
def Maps (fault : Fault) (prot : Protection) (next : VMM) : Prop :=
  ∃ current frame, (fault.map current frame prot).2 = true ∧
    next.pageTable = (fault.map current frame prot).1.pageTable

/-- The page was mapped, or remapped where the code has the present bit set. -/
def Answers (fault : Fault) (vmm : VMM) (prot : Protection) (next : VMM) : Prop :=
  ∃ current frame mapped, current.pageTable = vmm.pageTable ∧
    mapped = (if fault.code.present then fault.remap current prot
      else fault.map current frame prot) ∧
    mapped.2 = true ∧ next.pageTable = mapped.1.pageTable

theorem release_table (lock : Lock) : (vmm.release lock).pageTable = vmm.pageTable := rfl

theorem drop_anon_table (id : AnonId) (anon : Anon) :
    (dropAnon vmm id anon).pageTable = vmm.pageTable := by
  unfold dropAnon
  by_cases last : sub64 anon.refCount 1 = 0
  · simp only [if_pos last]
    rfl
  · simp only [if_neg last]
    rfl

/-! ### Entries with an `AnonMap` -/

variable {id : AnonId} {page : Page}

theorem write_shared_maps (result : fault.writeShared vmm anonMap id anon = some (next, true)) :
    fault.Maps fault.flags.protection next := by
  unfold writeShared at result
  split at result
  · cases result
  split at result
  · cases result
  rename_i taken frame popped
  split at result
  · cases result
  split at result
  · cases result
  · cases result
  rename_i copied copies
  split at result
  · cases result
  · rename_i mapped done
    simp only [some.injEq, Prod.mk.injEq, and_true] at result
    subst result
    refine ⟨copied, frame, by rw [done], ?_⟩
    rw [done, release_table, drop_anon_table]
    rfl

/-- A write to a shared page is answered with a copy, every other access with the page. -/
theorem on_anon_answers (result : fault.onAnon vmm anonMap id anon = some (next, true)) :
    (fault.code.write = true ∧ 1 < anon.refCount ∧ fault.Maps fault.flags.protection next) ∨
      (¬ (fault.code.write = true ∧ 1 < anon.refCount) ∧ fault.Answers vmm
        (if 1 < anon.refCount then fault.flags.protection.withoutWrite
          else fault.flags.protection) next) := by
  unfold onAnon at result
  split at result
  · rename_i shared
    exact .inl ⟨shared.1, shared.2, write_shared_maps result⟩
  · rename_i alone
    simp only [some.injEq, Prod.mk.injEq] at result
    obtain ⟨rfl, done⟩ := result
    exact .inr ⟨alone, vmm, anon.physAddr, _, rfl, rfl, done, rfl⟩

theorem copy_object_page_maps
    (result : fault.copyObjectPage vmm anonMap id page = some (next, true)) :
    fault.Maps fault.flags.protection next := by
  unfold copyObjectPage at result
  split at result
  · cases result
  split at result
  · cases result
  rename_i taken frame popped
  split at result
  · cases result
  split at result
  · cases result
  · rename_i mapped done
    simp only [some.injEq, Prod.mk.injEq, and_true] at result
    subst result
    refine ⟨_, frame, by rw [done], ?_⟩
    rw [done]
    rfl

theorem on_object_slot_maps (result : fault.onObjectSlot vmm anonMap id = some (next, true)) :
    fault.Maps fault.flags.protection next ∨
      (¬ (fault.code.write = true ∧ fault.flags.needsCopy = true) ∧ fault.Maps
        (if fault.flags.needsCopy then fault.flags.protection.withoutWrite
          else fault.flags.protection) next) := by
  unfold onObjectSlot at result
  split at result
  · cases result
  split at result
  · cases result
  · cases result
  rename_i found page delivered
  split at result
  · exact .inl (copy_object_page_maps result)
  · rename_i direct
    simp only [some.injEq, Prod.mk.injEq] at result
    obtain ⟨rfl, done⟩ := result
    exact .inr ⟨direct, found, page.physAddr, done, rfl⟩

theorem on_empty_slot_maps (result : fault.onEmptySlot vmm anonMap = some (next, true)) :
    fault.Maps fault.flags.protection next := by
  unfold onEmptySlot at result
  split at result
  · cases result
  split at result
  · cases result
  split at result
  · cases result
  rename_i taken frame popped
  simp only [some.injEq, Prod.mk.injEq] at result
  obtain ⟨rfl, done⟩ := result
  exact ⟨_, frame, done, rfl⟩

/-! ### Entries with an object only -/

theorem fill_page_answers (result : fault.fillPage vmm id page = some (next, true)) :
    fault.Answers vmm fault.flags.protection next := by
  unfold fillPage at result
  split at result
  · cases result
  rename_i absent
  split at result
  · cases result
  rename_i taken frame popped
  split at result
  · cases result
  simp only [some.injEq, Prod.mk.injEq] at result
  obtain ⟨rfl, done⟩ := result
  obtain ⟨rest, _, rfl⟩ := allocate_page_cases popped
  refine ⟨_, frame, _, ?_, (if_neg absent).symm, done, rfl⟩
  split_ifs <;> rfl

theorem on_object_answers (result : fault.onObject vmm id = some (next, true)) :
    fault.Answers vmm fault.flags.protection next := by
  unfold onObject at result
  split at result
  · cases result
  dsimp only at result
  split at result
  · cases result
  · cases result
  rename_i found page delivered
  have table : found.pageTable = vmm.pageTable := (get_page_table delivered).trans rfl
  split at result
  · simp only [some.injEq, Prod.mk.injEq] at result
    obtain ⟨rfl, done⟩ := result
    exact ⟨found, page.physAddr, _, table, rfl, done, rfl⟩
  · obtain ⟨current, frame, mapped, same, rest⟩ := fill_page_answers result
    exact ⟨current, frame, mapped, same.trans table, rest⟩

end Fault
end FrostyKernel.Memory.VMM
