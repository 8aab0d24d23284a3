import FrostyKernel.Memory.Faults

/-!
# What a fault that was handled leaves in the page table

Every path of `HandlePageFault` that reports success ends in `MapPage` or `RemapPage` with
rights that cover the access, and with the user flag of the entry. The access of a user to
an entry of the kernel is reported as handled but not granted, and `RemapPage` maps nothing
where the last table is missing.
-/

namespace FrostyKernel.Memory.VMM

open Word Fault Function

def Permits (vmm : VMM) (code : PageFaultCode) (virtAddr : Nat) : Prop :=
  ∃ pte, vmm.pageTable (pageOf virtAddr) = some pte ∧ (code.write = true → pte.write = true) ∧
    (code.execute = true → pte.execute = true) ∧ (code.user = true → pte.user = true)

/-- The fault is answered with `RemapPage`: the code has the present bit set, and the page has
an `Anon` that needs no copy, or the entry has an object only. -/
def Fault.Remaps (fault : Fault) (vmm : VMM) : Prop :=
  fault.code.present = true ∧ ∀ map, fault.entry.anonMap = some map →
    ∃ id anon, map.slots[fault.index]? = some (some id) ∧ vmm.anons id = some anon ∧
      ¬ (fault.code.write = true ∧ 1 < anon.refCount)

/-- The fault is one of a user only where the entry is for users, and `RemapPage` finds the
last table of the page. -/
def Grants (vmm : VMM) (code : PageFaultCode) (virtAddr : Nat) : Prop :=
  ∀ fault, vmm.findFault code virtAddr = some fault →
    (code.user = true → fault.flags.user = true) ∧
      (fault.Remaps vmm → tablePresent vmm.pageTable (pageOf virtAddr) = true)

def Suits (prot : Protection) (code : PageFaultCode) : Prop :=
  (code.write = true → prot.write = true) ∧ (code.execute = true → prot.execute = true)

variable {code : PageFaultCode} {prot : Protection}

theorem allowed_suits (allowed : faultAllowed prot code = true) (read : prot.read = true) :
    Suits prot code := by
  rcases prot with ⟨r, w, x⟩
  rcases code with ⟨present, write, user, execute⟩
  cases read
  revert allowed
  cases w <;> cases x <;> cases write <;> cases execute <;>
    simp [faultAllowed, Protection.READ, Protection.WRITE, Protection.EXECUTE,
      Protection.READ_WRITE, Protection.READ_EXECUTE, Protection.READ_WRITE_EXECUTE, Suits]

theorem suits_without_write (suits : Suits prot code) (notWrite : code.write = false) :
    Suits prot.withoutWrite code := by
  refine ⟨fun write => ?_, suits.2⟩
  rw [notWrite] at write
  cases write

theorem page_of_align_down (virtAddr : Nat) :
    pageOf (alignDown virtAddr pageSize) = pageOf virtAddr := by
  unfold pageOf alignDown
  rw [Nat.mul_div_cancel _ (by decide)]

theorem table_present_of_page {pageTable : Nat → Option Pte} {page : Nat}
    (present : pageTable page ≠ none) : tablePresent pageTable page = true := by
  unfold tablePresent
  rw [List.any_eq_true]
  refine ⟨page % 512, List.mem_range.mpr (Nat.mod_lt _ (by decide)), ?_⟩
  rw [Nat.div_add_mod' page 512]
  exact Option.isSome_iff_ne_none.mpr present

namespace Fault

variable {fault : Fault} {vmm next : VMM}

def Mapped (fault : Fault) (next : VMM) : Prop :=
  ∃ frame prot, Suits prot fault.code ∧ next.pageTable (pageOf fault.virt) =
    some (leaf frame prot fault.flags.user fault.flags.cacheType)

variable {frame : Nat} {prot : Protection} {locked : VMM} {map : AnonMap}

theorem map_mapped (suits : prot.read = true → Suits prot fault.code)
    (success : (fault.map vmm frame prot).2 = true) :
    fault.Mapped (fault.map vmm frame prot).1 := by
  unfold map mapPage at success ⊢
  split_ifs at success ⊢ with read
  exact ⟨frame, prot, suits read, update_self _ _ _⟩

theorem remap_mapped (suits : prot.read = true → Suits prot fault.code)
    (success : (fault.remap vmm prot).2 = true) :
    (tablePresent vmm.pageTable (pageOf fault.virt) = true ∧
      fault.Mapped (fault.remap vmm prot).1) ∨
    (tablePresent vmm.pageTable (pageOf fault.virt) = false ∧
      (fault.remap vmm prot).1.pageTable (pageOf fault.virt) = none) := by
  unfold remap remapPage at success ⊢
  by_cases read : prot.read = true
  · cases here : vmm.pageTable (pageOf fault.virt) with
    | some pte =>
      left
      have there : vmm.pageTable (pageOf fault.virt) ≠ none := by
        rw [here]
        exact Option.some_ne_none pte
      simp only [if_pos read, here]
      exact ⟨table_present_of_page there, pte.frame, prot, suits read, update_self _ _ _⟩
    | none =>
      simp only [if_pos read, here]
      by_cases table : tablePresent vmm.pageTable (pageOf fault.virt) = true
      · left
        rw [if_pos table]
        exact ⟨table, 0, prot, suits read, update_self _ _ _⟩
      · right
        rw [if_neg table]
        exact ⟨Bool.eq_false_iff.mpr table, here⟩
  · rw [if_neg read] at success
    cases success

def Ends (fault : Fault) (vmm next : VMM) : Prop :=
  (fault.Mapped next ∧ (fault.Remaps vmm → tablePresent vmm.pageTable (pageOf fault.virt) = true)) ∨
  (fault.Remaps vmm ∧ tablePresent vmm.pageTable (pageOf fault.virt) = false ∧
    next.pageTable (pageOf fault.virt) = none)

theorem Answers.ends (answers : fault.Answers vmm prot next)
    (suits : prot.read = true → Suits prot fault.code)
    (remaps : fault.code.present = true → fault.Remaps vmm) : fault.Ends vmm next := by
  rcases answers with ⟨current, frame, mapped, table, rfl, success, same⟩
  by_cases present : fault.code.present = true
  · rw [if_pos present] at success same
    have remapped := remap_mapped suits success
    rw [table, ← same] at remapped
    rcases remapped with ⟨there, frame, rights, covers, entry⟩ | ⟨missing, none⟩
    · left
      refine ⟨⟨frame, rights, covers, ?_⟩, fun _ => there⟩
      rw [same]
      exact entry
    · exact .inr ⟨remaps present, missing, none⟩
  · rw [if_neg present] at success same
    left
    refine ⟨?_, fun remaps => absurd remaps.1 present⟩
    rcases map_mapped suits success with ⟨frame, rights, covers, entry⟩
    refine ⟨frame, rights, covers, ?_⟩
    rw [same]
    exact entry

theorem Maps.ends (maps : fault.Maps prot next) (suits : prot.read = true → Suits prot fault.code)
    (notRemaps : ¬ fault.Remaps vmm) : fault.Ends vmm next := by
  rcases maps with ⟨current, frame, success, same⟩
  left
  refine ⟨?_, fun remaps => absurd remaps notRemaps⟩
  rcases map_mapped suits success with ⟨frame, rights, covers, entry⟩
  refine ⟨frame, rights, covers, ?_⟩
  rw [same]
  exact entry

theorem not_remaps_of_empty (only : fault.entry.anonMap = some map)
    (slot : map.slots[fault.index]? = some none) : ¬ fault.Remaps vmm := by
  rintro ⟨_, remaps⟩
  rcases remaps map only with ⟨id, anon, here, _⟩
  rw [slot] at here
  cases here

variable (suits : fault.flags.protection.read = true → Suits fault.flags.protection fault.code)
include suits

/-- A page that is mapped without the right to write was not written to. -/
theorem suits_unless {shared : Prop} [Decidable shared]
    (alone : ¬ (fault.code.write = true ∧ shared)) :
    (if shared then fault.flags.protection.withoutWrite else fault.flags.protection).read = true →
      Suits (if shared then fault.flags.protection.withoutWrite else fault.flags.protection)
        fault.code := by
  split_ifs with here
  · intro read
    apply suits_without_write (suits read)
    by_contra write
    exact alone ⟨by simpa using write, here⟩
  · exact suits

theorem on_anon_ends {id : AnonId} {anon : Anon} (table : locked.pageTable = vmm.pageTable)
    (only : fault.entry.anonMap = some map) (slot : map.slots[fault.index]? = some (some id))
    (held : vmm.anons id = some anon)
    (result : fault.onAnon locked map id anon = some (next, true)) : fault.Ends vmm next := by
  rcases on_anon_answers result with ⟨write, shared, maps⟩ |
    ⟨alone, current, frame, mapped, same, rest⟩
  · apply maps.ends suits
    rintro ⟨_, remaps⟩
    rcases remaps map only with ⟨other, found, here, there, alone⟩
    rw [slot] at here
    cases here
    rw [held] at there
    cases there
    exact alone ⟨write, shared⟩
  · have answers : fault.Answers vmm _ next := ⟨current, frame, mapped, same.trans table, rest⟩
    apply answers.ends (suits_unless suits alone)
    intro present
    refine ⟨present, ?_⟩
    intro other found
    rw [only] at found
    cases found
    exact ⟨id, anon, slot, held, alone⟩

end Fault

theorem handled_ends {vmm next : VMM} {virtAddr : Nat} {fault : Fault}
    (found : vmm.findFault code virtAddr = some fault)
    (result : vmm.handlePageFault code virtAddr = some (next, true)) : fault.Ends vmm next := by
  rcases find_fault_cases found with ⟨_, _, allowed, sameCode, _, _⟩
  have suits : fault.flags.protection.read = true → Suits fault.flags.protection fault.code := by
    rw [sameCode]
    exact allowed_suits allowed
  rcases handle_page_fault_cases result with ⟨_, _, failed⟩ | ⟨_, _, rest⟩
  · cases failed
  rcases rest with ⟨_, failed, _⟩ | ⟨other, same, rest⟩
  · cases failed
  rw [found] at same
  cases same
  rcases rest with ⟨map, only, result⟩ | ⟨id, only, _, result⟩
  · rcases on_anon_map_cases result rfl with ⟨id, anon, slot, held, result⟩ |
      ⟨id, slot, _, result⟩ | ⟨slot, _, result⟩
    · apply on_anon_ends suits _ only slot held result
      rfl
    · rcases on_object_slot_maps result with maps | ⟨direct, maps⟩
      · exact maps.ends suits (not_remaps_of_empty only slot)
      · exact maps.ends (suits_unless suits direct) (not_remaps_of_empty only slot)
    · have maps := on_empty_slot_maps result
      exact maps.ends suits (not_remaps_of_empty only slot)
  · have answers := on_object_answers result
    change fault.Answers vmm fault.flags.protection next at answers
    apply answers.ends suits
    intro present
    refine ⟨present, ?_⟩
    intro map found
    rw [only] at found
    cases found

def onePage (user : Bool) : VMM :=
  { VMM.empty [8] with
    mapEntries := OrderedMap.empty.insert 0x10000
      ⟨0x10000, 0x11000, 0, some ⟨1, 1, [none]⟩, none,
        ⟨.READ_WRITE, .writeBack, user, false, true, true⟩⟩
    regions := initRegion 0x10000 0x20000 }

def userWrite : PageFaultCode := ⟨false, true, true, false⟩

end FrostyKernel.Memory.VMM
