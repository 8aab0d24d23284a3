import FrostyKernel.FileSystem.FDManager

/-!
# The bitmap and the table agree

One lemma for each call of the manager: from a manager whose bitmap and table
agree, the result of the call, the new table, that they agree again, and which
arrays were written. What the calls do to the arrays of other managers follows
from the last part.
-/

namespace FrostyKernel.FileSystem

open Bitmap Function FileDescriptorManager OrderedMap

/-! ## Bitmaps in memory -/

section
variable (memory before after : Memory)

/-- The bytes of a bitmap. A bitmap without an array has none. -/
structure Holds (bitmap : RawBitmap) (bytes : Bytes) : Prop where
  length : bytes.length = bitmap.size
  stored : ∀ address, bitmap.buffer = some address → memory.arrays address = some bytes
  empty : bitmap.buffer = none → bitmap.size = 0

/-- A call may write the array `old` and arrays that did not exist before it;
afterwards the bitmap is in `new`. -/
structure Touches (old new : Option Nat) : Prop where
  arrays : ∀ address, address < before.nextArray → some address ≠ old →
    after.arrays address = before.arrays address
  buffer : ∀ address, new = some address → old = some address ∨ before.nextArray ≤ address
  next : before.nextArray ≤ after.nextArray

/-- What the calls on the bitmap leave alone. -/
structure SameDescriptors : Prop where
  descriptors : after.descriptors = before.descriptors
  nextDescriptor : after.nextDescriptor = before.nextDescriptor
  outcomes : after.outcomes = before.outcomes

/-- What making a descriptor leaves alone. -/
structure SameArrays : Prop where
  arrays : after.arrays = before.arrays
  nextArray : after.nextArray = before.nextArray
  outcomes : after.outcomes = before.outcomes

theorem touches_refl (buffer : Option Nat) : Touches memory memory buffer buffer :=
  ⟨fun _ _ _ => rfl, fun _ same => .inl same, le_refl _⟩

theorem same_descriptors_refl : SameDescriptors memory memory := ⟨rfl, rfl, rfl⟩

end

theorem SameDescriptors.trans {before middle after : Memory} (first : SameDescriptors before middle)
    (second : SameDescriptors middle after) : SameDescriptors before after :=
  ⟨second.descriptors.trans first.descriptors, second.nextDescriptor.trans first.nextDescriptor,
    second.outcomes.trans first.outcomes⟩

section Bits
variable {memory : Memory} {bitmap : RawBitmap} {bytes : Bytes}

section
variable (holds : Holds memory bitmap bytes)
include holds

theorem exists_buffer {index : Nat} (inside : index < bitmap.size * 8) :
    ∃ address, bitmap.buffer = some address ∧ memory.arrays address = some bytes := by
  cases buffer : bitmap.buffer with
  | none =>
    have nothing := holds.empty buffer
    omega
  | some address => exact ⟨address, rfl, holds.stored address buffer⟩

theorem get_of_holds (index : Nat) : bitmap.get memory index = some (bitAt bytes index) := by
  unfold RawBitmap.get
  by_cases beyond : bitmap.size * 8 ≤ index
  · rw [if_pos beyond, bit_at_beyond (by rw [holds.length]; exact beyond)]
  · rcases exists_buffer holds (Nat.lt_of_not_le beyond) with ⟨address, buffer, stored⟩
    have inside : ¬ bytes.length ≤ index / 8 := by
      rw [holds.length]
      omega
    simp [beyond, buffer, stored, inside]

theorem set_of_holds (index : Nat) (value : Bool) :
    ∃ after, bitmap.set memory index value = some after ∧
      Holds after bitmap (write bytes index value) ∧
      Touches memory after bitmap.buffer bitmap.buffer ∧ SameDescriptors memory after ∧
      after.nextArray = memory.nextArray := by
  unfold RawBitmap.set
  by_cases beyond : bitmap.size * 8 ≤ index
  · have outside : bytes.length ≤ index / 8 := by
      rw [holds.length]
      omega
    have same : write bytes index value = bytes := List.modify_eq_self outside
    refine ⟨memory, if_pos beyond, ?_, touches_refl _ _, same_descriptors_refl _, rfl⟩
    rw [same]
    exact holds
  · rcases exists_buffer holds (Nat.lt_of_not_le beyond) with ⟨address, buffer, stored⟩
    have inside : ¬ bytes.length ≤ index / 8 := by
      rw [holds.length]
      omega
    refine ⟨memory.setArray address (write bytes index value),
      by simp [beyond, buffer, stored, inside],
      ⟨?_, ?_, ?_⟩, ⟨?_, fun _ same => .inl same, le_refl _⟩, ⟨rfl, rfl, rfl⟩, rfl⟩
    · rw [write_length, holds.length]
    · intro other same
      have here : other = address := by
        rw [buffer] at same
        exact (Option.some.inj same).symm
      rw [here]
      exact update_self address _ _
    · exact holds.empty
    · intro other _ different
      apply update_of_ne
      intro same
      exact different (by rw [same, buffer])

theorem first_clear_of_holds (indices : List Nat) :
    bitmap.firstClear memory indices = some (indices.find? fun index => !bitAt bytes index) := by
  induction indices with
  | nil => rfl
  | cons index rest ih =>
    rw [RawBitmap.firstClear, get_of_holds holds]
    cases bit : bitAt bytes index with
    | false => simp [bit]
    | true => simp [bit, ih]

end

/-- A new array of zeroes. -/
theorem new_array_granted (granted : memory.outcomes = []) (size : Nat) :
    ∃ after, memory.newArray size = (after, some memory.nextArray) ∧
      after.arrays memory.nextArray = some (List.replicate size 0#8) ∧
      (∀ address, address ≠ memory.nextArray → after.arrays address = memory.arrays address) ∧
      after.nextArray = memory.nextArray + 1 ∧ SameDescriptors memory after := by
  refine ⟨{ memory with
    arrays := update memory.arrays memory.nextArray (some (List.replicate size 0#8))
    nextArray := memory.nextArray + 1 }, ?_, update_self _ _ _, fun address different =>
    update_of_ne different _ _, rfl, ⟨rfl, rfl, rfl⟩⟩
  simp only [Memory.newArray, Memory.draw, granted]

theorem copy_of_holds {target : Nat} {rest : Nat} (holds : Holds memory bitmap bytes)
    (blank : memory.arrays target = some (List.replicate (bitmap.size + rest) 0#8)) :
    ∃ after, memory.copyArray target bitmap.buffer bitmap.size = some after ∧
      after.arrays target = some (bytes ++ List.replicate rest 0#8) ∧
      (∀ address, address ≠ target → after.arrays address = memory.arrays address) ∧
      after.nextArray = memory.nextArray ∧ SameDescriptors memory after := by
  unfold Memory.copyArray
  by_cases nothing : bitmap.size = 0
  · have noBytes : bytes = [] := List.length_eq_zero_iff.mp (holds.length.trans nothing)
    refine ⟨memory, if_pos nothing, ?_, fun _ _ => rfl, rfl, same_descriptors_refl _⟩
    rw [blank, noBytes, nothing, zero_add, List.nil_append]
  have inside : 0 < bitmap.size * 8 := by omega
  rcases exists_buffer holds inside with ⟨address, buffer, stored⟩
  refine ⟨memory.setArray target (bytes ++ List.replicate rest 0#8), ?_, update_self _ _ _, fun
    other otherwise => update_of_ne otherwise _ _, rfl, ⟨rfl, rfl, rfl⟩⟩
  rw [if_neg nothing, buffer]
  have whole : bytes.take bitmap.size = bytes := List.take_of_length_le (by rw [holds.length])
  simp [stored, blank, holds.length, whole]

/-- The bitmap is copied into a new array with zeroes behind it. -/
theorem new_copy_granted (granted : memory.outcomes = []) (holds : Holds memory bitmap bytes)
    (allocated : ∀ address, bitmap.buffer = some address → address < memory.nextArray)
    (rest : Nat) :
    ∃ larger after, memory.newArray (bitmap.size + rest) = (larger, some memory.nextArray) ∧
      larger.copyArray memory.nextArray bitmap.buffer bitmap.size = some after ∧
      after.arrays memory.nextArray = some (bytes ++ List.replicate rest 0#8) ∧
      (∀ address, address ≠ memory.nextArray → after.arrays address = memory.arrays address) ∧
      after.nextArray = memory.nextArray + 1 ∧ SameDescriptors memory after := by
  rcases new_array_granted granted (bitmap.size + rest) with
    ⟨larger, newCall, blank, others, next, sameNew⟩
  have kept : Holds larger bitmap bytes := by
    refine ⟨holds.length, ?_, holds.empty⟩
    intro address buffer
    rw [others address (ne_of_lt (allocated address buffer))]
    exact holds.stored address buffer
  rcases copy_of_holds kept blank with ⟨after, copyCall, target, untouched, copyNext, sameCopy⟩
  refine ⟨larger, after, newCall, copyCall, target, ?_, copyNext.trans next, sameNew.trans sameCopy⟩
  intro address different
  rw [untouched address different, others address different]

theorem delete_array_spec (memory : Memory) (buffer : Option Nat) :
    (∀ address, some address ≠ buffer →
        (memory.deleteArray buffer).arrays address = memory.arrays address) ∧
      (memory.deleteArray buffer).nextArray = memory.nextArray ∧
      SameDescriptors memory (memory.deleteArray buffer) := by
  cases buffer with
  | none => exact ⟨fun _ _ => rfl, rfl, same_descriptors_refl _⟩
  | some old =>
    refine ⟨?_, rfl, ⟨rfl, rfl, rfl⟩⟩
    intro address different
    exact update_of_ne (fun equal => different (by rw [equal])) _ _

end Bits

/-! ## One manager -/

/-- A bit is set exactly when its number is a key of the table. -/
structure Synced (memory : Memory) (manager : FileDescriptorManager) : Prop where
  bits : ∃ bytes, Holds memory manager.bitmap bytes ∧
    ∀ fd, bitAt bytes fd = (manager.currentFDs.find? fd).isSome
  allocated : ∀ address, manager.bitmap.buffer = some address → address < memory.nextArray
  whole : initialBytes ∣ manager.bitmap.size
  bounded : manager.bitmap.size * 8 ≤ MAX_FD
  unlocked : manager.bitmapLocked = false

/-- The manager is usable: it went through `Init` or `Fork`. -/
def FileDescriptorManager.Ready (manager : FileDescriptorManager) : Prop := manager.bitmap.size ≠ 0

instance (manager : FileDescriptorManager) : Decidable manager.Ready := by
  unfold Ready
  infer_instance

/-- A new manager, or one after `Delete`. -/
structure FileDescriptorManager.Vacant (manager : FileDescriptorManager) : Prop where
  noTable : manager.currentFDs = .empty
  noBitmap : manager.bitmap = ⟨none, 0⟩
  unlocked : manager.bitmapLocked = false

theorem fresh_vacant : fresh.Vacant := ⟨rfl, rfl, rfl⟩

theorem vacant_synced {manager : FileDescriptorManager} (vacant : manager.Vacant) (memory : Memory) :
    Synced memory manager := by
  rcases vacant with ⟨noTable, noBitmap, unlocked⟩
  refine ⟨⟨[], ?_, ?_⟩, ?_, ?_, ?_, unlocked⟩
  · rw [noBitmap]
    exact ⟨rfl, fun address impossible => absurd impossible (by simp), fun _ => rfl⟩
  · intro fd
    rw [noTable, find_empty]
    exact bit_at_beyond (Nat.zero_le _)
  · intro address buffer
    rw [noBitmap] at buffer
    cases buffer
  · rw [noBitmap]
    exact Nat.dvd_zero _
  · rw [noBitmap]
    exact Nat.zero_le _

section Manager
variable {memory : Memory} {manager : FileDescriptorManager}

section
variable (synced : Synced memory manager)
include synced
variable {fd index : Nat}

theorem key_below_size {id : Nat} (found : manager.currentFDs.find? fd = some id) :
    fd < manager.bitmap.size * 8 := by
  rcases synced.bits with ⟨bytes, holds, agree⟩
  by_contra beyond
  have clear : bitAt bytes fd = false := by
    apply bit_at_beyond
    rw [holds.length]
    omega
  have member := agree fd
  rw [clear, found] at member
  cases member

theorem mark_synced (desc : Nat) (inside : index < manager.bitmap.size * 8)
    (absent : manager.currentFDs.find? index = none) :
    ∃ after, manager.bitmap.set memory index true = some after ∧
      Synced after { manager with currentFDs := manager.currentFDs.insert index desc } ∧
      Touches memory after manager.bitmap.buffer manager.bitmap.buffer ∧
      SameDescriptors memory after := by
  rcases synced.bits with ⟨bytes, holds, agree⟩
  rcases set_of_holds holds index true with ⟨after, call, stored, touches, same, next⟩
  refine ⟨after, call, ⟨⟨_, stored, ?_⟩, ?_, synced.whole, synced.bounded, synced.unlocked⟩,
    touches, same⟩
  · intro fd
    change _ = ((manager.currentFDs.insert index desc).find? fd).isSome
    rw [find_insert_of_none desc absent]
    by_cases here : fd = index
    · rw [if_pos here, here]
      exact bit_at_write_same true (by rw [holds.length]; exact inside)
    · rw [if_neg here, bit_at_write_other true here]
      exact agree fd
  · intro address buffer
    rw [next]
    exact synced.allocated address buffer

theorem take_spec (desc : Nat) (inside : index < manager.bitmap.size * 8)
    (absent : manager.currentFDs.find? index = none) :
    ∃ after, manager.take memory index desc = some (after,
        { manager with currentFDs := manager.currentFDs.insert index desc }, .ok index) ∧
      Synced after { manager with currentFDs := manager.currentFDs.insert index desc } ∧
      Touches memory after manager.bitmap.buffer manager.bitmap.buffer ∧
      SameDescriptors memory after := by
  rcases mark_synced synced desc inside absent with ⟨after, call, further⟩
  refine ⟨after, ?_, further⟩
  simp only [take, call]

/-- The number a call of `Allocate` gave out, and what it left behind. -/
structure Allocated (memory : Memory) (manager : FileDescriptorManager) (desc : Nat)
    (after : Memory) (final : FileDescriptorManager) (fd : Nat) : Prop where
  unused : manager.currentFDs.find? fd = none
  smallest : ∀ lower, lower < fd → (manager.currentFDs.find? lower).isSome = true
  below : fd < MAX_FD
  table : final.currentFDs = manager.currentFDs.insert fd desc
  synced : Synced after final
  ready : final.Ready
  touches : Touches memory after manager.bitmap.buffer final.bitmap.buffer
  same : SameDescriptors memory after

theorem grow_spec (granted : memory.outcomes = []) (desc : Nat)
    (room : manager.bitmap.size * 8 < MAX_FD)
    (full : ∀ fd, fd < manager.bitmap.size * 8 → (manager.currentFDs.find? fd).isSome = true) :
    ∃ after final, manager.grow memory desc = some (after, final, .ok (manager.bitmap.size * 8)) ∧
      Allocated memory manager desc after final (manager.bitmap.size * 8) := by
  rcases synced.bits with ⟨bytes, holds, agree⟩
  rcases new_copy_granted granted holds synced.allocated initialBytes with
    ⟨larger, copied, newCall, copyCall, target, rest, copyNext, sameCopy⟩
  rcases delete_array_spec copied manager.bitmap.buffer with ⟨others, sameNext, sameDeleted⟩
  have apart : some memory.nextArray ≠ manager.bitmap.buffer := by
    intro same
    exact absurd (synced.allocated _ same.symm) (lt_irrefl _)
  have deletedNext := sameNext.trans copyNext
  -- the manager whose bitmap is the longer array
  have grownHolds : Holds (copied.deleteArray manager.bitmap.buffer)
      ⟨some memory.nextArray, manager.bitmap.size + initialBytes⟩
      (bytes ++ List.replicate initialBytes 0#8) := by
    refine ⟨by simp [holds.length], ?_, fun impossible => by cases impossible⟩
    intro address buffer
    rw [← Option.some.inj buffer, others _ apart]
    exact target
  have grownSynced : Synced (copied.deleteArray manager.bitmap.buffer) { manager with
      bitmap := ⟨some memory.nextArray, manager.bitmap.size + initialBytes⟩ } := by
    refine ⟨⟨_, grownHolds, ?_⟩, ?_, dvd_add synced.whole (dvd_refl _), ?_, synced.unlocked⟩
    · intro fd
      rw [bit_at_append_zeroes]
      exact agree fd
    · intro address buffer
      have here : address = memory.nextArray := (Option.some.inj buffer).symm
      rw [here, deletedNext]
      exact Nat.lt_succ_self _
    · have step := synced.whole
      change (manager.bitmap.size + initialBytes) * 8 ≤ MAX_FD
      simp only [initialBytes, INITIAL_FD_TABLE_SIZE, MAX_FD] at step room ⊢
      omega
  have absent : manager.currentFDs.find? (manager.bitmap.size * 8) = none := by
    rw [← Option.not_isSome_iff_eq_none]
    intro present
    rw [← agree, bit_at_beyond (by rw [holds.length])] at present
    cases present
  have inside : manager.bitmap.size * 8 < (manager.bitmap.size + initialBytes) * 8 := by
    simp only [initialBytes, INITIAL_FD_TABLE_SIZE]
    omega
  rcases take_spec grownSynced desc inside absent with ⟨after, takeCall, afterSynced, touches, same⟩
  refine ⟨after, _, ?_, ⟨absent, full, room, rfl, afterSynced, ?_, ⟨?_, ?_, ?_⟩, ?_⟩⟩
  · simp only [grow, newCall, copyCall]
    exact takeCall
  · simp [Ready, initialBytes, INITIAL_FD_TABLE_SIZE]
  · intro address older different
    rw [touches.arrays address (by rw [deletedNext]; omega) fun same => by
      have here := Option.some.inj same
      omega]
    rw [others address different, rest address (ne_of_lt older)]
  · intro address same
    exact .inr (le_of_eq (Option.some.inj same))
  · have further := touches.next
    rw [deletedNext] at further
    omega
  · exact (sameCopy.trans sameDeleted).trans same

/-- `Allocate` gives out the smallest number that is not in the table, and refuses
only when there is none. -/
theorem allocate_spec (granted : memory.outcomes = []) (desc : Nat) :
    (manager.allocate memory desc = some (memory, manager, .error .EMFILE) ∧
        ∀ fd, fd < MAX_FD → (manager.currentFDs.find? fd).isSome = true) ∨
      ∃ after final fd, manager.allocate memory desc = some (after, final, .ok fd) ∧
        Allocated memory manager desc after final fd := by
  rcases synced.bits with ⟨bytes, holds, agree⟩
  unfold allocate
  rw [synced.unlocked, first_clear_of_holds holds]
  simp only [Bool.false_eq_true, if_false]
  cases found : (List.range (manager.bitmap.size * 8)).find? fun index => !bitAt bytes index with
  | some index =>
    right
    rw [List.find?_range_eq_some] at found
    rcases found with ⟨clear, inside, before⟩
    have absent : manager.currentFDs.find? index = none := by
      rw [← Option.not_isSome_iff_eq_none, ← agree]
      simpa using clear
    rw [List.mem_range] at inside
    rcases take_spec synced desc inside absent with ⟨after, call, afterSynced, touches, same⟩
    refine ⟨after, _, index, call, ⟨absent, ?_, ?_, rfl, afterSynced, ?_, touches, same⟩⟩
    · intro lower less
      have set := before lower less
      rw [← agree]
      simpa using set
    · exact lt_of_lt_of_le inside synced.bounded
    · intro nothing
      simp only at nothing
      omega
  | none =>
    have full : ∀ fd, fd < manager.bitmap.size * 8 →
        (manager.currentFDs.find? fd).isSome = true := by
      intro fd inside
      have set := List.find?_eq_none.mp found fd (List.mem_range.mpr inside)
      rw [← agree]
      simpa using set
    by_cases last : manager.bitmap.size * 8 = MAX_FD
    · left
      refine ⟨by simp only [last, if_true], ?_⟩
      rw [← last]
      exact full
    · right
      have room := Nat.lt_of_le_of_ne synced.bounded last
      rcases grow_spec synced granted desc room full with ⟨after, final, call, allocated⟩
      refine ⟨after, final, _, ?_, allocated⟩
      simp only [last, if_false]
      exact call

theorem free_spec {id : Nat} (found : manager.currentFDs.find? fd = some id) :
    ∃ after, manager.free memory fd = some (after,
        { manager with currentFDs := manager.currentFDs.erase fd }, some id) ∧
      Synced after { manager with currentFDs := manager.currentFDs.erase fd } ∧
      Touches memory after manager.bitmap.buffer manager.bitmap.buffer ∧
      SameDescriptors memory after := by
  have inside := key_below_size synced found
  rcases synced.bits with ⟨bytes, holds, agree⟩
  rcases set_of_holds holds fd false with ⟨after, call, stored, touches, same, next⟩
  refine ⟨after, ?_, ⟨⟨_, stored, ?_⟩, ?_, synced.whole, synced.bounded, synced.unlocked⟩,
    touches, same⟩
  · simp only [free, found, synced.unlocked, Bool.false_eq_true, if_false, call]
  · intro other
    change _ = ((manager.currentFDs.erase fd).find? other).isSome
    rw [find_erase]
    by_cases here : other = fd
    · rw [if_pos here, here]
      exact bit_at_write_same false (by rw [holds.length]; exact inside)
    · rw [if_neg here, bit_at_write_other false here]
      exact agree other
  · intro address buffer
    rw [next]
    exact synced.allocated address buffer

theorem reserve_spec (desc : Nat) (inside : fd < manager.bitmap.size * 8) :
    (manager.reserveFD memory fd desc = some (memory, manager, false) ∧
        (manager.currentFDs.find? fd).isSome = true) ∨
      (manager.currentFDs.find? fd = none ∧ ∃ after, manager.reserveFD memory fd desc =
          some (after, { manager with currentFDs := manager.currentFDs.insert fd desc }, true) ∧
        Synced after { manager with currentFDs := manager.currentFDs.insert fd desc } ∧
        Touches memory after manager.bitmap.buffer manager.bitmap.buffer ∧
        SameDescriptors memory after) := by
  rcases synced.bits with ⟨bytes, holds, agree⟩
  have look := get_of_holds holds fd
  rw [agree] at look
  cases found : manager.currentFDs.find? fd with
  | some id =>
    left
    rw [found] at look
    refine ⟨?_, rfl⟩
    simp [reserveFD, synced.unlocked, look]
  | none =>
    right
    rw [found] at look
    rcases mark_synced synced desc inside found with ⟨after, call, further⟩
    refine ⟨rfl, after, ?_, further⟩
    simp [reserveFD, synced.unlocked, look, call]

end

theorem init_spec (vacant : manager.Vacant) (granted : memory.outcomes = []) :
    ∃ after final, manager.init memory = some (after, final, true) ∧
      final.currentFDs = .empty ∧ final.Ready ∧ Synced after final ∧
      Touches memory after manager.bitmap.buffer final.bitmap.buffer ∧
      SameDescriptors memory after := by
  rcases new_array_granted granted initialBytes with ⟨after, call, blank, others, next, same⟩
  refine ⟨after, { manager with bitmap := ⟨some memory.nextArray, initialBytes⟩ }, ?_,
    vacant.noTable, ?_, ⟨⟨List.replicate initialBytes 0#8, ⟨List.length_replicate, ?_, ?_⟩, ?_⟩, ?_,
      dvd_refl _, ?_, vacant.unlocked⟩, ⟨?_, ?_, ?_⟩, same⟩
  · simp only [init, call, vacant.unlocked, Bool.false_eq_true, if_false]
  · change initialBytes ≠ 0
    decide
  · intro address buffer
    rw [← Option.some.inj buffer]
    exact blank
  · intro impossible
    cases impossible
  · intro fd
    rw [bit_at_zeroes]
    change false = (manager.currentFDs.find? fd).isSome
    rw [vacant.noTable, find_empty]
    rfl
  · intro address buffer
    rw [← Option.some.inj buffer, next]
    exact Nat.lt_succ_self _
  · change initialBytes * 8 ≤ MAX_FD
    decide
  · intro address older _
    exact others address (ne_of_lt older)
  · intro address same
    exact .inr (le_of_eq (Option.some.inj same))
  · omega

end Manager
end FrostyKernel.FileSystem
