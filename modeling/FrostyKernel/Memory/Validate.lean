import FrostyKernel.Lib.Run
import FrostyKernel.Memory.Types

/-!
# Validation of user buffers

`VMM::ValidateRead` and `VMM::ValidateWrite` are one loop that hops from entry
to entry and differ in the protection bit they require. The address and the
size come from user space unchecked. The end of the buffer is computed modulo
`2 ^ 64`, and that sum does not change while the loop hops, so the loop compares
every entry with the same, possibly wrapped, end.
-/

namespace FrostyKernel.Memory

open Word OrderedMap

structure ValidateState where
  virtAddr : Nat
  size : Nat
deriving DecidableEq, Repr

/-- One iteration of the loop. The right bit is read off the protection of the
entry at or below the current address. -/
def validateStep (mapEntries : OrderedMap Nat MapEntry) (right : Protection → Bool)
    (user : Bool) (state : ValidateState) : ValidateState ⊕ Bool :=
  match mapEntries.findNodeOrLower state.virtAddr with
  | none => .inr false
  | some (_, entry) =>
    if state.virtAddr < entry.startVirt ∨ (user = true ∧ entry.flags.user = false) ∨
        right entry.flags.protection = false then .inr false
    else if add64 state.virtAddr state.size ≤ entry.endVirt then .inr true
    else .inl
      { virtAddr := entry.endVirt
        size := sub64 state.size (sub64 entry.endVirt state.virtAddr) }

section
variable (mapEntries : OrderedMap Nat MapEntry) (right : Protection → Bool) (addr size : Nat)
  (user result : Bool)

/-- `ValidateRead(addr, size, user)` returns `result`. -/
def validateRead : Prop :=
  Returns (validateStep mapEntries Protection.read user) ⟨addr, size⟩ result

/-- `ValidateWrite(addr, size, user)` returns `result`. -/
def validateWrite : Prop :=
  Returns (validateStep mapEntries Protection.write user) ⟨addr, size⟩ result

/-- What the tree promises about its entries: the key is the start address, the
end is a machine word and no entry ends before it starts. -/
structure KeyedByStart : Prop where
  keyed : ∀ key entry, mapEntries.find? key = some entry → entry.startVirt = key
  ordered : ∀ key entry, mapEntries.find? key = some entry → entry.startVirt ≤ entry.endVirt
  word : ∀ key entry, mapEntries.find? key = some entry → entry.endVirt < 2 ^ 64

def Accessible (address : Nat) : Prop :=
  ∃ key entry, mapEntries.find? key = some entry ∧ entry.Covers address ∧
    entry.flags.user = true ∧ right entry.flags.protection = true

/-- Acceptance means that every byte of the buffer is accessible. The bytes are
`addr + k` without wrap-around. -/
def ReadSound : Prop :=
  validateRead mapEntries addr size true true →
    ∀ k, k < size → Accessible mapEntries Protection.read (addr + k)

def WriteSound : Prop :=
  validateWrite mapEntries addr size true true →
    ∀ k, k < size → Accessible mapEntries Protection.write (addr + k)

/-- The end of the buffer passes the top of the address space, and the wrapped
end is not above the end of the permitted entry at or below the address. -/
def WrapsBelow : Prop :=
  2 ^ 64 ≤ addr + size ∧ ∃ key entry, mapEntries.findNodeOrLower addr = some (key, entry) ∧
    entry.flags.user = true ∧ right entry.flags.protection = true ∧
      addr + size - 2 ^ 64 ≤ entry.endVirt

end

def EntryPermits (right : Protection → Bool) (user : Bool) (entry : MapEntry) : Prop :=
  (user = true → entry.flags.user = true) ∧ right entry.flags.protection = true

section Soundness
variable {mapEntries : OrderedMap Nat MapEntry} {right : Protection → Bool} {user : Bool}

/-- The end of the buffer is the same 64-bit word in every iteration. -/
theorem hop_keeps_end {virtAddr size endVirt : Nat} :
    add64 endVirt (sub64 size (sub64 endVirt virtAddr)) = add64 virtAddr size := by
  unfold add64 sub64
  omega

variable {state : ValidateState}

theorem validate_step_found {key : Nat} {entry : MapEntry}
    (found : mapEntries.findNodeOrLower state.virtAddr = some (key, entry))
    (starts : entry.startVirt ≤ state.virtAddr) (grants : EntryPermits right user entry) :
    validateStep mapEntries right user state =
      if add64 state.virtAddr state.size ≤ entry.endVirt then .inr true
      else .inl ⟨entry.endVirt, sub64 state.size (sub64 entry.endVirt state.virtAddr)⟩ := by
  unfold validateStep
  rw [found]
  simp only
  rw [if_neg]
  rintro (below | ⟨asked, denied⟩ | refused)
  · omega
  · rw [grants.1 asked] at denied
    cases denied
  · rw [grants.2] at refused
    cases refused

theorem validate_step_cases (mapEntries : OrderedMap Nat MapEntry) (right : Protection → Bool)
    (user : Bool) (state : ValidateState) :
    validateStep mapEntries right user state = .inr false ∨
      ∃ key entry, mapEntries.findNodeOrLower state.virtAddr = some (key, entry) ∧
        entry.startVirt ≤ state.virtAddr ∧ EntryPermits right user entry := by
  unfold validateStep
  split
  · exact .inl rfl
  · rename_i key entry found
    split_ifs with refused
    · exact .inl rfl
    all_goals
      simp only [not_or, not_lt, not_and, Bool.not_eq_false] at refused
      exact .inr ⟨key, entry, found, refused.1, refused.2.1, refused.2.2⟩

theorem validate_step_inr_true (ends : validateStep mapEntries right user state = .inr true) :
    ∃ key entry, mapEntries.findNodeOrLower state.virtAddr = some (key, entry) ∧
      entry.startVirt ≤ state.virtAddr ∧ EntryPermits right user entry ∧
      add64 state.virtAddr state.size ≤ entry.endVirt := by
  rcases validate_step_cases mapEntries right user state with failed |
    ⟨key, entry, found, starts, grants⟩
  · rw [failed] at ends
    cases ends
  · rw [validate_step_found found starts grants] at ends
    split_ifs at ends with reaches
    exact ⟨key, entry, found, starts, grants, reaches⟩

theorem validate_step_inl {next : ValidateState}
    (continues : validateStep mapEntries right user state = .inl next) :
    ∃ key entry, mapEntries.findNodeOrLower state.virtAddr = some (key, entry) ∧
      entry.startVirt ≤ state.virtAddr ∧ EntryPermits right user entry ∧
      entry.endVirt < add64 state.virtAddr state.size ∧ next.virtAddr = entry.endVirt ∧
      add64 next.virtAddr next.size = add64 state.virtAddr state.size := by
  rcases validate_step_cases mapEntries right user state with failed |
    ⟨key, entry, found, starts, grants⟩
  · rw [failed] at continues
    cases continues
  · rw [validate_step_found found starts grants] at continues
    split_ifs at continues with short
    cases continues
    exact ⟨key, entry, found, starts, grants, not_le.mp short, rfl, hop_keeps_end⟩

/-- Without wrap-around the loop accepts only what it has walked over: every
address between the start of the buffer and the current one is accessible. -/
theorem validate_accepts_covered {addr size : Nat} (noWrap : addr + size < 2 ^ 64)
    (accepted : Returns (validateStep mapEntries right true) ⟨addr, size⟩ true) :
    ∀ k, k < size → Accessible mapEntries right (addr + k) := by
  have sum : add64 addr size = addr + size := add64_of_lt noWrap
  let walked : ValidateState → Prop := fun state =>
    add64 state.virtAddr state.size = addr + size ∧
      ∀ address, addr ≤ address → address < state.virtAddr → Accessible mapEntries right address
  have conclusion : (true = true → ∀ k, k < size → Accessible mapEntries right (addr + k)) := by
    refine loop_invariant walked
      (fun result => result = true → ∀ k, k < size → Accessible mapEntries right (addr + k))
      ?_ ?_ ?_ accepted
    · rintro state next ⟨ending, covered⟩ continues
      obtain ⟨key, entry, found, starts, grants, _, nextAddr, same⟩ := validate_step_inl continues
      refine ⟨same.trans ending, ?_⟩
      intro address above below
      rw [nextAddr] at below
      by_cases earlier : address < state.virtAddr
      · exact covered address above earlier
      · exact ⟨key, entry, (find_node_or_lower_some_iff.mp found).1,
          ⟨by omega, below⟩, grants.1 rfl, grants.2⟩
    · rintro state result ⟨ending, covered⟩ ends yes k inside
      subst yes
      obtain ⟨key, entry, found, starts, grants, reaches⟩ := validate_step_inr_true ends
      rw [ending] at reaches
      by_cases earlier : addr + k < state.virtAddr
      · exact covered (addr + k) (by omega) earlier
      · exact ⟨key, entry, (find_node_or_lower_some_iff.mp found).1,
          ⟨by omega, by omega⟩, grants.1 rfl, grants.2⟩
    · refine ⟨sum, ?_⟩
      intro address above below
      exact absurd below (not_lt.mpr above)
  exact conclusion rfl

variable (shape : KeyedByStart mapEntries)
include shape
variable {addr size : Nat}

/-- A wrapped end above the end of the entry found first leaves the loop at the
end of that entry forever: the search from there finds the same entry. -/
theorem validate_rejects_high_wrap (addrWord : addr < 2 ^ 64) (sizeWord : size < 2 ^ 64)
    (wraps : 2 ^ 64 ≤ addr + size) (outside : ¬ WrapsBelow mapEntries right addr size) :
    ¬ Returns (validateStep mapEntries right true) ⟨addr, size⟩ true := by
  intro accepted
  have sum : add64 addr size = addr + size - 2 ^ 64 := by
    unfold add64
    omega
  cases first : validateStep mapEntries right true ⟨addr, size⟩ with
  | inr result =>
    have yes := (returns_inr_iff first).mp accepted
    subst yes
    obtain ⟨key, entry, found, _, grants, reaches⟩ := validate_step_inr_true first
    rw [sum] at reaches
    exact outside ⟨wraps, key, entry, found, grants.1 rfl, grants.2, reaches⟩
  | inl next =>
    obtain ⟨key, entry, found, starts, grants, passed, nextAddr, same⟩ := validate_step_inl first
    obtain ⟨stored, below, greatest⟩ := find_node_or_lower_some_iff.mp found
    simp only [sum] at starts below greatest passed same
    have keyEq := shape.keyed key entry stored
    have ordered := shape.ordered key entry stored
    have again : mapEntries.findNodeOrLower entry.endVirt = some (key, entry) := by
      refine find_node_or_lower_some_iff.mpr ⟨stored, by omega, ?_⟩
      intro node member low
      exact greatest node member (by omega)
    let stuck : ValidateState → Prop := fun state =>
      state.virtAddr = entry.endVirt ∧ add64 state.virtAddr state.size = addr + size - 2 ^ 64
    have trapped : ∀ state, stuck state →
        ∃ next, validateStep mapEntries right true state = .inl next ∧ stuck next := by
      rintro ⟨virtAddr, rest⟩ ⟨here, ending⟩
      simp only at here ending
      subst here
      refine ⟨⟨entry.endVirt, sub64 rest (sub64 entry.endVirt entry.endVirt)⟩, ?_, rfl, ?_⟩
      · rw [validate_step_found again ordered grants, if_neg]
        simp only [ending]
        omega
      · simp only
        rw [hop_keeps_end, ending]
    exact not_returns_of_trap stuck trapped ⟨nextAddr, same⟩ true
      ((returns_inl_iff first).mp accepted)

theorem not_accessible_at_top : ¬ Accessible mapEntries right (2 ^ 64 - 1) := by
  rintro ⟨key, entry, stored, covers, _⟩
  have bound := shape.word key entry stored
  have inside := covers.2
  omega

theorem wraps_below_accepted (addrWord : addr < 2 ^ 64) (sizeWord : size < 2 ^ 64)
    (wraps : WrapsBelow mapEntries right addr size) :
    Returns (validateStep mapEntries right true) ⟨addr, size⟩ true := by
  obtain ⟨passes, key, entry, found, user, permits, reaches⟩ := wraps
  obtain ⟨stored, below, _⟩ := find_node_or_lower_some_iff.mp found
  have keyEq := shape.keyed key entry stored
  have sum : add64 addr size = addr + size - 2 ^ 64 := by
    unfold add64
    omega
  apply returns_of_inr
  rw [validate_step_found found (keyEq.trans_le below) ⟨fun _ => user, permits⟩, if_pos]
  rw [sum]
  exact reaches

theorem validate_sound_iff (addrWord : addr < 2 ^ 64) (sizeWord : size < 2 ^ 64) :
    (Returns (validateStep mapEntries right true) ⟨addr, size⟩ true →
      ∀ k, k < size → Accessible mapEntries right (addr + k)) ↔
        ¬ WrapsBelow mapEntries right addr size := by
  constructor
  · intro sound wraps
    have accepted := wraps_below_accepted shape addrWord sizeWord wraps
    have passes := wraps.1
    have top := sound accepted (2 ^ 64 - 1 - addr) (by omega)
    have address : addr + (2 ^ 64 - 1 - addr) = 2 ^ 64 - 1 := by omega
    rw [address] at top
    exact not_accessible_at_top shape top
  · intro outside accepted
    by_cases wraps : 2 ^ 64 ≤ addr + size
    · exact absurd accepted (validate_rejects_high_wrap shape addrWord sizeWord wraps outside)
    · exact validate_accepts_covered (by omega) accepted

end Soundness

/-- For every set of entries, address and size, an accepted user buffer is
accessible exactly when its end does not wrap to below the end of the entry
that permits its first byte. -/
theorem validate_user_buffer_sound_iff (mapEntries : OrderedMap Nat MapEntry)
    (shape : KeyedByStart mapEntries) (addr size : Nat)
    (addrWord : addr < 2 ^ 64) (sizeWord : size < 2 ^ 64) :
    (ReadSound mapEntries addr size ↔ ¬ WrapsBelow mapEntries Protection.read addr size) ∧
      (WriteSound mapEntries addr size ↔
        ¬ WrapsBelow mapEntries Protection.write addr size) :=
  ⟨validate_sound_iff shape addrWord sizeWord, validate_sound_iff shape addrWord sizeWord⟩

/-- One readable and writable user page at `0x1000`. -/
def onePageEntry : MapEntry where
  startVirt := 0x1000
  endVirt := 0x2000
  offset := 0
  anonMap := none
  memoryObject := none
  flags :=
    { protection := Protection.READ_WRITE
      cacheType := .writeBack
      user := true
      needsCopy := false
      isPrivate := true
      zero := true }

def onePageMap : OrderedMap Nat MapEntry := OrderedMap.empty.insert 0x1000 onePageEntry

theorem one_page_only {key : Nat} {entry : MapEntry} (found : onePageMap.find? key = some entry) :
    key = 0x1000 ∧ entry = onePageEntry := by
  have member := find_some_iff.mp found
  simpa [onePageMap, OrderedMap.insert, OrderedMap.insertList, OrderedMap.empty] using member

theorem one_page_map_keyed : KeyedByStart onePageMap := by
  refine ⟨?_, ?_, ?_⟩ <;> intro key entry found <;> obtain ⟨rfl, rfl⟩ := one_page_only found <;>
    decide

theorem validate_user_buffer_one_page :
    ReadSound onePageMap 0x1800 0x100 ∧ WriteSound onePageMap 0x1800 0x100 := by
  have exact := validate_user_buffer_sound_iff onePageMap one_page_map_keyed 0x1800 0x100
    (by norm_num) (by norm_num)
  refine ⟨exact.1.mpr ?_, exact.2.mpr ?_⟩ <;> rintro ⟨wraps, _⟩ <;> norm_num at wraps

/-- A size just below `2 ^ 64` is accepted although only half a page is mapped
from the address on. -/
theorem validate_user_buffer_wraps :
    (validateRead onePageMap 0x1800 (2 ^ 64 - 0x1000) true true ∧
        ¬ ReadSound onePageMap 0x1800 (2 ^ 64 - 0x1000)) ∧
      validateWrite onePageMap 0x1800 (2 ^ 64 - 0x1000) true true ∧
        ¬ WriteSound onePageMap 0x1800 (2 ^ 64 - 0x1000) := by
  have found : onePageMap.findNodeOrLower 0x1800 = some (0x1000, onePageEntry) := by decide
  have wraps : ∀ right : Protection → Bool, right Protection.READ_WRITE = true →
      WrapsBelow onePageMap right 0x1800 (2 ^ 64 - 0x1000) := by
    intro right permits
    exact ⟨by norm_num, 0x1000, onePageEntry, found, rfl, permits, by decide⟩
  have accepted : ∀ right : Protection → Bool, right Protection.READ_WRITE = true →
      Returns (validateStep onePageMap right true) ⟨0x1800, 2 ^ 64 - 0x1000⟩ true :=
    fun right permits => wraps_below_accepted one_page_map_keyed (by norm_num) (by norm_num)
      (wraps right permits)
  have unsound : ∀ right : Protection → Bool, right Protection.READ_WRITE = true →
      ¬ (Returns (validateStep onePageMap right true) ⟨0x1800, 2 ^ 64 - 0x1000⟩ true →
        ∀ k, k < 2 ^ 64 - 0x1000 → Accessible onePageMap right (0x1800 + k)) :=
    fun right permits sound => (validate_sound_iff one_page_map_keyed (by norm_num)
      (by norm_num)).mp sound (wraps right permits)
  exact ⟨⟨accepted _ rfl, unsound _ rfl⟩, accepted _ rfl, unsound _ rfl⟩

end FrostyKernel.Memory
