import FrostyKernel.Memory.System
import FrostyKernel.Memory.Validate

/-!
# When the validation of a buffer returns

The loop of `ValidateRead` and `ValidateWrite` holds the lock of the tree and releases it
where it returns. It goes on at the end of the entry it has found, and the search from
there finds the next entry only where one starts at this end. At the edge of a hole the
search finds the same entry again, and nothing changes from then on.

The log of a call is replayed against the set of locks its thread holds. The replay fails
where the thread would wait for itself, where it releases a lock it does not hold and where
it releases the lock of a null object.
-/

namespace FrostyKernel.Memory

open Word List OrderedMap VMM

namespace VMM

def holdAfter (held : Option (List Lock)) : Event → Option (List Lock)
  | .acquire lock => held.bind fun locks => if lock ∈ locks then none else some (lock :: locks)
  | .release lock =>
    held.bind fun locks =>
      if lock ≠ .null ∧ lock ∈ locks then some (locks.erase lock) else none
  -- an object that is freed does not release its lock
  | .destroy _ => held
  | .pte _ _ _ => held
  | .invalidate _ _ _ => held
  | .freed _ => held

def held (vmm : VMM) : Option (List Lock) := vmm.log.foldl holdAfter (some [])

section
variable {vmm : VMM} {lock : Lock} {locks : List Lock}

@[simp] theorem called_held (vmm : VMM) : vmm.called.held = some [] := rfl

@[simp] theorem emit_held (vmm : VMM) (event : Event) :
    (vmm.emit event).held = holdAfter vmm.held event := by
  simp [VMM.held, emit, foldl_append]

theorem acquire_held (holds : vmm.held = some locks) (free : lock ∉ locks) :
    (vmm.acquire lock).held = some (lock :: locks) := by
  simp [acquire, holdAfter, holds, free]

theorem release_held (holds : vmm.held = some locks) (real : lock ≠ .null) (taken : lock ∈ locks) :
    (vmm.release lock).held = some (locks.erase lock) := by
  simp [release, holdAfter, holds, real, taken]

end

def validateStep (right : Protection → Bool) (user : Bool) (cursor : VMM × ValidateState) :
    (VMM × ValidateState) ⊕ (VMM × Bool) :=
  match Memory.validateStep cursor.1.mapEntries right user cursor.2 with
  | .inl next => .inl (cursor.1, next)
  | .inr result => .inr (cursor.1.release .mapEntries, result)

/-- The outcome of at most `rounds` iterations. -/
def validate (right : Protection → Bool) (vmm : VMM) (addr size : Nat) (user : Bool)
    (rounds : Nat) : Option (VMM × Bool) :=
  loop (validateStep right user) rounds (vmm.acquire .mapEntries, ⟨addr, size⟩)

def validateRead : VMM → Nat → Nat → Bool → Nat → Option (VMM × Bool) := validate Protection.read

def validateWrite : VMM → Nat → Nat → Bool → Nat → Option (VMM × Bool) := validate Protection.write

theorem validate_loop (right : Protection → Bool) (user : Bool) (vmm : VMM) (rounds : Nat)
    (state : ValidateState) :
    loop (validateStep right user) rounds (vmm, state) =
      (loop (Memory.validateStep vmm.mapEntries right user) rounds state).map
        fun result => (vmm.release .mapEntries, result) := by
  induction rounds generalizing state with
  | zero => rfl
  | succ rounds ih =>
    unfold loop validateStep
    cases Memory.validateStep vmm.mapEntries right user state with
    | inl next => exact ih next
    | inr result => rfl

end VMM

/-- Entries under their start addresses, none of them empty and no two overlapping. -/
structure DisjointEntries (mapEntries : OrderedMap Nat MapEntry) : Prop where
  keyed : ∀ key entry, mapEntries.find? key = some entry → entry.startVirt = key
  nonempty : ∀ key entry, mapEntries.find? key = some entry → key < entry.endVirt
  apart : ∀ key entry other later, mapEntries.find? key = some entry →
    mapEntries.find? other = some later → key < other → entry.endVirt ≤ other

/-- From the entry the address is looked up in, permitted pages reach to `stop`; the buffer
ends above, but no entry starts there. -/
structure RunsOff (mapEntries : OrderedMap Nat MapEntry) (right : Protection → Bool)
    (user : Bool) (state : ValidateState) (stop : Nat) : Prop where
  short : stop < add64 state.virtAddr state.size
  hole : mapEntries.find? stop = none
  last : ∃ key entry, mapEntries.find? key = some entry ∧ entry.endVirt = stop
  covered : ∃ key first, mapEntries.findNodeOrLower state.virtAddr = some (key, first) ∧
    key < stop ∧ ∀ address, key ≤ address → address < stop → ∃ other entry,
      mapEntries.find? other = some entry ∧ entry.Covers address ∧ EntryPermits right user entry

section Walk
variable {mapEntries : OrderedMap Nat MapEntry} {right : Protection → Bool} {user : Bool}
  {state next : ValidateState} {entry : MapEntry} {key : Nat}

section
variable (layout : DisjointEntries mapEntries)
include layout

/-- The entry that holds an address is the one the search finds. -/
theorem DisjointEntries.found (stored : mapEntries.find? key = some entry) {address : Nat}
    (above : key ≤ address) (below : address < entry.endVirt) :
    mapEntries.findNodeOrLower address = some (key, entry) := by
  apply find_node_or_lower_some_iff.mpr
  refine ⟨stored, above, ?_⟩
  intro node member low
  by_contra later
  have found : mapEntries.find? node.1 = some node.2 := find_some_iff.mpr member
  have apart := layout.apart key entry node.1 node.2 stored found (not_le.mp later)
  omega

theorem DisjointEntries.found_at_hole (stored : mapEntries.find? key = some entry)
    (hole : mapEntries.find? entry.endVirt = none) :
    mapEntries.findNodeOrLower entry.endVirt = some (key, entry) := by
  apply find_node_or_lower_some_iff.mpr
  refine ⟨stored, (layout.nonempty key entry stored).le, ?_⟩
  intro node member low
  by_contra later
  have found : mapEntries.find? node.1 = some node.2 := find_some_iff.mpr member
  have apart := layout.apart key entry node.1 node.2 stored found (not_le.mp later)
  rw [le_antisymm low apart, hole] at found
  cases found

/-- A buffer that runs off still does after one more iteration. -/
theorem RunsOff.step {stop : Nat} (runsOff : RunsOff mapEntries right user state stop) :
    ∃ next, validateStep mapEntries right user state = .inl next ∧
      RunsOff mapEntries right user next stop := by
  rcases runsOff.covered with ⟨key, first, found, below, covered⟩
  rcases find_node_or_lower_some_iff.mp found with ⟨stored, above, _⟩
  rcases runsOff.last with ⟨lastKey, last, lastStored, atStop⟩
  have keyed := layout.keyed key first stored
  have nonempty := layout.nonempty key first stored
  have lastNonempty := layout.nonempty lastKey last lastStored
  -- The first entry is the one that covers its start, and it ends at `stop` or before.
  have grants : EntryPermits right user first := by
    rcases covered key le_rfl below with ⟨other, entry, otherStored, covers, grants⟩
    rw [← layout.keyed other entry otherStored] at otherStored
    have same := layout.found otherStored covers.1 covers.2
    rw [layout.found stored le_rfl nonempty] at same
    cases same
    exact grants
  have within : first.endVirt ≤ stop := by
    rcases lt_trichotomy lastKey key with before | same | after
    · have apart := layout.apart lastKey last key first lastStored stored before
      omega
    · rw [same, stored] at lastStored
      cases lastStored
      exact atStop.le
    · have apart := layout.apart key first lastKey last stored lastStored after
      omega
  refine ⟨_, (validate_step_found found (keyed.trans_le above) grants).trans
    (if_neg (not_le.mpr (within.trans_lt runsOff.short))), ?_, runsOff.hole, runsOff.last, ?_⟩
  · rw [hop_keeps_end]
    exact runsOff.short
  · rcases within.lt_or_eq with before | reached
    · rcases covered first.endVirt nonempty.le before with ⟨other, entry, otherStored, covers, _⟩
      have otherKeyed := layout.keyed other entry otherStored
      have low := covers.1
      rw [otherKeyed] at low
      refine ⟨other, entry, layout.found otherStored low covers.2, by omega, ?_⟩
      intro address reached within
      apply covered address _ within
      by_contra early
      have apart := layout.apart other entry key first otherStored stored (by omega)
      have high := covers.2
      omega
    · have hole := runsOff.hole
      rw [← reached] at hole
      exact ⟨key, first, layout.found_at_hole stored hole, below, covered⟩

theorem hop_advances (stays : ∀ stop, ¬ RunsOff mapEntries right user state stop)
    (continues : validateStep mapEntries right user state = .inl next) :
    state.virtAddr < next.virtAddr ∧ (∃ entry, (next.virtAddr, entry) ∈ mapEntries.nodes) ∧
      ∀ stop, ¬ RunsOff mapEntries right user next stop := by
  rcases validate_step_inl continues with ⟨key, entry, found, _, grants, short, nextAddr, ending⟩
  rcases find_node_or_lower_some_iff.mp found with ⟨stored, above, greatest⟩
  have keyed := layout.keyed key entry stored
  have nonempty := layout.nonempty key entry stored
  have inside : ∀ address, key ≤ address → address < entry.endVirt → ∃ other found,
      mapEntries.find? other = some found ∧ found.Covers address ∧ EntryPermits right user found :=
    fun address reached within => ⟨key, entry, stored, ⟨keyed.trans_le reached, within⟩, grants⟩
  cases following : mapEntries.find? entry.endVirt with
  | none =>
    have off : RunsOff mapEntries right user state entry.endVirt :=
      ⟨short, following, ⟨key, entry, stored, rfl⟩, ⟨key, entry, found, nonempty, inside⟩⟩
    exact absurd off (stays _)
  | some later =>
    have member := find_some_iff.mp following
    rw [nextAddr]
    refine ⟨?_, ⟨later, member⟩, ?_⟩
    · by_contra beyond
      have low := greatest _ member (not_lt.mp beyond)
      exact absurd low (not_le.mpr nonempty)
    · intro stop off
      rcases off.covered with ⟨other, first, isFirst, below, covered⟩
      rw [nextAddr, layout.found following le_rfl (layout.nonempty _ _ following)] at isFirst
      cases isFirst
      refine stays stop ⟨?_, off.hole, off.last, ⟨key, entry, found, by omega, ?_⟩⟩
      · rw [← ending]
        exact off.short
      · intro address reached within
        by_cases low : address < entry.endVirt
        · exact inside address reached low
        · exact covered address (not_lt.mp low) within

end

def keysAbove (mapEntries : OrderedMap Nat MapEntry) (address : Nat) : List (Nat × MapEntry) :=
  mapEntries.nodes.filter fun node => address < node.1

theorem keys_above_shrink {lower upper : Nat} (less : lower < upper)
    (member : (upper, entry) ∈ mapEntries.nodes) :
    (keysAbove mapEntries upper).length < (keysAbove mapEntries lower).length := by
  have split : keysAbove mapEntries upper =
      (keysAbove mapEntries lower).filter fun node => upper < node.1 := by
    unfold keysAbove
    rw [filter_filter]
    apply filter_congr
    intro node _
    by_cases above : upper < node.1
    · simp [above, less.trans above]
    · simp [above]
  rw [split]
  apply length_filter_lt_length_iff_exists.mpr
  exact ⟨(upper, entry), mem_filter.mpr ⟨member, by simpa using less⟩, by simp⟩

theorem validate_decides (layout : DisjointEntries mapEntries) {rounds : Nat}
    (stays : ∀ stop, ¬ RunsOff mapEntries right user state stop)
    (enough : (keysAbove mapEntries state.virtAddr).length < rounds) :
    ∃ result, loop (validateStep mapEntries right user) rounds state = some result := by
  induction rounds generalizing state with
  | zero => omega
  | succ rounds ih =>
    cases continues : validateStep mapEntries right user state with
    | inr result => exact ⟨result, by simp [loop, continues]⟩
    | inl next =>
      rcases hop_advances layout stays continues with ⟨ahead, ⟨entry, member⟩, stays'⟩
      have fewer := keys_above_shrink ahead member
      rcases ih stays' (by omega) with ⟨result, decided⟩
      refine ⟨result, ?_⟩
      rw [loop, continues]
      exact decided

theorem validate_never_returns (layout : DisjointEntries mapEntries) {stop : Nat}
    (runsOff : RunsOff mapEntries right user state stop) (rounds : Nat) :
    loop (validateStep mapEntries right user) rounds state = none := by
  cases returned : loop (validateStep mapEntries right user) rounds state with
  | none => rfl
  | some result =>
    have never := not_returns_of_trap (fun state => RunsOff mapEntries right user state stop)
      (fun _ off => off.step layout) runsOff result
    exact absurd ⟨rounds, returned⟩ never

end Walk

/-- A call decides within one iteration for each entry and one more, and its thread holds
no lock afterwards. -/
def DecidesUnlocked (vmm : VMM) (call : VMM → Nat → Option (VMM × Bool)) : Prop :=
  ∃ next result, call vmm.called (vmm.mapEntries.nodes.length + 1) = some (next, result) ∧
    next.held = some []

theorem validate_decides_iff {vmm : VMM} (layout : DisjointEntries vmm.mapEntries)
    (right : Protection → Bool) (addr size : Nat) (user : Bool) :
    DecidesUnlocked vmm (fun vmm => vmm.validate right addr size user) ↔
      ∀ stop, ¬ RunsOff vmm.mapEntries right user ⟨addr, size⟩ stop := by
  unfold DecidesUnlocked validate
  simp only [validate_loop]
  constructor
  · rintro ⟨next, result, returned, _⟩ stop runsOff
    have never := validate_never_returns layout runsOff (vmm.mapEntries.nodes.length + 1)
    have entries : (vmm.called.acquire .mapEntries).mapEntries = vmm.mapEntries := rfl
    rw [entries, never] at returned
    cases returned
  · intro stays
    have enough : (keysAbove vmm.mapEntries addr).length ≤ vmm.mapEntries.nodes.length :=
      length_filter_le _ _
    rcases validate_decides layout stays (Nat.lt_succ_of_le enough) with ⟨result, decided⟩
    have locked := acquire_held (called_held vmm) (not_mem_nil : Lock.mapEntries ∉ _)
    refine ⟨(vmm.called.acquire .mapEntries).release .mapEntries, result, ?_, ?_⟩
    · have entries : (vmm.called.acquire .mapEntries).mapEntries = vmm.mapEntries := rfl
      rw [entries, decided]
      rfl
    · rw [release_held locked (by decide) mem_cons_self]
      simp

/-- For every set of disjoint entries, every address and every size, `ValidateRead` and
`ValidateWrite` return with the tree unlocked after at most one iteration for each entry
and one more, exactly when the permitted entries from the first one on do not stop at a
hole below the end of the buffer. -/
theorem validation_decides_unlocked_iff (vmm : VMM) (layout : DisjointEntries vmm.mapEntries)
    (addr size : Nat) (user : Bool) :
    (DecidesUnlocked vmm (fun vmm => vmm.validateRead addr size user) ↔
        ∀ stop, ¬ RunsOff vmm.mapEntries Protection.read user ⟨addr, size⟩ stop) ∧
      (DecidesUnlocked vmm (fun vmm => vmm.validateWrite addr size user) ↔
        ∀ stop, ¬ RunsOff vmm.mapEntries Protection.write user ⟨addr, size⟩ stop) :=
  ⟨validate_decides_iff layout Protection.read addr size user,
    validate_decides_iff layout Protection.write addr size user⟩

/-- An address space with one page, at `0x1000`. -/
def onePageSpace : VMM := { VMM.empty [] with mapEntries := onePageMap }

theorem one_page_disjoint : DisjointEntries onePageMap := by
  constructor
  · intro key entry found
    rcases one_page_only found with ⟨rfl, rfl⟩
    rfl
  · intro key entry found
    rcases one_page_only found with ⟨rfl, rfl⟩
    decide
  · intro key entry other later found foundLater less
    rcases one_page_only found with ⟨rfl, rfl⟩
    rcases one_page_only foundLater with ⟨rfl, rfl⟩
    omega

theorem validation_inside_page_decides :
    DecidesUnlocked onePageSpace (fun vmm => vmm.validateRead 0x1800 0x100 true) ∧
      DecidesUnlocked onePageSpace (fun vmm => vmm.validateWrite 0x1800 0x100 true) := by
  have exact := validation_decides_unlocked_iff onePageSpace one_page_disjoint 0x1800 0x100 true
  have stays : ∀ right stop, ¬ RunsOff onePageMap right true ⟨0x1800, 0x100⟩ stop := by
    intro right stop off
    rcases off.last with ⟨key, entry, stored, rfl⟩
    rcases one_page_only stored with ⟨rfl, rfl⟩
    have short := off.short
    exact absurd short (by decide)
  exact ⟨exact.1.mpr (stays _), exact.2.mpr (stays _)⟩

/-- A buffer of one page from the middle of the only page keeps the tree locked for ever. -/
theorem validation_off_page_spins :
    (∀ rounds, onePageSpace.validateRead 0x1800 0x1000 true rounds = none) ∧
      ∀ rounds, onePageSpace.validateWrite 0x1800 0x1000 true rounds = none := by
  have off : ∀ right : Protection → Bool, right Protection.READ_WRITE = true →
      RunsOff onePageMap right true ⟨0x1800, 0x1000⟩ 0x2000 := by
    intro right permits
    refine ⟨by decide, by decide, ⟨0x1000, onePageEntry, by decide, rfl⟩,
      ⟨0x1000, onePageEntry, by decide, by decide, ?_⟩⟩
    intro address reached within
    exact ⟨0x1000, onePageEntry, by decide, ⟨reached, within⟩, fun _ => rfl, permits⟩
  have spins : ∀ right : Protection → Bool, right Protection.READ_WRITE = true →
      ∀ rounds, onePageSpace.validate right 0x1800 0x1000 true rounds = none := by
    intro right permits rounds
    have never := validate_never_returns one_page_disjoint (off right permits) rounds
    unfold VMM.validate
    rw [VMM.validate_loop]
    have entries : (onePageSpace.acquire .mapEntries).mapEntries = onePageMap := rfl
    rw [entries, never]
    rfl
  exact ⟨spins _ rfl, spins _ rfl⟩

end FrostyKernel.Memory
