import FrostyKernel.FileSystem.FDTable

/-!
# Runs of descriptor managers

Any number of managers work on one memory. In every state their calls reach, the
bitmap of each agrees with its table, no two of them share an array, and no
descriptor is in two places. So a call on one manager does not show in another.
-/

namespace FrostyKernel.FileSystem

open Bitmap Function FileDescriptorManager List Option OrderedMap

/-! ## Copying and deleting descriptors -/

/-- The table that `Fork` builds, where the next descriptor made is `next`. -/
def copiesFrom (next : Nat) : List (Nat × Nat) → List (Nat × Nat)
  | [] => []
  | node :: rest => (node.1, next) :: copiesFrom (next + 1) rest

theorem copies_keys (next : Nat) (nodes : List (Nat × Nat)) :
    (copiesFrom next nodes).map Prod.fst = nodes.map Prod.fst := by
  induction nodes generalizing next with
  | nil => rfl
  | cons node rest ih =>
    simp only [copiesFrom, map_cons]
    rw [ih (next + 1)]

variable {nodes : List (Nat × Nat)} {after memory : Memory}

theorem copies_bounds {next : Nat} {node : Nat × Nat} (member : node ∈ copiesFrom next nodes) :
    next ≤ node.2 ∧ node.2 < next + nodes.length := by
  induction nodes generalizing next with
  | nil => cases member
  | cons head rest ih =>
    rcases mem_cons.mp member with here | later
    · rw [here, length_cons]
      dsimp only
      omega
    · have bounds := ih later
      rw [length_cons]
      omega

theorem copies_nodup (next : Nat) (nodes : List (Nat × Nat)) :
    (copiesFrom next nodes).Pairwise fun left right => left.2 ≠ right.2 := by
  induction nodes generalizing next with
  | nil => exact List.Pairwise.nil
  | cons node rest ih =>
    apply List.Pairwise.cons
    · intro later member same
      have bounds := copies_bounds member
      dsimp only at same
      omega
    · exact ih (next + 1)

theorem copies_key_unique {next : Nat} {left right id : Nat}
    (leftMember : (left, id) ∈ copiesFrom next nodes)
    (rightMember : (right, id) ∈ copiesFrom next nodes) : left = right := by
  have distinct : ((copiesFrom next nodes).map Prod.snd).Nodup :=
    pairwise_map.mpr (copies_nodup next nodes)
  exact congrArg Prod.fst (inj_on_of_nodup_map distinct leftMember rightMember rfl)

/-- The memory after a descriptor was made. -/
def Memory.withDescriptor (memory : Memory) (desc : FileDescriptor) : Memory :=
  { memory with
    descriptors := update memory.descriptors memory.nextDescriptor (some desc)
    nextDescriptor := memory.nextDescriptor + 1 }

theorem new_descriptor_granted (granted : memory.outcomes = []) (desc : FileDescriptor) :
    memory.newDescriptor desc = (memory.withDescriptor desc, some memory.nextDescriptor) := by
  simp only [Memory.newDescriptor, Memory.draw, granted, Memory.withDescriptor]

theorem with_descriptor_older (memory : Memory) (desc : FileDescriptor) {id : Nat}
    (less : id < memory.nextDescriptor) :
    (memory.withDescriptor desc).descriptors id = memory.descriptors id :=
  update_of_ne (ne_of_lt less) _ _

/-- What the loop of `Fork` leaves: the old descriptors, the copies, and the
table with the copies behind what it had. -/
structure Forked (memory : Memory) (newProc : Nat) (nodes : List (Nat × Nat))
    (table : OrderedMap Nat Nat) (after : Memory) (final : OrderedMap Nat Nat) :
    Prop where
  listed : final.nodes = table.nodes ++ copiesFrom memory.nextDescriptor nodes
  copies : (copiesFrom memory.nextDescriptor nodes).map (fun node => after.descriptors node.2) =
    nodes.map fun node => (memory.descriptors node.2).map fun desc => desc.forked newProc
  older : ∀ id, id < memory.nextDescriptor → after.descriptors id = memory.descriptors id
  next : after.nextDescriptor = memory.nextDescriptor + nodes.length

/-- The keys of the child are those of the parent. -/
theorem forked_keys {newProc : Nat} {parent final : OrderedMap Nat Nat}
    (forked : Forked memory newProc parent.nodes .empty after final) (fd : Nat) :
    (final.find? fd).isSome = (parent.find? fd).isSome := by
  have listed : final.nodes = copiesFrom memory.nextDescriptor parent.nodes := forked.listed
  rw [Bool.eq_iff_iff, isSome_find_iff_mem_keys, isSome_find_iff_mem_keys, listed, copies_keys]

theorem fork_all_spec (newProc : Nat) {table : OrderedMap Nat Nat} (granted : memory.outcomes = [])
    (live : ∀ node ∈ nodes, (memory.descriptors node.2).isSome = true ∧
      node.2 < memory.nextDescriptor)
    (ordered : (table.nodes ++ nodes).Pairwise fun left right => left.1 < right.1) :
    ∃ after final,
      forkAll newProc nodes memory table = some (after, final, true) ∧
        Forked memory newProc nodes table after final ∧ SameArrays memory after := by
  induction nodes generalizing memory table with
  | nil =>
    refine ⟨memory, table, rfl, ⟨?_, rfl, fun _ _ => rfl, rfl⟩, ⟨rfl, rfl, rfl⟩⟩
    rw [copiesFrom, append_nil]
  | cons node rest ih =>
    rcases live node (by simp) with ⟨present, old⟩
    rcases isSome_iff_exists.mp present with ⟨desc, found⟩
    have made := new_descriptor_granted granted (desc.forked newProc)
    have kept : ∀ id, id < memory.nextDescriptor →
        (memory.withDescriptor (desc.forked newProc)).descriptors id = memory.descriptors id :=
      fun id less => with_descriptor_older memory _ less
    rcases insert_next memory.nextDescriptor ordered with ⟨inserted, restOrdered⟩
    have restLive : ∀ other ∈ rest,
        ((memory.withDescriptor (desc.forked newProc)).descriptors other.2).isSome = true ∧
          other.2 < (memory.withDescriptor (desc.forked newProc)).nextDescriptor := by
      intro other member
      rcases live other (by simp [member]) with ⟨there, less⟩
      rw [kept _ less]
      exact ⟨there, Nat.lt_succ_of_lt less⟩
    have stillGranted : (memory.withDescriptor (desc.forked newProc)).outcomes = [] := granted
    rcases ih stillGranted restLive restOrdered with ⟨after, final, call, forked, same⟩
    refine ⟨after, final, ?_, ⟨?_, ?_, ?_, ?_⟩, ⟨same.arrays, same.nextArray, same.outcomes⟩⟩
    · simp only [forkAll, found, made]
      exact call
    · rw [forked.listed, inserted, append_assoc]
      rfl
    · have first : after.descriptors memory.nextDescriptor = some (desc.forked newProc) := by
        rw [forked.older _ (Nat.lt_succ_self _)]
        exact update_self _ _ _
      rw [copiesFrom, map_cons, map_cons, first, found]
      refine congrArg _ (forked.copies.trans (map_congr_left ?_))
      intro other member
      rw [kept _ (live other (by simp [member])).2]
    · intro id less
      rw [forked.older id (Nat.lt_succ_of_lt less)]
      exact kept id less
    · rw [forked.next, length_cons]
      change memory.nextDescriptor + 1 + rest.length = _
      omega

theorem delete_all_spec (live : ∀ node ∈ nodes, (memory.descriptors node.2).isSome = true)
    (distinct : nodes.Pairwise fun left right => left.2 ≠ right.2) :
    ∃ after, deleteAll memory nodes = some after ∧
      (∀ id, (∀ node ∈ nodes, node.2 ≠ id) → after.descriptors id = memory.descriptors id) ∧
      after.nextDescriptor = memory.nextDescriptor ∧ after.arrays = memory.arrays ∧
      after.nextArray = memory.nextArray ∧ after.outcomes = memory.outcomes := by
  induction nodes generalizing memory with
  | nil => exact ⟨memory, rfl, fun _ _ => rfl, rfl, rfl, rfl, rfl⟩
  | cons node rest ih =>
    rcases isSome_iff_exists.mp (live node (by simp)) with ⟨desc, found⟩
    rcases pairwise_cons.mp distinct with ⟨first, others⟩
    have restLive : ∀ other ∈ rest,
        ((memory.setDescriptor node.2 none).descriptors other.2).isSome = true := by
      intro other member
      have kept : (memory.setDescriptor node.2 none).descriptors other.2 =
          memory.descriptors other.2 := update_of_ne (first other member).symm _ _
      rw [kept]
      exact live other (by simp [member])
    rcases ih restLive others with ⟨after, call, same, further⟩
    refine ⟨after, ?_, ?_, further⟩
    · simp only [deleteAll, found]
      exact call
    · intro id absent
      rw [same id fun other member => absent other (by simp [member])]
      exact update_of_ne (absent node (by simp)).symm _ _

/-! ## States and calls -/

/-- Any number of managers over one memory. -/
structure Managers where
  memory : Memory
  managers : Nat → FileDescriptorManager

def Managers.initial : Managers where
  memory :=
    { arrays := fun _ => none
      nextArray := 0
      descriptors := fun _ => none
      nextDescriptor := 0
      outcomes := [] }
  managers := fun _ => .fresh

/-- The calls. The callers of `Allocate` and `ReserveFD` pass a descriptor they
have just made and delete it when the call fails, and the callers of `Free` delete
the descriptor they get back. -/
inductive ManagerCall
  | init (target : Nat)
  | delete (target : Nat)
  | allocate (target : Nat) (desc : FileDescriptor)
  | reserveFD (target fd : Nat) (desc : FileDescriptor)
  | free (target fd : Nat)
  | get (target fd : Nat)
  | fork (target other : Nat) (newProc : Nat)
deriving DecidableEq, Repr

def Managers.put (state : Managers) (memory : Memory) (target : Nat)
    (manager : FileDescriptorManager) : Managers :=
  ⟨memory, update state.managers target manager⟩

namespace ManagerCall

def target : ManagerCall → Nat
  | .init target => target
  | .delete target => target
  | .allocate target _ => target
  | .reserveFD target _ _ => target
  | .free target _ => target
  | .get target _ => target
  | .fork target _ _ => target

def run (state : Managers) : ManagerCall → Option Managers
  | .init target =>
    match (state.managers target).init state.memory with
    | none => none
    | some (after, manager, _) => some (state.put after target manager)
  | .delete target =>
    match (state.managers target).delete state.memory with
    | none => none
    | some (after, manager) => some (state.put after target manager)
  | .allocate target desc =>
    match state.memory.newDescriptor desc with
    | (failed, none) => some { state with memory := failed }
    | (granted, some id) =>
      match (state.managers target).allocate granted id with
      | none => none
      | some (after, manager, .ok _) => some (state.put after target manager)
      | some (after, manager, .error _) =>
        some (state.put (after.setDescriptor id none) target manager)
  | .reserveFD target fd desc =>
    match state.memory.newDescriptor desc with
    | (failed, none) => some { state with memory := failed }
    | (granted, some id) =>
      match (state.managers target).reserveFD granted fd id with
      | none => none
      | some (after, manager, true) => some (state.put after target manager)
      | some (after, manager, false) =>
        some (state.put (after.setDescriptor id none) target manager)
  | .free target fd =>
    match (state.managers target).free state.memory fd with
    | none => none
    | some (after, manager, none) => some (state.put after target manager)
    | some (after, manager, some id) =>
      some (state.put (after.setDescriptor id none) target manager)
  | .get _ _ => some state
  | .fork target other newProc =>
    match (state.managers target).fork (state.managers other) state.memory newProc with
    | none => none
    | some (after, manager, parent, _) =>
      some ((state.put after other parent).put after target manager)

/-- `Init` and `Fork` are for managers that are new or deleted, the other calls for
managers that are in use; only numbers of the initial bitmap are reserved. -/
def Legal (state : Managers) : ManagerCall → Prop
  | .init target => (state.managers target).Vacant
  | .delete target => (state.managers target).Ready
  | .allocate target _ => (state.managers target).Ready
  | .reserveFD target fd _ => (state.managers target).Ready ∧ fd < INITIAL_FD_TABLE_SIZE
  | .free target _ => (state.managers target).Ready
  | .get target _ => (state.managers target).Ready
  | .fork target other _ =>
    (state.managers target).Vacant ∧ (state.managers other).Ready ∧ target ≠ other

def Steps (before : Managers) (call : ManagerCall) (after : Managers) : Prop :=
  call.Legal before ∧ call.run before = some after

end ManagerCall

/-! ## The invariant -/

/-- Every manager agrees with its bitmap, and nothing is in two places. -/
structure Separate (state : Managers) : Prop where
  granted : state.memory.outcomes = []
  synced : ∀ index, Synced state.memory (state.managers index)
  apart : ∀ left right address, (state.managers left).bitmap.buffer = some address →
    (state.managers right).bitmap.buffer = some address → left = right
  live : ∀ index fd id, (state.managers index).get fd = some id →
    (state.memory.descriptors id).isSome = true ∧ id < state.memory.nextDescriptor
  owned : ∀ left right leftFd rightFd id, (state.managers left).get leftFd = some id →
    (state.managers right).get rightFd = some id → left = right ∧ leftFd = rightFd

theorem initial_separate : Separate Managers.initial := by
  have nothing : ∀ fd, fresh.get fd = none := fun _ => rfl
  refine ⟨rfl, fun _ => vacant_synced fresh_vacant _, ?_, ?_, ?_⟩
  · intro left right address impossible
    cases impossible
  · intro index fd id found
    exact absurd found (by simp [Managers.initial, nothing])
  · intro left right leftFd rightFd id found
    exact absurd found (by simp [Managers.initial, nothing])

section Step
variable {state : Managers} {target : Nat} {after : Memory} {final : FileDescriptorManager}

theorem synced_of_same_arrays {before : Memory} {manager : FileDescriptorManager}
    (synced : Synced before manager) (arrays : after.arrays = before.arrays)
    (next : after.nextArray = before.nextArray) : Synced after manager := by
  rcases synced.bits with ⟨bytes, holds, agree⟩
  refine ⟨⟨bytes, ⟨holds.length, ?_, holds.empty⟩, agree⟩, ?_, synced.whole, synced.bounded,
    synced.unlocked⟩
  · rw [arrays]
    exact holds.stored
  · rw [next]
    exact synced.allocated

section
variable (separate : Separate state)
include separate

/-- What a call on one manager must deliver for the invariant to hold again: the
arrays it touched, and the places of the descriptors of the new table. -/
theorem separate_put (synced : Synced after final) (granted : after.outcomes = [])
    (touches : Touches state.memory after (state.managers target).bitmap.buffer final.bitmap.buffer)
    (others : ∀ index fd id, index ≠ target → (state.managers index).get fd = some id →
      after.descriptors id = state.memory.descriptors id ∧ id < after.nextDescriptor ∧
        ∀ other, final.get other ≠ some id) (live : ∀ fd id, final.get fd = some id →
      (after.descriptors id).isSome = true ∧ id < after.nextDescriptor)
    (owned : ∀ left right id, final.get left = some id → final.get right = some id → left = right) :
    Separate (state.put after target final) := by
  have here : (state.put after target final).managers target = final := update_self _ _ _
  have there : ∀ index, index ≠ target →
      (state.put after target final).managers index = state.managers index :=
    fun index different => update_of_ne different _ _
  -- the array of another manager is none that the call wrote
  have untouched : ∀ index, index ≠ target → ∀ address,
      (state.managers index).bitmap.buffer = some address →
        after.arrays address = state.memory.arrays address ∧
          final.bitmap.buffer ≠ some address := by
    intro index different address buffer
    have older := (separate.synced index).allocated address buffer
    have notOld : some address ≠ (state.managers target).bitmap.buffer := by
      intro same
      exact different (separate.apart index target address buffer same.symm)
    refine ⟨touches.arrays address older notOld, ?_⟩
    intro same
    rcases touches.buffer address same with old | later
    · exact notOld old.symm
    · exact absurd older (Nat.not_lt.mpr later)
  refine ⟨granted, ?_, ?_, ?_, ?_⟩
  · intro index
    by_cases same : index = target
    · rw [same, here]
      exact synced
    rw [there index same]
    have old := separate.synced index
    rcases old.bits with ⟨bytes, holds, agree⟩
    refine ⟨⟨bytes, ⟨holds.length, ?_, holds.empty⟩, agree⟩, ?_, old.whole, old.bounded,
      old.unlocked⟩
    · intro address buffer
      change after.arrays address = some bytes
      rw [(untouched index same address buffer).1]
      exact holds.stored address buffer
    · intro address buffer
      exact lt_of_lt_of_le (old.allocated address buffer) touches.next
  · intro left right address leftBuffer rightBuffer
    by_cases leftSame : left = target <;> by_cases rightSame : right = target
    · rw [leftSame, rightSame]
    · rw [leftSame, here] at leftBuffer
      rw [there right rightSame] at rightBuffer
      exact absurd leftBuffer (untouched right rightSame address rightBuffer).2
    · rw [there left leftSame] at leftBuffer
      rw [rightSame, here] at rightBuffer
      exact absurd rightBuffer (untouched left leftSame address leftBuffer).2
    · rw [there left leftSame] at leftBuffer
      rw [there right rightSame] at rightBuffer
      exact separate.apart left right address leftBuffer rightBuffer
  · intro index fd id found
    by_cases same : index = target
    · rw [same, here] at found
      exact live fd id found
    · rw [there index same] at found
      have kept := others index fd id same found
      have old := separate.live index fd id found
      refine ⟨?_, kept.2.1⟩
      change (after.descriptors id).isSome = true
      rw [kept.1]
      exact old.1
  · intro left right leftFd rightFd id leftFound rightFound
    by_cases leftSame : left = target <;> by_cases rightSame : right = target
    · rw [leftSame, here] at leftFound
      rw [rightSame, here] at rightFound
      exact ⟨by rw [leftSame, rightSame], owned leftFd rightFd id leftFound rightFound⟩
    · rw [leftSame, here] at leftFound
      rw [there right rightSame] at rightFound
      exact absurd leftFound ((others right rightFd id rightSame rightFound).2.2 leftFd)
    · rw [there left leftSame] at leftFound
      rw [rightSame, here] at rightFound
      exact absurd rightFound ((others left leftFd id leftSame leftFound).2.2 rightFd)
    · rw [there left leftSame] at leftFound
      rw [there right rightSame] at rightFound
      exact separate.owned left right leftFd rightFd id leftFound rightFound

/-- A call that keeps the descriptors and whose table has no new ones. -/
theorem separate_put_subset (synced : Synced after final)
    (touches : Touches state.memory after (state.managers target).bitmap.buffer final.bitmap.buffer)
    (outcomes : after.outcomes = state.memory.outcomes)
    (next : state.memory.nextDescriptor ≤ after.nextDescriptor)
    (subset : ∀ fd id, final.get fd = some id → (state.managers target).get fd = some id ∧
      after.descriptors id = state.memory.descriptors id)
    (others : ∀ index fd id, index ≠ target → (state.managers index).get fd = some id →
      after.descriptors id = state.memory.descriptors id) :
    Separate (state.put after target final) := by
  apply separate_put separate synced (outcomes.trans separate.granted) touches
  · intro index fd id different found
    refine ⟨others index fd id different found, ?_, ?_⟩
    · exact lt_of_lt_of_le (separate.live index fd id found).2 next
    · intro other here
      have old := (subset other id here).1
      exact different (separate.owned index target fd other id found old).1
  · intro fd id found
    rcases subset fd id found with ⟨old, kept⟩
    have alive := separate.live target fd id old
    rw [kept]
    exact ⟨alive.1, lt_of_lt_of_le alive.2 next⟩
  · intro left right id leftFound rightFound
    have leftOld := (subset left id leftFound).1
    have rightOld := (subset right id rightFound).1
    exact (separate.owned target target left right id leftOld rightOld).2

theorem separate_put_insert (desc : FileDescriptor) {fd : Nat} (synced : Synced after final)
    (touches : Touches (state.memory.withDescriptor desc) after (state.managers target).bitmap.buffer
      final.bitmap.buffer) (same : SameDescriptors (state.memory.withDescriptor desc) after)
    (unused : (state.managers target).currentFDs.find? fd = none) (table : final.currentFDs =
      (state.managers target).currentFDs.insert fd state.memory.nextDescriptor) :
    Separate (state.put after target final) := by
  have kept : ∀ id, id < state.memory.nextDescriptor →
      after.descriptors id = state.memory.descriptors id := by
    intro id less
    rw [same.descriptors, with_descriptor_older _ _ less]
  have next : after.nextDescriptor = state.memory.nextDescriptor + 1 := same.nextDescriptor
  have lookup : ∀ other, final.get other =
      if other = fd then some state.memory.nextDescriptor
      else (state.managers target).get other := by
    intro other
    unfold FileDescriptorManager.get
    rw [table]
    exact find_insert_of_none _ unused other
  apply separate_put separate synced (same.outcomes.trans separate.granted)
    ⟨touches.arrays, touches.buffer, touches.next⟩
  · intro index other id different found
    have old := separate.live index other id found
    refine ⟨kept id old.2, by omega, ?_⟩
    intro place here
    rw [lookup] at here
    split_ifs at here with atFd
    · have equal := Option.some.inj here
      omega
    · exact different (separate.owned index target other place id found here).1
  · intro other id found
    rw [lookup] at found
    split_ifs at found with atFd
    · rw [← Option.some.inj found, same.descriptors]
      refine ⟨?_, by omega⟩
      exact isSome_iff_exists.mpr ⟨desc, update_self _ _ _⟩
    · have old := separate.live target other id found
      rw [kept id old.2]
      exact ⟨old.1, by omega⟩
  · intro left right id leftFound rightFound
    rw [lookup] at leftFound rightFound
    split_ifs at leftFound with leftAt <;> split_ifs at rightFound with rightAt
    · rw [leftAt, rightAt]
    · have old := separate.live target right id rightFound
      have equal := Option.some.inj leftFound
      omega
    · have old := separate.live target left id leftFound
      have equal := Option.some.inj rightFound
      omega
    · exact (separate.owned target target left right id leftFound rightFound).2

theorem separate_discard (desc : FileDescriptor) :
    Separate (state.put ((state.memory.withDescriptor desc).setDescriptor
      state.memory.nextDescriptor none) target (state.managers target)) := by
  have kept : ∀ index fd id, (state.managers index).get fd = some id →
      ((state.memory.withDescriptor desc).setDescriptor state.memory.nextDescriptor
        none).descriptors id = state.memory.descriptors id := by
    intro index fd id found
    have older := (separate.live index fd id found).2
    exact (update_of_ne (ne_of_lt older) _ _).trans (with_descriptor_older _ _ older)
  apply separate_put_subset separate
  · exact synced_of_same_arrays (separate.synced target) rfl rfl
  · exact ⟨fun _ _ _ => rfl, fun _ same => .inl same, le_refl _⟩
  · rfl
  · exact Nat.le_succ _
  · intro fd id found
    exact ⟨found, kept target fd id found⟩
  · intro index fd id _ found
    exact kept index fd id found

end

def Kept (state : Managers) (call : ManagerCall) : Prop :=
  ∃ after, call.run state = some after ∧ Separate after ∧
    ∀ index, index ≠ call.target → after.managers index = state.managers index

theorem put_others (memory : Memory) (manager : FileDescriptorManager) (index : Nat)
    (different : index ≠ target) :
    (state.put memory target manager).managers index = state.managers index :=
  update_of_ne different _ _

variable (separate : Separate state)
include separate

theorem init_kept (vacant : (state.managers target).Vacant) : Kept state (.init target) := by
  rcases init_spec vacant separate.granted with
    ⟨after, final, call, noTable, _, synced, touches, same⟩
  refine ⟨state.put after target final, by simp only [ManagerCall.run, call], ?_, put_others _ _⟩
  have nothing : ∀ fd, final.get fd = none := by
    intro fd
    rw [FileDescriptorManager.get, noTable]
    rfl
  apply separate_put_subset separate synced touches same.outcomes (le_of_eq same.nextDescriptor.symm)
  · intro fd id found
    rw [nothing fd] at found
    cases found
  · intro index fd id _ _
    rw [same.descriptors]

theorem allocate_kept (desc : FileDescriptor) : Kept state (.allocate target desc) := by
  have made := new_descriptor_granted separate.granted desc
  have stillSynced : Synced (state.memory.withDescriptor desc) (state.managers target) :=
    synced_of_same_arrays (separate.synced target) rfl rfl
  rcases allocate_spec stillSynced separate.granted state.memory.nextDescriptor with
    refused | accepted
  · refine ⟨_, ?_, separate_discard separate desc, put_others _ _⟩
    simp only [ManagerCall.run, made, refused.1, ManagerCall.target]
  · rcases accepted with ⟨after, final, fd, call, allocated⟩
    refine ⟨state.put after target final, by simp only [ManagerCall.run, made, call], ?_,
      put_others _ _⟩
    exact separate_put_insert separate desc allocated.synced allocated.touches allocated.same
      allocated.unused allocated.table

theorem ready_has_initial (ready : (state.managers target).Ready) :
    INITIAL_FD_TABLE_SIZE ≤ (state.managers target).bitmap.size * 8 := by
  rcases (separate.synced target).whole with ⟨times, size⟩
  have positive : times ≠ 0 := by
    intro none
    exact ready (by rw [size, none, mul_zero])
  rw [size]
  simp only [initialBytes, INITIAL_FD_TABLE_SIZE]
  omega

theorem reserve_kept (ready : (state.managers target).Ready) {fd : Nat}
    (small : fd < INITIAL_FD_TABLE_SIZE) (desc : FileDescriptor) :
    Kept state (.reserveFD target fd desc) := by
  have inside := lt_of_lt_of_le small (ready_has_initial separate ready)
  have made := new_descriptor_granted separate.granted desc
  have stillSynced : Synced (state.memory.withDescriptor desc) (state.managers target) :=
    synced_of_same_arrays (separate.synced target) rfl rfl
  rcases reserve_spec stillSynced state.memory.nextDescriptor inside with refused | accepted
  · refine ⟨_, ?_, separate_discard separate desc, put_others _ _⟩
    simp only [ManagerCall.run, made, refused.1, ManagerCall.target]
  · rcases accepted with ⟨unused, after, call, synced, touches, sameAfter⟩
    have stored : Separate (state.put after target { state.managers target with
        currentFDs := (state.managers target).currentFDs.insert fd state.memory.nextDescriptor }) :=
      separate_put_insert separate desc synced touches sameAfter unused rfl
    refine ⟨_, ?_, stored, put_others _ _⟩
    simp only [ManagerCall.run, made, call]

theorem free_kept (fd : Nat) : Kept state (.free target fd) := by
  cases found : (state.managers target).currentFDs.find? fd with
  | none =>
    refine ⟨state.put state.memory target (state.managers target), ?_, ?_, put_others _ _⟩
    · simp only [ManagerCall.run, free, found]
    · apply separate_put_subset separate (separate.synced target) (touches_refl _ _) rfl (le_refl _)
      · intro other id here
        exact ⟨here, rfl⟩
      · intro index other id _ _
        rfl
  | some id =>
    rcases free_spec (separate.synced target) found with ⟨after, call, synced, touches, same⟩
    have kept : ∀ other, other ≠ id →
        (after.setDescriptor id none).descriptors other = state.memory.descriptors other := by
      intro other different
      rw [← same.descriptors]
      exact update_of_ne different _ _
    have freed : Separate (state.put (after.setDescriptor id none) target { state.managers target with
        currentFDs := (state.managers target).currentFDs.erase fd }) := by
      apply separate_put_subset separate
      · exact synced_of_same_arrays synced rfl rfl
      · exact ⟨touches.arrays, touches.buffer, touches.next⟩
      · exact same.outcomes
      · exact le_of_eq same.nextDescriptor.symm
      · intro other place here
        unfold FileDescriptorManager.get at here
        rw [find_erase] at here
        split_ifs at here with atFd
        refine ⟨here, kept place ?_⟩
        intro equal
        rw [equal] at here
        exact atFd (separate.owned target target other fd id here found).2
      · intro index other place different here
        apply kept
        intro equal
        rw [equal] at here
        exact different (separate.owned index target other fd id here found).1
    refine ⟨_, ?_, freed, put_others _ _⟩
    simp only [ManagerCall.run, call]

theorem table_distinct (index : Nat) :
    (state.managers index).currentFDs.nodes.Pairwise fun left right => left.2 ≠ right.2 := by
  apply ((state.managers index).currentFDs.sorted).imp_of_mem
  intro left right leftMember rightMember less same
  have leftFound := find_some_iff.mpr leftMember
  have rightFound := find_some_iff.mpr rightMember
  rw [same] at leftFound
  exact ne_of_lt less (separate.owned index index left.1 right.1 right.2 leftFound rightFound).2

theorem table_live {index : Nat} :
    ∀ node ∈ (state.managers index).currentFDs.nodes,
      (state.memory.descriptors node.2).isSome = true ∧ node.2 < state.memory.nextDescriptor := by
  intro node member
  exact separate.live index node.1 node.2 (find_some_iff.mpr member)

theorem delete_kept : Kept state (.delete target) := by
  rcases delete_array_spec state.memory (state.managers target).bitmap.buffer with
    ⟨others, sameNext, deleted⟩
  have live : ∀ node ∈ (state.managers target).currentFDs.nodes,
      ((state.memory.deleteArray (state.managers target).bitmap.buffer).descriptors
        node.2).isSome = true := by
    intro node member
    rw [deleted.descriptors]
    exact (table_live separate node member).1
  rcases delete_all_spec live
      (table_distinct separate target) with ⟨after, call, same, next, arrays, nextArray, outcomes⟩
  have cleared : Separate (state.put after target .fresh) := by
    apply separate_put_subset separate
    · exact vacant_synced fresh_vacant _
    · refine ⟨?_, ?_, le_of_eq (nextArray.trans sameNext).symm⟩
      · intro address _ different
        rw [arrays, others address different]
      · intro address impossible
        cases impossible
    · exact outcomes.trans deleted.outcomes
    · exact le_of_eq (next.trans deleted.nextDescriptor).symm
    · intro fd id found
      cases found
    · intro index fd id different found
      rw [same id, deleted.descriptors]
      intro node member equal
      have here := find_some_iff.mpr member
      rw [equal] at here
      exact different (separate.owned index target fd node.1 id found here).1
  refine ⟨_, ?_, cleared, put_others _ _⟩
  simp only [ManagerCall.run, delete, (separate.synced target).unlocked,
    Bool.false_eq_true, if_false, call]

variable {other : Nat}

theorem fork_spec (newProc : Nat) (vacant : (state.managers target).Vacant) :
    ∃ after final, ManagerCall.run state (.fork target other newProc) =
        some (state.put after target final) ∧
      Separate (state.put after target final) ∧
      final.bitmap.size = (state.managers other).bitmap.size ∧
      Forked state.memory newProc (state.managers other).currentFDs.nodes .empty after
        final.currentFDs := by
  have parent := separate.synced other
  rcases parent.bits with ⟨bytes, holds, agree⟩
  rcases new_copy_granted separate.granted holds parent.allocated 0 with
    ⟨larger, copied, newCall, copyCall, stored, rest, copyNext, sameCopy⟩
  rw [replicate_zero, append_nil] at stored
  rw [add_zero] at newCall
  have granted : copied.outcomes = [] := sameCopy.outcomes.trans separate.granted
  have live : ∀ node ∈ (state.managers other).currentFDs.nodes,
      (copied.descriptors node.2).isSome = true ∧ node.2 < copied.nextDescriptor := by
    rw [sameCopy.descriptors, sameCopy.nextDescriptor]
    exact table_live separate
  have ordered : ((empty : OrderedMap Nat Nat).nodes ++
      (state.managers other).currentFDs.nodes).Pairwise fun left right => left.1 < right.1 :=
    (state.managers other).currentFDs.sorted
  rcases fork_all_spec newProc granted live ordered with ⟨after, table, call, forked, same⟩
  have kept : Forked state.memory newProc (state.managers other).currentFDs.nodes .empty after
      table := by
    rcases forked with ⟨listed, copies, older, grown⟩
    rw [sameCopy.nextDescriptor] at listed copies older grown
    rw [sameCopy.descriptors] at copies older
    exact ⟨listed, copies, older, grown⟩
  have listed : table.nodes = copiesFrom state.memory.nextDescriptor
      (state.managers other).currentFDs.nodes := kept.listed
  have afterNext : after.nextArray = state.memory.nextArray + 1 := by
    rw [same.nextArray, copyNext]
  have synced : Synced after { state.managers target with
      currentFDs := table
      bitmap := ⟨some state.memory.nextArray, (state.managers other).bitmap.size⟩ } := by
    refine ⟨⟨bytes, ⟨holds.length, ?_, ?_⟩, ?_⟩, ?_, parent.whole, parent.bounded, vacant.unlocked⟩
    · intro address buffer
      rw [← Option.some.inj buffer, same.arrays]
      exact stored
    · intro impossible
      cases impossible
    · intro fd
      rw [agree]
      exact (forked_keys kept fd).symm
    · intro address buffer
      rw [← Option.some.inj buffer, afterNext]
      exact Nat.lt_succ_self _
  have bounds : ∀ fd id, table.find? fd = some id →
      state.memory.nextDescriptor ≤ id ∧ id < after.nextDescriptor := by
    intro fd id found
    have member := find_some_iff.mp found
    rw [listed] at member
    rw [kept.next]
    exact copies_bounds member
  refine ⟨after, { state.managers target with
      currentFDs := table
      bitmap := ⟨some state.memory.nextArray, (state.managers other).bitmap.size⟩ }, ?_, ?_,
        rfl, kept⟩
  · have unchanged : (state.put after other (state.managers other)).managers = state.managers :=
      update_eq_self _ _
    have noTable := vacant.noTable
    simp only [ManagerCall.run, fork, parent.unlocked, newCall, copyCall,
      vacant.unlocked, noTable, call, Bool.false_eq_true, if_false]
    rw [Managers.put, unchanged]
    rfl
  · apply separate_put separate synced
    · exact same.outcomes.trans granted
    · refine ⟨?_, ?_, by omega⟩
      · intro address older _
        rw [same.arrays, rest address (ne_of_lt older)]
      · intro address buffer
        exact .inr (le_of_eq (Option.some.inj buffer))
    · intro index fd id _ found
      have old := (separate.live index fd id found).2
      refine ⟨kept.older id old, ?_, ?_⟩
      · rw [kept.next]
        omega
      · intro place here
        have new := (bounds place id here).1
        omega
    · intro fd id found
      refine ⟨?_, (bounds fd id found).2⟩
      have member := find_some_iff.mp found
      rw [listed] at member
      have copy := mem_map_of_mem (f := fun node => after.descriptors node.2) member
      rw [kept.copies] at copy
      rcases mem_map.mp copy with ⟨node, nodeMember, equal⟩
      have present := (table_live separate node nodeMember).1
      rw [← equal, isSome_map]
      exact present
    · intro left right id leftFound rightFound
      have leftMember := find_some_iff.mp leftFound
      have rightMember := find_some_iff.mp rightFound
      rw [listed] at leftMember rightMember
      exact copies_key_unique leftMember rightMember

theorem fork_kept (newProc : Nat) (vacant : (state.managers target).Vacant) :
    Kept state (.fork target other newProc) := by
  rcases fork_spec separate newProc vacant with ⟨after, final, call, holds, _⟩
  exact ⟨_, call, holds, put_others _ _⟩

end Step

/-! ## What the calls promise -/

variable {state : Managers}

theorem call_kept (separate : Separate state) {call : ManagerCall} (legal : call.Legal state) :
    Kept state call := by
  cases call with
  | init target => exact init_kept separate legal
  | delete target => exact delete_kept separate
  | allocate target desc => exact allocate_kept separate desc
  | reserveFD target fd desc => exact reserve_kept separate legal.1 legal.2 desc
  | free target fd => exact free_kept separate fd
  | get target fd => exact ⟨state, rfl, separate, fun _ _ => rfl⟩
  | fork target other newProc => exact fork_kept separate newProc legal.1

/-- The bit of a number, as `Test` reads it. -/
def Managers.bit (state : Managers) (index fd : Nat) : Option Bool :=
  (state.managers index).bitmap.get state.memory fd

def Managers.inTable (state : Managers) (index fd : Nat) : Bool :=
  ((state.managers index).get fd).isSome

theorem bit_eq_in_table (separate : Separate state) (index fd : Nat) :
    state.bit index fd = some (state.inTable index fd) := by
  rcases (separate.synced index).bits with ⟨bytes, holds, agree⟩
  unfold Managers.bit
  rw [get_of_holds holds, agree]
  rfl

/-- What holds of the descriptor managers at every point. -/
structure DescriptorPromises (state : Managers) : Prop where
  /-- A bit is set exactly when the number is in the table. -/
  agree : ∀ index fd, state.bit index fd = some (state.inTable index fd)
  /-- Every call returns, and shows in no other manager. -/
  independent : ∀ call : ManagerCall, call.Legal state → ∃ after, call.run state = some after ∧
    ∀ index, index ≠ call.target → after.managers index = state.managers index ∧
      ∀ fd, after.bit index fd = state.bit index fd
  /-- `Allocate` gives out the smallest number that is not in the table and marks it,
  and fails only when every number is in the table. -/
  allocates : ∀ index desc,
    ((state.managers index).allocate state.memory desc =
        some (state.memory, state.managers index, .error .EMFILE) ∧
      ∀ fd, fd < MAX_FD → state.inTable index fd = true) ∨
    ∃ after final fd, (state.managers index).allocate state.memory desc =
        some (after, final, .ok fd) ∧
      state.inTable index fd = false ∧ (∀ lower, lower < fd → state.inTable index lower = true) ∧
      final.get fd = some desc ∧
      ∀ other, final.bitmap.get after other = some (decide (other = fd) || state.inTable index other)
  /-- A fork has the numbers of its parent. -/
  forks : ∀ index other newProc, ManagerCall.Legal state (.fork index other newProc) →
    ∃ after, ManagerCall.run state (.fork index other newProc) = some after ∧
      ∀ fd, after.inTable index fd = state.inTable other fd

theorem allocated_bits {index desc : Nat} {final : FileDescriptorManager} {fd : Nat}
    (allocated : Allocated state.memory (state.managers index) desc after final fd) (other : Nat) :
    final.bitmap.get after other = some (decide (other = fd) || state.inTable index other) := by
  rcases allocated.synced.bits with ⟨bytes, holds, agree⟩
  rw [get_of_holds holds, agree, allocated.table, find_insert_of_none desc allocated.unused]
  by_cases same : other = fd
  · simp [same]
  · simp only [same, if_false, decide_false, Bool.false_or]
    rfl

theorem separate_promises (separate : Separate state) : DescriptorPromises state := by
  refine ⟨bit_eq_in_table separate, ?_, ?_, ?_⟩
  · intro call legal
    rcases call_kept separate legal with ⟨after, returned, holds, others⟩
    refine ⟨after, returned, ?_⟩
    intro index different
    refine ⟨others index different, ?_⟩
    intro fd
    rw [bit_eq_in_table holds, bit_eq_in_table separate]
    unfold Managers.inTable
    rw [others index different]
  · intro index desc
    rcases allocate_spec (separate.synced index) separate.granted desc with refused | accepted
    · exact .inl refused
    rcases accepted with ⟨after, final, fd, call, allocated⟩
    right
    refine ⟨after, final, fd, call, ?_, allocated.smallest, ?_, allocated_bits allocated⟩
    · unfold Managers.inTable FileDescriptorManager.get
      rw [allocated.unused]
      rfl
    · unfold FileDescriptorManager.get
      rw [allocated.table, find_insert_of_none desc allocated.unused, if_pos rfl]
  · intro index other newProc legal
    rcases fork_spec separate newProc legal.1 with ⟨after, final, call, _, _, forked⟩
    refine ⟨_, call, ?_⟩
    intro fd
    have child : (state.put after index final).managers index = final := update_self _ _ _
    unfold Managers.inTable
    rw [child]
    exact forked_keys forked fd

/-- In every state that a sequence of calls reaches, the bitmap and the table of every manager
agree, `Allocate` gives out the smallest free number, a fork has the numbers of its parent, and
the managers do not influence each other. -/
theorem descriptor_managers_agree {calls : List ManagerCall} {state : Managers}
    (run : Run ManagerCall.Steps Managers.initial calls state) : DescriptorPromises state := by
  apply separate_promises
  apply run_invariant Separate _ initial_separate run
  intro before call after separate step
  rcases call_kept separate step.1 with ⟨kept, returned, holds, _⟩
  rw [step.2] at returned
  rw [Option.some.inj returned]
  exact holds

/-- A descriptor is stored and the table is forked. -/
theorem descriptor_managers_agree_fork :
    ∃ state, Run ManagerCall.Steps Managers.initial
        [.init 0, .allocate 0 ⟨0, .File, 0, true, false, some 1⟩, .fork 1 0 7] state ∧
      state.inTable 1 0 = true ∧ DescriptorPromises state := by
  have first : ManagerCall.Steps Managers.initial (.init 0) _ := ⟨fresh_vacant, rfl⟩
  have second := Run.snoc (Run.snoc (Run.nil _) first)
    (show ManagerCall.Steps _ (.allocate 0 ⟨0, .File, 0, true, false, some 1⟩) _ from
      ⟨by unfold ManagerCall.Legal; decide, rfl⟩)
  have run := Run.snoc second
    (show ManagerCall.Steps _ (.fork 1 0 7) _ from ⟨⟨fresh_vacant, by decide, by decide⟩, rfl⟩)
  exact ⟨_, run, rfl, descriptor_managers_agree run⟩

end FrostyKernel.FileSystem
