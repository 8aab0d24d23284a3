import FrostyKernel.Scheduling.Processes

/-!
# Process identifiers along runs

What each call leaves of the process list, and from it when a run keeps the
identifiers of its processes. `AddProcess` gives out the next number whatever the
process was to be called, so a process does not keep its identifier over `sys_exec`.
-/

namespace FrostyKernel.Scheduling

open Word List Function

namespace Processes

/-! ## What holds between calls -/

/-- Every listed process exists, and each object that a thread refers to is listed as
long as the thread is to remove it. -/
structure Sound (state : Processes) : Prop where
  nodup : state.list.nodes.Nodup
  counted : state.list.count = state.list.nodes.length
  fresh : ∀ id, state.next ≤ id → state.objects id = none
  live : ∀ id ∈ state.list.nodes, (state.objects id).isSome
  running_listed : ∀ id ∈ state.running, id ∈ state.list.nodes
  running_nodup : state.running.Nodup
  dead_listed : ∀ id removeProc, (id, removeProc) ∈ state.dead →
    (id ∈ state.list.nodes ↔ removeProc = true)
  dead_live : ∀ id ∈ state.dead.map Prod.fst, (state.objects id).isSome ∧ id ∉ state.running
  dead_nodup : (state.dead.map Prod.fst).Nodup

/-- The listed processes exist and have different identifiers. -/
structure PIDsDistinct (state : Processes) : Prop where
  live : ∀ id ∈ state.list.nodes, (state.objects id).isSome
  distinct : state.list.nodes.Pairwise fun left right => state.pidOf left ≠ state.pidOf right

def NextPIDFree (state : Processes) : Prop :=
  ∀ id ∈ state.list.nodes, state.pidOf id ≠ some state.lastPID

def PIDListed (state : Processes) (pid : Nat) : Prop :=
  ∃ id ∈ state.list.nodes, state.pidOf id = some pid

/-- The arguments are copied, the program loads, and the caller has no parent, its parent
is listed, or process 1 is. -/
def CanExec (state : Processes) (caller : Nat) (copied rc : Int) : Prop :=
  0 ≤ copied ∧ 0 ≤ rc ∧ ∀ process, state.objects caller = some process →
    2 ^ 63 ≤ process.ppid ∨ state.PIDListed process.ppid ∨ state.PIDListed 1

variable {id caller : Nat} {state next : Processes} {result : Except Int Nat}

theorem Sound.lt_next (sound : Sound state) (live : (state.objects id).isSome) :
    id < state.next := by
  by_contra high
  rw [sound.fresh id (not_lt.mp high)] at live
  cases live

theorem Sound.next_unlisted (sound : Sound state) : state.next ∉ state.list.nodes :=
  fun member => absurd (sound.lt_next (sound.live _ member)) (lt_irrefl _)

theorem enumerate_eq {nodes : List Nat} (pid : Nat)
    (live : ∀ id ∈ nodes, (state.objects id).isSome) :
    state.enumerate pid nodes.length nodes =
      some (nodes.find? fun id => state.pidOf id = some pid) := by
  induction nodes with
  | nil => rfl
  | cons id rest ih =>
    rcases Option.isSome_iff_exists.mp (live id (by simp)) with ⟨process, held⟩
    have later := ih fun other member => live other (by simp [member])
    rw [length_cons, enumerate, held, find?_cons]
    by_cases same : process.pid = pid
    · simp [pidOf, held, same]
    · simp [pidOf, held, same] at later ⊢
      exact later

/-! ## What a call leaves -/

section
variable (state : Processes) (process : Process) (ppid caller : Nat)

def allocated : Processes :=
  { state.setProcess state.next (some process) with next := state.next + 1 }

def skipped : Processes := { state with next := state.next + 1 }

def listed : Processes :=
  { state.allocated ⟨state.lastPID, ppid⟩ with
    list := state.list.insert state.next
    lastPID := add64 state.lastPID 1 }

def withProcess : Processes := { state.listed ppid with running := state.running ++ [state.next] }

def left : Processes :=
  { state with
    list := state.list.remove caller
    running := state.running.erase caller
    dead := state.dead ++ [(caller, false)] }

def withReplaced (ppid : Nat) : Processes :=
  { state.allocated ⟨state.lastPID, ppid⟩ with
    list := (state.list.remove caller).insert state.next
    lastPID := add64 state.lastPID 1
    running := (state.running ++ [state.next]).erase caller
    dead := state.dead ++ [(caller, false)] }

@[simp] theorem allocated_object : (state.allocated process).objects state.next = some process := by
  simp [allocated, setProcess]

theorem allocated_set (other : Process) :
    (state.allocated process).setProcess state.next (some other) = state.allocated other := by
  simp [allocated, setProcess, update_idem]

end

theorem allocated_deleted (sound : Sound state) (process : Process) :
    (state.allocated process).setProcess state.next none = state.skipped := by
  have absent : state.objects state.next = none := sound.fresh _ (le_refl _)
  simp only [allocated, setProcess, skipped, update_idem]
  rw [← absent, update_eq_self]

section
variable (state : Processes) (process : Process)

theorem allocated_ppid (ppid : Nat) :
    (state.allocated process).setPPID state.next ppid =
      some (state.allocated { process with ppid := ppid }) := by
  rw [setPPID, allocated_object]
  exact congrArg some (allocated_set state process _)

theorem allocated_pid (pid : Nat) :
    (state.allocated process).setPID state.next pid =
      some (state.allocated { process with pid := pid }) := by
  rw [setPID, allocated_object]
  exact congrArg some (allocated_set state process _)

theorem allocated_added :
    (state.allocated process).addProcess state.next = some (state.listed process.ppid) := by
  rw [addProcess, allocated_object]
  simp only [show (state.allocated process).lastPID = state.lastPID from rfl, allocated_set]
  rfl

theorem allocated_started :
    (state.allocated process).start state.next = some (state.withProcess process.ppid) := by
  rw [start, allocated_added]
  rfl

end

variable {parent : Option Nat}

theorem adopt_cases {made : Processes}
    (adopted : state.newProcess.adopt state.next parent = some made) :
    ∃ ppid, made = state.allocated ⟨UINT64_MAX, ppid⟩ := by
  cases parent with
  | none =>
    cases adopted
    exact ⟨_, rfl⟩
  | some parent =>
    simp only [adopt] at adopted
    split at adopted
    · cases adopted
    · rename_i process _
      have placed := allocated_ppid state ⟨UINT64_MAX, UINT64_MAX⟩ process.pid
      rw [show state.newProcess = state.allocated ⟨UINT64_MAX, UINT64_MAX⟩ from rfl,
        placed] at adopted
      cases adopted
      exact ⟨_, rfl⟩

theorem allocated_live (process : Process) (live : (state.objects id).isSome) :
    ((state.allocated process).objects id).isSome := by
  by_cases same : id = state.next
  · simp [allocated, setProcess, same]
  · simp [allocated, setProcess, same, live]

theorem remove_process_eq (pid : Nat) (counted : state.list.count = state.list.nodes.length)
    (live : ∀ id ∈ state.list.nodes, (state.objects id).isSome) :
    state.removeProcess pid =
      match state.list.nodes.find? fun id => state.pidOf id = some pid with
      | none => some state
      | some id => some { state with list := state.list.remove id } := by
  rw [removeProcess, getProcess, counted, enumerate_eq pid live]
  cases state.list.nodes.find? fun id => state.pidOf id = some pid <;> rfl

theorem insert_remove {list : ProcessList} (absent : id ∉ list.nodes) :
    (list.insert id).remove id = list := by
  simp [ProcessList.insert, ProcessList.remove, erase_append_right _ absent]

section
variable (sound : Sound state)
include sound

theorem create_cases {rc : Int} {noStart : Bool}
    (created : state.createELFProcess parent rc noStart = some (next, result)) :
    (rc < 0 ∧ next = state.skipped ∧ result = .error rc) ∨
      (0 ≤ rc ∧ result = .ok state.next ∧ ∃ ppid,
        next = if noStart then state.allocated ⟨UINT64_MAX, ppid⟩ else state.withProcess ppid) := by
  simp only [createELFProcess] at created
  split at created
  · cases created
  rename_i made adopted
  rcases adopt_cases adopted with ⟨ppid, rfl⟩
  split at created
  · rename_i failed
    rw [allocated_deleted sound] at created
    cases created
    exact .inl ⟨failed, rfl, rfl⟩
  · rename_i loaded
    refine .inr ⟨not_lt.mp loaded, ?_⟩
    rw [allocated_started] at created
    cases noStart with
    | true =>
      cases created
      exact ⟨rfl, ppid, rfl⟩
    | false =>
      cases created
      exact ⟨rfl, ppid, rfl⟩

theorem Sound.pid_allocated (process : Process) (member : id ∈ state.list.nodes) :
    (state.allocated process).pidOf id = state.pidOf id := by
  have other : id ≠ state.next := fun same => sound.next_unlisted (same ▸ member)
  simp [pidOf, allocated, setProcess, other]

theorem Sound.find_listed (ppid : Nat) :
    ((state.listed ppid).list.nodes.find? fun id =>
        (state.listed ppid).pidOf id = some state.lastPID) =
      (state.list.nodes.find? fun id => state.pidOf id = some state.lastPID).or
        (some state.next) := by
  have fresh : (state.listed ppid).pidOf state.next = some state.lastPID := by
    simp [listed, pidOf, allocated, setProcess]
  change (state.list.nodes ++ [state.next]).find? _ = _
  rw [find?_append]
  congr 1
  · apply find?_congr
    intro id member
    rw [show (state.listed ppid).pidOf id = state.pidOf id from sound.pid_allocated _ member]
  · simp [fresh]

/-- After a failed fork the list is as before when the identifier was free. Otherwise the
older process with this identifier is removed, and the deleted one stays in the list. -/
theorem listed_removed {removed : Processes} {ppid : Nat}
    (run : (state.listed ppid).removeProcess state.lastPID = some removed) :
    (state.NextPIDFree ∧
        removed.setProcess state.next none =
          { state.skipped with lastPID := add64 state.lastPID 1 }) ∨
      (¬ state.NextPIDFree ∧ ¬ (removed.setProcess state.next none).PIDsDistinct) := by
  have live : ∀ id ∈ (state.listed ppid).list.nodes, ((state.listed ppid).objects id).isSome := by
    intro id member
    rcases mem_append.mp member with old | new
    · exact allocated_live _ (sound.live id old)
    · rw [mem_singleton.mp new]
      simp [listed]
  have counted : (state.listed ppid).list.count = (state.listed ppid).list.nodes.length := by
    simp [listed, ProcessList.insert, sound.counted]
  rw [remove_process_eq _ counted live, sound.find_listed] at run
  cases found : state.list.nodes.find? fun id => state.pidOf id = some state.lastPID with
  | none =>
    left
    rw [found] at run
    cases run
    constructor
    · intro id member same
      have differs := find?_eq_none.mp found id member
      simp [same] at differs
    · have kept : (state.listed ppid).list.remove state.next = state.list :=
        insert_remove sound.next_unlisted
      have deleted := allocated_deleted sound ⟨state.lastPID, ppid⟩
      rw [kept]
      exact congrArg (fun state' : Processes =>
        { state' with lastPID := add64 state.lastPID 1 }) deleted
  | some id =>
    right
    rw [found] at run
    cases run
    have member := mem_of_find?_eq_some found
    have same := find?_some found
    rw [decide_eq_true_eq] at same
    have other : state.next ≠ id := fun equal => sound.next_unlisted (equal ▸ member)
    refine ⟨fun free => free id member same, ?_⟩
    intro distinct
    have stays : state.next ∈ ((state.listed ppid).list.remove id).nodes :=
      (mem_erase_of_ne other).mpr (by simp [listed, ProcessList.insert])
    have alive := distinct.live state.next stays
    simp [setProcess] at alive

theorem fork_cases {outcome : ForkOutcome}
    (forked : state.sysFork caller outcome = some (next, result)) :
    (∃ rc, outcome = .fails rc ∧ next = state.skipped) ∨
      (outcome = .notAdded ∧
        ((state.NextPIDFree ∧ next = { state.skipped with lastPID := add64 state.lastPID 1 }) ∨
          (¬ state.NextPIDFree ∧ ¬ next.PIDsDistinct))) ∨
      (outcome = .succeeds ∧ ∃ ppid, next = state.withProcess ppid) := by
  simp only [sysFork] at forked
  split at forked
  · cases forked
  rename_i process _
  rw [show state.newProcess = state.allocated ⟨UINT64_MAX, UINT64_MAX⟩ from rfl,
    allocated_ppid] at forked
  simp only at forked
  cases outcome with
  | fails rc =>
    simp only [allocated_deleted sound] at forked
    cases forked
    exact .inl ⟨rc, rfl, rfl⟩
  | notAdded =>
    right
    left
    simp only [allocated_added] at forked
    split at forked
    · cases forked
    · rename_i removed run
      cases forked
      exact ⟨rfl, listed_removed sound run⟩
  | succeeds =>
    right
    right
    simp only [allocated_started] at forked
    cases forked
    exact ⟨rfl, _, rfl⟩

end

theorem PIDsDistinct.eq_of_pid (distinct : state.PIDsDistinct) {left right : Nat}
    (leftIn : left ∈ state.list.nodes) (rightIn : right ∈ state.list.nodes)
    (same : state.pidOf left = state.pidOf right) : left = right := by
  have symmetric : Std.Symm fun left right => state.pidOf left ≠ state.pidOf right :=
    ⟨fun _ _ differ => differ.symm⟩
  by_contra different
  exact List.Pairwise.forall distinct.distinct leftIn rightIn different same

theorem PIDsDistinct.find_eq (distinct : state.PIDsDistinct) {pid : Nat}
    (member : id ∈ state.list.nodes) (held : state.pidOf id = some pid) :
    (state.list.nodes.find? fun other => state.pidOf other = some pid) = some id := by
  cases found : state.list.nodes.find? fun other => state.pidOf other = some pid with
  | none =>
    have differs := find?_eq_none.mp found id member
    simp [held] at differs
  | some other =>
    have otherIn := mem_of_find?_eq_some found
    have same := find?_some found
    rw [decide_eq_true_eq] at same
    rw [distinct.eq_of_pid otherIn member (same.trans held.symm)]

section
variable (sound : Sound state)
include sound

theorem replace_eq (distinct : state.PIDsDistinct) {pid ppid : Nat}
    (member : caller ∈ state.list.nodes) (held : state.pidOf caller = some pid) (process : Process) :
    (state.allocated process).replace caller state.next pid ppid =
      some (state.withReplaced caller ppid) := by
  have found : ((state.allocated ⟨pid, ppid⟩).list.nodes.find? fun id =>
      (state.allocated ⟨pid, ppid⟩).pidOf id = some pid) = some caller := by
    rw [← distinct.find_eq member held]
    apply find?_congr
    intro id listed
    rw [sound.pid_allocated _ listed]
  have removed := @remove_process_eq (state.allocated ⟨pid, ppid⟩) pid sound.counted
    fun id listed => allocated_live _ (sound.live id listed)
  rw [found] at removed
  have started := allocated_started { state with list := state.list.remove caller } ⟨pid, ppid⟩
  simp only [replace, allocated_pid, allocated_ppid]
  rw [removed]
  simp only
  rw [show (Processes.mk (state.allocated ⟨pid, ppid⟩).objects (state.allocated ⟨pid, ppid⟩).next
      ((state.allocated ⟨pid, ppid⟩).list.remove caller) (state.allocated ⟨pid, ppid⟩).lastPID
      (state.allocated ⟨pid, ppid⟩).running (state.allocated ⟨pid, ppid⟩).dead).start state.next =
    _ from started]
  rfl

theorem exec_parent_cases {ppid : Nat} {found : Except Int (Option Nat × Nat)}
    (looked : state.execParent ppid = some found) :
    (∃ parent, found = .ok parent) ↔
      2 ^ 63 ≤ ppid ∨ state.PIDListed ppid ∨ state.PIDListed 1 := by
  have lookup : ∀ pid, ∃ place, state.getProcess pid = some place ∧
      (place.isSome ↔ state.PIDListed pid) := by
    intro pid
    refine ⟨_, by rw [getProcess, sound.counted, enumerate_eq pid sound.live], ?_⟩
    simp [PIDListed, find?_isSome]
  obtain ⟨own, ownFound, ownListed⟩ := lookup ppid
  obtain ⟨first, firstFound, firstListed⟩ := lookup 1
  rw [execParent, ownFound, firstFound] at looked
  rw [← ownListed, ← firstListed]
  by_cases high : 2 ^ 63 ≤ ppid
  · rw [if_pos high] at looked
    cases looked
    exact iff_of_true ⟨_, rfl⟩ (.inl high)
  rw [if_neg high] at looked
  cases own with
  | some parent =>
    cases looked
    simp
  | none =>
    cases first with
    | some parent =>
      cases looked
      simp
    | none =>
      cases looked
      exact iff_of_false (by simp) (by simpa using high)

theorem exec_cases (distinct : state.PIDsDistinct) (member : caller ∈ state.list.nodes)
    {copied rc : Int} (executed : state.sysExec caller copied rc = some (next, result)) :
    (¬ state.CanExec caller copied rc ∧ (∃ code, result = .error code) ∧
        (next = state ∨ next = state.skipped)) ∨
      (state.CanExec caller copied rc ∧ result = .ok state.next ∧
        ∃ ppid, next = state.withReplaced caller ppid) := by
  simp only [sysExec] at executed
  split at executed
  · cases executed
  rename_i process object
  split at executed
  · cases executed
  · rename_i code looked
    cases executed
    refine .inl ⟨?_, ⟨code, rfl⟩, .inl rfl⟩
    rintro ⟨_, _, parents⟩
    rcases (exec_parent_cases sound looked).mpr (parents process object) with ⟨_, impossible⟩
    cases impossible
  rename_i parent ppid looked
  split at executed
  · rename_i negative
    cases executed
    exact .inl ⟨fun can => absurd negative (not_lt.mpr can.1), ⟨copied, rfl⟩, .inl rfl⟩
  rename_i positive
  split at executed
  · cases executed
  · rename_i failed code created
    rcases create_cases sound created with ⟨negative, rfl, _⟩ | ⟨_, impossible, _⟩
    · cases executed
      exact .inl ⟨fun can => absurd negative (not_lt.mpr can.2.1), ⟨code, rfl⟩, .inr rfl⟩
    · cases impossible
  · rename_i made id created
    rcases create_cases sound created with ⟨_, _, impossible⟩ | ⟨loaded, same, other, rfl⟩
    · cases impossible
    · cases same
      have held : state.pidOf caller = some process.pid := by simp [pidOf, object]
      rw [if_pos rfl, replace_eq sound distinct member held] at executed
      cases executed
      refine .inr ⟨⟨not_lt.mp positive, loaded, ?_⟩, rfl, ppid, rfl⟩
      intro other same
      cases object.symm.trans same
      exact (exec_parent_cases sound looked).mp ⟨_, rfl⟩

/-! ## The invariant is kept -/

omit sound in
theorem nodup_snoc {nodes : List Nat} (nodup : nodes.Nodup) (absent : id ∉ nodes) :
    (nodes ++ [id]).Nodup :=
  (perm_append_singleton id nodes).nodup_iff.mpr (nodup_cons.mpr ⟨absent, nodup⟩)

namespace Sound

theorem skip (lastPID : Nat) : Sound { state.skipped with lastPID := lastPID } where
  nodup := sound.nodup
  counted := sound.counted
  fresh id above := sound.fresh id (Nat.le_of_succ_le above)
  live := sound.live
  running_listed := sound.running_listed
  running_nodup := sound.running_nodup
  dead_listed := sound.dead_listed
  dead_live := sound.dead_live
  dead_nodup := sound.dead_nodup

theorem next_not_running : state.next ∉ state.running :=
  fun member => sound.next_unlisted (sound.running_listed _ member)

theorem next_not_dead : state.next ∉ state.dead.map Prod.fst :=
  fun member => absurd (sound.lt_next (sound.dead_live _ member).1) (lt_irrefl _)

theorem fresh_allocated (process : Process) (id : Nat) (above : state.next + 1 ≤ id) :
    (state.allocated process).objects id = none := by
  have other : id ≠ state.next := by omega
  have absent := sound.fresh id (by omega)
  simp [allocated, setProcess, other, absent]

theorem add (ppid : Nat) : Sound (state.withProcess ppid) where
  nodup := nodup_snoc sound.nodup sound.next_unlisted
  counted := by simp [withProcess, listed, ProcessList.insert, sound.counted]
  fresh := sound.fresh_allocated _
  live := by
    intro id member
    rcases mem_append.mp member with old | new
    · exact allocated_live _ (sound.live id old)
    · rw [mem_singleton.mp new]
      simp [withProcess, listed]
  running_listed := by
    intro id member
    rcases mem_append.mp member with old | new
    · exact mem_append_left _ (sound.running_listed id old)
    · exact mem_append_right _ new
  running_nodup := nodup_snoc sound.running_nodup sound.next_not_running
  dead_listed := by
    intro id removeProc member
    have other : id ≠ state.next := fun same =>
      sound.next_not_dead (same ▸ mem_map.mpr ⟨(id, removeProc), member, rfl⟩)
    rw [← sound.dead_listed id removeProc member]
    simp [withProcess, listed, ProcessList.insert, other]
  dead_live := by
    intro id member
    have other : id ≠ state.next := fun same => sound.next_not_dead (same ▸ member)
    refine ⟨allocated_live _ (sound.dead_live id member).1, ?_⟩
    simp [withProcess, (sound.dead_live id member).2, other]
  dead_nodup := sound.dead_nodup

theorem count_remove (member : id ∈ state.list.nodes) :
    (state.list.remove id).count = (state.list.remove id).nodes.length := by
  have positive : state.list.count ≠ 0 := by
    rw [sound.counted]
    exact ne_of_gt (length_pos_of_mem member)
  simp only [ProcessList.remove, if_neg positive, length_erase_of_mem member]
  rw [sound.counted]

section
variable (running : caller ∈ state.running)
include running

theorem dead_live_more (removeProc : Bool) :
    ∀ id ∈ (state.dead ++ [(caller, removeProc)]).map Prod.fst,
      (state.objects id).isSome ∧ id ∉ state.running.erase caller := by
  intro id member
  rw [map_append, mem_append] at member
  rcases member with old | new
  · exact ⟨(sound.dead_live id old).1,
      fun still => (sound.dead_live id old).2 (mem_of_mem_erase still)⟩
  · have same : id = caller := by simpa using new
    subst same
    exact ⟨sound.live id (sound.running_listed id running), sound.running_nodup.not_mem_erase⟩

theorem dead_nodup_more (removeProc : Bool) :
    ((state.dead ++ [(caller, removeProc)]).map Prod.fst).Nodup := by
  rw [map_append]
  exact nodup_snoc sound.dead_nodup fun member => (sound.dead_live caller member).2 running

theorem exit : Sound (state.sysExit caller) where
  nodup := sound.nodup
  counted := sound.counted
  fresh := sound.fresh
  live := sound.live
  running_listed id member := sound.running_listed id (mem_of_mem_erase member)
  running_nodup := sound.running_nodup.erase caller
  dead_listed := by
    intro id removeProc member
    rcases mem_append.mp member with old | new
    · exact sound.dead_listed id removeProc old
    · cases mem_singleton.mp new
      exact iff_of_true (sound.running_listed caller running) rfl
  dead_live := sound.dead_live_more running true
  dead_nodup := sound.dead_nodup_more running true

theorem leave : Sound (state.left caller) where
  nodup := sound.nodup.erase caller
  counted := sound.count_remove (sound.running_listed caller running)
  fresh := sound.fresh
  live id member := sound.live id (mem_of_mem_erase member)
  running_listed := by
    intro id member
    have other : id ≠ caller := fun same => sound.running_nodup.not_mem_erase (same ▸ member)
    exact (mem_erase_of_ne other).mpr (sound.running_listed id (mem_of_mem_erase member))
  running_nodup := sound.running_nodup.erase caller
  dead_listed := by
    intro id removeProc member
    rcases mem_append.mp member with old | new
    · have other : id ≠ caller := fun same =>
        (sound.dead_live id (mem_map.mpr ⟨(id, removeProc), old, rfl⟩)).2 (same ▸ running)
      rw [← sound.dead_listed id removeProc old]
      exact mem_erase_of_ne other
    · cases mem_singleton.mp new
      exact iff_of_false sound.nodup.not_mem_erase (by simp)
  dead_live := sound.dead_live_more running false
  dead_nodup := sound.dead_nodup_more running false

end
end Sound
end

theorem with_replaced_eq (running : caller ∈ state.running) (ppid : Nat) :
    state.withReplaced caller ppid = (state.left caller).withProcess ppid := by
  simp only [withReplaced, withProcess, left]
  rw [erase_append_left _ running]
  rfl

theorem Sound.reaped_list (sound : Sound state) {removeProc : Bool}
    (waiting : (id, removeProc) ∈ state.dead) :
    (if removeProc then state.list.remove id else state.list).nodes = state.list.nodes.erase id ∧
      (if removeProc then state.list.remove id else state.list).count =
        (state.list.nodes.erase id).length := by
  have listed := sound.dead_listed id removeProc waiting
  cases removeProc with
  | true =>
    rw [if_pos rfl]
    exact ⟨rfl, sound.count_remove (listed.mpr rfl)⟩
  | false =>
    have absent : id ∉ state.list.nodes := fun member => by simpa using listed.mp member
    rw [if_neg (by simp), erase_of_not_mem absent]
    exact ⟨rfl, sound.counted⟩

theorem reaped_object {other : Nat} (differs : other ≠ id) :
    (state.setProcess id none).objects other = state.objects other := by
  simp [setProcess, differs]

theorem Sound.reap (sound : Sound state) : Sound state.handleDeadThread := by
  unfold handleDeadThread
  split
  · exact sound
  rename_i id removeProc rest waiting
  have head : (id, removeProc) ∈ state.dead := by simp [waiting]
  have isDead : id ∈ state.dead.map Prod.fst := mem_map.mpr ⟨_, head, rfl⟩
  have nodupDead := sound.dead_nodup
  rw [waiting, map_cons, nodup_cons] at nodupDead
  rcases sound.reaped_list head with ⟨nodes, count⟩
  have kept : ∀ other ∈ state.list.nodes.erase id, other ∈ state.list.nodes ∧ other ≠ id :=
    fun other member => ⟨mem_of_mem_erase member,
      fun same => sound.nodup.not_mem_erase (same ▸ member)⟩
  have later : ∀ pair ∈ rest, pair ∈ state.dead ∧ pair.1 ≠ id := by
    intro pair member
    refine ⟨by simp [waiting, member], ?_⟩
    intro same
    exact nodupDead.1 (mem_map.mpr ⟨pair, member, same⟩)
  constructor
  · rw [nodes]
    exact sound.nodup.erase id
  · rw [nodes, count]
  · intro other above
    have absent := sound.fresh other above
    by_cases same : other = id
    · simp [setProcess, same]
    · exact (reaped_object same).trans absent
  · intro other member
    rw [nodes] at member
    rcases kept other member with ⟨listed, differs⟩
    change ((state.setProcess id none).objects other).isSome
    rw [reaped_object differs]
    exact sound.live other listed
  · intro other member
    rw [nodes]
    have differs : other ≠ id := fun same => (sound.dead_live id isDead).2 (same ▸ member)
    exact (mem_erase_of_ne differs).mpr (sound.running_listed other member)
  · exact sound.running_nodup
  · intro other flag member
    rcases later (other, flag) member with ⟨old, differs⟩
    rw [nodes, ← sound.dead_listed other flag old]
    exact mem_erase_of_ne differs
  · intro other member
    rcases mem_map.mp member with ⟨pair, inRest, rfl⟩
    rcases later pair inRest with ⟨old, differs⟩
    have holds := sound.dead_live pair.1 (mem_map.mpr ⟨pair, old, rfl⟩)
    change ((state.setProcess id none).objects pair.1).isSome ∧ _
    rw [reaped_object differs]
    exact holds
  · exact nodupDead.2

/-! ## The identifiers -/

theorem with_process_distinct_iff (sound : Sound state) (ppid : Nat) :
    (state.withProcess ppid).PIDsDistinct ↔ state.PIDsDistinct ∧ state.NextPIDFree := by
  have newPID : (state.withProcess ppid).pidOf state.next = some state.lastPID := by
    simp [withProcess, listed, pidOf, allocated, setProcess]
  have oldPID : ∀ id ∈ state.list.nodes, (state.withProcess ppid).pidOf id = state.pidOf id :=
    fun id member => sound.pid_allocated _ member
  have pairs : (state.list.nodes ++ [state.next]).Pairwise (fun left right =>
      (state.withProcess ppid).pidOf left ≠ (state.withProcess ppid).pidOf right) ↔
      state.list.nodes.Pairwise (fun left right => state.pidOf left ≠ state.pidOf right) ∧
        state.NextPIDFree := by
    rw [pairwise_append]
    constructor
    · rintro ⟨old, _, mixed⟩
      refine ⟨old.imp_of_mem ?_, ?_⟩
      · intro left right leftIn rightIn differ
        rwa [oldPID left leftIn, oldPID right rightIn] at differ
      · intro id member
        have differ := mixed id member state.next (by simp)
        rwa [oldPID id member, newPID] at differ
    · rintro ⟨old, free⟩
      refine ⟨old.imp_of_mem ?_, pairwise_singleton _ _, ?_⟩
      · intro left right leftIn rightIn differ
        rwa [oldPID left leftIn, oldPID right rightIn]
      · intro id member other new
        rw [mem_singleton.mp new, oldPID id member, newPID]
        exact free id member
  constructor
  · intro distinct
    rcases pairs.mp distinct.distinct with ⟨old, free⟩
    exact ⟨⟨sound.live, old⟩, free⟩
  · rintro ⟨distinct, free⟩
    exact ⟨(sound.add ppid).live, pairs.mpr ⟨distinct.distinct, free⟩⟩

theorem PIDsDistinct.skip (distinct : state.PIDsDistinct) (lastPID : Nat) :
    PIDsDistinct { state.skipped with lastPID := lastPID } :=
  ⟨distinct.live, distinct.distinct⟩

theorem PIDsDistinct.leave (distinct : state.PIDsDistinct) (caller : Nat) :
    (state.left caller).PIDsDistinct where
  live id member := distinct.live id (mem_of_mem_erase member)
  distinct := distinct.distinct.sublist erase_sublist

theorem PIDsDistinct.reap (sound : Sound state) (distinct : state.PIDsDistinct) :
    state.handleDeadThread.PIDsDistinct := by
  refine ⟨sound.reap.live, ?_⟩
  unfold handleDeadThread
  split
  · exact distinct.distinct
  rename_i id removeProc rest waiting
  have head : (id, removeProc) ∈ state.dead := by simp [waiting]
  rw [(sound.reaped_list head).1]
  have pairs := distinct.distinct.sublist (@erase_sublist _ _ id state.list.nodes)
  apply pairs.imp_of_mem
  intro left right leftIn rightIn differ
  have leftOther : left ≠ id := fun same => sound.nodup.not_mem_erase (same ▸ leftIn)
  have rightOther : right ≠ id := fun same => sound.nodup.not_mem_erase (same ▸ rightIn)
  change ((state.setProcess id none).objects left).map Process.pid ≠
    ((state.setProcess id none).objects right).map Process.pid
  rw [reaped_object leftOther, reaped_object rightOther]
  exact differ

theorem replaced_pid_iff (ppid : Nat) :
    (state.withReplaced caller ppid).pidOf state.next = state.pidOf caller ↔
      state.pidOf caller = some state.lastPID := by
  have newPID : (state.withReplaced caller ppid).pidOf state.next = some state.lastPID := by
    simp [withReplaced, pidOf, allocated, setProcess]
  rw [newPID]
  exact eq_comm

theorem left_next_free (sound : Sound state) (distinct : state.PIDsDistinct)
    (member : caller ∈ state.list.nodes) (same : state.pidOf caller = some state.lastPID) :
    (state.left caller).NextPIDFree := by
  intro id still held
  have listed : id ∈ state.list.nodes := mem_of_mem_erase still
  cases distinct.eq_of_pid listed member (held.trans same.symm)
  exact sound.nodup.not_mem_erase still

end Processes

namespace ProcessCall

open Processes

section
variable (state : Processes) (call : ProcessCall) (next : Processes)

def Steps : Prop := ∃ result, call.run state = some (next, result)

/-- After the call the identifiers differ, and a successful `sys_exec` left the caller's
identifier to the process that goes on. -/
def KeepsPIDs : Prop :=
  next.PIDsDistinct ∧
    ∀ caller copied rc id, call = .exec caller copied rc →
      call.run state = some (next, .ok id) → next.pidOf id = state.pidOf caller

end

/-- The identifier that is given out is free, and for a `sys_exec` that nothing stops it is
the one of the caller. -/
def Respects (state : Processes) : ProcessCall → Prop
  | .create _ rc => 0 ≤ rc → state.NextPIDFree
  | .fork _ outcome => (∀ rc, outcome ≠ .fails rc) → state.NextPIDFree
  | .exec caller copied rc => state.CanExec caller copied rc →
      state.pidOf caller = some state.lastPID
  | .exit _ => True
  | .reap => True

theorem step_kept {state next : Processes} {call : ProcessCall} (sound : Sound state)
    (distinct : state.PIDsDistinct) (step : Steps state call next) :
    (KeepsPIDs state call next ↔ Respects state call) ∧ (Respects state call → Sound next) := by
  rcases step with ⟨result, run⟩
  cases call with
  | create parent rc =>
    have notExec : KeepsPIDs state (.create parent rc) next ↔ next.PIDsDistinct :=
      ⟨And.left, fun holds => ⟨holds, by simp⟩⟩
    rw [notExec]
    simp only [ProcessCall.run] at run
    split at run
    · rcases create_cases sound run with ⟨failed, rfl, _⟩ | ⟨loaded, _, ppid, rfl⟩
      · have met : Respects state (.create parent rc) := fun positive =>
          absurd failed (not_lt.mpr positive)
        exact ⟨iff_of_true (distinct.skip state.lastPID) met, fun _ => sound.skip state.lastPID⟩
      · rw [if_neg (by simp), with_process_distinct_iff sound]
        exact ⟨⟨fun both _ => both.2, fun free => ⟨distinct, free loaded⟩⟩, fun _ => sound.add ppid⟩
    · cases run
  | fork caller outcome =>
    have notExec : KeepsPIDs state (.fork caller outcome) next ↔ next.PIDsDistinct :=
      ⟨And.left, fun holds => ⟨holds, by simp⟩⟩
    rw [notExec]
    simp only [ProcessCall.run] at run
    split at run
    · rcases fork_cases sound run with ⟨rc, rfl, rfl⟩ |
        ⟨rfl, ⟨free, rfl⟩ | ⟨taken, clash⟩⟩ | ⟨rfl, ppid, rfl⟩
      · have met : Respects state (.fork caller (.fails rc)) := fun other =>
          absurd rfl (other rc)
        exact ⟨iff_of_true (distinct.skip state.lastPID) met, fun _ => sound.skip state.lastPID⟩
      · exact ⟨iff_of_true (distinct.skip _) fun _ => free, fun _ => sound.skip _⟩
      · have missed : ¬ Respects state (.fork caller .notAdded) := fun met =>
          taken (met (by simp))
        exact ⟨iff_of_false clash missed, fun met => absurd met missed⟩
      · rw [with_process_distinct_iff sound]
        exact ⟨⟨fun both _ => both.2, fun free => ⟨distinct, free (by simp)⟩⟩,
          fun _ => sound.add ppid⟩
    · cases run
  | exec caller copied rc =>
    have whole := run
    simp only [ProcessCall.run] at run
    split at run
    · rename_i running
      have member := sound.running_listed caller running
      rcases exec_cases sound distinct member run with
        ⟨stopped, ⟨code, rfl⟩, same⟩ | ⟨can, rfl, ppid, rfl⟩
      · have met : Respects state (.exec caller copied rc) := fun can => absurd can stopped
        have distinctAfter : next.PIDsDistinct := by
          rcases same with rfl | rfl
          · exact distinct
          · exact distinct.skip state.lastPID
        have soundAfter : Sound next := by
          rcases same with rfl | rfl
          · exact sound
          · exact sound.skip state.lastPID
        refine ⟨iff_of_true ⟨distinctAfter, ?_⟩ met, fun _ => soundAfter⟩
        intro _ _ _ id _ succeeded
        rw [whole] at succeeded
        cases succeeded
      · refine ⟨⟨?_, ?_⟩, ?_⟩
        · rintro ⟨_, kept⟩ _
          have same := kept caller copied rc state.next rfl whole
          exact (replaced_pid_iff ppid).mp same
        · intro met
          have same := met can
          refine ⟨?_, ?_⟩
          · rw [with_replaced_eq running, with_process_distinct_iff (sound.leave running)]
            exact ⟨distinct.leave caller, left_next_free sound distinct member same⟩
          · intro other _ _ id call succeeded
            cases call
            rw [whole] at succeeded
            cases succeeded
            exact (replaced_pid_iff ppid).mpr same
        · intro _
          rw [with_replaced_eq running]
          exact (sound.leave running).add ppid
    · cases run
  | exit caller =>
    simp only [ProcessCall.run] at run
    split at run
    · rename_i running
      cases run
      exact ⟨iff_of_true ⟨⟨sound.live, distinct.distinct⟩, by simp⟩ trivial,
        fun _ => sound.exit running⟩
    · cases run
  | reap =>
    cases run
    exact ⟨iff_of_true ⟨distinct.reap sound, by simp⟩ trivial, fun _ => sound.reap⟩

theorem initial_sound : Sound initial where
  nodup := nodup_nil
  counted := rfl
  fresh _ _ := rfl
  live := by simp [initial]
  running_listed := by simp [initial]
  running_nodup := nodup_nil
  dead_listed := by simp [initial]
  dead_live := by simp [initial]
  dead_nodup := nodup_nil

theorem initial_distinct : initial.PIDsDistinct := ⟨by simp [initial], List.Pairwise.nil⟩

/-- The runs that keep the identifiers of the processes are the runs in which every
identifier is free when it is given out and a successful `sys_exec` happens to get the
one of its caller. -/
theorem pids_kept (calls : List ProcessCall) (final : Processes) :
    Run (fun state call next => Steps state call next ∧ KeepsPIDs state call next) initial calls
        final ↔
      Run (fun state call next => Steps state call next ∧ Respects state call) initial calls
        final := by
  apply @run_steps_iff Processes ProcessCall Steps Respects
    (fun state => Sound state ∧ state.PIDsDistinct)
  · rintro state call next ⟨sound, distinct⟩ step met
    have kept := step_kept sound distinct step
    exact ⟨kept.2 met, (kept.1.mpr met).1⟩
  · rintro state call next ⟨sound, distinct⟩ step
    exact (step_kept sound distinct step).1
  · exact ⟨initial_sound, initial_distinct⟩

/-- A child of the first process has the identifier 1. After its `sys_exec` it goes on
as 2. -/
theorem exec_changes_pid :
    ∃ state next : Processes,
      Run Steps initial [.create none 0, .fork 0 .succeeds] state ∧
        (ProcessCall.exec 1 0 0).run state = some (next, .ok 2) ∧
        state.pidOf 1 = some 1 ∧ next.pidOf 2 = some 2 := by
  refine ⟨_, _, run_cons ⟨_, rfl⟩ (run_cons ⟨_, rfl⟩ (.nil _)), rfl, rfl, rfl⟩

end ProcessCall
end FrostyKernel.Scheduling
