import FrostyKernel.FileSystem.OpenFiles
import FrostyKernel.FileSystem.OpenFileCount

/-!
# Reference counts of vnodes

A vnode is referenced by its creation, by its children and by the open File
descriptors that hold it. Opening and closing a file keep the count; the count is
wrong after a directory was opened, after a fork that copied an open file and
after the exit of a process with an open file.
-/

namespace FrostyKernel.FileSystem

open CString VFS Function Files List Option

def creationReferences (fs : VFS) (id : Nat) : Int := if id = fs.root then 3 else 2

/-- The counts are right, and no vnode that is linked or held is gone. -/
structure Balanced (fs : VFS) (memory : Memory) : Prop where
  counted : ∀ id node, fs.vnodes id = some node →
    node.refCount = creationReferences fs id + openFiles memory id + node.children.length
  linked : ∀ id node child, fs.vnodes id = some node → child ∈ node.children →
    (fs.vnodes child).isSome
  held : ∀ id, 0 < openFiles memory id → (fs.vnodes id).isSome

/-- What holds of the vnodes and tables as long as no vnode is deleted. -/
structure Sound (state : Files) : Prop where
  linked : VFS.Linked state.fs
  fresh : state.memory.Fresh
  tables : ∀ proc files, state.processes proc = some files → ∀ id, Names files.manager id →
    id < state.memory.nextDescriptor

/-! ## Vnodes -/

section VNodes
variable {fs : VFS} {memory after : Memory}

theorem creation_references_ge (fs : VFS) (id : Nat) : 2 ≤ creationReferences fs id := by
  unfold creationReferences
  split <;> decide

variable {id : Nat} {released : VFS} {node : VNode}

theorem balanced_count_pos (balanced : Balanced fs memory) (found : fs.vnodes id = some node) :
    2 + openFiles memory id ≤ node.refCount := by
  have count := balanced.counted id node found
  have creation := creation_references_ge fs id
  omega

/-- With the same vnodes the counts stay right exactly when no open file comes or goes. -/
theorem balanced_memory_iff (balanced : Balanced fs memory) :
    Balanced fs after ↔ ∀ id, openFiles after id = openFiles memory id := by
  constructor
  · intro again id
    cases found : fs.vnodes id with
    | some node =>
      have old := balanced.counted id node found
      have new := again.counted id node found
      omega
    | none =>
      have nothing : ∀ {some : Memory}, Balanced fs some → openFiles some id = 0 := by
        intro some holds
        by_contra positive
        have live := holds.held id (Nat.pos_of_ne_zero positive)
        rw [found] at live
        cases live
      rw [nothing again, nothing balanced]
  · intro same
    refine ⟨?_, balanced.linked, ?_⟩
    · intro id node found
      rw [same id]
      exact balanced.counted id node found
    · intro id
      rw [same id]
      exact balanced.held id

theorem balanced_with_child (linked : VFS.Linked fs) (balanced : Balanced fs memory) {parent : Nat}
    (there : fs.vnodes parent = some node) (name : List UInt8) (attr : VAttr) :
    Balanced (fs.withChild parent node name attr) memory := by
  have links := linked_with_child name attr linked there
  have older : parent < fs.next := linked.allocated parent node there
  have notHeld : openFiles memory fs.next = 0 := by
    by_contra positive
    rcases isSome_iff_exists.mp (balanced.held fs.next (Nat.pos_of_ne_zero positive)) with
      ⟨other, found⟩
    exact absurd (linked.allocated fs.next other found) (lt_irrefl _)
  have notRoot : fs.next ≠ fs.root := by
    rcases linked.rooted with ⟨rootNode, top, _⟩
    exact ne_of_gt (linked.allocated _ _ top)
  refine ⟨?_, ?_, ?_⟩
  · intro id other found
    have sameRoot : creationReferences (fs.withChild parent node name attr) id =
        creationReferences fs id := rfl
    rw [sameRoot]
    rcases with_child_cases name attr older found with ⟨isNew, new⟩ | ⟨isParent, grown⟩ | ⟨_, _, old⟩
    · rw [isNew, new, notHeld]
      simp [creationReferences, notRoot, newVNode]
    · have before := balanced.counted parent node there
      rw [isParent, grown]
      simp only [length_append, length_singleton]
      omega
    · exact balanced.counted id other old
  · intro id other child found member
    rcases links.children id other child found member with ⟨childNode, below, _⟩
    rw [below]
    rfl
  · intro id positive
    rcases isSome_iff_exists.mp (balanced.held id positive) with ⟨other, found⟩
    have notNew : id ≠ fs.next := ne_of_lt (linked.allocated id other found)
    rcases with_child_keeps name attr there found notNew with ⟨later, now, _⟩
    rw [now]
    rfl

/-! ### Counting up and down -/

def withCount (fs : VFS) (id : Nat) (node : VNode) (count : Int) : VFS :=
  fs.setVNode id (some { node with refCount := count })

theorem same_links_count (node : VNode) (count : Int) :
    SameLinks node { node with refCount := count } := ⟨rfl, rfl, rfl, rfl⟩

theorem linked_with_count (count : Int) (linked : VFS.Linked fs)
    (there : fs.vnodes id = some node) : VFS.Linked (withCount fs id node count) :=
  linked_replace linked there (same_links_count node count)

theorem balanced_with_count_iff {count : Int} (balanced : Balanced fs memory)
    (there : fs.vnodes id = some node)
    (others : ∀ other, other ≠ id → openFiles after other = openFiles memory other) :
    Balanced (withCount fs id node count) after ↔
      count - node.refCount = (openFiles after id : Int) - openFiles memory id := by
  have links := same_links_count node count
  have before := balanced.counted id node there
  have sameRoot : ∀ other, creationReferences (withCount fs id node count) other =
      creationReferences fs other := fun _ => rfl
  constructor
  · intro again
    have now : (withCount fs id node count).vnodes id = some { node with refCount := count } := by
      simp [withCount, setVNode]
    have later := again.counted id _ now
    rw [sameRoot] at later
    simp only at later
    omega
  · intro moved
    refine ⟨?_, ?_, ?_⟩
    · intro other found now
      rcases replace_cases there links now with ⟨old, was, _, here | elsewhere⟩
      · rw [sameRoot, here.1, here.2.2]
        simp only
        omega
      · rw [sameRoot, others other elsewhere.1, elsewhere.2]
        exact balanced.counted other old was
    · intro other found child now member
      rcases replace_cases there links now with ⟨old, was, oldLinks, _⟩
      rw [oldLinks.children] at member
      rcases isSome_iff_exists.mp (balanced.linked other old child was member) with
        ⟨childNode, below⟩
      rcases replace_live there links below with ⟨later, childNow, _⟩
      exact isSome_iff_exists.mpr ⟨later, childNow⟩
    · intro other positive
      by_cases same : other = id
      · rw [same]
        simp [withCount, setVNode]
      · rw [others other same] at positive
        simp only [withCount, setVNode, update_of_ne same]
        exact balanced.held other positive

theorem ref_cases {held : VFS} (call : fs.refVNode id = some held) :
    ∃ node, fs.vnodes id = some node ∧ held = withCount fs id node (node.refCount + 1) := by
  unfold refVNode at call
  split at call
  · cases call
  · rename_i node there
    cases call
    exact ⟨node, there, rfl⟩

theorem unref_cases (there : fs.vnodes id = some node) (counted : 1 < node.refCount)
    (call : fs.unrefVNode id = some released) :
    released = withCount fs id node (node.refCount - 1) := by
  unfold unrefVNode at call
  rw [there] at call
  have kept : node.refCount - 1 ≠ 0 := by omega
  simp only [kept, if_false] at call
  exact (Option.some.inj call).symm

theorem unref_ref {held : VFS} (balanced : Balanced fs memory) (taken : fs.refVNode id = some held)
    (dropped : held.unrefVNode id = some released) : released = fs := by
  rcases ref_cases taken with ⟨node, there, counted⟩
  have positive := balanced_count_pos balanced there
  have now : held.vnodes id = some { node with refCount := node.refCount + 1 } := by
    rw [counted]
    simp [withCount, setVNode]
  have again := unref_cases now (by simp only; omega) dropped
  rw [again, counted]
  simp only [withCount, setVNode, update_idem, Int.add_sub_cancel]
  rw [← there, update_eq_self]

end VNodes

/-! ## The calls -/

section Calls
variable {state next : Files}

section
variable (sound : Sound state)
include sound
variable {manager : FileDescriptorManager} {proc : Nat} {files : ProcessFiles} {fs : VFS}
  {memory : Memory}

theorem sound_update (linked : VFS.Linked fs) (fresh : memory.Fresh)
    (more : state.memory.nextDescriptor ≤ memory.nextDescriptor) :
    Sound { state with fs := fs, memory := memory } :=
  ⟨linked, fresh, fun proc files found id named =>
    lt_of_lt_of_le (sound.tables proc files found id named) more⟩

theorem sound_set_process {files : Option ProcessFiles}
    (named : ∀ some, files = .some some → ∀ id, Names some.manager id →
      id < state.memory.nextDescriptor) : Sound (state.setProcess proc files) := by
  refine ⟨sound.linked, sound.fresh, ?_⟩
  intro other found now id name
  simp only [setProcess, update_apply] at now
  split at now
  · exact named found now id name
  · exact sound.tables other found now id name

def NoOpenFile (memory : Memory) (manager : FileDescriptorManager) : Prop :=
  ∀ id, Names manager id → ∀ vnode, holdsOpen vnode (memory.descriptors id) = 0

omit sound in
theorem no_open_file_iff :
    NoOpenFile memory manager ↔ ∀ vnode, ∀ node ∈ manager.currentFDs.nodes,
      holdsOpen vnode (memory.descriptors node.2) = 0 := by
  constructor
  · intro none vnode node member
    exact none node.2 ⟨node.1, member⟩ vnode
  · rintro each id ⟨fd, member⟩ vnode
    exact each vnode (fd, id) member

theorem sound_set_manager (found : state.processes proc = some files) (fresh : memory.Fresh)
    (more : state.memory.nextDescriptor ≤ memory.nextDescriptor)
    (named : ∀ id, Names manager id → Names files.manager id ∨ id < memory.nextDescriptor) :
    Sound ({ state with memory := memory }.setManager proc files manager) := by
  apply sound_set_process (sound_update sound sound.linked fresh more)
  intro some same id name
  cases same
  rcases named id name with old | new
  · exact lt_of_lt_of_le (sound.tables proc files found id old) more
  · exact new

section
variable (balanced : Balanced state.fs state.memory)
include balanced

theorem quiet_kept (quiet : Quiet state.memory memory) :
    Sound { state with memory := memory } ∧ Balanced state.fs memory :=
  ⟨sound_update sound sound.linked quiet.fresh quiet.next,
    (balanced_memory_iff balanced).mpr quiet.open_files⟩

theorem keeps_kept (keeps : KeepsDescriptors state.memory memory) :
    Sound { state with memory := memory } ∧ Balanced state.fs memory :=
  quiet_kept sound balanced ((Quiet.refl sound.fresh).keeps keeps)

theorem create_kept {call : CreateCall} {result : Except Errno Unit}
    (returned : call.run state.fs = some (fs, result)) :
    Sound { state with fs := fs } ∧ Balanced fs state.memory := by
  rcases CreateCall.run_eq state.fs call with ⟨attr, body⟩
  rcases create_node_cases (body.symm.trans returned) with
    ⟨same, _⟩ | ⟨_, _, _, parent, node, _, there, grown⟩
  · rw [same]
    exact ⟨sound, balanced⟩
  · rw [grown]
    exact ⟨sound_update sound (linked_with_child call.name attr sound.linked there) sound.fresh
      (le_refl _), balanced_with_child sound.linked balanced there call.name attr⟩

omit sound balanced in
/-- A fork makes a process, a manager, an array and a copy of each descriptor. -/
theorem fork_granted {complete : Bool} (found : state.processes proc = some files)
    (call : state.fork proc = some (next, complete)) :
    complete = true ↔ Granted state.memory (files.manager.currentFDs.nodes.length + 3) := by
  unfold fork at call
  rw [found] at call
  dsimp only at call
  rw [granted_succ, granted_succ]
  split at call
  · rename_i refused
    cases call
    simp only [Bool.false_eq_true, false_iff, not_and]
    intro process manager
    rw [process, manager] at refused
    cases refused
  · rename_i granted
    rw [Bool.not_eq_false, Bool.and_eq_true] at granted
    split at call
    · cases call
    all_goals
      rename_i forking
      cases call
      rw [← fork_complete forking]
      simp [granted]

theorem exit_kept (found : state.processes proc = some files) (call : state.exit proc = some next) :
    Sound next ∧ (Balanced next.fs next.memory ↔ NoOpenFile state.memory files.manager) := by
  unfold exit at call
  rw [found] at call
  dsimp only at call
  split at call
  · cases call
  rename_i memory manager deleting
  cases call
  rcases delete_cases deleting with ⟨middle, keeps, clearing⟩
  have fresh := keeps.fresh sound.fresh
  have sameNext := (delete_all_descriptors clearing).1.trans keeps.next
  refine ⟨?_, ?_⟩
  · apply sound_set_process
    · exact sound_update sound sound.linked (delete_all_fresh clearing fresh)
        (le_of_eq sameNext.symm)
    · intro some impossible
      cases impossible
  · show Balanced state.fs memory ↔ _
    rw [balanced_memory_iff balanced, no_open_file_iff]
    apply forall_congr'
    intro vnode
    rw [← keeps.open_files vnode, ← keeps.descriptors, delete_all_open_files clearing fresh]

theorem fork_references_kept {complete : Bool} (found : state.processes proc = some files)
    (call : state.fork proc = some (next, complete)) :
    Sound next ∧ (Balanced next.fs next.memory ↔
      (Granted state.memory (files.manager.currentFDs.nodes.length + 3) →
        NoOpenFile state.memory files.manager)) := by
  rw [← fork_granted found call]
  have keeps := (draw_keeps state.memory).trans (draw_keeps state.memory.draw.1)
  unfold fork at call
  rw [found] at call
  dsimp only at call
  split at call
  · cases call
    rcases keeps_kept sound balanced keeps with ⟨nextSound, nextBalanced⟩
    exact ⟨nextSound, fun _ => nofun, fun _ => nextBalanced⟩
  have made : ∀ id, Names files.manager id → id < state.memory.draw.1.draw.1.nextDescriptor := by
    intro id named
    rw [keeps.next]
    exact sound.tables proc files found id named
  have copies {memory child parent complete} := @fork_copies state.memory.draw.1.draw.1 memory child
    state.nextProcess complete files.manager parent (keeps.fresh sound.fresh) made
  split at call
  · cases call
  · rename_i memory child parent forking
    cases call
    rcases copies forking with ⟨more, fresh, table, _, failed, _⟩
    rw [keeps.next] at more
    refine ⟨sound_set_manager sound found fresh more ?_, ?_⟩
    · intro id name
      exact .inl (names_congr table name)
    · show Balanced state.fs memory ↔ _
      rw [balanced_memory_iff balanced]
      constructor
      · exact fun _ => nofun
      · intro _ vnode
        rw [failed rfl vnode, keeps.open_files vnode]
  · rename_i memory child parent forking
    cases call
    rcases copies forking with ⟨more, fresh, table, named, _, counted⟩
    rw [keeps.next] at more
    have parentSound := sound_set_manager sound found fresh more
      fun id name => .inl (names_congr table name)
    have childSound : Sound (({ state with memory := memory }.setManager proc files
        parent).setManager state.nextProcess files child) := by
      apply sound_set_process parentSound
      intro some same
      cases same
      exact named
    refine ⟨⟨childSound.linked, childSound.fresh, childSound.tables⟩, ?_⟩
    show Balanced state.fs memory ↔ _
    rw [balanced_memory_iff balanced, no_open_file_iff, forall_prop_of_true rfl]
    apply forall_congr'
    intro vnode
    rw [counted rfl vnode, keeps.open_files vnode, keeps.descriptors, Nat.add_eq_left,
      List.sum_eq_zero_iff, List.forall_mem_map]

end

theorem give_up_kept {vnode : Nat} {code : Errno} {result : Except Errno Nat}
    (balanced : Balanced fs state.memory) (linked : VFS.Linked fs)
    (taken : fs.refVNode vnode = some state.fs)
    (call : state.giveUp vnode code = some (next, result)) :
    Sound next ∧ Balanced next.fs next.memory ∧ ∀ fd, result ≠ .ok fd := by
  unfold giveUp at call
  split at call
  · cases call
  · rename_i released dropped
    cases call
    have same := unref_ref balanced taken dropped
    rw [same]
    exact ⟨sound_update sound linked sound.fresh (le_refl _), balanced, nofun⟩

end

variable {append create directory : Bool} {result : Except Errno Nat} {ids : List Nat}
  {path : List UInt8} {after before memory : Memory} {proc vnode : Nat} {files : ProcessFiles}
  {fs held : VFS}

theorem opened_type {desc opened : FileDescriptor} (call : desc.opened append = .ok opened) :
    opened.type = desc.type := by
  unfold FileDescriptor.opened at call
  split at call <;> (try split at call) <;> cases call <;> rfl

section
variable {proc vnode : Nat} {type : FDType} {append : Bool} {opened : FileDescriptor}
  (call : (FileDescriptor.create proc type (some vnode)).opened append = .ok opened)
include call

theorem opened_fields : opened.isOpen = true ∧ opened.type = type ∧ opened.vnode = some vnode := by
  cases type with
  | File =>
    cases call
    exact ⟨rfl, rfl, rfl⟩
  | TTY =>
    cases append with
    | false =>
      cases call
      exact ⟨rfl, rfl, rfl⟩
    | true => cases call
  | Directory =>
    cases call
    exact ⟨rfl, rfl, rfl⟩
  | Invalid => cases call

theorem holds_open_opened (other : Nat) :
    holdsOpen other (some opened) = if type = .File ∧ other = vnode then 1 else 0 := by
  rcases opened_fields call with ⟨isOpen, sameType, sameVNode⟩
  have swap : vnode = other ↔ other = vnode := eq_comm
  simp only [holdsOpen, isOpen, sameType, sameVNode, some.injEq, true_and, swap]

end

theorem referenced_iff {type : FDType} (balanced : Balanced fs memory)
    (taken : fs.refVNode vnode = some held) (counted : ∀ other, openFiles after other =
      openFiles memory other + if type = .File ∧ other = vnode then 1 else 0) :
    Balanced held after ↔ type = .File := by
  rcases ref_cases taken with ⟨node, there, same⟩
  have others : ∀ other, other ≠ vnode → openFiles after other = openFiles memory other := by
    intro other different
    rw [counted other, if_neg fun both => different both.2, add_zero]
  rw [same, balanced_with_count_iff balanced there others, counted vnode]
  by_cases file : type = .File
  · simp [file]
  · simp [file]

theorem install_kept (sound : Sound state) (balanced : Balanced fs state.memory)
    (linked : VFS.Linked fs) (found : state.processes proc = some files)
    (taken : fs.refVNode vnode = some state.fs)
    (call : state.install proc files vnode directory append = some (next, result)) :
    Sound next ∧ (Balanced next.fs next.memory ↔ ∀ fd node, result = .ok fd →
      state.fs.vnodes vnode = some node → node.attr.type ≠ .DIR) := by
  -- Where the call fails, the reference is dropped and nothing is left of the descriptor.
  have failing : ∀ {other : Files} {code : Errno}, Sound other → Quiet state.memory other.memory →
      other.fs = state.fs → other.giveUp vnode code = some (next, result) →
      Sound next ∧ (Balanced next.fs next.memory ↔ ∀ fd node, result = .ok fd →
        state.fs.vnodes vnode = some node → node.attr.type ≠ .DIR) := by
    intro other code otherSound quiet sameVNodes dropped
    have otherBalanced := (balanced_memory_iff balanced).mpr quiet.open_files
    rcases give_up_kept otherSound otherBalanced linked (sameVNodes ▸ taken) dropped with
      ⟨nextSound, nextBalanced, failed⟩
    exact ⟨nextSound, fun _ fd _ same => absurd same (failed fd), fun _ => nextBalanced⟩
  have silent := Quiet.refl sound.fresh
  unfold install at call
  split at call
  · cases call
  rename_i node there
  split at call
  · exact failing sound silent rfl call
  rename_i known
  split at call
  · exact failing sound silent rfl call
  dsimp only at call
  split at call
  · rename_i failed refused
    have quiet := silent.keeps (new_descriptor_refused refused)
    exact failing (sound_update sound sound.linked quiet.fresh quiet.next) quiet rfl call
  · rename_i granted id granting
    have closed : ∀ other, holdsOpen other (some (FileDescriptor.create proc
        (if node.attr.type = .REG then .File else .Directory) (some vnode))) = 0 :=
      fun _ => rfl
    rcases silent.new_descriptor closed granting with ⟨quiet, new, made⟩
    have deleted := quiet.set new made (fun _ => rfl : ∀ other, holdsOpen other none = 0)
    split at call
    · exact failing (sound_update sound sound.linked deleted.fresh deleted.next) deleted rfl call
    rename_i opened opening
    split at call
    · cases call
    · rename_i stored manager fd allocating
      rcases allocate_names allocating with ⟨keeps, named⟩
      cases call
      have fresh := keeps.fresh (set_descriptor_fresh quiet.fresh made)
      have more : state.memory.nextDescriptor ≤ stored.nextDescriptor := by
        rw [keeps.next]
        exact quiet.next
      refine ⟨sound_set_manager sound found fresh more ?_, ?_⟩
      · intro other name
        exact (named other name).imp_right fun same : other = id => by
          rw [same, keeps.next]
          exact made
      · show Balanced state.fs stored ↔ _
        have counted : ∀ other, openFiles stored other = openFiles state.memory other +
            if (if node.attr.type = .REG then FDType.File else .Directory) = .File ∧
              other = vnode then 1 else 0 := by
          intro other
          have swapped := set_descriptor_open_files (some opened) made other
          rw [quiet.new id new other, quiet.open_files other,
            holds_open_opened opening other] at swapped
          rw [keeps.open_files other]
          exact swapped
        rw [referenced_iff balanced taken counted]
        constructor
        · intro file _ other _ again directory
          rw [there] at again
          cases again
          simp [directory] at file
        · intro noDirectory
          have regular : node.attr.type = .REG := by
            by_contra other
            exact known ⟨other, noDirectory fd node rfl there⟩
          rw [if_pos regular]
    · rename_i stored manager code allocating
      rcases allocate_names allocating with ⟨keeps, named⟩
      have same : KeepsDescriptors (granted.setDescriptor id none)
          (stored.setDescriptor id none) := by
        refine ⟨?_, keeps.next⟩
        simp only [Memory.setDescriptor, keeps.descriptors, update_idem]
      have undone := deleted.keeps same
      refine failing (sound_set_manager sound found undone.fresh undone.next ?_) undone rfl call
      intro other name
      exact (named other name).imp_right fun isNew : other = id => by
        rw [isNew]
        exact Nat.lt_of_lt_of_eq made keeps.next.symm

theorem resolve_cases (call : resolve fs files path create = some (held, result)) :
    ∃ grown, (grown = fs ∨ ∃ parent name attr, fs.createNode parent name files.cwd attr =
        some (grown, .ok ())) ∧
      ((∃ code, result = .error code) ∧ held = grown ∨
        ∃ vnode, result = .ok vnode ∧ grown.refVNode vnode = some held) := by
  have opening : ∀ {grown held : VFS} {text : List UInt8} {result : Except Errno Nat},
      grown.openPath text files.cwd = some (held, result) →
      (∃ code, result = .error code) ∧ held = grown ∨
        ∃ vnode, result = .ok vnode ∧ grown.refVNode vnode = some held := by
    intro grown held text result opened
    unfold openPath at opened
    split at opened
    · cases opened
    · cases opened
      exact .inl ⟨⟨_, rfl⟩, rfl⟩
    · split at opened
      · cases opened
      · rename_i taken
        cases opened
        exact .inr ⟨_, rfl, taken⟩
  unfold resolve at call
  dsimp only at call
  split at call
  · cases call
  · rename_i first vnode opened
    cases call
    exact ⟨fs, .inl rfl, opening opened⟩
  rename_i same code opened
  have unchanged : same = fs := by
    rcases opening opened with ⟨_, same⟩ | ⟨vnode, impossible, _⟩
    · exact same
    · cases impossible
  rw [unchanged] at call
  split at call
  · split at call
    · cases call
      exact ⟨fs, .inl rfl, .inl ⟨⟨_, rfl⟩, rfl⟩⟩
    split at call
    · cases call
    · rename_i failed code creating
      rcases create_node_cases creating with ⟨same, _⟩ | ⟨impossible, _⟩
      · cases call
        exact ⟨fs, .inl rfl, .inl ⟨⟨_, rfl⟩, same⟩⟩
      · cases impossible
    · rename_i created creating
      exact ⟨created, .inr ⟨_, _, _, creating⟩, opening call⟩
  · cases call
    exact ⟨fs, .inl rfl, .inl ⟨⟨_, rfl⟩, rfl⟩⟩

theorem resolve_kept (linked : VFS.Linked fs) (balanced : Balanced fs memory)
    (call : resolve fs files path create = some (held, result)) :
    ∃ grown, VFS.Linked grown ∧ Balanced grown memory ∧
      ((∃ code, result = .error code) ∧ held = grown ∨
        ∃ vnode, result = .ok vnode ∧ grown.refVNode vnode = some held) := by
  rcases resolve_cases call with ⟨grown, same | ⟨parent, name, attr, creating⟩, outcome⟩
  · rw [same] at outcome
    exact ⟨fs, linked, balanced, outcome⟩
  · rcases create_node_cases creating with ⟨_, failed⟩ | ⟨_, _, _, above, node, _, there, added⟩
    · exact absurd rfl failed
    · rw [added] at outcome
      exact ⟨_, linked_with_child name attr linked there,
        balanced_with_child linked balanced there name attr, outcome⟩

/-- The path leads to a directory. -/
def LeadsToDirectory (fs : VFS) (files : ProcessFiles) (path : List UInt8) : Prop :=
  ∃ vnode node, fs.lookupPath (cString (path ++ [0])) files.cwd = some (.ok vnode) ∧
    fs.vnodes vnode = some node ∧ node.attr.type = .DIR

/-- The directories that are resolved are those that the path leads to: what `O_CREAT` makes is a
file. -/
theorem resolve_directory_iff (linked : VFS.Linked fs)
    (call : resolve fs files path create = some (held, result)) :
    (∃ vnode node, result = .ok vnode ∧ held.vnodes vnode = some node ∧ node.attr.type = .DIR) ↔
      LeadsToDirectory fs files path := by
  -- A reference more does not change what a vnode is.
  have typed : ∀ {grown held : VFS} {vnode : Nat}, grown.refVNode vnode = some held →
      ((∃ node, held.vnodes vnode = some node ∧ node.attr.type = .DIR) ↔
        ∃ node, grown.vnodes vnode = some node ∧ node.attr.type = .DIR) := by
    intro grown held vnode taken
    rcases ref_cases taken with ⟨node, there, counted⟩
    rw [counted]
    simp [withCount, setVNode, there]
  unfold resolve at call
  dsimp only at call
  unfold LeadsToDirectory
  cases looked : fs.lookupPath (cString (path ++ [0])) files.cwd with
  | none =>
    simp only [openPath, looked] at call
    cases call
  | some outcome =>
    cases outcome with
    | ok vnode =>
      cases taken : fs.refVNode vnode with
      | none =>
        simp only [openPath, looked, taken] at call
        cases call
      | some held =>
        simp only [openPath, looked, taken] at call
        cases call
        simpa using typed taken
    | error code =>
      have nowhere : ¬ ∃ vnode node, some (Except.error code : Except Errno Nat) =
          some (.ok vnode) ∧ fs.vnodes vnode = some node ∧ node.attr.type = .DIR := by
        rintro ⟨_, _, impossible, _⟩
        cases impossible
      refine iff_of_false ?_ nowhere
      rintro ⟨vnode, node, done, there, directory⟩
      rw [done] at call
      simp only [openPath, looked] at call
      split at call
      swap
      · cases call
      split at call
      · cases call
      split at call
      · cases call
      · cases call
      rename_i grown creating
      rcases create_node_cases creating with ⟨_, failed⟩ | ⟨_, _, _, parent, above, _, below, added⟩
      · exact absurd rfl failed
      split at call
      · cases call
      · cases call
      rename_i again
      split at call
      · cases call
      rename_i taken
      cases call
      rcases (typed taken).mp ⟨node, there, directory⟩ with ⟨old, found, oldDirectory⟩
      rw [added] at again found
      have isNew : vnode = fs.next := by
        refine lookup_path_with_child _ _ linked below ?_ looked again
        intro impossible
        cases impossible
      rw [isNew, with_child_new _ _ (ne_of_gt (linked.allocated _ _ below))] at found
      cases found
      cases oldDirectory

/-- The path can be copied, a descriptor made and a number found for it. -/
def CanOpen (memory : Memory) (manager : FileDescriptorManager) : Prop :=
  Granted memory 2 ∧
    (HasClear memory manager ∨ manager.bitmap.size * 8 ≠ MAX_FD ∧ Granted memory 3)

theorem has_clear_congr {manager : FileDescriptorManager} (same : after.arrays = memory.arrays) :
    HasClear after manager ↔ HasClear memory manager := by
  simp only [HasClear, RawBitmap.get, same]

theorem draw_arrays (memory : Memory) : memory.draw.1.arrays = memory.arrays := by
  unfold Memory.draw
  split <;> rfl

theorem new_descriptor_arrays {desc : FileDescriptor} {id : Option Nat}
    (made : memory.newDescriptor desc = (after, id)) : after.arrays = memory.arrays := by
  have same := draw_arrays memory
  unfold Memory.newDescriptor at made
  split at made
  · rename_i drawn refused
    cases made
    rwa [refused] at same
  · rename_i drawn granted
    cases made
    rwa [granted] at same

theorem install_directory_iff {node : VNode} (there : state.fs.vnodes vnode = some node)
    (isDirectory : node.attr.type = .DIR)
    (call : state.install proc files vnode directory append = some (next, result)) :
    (∃ fd, result = .ok fd) ↔ Granted state.memory 1 ∧ (HasClear state.memory files.manager ∨
      files.manager.bitmap.size * 8 ≠ MAX_FD ∧ Granted state.memory 2) := by
  have dropped : ∀ {other : Files} {code : Errno},
      other.giveUp vnode code = some (next, result) → ¬ ∃ fd, result = .ok fd := by
    rintro other code given ⟨fd, done⟩
    unfold giveUp at given
    split at given
    · cases given
    · rw [done] at given
      cases given
  have notRegular : node.attr.type ≠ .REG := by
    rw [isDirectory]
    exact nofun
  unfold install at call
  simp only [there, isDirectory, ne_eq, not_true_eq_false, and_false, false_and, if_false,
    reduceCtorEq] at call
  split at call
  · rename_i failed refused
    rw [granted_new_descriptor refused]
    simpa using dropped call
  rename_i granted id granting
  have arrays := new_descriptor_arrays granting
  split at call
  · rename_i opening
    cases opening
  rw [granted_new_descriptor granting, granted_new_descriptor granting, ← has_clear_congr arrays]
  split at call
  · cases call
  · rename_i stored manager fd allocating
    have exactly := allocate_ok_iff allocating
    cases call
    simpa [Granted, HasClear, Memory.setDescriptor, RawBitmap.get] using exactly
  · rename_i stored manager code allocating
    have exactly := allocate_ok_iff allocating
    have failed := dropped call
    simpa [failed, Granted, HasClear, Memory.setDescriptor, RawBitmap.get] using exactly

theorem open_kept (sound : Sound state) (balanced : Balanced state.fs state.memory)
    (found : state.processes proc = some files)
    (call : state.sysOpen proc path create directory append = some (next, result)) :
    Sound next ∧ (Balanced next.fs next.memory ↔
      (LeadsToDirectory state.fs files path → ¬ CanOpen state.memory files.manager)) := by
  have keeps := draw_keeps state.memory
  have arrays := draw_arrays state.memory
  have draws := granted_succ state.memory
  unfold sysOpen at call
  rw [found] at call
  dsimp only at call
  split at call
  · rename_i failed refused
    cases call
    rw [refused] at keeps draws
    rcases keeps_kept sound balanced keeps with ⟨nextSound, nextBalanced⟩
    refine ⟨nextSound, iff_of_true nextBalanced ?_⟩
    intro _ opens
    cases ((draws 1).mp opens.1).1
  · rename_i drawn granted
    rw [granted] at keeps arrays draws
    rcases keeps_kept sound balanced keeps with ⟨drawnSound, drawnBalanced⟩
    split at call
    · cases call
    · rename_i fs code resolving
      have nowhere := resolve_directory_iff sound.linked resolving
      rcases resolve_kept sound.linked drawnBalanced resolving with
        ⟨grown, linked, grownBalanced, ⟨_, same⟩ | ⟨vnode, impossible, _⟩⟩
      · cases call
        rw [same]
        refine ⟨sound_update drawnSound linked drawnSound.fresh (le_refl _),
          iff_of_true grownBalanced ?_⟩
        intro leads
        rcases nowhere.mpr leads with ⟨_, _, impossible, _⟩
        cases impossible
      · cases impossible
    · rename_i fs vnode resolving
      have leads := resolve_directory_iff sound.linked resolving
      rcases resolve_kept sound.linked drawnBalanced resolving with
        ⟨grown, linked, grownBalanced, ⟨⟨_, impossible⟩, _⟩ | ⟨_, same, taken⟩⟩
      · cases impossible
      cases same
      have heldLinked : VFS.Linked fs := by
        rcases ref_cases taken with ⟨node, there, counted⟩
        rw [counted]
        exact linked_with_count _ linked there
      have heldSound := sound_update drawnSound heldLinked drawnSound.fresh (le_refl _)
      rcases install_kept heldSound grownBalanced linked found taken call with ⟨nextSound, exactly⟩
      refine ⟨nextSound, exactly.trans ?_⟩
      have opens : ∀ node, fs.vnodes vnode = some node → node.attr.type = .DIR →
          ((∃ fd, result = .ok fd) ↔ CanOpen state.memory files.manager) := by
        intro node there isDirectory
        rw [install_directory_iff there isDirectory call, CanOpen, draws 1, draws 2,
          ← has_clear_congr arrays]
        simp
      constructor
      · intro noDirectory reached can
        rcases leads.mpr reached with ⟨_, node, same, there, isDirectory⟩
        cases same
        rcases (opens node there isDirectory).mpr can with ⟨fd, done⟩
        exact noDirectory fd node done there isDirectory
      · intro closed fd node done there isDirectory
        exact closed (leads.mp ⟨vnode, node, rfl, there, isDirectory⟩)
          ((opens node there isDirectory).mp ⟨fd, done⟩)

theorem close_descriptor_kept (sound : Sound state) (balanced : Balanced state.fs state.memory)
    {id : Nat} {result : Except Errno Unit} (made : id < state.memory.nextDescriptor)
    (call : state.closeDescriptor id = some (next, result)) :
    Sound next ∧ Balanced next.fs next.memory := by
  unfold closeDescriptor at call
  split at call
  · cases call
  rename_i desc live
  split at call
  · cases call
    exact ⟨sound, balanced⟩
  rename_i isOpen
  have opened : desc.isOpen = true := by simpa using isOpen
  have shut : ∀ other, openFiles (state.memory.setDescriptor id (some desc.closed)) other +
      holdsOpen other (some desc) = openFiles state.memory other := by
    intro other
    have swapped := set_descriptor_open_files (some desc.closed) made other
    rw [live] at swapped
    exact swapped
  have shutFresh : (state.memory.setDescriptor id (some desc.closed)).Fresh :=
    set_descriptor_fresh sound.fresh made
  have shutSound : Sound { state with
      memory := state.memory.setDescriptor id (some desc.closed) } :=
    sound_update sound sound.linked shutFresh (le_refl _)
  have unheld : (∀ other, holdsOpen other (some desc) = 0) →
      Balanced state.fs (state.memory.setDescriptor id (some desc.closed)) := by
    intro none
    apply (balanced_memory_iff balanced).mpr
    intro other
    have same := shut other
    rw [none other] at same
    exact same
  dsimp only at call
  split at call
  · rename_i otherType
    cases call
    exact ⟨shutSound, unheld fun other => by simp [holdsOpen, otherType]⟩
  rename_i isFile
  have file : desc.type = .File := not_not.mp isFile
  split at call
  · rename_i noVNode
    cases call
    exact ⟨shutSound, unheld fun other => by simp [holdsOpen, noVNode]⟩
  rename_i vnode holds
  split at call
  · cases call
  rename_i released dropped
  cases call
  have weight : ∀ other, holdsOpen other (some desc) =
      if vnode = other then 1 else 0 := by
    intro other
    simp [holdsOpen, opened, file, holds]
  have one : openFiles (state.memory.setDescriptor id (some desc.closed)) vnode + 1 =
      openFiles state.memory vnode := by
    have same := shut vnode
    rwa [weight vnode, if_pos rfl] at same
  rcases isSome_iff_exists.mp (balanced.held vnode (by omega)) with ⟨node, there⟩
  have positive := balanced_count_pos balanced there
  have counted := unref_cases there (by omega) dropped
  have gone : ∀ other, openFiles ((state.memory.setDescriptor id
      (some desc.closed)).setDescriptor id none) other =
      openFiles (state.memory.setDescriptor id (some desc.closed)) other := by
    intro other
    have stillMade : id < (state.memory.setDescriptor id (some desc.closed)).nextDescriptor := made
    have swapped := set_descriptor_open_files none stillMade other
    have closed : holdsOpen other ((state.memory.setDescriptor id
        (some desc.closed)).descriptors id) = 0 := by
      simp [Memory.setDescriptor, holdsOpen, FileDescriptor.closed]
    rw [closed] at swapped
    exact swapped
  refine ⟨?_, ?_⟩
  · rw [counted]
    exact sound_update shutSound (linked_with_count _ sound.linked there)
      (set_descriptor_fresh shutFresh made) (le_refl _)
  · show Balanced released _
    rw [counted]
    refine (balanced_with_count_iff balanced there ?_).mpr ?_
    · intro other different
      have same := shut other
      rw [weight other, if_neg (Ne.symm different)] at same
      rw [gone other]
      exact same
    · rw [gone vnode]
      omega

theorem close_kept (sound : Sound state) (balanced : Balanced state.fs state.memory) {fd : Nat}
    {result : Except Errno Unit} (call : state.sysClose proc fd = some (next, result)) :
    Sound next ∧ Balanced next.fs next.memory := by
  unfold sysClose at call
  split at call
  · cases call
  rename_i files found
  have freed : ∀ {memory : Memory} {manager : FileDescriptorManager} {id : Option Nat},
      files.manager.free state.memory fd = some (memory, manager, id) →
      Sound ({ state with memory := memory }.setManager proc files manager) ∧
        Balanced state.fs memory ∧ ∀ other, id = some other → other < memory.nextDescriptor := by
    intro memory manager id freeing
    rcases free_names freeing with ⟨keeps, fewer, named⟩
    refine ⟨sound_set_manager sound found (keeps.fresh sound.fresh) (le_of_eq keeps.next.symm)
      fun other name => .inl (fewer other name), (keeps_kept sound balanced keeps).2, ?_⟩
    intro other same
    rw [keeps.next]
    exact sound.tables proc files found other (named other same)
  split at call
  · cases call
  · rename_i memory manager freeing
    cases call
    exact ⟨(freed freeing).1, (freed freeing).2.1⟩
  · rename_i memory manager id freeing
    rcases freed freeing with ⟨freedSound, freedBalanced, made⟩
    exact close_descriptor_kept freedSound freedBalanced (made id rfl) call

/-! ### Creating a process -/

/-- A memory in which the creation of a process has made streams only. -/
structure Streams (before after : Memory) : Prop extends Quiet before after where
  streams : ∀ id desc, before.nextDescriptor ≤ id → after.descriptors id = some desc →
    desc.type ≠ .File

theorem Streams.keeps {middle : Memory} (made : Streams before middle)
    (keeps : KeepsDescriptors middle after) : Streams before after := by
  refine ⟨made.toQuiet.keeps keeps, ?_⟩
  rw [keeps.descriptors]
  exact made.streams

theorem new_streams_made {count : Nat} {ids : List (Option Nat)} (streams : Streams before memory)
    (call : newStreams proc count memory = (after, ids)) :
    Streams before after ∧ memory.nextDescriptor ≤ after.nextDescriptor ∧
      ∀ id, some id ∈ ids → before.nextDescriptor ≤ id ∧ id < after.nextDescriptor := by
  induction count generalizing memory ids with
  | zero =>
    cases call
    exact ⟨streams, le_refl _, nofun⟩
  | succ count ih =>
    cases making : memory.newDescriptor (.create proc .TTY none) with
    | mk granted first =>
      cases rest : newStreams proc count granted with
      | mk final others =>
        simp only [newStreams, making, rest] at call
        cases call
        cases first with
        | none =>
          have keeps := new_descriptor_refused making
          rcases ih (streams.keeps keeps) rest with ⟨made, more, range⟩
          rw [keeps.next] at more
          refine ⟨made, more, ?_⟩
          intro id member
          exact range id (by simpa using member)
        | some id =>
          rcases streams.toQuiet.new_descriptor (fun _ => rfl) making with ⟨quiet, new, made⟩
          rcases new_descriptor_made making with ⟨isNext, descriptors, next⟩
          cases isNext
          have granted : Streams before granted := by
            refine ⟨quiet, ?_⟩
            intro other desc beyond found
            rw [descriptors, update_apply] at found
            split at found
            · cases found
              exact nofun
            · exact streams.streams other desc beyond found
          rcases ih granted rest with ⟨later, more, range⟩
          refine ⟨later, by omega, ?_⟩
          intro other member
          rcases mem_cons.mp member with first | behind
          · cases first
            exact ⟨new, lt_of_lt_of_le made more⟩
          · exact range other behind

theorem delete_streams_quiet (quiet : Quiet before memory)
    (range : ∀ id ∈ ids, before.nextDescriptor ≤ id ∧ id < memory.nextDescriptor) :
    Quiet before (deleteStreams memory ids) := by
  unfold deleteStreams
  induction ids generalizing memory with
  | nil => exact quiet
  | cons id rest ih =>
    rcases range id (by simp) with ⟨new, made⟩
    exact ih (quiet.set new made fun _ => rfl) fun other member => range other (by simp [member])

theorem reserve_streams_names {manager final : FileDescriptorManager} {pairs : List (Nat × Nat)}
    {result : Bool} (call : reserveStreams manager memory pairs = some (after, final, result)) :
    KeepsDescriptors memory after ∧
      ∀ id, Names final id → Names manager id ∨ ∃ pair ∈ pairs, pair.2 = id := by
  induction pairs generalizing memory manager with
  | nil =>
    cases call
    exact ⟨.refl _, fun _ named => .inl named⟩
  | cons pair rest ih =>
    rw [reserveStreams] at call
    split at call
    · cases call
    · rename_i reserving
      rcases reserve_names reserving with ⟨keeps, named⟩
      cases call
      refine ⟨keeps, ?_⟩
      intro id name
      rcases named id name with old | same
      · exact .inl old
      · exact .inr ⟨pair, by simp, same.symm⟩
    · rename_i reserving
      rcases reserve_names reserving with ⟨keeps, named⟩
      rcases ih call with ⟨further, later⟩
      refine ⟨keeps.trans further, ?_⟩
      intro id name
      rcases later id name with stored | ⟨other, member, same⟩
      · rcases named id stored with old | same
        · exact .inl old
        · exact .inr ⟨pair, by simp, same.symm⟩
      · exact .inr ⟨other, by simp [member], same⟩

theorem open_streams_made {result : Bool} (streams : Streams before memory)
    (range : ∀ id ∈ ids, before.nextDescriptor ≤ id ∧ id < memory.nextDescriptor)
    (call : openStreams memory ids = some (after, result)) :
    Streams before after ∧ after.nextDescriptor = memory.nextDescriptor := by
  induction ids generalizing memory with
  | nil =>
    cases call
    exact ⟨streams, rfl⟩
  | cons id rest ih =>
    rcases range id (by simp) with ⟨new, made⟩
    rw [openStreams] at call
    split at call
    · cases call
    rename_i desc found
    have noFile := streams.streams id desc new found
    split at call
    · cases call
      exact ⟨streams, rfl⟩
    rename_i stream opening
    have sameType : stream.type = desc.type := opened_type opening
    have opened : Streams before (memory.setDescriptor id (some stream)) := by
      refine ⟨streams.toQuiet.set new made ?_, ?_⟩
      · intro vnode
        simp [holdsOpen, sameType, noFile]
      · intro other otherDesc beyond there
        simp only [Memory.setDescriptor, update_apply] at there
        split at there
        · cases there
          rw [sameType]
          exact noFile
        · exact streams.streams other otherDesc beyond there
    have rest := ih opened (fun other member => range other (by simp [member])) call
    exact rest

theorem create_process_kept (sound : Sound state) (balanced : Balanced state.fs state.memory)
    {cred : Credential} (call : state.createProcess cred = some next) :
    Sound next ∧ Balanced next.fs next.memory := by
  -- On every path the memory has at most some streams more.
  have quietly {memory} := @quiet_kept state sound memory balanced
  have abandoned : ∀ {memory : Memory} {manager : FileDescriptorManager},
      Quiet state.memory memory → (∀ id, Names manager id → state.memory.nextDescriptor ≤ id) →
      state.abandon manager memory = some next → Sound next ∧ Balanced next.fs next.memory := by
    intro memory manager quiet new abandoning
    unfold abandon at abandoning
    split at abandoning
    · cases abandoning
    rename_i cleared _ deleting
    cases abandoning
    rcases delete_cases deleting with ⟨middle, keeps, clearing⟩
    exact quietly ((quiet.keeps keeps).delete_all clearing
      fun node member => new node.2 ⟨node.1, member⟩)
  have nothing : Streams state.memory state.memory := by
    refine ⟨Quiet.refl sound.fresh, ?_⟩
    intro id desc beyond found
    rw [sound.fresh id beyond] at found
    cases found
  have drawing := draw_keeps state.memory
  unfold createProcess at call
  split at call
  · rename_i failed refused
    rw [refused] at drawing
    cases call
    exact quietly (nothing.keeps drawing).toQuiet
  · rename_i drawn granted
    rw [granted] at drawing
    split at call
    · cases call
    · rename_i failed _ refusing
      cases call
      exact quietly ((nothing.keeps drawing).keeps (init_names refusing).1).toQuiet
    rename_i ready manager initialising
    rcases init_names initialising with ⟨keeps, table⟩
    have started := (nothing.keeps drawing).keeps keeps
    cases making : newStreams state.nextProcess 4 ready with
    | mk granted ids =>
      rcases new_streams_made started making with ⟨made, _, range⟩
      have listed : ∀ stream ∈ ids.filterMap id, state.memory.nextDescriptor ≤ stream ∧
          stream < granted.nextDescriptor := by
        intro stream member
        rcases mem_filterMap.mp member with ⟨some, inside, same⟩
        exact range stream (same ▸ inside)
      have reserved : ∀ {marked : Memory} {stored : FileDescriptorManager} {result : Bool},
          reserveStreams manager granted ((List.range 4).zip (ids.filterMap id)) =
            some (marked, stored, result) →
          Streams state.memory marked ∧ marked.nextDescriptor = granted.nextDescriptor ∧
            ∀ stream, Names stored stream → state.memory.nextDescriptor ≤ stream ∧
              stream < granted.nextDescriptor := by
        intro marked stored result reserving
        rcases reserve_streams_names reserving with ⟨kept, named⟩
        refine ⟨made.keeps kept, kept.next, ?_⟩
        intro stream name
        rcases named stream name with ⟨fd, old⟩ | ⟨pair, member, same⟩
        · rw [table] at old
          cases old
        · rw [← same]
          exact listed pair.2 (of_mem_zip member).2
      simp only [making] at call
      split at call
      · cases call
        exact quietly (delete_streams_quiet made.toQuiet listed)
      split at call
      · cases call
      · rename_i marked stored reserving
        rcases reserved reserving with ⟨marking, _, names⟩
        exact abandoned marking.toQuiet (fun stream name => (names stream name).1) call
      rename_i marked stored reserving
      rcases reserved reserving with ⟨marking, markedNext, names⟩
      have markedListed : ∀ stream ∈ ids.filterMap id,
          state.memory.nextDescriptor ≤ stream ∧ stream < marked.nextDescriptor := by
        rw [markedNext]
        exact listed
      split at call
      · cases call
      · rename_i failed opening
        exact abandoned (open_streams_made marking markedListed opening).1.toQuiet
          (fun stream name => (names stream name).1) call
      rename_i opened opening
      rcases open_streams_made marking markedListed opening with ⟨done, openedNext⟩
      split at call
      · cases call
      rename_i looked _
      cases call
      rcases quietly done.toQuiet with ⟨quietSound, quietBalanced⟩
      refine ⟨?_, quietBalanced⟩
      have added : Sound ({ state with memory := opened }.setProcess state.nextProcess
          (some ⟨stored, looked.toOption, cred⟩)) := by
        apply sound_set_process quietSound
        intro some same stream name
        cases same
        rw [openedNext, markedNext]
        exact (names stream name).2
      exact ⟨added.linked, added.fresh, added.tables⟩

end Calls

/-! ## Runs -/

namespace FileCall

def Steps (state : Files) (call : FileCall) (next : Files) : Prop := call.run state = some next

/-- No directory is opened, and a process that is forked or that exits has no open file; where an
allocation of the call fails or the table is full, nothing is opened or copied. -/
def Respects (state : Files) : FileCall → Prop
  | sysOpen proc path _ _ _ => ∀ files, state.processes proc = some files →
      LeadsToDirectory state.fs files path → ¬ CanOpen state.memory files.manager
  | fork proc => ∀ files, state.processes proc = some files →
      Granted state.memory (files.manager.currentFDs.nodes.length + 3) →
      NoOpenFile state.memory files.manager
  | exit proc => ∀ files, state.processes proc = some files →
      NoOpenFile state.memory files.manager
  | _ => True

theorem step_balanced {state next : Files} {call : FileCall} (sound : Sound state)
    (balanced : Balanced state.fs state.memory) (step : call.Steps state next) :
    Sound next ∧ (Balanced next.fs next.memory ↔ call.Respects state) := by
  have always : Sound next ∧ Balanced next.fs next.memory →
      Sound next ∧ (Balanced next.fs next.memory ↔ True) :=
    fun both => ⟨both.1, iff_true_intro both.2⟩
  cases call with
  | createProcess cred => exact always (create_process_kept sound balanced step)
  | create call =>
    rcases map_eq_some_iff.mp step with ⟨⟨fs, result⟩, returned, same⟩
    cases same
    exact always (create_kept sound balanced returned)
  | sysOpen proc path creates directory append =>
    rcases map_eq_some_iff.mp step with ⟨⟨after, result⟩, returned, same⟩
    cases same
    cases found : state.processes proc with
    | none =>
      rw [Files.sysOpen, found] at returned
      cases returned
    | some files =>
      rcases open_kept sound balanced found returned with ⟨nextSound, exactly⟩
      refine ⟨nextSound, exactly.trans ?_⟩
      simp [Respects, found]
  | sysClose proc fd =>
    rcases map_eq_some_iff.mp step with ⟨⟨after, result⟩, returned, same⟩
    cases same
    exact always (close_kept sound balanced returned)
  | fork proc =>
    rcases map_eq_some_iff.mp step with ⟨⟨after, complete⟩, returned, same⟩
    cases same
    cases found : state.processes proc with
    | none =>
      rw [Files.fork, found] at returned
      cases returned
    | some files =>
      rcases fork_references_kept sound balanced found returned with ⟨nextSound, exactly⟩
      refine ⟨nextSound, exactly.trans ?_⟩
      simp [Respects, found]
  | exit proc =>
    cases found : state.processes proc with
    | none =>
      rw [Steps, run, Files.exit, found] at step
      cases step
    | some files =>
      rcases exit_kept sound balanced found step with ⟨nextSound, exactly⟩
      refine ⟨nextSound, exactly.trans ?_⟩
      simp [Respects, found]

end FileCall

theorem initial_sound (cred : Credential) (outcomes : List Bool) : Sound (initial cred outcomes) :=
  ⟨mounted_linked cred, fun _ _ => rfl, nofun⟩

theorem initial_balanced (cred : Credential) (outcomes : List Bool) :
    Balanced (initial cred outcomes).fs (initial cred outcomes).memory := by
  refine ⟨?_, ?_, ?_⟩
  · intro id node found
    simp only [initial, mounted, update_apply] at found
    split at found
    · rename_i isRoot
      cases found
      simp [creationReferences, openFiles, initial, mounted, isRoot]
    · cases found
  · intro id node child found member
    rw [(mounted_vnode found).2.2.1] at member
    cases member
  · intro id positive
    exact absurd positive (lt_irrefl 0)

/-- The file `a` is opened, inherited by a fork and closed twice, and once more. -/
def forkedFileCalls : List FileCall :=
  [.createProcess ⟨0, 0⟩, .sysOpen 0 [97] true false false, .fork 0, .sysClose 0 4, .sysClose 1 4,
    .sysOpen 0 [97] false false false, .fork 0, .sysClose 0 4, .sysClose 2 4]

end FrostyKernel.FileSystem
