import FrostyKernel.FileSystem.FDManager

/-!
# Open files

How many open File descriptors hold a vnode, and what the calls of the
descriptor managers do to this number. Deleting a table loses the open files
in it, and a fork that succeeds adds one for each.
-/

namespace FrostyKernel.FileSystem

open Function FileDescriptorManager Finset Memory OrderedMap

def holdsOpen (vnode : Nat) : Option FileDescriptor → Nat
  | none => 0
  | some desc => if desc.isOpen ∧ desc.type = .File ∧ desc.vnode = some vnode then 1 else 0

def openFiles (memory : Memory) (vnode : Nat) : Nat :=
  ∑ id ∈ Finset.range memory.nextDescriptor, holdsOpen vnode (memory.descriptors id)

def Memory.Fresh (memory : Memory) : Prop :=
  ∀ id, memory.nextDescriptor ≤ id → memory.descriptors id = none

/-- What the calls on arrays and bitmaps leave alone, also where an allocation fails. -/
structure KeepsDescriptors (before after : Memory) : Prop where
  descriptors : after.descriptors = before.descriptors
  next : after.nextDescriptor = before.nextDescriptor

/-- Descriptors that were there are as they were. -/
structure Grows (before after : Memory) : Prop where
  next : before.nextDescriptor ≤ after.nextDescriptor
  fresh : after.Fresh
  old : ∀ id, id < before.nextDescriptor → after.descriptors id = before.descriptors id

/-- No open file comes or goes. -/
structure Quiet (before after : Memory) : Prop extends Grows before after where
  new : ∀ id, before.nextDescriptor ≤ id → ∀ vnode, holdsOpen vnode (after.descriptors id) = 0

section Counting
variable {before middle after : Memory}

namespace KeepsDescriptors

theorem refl (memory : Memory) : KeepsDescriptors memory memory := ⟨rfl, rfl⟩

theorem trans (first : KeepsDescriptors before middle)
    (second : KeepsDescriptors middle after) : KeepsDescriptors before after :=
  ⟨second.descriptors.trans first.descriptors, second.next.trans first.next⟩

section
variable (keeps : KeepsDescriptors before after)
include keeps

theorem fresh (fresh : before.Fresh) : after.Fresh := by
  intro id beyond
  rw [keeps.descriptors]
  rw [keeps.next] at beyond
  exact fresh id beyond

theorem open_files (vnode : Nat) : openFiles after vnode = openFiles before vnode := by
  unfold openFiles
  rw [keeps.descriptors, keeps.next]

theorem grows (fresh : before.Fresh) : Grows before after :=
  ⟨le_of_eq keeps.next.symm, keeps.fresh fresh, fun _ _ => by rw [keeps.descriptors]⟩

end
end KeepsDescriptors

theorem Grows.trans (first : Grows before middle) (second : Grows middle after) :
    Grows before after :=
  ⟨first.next.trans second.next, second.fresh, fun id below =>
    (second.old id (lt_of_lt_of_le below first.next)).trans (first.old id below)⟩

theorem Quiet.refl (fresh : before.Fresh) : Quiet before before := by
  refine ⟨(KeepsDescriptors.refl before).grows fresh, ?_⟩
  intro id beyond vnode
  rw [fresh id beyond]
  rfl

theorem Quiet.keeps (quiet : Quiet before middle) (keeps : KeepsDescriptors middle after) :
    Quiet before after := by
  refine ⟨quiet.toGrows.trans (keeps.grows quiet.fresh), ?_⟩
  rw [keeps.descriptors]
  exact quiet.new

variable {id : Nat} {desc : FileDescriptor}

theorem set_descriptor_fresh {desc : Option FileDescriptor} (fresh : before.Fresh)
    (made : id < before.nextDescriptor) : (before.setDescriptor id desc).Fresh := by
  intro other beyond
  have different : other ≠ id := ne_of_gt (lt_of_lt_of_le made beyond)
  simp only [setDescriptor, update_of_ne different]
  exact fresh other beyond

/-- A descriptor that is new may be overwritten by one that is no open file. -/
theorem Quiet.set (quiet : Quiet before after) {desc : Option FileDescriptor}
    (new : before.nextDescriptor ≤ id) (made : id < after.nextDescriptor)
    (none : ∀ vnode, holdsOpen vnode desc = 0) : Quiet before (after.setDescriptor id desc) := by
  refine ⟨⟨quiet.next, set_descriptor_fresh quiet.fresh made, ?_⟩, ?_⟩
  · intro other below
    have different : other ≠ id := ne_of_lt (lt_of_lt_of_le below new)
    simp only [setDescriptor, update_of_ne different]
    exact quiet.old other below
  · intro other beyond vnode
    simp only [setDescriptor, update_apply]
    split
    · exact none vnode
    · exact quiet.new other beyond vnode

theorem Quiet.open_files (quiet : Quiet before after) (vnode : Nat) :
    openFiles after vnode = openFiles before vnode := by
  unfold openFiles
  rw [← sum_subset (range_mono quiet.next)]
  · apply sum_congr rfl
    intro id member
    rw [quiet.old id (mem_range.mp member)]
  · intro id _ beyond
    exact quiet.new id (Nat.le_of_not_lt fun below => beyond (mem_range.mpr below)) vnode

theorem draw_keeps (memory : Memory) : KeepsDescriptors memory memory.draw.1 := by
  unfold draw
  split
  · exact .refl _
  · exact ⟨rfl, rfl⟩

theorem new_descriptor_refused (refused : before.newDescriptor desc = (after, none)) :
    KeepsDescriptors before after := by
  have keeps := draw_keeps before
  unfold newDescriptor at refused
  split at refused
  · rename_i drawn failed
    cases refused
    rw [failed] at keeps
    exact keeps
  · cases refused

section Made
variable (made : before.newDescriptor desc = (after, some id))
include made

/-- A descriptor that is made is the next one. -/
theorem new_descriptor_made : id = before.nextDescriptor ∧
    after.descriptors = update before.descriptors before.nextDescriptor (some desc) ∧
    after.nextDescriptor = before.nextDescriptor + 1 := by
  have keeps := draw_keeps before
  unfold newDescriptor at made
  split at made
  · cases made
  · rename_i drawn granted
    cases made
    rw [granted] at keeps
    rw [← keeps.next, ← keeps.descriptors]
    exact ⟨rfl, rfl, rfl⟩

theorem new_descriptor_grows (fresh : before.Fresh) : Grows before after := by
  rcases new_descriptor_made made with ⟨_, descriptors, next⟩
  refine ⟨by rw [next]; exact Nat.le_succ _, ?_, ?_⟩
  · intro other beyond
    rw [next] at beyond
    rw [descriptors, update_of_ne (ne_of_gt beyond)]
    exact fresh other (Nat.le_of_succ_le beyond)
  · intro other below
    rw [descriptors, update_of_ne (ne_of_lt below)]

theorem new_descriptor_open_files (vnode : Nat) :
    openFiles after vnode = openFiles before vnode + holdsOpen vnode (some desc) := by
  rcases new_descriptor_made made with ⟨_, descriptors, next⟩
  unfold openFiles
  rw [descriptors, next, sum_range_succ, update_self]
  congr 1
  apply sum_congr rfl
  intro other member
  rw [update_of_ne (ne_of_lt (mem_range.mp member))]

end Made

theorem Quiet.new_descriptor (quiet : Quiet before middle)
    (none : ∀ vnode, holdsOpen vnode (some desc) = 0)
    (made : middle.newDescriptor desc = (after, some id)) :
    Quiet before after ∧ before.nextDescriptor ≤ id ∧ id < after.nextDescriptor := by
  rcases new_descriptor_made made with ⟨isNext, descriptors, next⟩
  cases isNext
  refine ⟨⟨quiet.toGrows.trans (new_descriptor_grows made quiet.fresh), ?_⟩, quiet.next,
    by rw [next]; exact Nat.lt_succ_self _⟩
  intro other beyond vnode
  rw [descriptors, update_apply]
  split
  · exact none vnode
  · exact quiet.new other beyond vnode

theorem set_descriptor_open_files (desc : Option FileDescriptor) (made : id < before.nextDescriptor)
    (vnode : Nat) :
    openFiles (before.setDescriptor id desc) vnode + holdsOpen vnode (before.descriptors id) =
      openFiles before vnode + holdsOpen vnode desc := by
  have member : id ∈ range before.nextDescriptor := mem_range.mpr made
  have others : ∑ other ∈ (range before.nextDescriptor).erase id,
      holdsOpen vnode ((before.setDescriptor id desc).descriptors other) =
      ∑ other ∈ (range before.nextDescriptor).erase id,
        holdsOpen vnode (before.descriptors other) := by
    apply sum_congr rfl
    intro other inside
    simp only [setDescriptor, update_of_ne (ne_of_mem_erase inside)]
  have here : (before.setDescriptor id desc).descriptors id = desc := by
    simp [setDescriptor]
  have next : (before.setDescriptor id desc).nextDescriptor = before.nextDescriptor := rfl
  unfold openFiles
  rw [next, ← add_sum_erase _ _ member, ← add_sum_erase _ _ member, others, here]
  omega

end Counting

/-! ## What the managers do to descriptors -/

section Managers
variable {memory after : Memory} {manager final : FileDescriptorManager}

theorem new_array_keeps {size : Nat} {result : Option Nat}
    (made : memory.newArray size = (after, result)) : KeepsDescriptors memory after := by
  have keeps := draw_keeps memory
  unfold newArray at made
  split at made
  · rename_i drawn failed
    cases made
    rw [failed] at keeps
    exact keeps
  · rename_i drawn granted
    cases made
    rw [granted] at keeps
    exact ⟨keeps.descriptors, keeps.next⟩

theorem delete_array_keeps (buffer : Option Nat) :
    KeepsDescriptors memory (memory.deleteArray buffer) := by
  cases buffer with
  | none => exact .refl _
  | some address => exact ⟨rfl, rfl⟩

theorem copy_array_keeps {target size : Nat} {source : Option Nat}
    (copied : memory.copyArray target source size = some after) :
    KeepsDescriptors memory after := by
  unfold copyArray at copied
  split at copied
  · cases copied
    exact .refl _
  · simp only [Option.bind_eq_bind, Option.bind_eq_some_iff] at copied
    rcases copied with ⟨address, _, old, _, new, _, stored⟩
    split at stored
    · cases stored
    · cases stored
      exact ⟨rfl, rfl⟩

variable {result : Except Errno Nat} {index newProc : Nat}

theorem bitmap_set_keeps {bitmap : RawBitmap} {value : Bool}
    (stored : bitmap.set memory index value = some after) : KeepsDescriptors memory after := by
  unfold RawBitmap.set at stored
  split at stored
  · cases stored
    exact .refl _
  · simp only [Option.bind_eq_bind, Option.bind_eq_some_iff] at stored
    rcases stored with ⟨address, _, bytes, _, written⟩
    split at written
    · cases written
    · cases written
      exact ⟨rfl, rfl⟩

def Names (manager : FileDescriptorManager) (id : Nat) : Prop :=
  ∃ fd, (fd, id) ∈ manager.currentFDs.nodes

variable {desc fd : Nat} {table : OrderedMap Nat Nat} {nodes : List (Nat × Nat)} {complete : Bool}

theorem names_congr (same : final.currentFDs = manager.currentFDs) {id : Nat}
    (named : Names final id) : Names manager id := by
  rwa [Names, same] at named

theorem names_insert (stored : final.currentFDs = manager.currentFDs.insert fd desc) {id : Nat}
    (named : Names final id) : Names manager id ∨ id = desc := by
  rcases named with ⟨key, member⟩
  rw [stored] at member
  rcases mem_insert_list member with new | old
  · exact .inr (congrArg Prod.snd new)
  · exact .inl ⟨key, old⟩

theorem take_names (taken : manager.take memory index desc = some (after, final, result)) :
    KeepsDescriptors memory after ∧ ∀ id, Names final id → Names manager id ∨ id = desc := by
  unfold take at taken
  split at taken
  · cases taken
  · rename_i marked stored
    cases taken
    exact ⟨bitmap_set_keeps stored, fun _ => names_insert rfl⟩

theorem allocate_names (call : manager.allocate memory desc = some (after, final, result)) :
    KeepsDescriptors memory after ∧ ∀ id, Names final id → Names manager id ∨ id = desc := by
  unfold allocate at call
  split at call
  · cases call
  split at call
  · cases call
  · exact take_names call
  split at call
  · cases call
    exact ⟨.refl _, fun _ named => .inl named⟩
  unfold grow at call
  dsimp only at call
  split at call
  · rename_i failed made
    cases call
    exact ⟨new_array_keeps made, fun _ named => .inl named⟩
  · rename_i granted buffer made
    split at call
    · cases call
    · rename_i copied copying
      rcases take_names call with ⟨keeps, named⟩
      exact ⟨(((new_array_keeps made).trans (copy_array_keeps copying)).trans
        (delete_array_keeps _)).trans keeps, named⟩

theorem free_names {result : Option Nat}
    (call : manager.free memory fd = some (after, final, result)) :
    KeepsDescriptors memory after ∧ (∀ id, Names final id → Names manager id) ∧
      ∀ id, result = some id → Names manager id := by
  unfold free at call
  split at call
  · cases call
    exact ⟨.refl _, fun _ named => named, fun _ impossible => by cases impossible⟩
  rename_i desc found
  split at call
  · cases call
  split at call
  · cases call
  rename_i cleared stored
  cases call
  refine ⟨bitmap_set_keeps stored, ?_, ?_⟩
  · rintro id ⟨key, member⟩
    exact ⟨key, (List.mem_filter.mp member).1⟩
  · intro id same
    cases same
    exact ⟨fd, find_some_iff.mp found⟩

theorem reserve_names {result : Bool}
    (call : manager.reserveFD memory fd desc = some (after, final, result)) :
    KeepsDescriptors memory after ∧ ∀ id, Names final id → Names manager id ∨ id = desc := by
  unfold reserveFD at call
  split at call
  · cases call
  split at call
  · cases call
  · cases call
    exact ⟨.refl _, fun _ named => .inl named⟩
  split at call
  · cases call
  · rename_i marked stored
    cases call
    exact ⟨bitmap_set_keeps stored, fun _ => names_insert rfl⟩

theorem init_names {result : Bool} (call : manager.init memory = some (after, final, result)) :
    KeepsDescriptors memory after ∧ final.currentFDs = manager.currentFDs := by
  unfold init at call
  split at call
  · rename_i failed made
    cases call
    exact ⟨new_array_keeps made, rfl⟩
  · rename_i granted buffer made
    split at call
    · cases call
    · cases call
      exact ⟨new_array_keeps made, rfl⟩

section Deleting
variable (call : deleteAll memory nodes = some after)
include call

/-- The descriptors of the table are gone, the others are as they were. -/
theorem delete_all_descriptors :
    after.nextDescriptor = memory.nextDescriptor ∧
      (∀ node ∈ nodes, (memory.descriptors node.2).isSome) ∧
      ∀ id, after.descriptors id =
        if id ∈ nodes.map Prod.snd then none else memory.descriptors id := by
  induction nodes generalizing memory with
  | nil =>
    cases call
    exact ⟨rfl, nofun, fun _ => rfl⟩
  | cons node rest ih =>
    rw [deleteAll] at call
    split at call
    · cases call
    rename_i desc live
    rcases ih call with ⟨next, alive, left⟩
    refine ⟨next, ?_, ?_⟩
    · intro other member
      rcases List.mem_cons.mp member with first | later
      · rw [first, live]
        rfl
      · have there := alive other later
        simp only [setDescriptor, update_apply] at there
        split at there
        · cases there
        · exact there
    · intro id
      rw [left id]
      by_cases first : id = node.2
      · simp [setDescriptor, first]
      · simp only [setDescriptor, update_of_ne first, List.map_cons, List.mem_cons, first, false_or]

theorem delete_all_fresh (fresh : memory.Fresh) : after.Fresh := by
  rcases delete_all_descriptors call with ⟨next, _, left⟩
  intro id beyond
  rw [next] at beyond
  rw [left id]
  split
  · rfl
  · exact fresh id beyond

variable {before : Memory}

theorem Grows.delete_all (grows : Grows before memory)
    (new : ∀ node ∈ nodes, before.nextDescriptor ≤ node.2) : Grows before after := by
  rcases delete_all_descriptors call with ⟨next, _, left⟩
  refine ⟨by rw [next]; exact grows.next, delete_all_fresh call grows.fresh, ?_⟩
  intro id below
  rw [left id, if_neg]
  · exact grows.old id below
  · intro listed
    rcases List.mem_map.mp listed with ⟨node, member, same⟩
    have beyond := new node member
    omega

theorem Quiet.delete_all (quiet : Quiet before memory)
    (new : ∀ node ∈ nodes, before.nextDescriptor ≤ node.2) : Quiet before after := by
  refine ⟨quiet.toGrows.delete_all call new, ?_⟩
  intro id beyond vnode
  rw [(delete_all_descriptors call).2.2 id]
  split
  · rfl
  · exact quiet.new id beyond vnode

theorem delete_all_open_files (fresh : memory.Fresh) (vnode : Nat) :
    openFiles after vnode = openFiles memory vnode ↔
      ∀ node ∈ nodes, holdsOpen vnode (memory.descriptors node.2) = 0 := by
  rcases delete_all_descriptors call with ⟨next, alive, left⟩
  have smaller : ∀ id ∈ range memory.nextDescriptor,
      holdsOpen vnode (after.descriptors id) ≤ holdsOpen vnode (memory.descriptors id) := by
    intro id _
    rw [left id]
    split
    · exact Nat.zero_le _
    · exact Nat.le_refl _
  unfold openFiles
  rw [next, sum_eq_sum_iff_of_le smaller]
  constructor
  · intro same node member
    have made : node.2 < memory.nextDescriptor := by
      by_contra beyond
      have there := alive node member
      rw [fresh node.2 (Nat.le_of_not_lt beyond)] at there
      cases there
    rw [← same node.2 (mem_range.mpr made), left, if_pos (List.mem_map_of_mem member)]
    rfl
  · intro none id _
    rw [left id]
    split
    · rename_i listed
      rcases List.mem_map.mp listed with ⟨node, member, same⟩
      rw [← same, none node member]
      rfl
    · rfl

end Deleting

theorem delete_cases (call : manager.delete memory = some (after, final)) :
    ∃ middle, KeepsDescriptors memory middle ∧
      deleteAll middle manager.currentFDs.nodes = some after := by
  unfold delete at call
  split at call
  · cases call
  split at call
  · cases call
  rename_i cleared clearing
  cases call
  exact ⟨_, delete_array_keeps _, clearing⟩

theorem holds_open_forked (vnode newProc : Nat) (desc : FileDescriptor) :
    holdsOpen vnode (some (desc.forked newProc)) = holdsOpen vnode (some desc) := rfl

/-- What the loop of `Fork` does, also where a descriptor cannot be made. -/
structure Copies (memory : Memory) (nodes : List (Nat × Nat)) (table : OrderedMap Nat Nat)
    (after : Memory) (final : OrderedMap Nat Nat) (complete : Bool) : Prop
    extends Grows memory after where
  kept : ∀ node ∈ table.nodes, node ∈ final.nodes
  copied : ∀ node ∈ final.nodes, node ∈ table.nodes ∨
    memory.nextDescriptor ≤ node.2 ∧ node.2 < after.nextDescriptor
  listed : ∀ id, memory.nextDescriptor ≤ id → (after.descriptors id).isSome →
    id ∈ final.nodes.map Prod.snd
  counted : complete = true → ∀ vnode, openFiles after vnode = openFiles memory vnode +
    (nodes.map fun node => holdsOpen vnode (memory.descriptors node.2)).sum

theorem fork_all_copies {nodes : List (Nat × Nat)} {final : OrderedMap Nat Nat}
    (fresh : memory.Fresh) (made : ∀ node ∈ nodes, node.2 < memory.nextDescriptor)
    (ordered : (table.nodes ++ nodes).Pairwise fun left right => left.1 < right.1)
    (call : forkAll newProc nodes memory table = some (after, final, complete)) :
    Copies memory nodes table after final complete := by
  induction nodes generalizing memory table with
  | nil =>
    cases call
    refine ⟨(KeepsDescriptors.refl _).grows fresh, fun _ member => member,
      fun _ member => .inl member, ?_, fun _ _ => rfl⟩
    intro id beyond alive
    rw [fresh id beyond] at alive
    cases alive
  | cons node rest ih =>
    rw [forkAll] at call
    split at call
    · cases call
    rename_i desc live
    split at call
    · rename_i failed refused
      have keeps := new_descriptor_refused refused
      cases call
      refine ⟨keeps.grows fresh, fun _ member => member, fun _ member => .inl member, ?_, nofun⟩
      intro id beyond alive
      rw [keeps.descriptors, fresh id beyond] at alive
      cases alive
    · rename_i granted copy granting
      have grows := new_descriptor_grows granting fresh
      rcases new_descriptor_made granting with ⟨isNext, descriptors, next⟩
      cases isNext
      rcases insert_next memory.nextDescriptor ordered with ⟨grown, stillOrdered⟩
      have copies := ih grows.fresh (fun other member =>
        lt_of_lt_of_le (made other (by simp [member])) grows.next) stillOrdered call
      have further := copies.next
      rw [next] at further
      refine ⟨grows.trans copies.toGrows, ?_, ?_, ?_, ?_⟩
      · intro other member
        exact copies.kept other (by rw [grown]; exact List.mem_append_left _ member)
      · intro other member
        rcases copies.copied other member with inserted | ⟨low, high⟩
        · rw [grown] at inserted
          rcases List.mem_append.mp inserted with old | new
          · exact .inl old
          · rw [List.mem_singleton.mp new]
            exact .inr ⟨Nat.le_refl _, further⟩
        · exact .inr ⟨grows.next.trans low, high⟩
      · intro id beyond alive
        rcases eq_or_lt_of_le beyond with same | later
        · rw [← same]
          exact List.mem_map_of_mem
            (copies.kept (node.1, memory.nextDescriptor) (by rw [grown]; simp))
        · exact copies.listed id (by rw [next]; exact later) alive
      · intro done vnode
        have others : (rest.map fun other => holdsOpen vnode (granted.descriptors other.2)) =
            rest.map fun other => holdsOpen vnode (memory.descriptors other.2) := by
          apply List.map_congr_left
          intro other member
          rw [grows.old other.2 (made other (by simp [member]))]
        rw [copies.counted done vnode, new_descriptor_open_files granting vnode, others,
          holds_open_forked, ← live, List.map_cons, List.sum_cons, add_assoc]

theorem fork_undone {failed : Memory} (copies : Copies memory nodes .empty failed table complete)
    (clearing : deleteAll failed table.nodes = some after) : Quiet memory after := by
  have new : ∀ node ∈ table.nodes, memory.nextDescriptor ≤ node.2 := by
    intro node member
    rcases copies.copied node member with impossible | inside
    · cases impossible
    · exact inside.1
  refine ⟨copies.toGrows.delete_all clearing new, ?_⟩
  intro id beyond vnode
  rw [(delete_all_descriptors clearing).2.2 id]
  split
  · rfl
  · rename_i absent
    cases alive : failed.descriptors id with
    | none => rfl
    | some desc => exact absurd (copies.listed id beyond (by rw [alive]; rfl)) absent

theorem fork_copies {other parent : FileDescriptorManager} (fresh : memory.Fresh)
    (made : ∀ id, Names other id → id < memory.nextDescriptor)
    (call : FileDescriptorManager.fresh.fork other memory newProc =
      some (after, final, parent, complete)) :
    memory.nextDescriptor ≤ after.nextDescriptor ∧ after.Fresh ∧
      parent.currentFDs = other.currentFDs ∧
      (∀ id, Names final id → id < after.nextDescriptor) ∧
      (complete = false → ∀ vnode, openFiles after vnode = openFiles memory vnode) ∧
      (complete = true → ∀ vnode, openFiles after vnode = openFiles memory vnode +
        (other.currentFDs.nodes.map fun node =>
          holdsOpen vnode (memory.descriptors node.2)).sum) := by
  unfold fork at call
  split at call
  · cases call
  split at call
  · rename_i failed refused
    have keeps := new_array_keeps refused
    cases call
    refine ⟨le_of_eq keeps.next.symm, keeps.fresh fresh, rfl, ?_, fun _ => keeps.open_files, nofun⟩
    rintro id ⟨fd, impossible⟩
    cases impossible
  · rename_i granted buffer granting
    split at call
    · cases call
    rename_i copied copying
    have keeps := (new_array_keeps granting).trans (copy_array_keeps copying)
    split at call
    · cases call
    have inside : ∀ node ∈ other.currentFDs.nodes, node.2 < copied.nextDescriptor := by
      intro node member
      rw [keeps.next]
      exact made node.2 ⟨node.1, member⟩
    have ordered : ((empty : OrderedMap Nat Nat).nodes ++
        other.currentFDs.nodes).Pairwise fun left right => left.1 < right.1 :=
      other.currentFDs.sorted
    split at call
    · cases call
    · rename_i done table loop
      have copies := fork_all_copies (keeps.fresh fresh) inside ordered loop
      cases call
      refine ⟨by rw [← keeps.next]; exact copies.next, copies.fresh, rfl, ?_, nofun, ?_⟩
      · rintro id ⟨fd, member⟩
        rcases copies.copied (fd, id) member with impossible | ⟨_, below⟩
        · cases impossible
        · exact below
      · intro _ vnode
        rw [copies.counted rfl vnode, keeps.open_files vnode, keeps.descriptors]
    · rename_i failed table loop
      have copies := fork_all_copies (keeps.fresh fresh) inside ordered loop
      split at call
      · cases call
      rename_i cleared clearing
      cases call
      have quiet := (fork_undone copies clearing).keeps (delete_array_keeps (some buffer))
      refine ⟨by rw [← keeps.next]; exact quiet.next, quiet.fresh, rfl, ?_, ?_, nofun⟩
      · rintro id ⟨fd, impossible⟩
        cases impossible
      · intro _ vnode
        rw [quiet.open_files vnode, keeps.open_files vnode]

/-! ## Which calls succeed -/

/-- The next `count` allocations succeed. -/
def Granted (memory : Memory) (count : Nat) : Prop := false ∉ memory.outcomes.take count

/-- The table has a number that is not in use. -/
def HasClear (memory : Memory) (manager : FileDescriptorManager) : Prop :=
  ∃ index < manager.bitmap.size * 8, manager.bitmap.get memory index = some false

theorem granted_succ (memory : Memory) (count : Nat) :
    Granted memory (count + 1) ↔ memory.draw.2 = true ∧ Granted memory.draw.1 count := by
  unfold Granted draw
  cases outcomes : memory.outcomes with
  | nil => simp [outcomes]
  | cons outcome rest => cases outcome <;> simp

theorem granted_congr (same : after.outcomes = memory.outcomes) (count : Nat) :
    Granted after count ↔ Granted memory count := by
  rw [Granted, same, Granted]

theorem granted_new_descriptor {record : FileDescriptor} {id : Option Nat}
    (made : memory.newDescriptor record = (after, id)) (count : Nat) :
    Granted memory (count + 1) ↔ id.isSome ∧ Granted after count := by
  rw [granted_succ]
  unfold newDescriptor at made
  split at made
  · rename_i drawn refused
    cases made
    simp [refused]
  · rename_i drawn granted
    cases made
    rw [granted]
    simp [Granted]

theorem granted_new_array {size : Nat} {buffer : Option Nat}
    (made : memory.newArray size = (after, buffer)) (count : Nat) :
    Granted memory (count + 1) ↔ buffer.isSome ∧ Granted after count := by
  rw [granted_succ]
  unfold newArray at made
  split at made
  · rename_i drawn refused
    cases made
    simp [refused]
  · rename_i drawn granted
    cases made
    rw [granted]
    simp [Granted]

theorem copy_array_outcomes {target size : Nat} {source : Option Nat}
    (copied : memory.copyArray target source size = some after) :
    after.outcomes = memory.outcomes := by
  unfold copyArray at copied
  split at copied
  · cases copied
    rfl
  · simp only [Option.bind_eq_bind, Option.bind_eq_some_iff] at copied
    rcases copied with ⟨address, _, old, _, new, _, stored⟩
    split at stored
    · cases stored
    · cases stored
      rfl

theorem fork_all_complete {final : OrderedMap Nat Nat}
    (call : forkAll newProc nodes memory table = some (after, final, complete)) :
    complete = true ↔ Granted memory nodes.length := by
  induction nodes generalizing memory table with
  | nil =>
    cases call
    simp [Granted]
  | cons node rest ih =>
    rw [forkAll] at call
    split at call
    · cases call
    split at call
    · rename_i failed refused
      cases call
      rw [List.length_cons, granted_new_descriptor refused]
      simp
    · rename_i granted copy granting
      rw [List.length_cons, granted_new_descriptor granting, ih call]
      simp

/-- A fork copies the array and each descriptor. -/
theorem fork_complete {other parent : FileDescriptorManager}
    (call : manager.fork other memory newProc = some (after, final, parent, complete)) :
    complete = true ↔ Granted memory (other.currentFDs.nodes.length + 1) := by
  unfold fork at call
  split at call
  · cases call
  split at call
  · rename_i failed refused
    cases call
    rw [granted_new_array refused]
    simp
  rename_i granted buffer granting
  rw [granted_new_array granting]
  split at call
  · cases call
  rename_i copied copying
  rw [← granted_congr (copy_array_outcomes copying)]
  split at call
  · cases call
  split at call
  · cases call
  · rename_i done copies loop
    cases call
    simpa using fork_all_complete loop
  · rename_i failed copies loop
    split at call
    · cases call
    · cases call
      simpa using fork_all_complete loop

theorem first_clear_cases {bitmap : RawBitmap} {indices : List Nat} {found : Option Nat}
    (search : bitmap.firstClear memory indices = some found) :
    found.isSome ↔ ∃ index ∈ indices, bitmap.get memory index = some false := by
  induction indices with
  | nil =>
    cases search
    simp
  | cons index rest ih =>
    rw [RawBitmap.firstClear] at search
    split at search
    · cases search
    · rename_i clear
      cases search
      simp [clear]
    · rename_i taken
      rw [ih search]
      simp [taken]

theorem take_ok (taken : manager.take memory index desc = some (after, final, result)) :
    result = .ok index := by
  unfold take at taken
  split at taken
  · cases taken
  · cases taken
    rfl

/-- `Allocate` finds a clear bit, or the table grows. -/
theorem allocate_ok_iff (call : manager.allocate memory desc = some (after, final, result)) :
    (∃ fd, result = .ok fd) ↔
      HasClear memory manager ∨ manager.bitmap.size * 8 ≠ MAX_FD ∧ Granted memory 1 := by
  unfold allocate at call
  split at call
  · cases call
  split at call
  · cases call
  all_goals
    rename_i search
    have clear := first_clear_cases search
    simp only [List.mem_range] at clear
  · rw [take_ok call]
    simp [HasClear, ← clear]
  · have full : ¬ HasClear memory manager := fun some => by simpa using clear.mpr some
    split at call
    · rename_i longest
      cases call
      simp [full, longest]
    · rename_i shorter
      unfold grow at call
      dsimp only at call
      split at call
      · rename_i failed refused
        cases call
        simp [full, granted_new_array refused]
      · rename_i granted buffer granting
        split at call
        · cases call
        · rw [take_ok call, granted_new_array granting]
          simp [shorter, Granted]

end Managers
end FrostyKernel.FileSystem
