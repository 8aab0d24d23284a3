import FrostyKernel.FileSystem.Paths

/-!
# Sequences of creations

`VFS_CreateDir` and `VFS_CreateFile` check the length of the name and that the
parent exists, and nothing else. In every sequence the vnodes stay linked; the
names are usable at the end exactly when every creation asked for a usable one.
-/

namespace FrostyKernel.FileSystem

open CString Option

namespace VFS

/-- A call of `VFS_CreateDir` or `VFS_CreateFile`. -/
inductive CreateCall
  | dir (path name : List UInt8) (cwd : Option Nat) (cred : Credential)
  | file (path name : List UInt8) (cwd : Option Nat) (cred : Credential)

namespace CreateCall

def path : CreateCall → List UInt8
  | dir path _ _ _ => path
  | file path _ _ _ => path

def name : CreateCall → List UInt8
  | dir _ name _ _ => name
  | file _ name _ _ => name

def cwd : CreateCall → Option Nat
  | dir _ _ cwd _ => cwd
  | file _ _ cwd _ => cwd

section
variable (fs : VFS) (call : CreateCall)

def run : CreateCall → Option (VFS × Except Errno Unit)
  | dir path name cwd cred => fs.createDir path name cwd cred
  | file path name cwd cred => fs.createFile path name cwd cred

theorem run_eq : ∃ attr, call.run fs = fs.createNode call.path call.name call.cwd attr := by
  cases call with
  | dir path name cwd cred => exact ⟨_, rfl⟩
  | file path name cwd cred => exact ⟨_, rfl⟩

def Legal : Prop := ∀ id, call.cwd = some id → (fs.vnodes id).isSome

/-- Where the path of the call leads to a vnode and its name passes the checks of the length, that
vnode is a directory, and the name is usable and not yet taken there. -/
def Suits : Prop :=
  ∀ parent node, fs.lookupPath call.path call.cwd = some (.ok parent) →
    fs.vnodes parent = some node → call.name ≠ [] → call.name.length ≤ NAME_MAX →
    Suitable fs node call.name

end
end CreateCall

section
variable (fs : VFS) (call : CreateCall) (next : VFS)

def Creates : Prop := call.Legal fs ∧ ∃ result, call.run fs = some (next, result)

def CreatesSuitably : Prop := Creates fs call next ∧ call.Suits fs

def AllReachable : Prop :=
  ∀ id, (fs.vnodes id).isSome → ∃ path, ∀ cwd, fs.lookupPath path cwd = some (.ok id)

end

section Steps
variable {fs next : VFS} {call : CreateCall}

theorem creates_cases (step : Creates fs call next) :
    (next = fs ∧ call.Suits fs) ∨
    ∃ parent node attr, fs.lookupPath call.path call.cwd = some (.ok parent) ∧
      fs.vnodes parent = some node ∧ call.name ≠ [] ∧ call.name.length ≤ NAME_MAX ∧
      next = fs.withChild parent node call.name attr := by
  rcases step with ⟨_, result, returned⟩
  rcases CreateCall.run_eq fs call with ⟨attr, body⟩
  have ran := body.symm.trans returned
  rcases create_node_cases ran with
    ⟨same, failed⟩ | ⟨_, nonempty, short, parent, node, looked, there, grown⟩
  · refine .inl ⟨same, ?_⟩
    intro parent node looked there nonempty short
    simp only [createNode, looked, if_neg (not_lt.mpr short), create, if_neg nonempty, there] at ran
    cases ran
    exact absurd rfl failed
  · exact .inr ⟨parent, node, attr, looked, there, nonempty, short, grown⟩

theorem creates_deterministic {other : VFS} (step : Creates fs call next)
    (again : Creates fs call other) : next = other := by
  rcases step with ⟨_, result, returned⟩
  rcases again with ⟨_, otherResult, returnedAgain⟩
  rw [returned] at returnedAgain
  cases returnedAgain
  rfl

theorem creates_linked (linked : Linked fs) (step : Creates fs call next) : Linked next := by
  rcases creates_cases step with ⟨same, _⟩ | ⟨parent, node, attr, _, there, _, _, grown⟩
  · rw [same]
    exact linked
  · rw [grown]
    exact linked_with_child call.name attr linked there

theorem creates_proper_iff (linked : Linked fs) (step : Creates fs call next) :
    Proper next ↔ Proper fs ∧ call.Suits fs := by
  rcases creates_cases step with
    ⟨same, suits⟩ | ⟨parent, node, attr, looked, there, nonempty, short, grown⟩
  · rw [same]
    exact (and_iff_left suits).symm
  rw [grown]
  constructor
  · intro proper
    refine ⟨proper_before call.name attr linked there proper, ?_⟩
    intro otherParent otherNode otherLooked otherThere _ _
    rw [looked] at otherLooked
    cases otherLooked
    rw [there] at otherThere
    cases otherThere
    exact suitable_before call.name attr linked there proper
  · rintro ⟨proper, suits⟩
    exact proper_after call.name attr linked there proper
      (suits parent node looked there nonempty short)

theorem creates_returns (linked : Linked fs) {call : CreateCall} (legal : call.Legal fs) :
    ∃ next result, call.run fs = some (next, result) := by
  rcases CreateCall.run_eq fs call with ⟨attr, body⟩
  rcases lookup_path_lands linked call.path call.cwd legal with ⟨outcome, looked, landed⟩
  rw [body]
  unfold createNode
  rw [looked]
  cases outcome with
  | error code => exact ⟨_, _, rfl⟩
  | ok parent =>
    rcases isSome_iff_exists.mp (landed parent rfl) with ⟨node, there⟩
    dsimp only
    split
    · exact ⟨_, _, rfl⟩
    · unfold create
      rw [there]
      split
      · exact ⟨_, _, rfl⟩
      · exact ⟨_, _, rfl⟩

end Steps

/-! ## Looking up after a creation -/

section AfterCreation
variable {fs : VFS} {parent : Nat} {node : VNode} (name : List UInt8) (attr : VAttr)

theorem find_child_append (text : List UInt8) (len : Nat) (children : List Nat) (last : Nat)
    (found : Option Nat) : fs.findChild text len found (children ++ [last]) =
      (fs.findChild text len found children).bind fun before =>
        fs.findChild text len before [last] := by
  induction children generalizing found with
  | nil => rfl
  | cons child rest ih =>
    simp only [List.cons_append, findChild]
    cases fs.vnodes child with
    | none => rfl
    | some _ => exact ih _

section Leaf
variable {id : Nat} {target : Nat} {text : List UInt8} (leaf : node.attr.type ≠ .DIR)
include leaf

/-- From a vnode that is no directory a lookup leads nowhere else. -/
theorem lookup_last_leaf (done : fs.lookupLast id node text = some (.ok target)) : target = id := by
  simp only [lookupLast, leaf, ne_eq, not_false_eq_true, if_true] at done
  split at done
  · cases done
    rfl
  · cases done

theorem lookup_segment_leaf {len : Nat}
    (done : fs.lookupSegment id node text len = some (.ok target)) : target = id := by
  simp only [lookupSegment, leaf, ne_eq, not_false_eq_true, if_true] at done
  split at done
  · cases done
  split at done
  · cases done
    rfl
  · cases done

end Leaf

variable (linked : Linked fs) (there : fs.vnodes parent = some node)
include linked there

theorem find_child_with_child (text : List UInt8) (len : Nat) {children : List Nat}
    (live : ∀ child ∈ children, (fs.vnodes child).isSome) (found : Option Nat) :
    (fs.withChild parent node name attr).findChild text len found children =
      fs.findChild text len found children := by
  induction children generalizing found with
  | nil => rfl
  | cons child rest ih =>
    rcases isSome_iff_exists.mp (live child (by simp)) with ⟨childNode, below⟩
    rcases with_child_keeps name attr there below (ne_of_lt (linked.allocated _ _ below)) with
      ⟨later, now, sameName, _⟩
    simp only [findChild, now, below, sameName]
    exact ih (fun other member => live other (by simp [member])) _

section
variable {id : Nat} {old later : VNode} (before : fs.vnodes id = some old)
  (now : (fs.withChild parent node name attr).vnodes id = some later)
include before now

/-- A lookup finds the new vnode, or what it found before. -/
theorem lookup_with_child (text : List UInt8) (len : Nat) :
    (fs.withChild parent node name attr).lookup later text len = fs.lookup old text len ∨
    (fs.withChild parent node name attr).lookup later text len = some (.ok fs.next) := by
  have live : ∀ child ∈ old.children, (fs.vnodes child).isSome := by
    intro child member
    rcases linked.children id old child before member with ⟨childNode, below, _⟩
    rw [below]
    rfl
  have older := linked.allocated parent node there
  rcases with_child_keeps name attr there before (ne_of_lt (linked.allocated _ _ before)) with
    ⟨kept, again, _, _, _, _, same | ⟨_, grown⟩⟩
  all_goals
    rw [now] at again
    cases again
    unfold lookup
    by_cases empty : len = 0
    · simp only [empty, if_true, true_or]
  · left
    rw [same, find_child_with_child name attr linked there text len live none]
  · rcases @find_child_live fs text len _ live none nofun with ⟨last, search, _⟩
    rw [grown, find_child_append, find_child_with_child name attr linked there text len live none,
      search]
    simp only [empty, if_false, bind_some, findChild,
      with_child_new name attr (ne_of_gt older)]
    split_ifs
    · exact .inr rfl
    · exact .inl rfl

theorem lookup_last_with_child (text : List UInt8) :
    (fs.withChild parent node name attr).lookupLast id later text = fs.lookupLast id old text ∨
    (fs.withChild parent node name attr).lookupLast id later text = some (.ok fs.next) := by
  have same := lookup_with_child name attr linked there before now text text.length
  rcases with_child_keeps name attr there before (ne_of_lt (linked.allocated _ _ before)) with
    ⟨kept, again, _, sameAttr, _⟩
  rw [now] at again
  cases again
  unfold lookupLast
  rw [sameAttr]
  split_ifs
  · exact .inl rfl
  · exact .inl rfl
  · exact same

theorem lookup_segment_with_child (text : List UInt8) (len : Nat) :
    (fs.withChild parent node name attr).lookupSegment id later text len =
      fs.lookupSegment id old text len ∨
    (fs.withChild parent node name attr).lookupSegment id later text len = some (.ok fs.next) := by
  have same := lookup_with_child name attr linked there before now text len
  rcases with_child_keeps name attr there before (ne_of_lt (linked.allocated _ _ before)) with
    ⟨kept, again, _, sameAttr, sameParent, _⟩
  rw [now] at again
  cases again
  unfold lookupSegment
  rw [sameAttr, sameParent]
  split_ifs
  · exact .inl rfl
  · exact .inl rfl
  · exact .inl rfl
  · exact .inl rfl
  · exact same

end

/-- A walk that failed before the creation of a file leads to that file or still fails: from the
first round that differs on, the cursor stands at the new vnode. -/
theorem loop_with_child (leaf : attr.type ≠ .DIR) {fuel vnode : Nat} {cursor : PathCursor}
    (start : cursor.vnode = fs.next ∨ (fs.vnodes cursor.vnode).isSome ∧
      ∃ code, loop fs.lookupRound fuel cursor = some (some (.error code)))
    (done : loop (fs.withChild parent node name attr).lookupRound fuel cursor =
      some (some (.ok vnode))) : vnode = fs.next := by
  have older := linked.allocated parent node there
  induction fuel generalizing cursor with
  | zero => cases done
  | succ fuel ih =>
    rcases start with atNew | ⟨live, code, failed⟩
    · simp only [loop, lookupRound, atNew, with_child_new name attr (ne_of_gt older)] at done
      by_cases empty : skipSlash cursor.currentPath = []
      · simp only [empty, if_true] at done
        cases done
        rfl
      simp only [empty, if_false] at done
      cases separator : cursor.next with
      | none =>
        simp only [separator, some.injEq] at done
        exact lookup_last_leaf leaf done
      | some suffix =>
        simp only [separator] at done
        cases segment : (fs.withChild parent node name attr).lookupSegment fs.next
          (newVNode attr parent name) (skipSlash cursor.currentPath)
          (distance (skipSlash cursor.currentPath) suffix) with
        | none =>
          rw [segment] at done
          cases done
        | some outcome =>
          rw [segment] at done
          cases outcome with
          | error _ => cases done
          | ok target => exact ih (.inl (lookup_segment_leaf leaf segment)) done
    · rcases isSome_iff_exists.mp live with ⟨old, before⟩
      rcases with_child_keeps name attr there before (ne_of_lt (linked.allocated _ _ before)) with
        ⟨later, now, _⟩
      simp only [loop, lookupRound, now] at done
      simp only [loop, lookupRound, before] at failed
      by_cases empty : skipSlash cursor.currentPath = []
      · simp [empty] at failed
      simp only [empty, if_false] at done failed
      cases separator : cursor.next with
      | none =>
        simp only [separator] at done failed
        rcases lookup_last_with_child name attr linked there before now
          (skipSlash cursor.currentPath) with same | new
        · rw [same, failed] at done
          cases done
        · rw [new] at done
          cases done
          rfl
      | some suffix =>
        simp only [separator] at done failed
        rcases lookup_segment_with_child name attr linked there before now
          (skipSlash cursor.currentPath)
          (distance (skipSlash cursor.currentPath) suffix) with same | new
        · rw [same] at done
          rcases lookup_segment_lands linked before (skipSlash cursor.currentPath)
            (distance (skipSlash cursor.currentPath) suffix) with ⟨outcome, step, landed⟩
          rw [step] at done failed
          cases outcome with
          | error _ => cases done
          | ok child => exact ih (.inr ⟨landed child rfl, code, failed⟩) done
        · rw [new] at done
          exact ih (.inl rfl) done

/-- A path that led nowhere leads to the file that was created, if it leads anywhere. -/
theorem lookup_path_with_child (leaf : attr.type ≠ .DIR) {path : List UInt8} {cwd : Option Nat}
    {code : Errno} {vnode : Nat} (failed : fs.lookupPath path cwd = some (.error code))
    (done : (fs.withChild parent node name attr).lookupPath path cwd = some (.ok vnode)) :
    vnode = fs.next := by
  have walked : ∀ {start : Nat} {text : List UInt8}, fs.walk start text = some (.error code) →
      (fs.withChild parent node name attr).walk start text = some (.ok vnode) →
      vnode = fs.next := by
    intro start text stopped reached
    refine loop_with_child name attr linked there leaf (.inr ⟨?_, code, ?_⟩)
      (join_eq_some_iff.mp reached)
    · by_contra dead
      rw [not_isSome_iff_eq_none] at dead
      simp [walk, loop, lookupRound, dead] at stopped
    · exact join_eq_some_iff.mp stopped
  cases path with
  | nil => cases failed
  | cons first rest =>
    simp only [lookupPath] at failed done
    by_cases rooted : first = slash
    · by_cases alone : rest = []
      · simp [rooted, alone] at failed
      · simp only [rooted, alone, if_true, if_false] at failed done
        exact walked failed done
    · simp only [rooted, if_false] at failed done
      cases cwd with
      | none => cases done
      | some start => exact walked failed done

end AfterCreation

theorem tree_reachable {fs : VFS} (tree : Tree fs) : AllReachable fs := by
  intro id live
  rcases isSome_iff_exists.mp live with ⟨node, found⟩
  rcases tree.reached id node found with ⟨names, descends⟩
  exact ⟨absolutePath names, lookup_absolute tree descends⟩

variable {cred : Credential} {calls : List CreateCall} {final : VFS}

theorem creations_linked (run : Run Creates (mounted cred) calls final) : Linked final :=
  run_invariant Linked (fun _ _ _ linked step => creates_linked linked step) (mounted_linked cred)
    run

theorem creations_proper_iff (run : Run Creates (mounted cred) calls final) :
    Proper final ↔ Run CreatesSuitably (mounted cred) calls final :=
  @run_guarded_iff VFS CreateCall Creates (fun fs call => call.Suits fs) Linked Proper _ _ _
    (fun _ _ _ _ => creates_deterministic) (fun _ _ _ linked step => creates_linked linked step)
    (fun _ _ _ linked step => creates_proper_iff linked step) (mounted_linked cred)
    (mounted_proper cred) run

/-- After any sequence of creations from an empty root every further call returns, and the names are
different among siblings and usable, only directories have children and every vnode is reachable,
exactly when every call with a parent that exists and a name of a legal length asked for a name
that is usable and not taken, in a directory. -/
theorem creations_keep_tree (cred : Credential) (calls : List CreateCall) (final : VFS)
    (run : Run Creates (mounted cred) calls final) :
    (∀ call : CreateCall, call.Legal final → ∃ next result, call.run final = some (next, result)) ∧
    ((Proper final ∧ AllReachable final) ↔ Run CreatesSuitably (mounted cred) calls final) := by
  have linked := creations_linked run
  refine ⟨fun call legal => creates_returns linked legal, ?_⟩
  rw [← creations_proper_iff run]
  constructor
  · exact fun both => both.1
  · intro proper
    exact ⟨proper, tree_reachable (tree_of_linked linked proper)⟩

/-- A directory `a` and a file `b` in it. -/
theorem creations_keep_tree_nested : ∃ final,
    Run CreatesSuitably (mounted ⟨0, 0⟩)
      [.dir [slash] [97] none ⟨0, 0⟩, .file [slash, 97] [98] none ⟨0, 0⟩] final ∧
    Proper final ∧ AllReachable final := by
  refine exists_run_of (fun _ => True)
    ⟨_, run_cons ⟨⟨nofun, _, rfl⟩, ?_⟩ (run_cons ⟨⟨nofun, _, rfl⟩, ?_⟩ (.nil _)), trivial⟩ ?implies
  case implies =>
    intro final suitable _
    have run := run_mono (fun _ _ _ both => both.1) suitable
    exact (creations_keep_tree ⟨0, 0⟩ _ _ run).2.mpr suitable
  all_goals
    intro parent node looked there _ _
    cases looked
    cases there
    exact ⟨rfl, nofun, by decide, by decide, by decide, by decide⟩

/-- The same name twice. The path `/a` leads to the second vnode, the file. -/
theorem duplicate_name_created : ∃ final,
    Run Creates (mounted ⟨0, 0⟩)
      [.dir [slash] [97] none ⟨0, 0⟩, .file [slash] [97] none ⟨0, 0⟩] final ∧
    final.lookupPath [slash, 97] none = some (.ok 2) ∧ ¬ Proper final := by
  refine ⟨_, run_cons ⟨nofun, _, rfl⟩ (run_cons ⟨nofun, _, rfl⟩ (.nil _)), rfl, ?_⟩
  intro proper
  have same : (1 : Nat) = 2 :=
    proper.unique 0 _ 1 2 _ _ rfl (by decide) (by decide) rfl rfl rfl
  exact absurd same (by decide)

end VFS
end FrostyKernel.FileSystem
