import FrostyKernel.FileSystem.VFS

/-!
# The tree of vnodes

Creations link every new vnode in its parent's list and never take one out, so
the vnodes stay linked whatever the calls are. That names are usable and
different, and that only directories have children, is not checked by any
call; it holds as long as the calls respect it.
-/

namespace FrostyKernel.FileSystem

open CString List Function

namespace VFS

/-- A name that a path can have as a component. -/
structure ValidName (name : List UInt8) : Prop where
  nonempty : name ≠ []
  noSlash : slash ∉ name
  notDot : name ≠ [dot]
  notDotDot : name ≠ [dot, dot]

/-- The names lead from `top` down to `bottom`. -/
inductive Descends (fs : VFS) : Nat → List (List UInt8) → Nat → Prop
  | here (vnode : Nat) : Descends fs vnode [] vnode
  | down {top child bottom : Nat} {node childNode : VNode} {names : List (List UInt8)}
      (above : fs.vnodes top = some node) (member : child ∈ node.children)
      (below : fs.vnodes child = some childNode) (rest : Descends fs child names bottom) :
      Descends fs top (childNode.name :: names) bottom

/-- Names are usable and different among siblings, and only directories have children. -/
structure Proper (fs : VFS) : Prop where
  unique : ∀ id node left right leftNode rightNode, fs.vnodes id = some node →
    left ∈ node.children → right ∈ node.children → fs.vnodes left = some leftNode →
    fs.vnodes right = some rightNode → leftNode.name = rightNode.name → left = right
  names : ∀ id node, fs.vnodes id = some node → id ≠ fs.root → ValidName node.name
  directories : ∀ id node, fs.vnodes id = some node → node.children ≠ [] → node.attr.type = .DIR

/-- A tree whose inner vnodes are directories. -/
structure Tree (fs : VFS) : Prop extends Proper fs where
  rooted : ∃ node, fs.vnodes fs.root = some node ∧ node.parent = none
  reached : ∀ id node, fs.vnodes id = some node → ∃ names, Descends fs fs.root names id
  children : ∀ id node child, fs.vnodes id = some node → child ∈ node.children →
    ∃ childNode, fs.vnodes child = some childNode ∧ childNode.parent = some id

/-- Parents and children point to each other, and a vnode is younger than its parent. -/
structure Linked (fs : VFS) : Prop where
  allocated : ∀ id node, fs.vnodes id = some node → id < fs.next
  rooted : ∃ node, fs.vnodes fs.root = some node ∧ node.parent = none
  orphan : ∀ id node, fs.vnodes id = some node → node.parent = none → id = fs.root
  children : ∀ id node child, fs.vnodes id = some node → child ∈ node.children →
    ∃ childNode, fs.vnodes child = some childNode ∧ childNode.parent = some id
  parents : ∀ id node parent, fs.vnodes id = some node → node.parent = some parent →
    parent < id ∧ ∃ above, fs.vnodes parent = some above ∧ id ∈ above.children

section Descend
variable {fs : VFS} {child top : Nat} {names : List (List UInt8)} {bottom : Nat}
  {childNode node : VNode}

theorem child_not_root (tree : Tree fs) {id : Nat} (found : fs.vnodes id = some node)
    (member : child ∈ node.children) : child ≠ fs.root := by
  rcases tree.children id node child found member with ⟨childNode, below, parent⟩
  rcases tree.rooted with ⟨rootNode, top, noParent⟩
  intro same
  rw [same, top] at below
  rw [← Option.some.inj below, noParent] at parent
  cases parent

theorem child_name_valid (tree : Tree fs) {id : Nat} (found : fs.vnodes id = some node)
    (member : child ∈ node.children) (below : fs.vnodes child = some childNode) :
    ValidName childNode.name :=
  tree.names child childNode below (child_not_root tree found member)

theorem descends_names_valid (tree : Tree fs) (descends : Descends fs top names bottom) :
    ∀ name ∈ names, ValidName name := by
  induction descends with
  | here vnode =>
    intro name impossible
    cases impossible
  | down above member below rest ih =>
    intro name listed
    rcases mem_cons.mp listed with first | later
    · rw [first]
      exact child_name_valid tree above member below
    · exact ih name later

theorem descends_snoc {name : List UInt8} (descends : Descends fs top (names ++ [name]) bottom) :
    ∃ parent node childNode, Descends fs top names parent ∧ fs.vnodes parent = some node ∧
      bottom ∈ node.children ∧ fs.vnodes bottom = some childNode ∧ childNode.name = name := by
  induction names generalizing top with
  | nil =>
    rw [nil_append] at descends
    cases descends with
    | down above member below rest =>
      cases rest
      exact ⟨top, _, _, .here top, above, member, below, rfl⟩
  | cons first others ih =>
    rw [cons_append] at descends
    cases descends with
    | down above member below rest =>
      rcases ih rest with ⟨parent, node, childNode, path, found, last, bottomNode, named⟩
      exact ⟨parent, node, childNode, .down above member below path, found, last, bottomNode, named⟩

/-- One more name at the end. -/
theorem Descends.extend {middle : Nat} (descends : Descends fs top names middle)
    (found : fs.vnodes middle = some node) (member : child ∈ node.children)
    (below : fs.vnodes child = some childNode) :
    Descends fs top (names ++ [childNode.name]) child := by
  induction descends with
  | here vnode => exact .down found member below (.here child)
  | down above inner there rest ih => exact .down above inner there (ih found)

end Descend

section Linked
variable {fs : VFS}

theorem linked_reached (linked : Linked fs) (id : Nat) (node : VNode)
    (found : fs.vnodes id = some node) : ∃ names, Descends fs fs.root names id := by
  -- A parent is older than its child.
  induction id using Nat.strongRecOn generalizing node with
  | ind id ih =>
    cases origin : node.parent with
    | none =>
      rw [linked.orphan id node found origin]
      exact ⟨[], .here fs.root⟩
    | some parent =>
      rcases linked.parents id node parent found origin with ⟨older, above, there, member⟩
      rcases ih parent older above there with ⟨names, descends⟩
      exact ⟨names ++ [node.name], descends.extend there member found⟩

theorem tree_of_linked (linked : Linked fs) (proper : Proper fs) : Tree fs where
  toProper := proper
  rooted := linked.rooted
  reached := linked_reached linked
  children := linked.children

theorem Linked.root_live (linked : Linked fs) : (fs.vnodes fs.root).isSome := by
  rcases linked.rooted with ⟨node, found, _⟩
  rw [found]
  rfl

/-! ## Lookups return -/

def Lands (fs : VFS) (result : Option (Except Errno Nat)) : Prop :=
  ∃ outcome, result = some outcome ∧ ∀ id, outcome = .ok id → (fs.vnodes id).isSome

theorem lands_error (code : Errno) : Lands fs (some (.error code)) :=
  ⟨_, rfl, fun _ impossible => by cases impossible⟩

theorem lands_ok {id : Nat} (live : (fs.vnodes id).isSome) : Lands fs (some (.ok id)) :=
  ⟨_, rfl, fun _ same => by cases same; exact live⟩

theorem find_child_live (name : List UInt8) (nameLen : Nat) {children : List Nat}
    (live : ∀ child ∈ children, (fs.vnodes child).isSome) {found : Option Nat}
    (before : ∀ child, found = some child → (fs.vnodes child).isSome) :
    ∃ last, fs.findChild name nameLen found children = some last ∧
      ∀ child, last = some child → (fs.vnodes child).isSome := by
  induction children generalizing found with
  | nil => exact ⟨found, rfl, before⟩
  | cons first rest ih =>
    have here := live first (by simp)
    rcases Option.isSome_iff_exists.mp here with ⟨node, there⟩
    rw [findChild, there]
    apply ih fun child member => live child (by simp [member])
    intro child same
    split at same
    · rw [← Option.some.inj same]
      exact here
    · exact before child same

variable (linked : Linked fs)
include linked

section
variable {id : Nat} {node : VNode} (found : fs.vnodes id = some node)
include found

theorem lookup_lands (name : List UInt8) (nameLen : Nat) :
    Lands fs (fs.lookup node name nameLen) := by
  unfold lookup
  split
  · exact lands_error .EINVAL
  have live : ∀ child ∈ node.children, (fs.vnodes child).isSome := by
    intro child member
    rcases linked.children id node child found member with ⟨childNode, below, _⟩
    rw [below]
    rfl
  rcases @find_child_live fs name nameLen _ live none nofun with ⟨last, search, landed⟩
  rw [search]
  cases last with
  | none => exact lands_error .ENOENT
  | some child => exact lands_ok (landed child rfl)

theorem lookup_last_lands (path : List UInt8) : Lands fs (fs.lookupLast id node path) := by
  unfold lookupLast
  split
  · exact lands_ok (by rw [found]; rfl)
  split
  · exact lands_error .ENOTDIR
  · exact lookup_lands linked found path path.length

theorem lookup_segment_lands (path : List UInt8) (len : Nat) :
    Lands fs (fs.lookupSegment id node path len) := by
  unfold lookupSegment
  split
  · split
    · exact lands_error .ENOTDIR
    · cases origin : node.parent with
      | none => exact lands_error .ENOENT
      | some parent =>
        rcases linked.parents id node parent found origin with ⟨_, above, there, _⟩
        exact lands_ok (by rw [there]; rfl)
  split
  · exact lands_ok (by rw [found]; rfl)
  split
  · exact lands_error .ENOTDIR
  · exact lookup_lands linked found path len

end

theorem loop_lands (fuel : Nat) (vnode : Nat) (path : List UInt8) (live : (fs.vnodes vnode).isSome)
    (enough : path.length < fuel) :
    Lands fs (loop fs.lookupRound fuel ⟨vnode, path, strchr slash path⟩).join := by
  induction fuel generalizing vnode path with
  | zero => exact absurd enough (Nat.not_lt_zero _)
  | succ fuel ih =>
    rcases Option.isSome_iff_exists.mp live with ⟨node, found⟩
    simp only [loop, lookupRound, found]
    by_cases empty : skipSlash path = []
    · simp only [empty, if_true]
      exact lands_ok live
    simp only [empty, if_false]
    cases next : strchr slash path with
    | none => exact lookup_last_lands linked found _
    | some suffix =>
      rcases strchr_suffix next with ⟨rest, starts, shorter⟩
      rcases lookup_segment_lands linked found (skipSlash path)
        (distance (skipSlash path) suffix) with ⟨outcome, step, landed⟩
      simp only [step]
      cases outcome with
      | error code => exact lands_error code
      | ok child =>
        have advanced : PathCursor.advance child suffix = ⟨child, rest, strchr slash rest⟩ := by
          rw [starts]
          simp only [PathCursor.advance, skipSlash, if_true]
        dsimp only
        rw [advanced]
        exact ih child rest (landed child rfl) (by omega)

theorem lookup_path_lands (path : List UInt8) (cwd : Option Nat)
    (live : ∀ id, cwd = some id → (fs.vnodes id).isSome) : Lands fs (fs.lookupPath path cwd) := by
  unfold lookupPath
  split
  · exact lands_ok linked.root_live
  split
  · split
    · exact lands_ok linked.root_live
    · exact loop_lands linked _ _ _ linked.root_live (Nat.lt_succ_self _)
  · split
    · exact lands_error .EINVAL
    · rename_i vnode
      exact loop_lands linked _ _ _ (live vnode rfl) (Nat.lt_succ_self _)

end Linked

/-! ## Creation -/

/-- The system with one more vnode, the last child of `parent`. -/
def withChild (fs : VFS) (parent : Nat) (node : VNode) (name : List UInt8) (attr : VAttr) : VFS :=
  { (fs.setVNode fs.next (some (newVNode attr parent name))).setVNode parent
      (some { node with
        children := node.children ++ [fs.next]
        refCount := node.refCount + 1 }) with next := fs.next + 1 }

/-- What a call that creates a vnode can do. -/
theorem create_node_cases {fs after : VFS} {path name : List UInt8} {cwd : Option Nat}
    {attr : VAttr} {result : Except Errno Unit}
    (call : fs.createNode path name cwd attr = some (after, result)) :
    (after = fs ∧ result ≠ .ok ()) ∨
    (result = .ok () ∧ name ≠ [] ∧ name.length ≤ NAME_MAX ∧
      ∃ parent node, fs.lookupPath path cwd = some (.ok parent) ∧
        fs.vnodes parent = some node ∧ after = fs.withChild parent node name attr) := by
  unfold createNode at call
  split at call
  · cases call
  · cases call
    exact .inl ⟨rfl, nofun⟩
  rename_i parent looked
  split at call
  · cases call
    exact .inl ⟨rfl, nofun⟩
  rename_i short
  unfold create at call
  split at call
  · cases call
    exact .inl ⟨rfl, nofun⟩
  · rename_i nonempty
    split at call
    · cases call
    · rename_i node found
      cases call
      exact .inr ⟨rfl, nonempty, Nat.le_of_not_lt short, parent, node, looked, found, rfl⟩

section Child
variable {fs : VFS} {parent : Nat} {node : VNode} (name : List UInt8) (attr : VAttr) {id : Nat}

theorem with_child_other (notNew : id ≠ fs.next) (notParent : id ≠ parent) :
    (fs.withChild parent node name attr).vnodes id = fs.vnodes id := by
  simp [withChild, setVNode, notNew, notParent]

theorem with_child_parent : (fs.withChild parent node name attr).vnodes parent =
    some { node with
      children := node.children ++ [fs.next]
      refCount := node.refCount + 1 } := by
  simp [withChild, setVNode]

theorem with_child_new (notParent : fs.next ≠ parent) :
    (fs.withChild parent node name attr).vnodes fs.next = some (newVNode attr parent name) := by
  simp [withChild, setVNode, notParent]

variable {other : VNode}

/-- A vnode afterwards is the new one, the parent or one that was not touched. -/
theorem with_child_cases (older : parent < fs.next)
    (found : (fs.withChild parent node name attr).vnodes id = some other) :
    (id = fs.next ∧ other = newVNode attr parent name) ∨
    (id = parent ∧ other = { node with
      children := node.children ++ [fs.next]
      refCount := node.refCount + 1 }) ∨
    (id ≠ fs.next ∧ id ≠ parent ∧ fs.vnodes id = some other) := by
  by_cases isNew : id = fs.next
  · rw [isNew, with_child_new name attr (ne_of_gt older)] at found
    exact .inl ⟨isNew, (Option.some.inj found).symm⟩
  by_cases isParent : id = parent
  · rw [isParent, with_child_parent] at found
    exact .inr (.inl ⟨isParent, (Option.some.inj found).symm⟩)
  · rw [with_child_other name attr isNew isParent] at found
    exact .inr (.inr ⟨isNew, isParent, found⟩)

/-- A vnode keeps its name, its attributes and its children. -/
theorem with_child_keeps (there : fs.vnodes parent = some node) (found : fs.vnodes id = some other)
    (notNew : id ≠ fs.next) :
    ∃ later, (fs.withChild parent node name attr).vnodes id = some later ∧
      later.name = other.name ∧ later.attr = other.attr ∧ later.parent = other.parent ∧
      later.file = other.file ∧
      (later.children = other.children ∨
        id = parent ∧ later.children = other.children ++ [fs.next]) := by
  by_cases isParent : id = parent
  · rw [isParent, there] at found
    rw [isParent]
    exact ⟨_, with_child_parent name attr, by rw [← Option.some.inj found],
      by rw [← Option.some.inj found], by rw [← Option.some.inj found],
      by rw [← Option.some.inj found], .inr ⟨rfl, by rw [← Option.some.inj found]⟩⟩
  · exact ⟨other, by rw [with_child_other name attr notNew isParent]; exact found, rfl, rfl, rfl,
      rfl, .inl rfl⟩

variable (linked : Linked fs) (there : fs.vnodes parent = some node)
include linked there

/-- The links stay, whatever the name is and whatever the parent is. -/
theorem linked_with_child : Linked (fs.withChild parent node name attr) := by
  have older : parent < fs.next := linked.allocated parent node there
  have notNew : ∀ {id : Nat} {other : VNode}, fs.vnodes id = some other → id ≠ fs.next :=
    fun found => ne_of_lt (linked.allocated _ _ found)
  have oldChild : ∀ {id child : Nat} {other : VNode}, fs.vnodes id = some other →
      child ∈ other.children → ∃ childNode,
        (fs.withChild parent node name attr).vnodes child = some childNode ∧
          childNode.parent = some id := by
    intro id child other found member
    rcases linked.children id other child found member with ⟨childNode, below, origin⟩
    rcases with_child_keeps name attr there below (notNew below) with
      ⟨later, now, _, _, sameParent, _⟩
    exact ⟨later, now, sameParent.trans origin⟩
  have oldParent : ∀ {id above : Nat} {other : VNode}, fs.vnodes id = some other →
      other.parent = some above → above < id ∧ ∃ aboveNode,
        (fs.withChild parent node name attr).vnodes above = some aboveNode ∧
          id ∈ aboveNode.children := by
    intro id above other found origin
    rcases linked.parents id other above found origin with ⟨before, aboveNode, up, member⟩
    rcases with_child_keeps name attr there up (notNew up) with ⟨later, now, _, _, _, _, grown⟩
    refine ⟨before, later, now, ?_⟩
    rcases grown with same | ⟨_, longer⟩
    · rw [same]
      exact member
    · rw [longer]
      exact mem_append_left _ member
  constructor
  · intro id other found
    rcases with_child_cases name attr older found with ⟨isNew, _⟩ | ⟨isParent, _⟩ | ⟨_, _, old⟩
    · rw [isNew]
      exact Nat.lt_succ_self _
    · rw [isParent]
      exact Nat.lt_succ_of_lt older
    · exact Nat.lt_succ_of_lt (linked.allocated id other old)
  · rcases linked.rooted with ⟨rootNode, top, noParent⟩
    rcases with_child_keeps name attr there top (notNew top) with ⟨later, now, _, _, sameParent, _⟩
    exact ⟨later, now, sameParent.trans noParent⟩
  · intro id other found noParent
    rcases with_child_cases name attr older found with ⟨_, new⟩ | ⟨isParent, grown⟩ | ⟨_, _, old⟩
    · rw [new] at noParent
      cases noParent
    · rw [grown] at noParent
      rw [isParent]
      exact linked.orphan parent node there noParent
    · exact linked.orphan id other old noParent
  · intro id other child found member
    rcases with_child_cases name attr older found with ⟨_, new⟩ | ⟨isParent, grown⟩ | ⟨_, _, old⟩
    · rw [new] at member
      cases member
    · rw [grown] at member
      rw [isParent]
      rcases mem_append.mp member with before | last
      · exact oldChild there before
      · rw [mem_singleton.mp last]
        exact ⟨_, with_child_new name attr (ne_of_gt older), rfl⟩
    · exact oldChild old member
  · intro id other above found origin
    rcases with_child_cases name attr older found with ⟨isNew, new⟩ | ⟨isParent, grown⟩ | ⟨_, _, old⟩
    · rw [new] at origin
      have same : parent = above := Option.some.inj origin
      rw [isNew, ← same]
      exact ⟨older, _, with_child_parent name attr, mem_append_right _ (by simp)⟩
    · rw [grown] at origin
      rw [isParent]
      exact oldParent there origin
    · exact oldParent old origin

/-- A name that may be added to a directory. -/
structure Suitable (fs : VFS) (node : VNode) (name : List UInt8) : Prop where
  directory : node.attr.type = .DIR
  different : ∀ child ∈ node.children, ∀ childNode, fs.vnodes child = some childNode →
    childNode.name ≠ name
  valid : ValidName name

/-- The name of a vnode afterwards: it had it before or is new. -/
theorem with_child_name (found : (fs.withChild parent node name attr).vnodes id = some other) :
    (id = fs.next ∧ other.name = name) ∨
      ∃ before, fs.vnodes id = some before ∧ before.name = other.name := by
  rcases with_child_cases name attr (linked.allocated parent node there) found with
    ⟨isNew, new⟩ | ⟨isParent, grown⟩ | ⟨_, _, old⟩
  · rw [new]
    exact .inl ⟨isNew, rfl⟩
  · rw [isParent, grown]
    exact .inr ⟨node, there, rfl⟩
  · exact .inr ⟨other, old, rfl⟩

theorem proper_before (proper : Proper (fs.withChild parent node name attr)) : Proper fs := by
  have kept : ∀ {id : Nat} {other : VNode}, fs.vnodes id = some other → ∃ later,
      (fs.withChild parent node name attr).vnodes id = some later ∧ later.name = other.name ∧
        later.attr = other.attr ∧ ∀ child ∈ other.children, child ∈ later.children := by
    intro id other found
    rcases with_child_keeps name attr there found (ne_of_lt (linked.allocated id other found))
      with ⟨later, now, sameName, sameAttr, _, _, same | ⟨_, longer⟩⟩
    · exact ⟨later, now, sameName, sameAttr, fun child member => by rw [same]; exact member⟩
    · exact ⟨later, now, sameName, sameAttr,
        fun child member => by rw [longer]; exact mem_append_left _ member⟩
  constructor
  · intro id other left right leftNode rightNode found leftIn rightIn leftThere rightThere sameName
    rcases kept found with ⟨later, now, _, _, more⟩
    rcases kept leftThere with ⟨leftLater, leftNow, leftName, _⟩
    rcases kept rightThere with ⟨rightLater, rightNow, rightName, _⟩
    exact proper.unique id later left right leftLater rightLater now (more left leftIn)
      (more right rightIn) leftNow rightNow (by rw [leftName, rightName, sameName])
  · intro id other found notRoot
    rcases kept found with ⟨later, now, sameName, _⟩
    rw [← sameName]
    exact proper.names id later now notRoot
  · intro id other found inner
    rcases kept found with ⟨later, now, _, sameAttr, more⟩
    rw [← sameAttr]
    rcases exists_mem_of_ne_nil _ inner with ⟨child, member⟩
    exact proper.directories id later now (ne_nil_of_mem (more child member))

theorem suitable_before (proper : Proper (fs.withChild parent node name attr)) :
    Suitable fs node name := by
  have older : parent < fs.next := linked.allocated parent node there
  have new : (fs.withChild parent node name attr).vnodes fs.next =
      some (newVNode attr parent name) := with_child_new name attr (ne_of_gt older)
  have grown : (fs.withChild parent node name attr).vnodes parent = some _ :=
    with_child_parent name attr
  have notRoot : fs.next ≠ fs.root := by
    rcases linked.rooted with ⟨rootNode, top, _⟩
    exact ne_of_gt (linked.allocated _ _ top)
  constructor
  · have inner := proper.directories parent _ grown
    exact inner (by simp)
  · intro child member childNode below same
    have notNew : child ≠ fs.next := ne_of_lt (linked.allocated child childNode below)
    rcases with_child_keeps name attr there below notNew with ⟨later, now, sameName, _⟩
    exact notNew (proper.unique parent _ child fs.next later _ grown (by simp [member]) (by simp)
      now new (sameName.trans same))
  · exact proper.names fs.next _ new notRoot

theorem proper_after (proper : Proper fs) (suitable : Suitable fs node name) :
    Proper (fs.withChild parent node name attr) := by
  have older : parent < fs.next := linked.allocated parent node there
  have oldName : ∀ {id : Nat} {other : VNode} {above : Nat} {aboveNode : VNode},
      fs.vnodes above = some aboveNode → id ∈ aboveNode.children →
      (fs.withChild parent node name attr).vnodes id = some other →
      ∃ before, fs.vnodes id = some before ∧ before.name = other.name := by
    intro id other above aboveNode up member found
    rcases linked.children above aboveNode id up member with ⟨childNode, below, _⟩
    have notNew : id ≠ fs.next := ne_of_lt (linked.allocated id childNode below)
    rcases with_child_name name attr linked there found with ⟨isNew, _⟩ | before
    · exact absurd isNew notNew
    · exact before
  have oldUnique : ∀ {id : Nat} {other : VNode}, fs.vnodes id = some other →
      ∀ {left right : Nat} {leftNode rightNode : VNode}, left ∈ other.children →
      right ∈ other.children →
      (fs.withChild parent node name attr).vnodes left = some leftNode →
      (fs.withChild parent node name attr).vnodes right = some rightNode →
      leftNode.name = rightNode.name → left = right := by
    intro id other found left right leftNode rightNode leftIn rightIn leftThere rightThere same
    rcases oldName found leftIn leftThere with ⟨leftBefore, leftFound, leftName⟩
    rcases oldName found rightIn rightThere with ⟨rightBefore, rightFound, rightName⟩
    exact proper.unique id other left right leftBefore rightBefore found leftIn rightIn leftFound
      rightFound (by rw [leftName, rightName, same])
  have newApart : ∀ {child : Nat} {childNode newNode : VNode}, child ∈ node.children →
      (fs.withChild parent node name attr).vnodes child = some childNode →
      (fs.withChild parent node name attr).vnodes fs.next = some newNode →
      childNode.name ≠ newNode.name := by
    intro child childNode newNode member below new
    rcases oldName there member below with ⟨before, found, sameName⟩
    rw [with_child_new name attr (ne_of_gt older)] at new
    rw [← sameName, ← Option.some.inj new]
    exact suitable.different child member before found
  constructor
  · intro id other left right leftNode rightNode found leftIn rightIn leftThere rightThere same
    rcases with_child_cases name attr older found with ⟨_, new⟩ | ⟨_, grown⟩ | ⟨_, _, old⟩
    · rw [new] at leftIn
      cases leftIn
    · rw [grown] at leftIn rightIn
      rcases mem_append.mp leftIn with leftOld | leftNew <;>
        rcases mem_append.mp rightIn with rightOld | rightNew
      · exact oldUnique there leftOld rightOld leftThere rightThere same
      · rw [mem_singleton.mp rightNew] at rightThere
        exact absurd same (newApart leftOld leftThere rightThere)
      · rw [mem_singleton.mp leftNew] at leftThere
        exact absurd same.symm (newApart rightOld rightThere leftThere)
      · rw [mem_singleton.mp leftNew, mem_singleton.mp rightNew]
    · exact oldUnique old leftIn rightIn leftThere rightThere same
  · intro id other found notRoot
    rcases with_child_name name attr linked there found with ⟨_, isName⟩ | ⟨before, old, sameName⟩
    · rw [isName]
      exact suitable.valid
    · rw [← sameName]
      exact proper.names id before old notRoot
  · intro id other found inner
    rcases with_child_cases name attr older found with ⟨_, new⟩ | ⟨_, grown⟩ | ⟨_, _, old⟩
    · rw [new] at inner
      exact absurd rfl inner
    · rw [grown]
      exact suitable.directory
    · exact proper.directories id other old inner

end Child

/-! ## Paths after a creation -/

section Descendants
variable {fs : VFS} {parent : Nat} {node : VNode} (name : List UInt8) (attr : VAttr)
  {names : List (List UInt8)} {bottom : Nat}

theorem descends_with_child (linked : Linked fs) (there : fs.vnodes parent = some node) {top : Nat}
    (descends : Descends fs top names bottom) :
    Descends (fs.withChild parent node name attr) top names bottom := by
  induction descends with
  | here vnode => exact .here vnode
  | @down top child bottom topNode childNode names above member below rest ih =>
    rcases with_child_keeps name attr there above
      (ne_of_lt (linked.allocated _ _ above)) with ⟨later, now, _, _, _, _, grown⟩
    rcases with_child_keeps name attr there below
      (ne_of_lt (linked.allocated _ _ below)) with ⟨childLater, childNow, sameName, _⟩
    rw [← sameName]
    refine .down now ?_ childNow ih
    rcases grown with same | ⟨_, longer⟩
    · rw [same]
      exact member
    · rw [longer]
      exact mem_append_left _ member

theorem descends_new_child (linked : Linked fs) (there : fs.vnodes parent = some node)
    (descends : Descends fs fs.root names parent) :
    Descends (fs.withChild parent node name attr) fs.root (names ++ [name]) fs.next := by
  have older : parent < fs.next := linked.allocated parent node there
  have new : (fs.withChild parent node name attr).vnodes fs.next =
      some (newVNode attr parent name) := with_child_new name attr (ne_of_gt older)
  exact (descends_with_child name attr linked there descends).extend (with_child_parent name attr)
    (by simp) new

theorem descends_with_child_cases (linked : Linked fs) (there : fs.vnodes parent = some node)
    {top : Nat} (old : top ≠ fs.next)
    (descends : Descends (fs.withChild parent node name attr) top names bottom) :
    Descends fs top names bottom ∨
      bottom = fs.next ∧ ∃ front, Descends fs top front parent ∧ names = front ++ [name] := by
  have older : parent < fs.next := linked.allocated parent node there
  induction descends with
  | here vnode => exact .inl (.here vnode)
  | @down top child bottom topNode childNode names above member below rest ih =>
    by_cases isNew : child = fs.next
    · -- the new vnode has no children, and only its parent lists it
      rw [isNew, with_child_new name attr (ne_of_gt older)] at below
      cases below
      have bottomNew : bottom = fs.next ∧ names = [] := by
        cases rest with
        | here => exact ⟨isNew, rfl⟩
        | down again impossible _ _ =>
          rw [isNew, with_child_new name attr (ne_of_gt older)] at again
          cases again
          cases impossible
      have isParent : top = parent := by
        rcases (linked_with_child name attr linked there).children top topNode child above member
          with ⟨again, found, origin⟩
        rw [isNew, with_child_new name attr (ne_of_gt older)] at found
        cases found
        exact (Option.some.inj origin).symm
      rw [isParent, bottomNew.2]
      exact .inr ⟨bottomNew.1, [], .here parent, rfl⟩
    · have oldAbove : ∃ before, fs.vnodes top = some before ∧ child ∈ before.children := by
        rcases with_child_cases name attr older above with ⟨isNext, _⟩ | ⟨isParent, grown⟩ |
          ⟨_, _, same⟩
        · exact absurd isNext old
        · rw [grown] at member
          rw [isParent]
          rcases mem_append.mp member with before | last
          · exact ⟨node, there, before⟩
          · exact absurd (mem_singleton.mp last) isNew
        · exact ⟨topNode, same, member⟩
      rcases oldAbove with ⟨before, found, listed⟩
      rcases with_child_name name attr linked there below with ⟨again, _⟩ |
        ⟨childBefore, was, sameName⟩
      · exact absurd again isNew
      · rw [← sameName]
        rcases ih isNew with further | ⟨isBottom, front, path, same⟩
        · exact .inl (.down found listed was further)
        · exact .inr ⟨isBottom, childBefore.name :: front, .down found listed was path,
            by rw [same]; rfl⟩

end Descendants

theorem descends_unique {fs : VFS} (tree : Tree fs) {bottom : Nat} {left right : List (List UInt8)}
    (first : Descends fs fs.root left bottom) (second : Descends fs fs.root right bottom) :
    left = right := by
  have noneAtRoot : ∀ {names : List (List UInt8)} {name : List UInt8},
      ¬ Descends fs fs.root (names ++ [name]) fs.root := by
    intro names name descends
    rcases descends_snoc descends with ⟨parent, node, _, _, found, member, _⟩
    exact child_not_root tree found member rfl
  induction left using List.reverseRecOn generalizing bottom right with
  | nil =>
    cases first
    cases right using List.reverseRecOn with
    | nil => rfl
    | append_singleton names name => exact absurd second noneAtRoot
  | append_singleton names name ih =>
    cases right using List.reverseRecOn with
    | nil =>
      cases second
      exact absurd first noneAtRoot
    | append_singleton others other =>
      rcases descends_snoc first with ⟨parent, node, child, up, found, member, below, named⟩
      rcases descends_snoc second with
        ⟨otherParent, otherNode, otherChild, otherUp, otherFound, otherMember, otherBelow,
          otherNamed⟩
      rw [below] at otherBelow
      cases otherBelow
      rcases tree.children parent node bottom found member with ⟨again, there, origin⟩
      rcases tree.children otherParent otherNode bottom otherFound otherMember with
        ⟨otherAgain, otherThere, otherOrigin⟩
      rw [there] at otherThere
      cases otherThere
      rw [origin] at otherOrigin
      cases otherOrigin
      rw [ih up otherUp, ← named, ← otherNamed]

/-! ## Other fields of a vnode -/

/-- What the tree depends on is the same. -/
structure SameLinks (before after : VNode) : Prop where
  parent : after.parent = before.parent
  name : after.name = before.name
  children : after.children = before.children
  type : after.attr.type = before.attr.type

section Replace
variable {fs : VFS} {id : Nat} {node later : VNode} {other : Nat}

section
variable (there : fs.vnodes id = some node)
include there

theorem replace_cases (same : SameLinks node later) {found : VNode}
    (now : (fs.setVNode id (some later)).vnodes other = some found) :
    ∃ before, fs.vnodes other = some before ∧ SameLinks before found ∧
      (other = id ∧ before = node ∧ found = later ∨ other ≠ id ∧ found = before) := by
  by_cases here : other = id
  · simp only [setVNode, here, update_self] at now
    cases now
    rw [here]
    exact ⟨node, there, same, .inl ⟨rfl, rfl, rfl⟩⟩
  · simp only [setVNode, update_of_ne here] at now
    exact ⟨found, now, ⟨rfl, rfl, rfl, rfl⟩, .inr ⟨here, rfl⟩⟩

theorem replace_live (same : SameLinks node later) {before : VNode}
    (found : fs.vnodes other = some before) :
    ∃ now, (fs.setVNode id (some later)).vnodes other = some now ∧ SameLinks before now := by
  by_cases here : other = id
  · rw [here, there] at found
    cases found
    exact ⟨later, by simp [setVNode, here], same⟩
  · exact ⟨before, by simp [setVNode, here, found], rfl, rfl, rfl, rfl⟩

theorem descends_replace_iff (same : SameLinks node later) {top bottom : Nat}
    {names : List (List UInt8)} :
    Descends (fs.setVNode id (some later)) top names bottom ↔ Descends fs top names bottom := by
  constructor
  · intro descends
    induction descends with
    | here vnode => exact .here vnode
    | down above member below rest ih =>
      rcases replace_cases there same above with ⟨before, old, links, _⟩
      rcases replace_cases there same below with ⟨childBefore, childOld, childLinks, _⟩
      rw [links.children] at member
      rw [childLinks.name]
      exact .down old member childOld ih
  · intro descends
    induction descends with
    | here vnode => exact .here vnode
    | down above member below rest ih =>
      rcases replace_live there same above with ⟨topLater, now, links⟩
      rcases replace_live there same below with ⟨childLater, childNow, childLinks⟩
      rw [← childLinks.name]
      exact .down now (by rw [links.children]; exact member) childNow ih

end

theorem linked_replace (linked : Linked fs) (there : fs.vnodes id = some node)
    (same : SameLinks node later) : Linked (fs.setVNode id (some later)) := by
  constructor
  · intro other found now
    rcases replace_cases there same now with ⟨before, old, _⟩
    exact linked.allocated other before old
  · rcases linked.rooted with ⟨rootNode, top, noParent⟩
    rcases replace_live there same top with ⟨rootLater, now, links⟩
    exact ⟨rootLater, now, links.parent.trans noParent⟩
  · intro other found now noParent
    rcases replace_cases there same now with ⟨before, old, links, _⟩
    exact linked.orphan other before old (links.parent.symm.trans noParent)
  · intro other found child now member
    rcases replace_cases there same now with ⟨before, old, links, _⟩
    rw [links.children] at member
    rcases linked.children other before child old member with ⟨childNode, below, origin⟩
    rcases replace_live there same below with ⟨childLater, childNow, childLinks⟩
    exact ⟨childLater, childNow, childLinks.parent.trans origin⟩
  · intro other found parent now origin
    rcases replace_cases there same now with ⟨before, old, links, _⟩
    rcases linked.parents other before parent old (links.parent.symm.trans origin) with
      ⟨older, above, up, member⟩
    rcases replace_live there same up with ⟨aboveLater, aboveNow, aboveLinks⟩
    exact ⟨older, aboveLater, aboveNow, by rw [aboveLinks.children]; exact member⟩

theorem proper_replace (proper : Proper fs) (there : fs.vnodes id = some node)
    (same : SameLinks node later) : Proper (fs.setVNode id (some later)) := by
  constructor
  · intro other found left right leftNode rightNode now leftIn rightIn leftNow rightNow sameName
    rcases replace_cases there same now with ⟨before, old, links, _⟩
    rcases replace_cases there same leftNow with ⟨leftBefore, leftOld, leftLinks, _⟩
    rcases replace_cases there same rightNow with ⟨rightBefore, rightOld, rightLinks, _⟩
    rw [links.children] at leftIn rightIn
    rw [leftLinks.name, rightLinks.name] at sameName
    exact proper.unique other before left right leftBefore rightBefore old leftIn rightIn leftOld
      rightOld sameName
  · intro other found now notRoot
    rcases replace_cases there same now with ⟨before, old, links, _⟩
    rw [links.name]
    exact proper.names other before old notRoot
  · intro other found now inner
    rcases replace_cases there same now with ⟨before, old, links, _⟩
    rw [links.children] at inner
    rw [links.type]
    exact proper.directories other before old inner

end Replace

/-! ## The empty system -/

theorem mounted_vnode {cred : Credential} {id : Nat} {node : VNode}
    (found : (mounted cred).vnodes id = some node) :
    id = 0 ∧ node.parent = none ∧ node.children = [] ∧ node.name = [] := by
  simp only [mounted, update_apply] at found
  split at found
  · rename_i isRoot
    cases found
    exact ⟨isRoot, rfl, rfl, rfl⟩
  · cases found

theorem mounted_linked (cred : Credential) : Linked (mounted cred) := by
  constructor
  · intro id node found
    rw [(mounted_vnode found).1]
    exact Nat.one_pos
  · exact ⟨_, rfl, rfl⟩
  · intro id node found _
    exact (mounted_vnode found).1
  · intro id node child found member
    rw [(mounted_vnode found).2.2.1] at member
    cases member
  · intro id node parent found origin
    rw [(mounted_vnode found).2.1] at origin
    cases origin

theorem mounted_proper (cred : Credential) : Proper (mounted cred) := by
  constructor
  · intro id node left right leftNode rightNode found leftIn
    rw [(mounted_vnode found).2.2.1] at leftIn
    cases leftIn
  · intro id node found notRoot
    exact absurd (mounted_vnode found).1 notRoot
  · intro id node found inner
    exact absurd (mounted_vnode found).2.2.1 inner

end VFS
end FrostyKernel.FileSystem
