import FrostyKernel.Lib.LinkedQueue
import FrostyKernel.Lib.Run
import FrostyKernel.Lib.Word

/-!
# Simple linked lists

`SimpleLinkedList` and the functions on nodes that it calls. A node is known by its address, and
an element is a pointer, 0 being the null pointer. An operation has no result when it reads
through a null pointer, fails an assertion, or never returns. A freed node keeps its contents.
-/

namespace FrostyKernel.LinkedList

open Function List Option Word

/-- The list with the memory of its nodes. `used` are the addresses of the nodes in use. -/
structure SimpleLinkedList where
  count : Nat
  start : Option Nat
  links : Nat → Links Nat
  data : Nat → Nat
  used : List Nat

namespace SimpleLinkedList

section Operations

def empty : SimpleLinkedList := ⟨0, none, fun _ => .unlinked, fun _ => 0, []⟩

variable (list : SimpleLinkedList) (index obj : Nat)

/-- The nodes that a loop over the next pointers meets: more than there are when it never ends. -/
def walk : List Nat := follow list.links (list.used.length + 1) list.start

def last : Option Nat :=
  if list.walk.length ≤ list.used.length then list.walk.getLast? else none

def findNode : Option (Option Nat) :=
  match list.walk.find? (list.data · = obj) with
  | some node => some (some node)
  | none => if list.walk.length ≤ list.used.length then some none else none

/-- `newNode`, with the writes that put the node between two others. -/
def link (before : Option Nat) (node : Nat) (after : Option Nat) : SimpleLinkedList :=
  { list with
    count := add64 list.count 1
    links := update (setPrevious (setNext list.links (some node) before) (some node) after) node
      ⟨before, after⟩
    data := update list.data node obj
    used := node :: list.used }

/-- `node` is what the allocator returns. -/
def insert (node : Option Nat) : Option SimpleLinkedList :=
  match list.start, node with
  | none, some node => some { list.link obj none node none with start := some node }
  | none, none => some { list with count := add64 list.count 1 }
  | some _, some node => list.last.map fun current => list.link obj (some current) node none
  | some _, none => none

/-- The loop of `insertAt`, with the node before the current one. -/
def advance : Nat → Option Nat → Option Nat → Option Nat
  | 0, _, temp => temp
  | _ + 1, previous, none => previous
  | steps + 1, _, some temp => advance steps (some temp) (list.links temp).next

def insertAt (node : Option Nat) : Option SimpleLinkedList :=
  if list.count ≤ index then some list
  else if index = 0 then
    node.map fun node => { list.link obj none node list.start with start := some node }
  else
    match list.advance index none list.start, node with
    | some temp, some node => some (list.link obj (some temp) node (list.links temp).next)
    | some _, none => none
    | none, some node => some { list.link obj none node none with start := some node }
    | none, none => some { list with start := none, count := add64 list.count 1 }

def get : Nat :=
  if list.count ≤ index then 0
  else ((follow list.links (index + 1) list.start)[index]?.map list.data).getD 0

def getNext : Option Nat :=
  (list.findNode obj).map fun found =>
    ((found.bind fun node => (list.links node).next).map list.data).getD 0

def getIndex : Nat :=
  ((follow list.links list.count list.start).findIdx? (list.data · = obj)).getD (2 ^ 64 - 1)

def getHead : Nat := (list.start.map list.data).getD 0

def deleteNode : Option SimpleLinkedList :=
  match list.start with
  | none => some list
  | some temp =>
    if list.data temp = obj then
      let head := (list.links temp).next
      let cleared := setPrevious list.links none head
      some { list with
        start := head
        links := setPrevious cleared head (head.bind fun first => (cleared first).next)
        used := list.used.erase temp }
    else
      (list.findNode obj).map fun
      | none => list
      | some temp =>
        let ⟨previous, next⟩ := list.links temp
        { list with
          links := setPrevious (setNext list.links next previous) previous next
          used := list.used.erase temp }

def remove : Option SimpleLinkedList :=
  (list.deleteNode obj).map fun deleted => { deleted with
    count := if deleted.count = 0 then 2 ^ 64 - 1 else deleted.count - 1 }

def removeAt : Option SimpleLinkedList := list.remove (list.get index)

def rotateLeft : Option SimpleLinkedList :=
  if list.count < 2 then some list
  else
    match list.start, list.last with
    | some first, some last =>
      let joined :=
        setPrevious (setNext list.links (some first) (some last)) (some last) (some first)
      (joined first).next.map fun second =>
        let cut := setPrevious joined none (some second)
        { list with start := some second, links := setNext cut none (cut last).next }
    | _, _ => none

def rotateRight : Option SimpleLinkedList :=
  if list.count < 2 then some list
  else
    match list.start, list.last with
    | some first, some last =>
      let joined :=
        setNext (setPrevious list.links (some last) (some first)) (some first) (some last)
      some { list with start := some last, links := setPrevious joined none (some last) }
    | _, _ => none

end Operations

inductive Op
  | insert (obj : Nat) (node : Option Nat)
  | insertAt (index obj : Nat) (node : Option Nat)
  | remove (obj : Nat)
  | removeAt (index : Nat)
  | rotateLeft
  | rotateRight

/-- A pointer that is not null. -/
def IsAddress (node : Nat) : Prop := 0 < node ∧ node < 2 ^ 64

instance : DecidablePred IsAddress := fun _ => instDecidableAnd

section
variable (list : SimpleLinkedList) (elements : List Nat)

def Op.run : Op → Option SimpleLinkedList
  | .insert obj node => list.insert obj node
  | .insertAt index obj node => list.insertAt index obj node
  | .remove obj => list.remove obj
  | .removeAt index => list.removeAt index
  | .rotateLeft => list.rotateLeft
  | .rotateRight => list.rotateRight

/-- A node that the allocator returns is not null and not in use. -/
def Op.Fresh : Op → Prop
  | .insert _ (some node) | .insertAt _ _ (some node) => IsAddress node ∧ node ∉ list.used
  | _ => True

/-- The operations on a sequence. -/
def Op.spec : Op → List Nat
  | .insert obj _ => elements ++ [obj]
  | .insertAt index obj _ => elements.insertIdx index obj
  | .remove obj => elements.erase obj
  | .removeAt index => elements.eraseIdx index
  | .rotateLeft => elements.rotate 1
  | .rotateRight => elements.rotate (elements.length - 1)

/-- The calls that do to the sequence what they should. -/
def Op.Right : Op → Prop
  | .insert _ node => node.isSome
  | .insertAt index _ node =>
    elements.length < index ∨ index = 0 ∧ elements ≠ [] ∧ node.isSome
  | .remove obj => obj ∈ elements
  | .removeAt index => index < elements.length ∧
      elements.erase (elements.getD index 0) = elements.eraseIdx index
  | .rotateLeft => True
  | .rotateRight => elements.length < 2

/-- The nodes are linked in both directions and end, and they carry the elements. -/
structure Contains (nodes elements : List Nat) : Prop where
  start : list.start = nodes.head?
  linked : Linked list.links none nodes none
  distinct : nodes.Nodup
  addresses : ∀ node ∈ nodes, IsAddress node
  used : nodes ⊆ list.used
  data : nodes.map list.data = elements
  count : list.count = elements.length

/-- The functions that only read give the answers of the sequence. -/
structure Answers : Prop where
  get : ∀ index, list.get index = elements.getD index 0
  getNext : ∀ obj, list.getNext obj = some (((elements.dropWhile (· ≠ obj)).drop 1).headD 0)
  getIndex : ∀ obj, list.getIndex obj = (elements.findIdx? (· = obj)).getD (2 ^ 64 - 1)
  getHead : list.getHead = elements.headD 0

end

variable {list : SimpleLinkedList} {nodes elements left right : List Nat}

section Contained
variable (contains : Contains list nodes elements)
include contains

theorem Contains.walks : list.walk = nodes ∧ nodes.length ≤ list.used.length := by
  have short := (contains.distinct.subperm contains.used).length_le
  rw [walk, contains.start, follow_linked contains.linked, take_of_length_le (by omega)]
  exact ⟨rfl, short⟩

theorem Contains.last : list.last = nodes.getLast? := by
  rw [SimpleLinkedList.last, contains.walks.1, if_pos contains.walks.2]

theorem Contains.finds (obj : Nat) :
    list.findNode obj = some (nodes.find? (list.data · = obj)) := by
  unfold findNode
  rw [contains.walks.1, if_pos contains.walks.2]
  split <;> simp [*]

theorem Contains.get (index : Nat) : list.get index = elements.getD index 0 := by
  unfold SimpleLinkedList.get
  rw [contains.count, contains.start, follow_linked contains.linked]
  split_ifs with beyond
  · simp [beyond]
  · simp [← contains.data]

omit contains in
theorem next_linked {previous : Option Nat} (linked : Linked list.links previous nodes none)
    (obj : Nat) :
    ((nodes.find? (list.data · = obj)).bind fun node => (list.links node).next).map list.data =
      (((nodes.map list.data).dropWhile (· ≠ obj)).drop 1).head? := by
  induction nodes generalizing previous with
  | nil => rfl
  | cons node rest ih =>
    by_cases same : list.data node = obj
    · simp [same, linked.1]
    · simpa [same] using ih linked.2

theorem Contains.answers : Answers list elements := by
  constructor
  · exact contains.get
  · intro obj
    rw [getNext, contains.finds, map_some, next_linked contains.linked, contains.data,
      headD_eq_head?_getD]
  · intro obj
    rw [getIndex, contains.count, contains.start, follow_linked contains.linked, ← contains.data,
      length_map, take_length, findIdx?_map]
    rfl
  · rw [getHead, contains.start, ← head?_map, contains.data, headD_eq_head?_getD]

/-- The first node with the element. -/
theorem Contains.cases_of_mem {obj : Nat} (member : obj ∈ elements) :
    ∃ left node right, nodes = left ++ node :: right ∧ list.data node = obj ∧
      list.findNode obj = some (some node) ∧ obj ∉ left.map list.data := by
  obtain ⟨other, inside, same⟩ := mem_map.mp (contains.data ▸ member)
  obtain ⟨node, found⟩ : ∃ node, nodes.find? (list.data · = obj) = some node := by
    rw [← isSome_iff_exists, find?_isSome]
    exact ⟨other, inside, by simpa using same⟩
  obtain ⟨here, left, right, cut, before⟩ := find?_eq_some_iff_append.mp found
  refine ⟨left, node, right, cut, by simpa using here, found ▸ contains.finds obj, ?_⟩
  intro earlier
  obtain ⟨first, inLeft, equal⟩ := mem_map.mp earlier
  simpa [equal] using before first inLeft

end Contained

/-- There are fewer nodes than pointers, so the count of one more does not wrap. -/
theorem addresses_bounded (distinct : nodes.Nodup) (addresses : ∀ node ∈ nodes, IsAddress node) :
    nodes.length < 2 ^ 64 := by
  have inside : nodes.toFinset ⊆ Finset.Ioo 0 (2 ^ 64) := by
    intro node member
    exact Finset.mem_Ioo.mpr (addresses node (mem_toFinset.mp member))
  have fewer := Finset.card_le_card inside
  rw [toFinset_card_of_nodup distinct, Nat.card_Ioo] at fewer
  omega

/-- A new node between two parts of the list. -/
theorem Contains.link (contains : Contains list (left ++ right) elements) {node : Nat}
    (address : IsAddress node) (absent : node ∉ left ++ right) {start : Option Nat}
    (head : start = (left ++ node :: right).head?) (obj : Nat) :
    Contains { list.link obj left.getLast? node right.head? with start } (left ++ node :: right)
      (left.map list.data ++ obj :: right.map list.data) := by
  have kept : ∀ other ∈ left ++ right, update list.data node obj other = list.data other := by
    intro other member
    refine update_of_ne ?_ _ _
    rintro rfl
    exact absent member
  have length := contains.data ▸ contains.count
  have distinct : (left ++ node :: right).Nodup :=
    nodup_middle.mpr (nodup_cons.mpr ⟨absent, contains.distinct⟩)
  have addresses : ∀ other ∈ left ++ node :: right, IsAddress other := by
    intro other member
    rcases mem_cons.mp (perm_middle.subset member) with rfl | old
    · exact address
    · exact contains.addresses other old
  have fewer := addresses_bounded distinct addresses
  simp only [mem_append] at kept
  constructor
  · exact head
  · exact linked_insert contains.linked contains.distinct absent
  · exact distinct
  · exact addresses
  · intro other member
    rcases mem_cons.mp (perm_middle.subset member) with rfl | old
    · exact mem_cons_self
    · exact mem_cons_of_mem _ (contains.used old)
  · simp only [SimpleLinkedList.link, map_append, map_cons, update_self]
    rw [map_congr_left fun other member => kept other (.inl member),
      map_congr_left fun other member => kept other (.inr member)]
  · simp only [length_append, length_cons] at fewer
    simp only [SimpleLinkedList.link, length, length_map, length_append, length_cons]
    rw [add64_of_lt (by omega), Nat.add_assoc]

/-- Both ways of unlinking a node come to this. -/
theorem Contains.unlink {node : Nat} (contains : Contains list (left ++ node :: right) elements)
    {start : Option Nat} (head : start = (left ++ right).head?) {count : Nat}
    (less : count + 1 = list.count) :
    Contains ⟨count, start, setPrevious (setNext list.links right.head? left.getLast?) left.getLast?
        right.head?, list.data, list.used.erase node⟩ (left ++ right)
      (left.map list.data ++ right.map list.data) := by
  obtain ⟨absent, distinct⟩ := nodup_cons.mp (nodup_middle.mp contains.distinct)
  obtain ⟨front, _, back⟩ := (linked_append ..).mp contains.linked
  have length := contains.data ▸ contains.count
  have relinked := linked_relink front back distinct right.head? left.getLast?
  refine ⟨head, (linked_append ..).mpr (by simpa using relinked), distinct, ?_, ?_, map_append, ?_⟩
  · intro other member
    exact contains.addresses other (perm_middle.symm.subset (mem_cons_of_mem _ member))
  · intro other member
    have old := contains.used (perm_middle.symm.subset (mem_cons_of_mem _ member))
    refine (mem_erase_of_ne ?_).mpr old
    rintro rfl
    exact absent member
  · simp at length ⊢
    omega

/-- `head->next->previous = head` in `deleteNode` changes nothing. -/
theorem set_second_previous {links : Nat → Links Nat} (linked : Linked links none nodes none) :
    setPrevious links nodes.head? (nodes.head?.bind fun first => (links first).next) = links := by
  rcases nodes with _ | ⟨first, _ | ⟨second, rest⟩⟩
  · rfl
  · simp [linked.1, setPrevious]
  · simp [linked.1, linked.2.1, setPrevious]

section
variable (contains : Contains list nodes elements)
include contains

theorem Contains.insert {node : Nat} (address : IsAddress node) (fresh : node ∉ list.used)
    (obj : Nat) :
    ∃ next, list.insert obj (some node) = some next ∧
      Contains next (nodes ++ [node]) (elements ++ [obj]) := by
  have whole : Contains list (nodes ++ []) elements := by rwa [append_nil]
  rw [← contains.data]
  rcases eq_nil_or_concat nodes with rfl | ⟨initial, current, rfl⟩
  · have start : list.start = none := contains.start
    simp only [SimpleLinkedList.insert, start]
    exact ⟨_, rfl, whole.link address (fresh <| whole.used ·) rfl obj⟩
  · rw [concat_eq_append] at contains whole ⊢
    have start : list.start = ((initial ++ [current]) ++ [node]).head? := by
      rw [contains.start]
      cases initial <;> rfl
    have last : list.last = some current := by simp [contains.last]
    obtain ⟨first, head⟩ : ∃ first, list.start = some first := by
      rw [contains.start]
      cases initial <;> simp
    have linked := whole.link address (fresh <| whole.used ·) start obj
    rw [getLast?_concat] at linked
    simp only [SimpleLinkedList.insert, head, last]
    exact ⟨_, rfl, linked⟩

theorem Contains.insertFront {node : Nat} (address : IsAddress node) (fresh : node ∉ list.used)
    (obj : Nat) (nonempty : elements ≠ []) :
    ∃ next, list.insertAt 0 obj (some node) = some next ∧
      Contains next (node :: nodes) (obj :: elements) := by
  have whole : Contains list ([] ++ nodes) elements := contains
  have inside : ¬ list.count ≤ 0 := by
    rw [contains.count, not_le]
    exact length_pos_of_ne_nil nonempty
  have linked := whole.link address (fresh <| whole.used ·) rfl obj
  rw [map_nil, nil_append, contains.data, ← contains.start] at linked
  simp only [SimpleLinkedList.insertAt, if_neg inside, if_true, map_some]
  exact ⟨_, rfl, linked⟩

theorem Contains.remove {obj : Nat} (member : obj ∈ elements) :
    ∃ next nodes, list.remove obj = some next ∧ Contains next nodes (elements.erase obj) := by
  obtain ⟨left, node, right, rfl, same, found, notBefore⟩ := contains.cases_of_mem member
  have erased : elements.erase obj = left.map list.data ++ right.map list.data := by
    rw [← contains.data, map_append, map_cons, erase_append_right _ notBefore, same,
      erase_cons_head]
  have positive : list.count ≠ 0 := by
    rw [contains.count]
    exact (length_pos_of_mem member).ne'
  have here := ((linked_append ..).mp contains.linked).2.1
  simp only [or_none] at here
  rw [erased]
  cases left with
  | nil =>
    have start : list.start = some node := contains.start
    have unlinked := contains.unlink rfl (Nat.sub_one_add_one positive)
    have linked : Linked (setPrevious list.links none right.head?) none right none :=
      unlinked.linked
    simp only [SimpleLinkedList.remove, deleteNode, start, if_pos same, map_some,
      if_neg positive, here]
    rw [set_second_previous linked]
    exact ⟨_, _, rfl, unlinked⟩
  | cons first rest =>
    have start : list.start = some first := contains.start
    have other : list.data first ≠ obj := by
      intro equal
      exact notBefore (equal ▸ mem_cons_self)
    simp only [SimpleLinkedList.remove, deleteNode, start, if_neg other, found, map_some,
      if_neg positive, here]
    exact ⟨_, _, rfl, contains.unlink rfl (Nat.sub_one_add_one positive)⟩

theorem Contains.rotateLeft :
    ∃ next nodes, list.rotateLeft = some next ∧ Contains next nodes (elements.rotate 1) := by
  have length := contains.data ▸ contains.count
  unfold SimpleLinkedList.rotateLeft
  rcases nodes with _ | ⟨first, _ | ⟨second, rest⟩⟩
  · rw [if_pos (by simp [length])]
    exact ⟨_, _, rfl, by simpa [← contains.data] using contains⟩
  · rw [if_pos (by simp [length])]
    exact ⟨_, _, rfl, by simpa [← contains.data] using contains⟩
  rw [if_neg (by simp [length])]
  obtain ⟨absent, distinct⟩ := nodup_cons.mp contains.distinct
  obtain ⟨last, atEnd⟩ : ∃ last, (second :: rest).getLast? = some last := ⟨_, getLast?_cons⟩
  have notLast : first ≠ last := by
    rintro rfl
    exact absent (mem_of_getLast? atEnd)
  have notSecond : first ≠ second := by
    rintro rfl
    exact absent mem_cons_self
  have start : list.start = some first := contains.start
  have found : list.last = some last := by rw [contains.last, getLast?_cons_cons, atEnd]
  have next : (list.links first).next = some second := by
    rw [contains.linked.1]
    rfl
  have whole : Contains list ([] ++ first :: second :: rest) elements := contains
  have unlinked := whole.unlink rfl (Nat.sub_one_add_one (by simp [length]))
  have whole : Contains _ (second :: rest ++ []) _ := (append_nil (second :: rest)).symm ▸ unlinked
  have moved := whole.link (contains.addresses first mem_cons_self) (by simpa using absent) rfl
    (list.data first)
  simp only [start, found]
  generalize joins : setPrevious (setNext list.links (some first) (some last)) (some last)
    (some first) = joined
  have second' : (joined first).next = some second := by
    simp [← joins, setPrevious, setNext, notLast, next]
  have back : (setPrevious joined none (some second) last).next = some first := by
    by_cases same : last = second <;>
      simp [← joins, setPrevious, setNext, update_apply, same, notLast.symm, notSecond.symm]
  rw [second', map_some, back]
  refine ⟨_, _, rfl, rfl, linked_congr moved.linked ?_, moved.distinct, moved.addresses, ?_, ?_, ?_⟩
  · intro node member
    simp only [← joins, SimpleLinkedList.link, setNext, setPrevious, atEnd, getLast?_nil, head?_nil,
      update_apply]
    split_ifs <;> simp_all
  · intro node member
    exact contains.used ((perm_append_singleton _ _).subset member)
  · rw [← contains.data]
    simp
  · rw [contains.count, length_rotate]

/-- On two nodes or more the next pointers of the new list go round in a circle. -/
theorem Contains.rotateRight_circle (more : ¬ elements.length < 2) :
    ∃ next first, list.rotateRight = some next ∧ next.start = some first ∧
      next.count = list.count ∧ next.walk.length = next.used.length + 1 := by
  rcases nodes with _ | ⟨first, rest⟩
  · exact absurd (by simp [← contains.data]) more
  obtain ⟨last, atEnd⟩ : ∃ last, (first :: rest).getLast? = some last := ⟨_, getLast?_cons⟩
  have start : list.start = some first := contains.start
  have found : list.last = some last := contains.last.trans atEnd
  unfold SimpleLinkedList.rotateRight
  rw [if_neg (by rw [contains.count]; exact more), start, found]
  refine ⟨_, last, rfl, rfl, rfl, ?_⟩
  generalize turned : setPrevious (setNext (setPrevious list.links (some last) (some first))
    (some first) (some last)) none (some last) = links
  have next : ∀ node, (links node).next =
      if node = last then some first else (list.links node).next := by
    intro node
    simp only [← turned, setPrevious, setNext, update_apply]
    split_ifs <;> simp_all
  refine follow_closed (show ∀ node ∈ first :: rest, ∃ other ∈ first :: rest, _ from ?_)
    (mem_of_getLast? atEnd) _
  intro node member
  rw [next]
  by_cases same : node = last
  · exact ⟨first, mem_cons_self, if_pos same⟩
  rw [if_neg same]
  obtain ⟨before, after, cut⟩ := append_of_mem member
  rw [cut] at atEnd ⊢
  have linked := contains.linked
  rw [cut, linked_append] at linked
  rcases after with _ | ⟨other, after⟩
  · simp only [getLast?_append, getLast?_singleton, some_or, some.injEq] at atEnd
    exact absurd atEnd same
  · exact ⟨other, by simp, by rw [linked.2.1]; rfl⟩

end

/-- A state is the list, unless an operation had no result, with the sequence it stands for. -/
abbrev State := Option SimpleLinkedList × List Nat

def Op.Steps (before : State) (op : Op) (after : State) : Prop :=
  ∃ list, before.1 = some list ∧ op.Fresh list ∧ after = (op.run list, op.spec before.2)

def Op.StepsRight (before : State) (op : Op) (after : State) : Prop :=
  op.Steps before after ∧ op.Right before.2

def Refines (state : State) : Prop :=
  ∃ list nodes, state.1 = some list ∧ Contains list nodes state.2 ∧ Answers list state.2

theorem step_refines {before after : State} {op : Op} (refines : Refines before)
    (step : op.Steps before after) (right : op.Right before.2) : Refines after := by
  obtain ⟨list, nodes, current, contains, _⟩ := refines
  obtain ⟨same, found, fresh, rfl⟩ := step
  cases current.symm.trans found
  suffices done : ∃ next nodes, op.run list = some next ∧ Contains next nodes (op.spec before.2) by
    obtain ⟨next, nodes, result, refined⟩ := done
    exact ⟨next, nodes, result, refined, refined.answers⟩
  cases op with
  | insert obj node =>
    obtain ⟨node, rfl⟩ := isSome_iff_exists.mp right
    obtain ⟨next, done⟩ := contains.insert fresh.1 fresh.2 obj
    exact ⟨next, _, done⟩
  | insertAt index obj node =>
    rcases right with beyond | ⟨rfl, nonempty, given⟩
    · refine ⟨list, nodes, if_pos (by rw [contains.count]; exact beyond.le), ?_⟩
      rwa [Op.spec, insertIdx_of_length_lt beyond]
    · obtain ⟨node, rfl⟩ := isSome_iff_exists.mp given
      obtain ⟨next, done⟩ := contains.insertFront fresh.1 fresh.2 obj nonempty
      exact ⟨next, _, done⟩
  | remove obj => exact contains.remove right
  | removeAt index =>
    rw [Op.run, removeAt, contains.get, Op.spec, ← right.2]
    refine contains.remove ?_
    rw [getD_eq_getElem?_getD, getElem?_eq_getElem right.1]
    exact getElem_mem _
  | rotateLeft => exact contains.rotateLeft
  | rotateRight =>
    refine ⟨list, nodes, if_pos (by rw [contains.count]; exact right), ?_⟩
    rw [Op.spec, Nat.sub_eq_zero_of_le (Nat.le_of_lt_succ right), rotate_zero]
    exact contains

/-- The second call puts back the elements that were there before the first. -/
def Op.Undoes (second first : Op) (list : SimpleLinkedList) (elements : List Nat) : Prop :=
  ∃ next nodes, ((first.run list).bind fun between => second.run between) = some next ∧
    Contains next nodes elements

section Rotations
variable (contains : Contains list nodes elements)
include contains

theorem Contains.rotate_undone (few : elements.length < 2) :
    Op.Undoes .rotateRight .rotateLeft list elements ∧
      Op.Undoes .rotateLeft .rotateRight list elements := by
  have left : list.rotateLeft = some list := if_pos (by rwa [contains.count])
  have right : list.rotateRight = some list := if_pos (by rwa [contains.count])
  exact ⟨⟨list, nodes, by simp [Op.run, left, right], contains⟩,
    ⟨list, nodes, by simp [Op.run, left, right], contains⟩⟩

theorem Contains.rotate_left_lost (more : ¬ elements.length < 2) :
    ¬ Op.Undoes .rotateRight .rotateLeft list elements := by
  rintro ⟨next, others, rotated, after⟩
  obtain ⟨between, _, rotatedLeft, shifted⟩ := contains.rotateLeft
  obtain ⟨turned, _, rotatedRight, _, _, endless⟩ :=
    shifted.rotateRight_circle (by rwa [length_rotate])
  simp only [Op.run, rotatedLeft, bind_some, rotatedRight, some.injEq] at rotated
  cases rotated
  have ends := after.walks
  rw [← ends.1] at ends
  omega

/-- After `rotateRight` the search for the last node does not return. -/
theorem Contains.rotate_right_lost (more : ¬ elements.length < 2) :
    ¬ Op.Undoes .rotateLeft .rotateRight list elements := by
  rintro ⟨next, _, rotated, _⟩
  obtain ⟨turned, first, rotatedRight, start, count, endless⟩ := contains.rotateRight_circle more
  have last : turned.last = none := if_neg (by omega)
  have several : ¬ turned.count < 2 := by rwa [count, contains.count]
  simp only [Op.run, rotatedRight, bind_some, SimpleLinkedList.rotateLeft, if_neg several,
    start, last] at rotated
  cases rotated

end Rotations

/-- Every state of a run whose calls are the right ones refines its sequence, and the two
rotations undo each other exactly while there are fewer than two elements. -/
theorem simple_linked_list_refines {ops : List Op} {state : State}
    (run : Run Op.StepsRight (some empty, []) ops state) :
    Refines state ∧ ∀ list, state.1 = some list →
      (Op.Undoes .rotateRight .rotateLeft list state.2 ↔ state.2.length < 2) ∧
      (Op.Undoes .rotateLeft .rotateRight list state.2 ↔ state.2.length < 2) := by
  have start : Refines (some empty, []) := by
    have contains : Contains empty [] [] := ⟨rfl, trivial, nodup_nil, nofun, nofun, rfl, rfl⟩
    exact ⟨empty, [], rfl, contains, contains.answers⟩
  have refines := run_invariant Refines
    (fun _ _ _ refines step => step_refines refines step.1 step.2) start run
  refine ⟨refines, ?_⟩
  intro list current
  obtain ⟨same, nodes, found, contains, _⟩ := refines
  cases current.symm.trans found
  by_cases few : state.2.length < 2
  · have undone := contains.rotate_undone few
    exact ⟨iff_of_true undone.1 few, iff_of_true undone.2 few⟩
  · exact ⟨iff_of_false (contains.rotate_left_lost few) few,
      iff_of_false (contains.rotate_right_lost few) few⟩

theorem simple_linked_list_refines_five_calls :
    ∃ state, Run Op.StepsRight (some empty, []) [.insert 5 (some 1), .insert 6 (some 2),
        .insertAt 0 7 (some 3), .rotateLeft, .remove 6] state ∧
      Refines state ∧ state.2 = [5, 7] := by
  refine Exists.imp (fun state (reached : Run _ _ _ state ∧ state.2 = [5, 7]) =>
    ⟨reached.1, (simple_linked_list_refines reached.1).1, reached.2⟩) ?_
  exact ⟨_, run_cons ⟨⟨_, rfl, (by decide : IsAddress 1 ∧ 1 ∉ []), rfl⟩, rfl⟩ <|
    run_cons ⟨⟨_, rfl, (by decide : IsAddress 2 ∧ 2 ∉ [1]), rfl⟩, rfl⟩ <|
    run_cons ⟨⟨_, rfl, (by decide : IsAddress 3 ∧ 3 ∉ [2, 1]), rfl⟩, .inr ⟨rfl, nofun, rfl⟩⟩ <|
    run_cons ⟨⟨_, rfl, trivial, rfl⟩, trivial⟩ <|
    run_cons ⟨⟨_, rfl, trivial, rfl⟩, (by decide : 6 ∈ [5, 6, 7])⟩ (.nil _), rfl⟩

/-- `insertAt` puts the new element after the one at the index. -/
theorem insert_at_one_not_refined :
    ∃ list, Run Op.Steps (some empty, [])
        [.insert 5 (some 1), .insert 6 (some 2), .insertAt 1 7 (some 3)] (some list, [5, 7, 6]) ∧
      list.get 1 = 6 ∧ ¬ Refines (some list, [5, 7, 6]) := by
  refine ⟨_, run_cons ⟨_, rfl, (by decide : IsAddress 1 ∧ 1 ∉ []), rfl⟩ <|
    run_cons ⟨_, rfl, (by decide : IsAddress 2 ∧ 2 ∉ [1]), rfl⟩ <|
    run_cons ⟨_, rfl, (by decide : IsAddress 3 ∧ 3 ∉ [2, 1]), rfl⟩ (.nil _), rfl, ?_⟩
  rintro ⟨_, _, same, _, answers⟩
  cases same
  exact absurd (answers.get 1) (by decide)

end SimpleLinkedList
end FrostyKernel.LinkedList
