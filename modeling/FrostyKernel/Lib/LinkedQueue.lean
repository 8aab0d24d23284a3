import Mathlib.Tactic

/-!
# Intrusive doubly linked queues

The nodes of a queue carry their own links, so a node can be in one queue at a
time, and the operations assert this as far as the links show it. `Holds` says
which nodes a queue consists of, in order. Each operation changes the links of
the queue's own nodes only.
-/

namespace FrostyKernel

open Function List Option

structure Links (Node : Type*) where
  previous : Option Node
  next : Option Node
deriving DecidableEq

structure Queue (Node : Type*) where
  head : Option Node
  tail : Option Node
  count : Nat
deriving DecidableEq

section Operations
variable {Node : Type*} [DecidableEq Node]

def Links.unlinked : Links Node := ⟨none, none⟩

def Queue.empty : Queue Node := ⟨none, none, 0⟩

section
variable (queue : Queue Node) (links : Node → Links Node) (node : Node)

/-- `none` when an assertion fails. -/
def Queue.pushBack : Option ((Node → Links Node) × Queue Node) :=
  if links node ≠ .unlinked ∨ queue.head = some node ∨ queue.tail = some node then none
  else
    match queue.head, queue.tail with
    | none, _ =>
      some (update links node .unlinked, ⟨some node, some node, queue.count + 1⟩)
    | some _, some last =>
      some (update (update links last { links last with next := some node }) node
        ⟨some last, none⟩, { queue with tail := some node, count := queue.count + 1 })
    | some _, none => none

def Queue.popFront : (Node → Links Node) × Queue Node × Option Node :=
  match queue.head with
  | none => (links, queue, none)
  | some first =>
    match (links first).next with
    | some second =>
      (update (update links second { links second with previous := none }) first
        .unlinked, ⟨some second, queue.tail, queue.count - 1⟩, some first)
    | none => (update links first .unlinked, ⟨none, none, queue.count - 1⟩, some first)

/-- The node is at an end of the queue wherever it has no neighbour, and its
neighbours link back to it. -/
def Queue.MayRemove : Prop :=
  ((links node).previous ≠ none ∨ queue.head = some node) ∧
  ((links node).next ≠ none ∨ queue.tail = some node) ∧
  (∀ before ∈ (links node).previous, (links before).next = some node) ∧
  ∀ after ∈ (links node).next, (links after).previous = some node

end

instance (queue : Queue Node) (links : Node → Links Node) (node : Node) :
    Decidable (queue.MayRemove links node) := by
  unfold Queue.MayRemove
  infer_instance

def setNext (links : Node → Links Node) (next : Option Node) : Option Node → Node → Links Node
  | none => links
  | some node => update links node { links node with next := next }

def setPrevious (links : Node → Links Node) (previous : Option Node) :
    Option Node → Node → Links Node
  | none => links
  | some node => update links node { links node with previous := previous }

/-- `none` when the assertion fails. -/
def Queue.remove (queue : Queue Node) (links : Node → Links Node) (node : Node) :
    Option ((Node → Links Node) × Queue Node) :=
  if queue.MayRemove links node then
    let data := links node
    some (update
        (setPrevious (setNext links data.next data.previous) data.previous data.next) node .unlinked,
      { head := if data.previous = none then data.next else queue.head
        tail := if data.next = none then data.previous else queue.tail
        count := queue.count - 1 })
  else none

/-- The nodes met when following at most `count` next links. -/
def follow (links : Node → Links Node) : Nat → Option Node → List Node
  | 0, _ => []
  | _ + 1, none => []
  | count + 1, some node => node :: follow links count (links node).next

def Queue.contents (queue : Queue Node) (links : Node → Links Node) : List Node :=
  follow links queue.count queue.head

end Operations

section Holds
variable {Node : Type*}

/-- The nodes are linked in this order, between `previous` and `after`. -/
def Linked (links : Node → Links Node) : Option Node → List Node → Option Node → Prop
  | _, [], _ => True
  | previous, node :: rest, after =>
    links node = ⟨previous, rest.head?.or after⟩ ∧ Linked links (some node) rest after

structure Holds (links : Node → Links Node) (queue : Queue Node) (nodes : List Node) : Prop where
  head : queue.head = nodes.head?
  tail : queue.tail = nodes.getLast?
  count : queue.count = nodes.length
  distinct : nodes.Nodup
  linked : Linked links none nodes none

theorem linked_append (links : Node → Links Node) (previous after : Option Node)
    (left right : List Node) :
    Linked links previous (left ++ right) after ↔
      Linked links previous left (right.head?.or after) ∧
        Linked links (left.getLast?.or previous) right after := by
  induction left generalizing previous with
  | nil => simp [Linked]
  | cons node rest ih =>
    simp only [List.cons_append, Linked, ih, List.head?_append, Option.or_assoc]
    rw [and_assoc]
    refine and_congr_right fun _ => and_congr_right fun _ => ?_
    rcases List.eq_nil_or_concat rest with nothing | ⟨initial, last, whole⟩
    · simp [nothing]
    · simp [whole, getLast?_cons]

variable {nodes : List Node} {links other : Node → Links Node} {previous : Option Node}
  {queue : Queue Node}

theorem linked_congr {after : Option Node} (linked : Linked links previous nodes after)
    (same : ∀ node ∈ nodes, other node = links node) : Linked other previous nodes after := by
  induction nodes generalizing previous with
  | nil => trivial
  | cons node rest ih =>
    refine ⟨(same node (by simp)).trans linked.1, ih linked.2 ?_⟩
    intro later member
    exact same later (by simp [member])

theorem holds_congr (holds : Holds links queue nodes)
    (same : ∀ node ∈ nodes, other node = links node) : Holds other queue nodes :=
  ⟨holds.head, holds.tail, holds.count, holds.distinct, linked_congr holds.linked same⟩

theorem holds_empty (links : Node → Links Node) : Holds links Queue.empty [] :=
  ⟨rfl, rfl, rfl, nodup_nil, trivial⟩

theorem follow_linked (linked : Linked links previous nodes none) (count : Nat) :
    follow links count nodes.head? = nodes.take count := by
  induction nodes generalizing previous count with
  | nil => cases count <;> simp [follow]
  | cons node rest ih =>
    have next : (links node).next = rest.head? := by
      rw [linked.1]
      simp
    cases count with
    | zero => rfl
    | succ count => simp only [head?_cons, follow, next, ih linked.2, take_succ_cons]

/-- From nodes that no next pointer leaves, the walk never ends. -/
theorem follow_closed (closed : ∀ node ∈ nodes, ∃ other ∈ nodes, (links node).next = some other)
    {node : Node} (member : node ∈ nodes) (count : Nat) :
    (follow links count (some node)).length = count := by
  induction count generalizing node with
  | zero => rfl
  | succ count ih =>
    obtain ⟨other, inside, next⟩ := closed node member
    rw [follow, length_cons, next, ih inside]

theorem holds_contents (holds : Holds links queue nodes) : queue.contents links = nodes := by
  rw [Queue.contents, holds.count, holds.head, follow_linked holds.linked, take_length]

end Holds

section Specifications
variable {Node : Type*} [DecidableEq Node] {left nodes right : List Node} {node : Node}
  {links other : Node → Links Node} {after before previous target : Option Node}
  {queue : Queue Node}

theorem set_next_other (links : Node → Links Node) (next : Option Node)
    (different : target ≠ some node) : setNext links next target node = links node := by
  cases target with
  | none => rfl
  | some other =>
    rw [setNext, update_of_ne]
    rintro rfl
    exact different rfl

theorem set_previous_other (links : Node → Links Node) (previous : Option Node)
    (different : target ≠ some node) : setPrevious links previous target node = links node := by
  cases target with
  | none => rfl
  | some other =>
    rw [setPrevious, update_of_ne]
    rintro rfl
    exact different rfl

section
omit [DecidableEq Node]

theorem linked_last_next (linked : Linked links previous nodes after)
    (last : node ∈ nodes.getLast?) : (links node).next = after := by
  rcases List.eq_nil_or_concat nodes with rfl | ⟨initial, final, rfl⟩
  · cases last
  · simp only [concat_eq_append] at linked last
    rw [linked_append] at linked
    have same : final = node := by simpa using last
    subst same
    rw [linked.2.1]
    simp

theorem linked_set_next {next : Option Node} (linked : Linked links previous nodes after)
    (distinct : nodes.Nodup)
    (last : ∀ node ∈ nodes.getLast?, other node = ⟨(links node).previous, next⟩)
    (same : ∀ node ∈ nodes, nodes.getLast? ≠ some node → other node = links node) :
    Linked other previous nodes next := by
  rcases List.eq_nil_or_concat nodes with rfl | ⟨initial, final, rfl⟩
  · trivial
  simp only [concat_eq_append] at linked distinct last same ⊢
  rw [linked_append] at linked ⊢
  have parts := nodup_append.mp distinct
  refine ⟨linked_congr linked.1 ?_, ?_, trivial⟩
  · intro node member
    refine same node (by simp [member]) ?_
    simp only [getLast?_append, getLast?_singleton, some_or, ne_eq, some.injEq]
    rintro rfl
    exact parts.2.2 final member final (by simp) rfl
  · rw [last final (by simp), linked.2.1]
    simp

theorem linked_set_previous {before : Option Node} (linked : Linked links before nodes after)
    (distinct : nodes.Nodup)
    (first : ∀ node ∈ nodes.head?, other node = ⟨previous, (links node).next⟩)
    (same : ∀ node ∈ nodes, nodes.head? ≠ some node → other node = links node) :
    Linked other previous nodes after := by
  cases nodes with
  | nil => trivial
  | cons node rest =>
    refine ⟨?_, linked_congr linked.2 ?_⟩
    · rw [first node (by simp), linked.1]
    · intro later member
      refine same later (by simp [member]) ?_
      simp only [head?_cons, ne_eq, some.injEq]
      rintro rfl
      exact (nodup_cons.mp distinct).1 member

end

/-- A gap between `left` and `right` gets a new end on each side. -/
theorem linked_relink (front : Linked links none left before) (back : Linked links after right none)
    (distinct : (left ++ right).Nodup) (next previous : Option Node) :
    let changed := setPrevious (setNext links next left.getLast?) previous right.head?
    Linked changed none left next ∧ Linked changed previous right none := by
  obtain ⟨leftDistinct, rightDistinct, disjoint⟩ := nodup_append.mp distinct
  have apart : ∀ other ∈ left, right.head? ≠ some other := by
    intro other member first
    exact disjoint other member other (mem_of_head? first) rfl
  have beyond : ∀ other ∈ right, left.getLast? ≠ some other := by
    intro other member last
    exact disjoint other (mem_of_getLast? last) other member rfl
  constructor
  · refine linked_set_next front leftDistinct ?_ ?_
    · intro last atEnd
      rw [set_previous_other _ _ (apart last (mem_of_getLast? atEnd)), mem_def.mp atEnd, setNext,
        update_self]
    · intro other member notLast
      rw [set_previous_other _ _ (apart other member), set_next_other _ _ notLast]
  · refine linked_set_previous back rightDistinct ?_ ?_
    · intro first atStart
      rw [mem_def.mp atStart, setPrevious, update_self,
        set_next_other _ _ (beyond first (mem_of_head? atStart))]
    · intro other member notFirst
      rw [set_previous_other _ _ notFirst, set_next_other _ _ (beyond other member)]

theorem linked_insert (linked : Linked links none (left ++ right) none)
    (distinct : (left ++ right).Nodup) (absent : node ∉ left ++ right) :
    Linked (update (setPrevious (setNext links (some node) left.getLast?) (some node) right.head?)
      node ⟨left.getLast?, right.head?⟩) none (left ++ node :: right) none := by
  obtain ⟨front, back⟩ := (linked_append ..).mp linked
  have relinked := linked_relink front back distinct (some node) (some node)
  rw [mem_append, not_or] at absent
  have elsewhere : ∀ {list : List Node}, node ∉ list → ∀ other ∈ list, other ≠ node := by
    rintro list outside other member rfl
    exact outside member
  rw [linked_append]
  refine ⟨linked_congr relinked.1 ?_, ?_, linked_congr relinked.2 ?_⟩
  · intro other member
    exact update_of_ne (elsewhere absent.1 other member) _ _
  · simp
  · intro other member
    exact update_of_ne (elsewhere absent.2 other member) _ _

theorem push_back_holds (holds : Holds links queue nodes) (absent : node ∉ nodes)
    (loose : links node = .unlinked) :
    ∃ after final, queue.pushBack links node = some (after, final) ∧
      Holds after final (nodes ++ [node]) ∧
      ∀ other, other ∉ nodes → other ≠ node → after other = links other := by
  have notHead : queue.head ≠ some node := by
    rw [holds.head]
    intro first
    exact absent (mem_of_head? first)
  have notTail : queue.tail ≠ some node := by
    rw [holds.tail]
    intro last
    exact absent (mem_of_getLast? last)
  have allowed : ¬ (links node ≠ .unlinked ∨ queue.head = some node ∨ queue.tail = some node) := by
    simp [loose, notHead, notTail]
  have inserted := @linked_insert _ _ nodes [] node links (by simpa using holds.linked)
    (by simpa using holds.distinct) (by simpa using absent)
  rcases List.eq_nil_or_concat nodes with rfl | ⟨initial, last, rfl⟩
  · refine ⟨_, _, by rw [Queue.pushBack, if_neg allowed, holds.head]; rfl, ?_, ?_⟩
    · exact ⟨rfl, rfl, by simp [holds.count], nodup_singleton _, inserted⟩
    · intro other _ different
      rw [update_of_ne different]
  · simp only [concat_eq_append] at holds absent inserted ⊢
    obtain ⟨first, someFirst⟩ : ∃ first, queue.head = some first := by
      rw [holds.head]
      exact isSome_iff_exists.mp (by simp)
    have someLast : queue.tail = some last := by
      rw [holds.tail]
      simp
    refine ⟨_, _, by rw [Queue.pushBack, if_neg allowed, someFirst, someLast], ?_, ?_⟩
    · refine ⟨?_, by simp, by simp [holds.count], ?_, ?_⟩
      · simp [← someFirst, holds.head]
      · rw [← concat_eq_append, nodup_concat]
        exact ⟨absent, holds.distinct⟩
      · simpa [setNext, setPrevious] using inserted
    · intro other outside notNode
      have notLast : other ≠ last := by
        rintro rfl
        exact outside (by simp)
      rw [update_of_ne notNode, update_of_ne notLast]

theorem pop_front_holds {rest : List Node} (holds : Holds links queue (node :: rest)) :
    ∃ after final, queue.popFront links = (after, final, some node) ∧ Holds after final rest ∧
      after node = .unlinked ∧ ∀ other, other ∉ node :: rest → after other = links other := by
  have first : queue.head = some node := holds.head
  have distinct := nodup_cons.mp holds.distinct
  cases rest with
  | nil =>
    have next : (links node).next = none := by
      rw [holds.linked.1]
      rfl
    refine ⟨_, _, by simp only [Queue.popFront, first, next]; rfl, ?_, by simp, ?_⟩
    · exact ⟨rfl, rfl, by simp [holds.count], nodup_nil, trivial⟩
    · intro other outside
      rw [update_of_ne (by simpa using outside)]
  | cons second others =>
    have next : (links node).next = some second := by
      rw [holds.linked.1]
      rfl
    have different : second ≠ node := by
      rintro rfl
      exact distinct.1 (by simp)
    have apart := (nodup_cons.mp distinct.2).1
    refine ⟨_, _, by simp only [Queue.popFront, first, next]; rfl, ?_, by simp, ?_⟩
    · refine ⟨rfl, ?_, by simp [holds.count], distinct.2, ?_, linked_congr holds.linked.2.2 ?_⟩
      · rw [holds.tail]
        simp [getLast?_cons]
      · simp [different, holds.linked.2.1]
      · intro other member
        have notNode : other ≠ node := by
          rintro rfl
          exact distinct.1 (by simp [member])
        have notSecond : other ≠ second := by
          rintro rfl
          exact apart member
        rw [update_of_ne notNode, update_of_ne notSecond]
    · intro other outside
      simp only [mem_cons, not_or] at outside
      rw [update_of_ne outside.1, update_of_ne outside.2.1]

theorem pop_front_empty (holds : Holds links queue []) :
    queue.popFront links = (links, queue, none) := by
  have first : queue.head = none := holds.head
  simp [Queue.popFront, first]

theorem remove_holds (holds : Holds links queue (left ++ node :: right)) :
    ∃ after final, queue.remove links node = some (after, final) ∧
      Holds after final (left ++ right) ∧ after node = .unlinked ∧
      ∀ other, other ∉ left ++ node :: right → after other = links other := by
  obtain ⟨front, here, back⟩ := (linked_append links none none left (node :: right)).mp holds.linked
  simp only [or_none] at here back
  obtain ⟨absent, distinct⟩ := nodup_cons.mp (nodup_middle.mp holds.distinct)
  have allowed : queue.MayRemove links node := by
    rw [Queue.MayRemove, here, holds.head, holds.tail]
    refine ⟨?_, ?_, ?_, ?_⟩
    · cases left <;> simp
    · cases right <;> simp
    · intro before last
      exact linked_last_next front last
    · intro after first
      cases right with
      | nil => cases first
      | cons second rest =>
        have same : second = after := by simpa using first
        subst same
        rw [back.1]
  refine ⟨_, _, by rw [Queue.remove, if_pos allowed], ?_, by simp, ?_⟩
  · rw [here]
    refine ⟨?_, ?_, by simp [holds.count], ?_, ?_⟩
    · cases left <;> simp [holds.head]
    · rcases List.eq_nil_or_concat right with rfl | ⟨initial, last, rfl⟩ <;>
        simp [holds.tail, getLast?_cons]
    · exact distinct
    · have relinked := linked_relink front back distinct right.head? left.getLast?
      refine linked_congr ((linked_append ..).mpr (by simpa using relinked)) ?_
      intro other member
      refine update_of_ne ?_ _ _
      rintro rfl
      exact absent member
  · intro other outside
    simp only [mem_append, mem_cons, not_or] at outside
    obtain ⟨notLeft, different, notRight⟩ := outside
    have notLast : (links node).previous ≠ some other := by
      rw [here]
      intro last
      exact notLeft (mem_of_getLast? last)
    have notFirst : (links node).next ≠ some other := by
      rw [here]
      intro first
      exact notRight (mem_of_head? first)
    rw [update_of_ne different, set_previous_other _ _ notFirst, set_next_other _ _ notLast]

end Specifications
end FrostyKernel
