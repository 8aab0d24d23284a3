import Mathlib.Tactic
import Mathlib.Data.List.Basic
import Mathlib.Order.Lattice

/-!
# Ordered finite maps

The nodes of a map are a list with strictly increasing keys. A search tree is
used through these operations only: exact search, the first node at or above a
key, the neighbours of a node, insertion that keeps an existing node, removal
and an update of the value in place. The lemmas describe an operation either by
the lookups it leaves or by the node list it leaves around a given node.
-/

namespace FrostyKernel

open List Option

variable {Key Value : Type*} [LinearOrder Key]

/-- Strictly increasing keys, so a key names at most one node. -/
structure OrderedMap (Key Value : Type*) [LinearOrder Key] where
  nodes : List (Key × Value)
  sorted : nodes.Pairwise (fun left right => left.1 < right.1)

namespace OrderedMap

def empty : OrderedMap Key Value := ⟨[], List.Pairwise.nil⟩

def findList (key : Key) : List (Key × Value) → Option Value
  | [] => none
  | node :: rest => if key = node.1 then some node.2 else findList key rest

def insertList (key : Key) (value : Value) : List (Key × Value) → List (Key × Value)
  | [] => [(key, value)]
  | node :: rest =>
    if key < node.1 then (key, value) :: node :: rest
    else if key = node.1 then node :: rest
    else node :: insertList key value rest

def setList (key : Key) (value : Value) (nodes : List (Key × Value)) : List (Key × Value) :=
  nodes.map fun node => if node.1 = key then (node.1, value) else node

variable {found key : Key} {node : Key × Value} {after before nodes : List (Key × Value)}
  {map : OrderedMap Key Value} {old value : Value}

theorem mem_insert_list (member : node ∈ insertList key value nodes) :
    node = (key, value) ∨ node ∈ nodes := by
  induction nodes with
  | nil => simpa [insertList] using member
  | cons head rest ih =>
    simp only [insertList] at member
    split_ifs at member with below same
    · simpa using member
    · exact .inr member
    · rcases mem_cons.mp member with rfl | later
      · exact .inr (by simp)
      · rcases ih later with fresh | old
        · exact .inl fresh
        · exact .inr (by simp [old])

theorem insert_list_sorted (key : Key) (value : Value)
    (sorted : nodes.Pairwise (fun left right => left.1 < right.1)) :
    (insertList key value nodes).Pairwise (fun left right => left.1 < right.1) := by
  induction nodes with
  | nil => simp [insertList]
  | cons head rest ih =>
    have tail := (pairwise_cons.mp sorted).2
    have first := (pairwise_cons.mp sorted).1
    simp only [insertList]
    split_ifs with below same
    · refine pairwise_cons.mpr ⟨?_, sorted⟩
      intro node member
      rcases mem_cons.mp member with rfl | later
      · exact below
      · exact below.trans (first node later)
    · exact sorted
    · refine pairwise_cons.mpr ⟨?_, ih tail⟩
      intro node member
      rcases mem_insert_list member with rfl | later
      · exact lt_of_le_of_ne (not_lt.mp below) (Ne.symm same)
      · exact first node later

theorem set_list_sorted (key : Key) (value : Value)
    (sorted : nodes.Pairwise (fun left right => left.1 < right.1)) :
    (setList key value nodes).Pairwise (fun left right => left.1 < right.1) := by
  unfold setList
  rw [pairwise_map]
  refine sorted.imp ?_
  intro left right order
  split_ifs <;> exact order

/-- The value at a key (`RB_FIND`). -/
def find? (map : OrderedMap Key Value) (key : Key) : Option Value := findList key map.nodes

section
variable (map : OrderedMap Key Value) (key : Key) (value : Value)

/-- The first node whose key is at least `key` (`RB_NFIND`). -/
def nfind : Option (Key × Value) := map.nodes.find? fun node => key ≤ node.1

def max : Option (Key × Value) := map.nodes.getLast?

/-- The last node below `key`: the predecessor of the node at `key`. -/
def prev : Option (Key × Value) := (map.nodes.filter fun node => node.1 < key).getLast?

def insert : OrderedMap Key Value :=
  ⟨insertList key value map.nodes, insert_list_sorted key value map.sorted⟩

def erase : OrderedMap Key Value := ⟨map.nodes.filter fun node => node.1 ≠ key, map.sorted.filter _⟩

/-- The value of the node at `key` is overwritten; an absent key changes nothing. -/
def set : OrderedMap Key Value :=
  ⟨setList key value map.nodes, set_list_sorted key value map.sorted⟩

def findNodeOrHigher : Option (Key × Value) := map.nfind key

def findNodeOrLower : Option (Key × Value) :=
  match map.nfind key with
  | none => map.max
  | some node => if key < node.1 then map.prev node.1 else some node

end

/-! ## Lookups -/

theorem find_list_some_iff (sorted : nodes.Pairwise (fun left right => left.1 < right.1)) :
    findList key nodes = some value ↔ (key, value) ∈ nodes := by
  induction nodes with
  | nil => simp [findList]
  | cons head rest ih =>
    have tail := (pairwise_cons.mp sorted).2
    have first := (pairwise_cons.mp sorted).1
    simp only [findList]
    split_ifs with same
    · subst same
      constructor
      · intro found
        have values : head.2 = value := by simpa using found
        subst values
        simp
      · intro member
        rcases mem_cons.mp member with equal | later
        · rw [← equal]
        · exact absurd (first _ later) (lt_irrefl _)
    · rw [ih tail]
      constructor
      · intro member
        exact mem_cons_of_mem _ member
      · intro member
        rcases mem_cons.mp member with equal | later
        · exact absurd (by rw [← equal]) same
        · exact later

theorem find_some_iff : map.find? key = some value ↔ (key, value) ∈ map.nodes :=
  find_list_some_iff map.sorted

theorem find_none_iff : map.find? key = none ↔ ∀ node ∈ map.nodes, node.1 ≠ key := by
  constructor
  · intro absent node member same
    subst same
    have present := find_some_iff.mpr (show (node.1, node.2) ∈ map.nodes from member)
    simp [absent] at present
  · intro absent
    cases found : map.find? key with
    | none => rfl
    | some value => exact absurd rfl (absent _ (find_some_iff.mp found))

theorem isSome_find_iff_mem_keys :
    (map.find? key).isSome = true ↔ key ∈ map.nodes.map Prod.fst := by
  rw [Option.isSome_iff_exists, List.mem_map]
  constructor
  · intro present
    obtain ⟨value, found⟩ := present
    exact ⟨(key, value), find_some_iff.mp found, rfl⟩
  · intro listed
    obtain ⟨node, member, same⟩ := listed
    exact ⟨node.2, find_some_iff.mpr (by rw [← same]; exact member)⟩

@[simp] theorem find_empty (key : Key) : (empty : OrderedMap Key Value).find? key = none := rfl

theorem forall_keys_iff {motive : Key → Prop} :
    (∀ node ∈ map.nodes, motive node.1) ↔ ∀ key, (map.find? key).isSome → motive key := by
  constructor
  · intro holds key present
    rcases Option.isSome_iff_exists.mp present with ⟨value, found⟩
    exact holds (key, value) (find_some_iff.mp found)
  · intro holds node member
    apply holds node.1
    rw [find_some_iff.mpr member]
    rfl

theorem ext_nodes {left right : OrderedMap Key Value} (same : left.nodes = right.nodes) :
    left = right := by
  cases left
  cases right
  simpa using same

theorem mem_insert_list_iff (absent : ∀ node ∈ nodes, node.1 ≠ key) :
    node ∈ insertList key value nodes ↔ node = (key, value) ∨ node ∈ nodes := by
  induction nodes with
  | nil => simp [insertList]
  | cons head rest ih =>
    have headOther : ¬ key = head.1 := fun same => absent head (by simp) same.symm
    simp only [insertList]
    split_ifs with below
    · simp
    · rw [mem_cons, ih (fun other member => absent other (by simp [member]))]
      simp only [mem_cons]
      tauto

theorem insert_list_of_mem (value : Value)
    (sorted : nodes.Pairwise (fun left right => left.1 < right.1)) (member : (key, old) ∈ nodes) :
    insertList key value nodes = nodes := by
  induction nodes with
  | nil => simp at member
  | cons head rest ih =>
    have first := (pairwise_cons.mp sorted).1
    have tail := (pairwise_cons.mp sorted).2
    rcases mem_cons.mp member with equal | later
    · subst equal
      simp [insertList]
    · have above := first _ later
      simp only [insertList]
      rw [if_neg (not_lt.mpr above.le), if_neg (ne_of_gt above), ih tail later]

theorem find_insert_of_none (value : Value) (absent : map.find? key = none) (other : Key) :
    (map.insert key value).find? other = if other = key then some value else map.find? other := by
  have others := find_none_iff.mp absent
  by_cases same : other = key
  · subst same
    rw [if_pos rfl]
    exact find_some_iff.mpr ((mem_insert_list_iff others).mpr (.inl rfl))
  · rw [if_neg same]
    apply Option.ext
    intro found
    rw [find_some_iff, find_some_iff]
    change (other, found) ∈ insertList key value map.nodes ↔ _
    rw [mem_insert_list_iff others]
    simp [same]

theorem insert_of_some (value : Value) (present : map.find? key = some old) :
    map.insert key value = map :=
  ext_nodes (insert_list_of_mem value map.sorted (find_some_iff.mp present))

@[simp] theorem find_erase (map : OrderedMap Key Value) (key other : Key) :
    (map.erase key).find? other = if other = key then none else map.find? other := by
  apply Option.ext
  intro value
  rw [find_some_iff]
  by_cases same : other = key
  · simp [erase, same]
  · rw [if_neg same, find_some_iff]
    simp [erase, same]

@[simp] theorem find_set (map : OrderedMap Key Value) (key other : Key) (value : Value) :
    (map.set key value).find? other =
      if other = key then (map.find? key).map fun _ => value else map.find? other := by
  apply Option.ext
  intro found
  rw [find_some_iff]
  change (other, found) ∈ setList key value map.nodes ↔ _
  simp only [setList, List.mem_map]
  by_cases same : other = key
  · subst same
    rw [if_pos rfl]
    constructor
    · rintro ⟨⟨nodeKey, nodeValue⟩, member, equal⟩
      split_ifs at equal with here
      · simp only at here
        subst here
        rw [find_some_iff.mpr member]
        simpa using congrArg Prod.snd equal
      · exact absurd (congrArg Prod.fst equal) here
    · intro present
      cases old : map.find? other with
      | none => simp [old] at present
      | some oldValue =>
        refine ⟨(other, oldValue), find_some_iff.mp old, ?_⟩
        have values : value = found := by simpa [old] using present
        simp [values]
  · rw [if_neg same, find_some_iff]
    constructor
    · rintro ⟨⟨nodeKey, nodeValue⟩, member, equal⟩
      split_ifs at equal with here
      · exact absurd ((congrArg Prod.fst equal).symm.trans here) same
      · rw [← equal]
        exact member
    · intro member
      exact ⟨(other, found), member, by simp [same]⟩

/-! ## Node lists around a key -/

theorem exists_cut (found : map.find? key = some value) :
    ∃ before after, map.nodes = before ++ (key, value) :: after :=
  append_of_mem (find_some_iff.mp found)

section
variable {map : OrderedMap Key Value} {key : Key} {value : Value}
  {before after : List (Key × Value)} (cut : map.nodes = before ++ (key, value) :: after)
include cut

theorem find_of_cut : map.find? key = some value := find_some_iff.mpr (by simp [cut])

theorem before_lt : ∀ node ∈ before, node.1 < key := by
  intro node member
  have sorted := map.sorted
  rw [cut, pairwise_append] at sorted
  exact sorted.2.2 node member (key, value) (by simp)

theorem lt_after : ∀ node ∈ after, key < node.1 := by
  intro node member
  have sorted := map.sorted
  rw [cut, pairwise_append, pairwise_cons] at sorted
  exact sorted.2.1.1 node member

theorem set_nodes (fresh : Value) :
    (map.set key fresh).nodes = before ++ (key, fresh) :: after := by
  have low := before_lt cut
  have high := lt_after cut
  change setList key fresh map.nodes = _
  rw [cut]
  unfold setList
  rw [map_append, map_cons, if_pos rfl]
  congr 1
  · conv_rhs => rw [← map_id before]
    apply map_congr_left
    intro node member
    rw [if_neg (ne_of_lt (low node member))]
    rfl
  · congr 1
    conv_rhs => rw [← map_id after]
    apply map_congr_left
    intro node member
    rw [if_neg (ne_of_gt (high node member))]
    rfl

theorem erase_nodes : (map.erase key).nodes = before ++ after := by
  have low := before_lt cut
  have high := lt_after cut
  change map.nodes.filter _ = _
  rw [cut, filter_append, filter_cons_of_neg (by simp)]
  congr 1
  · rw [filter_eq_self]
    intro node member
    simpa using ne_of_lt (low node member)
  · rw [filter_eq_self]
    intro node member
    simpa using ne_of_gt (high node member)

end

theorem insert_nodes (value : Value) (cut : map.nodes = before ++ after)
    (low : ∀ node ∈ before, node.1 < key) (high : ∀ node ∈ after, key < node.1) :
    (map.insert key value).nodes = before ++ (key, value) :: after := by
  change insertList key value map.nodes = _
  rw [cut]
  clear cut
  induction before with
  | nil =>
    cases after with
    | nil => rfl
    | cons head rest => simp [insertList, high head (by simp)]
  | cons head rest ih =>
    have above := low head (by simp)
    rw [cons_append]
    simp only [insertList]
    rw [if_neg (not_lt.mpr above.le), if_neg (ne_of_gt above),
      ih (fun node member => low node (by simp [member]))]
    rfl

/-- The key of the next node is inserted behind the nodes of the map. -/
theorem insert_next {rest : List (Key × Value)} (value : Value)
    (ordered : (map.nodes ++ node :: rest).Pairwise fun left right => left.1 < right.1) :
    (map.insert node.1 value).nodes = map.nodes ++ [(node.1, value)] ∧
      ((map.insert node.1 value).nodes ++ rest).Pairwise fun left right => left.1 < right.1 := by
  have grown : (map.insert node.1 value).nodes = map.nodes ++ [(node.1, value)] := by
    apply insert_nodes value (append_nil _).symm _ nofun
    intro other member
    exact (pairwise_append.mp ordered).2.2 other member node mem_cons_self
  have keys : ((map.nodes ++ node :: rest).map Prod.fst).Pairwise (· < ·) :=
    pairwise_map.mpr ordered
  have still : (((map.insert node.1 value).nodes ++ rest).map Prod.fst).Pairwise (· < ·) := by
    rw [grown]
    simpa using keys
  exact ⟨grown, pairwise_map.mp still⟩

theorem prev_of_cut (cut : map.nodes = before ++ (key, value) :: after) :
    map.prev key = before.getLast? := by
  have low := before_lt cut
  have high := lt_after cut
  unfold prev
  congr 1
  rw [cut, filter_append, filter_cons_of_neg (by simp)]
  have kept : before.filter (fun node => decide (node.1 < key)) = before := by
    rw [filter_eq_self]
    intro node member
    simpa using low node member
  have dropped : after.filter (fun node => decide (node.1 < key)) = [] := by
    rw [filter_eq_nil_iff]
    intro node member
    simpa using (high node member).le
  rw [kept, dropped, append_nil]

theorem nfind_of_split (split : map.nodes = before ++ after) (low : ∀ node ∈ before, node.1 < key)
    (high : ∀ node ∈ after, key ≤ node.1) : map.nfind key = after.head? := by
  unfold nfind
  rw [split, find?_append]
  have skipped : before.find? (fun node => decide (key ≤ node.1)) = none := by
    rw [find?_eq_none]
    intro node member
    simpa using low node member
  rw [skipped, none_or]
  cases after with
  | nil => rfl
  | cons head rest => simp [high head (by simp)]

theorem find_node_or_higher_some (hit : map.findNodeOrHigher key = some (found, value)) :
    map.find? found = some value ∧ key ≤ found := by
  have member := mem_of_find?_eq_some hit
  have order := find?_some hit
  exact ⟨find_some_iff.mpr member, of_decide_eq_true order⟩

theorem find_node_or_higher_least (hit : map.findNodeOrHigher key = some (found, value))
    (member : node ∈ map.nodes) (above : key ≤ node.1) : found ≤ node.1 := by
  rcases find?_eq_some_iff_append.mp hit with ⟨_, before, after, cut, skipped⟩
  rw [cut, mem_append, mem_cons] at member
  rcases member with early | same | late
  · have below := skipped node early
    simp [above] at below
  · rw [same]
  · exact (lt_after cut node late).le

theorem find_node_or_higher_none (missed : map.findNodeOrHigher key = none)
    (member : node ∈ map.nodes) : node.1 < key := by
  have below := find?_eq_none.mp missed node member
  simpa using below

theorem find_node_or_lower_of_split (split : map.nodes = before ++ after)
    (low : ∀ node ∈ before, node.1 ≤ key) (high : ∀ node ∈ after, key < node.1) :
    map.findNodeOrLower key = before.getLast? := by
  unfold findNodeOrLower
  rcases eq_nil_or_concat before with rfl | ⟨init, last, rfl⟩
  · rw [nfind_of_split split (by simp) (fun node member => (high node member).le)]
    cases after with
    | nil => simpa [max] using split
    | cons head rest =>
      simp only [head?_cons]
      have cut : map.nodes = [] ++ (head.1, head.2) :: rest := by simpa using split
      rw [if_pos (high head (by simp)), prev_of_cut cut]
  · simp only [concat_eq_append] at split low ⊢
    have cut : map.nodes = init ++ (last.1, last.2) :: after := by simpa using split
    have initLow : ∀ node ∈ init, node.1 < last.1 := before_lt cut
    have lastLow : last.1 ≤ key := low last (by simp)
    rcases lastLow.lt_or_eq with strict | same
    · have belowKey : ∀ node ∈ init ++ [last], node.1 < key := by
        intro node member
        rcases mem_append.mp member with early | final
        · exact (initLow node early).trans strict
        · rw [mem_singleton.mp final]
          exact strict
      rw [nfind_of_split split belowKey (fun node member => (high node member).le)]
      cases after with
      | nil => simp [max, split]
      | cons head rest =>
        simp only [head?_cons]
        rw [if_pos (high head (by simp)), prev_of_cut split]
    · have belowKey : ∀ node ∈ init, node.1 < key := fun node member => same ▸ initLow node member
      have aboveKey : ∀ node ∈ (last.1, last.2) :: after, key ≤ node.1 := by
        intro node member
        rcases mem_cons.mp member with rfl | later
        · exact same.ge
        · exact (high node later).le
      rw [nfind_of_split cut belowKey aboveKey]
      subst same
      simp

theorem exists_split (map : OrderedMap Key Value) (key : Key) :
    ∃ before after, map.nodes = before ++ after ∧ (∀ node ∈ before, node.1 ≤ key) ∧
      ∀ node ∈ after, key < node.1 := by
  rcases map with ⟨nodes, sorted⟩
  induction nodes with
  | nil => exact ⟨[], [], by simp⟩
  | cons head rest ih =>
    have first := (pairwise_cons.mp sorted).1
    by_cases low : head.1 ≤ key
    · obtain ⟨before, after, split, lower, higher⟩ := ih (pairwise_cons.mp sorted).2
      refine ⟨head :: before, after, by simpa using split, ?_, higher⟩
      intro node member
      rcases mem_cons.mp member with rfl | later
      · exact low
      · exact lower node later
    · refine ⟨[], head :: rest, rfl, by simp, ?_⟩
      intro node member
      rcases mem_cons.mp member with rfl | later
      · exact not_le.mp low
      · exact (not_le.mp low).trans (first node later)

theorem find_node_or_lower_some_iff :
    map.findNodeOrLower key = some (found, value) ↔
      map.find? found = some value ∧ found ≤ key ∧
        ∀ node ∈ map.nodes, node.1 ≤ key → node.1 ≤ found := by
  obtain ⟨before, after, split, low, high⟩ := map.exists_split key
  rw [find_node_or_lower_of_split split low high, find_some_iff]
  constructor
  · intro last
    obtain ⟨init, rfl⟩ := getLast?_eq_some_iff.mp last
    have cut : map.nodes = init ++ (found, value) :: after := by simpa using split
    refine ⟨by simp [cut], low (found, value) (by simp), ?_⟩
    intro node member below
    rw [split, mem_append, mem_append, mem_singleton] at member
    rcases member with (early | rfl) | late
    · exact (before_lt cut node early).le
    · exact le_rfl
    · exact absurd below (not_le.mpr (high node late))
  · rintro ⟨member, below, greatest⟩
    have inBefore : (found, value) ∈ before := by
      rw [split, mem_append] at member
      rcases member with early | late
      · exact early
      · exact absurd below (not_le.mpr (high _ late))
    obtain ⟨early, late, parts⟩ := append_of_mem inBefore
    have lateNil : late = [] := by
      rcases late with _ | ⟨node, rest⟩
      · rfl
      · have nodeIn : node ∈ map.nodes := by simp [split, parts]
        have nodeLow : node.1 ≤ found := greatest node nodeIn (low node (by simp [parts]))
        have cut : map.nodes = early ++ (found, value) :: (node :: rest ++ after) := by
          simp [split, parts]
        have nodeHigh : found < node.1 := lt_after cut node (by simp)
        exact absurd nodeLow (not_le.mpr nodeHigh)
    rw [parts, lateNil]
    simp

theorem find_node_or_lower_none_iff :
    map.findNodeOrLower key = none ↔ ∀ node ∈ map.nodes, key < node.1 := by
  obtain ⟨before, after, split, low, high⟩ := map.exists_split key
  rw [find_node_or_lower_of_split split low high, getLast?_eq_none_iff]
  constructor
  · rintro rfl
    simpa [split] using high
  · intro above
    rcases before with _ | ⟨node, rest⟩
    · rfl
    · have nodeLow := low node (by simp)
      exact absurd nodeLow (not_le.mpr (above node (by simp [split])))

end OrderedMap
end FrostyKernel
