import Mathlib.Tactic

/-!
# Linked lists in a memory

A node is known by its address, zero is the null pointer, and a memory gives
each address a value and the address of the next node. `Segment` says that
following the next pointers from one address visits the given nodes and arrives
at another address. A search walks such a list with a pointer to the node before
the current one, as code that unlinks or inserts nodes does.
-/

namespace FrostyKernel

open List

section Segment
variable {Value : Type*} {next : Nat → Nat} {value : Nat → Value}

def Segment (next : Nat → Nat) (value : Nat → Value) : Nat → List (Nat × Value) → Nat → Prop
  | first, [], last => first = last
  | first, item :: rest, last =>
    first = item.1 ∧ item.1 ≠ 0 ∧ value item.1 = item.2 ∧ Segment next value (next item.1) rest last

def firstOr (items : List (Nat × Value)) (last : Nat) : Nat := (items.head?.map Prod.fst).getD last

def lastOr (previous : Nat) (items : List (Nat × Value)) : Nat :=
  (items.getLast?.map Prod.fst).getD previous

@[simp] theorem first_or_nil (last : Nat) : firstOr ([] : List (Nat × Value)) last = last := rfl

@[simp] theorem first_or_cons (item : Nat × Value) (rest : List (Nat × Value)) (last : Nat) :
    firstOr (item :: rest) last = item.1 := rfl

variable (previous : Nat)

@[simp] theorem last_or_nil : lastOr previous ([] : List (Nat × Value)) = previous := rfl

@[simp] theorem last_or_snoc (items : List (Nat × Value)) (item : Nat × Value) :
    lastOr previous (items ++ [item]) = item.1 := by
  simp [lastOr]

theorem last_or_cons (item : Nat × Value) (rest : List (Nat × Value)) :
    lastOr previous (item :: rest) = lastOr item.1 rest := by
  rcases eq_nil_or_concat rest with nothing | ⟨initial, last, whole⟩
  · simp [nothing, lastOr]
  · rw [whole, concat_eq_append, last_or_snoc, ← cons_append, last_or_snoc]

theorem last_or_append (left right : List (Nat × Value)) :
    lastOr previous (left ++ right) = lastOr (lastOr previous left) right := by
  rcases eq_nil_or_concat right with nothing | ⟨initial, last, whole⟩
  · simp [nothing]
  · rw [whole, concat_eq_append, ← append_assoc, last_or_snoc, last_or_snoc]

variable {items left right : List (Nat × Value)} {first last : Nat} {item : Nat × Value}
  {other : Nat → Nat} {otherValue : Nat → Value}

theorem last_or_mem (nonempty : items ≠ []) : ∃ item ∈ items, lastOr previous items = item.1 := by
  rcases eq_nil_or_concat items with nothing | ⟨initial, last, whole⟩
  · exact absurd nothing nonempty
  · rw [concat_eq_append] at whole
    exact ⟨last, by simp [whole], by rw [whole, last_or_snoc]⟩

/-- What precedes a nonempty list does not matter for its last node. -/
theorem last_or_tail (nonempty : items ≠ []) (previous other : Nat) (left : List (Nat × Value)) :
    lastOr previous (left ++ items) = lastOr other items := by
  rcases eq_nil_or_concat items with nothing | ⟨initial, last, whole⟩
  · exact absurd nothing nonempty
  · rw [whole, concat_eq_append, ← append_assoc, last_or_snoc, last_or_snoc]

@[simp] theorem segment_nil (first last : Nat) :
    Segment next value first [] last ↔ first = last := Iff.rfl

@[simp] theorem segment_cons (first last : Nat) (item : Nat × Value) (rest : List (Nat × Value)) :
    Segment next value first (item :: rest) last ↔
      first = item.1 ∧ item.1 ≠ 0 ∧ value item.1 = item.2 ∧
        Segment next value (next item.1) rest last := Iff.rfl

theorem segment_append :
    Segment next value first (left ++ right) last ↔
      ∃ middle, Segment next value first left middle ∧ Segment next value middle right last := by
  induction left generalizing first with
  | nil => simp
  | cons item rest ih =>
    rw [cons_append, segment_cons, ih]
    constructor
    · intro whole
      rcases whole with ⟨atFirst, nonzero, holds, middle, front, back⟩
      exact ⟨middle, ⟨atFirst, nonzero, holds, front⟩, back⟩
    · intro parts
      rcases parts with ⟨middle, ⟨atFirst, nonzero, holds, front⟩, back⟩
      exact ⟨atFirst, nonzero, holds, middle, front, back⟩

section
variable (segment : Segment next value first items last)
include segment

theorem segment_first : first = firstOr items last := by
  cases items with
  | nil => exact segment
  | cons item rest => exact segment.1

theorem segment_mem (member : item ∈ items) : item.1 ≠ 0 ∧ value item.1 = item.2 := by
  rcases append_of_mem member with ⟨left, right, whole⟩
  rw [whole, segment_append] at segment
  rcases segment with ⟨_, _, back⟩
  exact ⟨back.2.1, back.2.2.1⟩

/-- Two memories that agree on the nodes of a list hold the same list. -/
theorem segment_congr
    (same : ∀ item ∈ items, other item.1 = next item.1 ∧ otherValue item.1 = value item.1) :
    Segment other otherValue first items last := by
  induction items generalizing first with
  | nil => exact segment
  | cons item rest ih =>
    rcases segment with ⟨atFirst, nonzero, holds, tail⟩
    have here := same item (by simp)
    refine ⟨atFirst, nonzero, here.2.trans holds, ?_⟩
    rw [here.1]
    exact ih tail (fun later member => same later (by simp [member]))

end

theorem segment_drop (segment : Segment next value first (left ++ right) last) :
    Segment next value first left (firstOr right last) ∧
      Segment next value (firstOr right last) right last := by
  rcases segment_append.mp segment with ⟨middle, front, back⟩
  rw [← segment_first back]
  exact ⟨front, back⟩

/-- The next pointer of a node leads to the node after it. -/
theorem segment_next (segment : Segment next value first (left ++ item :: right) last) :
    next item.1 = firstOr right last := by
  rcases segment_append.mp segment with ⟨_, _, back⟩
  exact segment_first back.2.2.2

theorem segment_entry (segment : Segment next value first (left ++ right) last) :
    (if left = [] then first else next (lastOr 0 left)) = firstOr right last := by
  rcases eq_nil_or_concat left with nothing | ⟨initial, final, whole⟩
  · subst nothing
    exact segment_first segment
  · rw [concat_eq_append] at whole
    subst whole
    rw [if_neg (by simp), last_or_snoc]
    rw [append_assoc] at segment
    exact segment_next segment

/-- Exchange the nodes in the middle of a null-terminated list: the pointer into
the middle is written, the nodes around it keep everything else. -/
theorem segment_splice {otherFirst : Nat} {old new : List (Nat × Value)}
    (segment : Segment next value first (left ++ (old ++ right)) 0)
    (leftValue : ∀ item ∈ left, otherValue item.1 = value item.1)
    (leftNext : ∀ item ∈ left, item.1 ≠ lastOr 0 left → other item.1 = next item.1)
    (distinct : left.Pairwise fun before after => before.1 ≠ after.1)
    (start : left ≠ [] → otherFirst = first)
    (entry : (if left = [] then otherFirst else other (lastOr 0 left)) = firstOr (new ++ right) 0)
    (middle : Segment other otherValue (firstOr (new ++ right) 0) new (firstOr right 0))
    (rightSame : ∀ item ∈ right, other item.1 = next item.1 ∧ otherValue item.1 = value item.1) :
    Segment other otherValue otherFirst (left ++ (new ++ right)) 0 := by
  have parts := segment_drop segment
  have rightTail := (segment_drop parts.2).2
  have tail : Segment other otherValue (firstOr (new ++ right) 0) (new ++ right) 0 :=
    segment_append.mpr ⟨_, middle, segment_congr rightTail rightSame⟩
  apply segment_append.mpr
  refine ⟨firstOr (new ++ right) 0, ?_, tail⟩
  rcases eq_nil_or_concat left with nothing | ⟨initial, last, whole⟩
  · subst nothing
    simpa using entry
  rw [concat_eq_append] at whole
  subst whole
  rw [if_neg (by simp), last_or_snoc] at entry
  rw [start (by simp)]
  rcases segment_append.mp parts.1 with ⟨pointer, front, final⟩
  apply segment_append.mpr
  refine ⟨pointer, segment_congr front ?_, final.1, final.2.1, ?_, entry⟩
  · intro item member
    have before := (pairwise_append.mp distinct).2.2 item member last (by simp)
    rw [last_or_snoc] at leftNext
    exact ⟨leftNext item (by simp [member]) before, leftValue item (by simp [member])⟩
  · rw [leftValue last (by simp)]
    exact final.2.2.1

/-- The nodes met when following at most `count` next pointers. -/
def walk (next : Nat → Nat) (value : Nat → Value) : Nat → Nat → List (Nat × Value)
  | 0, _ => []
  | count + 1, current =>
    if current = 0 then []
    else (current, value current) :: walk next value count (next current)

theorem walk_of_segment (segment : Segment next value first items 0) :
    walk next value items.length first = items := by
  induction items generalizing first with
  | nil => rfl
  | cons item rest ih =>
    rcases segment with ⟨atFirst, nonzero, holds, tail⟩
    simp only [length_cons, walk, atFirst, nonzero, if_false, holds, ih tail]

end Segment

section Search
variable {Value : Type*} {next : Nat → Nat} {value : Nat → Value}

/-- Walk a list until `stop` holds of the previous and the current node or the
list ends; `check` is asserted at every node. The result is the previous and the
current node, null where there is none. -/
def search (next : Nat → Nat) (check stop : Nat → Nat → Bool) : Nat → Nat → Nat → Option (Nat × Nat)
  | 0, _, _ => none
  | fuel + 1, previous, current =>
    if current = 0 then some (previous, 0)
    else if check previous current = false then none
    else if stop previous current = true then some (previous, current)
    else search next check stop fuel current (next current)

def Passes (check stop : Nat → Nat → Bool) : Nat → List (Nat × Value) → Prop
  | _, [] => True
  | previous, item :: rest =>
    check previous item.1 = true ∧ stop previous item.1 = false ∧ Passes check stop item.1 rest

variable {first previous : Nat} {check stop : Nat → Nat → Bool}

theorem passes_of_forall {items : List (Nat × Value)}
    (each : ∀ previous, ∀ item ∈ items, check previous item.1 = true ∧ stop previous item.1 = false)
    (previous : Nat) : Passes check stop previous items := by
  induction items generalizing previous with
  | nil => trivial
  | cons item rest ih =>
    have here := each previous item (by simp)
    exact ⟨here.1, here.2, ih (fun before later member => each before later (by simp [member])) _⟩

theorem search_stops {fuel : Nat} {place : Nat × Nat}
    (found : search next check stop fuel previous first = some place) (nonzero : place.2 ≠ 0) :
    stop place.1 place.2 = true := by
  induction fuel generalizing previous first with
  | zero => simp [search] at found
  | succ fuel ih =>
    unfold search at found
    split_ifs at found with null _ halts
    · rw [← Option.some.inj found] at nonzero
      exact absurd rfl nonzero
    · rw [← Option.some.inj found]
      exact halts
    · exact ih found

theorem search_passes {left right : List (Nat × Value)} {fuel : Nat}
    (segment : Segment next value first (left ++ right) 0)
    (passes : Passes check stop previous left)
    (halts : ∀ item ∈ right.head?, check (lastOr previous left) item.1 = true ∧
      stop (lastOr previous left) item.1 = true) (enough : left.length < fuel) :
    search next check stop fuel previous first = some (lastOr previous left, firstOr right 0) := by
  induction left generalizing previous first fuel with
  | nil =>
    cases fuel with
    | zero => simp at enough
    | succ fuel =>
      cases right with
      | nil =>
        have null : first = 0 := segment
        simp [search, null]
      | cons item rest =>
        have here := halts item (by simp)
        rw [last_or_nil] at here
        simp [search, segment.1, segment.2.1, here.1, here.2]
  | cons item rest ih =>
    cases fuel with
    | zero => simp at enough
    | succ fuel =>
      rcases segment with ⟨atFirst, nonzero, _, tail⟩
      rcases passes with ⟨checked, goesOn, further⟩
      rw [last_or_cons] at halts ⊢
      have rest := ih tail further halts (by simpa using enough)
      simpa [search, atFirst, nonzero, checked, goesOn] using rest

end Search
end FrostyKernel
