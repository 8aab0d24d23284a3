import FrostyKernel.Memory.Cases

/-!
# What an address space shows at a page

The loop of `Internal_FreePages` cuts entries on its way. A cut hands pages from one entry
to another, but a page keeps its slot and its key in the object, so what the loop meets at
a page is what the tree shows there before the call.
-/

namespace FrostyKernel.Memory

open Word List Option OrderedMap

theorem page_end_of_lt {start count : Nat} (word : start + count * pageSize < 2 ^ 64) :
    pageEnd start count = start + count * pageSize := by
  rw [pageEnd, mul64_of_lt (by omega), add64_of_lt word]

/-- What an entry has for one of its pages: the slot of its map, and the key under which
`Internal_FreePages` looks for the page in the object. -/
structure Cell where
  slot : Option (Option AnonId)
  backing : Option (ObjectId × Nat)
deriving DecidableEq, Repr

namespace MapEntry

def cell (entry : MapEntry) (index : Nat) : Cell where
  slot := entry.anonMap.map fun map => (map.slots[index]?).getD none
  backing := entry.memoryObject.map fun id => (id, add64 entry.offset index)

/-- An entry as the manager makes them: whole pages below the top of the address space, a
slot for each page, and keys that do not wrap. -/
structure Laid (entry : MapEntry) : Prop where
  aligned : pageSize ∣ entry.startVirt
  nonempty : 0 < entry.pageCount
  ends : entry.endVirt = entry.startVirt + entry.pageCount * pageSize
  word : entry.endVirt < 2 ^ 64
  slots : ∀ map, entry.anonMap = some map →
    map.slotCount = entry.pageCount ∧ map.slots.length = entry.pageCount
  keys : entry.offset + entry.pageCount < 2 ^ 64

/-- The second entry is made of pages of the first, from the page `skip` on. -/
structure Part (entry part : MapEntry) (skip : Nat) : Prop where
  laid : part.Laid
  start : part.startVirt = entry.startVirt + skip * pageSize
  room : skip + part.pageCount ≤ entry.pageCount
  cells : ∀ index < part.pageCount, part.cell index = entry.cell (skip + index)

variable {entry piece last : MapEntry} {skip more count : Nat}

theorem Laid.pages (laid : entry.Laid) : entry.pages = entry.pageCount := by
  rw [MapEntry.pages, sub64_of_le laid.word (by rw [laid.ends]; omega), pageCount]

theorem Laid.part (laid : entry.Laid) : Part entry entry 0 :=
  ⟨laid, by simp, by simp, by simp⟩

theorem Part.trans (first : Part entry piece skip) (second : Part piece last more) :
    Part entry last (skip + more) := by
  refine ⟨second.laid, ?_, ?_, ?_⟩
  · rw [second.start, first.start, Nat.add_mul, Nat.add_assoc]
  · have inner := second.room
    have outer := first.room
    omega
  · intro index inside
    have inner := second.room
    rw [second.cells index inside, first.cells (more + index) (by omega), Nat.add_assoc]

section Split
variable (laid : entry.Laid) (fewer : count < entry.pageCount)
include laid fewer

theorem Laid.middle : pageEnd entry.startVirt count = entry.startVirt + count * pageSize ∧
    sub64 entry.endVirt (pageEnd entry.startVirt count) / pageSize = entry.pageCount - count := by
  have bytes := Nat.mul_le_mul_right pageSize fewer.le
  have middle : pageEnd entry.startVirt count = entry.startVirt + count * pageSize :=
    page_end_of_lt (by have := laid.ends; have := laid.word; omega)
  refine ⟨middle, ?_⟩
  rw [middle, sub64_of_le laid.word (by have := laid.ends; omega), laid.ends,
    Nat.add_sub_add_left, ← Nat.sub_mul, Nat.mul_div_cancel _ (by decide)]

variable (positive : 0 < count)
include positive

theorem split_lower_part :
    Part entry (VMM.splitEntry entry count).1 0 ∧
      (VMM.splitEntry entry count).1.pageCount = count := by
  have middle := (laid.middle fewer).1
  have pages : (VMM.splitEntry entry count).1.pageCount = count := by
    simp only [VMM.splitEntry, pageCount, middle]
    rw [Nat.add_sub_cancel_left, Nat.mul_div_cancel _ (by decide)]
  have bytes := Nat.mul_le_mul_right pageSize fewer.le
  refine ⟨⟨⟨laid.aligned, by omega, ?_, ?_, ?_, ?_⟩, by simp [VMM.splitEntry], by omega, ?_⟩, pages⟩
  · rw [pages]
    exact middle
  · have ends := laid.ends
    have word := laid.word
    change pageEnd entry.startVirt count < 2 ^ 64
    omega
  · rintro map mapped
    obtain ⟨old, has, rfl⟩ := map_eq_some_iff.mp mapped
    rw [pages]
    exact ⟨rfl, by rw [length_take, (laid.slots old has).2, min_eq_left fewer.le]⟩
  · have keys := laid.keys
    change entry.offset + _ < _
    omega
  · intro index inside
    rw [pages] at inside
    simp only [cell, VMM.splitEntry, Option.map_map, Function.comp_def, Nat.zero_add,
      getElem?_take_of_lt inside]

theorem split_upper_part :
    Part entry (VMM.splitEntry entry count).2 count ∧
      (VMM.splitEntry entry count).2.pageCount = entry.pageCount - count := by
  obtain ⟨middle, left⟩ := laid.middle fewer
  have ends := laid.ends
  have pages : (VMM.splitEntry entry count).2.pageCount = entry.pageCount - count := by
    change (entry.endVirt - pageEnd entry.startVirt count) / pageSize = _
    rw [middle, ends, Nat.add_sub_add_left, ← Nat.sub_mul, Nat.mul_div_cancel _ (by decide)]
  have keys := laid.keys
  have offset : entry.memoryObject ≠ none →
      (VMM.splitEntry entry count).2.offset = entry.offset + count := by
    intro backed
    simp only [VMM.splitEntry, if_neg backed]
    exact add64_of_lt (by omega)
  refine ⟨⟨⟨?_, by omega, ?_, laid.word, ?_, ?_⟩, middle, by omega, ?_⟩, pages⟩
  · change pageSize ∣ pageEnd entry.startVirt count
    rw [middle]
    exact dvd_add laid.aligned (dvd_mul_left pageSize count)
  · rw [pages]
    change entry.endVirt = pageEnd entry.startVirt count + _
    have bytes := Nat.sub_mul entry.pageCount count pageSize
    have fits := Nat.mul_le_mul_right pageSize fewer.le
    omega
  · rintro map mapped
    obtain ⟨old, has, rfl⟩ := map_eq_some_iff.mp mapped
    rw [pages, left, length_take, length_drop, (laid.slots old has).2, min_self]
    exact ⟨rfl, rfl⟩
  · rw [pages]
    by_cases backed : entry.memoryObject = none
    · simp only [VMM.splitEntry, backed, if_true]
      omega
    · rw [offset backed]
      omega
  · intro index inside
    rw [pages] at inside
    simp only [cell, Cell.mk.injEq]
    constructor
    · simp only [VMM.splitEntry, Option.map_map, Function.comp_def, left,
        getElem?_take_of_lt inside, getElem?_drop]
    · cases backed : entry.memoryObject with
      | none => simp [VMM.splitEntry, backed]
      | some id =>
        rw [offset (by simp [backed])]
        simp only [VMM.splitEntry, backed, map_some]
        rw [add64, add64, Nat.add_assoc]

end Split
end MapEntry

open MapEntry

/-! ### Trees -/

/-- The tree has an entry for the page at the address, with this cell. -/
def Shows (tree : OrderedMap Nat MapEntry) (address : Nat) (cell : Cell) : Prop :=
  ∃ key entry index, tree.find? key = some entry ∧ index < entry.pageCount ∧
    address = key + index * pageSize ∧ cell = entry.cell index

/-- Every node is stored under its start, and the entries do not overlap. -/
structure LaidOut (tree : OrderedMap Nat MapEntry) : Prop where
  start : ∀ key entry, tree.find? key = some entry → entry.startVirt = key
  laid : ∀ key entry, tree.find? key = some entry → entry.Laid
  apart : ∀ low entry high other, tree.find? low = some entry → tree.find? high = some other →
    low < high → entry.endVirt ≤ high

/-- No entry has pages on both sides of the address. -/
def NoSpan (tree : OrderedMap Nat MapEntry) (address : Nat) : Prop :=
  ∀ key entry, tree.find? key = some entry → key < address → entry.endVirt ≤ address

/-- The second tree is made of pages of the first. -/
structure CutFrom (before after : OrderedMap Nat MapEntry) : Prop where
  laidOut : LaidOut after
  shows : ∀ address cell, Shows after address cell → Shows before address cell

variable {tree cut last : OrderedMap Nat MapEntry} {key address : Nat} {entry piece : MapEntry}
  {cell other : Cell} {parts : List (Nat × MapEntry)} {skip count : Nat}

theorem LaidOut.refl (laidOut : LaidOut tree) : CutFrom tree tree := ⟨laidOut, fun _ _ => id⟩

theorem CutFrom.trans (first : CutFrom tree cut) (second : CutFrom cut last) : CutFrom tree last :=
  ⟨second.laidOut, fun address cell seen => first.shows address cell (second.shows address cell seen)⟩

section Beside
variable (laidOut : LaidOut tree) (found : tree.find? key = some entry)
include laidOut found

theorem LaidOut.beside {other : Nat} {value : MapEntry} (there : tree.find? other = some value)
    (different : other ≠ key) : (other < key ∧ value.endVirt ≤ key) ∨ entry.endVirt ≤ other := by
  rcases lt_or_gt_of_ne different with below | above
  · exact .inl ⟨below, laidOut.apart other value key entry there found below⟩
  · exact .inr (laidOut.apart key entry other value found there above)

theorem absent_inside (low : key < address) (high : address < entry.endVirt) :
    tree.find? address = none := by
  cases there : tree.find? address with
  | none => rfl
  | some value =>
    have apart := laidOut.beside found there low.ne'
    omega

theorem no_span_end : NoSpan tree entry.endVirt := by
  intro other value there below
  have ends := (laidOut.laid key entry found).ends
  have start := laidOut.start key entry found
  by_cases same : other = key
  · rw [same, found] at there
    cases there
    exact le_rfl
  · have apart := laidOut.beside found there same
    omega

end Beside

theorem shows_unique (laidOut : LaidOut tree) (here : Shows tree address cell)
    (there : Shows tree address other) : cell = other := by
  obtain ⟨key, entry, index, found, inside, rfl, rfl⟩ := here
  obtain ⟨key', entry', index', found', inside', same, rfl⟩ := there
  have ends := (laidOut.laid key entry found).ends
  have ends' := (laidOut.laid key' entry' found').ends
  rw [laidOut.start key entry found] at ends
  rw [laidOut.start key' entry' found'] at ends'
  simp only [pageSize] at ends ends' same
  by_cases equal : key' = key
  · rw [equal, found] at found'
    cases found'
    rw [show index = index' by omega]
  · have apart := laidOut.beside found found' equal
    omega

/-- What becomes of a tree when one entry gives way to parts of it. -/
structure CutApart (tree : OrderedMap Nat MapEntry) (key : Nat) (entry : MapEntry)
    (parts : List (Nat × MapEntry)) (cut : OrderedMap Nat MapEntry) : Prop where
  found : tree.find? key = some entry
  nodes : ∀ other value, cut.find? other = some value →
    (tree.find? other = some value ∧ other ≠ key) ∨ (other, value) ∈ parts
  made : ∀ start part, (start, part) ∈ parts → part.startVirt = start ∧ ∃ skip, Part entry part skip
  apart : ∀ low part high other, (low, part) ∈ parts → (high, other) ∈ parts → low < high →
    part.endVirt ≤ high

namespace CutApart

variable (laidOut : LaidOut tree) (replaces : CutApart tree key entry parts cut)
include laidOut replaces

theorem part_bounds {place : Nat} {value : MapEntry} (member : (place, value) ∈ parts) :
    key ≤ place ∧ place < value.endVirt ∧ value.endVirt ≤ entry.endVirt := by
  obtain ⟨start, skip, part⟩ := replaces.made place value member
  have ends := (laidOut.laid key entry replaces.found).ends
  have whole := laidOut.start key entry replaces.found
  have partEnds := part.laid.ends
  have partStart := part.start
  have nonempty := part.laid.nonempty
  have room := part.room
  simp only [pageSize] at ends partEnds partStart
  omega

theorem cutFrom : CutFrom tree cut := by
  refine ⟨⟨?_, ?_, ?_⟩, ?_⟩
  · intro other value found
    rcases replaces.nodes other value found with ⟨old, _⟩ | member
    · exact laidOut.start other value old
    · exact (replaces.made other value member).1
  · intro other value found
    rcases replaces.nodes other value found with ⟨old, _⟩ | member
    · exact laidOut.laid other value old
    · obtain ⟨_, skip, part⟩ := replaces.made other value member
      exact part.laid
  · intro low value high value' lowFound highFound order
    rcases replaces.nodes low value lowFound with ⟨lowOld, lowOther⟩ | lowPart
    · rcases replaces.nodes high value' highFound with ⟨highOld, _⟩ | highPart
      · exact laidOut.apart low value high value' lowOld highOld order
      · have bounds := replaces.part_bounds laidOut highPart
        rcases laidOut.beside replaces.found lowOld lowOther with behind | before <;> omega
    · have bounds := replaces.part_bounds laidOut lowPart
      rcases replaces.nodes high value' highFound with ⟨highOld, highOther⟩ | highPart
      · rcases laidOut.beside replaces.found highOld highOther with behind | before <;> omega
      · exact replaces.apart low value high value' lowPart highPart order
  · rintro address cell ⟨other, value, index, found, inside, rfl, rfl⟩
    rcases replaces.nodes other value found with ⟨old, _⟩ | member
    · exact ⟨other, value, index, old, inside, rfl, rfl⟩
    · obtain ⟨start, skip, part⟩ := replaces.made other value member
      have room := part.room
      refine ⟨key, entry, skip + index, replaces.found, by omega, ?_, part.cells index inside⟩
      rw [← start, part.start, laidOut.start key entry replaces.found, Nat.add_mul, Nat.add_assoc]

theorem noSpan {boundary : Nat} (low : key ≤ boundary) (high : boundary ≤ entry.endVirt)
    (whole : ∀ start part, (start, part) ∈ parts → start < boundary → part.endVirt ≤ boundary) :
    NoSpan cut boundary := by
  intro other value found below
  rcases replaces.nodes other value found with ⟨old, different⟩ | member
  · rcases laidOut.beside replaces.found old different with behind | before <;> omega
  · exact whole other value member below

end CutApart

/-- Fewer nodes show less. -/
theorem LaidOut.fewer (laidOut : LaidOut tree)
    (fewer : ∀ other value, cut.find? other = some value → tree.find? other = some value) :
    CutFrom tree cut := by
  refine ⟨⟨?_, ?_, ?_⟩, ?_⟩
  · exact fun other value found => laidOut.start other value (fewer other value found)
  · exact fun other value found => laidOut.laid other value (fewer other value found)
  · exact fun low value high value' lowFound highFound =>
      laidOut.apart low value high value' (fewer _ _ lowFound) (fewer _ _ highFound)
  · rintro address cell ⟨other, value, index, found, seen⟩
    exact ⟨other, value, index, fewer other value found, seen⟩

/-- An entry for exactly these pages was cut out. -/
structure Isolated (tree cut : OrderedMap Nat MapEntry) (entry piece : MapEntry)
    (skip count : Nat) : Prop where
  cutFrom : CutFrom tree cut
  part : Part entry piece skip
  pages : piece.pageCount = count
  noSpan : NoSpan cut (piece.startVirt + count * pageSize)

namespace VMM

variable {vmm next : VMM} {virt : Nat}

/-! ### Cutting an entry within the tree -/

section Halves
variable {lower upper : MapEntry} (halves : splitEntry entry count = (lower, upper))
  (laidOut : LaidOut tree) (found : tree.find? key = some entry)
  (positive : 0 < count) (fewer : count < entry.pageCount)
include halves laidOut found positive fewer

theorem halves_parts : (Part entry lower 0 ∧ lower.pageCount = count) ∧
    (Part entry upper count ∧ upper.pageCount = entry.pageCount - count) ∧
    key < upper.startVirt ∧ upper.startVirt < entry.endVirt := by
  have laid := laidOut.laid key entry found
  have start := laidOut.start key entry found
  have ends := laid.ends
  have first := split_lower_part laid fewer positive
  have second := split_upper_part laid fewer positive
  rw [halves] at first second
  have upperStart := second.1.start
  simp only [pageSize] at upperStart ends
  exact ⟨first, second, by omega, by omega⟩

theorem find_halves (other : Nat) :
    ((tree.set key lower).insert upper.startVirt upper).find? other =
      if other = upper.startVirt then some upper
      else if other = key then some lower else tree.find? other := by
  obtain ⟨_, _, above, below⟩ := halves_parts halves laidOut found positive fewer
  rw [find_insert_of_none, find_set, found]
  · rfl
  · rw [find_set, if_neg above.ne', absent_inside laidOut found above below]

theorem split_in_place :
    CutFrom tree ((tree.set key lower).insert upper.startVirt upper) ∧
      NoSpan ((tree.set key lower).insert upper.startVirt upper)
        (entry.startVirt + count * pageSize) := by
  have find := find_halves halves laidOut found positive fewer
  obtain ⟨⟨first, pages⟩, ⟨second, _⟩, above, below⟩ :=
    halves_parts halves laidOut found positive fewer
  have start := laidOut.start key entry found
  have lowerEnds := first.laid.ends
  have lowerStart := first.start
  have upperStart := second.start
  rw [pages] at lowerEnds
  have replaces : CutApart tree key entry [(key, lower), (upper.startVirt, upper)]
      ((tree.set key lower).insert upper.startVirt upper) := by
    refine ⟨found, ?_, ?_, ?_⟩
    · intro other value there
      rw [find] at there
      split_ifs at there with high low
      · cases there
        exact .inr (by simp [high])
      · cases there
        exact .inr (by simp [low])
      · exact .inl ⟨there, low⟩
    · intro place part member
      rcases mem_pair.mp member with here | here <;> cases here
      · exact ⟨by omega, 0, first⟩
      · exact ⟨rfl, count, second⟩
    · intro low part high other lowMember highMember order
      rcases mem_pair.mp lowMember with here | here <;> cases here <;>
        rcases mem_pair.mp highMember with there | there <;> cases there <;> omega
  refine ⟨replaces.cutFrom laidOut, replaces.noSpan laidOut (by omega) (by omega) ?_⟩
  intro place part member below
  rcases mem_pair.mp member with here | here <;> cases here <;> omega

end Halves

/-! ### Cutting an entry out of the tree -/

theorem cut_back_cases (result : vmm.cutBack entry virt count = some (next, some piece)) :
    Spares vmm next ∧
      ((entry.endVirt ≤ pageEnd virt count ∧ piece = entry ∧ next.mapEntries = vmm.mapEntries) ∨
        (pageEnd virt count < entry.endVirt ∧ ∃ upper, splitEntry entry count = (piece, upper) ∧
          next.mapEntries = vmm.mapEntries.insert upper.startVirt upper)) := by
  unfold cutBack at result
  split_ifs at result with beyond
  · split at result
    · cases result
    · cases result
    · rename_i split lower upper halves
      cases result
      obtain ⟨spares, tree, parts⟩ := split_map_entry_cases halves
      refine ⟨spares.trans (.of_same rfl rfl), .inr ⟨beyond, upper, parts _ rfl, ?_⟩⟩
      change split.mapEntries.insert _ _ = _
      rw [tree]
  · cases result
    exact ⟨.of_same rfl rfl, .inl ⟨not_lt.mp beyond, rfl, rfl⟩⟩

/-- A loose entry is cut as it would be in the tree that still has it. -/
theorem cut_back_isolates {loose : MapEntry} (laidOut : LaidOut tree)
    (found : tree.find? loose.startVirt = some loose)
    (fewer : ∀ other value, vmm.mapEntries.find? other = some value →
      tree.find? other = some value)
    (out : vmm.mapEntries.find? loose.startVirt = none)
    (positive : 0 < count) (room : count ≤ loose.pageCount)
    (result : vmm.cutBack loose loose.startVirt count = some (next, some piece)) :
    Isolated tree next.mapEntries loose piece 0 count := by
  have laid := laidOut.laid _ loose found
  have ends := laid.ends
  have stop : pageEnd loose.startVirt count = loose.startVirt + count * pageSize :=
    page_end_of_lt (by have := laid.word; have := Nat.mul_le_mul_right pageSize room; omega)
  rcases (cut_back_cases result).2 with ⟨whole, rfl, same⟩ | ⟨beyond, upper, halves, same⟩
  · have pages : piece.pageCount = count := by
      simp only [pageSize] at stop ends
      omega
    rw [same]
    refine ⟨laidOut.fewer fewer, laid.part, pages, ?_⟩
    rw [← pages, ← ends]
    exact fun other value there => no_span_end laidOut found other value (fewer other value there)
  · have less : count < loose.pageCount := by
      simp only [pageSize] at stop ends
      omega
    obtain ⟨⟨first, pages⟩, _, above, below⟩ := halves_parts halves laidOut found positive less
    obtain ⟨placed, noSpan⟩ := split_in_place halves laidOut found positive less
    have lost : vmm.mapEntries.find? upper.startVirt = none := by
      cases there : vmm.mapEntries.find? upper.startVirt with
      | none => rfl
      | some value =>
        have absent := absent_inside laidOut found above below
        rw [fewer _ value there] at absent
        cases absent
    have fewer' : ∀ other value, next.mapEntries.find? other = some value →
        ((tree.set loose.startVirt piece).insert upper.startVirt upper).find? other =
          some value := by
      intro other value there
      rw [same, find_insert_of_none _ lost] at there
      rw [find_halves halves laidOut found positive less]
      split_ifs at there ⊢ with high low
      · exact there
      · rw [low, out] at there
        cases there
      · exact fewer other value there
    refine ⟨placed.trans (placed.laidOut.fewer fewer'), first, pages, ?_⟩
    rw [first.start, Nat.zero_mul, Nat.add_zero]
    exact fun other value there => noSpan other value (fewer' other value there)

/-- What has to hold for `count` pages from the page `skip` of an entry on to be cut out. -/
structure Within (tree : OrderedMap Nat MapEntry) (key : Nat) (entry : MapEntry) (virt skip : Nat)
    (count : Nat) : Prop where
  laidOut : LaidOut tree
  found : tree.find? key = some entry
  virt : virt = entry.startVirt + skip * pageSize
  positive : 0 < count
  room : skip + count ≤ entry.pageCount

theorem Within.skipped (within : Within tree key entry virt skip count) (before : key < virt) :
    entry.Laid ∧ sub64 virt entry.startVirt / pageSize = skip ∧ 0 < skip ∧
      skip < entry.pageCount := by
  have laid := within.laidOut.laid key entry within.found
  have start := within.laidOut.start key entry within.found
  have virt := within.virt
  have ends := laid.ends
  have word := laid.word
  have room := within.room
  have positive := within.positive
  refine ⟨laid, ?_, ?_, by omega⟩
  · have bytes := Nat.mul_le_mul_right pageSize room
    rw [Nat.add_mul] at bytes
    rw [sub64_of_le (by omega) (by omega), virt, Nat.add_sub_cancel_left,
      Nat.mul_div_cancel _ (by decide)]
  · simp only [pageSize] at virt
    omega

theorem detach_isolates (within : Within vmm.mapEntries key entry virt skip count)
    (result : vmm.detach key entry virt count = some (next, some piece)) :
    Spares vmm next ∧ Isolated vmm.mapEntries next.mapEntries entry piece skip count := by
  unfold detach at result
  split_ifs at result with before
  · split at result
    · cases result
    · cases result
    · rename_i split lower upper halves
      obtain ⟨spares, tree, parts⟩ := split_map_entry_cases halves
      have stored : Spares split (split.setEntry key lower) := .of_same rfl rfl
      refine ⟨(spares.trans stored).trans (cut_back_cases result).1, ?_⟩
      have start := within.laidOut.start key entry within.found
      obtain ⟨laid, index, positive, fewer⟩ := within.skipped (by omega)
      have halves : splitEntry entry skip = (lower, upper) := by
        rw [← index]
        exact parts _ rfl
      obtain ⟨_, ⟨second, pages⟩, above, below⟩ :=
        halves_parts halves within.laidOut within.found positive fewer
      have placed := (split_in_place halves within.laidOut within.found positive fewer).1
      have find := find_halves halves within.laidOut within.found positive fewer
      have lost : vmm.mapEntries.find? upper.startVirt = none :=
        absent_inside within.laidOut within.found above below
      have entries : ∀ other, (split.setEntry key lower).mapEntries.find? other =
          if other = key then some lower else vmm.mapEntries.find? other := by
        intro other
        change (split.mapEntries.set key _).find? other = _
        rw [tree, find_set, within.found]
        rfl
      rw [within.virt, ← second.start] at result
      have room := within.room
      have cut := cut_back_isolates placed.laidOut (by rw [find, if_pos rfl]) ?_ ?_ within.positive
        (by omega) result
      · exact ⟨placed.trans cut.cutFrom, second.trans cut.part, cut.pages, cut.noSpan⟩
      · intro other value there
        have different : other ≠ upper.startVirt := by
          rintro rfl
          rw [entries, if_neg above.ne', lost] at there
          cases there
        rw [find, if_neg different, ← entries]
        exact there
      · rw [entries, if_neg above.ne', lost]
  · have removed : Spares vmm (vmm.removeEntry key) := .of_same rfl rfl
    refine ⟨removed.trans (cut_back_cases result).1, ?_⟩
    have place := within.virt
    have start := within.laidOut.start key entry within.found
    obtain rfl : skip = 0 := by
      simp only [pageSize] at place
      omega
    have room := within.room
    rw [place, Nat.zero_mul, Nat.add_zero] at result
    refine cut_back_isolates within.laidOut (by rw [start]; exact within.found) ?_ ?_
      within.positive (by omega) result
    · intro other value there
      change (vmm.mapEntries.erase key).find? other = _ at there
      rw [find_erase] at there
      split_ifs at there with here
      exact there
    · change (vmm.mapEntries.erase key).find? _ = _
      rw [find_erase, if_pos start]

/-! ### Where the loops stand -/

/-- A loop over regions that has come to the page `currentCount` of its range. -/
structure Walk (request : Request) (cursor : Cursor) : Prop where
  laidOut : LaidOut cursor.vmm.mapEntries
  aligned : pageSize ∣ request.virtAddr
  word : request.full = false → request.virtAddr + request.totalCount * pageSize < 2 ^ 64
  whole : request.full = true → request.totalCount = 1
  place : cursor.virt = request.virtAddr + cursor.currentCount * pageSize
  begins : cursor.first = true → cursor.currentCount = 0
  later : cursor.first = false → NoSpan cursor.vmm.mapEntries cursor.virt

/-- The number of pages an iteration deals with. -/
def Request.taken (request : Request) (entry : MapEntry) (count : Nat) : Nat :=
  if request.full then entry.pages else count

/-- The entry an iteration selects has the pages it deals with. -/
theorem select_within {request : Request} {cursor : Cursor} (walk : Walk request cursor)
    (working : cursor.currentCount < request.totalCount)
    (found : request.select cursor = some (key, entry, count)) :
    (∃ skip, Within cursor.vmm.mapEntries key entry cursor.virt skip
      (request.taken entry count)) ∧
    (request.full = true → cursor.vmm.mapEntries.find? request.virtAddr = some entry ∧
      cursor.currentCount = 0 ∧ cursor.virt = entry.startVirt) ∧
    (request.full = false → cursor.currentCount + count ≤ request.totalCount) := by
  have laidOut := walk.laidOut
  have place := walk.place
  unfold Request.select at found
  cases full : request.full with
  | true =>
    have none : cursor.currentCount = 0 := by
      rw [walk.whole full] at working
      omega
    rw [full] at found
    simp only [if_true] at found
    cases stored : cursor.vmm.mapEntries.find? cursor.virt with
    | none => simp [stored] at found
    | some value =>
      simp only [stored, map_some, true_and] at found
      have fields : cursor.virt = key ∧ value = entry := by
        split_ifs at found <;> cases found <;> exact ⟨rfl, rfl⟩
      obtain ⟨rfl, rfl⟩ := fields
      have laid := laidOut.laid _ _ stored
      have start := laidOut.start _ _ stored
      refine ⟨⟨0, laidOut, stored, by simp [start], ?_, ?_⟩, fun _ => ⟨?_, none, start.symm⟩, nofun⟩
      · rw [Request.taken, full, if_pos rfl, laid.pages]
        exact laid.nonempty
      · rw [Request.taken, full, if_pos rfl, laid.pages, Nat.zero_add]
      · rw [none, Nat.zero_mul, Nat.add_zero] at place
        rw [← place, stored]
  | false =>
    rw [full] at found
    simp only [Bool.false_eq_true, if_false, false_and, true_and, false_or] at found
    cases lower : cursor.vmm.mapEntries.findNodeOrLower cursor.virt with
    | none => simp [lower] at found
    | some node =>
      obtain ⟨place', value⟩ := node
      obtain ⟨stored, below, _⟩ := find_node_or_lower_some_iff.mp lower
      have laid := laidOut.laid _ _ stored
      have start := laidOut.start _ _ stored
      have word := walk.word full
      have ends := laid.ends
      obtain ⟨base, aligned⟩ := walk.aligned
      obtain ⟨page, aligned'⟩ := laid.aligned
      simp only [lower] at found
      simp only [pageSize] at place word ends aligned aligned'
      generalize wanted : (if cursor.first = true ∧ request.multipleRegions = false
        then request.totalCount else 1) = needed at found
      have enough : 0 < needed ∧ cursor.currentCount + needed ≤ request.totalCount := by
        split_ifs at wanted with alone
        · have begins := walk.begins alone.1
          omega
        · omega
      have stop : pageEnd cursor.virt needed = cursor.virt + needed * 4096 :=
        page_end_of_lt (by simp only [pageSize]; omega)
      split_ifs at found with beyond more
      · cases found
        -- a later iteration starts where an entry starts
        have pages := laid.pages
        have rest : sub64 request.totalCount cursor.currentCount =
            request.totalCount - cursor.currentCount := sub64_of_le (by omega) working.le
        have first : entry.startVirt = cursor.virt := by
          by_contra different
          have before := walk.later more.1 key entry stored (by omega)
          omega
        refine ⟨⟨0, laidOut, stored, by simp [first], ?_, ?_⟩, nofun, fun _ => by omega⟩
        all_goals
          simp only [Request.taken, full, Bool.false_eq_true, if_false]
          have nonempty := laid.nonempty
          omega
      · cases found
        refine ⟨⟨base + cursor.currentCount - page, laidOut, stored, ?_, ?_, ?_⟩, nofun,
          fun _ => enough.2⟩
        all_goals
          simp only [Request.taken, full, pageSize, Bool.false_eq_true, if_false]
          omega

/-- An iteration has got hold of the entry for its pages, and `tree` is left. -/
structure Taken (request : Request) (cursor : Cursor) (tree : OrderedMap Nat MapEntry)
    (part : MapEntry) (count : Nat) : Prop where
  cutFrom : CutFrom cursor.vmm.mapEntries tree
  noSpan : NoSpan tree (cursor.virt + count * pageSize)
  laid : part.Laid
  start : part.startVirt = cursor.virt
  pages : part.pageCount = count
  shows : ∀ index < count,
    Shows cursor.vmm.mapEntries (cursor.virt + index * pageSize) (part.cell index)
  fits : request.full = false → cursor.currentCount + count ≤ request.totalCount
  whole : request.full = true → cursor.currentCount = 0 ∧
    ∃ entry, cursor.vmm.mapEntries.find? request.virtAddr = some entry ∧ entry.pageCount = count

section Selected
variable {request : Request} {cursor : Cursor} (walk : Walk request cursor)
  (working : cursor.currentCount < request.totalCount)
  (found : request.select cursor = some (key, entry, count))
include walk working found

theorem select_taken
    (within : Within cursor.vmm.mapEntries key entry cursor.virt skip (request.taken entry count))
    (isolated : Isolated cursor.vmm.mapEntries cut entry piece skip (request.taken entry count)) :
    Taken request cursor cut piece (request.taken entry count) := by
  obtain ⟨_, full, fits⟩ := select_within walk working found
  have laid := within.laidOut.laid key entry within.found
  have origin := within.laidOut.start key entry within.found
  have start : piece.startVirt = cursor.virt := by rw [isolated.part.start, within.virt]
  refine ⟨isolated.cutFrom, ?_, isolated.part.laid, start, isolated.pages, ?_, ?_, ?_⟩
  · rw [← start]
    exact isolated.noSpan
  · intro index inside
    have room := within.room
    refine ⟨key, entry, skip + index, within.found, by omega, ?_,
      isolated.part.cells index (by rw [isolated.pages]; exact inside)⟩
    rw [within.virt, origin, Nat.add_mul, Nat.add_assoc]
  · intro part
    simpa only [Request.taken, part, Bool.false_eq_true, if_false] using fits part
  · intro whole
    obtain ⟨stored, none, _⟩ := full whole
    exact ⟨none, entry, stored, by rw [Request.taken, whole, if_pos rfl, laid.pages]⟩

/-- An entry that is not cut is what the iteration deals with. -/
theorem not_part_whole (whole : ¬ request.isPart cursor.virt entry count) :
    request.taken entry count = entry.pageCount ∧
      Within cursor.vmm.mapEntries key entry cursor.virt 0 (request.taken entry count) := by
  obtain ⟨⟨skip, within⟩, full, _⟩ := select_within walk working found
  have laid := within.laidOut.laid key entry within.found
  have start : entry.startVirt = cursor.virt := by
    by_contra different
    refine whole ⟨?_, .inl different⟩
    by_contra isFull
    exact different (full (by simpa using isFull)).2.2.symm
  have place := within.virt
  obtain rfl : skip = 0 := by
    simp only [pageSize] at place
    omega
  refine ⟨?_, within⟩
  cases isFull : request.full with
  | true => rw [Request.taken, isFull, if_pos rfl, laid.pages]
  | false =>
    have room := within.room
    simp only [Request.taken, isFull, Bool.false_eq_true, if_false, Nat.zero_add] at room ⊢
    have ends := laid.ends
    have word := laid.word
    have bytes := Nat.mul_le_mul_right pageSize room
    have stop : entry.endVirt = pageEnd cursor.virt count := by
      by_contra different
      exact whole ⟨isFull, .inr different⟩
    rw [page_end_of_lt (by omega)] at stop
    simp only [pageSize] at stop ends
    omega

end Selected

theorem Taken.advance {request : Request} {cursor : Cursor} (walk : Walk request cursor)
    (taken : Taken request cursor next.mapEntries piece count) :
    Walk request (Request.advance cursor next count) ∧
      (Request.advance cursor next count).currentCount = cursor.currentCount + count := by
  have word := taken.laid.word
  rw [taken.laid.ends, taken.start, taken.pages] at word
  have place := walk.place
  have stop : pageEnd cursor.virt count = cursor.virt + count * pageSize := page_end_of_lt word
  have total : add64 cursor.currentCount count = cursor.currentCount + count :=
    add64_of_lt (by simp only [pageSize] at place word; omega)
  refine ⟨⟨taken.cutFrom.laidOut, walk.aligned, walk.word, walk.whole, ?_, nofun, fun _ => ?_⟩, total⟩
  · simp only [Request.advance, stop, total]
    rw [place, Nat.add_mul, Nat.add_assoc]
  · simp only [Request.advance, stop]
    exact taken.noSpan

end VMM
end FrostyKernel.Memory
