import FrostyKernel.Memory.AddressSpace

/-!
# What `FreePages` unmaps

A successful call drops entries that tile its range, and what it unmaps for a page of
the range depends on the cell the tree shows there before the call. A cell with a slot
unmaps the page itself, if the slot is populated or the object has a page under the key of
the cell. A cell with an object only unmaps the keys, taken for addresses, of the pages
that stand in the list of the object from position `key` on.
-/

namespace FrostyKernel.Memory

open Word List Option OrderedMap

namespace VMM

variable {vmm next pre : VMM} {entry part : MapEntry} {success : Bool} {count virtAddr page : Nat}
  {cursor : Cursor} {slots : List (Option AnonId)}

/-- The page of the page table that a cell makes `Internal_FreePages` clear. -/
def Reaches (vmm : VMM) (address : Nat) (cell : Cell) (page : Nat) : Prop :=
  match cell.slot, cell.backing with
  | some slot, backing => page = pageOf address ∧ (slot ≠ none ∨ ∃ id key object,
      backing = some (id, key) ∧ vmm.objects id = some object ∧ object.pages.find? key ≠ none)
  | none, some (id, key) => ∃ object, vmm.objects id = some object ∧
      ∃ node ∈ object.pages.nodes.drop key, node.2.physAddr ≠ 0 ∧ page = pageOf node.1
  | none, none => False

/-! ### Dropping an entry -/

def without (table : Nat → Option Pte) (pages : List Nat) : Nat → Option Pte :=
  fun page => if page ∈ pages then none else table page

theorem without_nil (table : Nat → Option Pte) : without table [] = table := by
  funext page
  simp [without]

theorem without_append (table : Nat → Option Pte) (first second : List Nat) :
    without (without table first) second = without table (first ++ second) := by
  funext page
  simp only [without, mem_append]
  by_cases early : page ∈ first
  · simp [early]
  · simp [early]

/-- The step left the tree, the objects and the page table alone, but for these pages. -/
structure Clears (pages : List Nat) (before after : VMM) : Prop where
  mapEntries : after.mapEntries = before.mapEntries
  objects : after.objects = before.objects
  pageTable : after.pageTable = without before.pageTable pages

section Clearing
variable {first second third : VMM} {pages more : List Nat}

theorem Clears.of_same (mapEntries : second.mapEntries = first.mapEntries)
    (objects : second.objects = first.objects) (pageTable : second.pageTable = first.pageTable) :
    Clears [] first second :=
  ⟨mapEntries, objects, by rw [pageTable, without_nil]⟩

theorem Clears.trans (early : Clears pages first second) (late : Clears more second third) :
    Clears (pages ++ more) first third :=
  ⟨late.mapEntries.trans early.mapEntries, late.objects.trans early.objects,
    by rw [late.pageTable, early.pageTable, without_append]⟩

end Clearing

theorem unmap_all_clears (vmm : VMM) (addresses : List Nat) :
    Clears (addresses.map pageOf) vmm (vmm.unmapAll addresses) := by
  unfold unmapAll
  induction addresses generalizing vmm with
  | nil => exact .of_same rfl rfl rfl
  | cons address rest ih =>
    have here : Clears [pageOf address] vmm (vmm.unmapPage address) := by
      refine ⟨rfl, rfl, ?_⟩
      funext page
      simp [without, unmapPage, setPte, Function.update_apply]
    exact here.trans (ih (vmm.unmapPage address))

theorem drop_slots_clears (result : dropSlots slots vmm = some next) : Clears [] vmm next := by
  induction slots generalizing vmm with
  | nil =>
    cases result
    exact .of_same rfl rfl rfl
  | cons slot rest ih =>
    cases slot with
    | none => exact ih result
    | some id =>
      simp only [dropSlots] at result
      split at result
      · cases result
      · have later := ih result
        exact ⟨later.mapEntries, later.objects, later.pageTable⟩

theorem free_object_pages_clears (vmm : VMM) (pages : List (Nat × Page)) :
    Clears [] vmm (vmm.freeObjectPages pages) := by
  unfold freeObjectPages
  induction pages generalizing vmm with
  | nil => exact .of_same rfl rfl rfl
  | cons node rest ih =>
    rw [foldl_cons]
    split
    · have later := ih (vmm.freePage node.2.physAddr)
      exact ⟨later.mapEntries, later.objects, later.pageTable⟩
    · exact ih vmm

theorem unmap_extent_clears (vmm : VMM) (addresses : List Nat) (range : Nat × Nat)
    (virt count : Nat) : Clears (addresses.map pageOf) vmm
      ((vmm.unmapAll addresses).invalidateExtent range virt count) := by
  have cleared := unmap_all_clears vmm addresses
  unfold invalidateExtent
  split_ifs
  · exact ⟨cleared.mapEntries, cleared.objects, cleared.pageTable⟩
  · exact cleared

theorem leave_map_clears (vmm : VMM) (entry : MapEntry) (map : AnonMap) :
    Clears [] vmm (vmm.leaveMap entry map) := by
  unfold leaveMap
  split_ifs <;> exact .of_same rfl rfl rfl

/-- The pages of the page table that dropping an entry clears. -/
def swept (vmm : VMM) (entry : MapEntry) : List Nat :=
  match entry.anonMap, entry.memoryObject.bind vmm.objects with
  | some map, object =>
    (mappedSlots entry map object).map fun index => pageOf (pageEnd entry.startVirt index)
  | none, some object => (mappedKeys entry object).map pageOf
  | none, none => []

/-- What dropping an entry does to the tree, the objects and the page table. -/
structure Drops (entry : MapEntry) (before after : VMM) : Prop where
  mapEntries : after.mapEntries = before.mapEntries
  pages : SamePages before after
  pageTable : after.pageTable = without before.pageTable (before.swept entry)
  live : ∀ id, entry.memoryObject = some id → ∃ object, before.objects id = some object

theorem drop_object_cases {id : ObjectId} {object : MemoryObject} (offset : Nat)
    (present : vmm.objects id = some object) :
    (vmm.dropObject id object offset).mapEntries = vmm.mapEntries ∧
      (vmm.dropObject id object offset).pageTable = vmm.pageTable ∧
      SamePages vmm (vmm.dropObject id object offset) := by
  by_cases gone : sub64 object.refCount 1 = 0
  · have dropped : vmm.dropObject id object offset = ((vmm.freeObjectPages
        (object.pages.nodes.drop offset)).setObject id none).destroy (.object id) := by
      unfold dropObject
      rw [if_pos gone]
    have freed := free_object_pages_clears vmm (object.pages.nodes.drop offset)
    have removed : SamePages (vmm.freeObjectPages (object.pages.nodes.drop offset))
        ((vmm.freeObjectPages (object.pages.nodes.drop offset)).setObject id none) :=
      SamePages.set_object (by rw [freed.objects, present]) (by simp)
    rw [dropped]
    exact ⟨freed.mapEntries, freed.pageTable.trans (without_nil _),
      ((SamePages.of_same freed.objects).trans removed).trans (.of_same rfl)⟩
  · have dropped : vmm.dropObject id object offset = (vmm.setObject id
        (some { object with refCount := sub64 object.refCount 1 })).release (.object id) := by
      unfold dropObject
      rw [if_neg gone]
    have counted : SamePages vmm
        (vmm.setObject id (some { object with refCount := sub64 object.refCount 1 })) :=
      SamePages.set_object present (by simp)
    rw [dropped]
    exact ⟨rfl, rfl, counted.trans (.of_same rfl)⟩

theorem drop_anon_map_drops {map : AnonMap} (mapped : entry.anonMap = some map)
    (result : vmm.dropAnonMap entry map virtAddr = some next) : Drops entry vmm next := by
  unfold dropAnonMap lockObject unmapSlots at result
  cases backed : entry.memoryObject with
  | none =>
    rw [backed] at result
    dsimp only [map_none] at result
    split_ifs at result
    split at result
    · cases result
    rename_i dropped slots
    simp only [some.injEq] at result
    subst result
    have cleared := ((unmap_extent_clears (vmm.acquire (.anonMap entry.startVirt)) _ _ _ _).trans
      (drop_slots_clears slots)).trans (leave_map_clears dropped entry map)
    refine ⟨cleared.mapEntries, .of_same cleared.objects, ?_, by simp [backed]⟩
    rw [cleared.pageTable, swept, mapped, backed]
    simp [acquire, emit, Function.comp_def]
  | some id =>
    rw [backed] at result
    dsimp only at result
    split at result
    · cases result
    rename_i inner object present
    split at present
    · cases present
    rename_i found stored
    cases present
    dsimp only [map_some] at result
    split_ifs at result
    split at result
    · cases result
    rename_i dropped slots
    simp only [some.injEq] at result
    subst result
    have known : vmm.objects id = some found := stored
    have cleared := ((unmap_extent_clears
      ((vmm.acquire (.anonMap entry.startVirt)).acquire (.object id)) _ _ _ _).trans
        (drop_slots_clears slots)).trans (leave_map_clears dropped entry map)
    obtain ⟨tree, table, pages⟩ := @drop_object_cases (dropped.leaveMap entry map) id found
      entry.offset (by rw [cleared.objects]; exact known)
    refine ⟨tree.trans cleared.mapEntries, (SamePages.of_same cleared.objects).trans pages, ?_, ?_⟩
    · rw [table, cleared.pageTable, swept, mapped, backed, bind_some, known]
      simp [acquire, emit, Function.comp_def]
    · intro other same
      cases backed.symm.trans same
      exact ⟨found, known⟩

theorem drop_entry_drops (result : vmm.dropEntry entry virtAddr = some next) :
    Drops entry vmm next := by
  unfold dropEntry at result
  split at result
  · rename_i map mapped
    exact drop_anon_map_drops mapped result
  · rename_i id absent backed
    unfold dropObjectEntry unmapKeys at result
    split at result
    · cases result
    rename_i object present
    simp only [some.injEq] at result
    subst result
    have cleared := unmap_extent_clears (vmm.acquire (.object id)) (mappedKeys entry object)
      (extent (mappedKeys entry object)) (extent (mappedKeys entry object)).1
      (sub64 (extent (mappedKeys entry object)).2 (extent (mappedKeys entry object)).1)
    obtain ⟨tree, table, pages⟩ := drop_object_cases entry.offset
      ((congrFun cleared.objects id).trans present)
    refine ⟨tree.trans cleared.mapEntries, (SamePages.of_same cleared.objects).trans pages, ?_, ?_⟩
    · rw [table, cleared.pageTable, swept, absent, backed, bind_some, present]
      rfl
    · intro other same
      cases backed.symm.trans same
      exact ⟨object, present⟩
  · rename_i absent unbacked
    cases result
    refine ⟨rfl, .of_same rfl, ?_, by simp [unbacked]⟩
    rw [swept, absent, unbacked, bind_none, without_nil]

theorem mem_mapped_slots {map : AnonMap} {object : Option MemoryObject} {index : Nat} :
    index ∈ mappedSlots entry map object ↔ index < map.slotCount ∧
      ((map.slots[index]?).getD none ≠ none ∨ ∃ found, object = some found ∧
        found.pages.find? (add64 entry.offset index) ≠ none) := by
  cases object <;> simp [mappedSlots, isSome_iff_ne_none]

/-- Dropping an entry clears what its cells reach in an earlier state whose objects are still
there. -/
theorem mem_swept_iff (laid : entry.Laid) (same : SamePages pre vmm)
    (live : ∀ id, entry.memoryObject = some id → ∃ object, vmm.objects id = some object) :
    page ∈ vmm.swept entry ↔ ∃ index < entry.pageCount,
      pre.Reaches (entry.startVirt + index * pageSize) (entry.cell index) page := by
  have keys := laid.keys
  unfold swept Reaches MapEntry.cell
  cases mapped : entry.anonMap with
  | some map =>
    have backing : ∀ index, (∃ object, entry.memoryObject.bind vmm.objects = some object ∧
        object.pages.find? (add64 entry.offset index) ≠ none) ↔
        ∃ id key object, entry.memoryObject.map (fun id => (id, add64 entry.offset index)) =
          some (id, key) ∧ pre.objects id = some object ∧ object.pages.find? key ≠ none := by
      intro index
      cases backed : entry.memoryObject with
      | none => simp
      | some id =>
        obtain ⟨object, present⟩ := live id backed
        obtain ⟨old, before, pages⟩ := same id object present
        simp [present, before, pages]
    have place : ∀ index < entry.pageCount,
        pageEnd entry.startVirt index = entry.startVirt + index * pageSize := by
      intro index inside
      have bytes := Nat.mul_le_mul_right pageSize inside.le
      exact page_end_of_lt (by have := laid.ends; have := laid.word; omega)
    simp only [map_some, List.mem_map, mem_mapped_slots, (laid.slots map mapped).1]
    constructor
    · rintro ⟨index, ⟨inside, slot⟩, rfl⟩
      exact ⟨index, inside, by rw [place index inside], slot.imp_right (backing index).mp⟩
    · rintro ⟨index, inside, rfl, slot⟩
      exact ⟨index, ⟨inside, slot.imp_right (backing index).mpr⟩, by rw [place index inside]⟩
  | none =>
    cases backed : entry.memoryObject with
    | none => simp
    | some id =>
      obtain ⟨object, present⟩ := live id backed
      obtain ⟨old, before, pages⟩ := same id object present
      have position : ∀ index < entry.pageCount,
          add64 entry.offset index = entry.offset + index :=
        fun index inside => add64_of_lt (by omega)
      simp only [bind_some, present, map_none, map_some, mappedKeys, List.mem_map,
        mem_filter, before, some.injEq, exists_eq_left', pages, decide_eq_true_eq]
      constructor
      · rintro ⟨address, ⟨node, ⟨member, framed⟩, rfl⟩, rfl⟩
        refine ⟨0, laid.nonempty, node, ?_, framed, rfl⟩
        rwa [position 0 laid.nonempty]
      · rintro ⟨index, inside, node, member, framed, rfl⟩
        refine ⟨node.1, ⟨node, ⟨?_, framed⟩, rfl⟩, rfl⟩
        rw [position index inside, ← drop_drop] at member
        exact mem_of_mem_drop member

/-! ### The loop -/

section Rounds
variable {request : Request} {needed : Bool} {later : Cursor}

theorem acquire_if_same (vmm : VMM) :
    Spares vmm (vmm.acquireIf needed) ∧ (vmm.acquireIf needed).mapEntries = vmm.mapEntries := by
  unfold acquireIf
  split <;> exact ⟨.of_same rfl rfl, rfl⟩

theorem release_if_same (vmm : VMM) :
    Spares vmm (vmm.releaseIf needed) ∧ (vmm.releaseIf needed).mapEntries = vmm.mapEntries := by
  unfold releaseIf
  split <;> exact ⟨.of_same rfl rfl, rfl⟩

/-- What an iteration takes out of the tree. -/
theorem take_out_taken (walk : Walk request cursor)
    (working : cursor.currentCount < request.totalCount)
    (result : takeOut request needed cursor = some (next, some (part, count))) :
    Spares cursor.vmm next ∧ Taken request cursor next.mapEntries part count := by
  obtain ⟨locked, tree⟩ := @acquire_if_same needed cursor.vmm
  have same : request.select { cursor with vmm := cursor.vmm.acquireIf needed } =
      request.select cursor := select_congr request tree rfl rfl rfl
  unfold takeOut at result
  dsimp only at result
  rw [same] at result
  split at result
  · cases result
  rename_i key entry wanted found
  split at result
  · rename_i isPart
    split at result
    · cases result
    · cases result
    · rename_i detached piece cut
      cases result
      obtain ⟨unlocked, last⟩ := @release_if_same needed detached
      obtain ⟨⟨skip, within⟩, _⟩ := select_within walk working found
      have whole : count = request.taken entry count := by
        rw [Request.taken, isPart.1, if_neg (by simp)]
      rw [← tree, ← whole] at within
      obtain ⟨spares, isolated⟩ := detach_isolates within cut
      refine ⟨(locked.trans spares).trans unlocked, ?_⟩
      rw [tree, whole] at within isolated
      rw [last, whole]
      exact select_taken walk working found within isolated
  · rename_i isWhole
    cases result
    have removed : Spares (cursor.vmm.acquireIf needed)
      ((cursor.vmm.acquireIf needed).removeEntry key) := .of_same rfl rfl
    obtain ⟨unlocked, last⟩ := @release_if_same needed
      ((cursor.vmm.acquireIf needed).removeEntry key)
    refine ⟨(locked.trans removed).trans unlocked, ?_⟩
    obtain ⟨whole, within⟩ := not_part_whole walk working found isWhole
    have laid := within.laidOut.laid key part within.found
    have fewer : ∀ other value, (cursor.vmm.mapEntries.erase key).find? other = some value →
        cursor.vmm.mapEntries.find? other = some value := by
      intro other value there
      rw [find_erase] at there
      split_ifs at there
      exact there
    rw [last]
    change Taken request cursor ((cursor.vmm.acquireIf needed).mapEntries.erase key) part
      (request.taken part wanted)
    rw [tree]
    refine select_taken walk working found within
      ⟨within.laidOut.fewer fewer, laid.part, whole.symm, ?_⟩
    rw [whole, ← laid.ends]
    exact fun other value there =>
      no_span_end within.laidOut within.found other value (fewer other value there)

/-- An iteration that goes on has taken an entry out and dropped it. -/
theorem free_round_goes_on (walk : Walk request cursor)
    (result : freeRound request needed cursor = .inl later) :
    ∃ part taken dropped count, later = Request.advance cursor dropped count ∧
      cursor.currentCount < request.totalCount ∧ Spares cursor.vmm taken ∧
      Drops part taken dropped ∧ Taken request cursor dropped.mapEntries part count := by
  unfold freeRound at result
  split_ifs at result with done
  split at result
  · cases result
  · cases result
  rename_i taken part count out
  split at result
  · cases result
  rename_i dropped released
  cases result
  obtain ⟨spares, takes⟩ := take_out_taken walk (not_le.mp done) out
  have drops := drop_entry_drops released
  have region : Spares taken (taken.freeRegion cursor.virt count request.full) := .of_same rfl rfl
  refine ⟨part, taken.freeRegion cursor.virt count request.full, dropped, count, rfl, not_le.mp done,
    spares.trans region, drops, ?_⟩
  rw [drops.mapEntries]
  exact takes

theorem free_round_succeeds (result : freeRound request needed cursor = .inr (some (next, true))) :
    request.totalCount ≤ cursor.currentCount ∧ next = cursor.vmm := by
  unfold freeRound at result
  split_ifs at result with done
  · cases result
    exact ⟨done, rfl⟩
  split at result
  · cases result
  · cases result
  · split at result <;> cases result

end Rounds

/-- The entry has this cell for the page at the address. -/
def HasPage (entry : MapEntry) (address : Nat) (cell : Cell) : Prop :=
  ∃ index < entry.pageCount, address = entry.startVirt + index * pageSize ∧ cell = entry.cell index

/-- The entries have the pages `low` to `high` from `virtAddr` on as the tree shows them. -/
structure Tiles (tree : OrderedMap Nat MapEntry) (virtAddr low high : Nat)
    (parts : List MapEntry) : Prop where
  order : low ≤ high
  covers : ∀ index, low ≤ index → index < high → ∃ cell,
    Shows tree (virtAddr + index * pageSize) cell ∧
      ∃ part ∈ parts, HasPage part (virtAddr + index * pageSize) cell
  within : ∀ part ∈ parts, ∀ address cell, HasPage part address cell →
    Shows tree address cell ∧ ∃ index, low ≤ index ∧ index < high ∧
      address = virtAddr + index * pageSize

theorem Tiles.cons {tree : OrderedMap Nat MapEntry} {high : Nat} {parts : List MapEntry}
    {request : Request} {left : OrderedMap Nat MapEntry} (walk : Walk request cursor)
    (cut : CutFrom tree cursor.vmm.mapEntries) (taken : Taken request cursor left part count)
    (rest : Tiles tree request.virtAddr (cursor.currentCount + count) high parts) :
    Tiles tree request.virtAddr cursor.currentCount high (part :: parts) := by
  have order := rest.order
  have place := walk.place
  have start := taken.start
  have pages := taken.pages
  have here : ∀ index < count, part.startVirt + index * pageSize =
      request.virtAddr + (cursor.currentCount + index) * pageSize := by
    intro index inside
    rw [start, place, Nat.add_mul, Nat.add_assoc]
  refine ⟨by omega, ?_, ?_⟩
  · intro index low bound
    by_cases early : index < cursor.currentCount + count
    · have inside : index - cursor.currentCount < count := by omega
      have address := here _ inside
      rw [Nat.add_sub_cancel' low] at address
      refine ⟨part.cell (index - cursor.currentCount), ?_, part, mem_cons_self,
        index - cursor.currentCount, by omega, address.symm, rfl⟩
      rw [← address, start]
      exact cut.shows _ _ (taken.shows _ inside)
    · obtain ⟨cell, seen, other, member, has⟩ := rest.covers index (by omega) bound
      exact ⟨cell, seen, other, mem_cons_of_mem _ member, has⟩
  · intro other member address cell has
    rcases mem_cons.mp member with rfl | old
    · obtain ⟨index, inside, rfl, rfl⟩ := has
      rw [pages] at inside
      refine ⟨?_, cursor.currentCount + index, by omega, by omega, here index inside⟩
      rw [start]
      exact cut.shows _ _ (taken.shows index inside)
    · obtain ⟨seen, index, low, bound, same⟩ := rest.within other old address cell has
      exact ⟨seen, index, by omega, bound, same⟩

/-- Dropping the entries clears the page. -/
def Cleared (vmm : VMM) (parts : List MapEntry) (page : Nat) : Prop :=
  ∃ part ∈ parts, ∃ address cell, HasPage part address cell ∧ vmm.Reaches address cell page

/-- A call that succeeds drops entries that tile its range, as the tree showed it before, and
clears what they reach. -/
theorem free_loop_drops {request : Request} {needed : Bool} {fuel : Nat}
    (walk : Walk request cursor) (cut : CutFrom pre.mapEntries cursor.vmm.mapEntries)
    (same : SamePages pre cursor.vmm)
    (result : loop (freeRound request needed) fuel cursor = some (some (next, true))) :
    ∃ parts high, Tiles pre.mapEntries request.virtAddr cursor.currentCount high parts ∧
      (∀ page, pre.Cleared parts page → next.pageTable page = none) ∧
      (∀ page, ¬ pre.Cleared parts page → next.pageTable page = cursor.vmm.pageTable page) ∧
      (request.totalCount ≤ cursor.currentCount → high = cursor.currentCount) ∧
      (request.full = false → cursor.currentCount ≤ request.totalCount →
        high = request.totalCount) ∧
      (request.full = true → cursor.currentCount < request.totalCount →
        ∃ entry, cursor.vmm.mapEntries.find? request.virtAddr = some entry ∧
          entry.pageCount = high) := by
  induction fuel generalizing cursor with
  | zero => simp [loop] at result
  | succ fuel ih =>
    simp only [loop] at result
    split at result
    · rename_i later step
      obtain ⟨part, taken, dropped, count, rfl, working, spares, drops, takes⟩ :=
        free_round_goes_on walk step
      obtain ⟨laterWalk, total⟩ := takes.advance walk
      have known := same.trans spares.pages
      obtain ⟨parts, high, tiles, clears, keeps, ends, counted, _⟩ :=
        ih laterWalk (cut.trans takes.cutFrom) (known.trans drops.pages) result
      rw [total] at tiles ends counted
      have cleared : ∀ page, pre.Cleared (part :: parts) page ↔
          page ∈ taken.swept part ∨ pre.Cleared parts page := by
        intro page
        rw [mem_swept_iff takes.laid known drops.live]
        unfold Cleared HasPage
        constructor
        · rintro ⟨other, member, address, cell, ⟨index, inside, rfl, rfl⟩, reached⟩
          rcases mem_cons.mp member with rfl | old
          · exact .inl ⟨index, inside, reached⟩
          · exact .inr ⟨other, old, _, _, ⟨index, inside, rfl, rfl⟩, reached⟩
        · rintro (⟨index, inside, reached⟩ | ⟨other, old, rest⟩)
          · exact ⟨part, mem_cons_self, _, _, ⟨index, inside, rfl, rfl⟩, reached⟩
          · exact ⟨other, mem_cons_of_mem _ old, rest⟩
      have table : ∀ page, dropped.pageTable page =
          if page ∈ taken.swept part then none else cursor.vmm.pageTable page := by
        intro page
        rw [drops.pageTable, spares.pageTable]
        rfl
      refine ⟨part :: parts, high, Tiles.cons walk cut takes tiles, fun page hit => ?_,
        fun page missed => ?_, fun done => by omega, fun part _ => counted part (takes.fits part), ?_⟩
      · by_cases later : pre.Cleared parts page
        · exact clears page later
        · have here := ((cleared page).mp hit).resolve_right later
          exact (keeps page later).trans ((table page).trans (if_pos here))
      · rw [cleared, not_or] at missed
        exact (keeps page missed.2).trans ((table page).trans (if_neg missed.1))
      · intro full _
        obtain ⟨none, entry, found, pages⟩ := takes.whole full
        have one := walk.whole full
        have positive := takes.laid.nonempty
        rw [takes.pages] at positive
        have high := ends (by omega)
        exact ⟨entry, found, by omega⟩
    · rename_i answer step
      rw [some.inj result] at step
      obtain ⟨done, rfl⟩ := free_round_succeeds step
      refine ⟨[], cursor.currentCount, ⟨le_rfl, fun _ _ _ => by omega, by simp⟩, by simp [Cleared],
        fun _ _ => rfl, fun _ => rfl, fun _ _ => by omega, fun _ _ => by omega⟩

/-- The number of pages a call is asked to free: a count of zero stands for the pages of the
entry at the address. -/
def freedCount (vmm : VMM) (virtAddr count : Nat) : Nat :=
  if count = 0 then ((vmm.mapEntries.find? virtAddr).map MapEntry.pageCount).getD 0 else count

def freedRange (vmm : VMM) (virtAddr count : Nat) : List Nat :=
  (List.range (vmm.freedCount virtAddr count)).map fun index =>
    pageOf (virtAddr + index * pageSize)

/-- A cell the tree shows in the range reaches the page. -/
def ReachedFrom (vmm : VMM) (virtAddr count page : Nat) : Prop :=
  ∃ index < vmm.freedCount virtAddr count, ∃ cell,
    Shows vmm.mapEntries (virtAddr + index * pageSize) cell ∧
      vmm.Reaches (virtAddr + index * pageSize) cell page

theorem free_pages_clears {multipleRegions : Bool} (laidOut : LaidOut vmm.mapEntries)
    (aligned : pageSize ∣ virtAddr) (word : virtAddr + count * pageSize < 2 ^ 64)
    (returned : vmm.freePages virtAddr count multipleRegions = some (next, true)) :
    (∀ page, vmm.ReachedFrom virtAddr count page → next.pageTable page = none) ∧
      ∀ page, ¬ vmm.ReachedFrom virtAddr count page →
        next.pageTable page = vmm.pageTable page := by
  rcases guarded_cases returned with ⟨_, failed, _⟩ | ⟨_, _, result⟩
  · cases failed
  have walk : Walk (request virtAddr count multipleRegions) (vmm.start virtAddr) := by
    refine ⟨laidOut, aligned, fun part => ?_, fun full => ?_, by simp [request, start],
      fun _ => rfl, nofun⟩
    · have some : count ≠ 0 := by simpa [request] using part
      simpa [request, some] using word
    · have none : count = 0 := by simpa [request] using full
      simp [request, none]
  obtain ⟨parts, high, tiles, clears, keeps, _, counted, whole⟩ :=
    free_loop_drops walk laidOut.refl (.of_same rfl) result
  have range : high = vmm.freedCount virtAddr count := by
    unfold freedCount
    by_cases none : count = 0
    · obtain ⟨entry, found, pages⟩ := whole (by simp [request, none]) (by simp [request, start, none])
      have there : vmm.mapEntries.find? virtAddr = some entry := found
      rw [if_pos none, there, ← pages]
      rfl
    · have total := counted (by simp [request, none]) (by simp [request, start])
      rw [if_neg none, total]
      simp [request, none]
  have reached : ∀ page, vmm.ReachedFrom virtAddr count page ↔ vmm.Cleared parts page := by
    intro page
    unfold ReachedFrom
    rw [← range]
    constructor
    · rintro ⟨index, inside, cell, seen, reached⟩
      obtain ⟨other, seen', part, member, has⟩ := tiles.covers index (Nat.zero_le _) inside
      rw [shows_unique laidOut seen seen'] at reached
      exact ⟨part, member, _, other, has, reached⟩
    · rintro ⟨part, member, address, cell, has, reached⟩
      obtain ⟨seen, index, _, inside, rfl⟩ := tiles.within part member address cell has
      exact ⟨index, inside, cell, seen, reached⟩
  exact ⟨fun page hit => clears page ((reached page).mp hit),
    fun page missed => keeps page fun hit => missed ((reached page).mpr hit)⟩

def newSpace : VMM :=
  { VMM.empty [0x10000, 0x11000, 0x12000] with
    objects := fun id =>
      if id = 0 then some ⟨2, 1, OrderedMap.empty, .tempFS (some .READ_WRITE)⟩ else none
    nextObject := 1 }

def populatedFlags (isPrivate : Bool) : AllocFlags :=
  ⟨.READ_WRITE, .writeBack, true, isPrivate, true, true, false, false⟩

def anonymousEntry : MapEntry :=
  anonEntry 0x1000 3 (populatedFlags true) [some 0, some 1, some 2]

theorem anonymous_entry_laid_out {tree : OrderedMap Nat MapEntry}
    (nodes : tree.nodes = [(0x1000, anonymousEntry)]) : LaidOut tree := by
  have only : ∀ {key entry}, tree.find? key = some entry → key = 0x1000 ∧ entry = anonymousEntry := by
    intro key entry found
    have member := find_some_iff.mp found
    rw [nodes] at member
    simpa using member
  refine ⟨?_, ?_, ?_⟩
  · intro key entry found
    obtain ⟨rfl, rfl⟩ := only found
    rfl
  · intro key entry found
    obtain ⟨rfl, rfl⟩ := only found
    exact ⟨by decide, by decide, by decide, by decide, by rintro map ⟨⟩; decide, by decide⟩
  · intro low entry high other lowFound highFound order
    have same := (only lowFound).1.trans (only highFound).1.symm
    omega

end VMM
end FrostyKernel.Memory
