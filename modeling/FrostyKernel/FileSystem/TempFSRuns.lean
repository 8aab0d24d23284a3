import FrostyKernel.FileSystem.TempFS

/-!
# Files as arrays of bytes

A file that was written once has a single block from its beginning. On such a file
every read returns the bytes of the array, and a write inside the file that starts
at a page boundary changes exactly its bytes. The other writes do not.
-/

namespace FrostyKernel.TempFS

open FrostyKernel.Memory Word TempFSVNode List Option OrderedMap

section OneBlock

/-- The object has its lock free and a page for every page of the block that is mapped. -/
structure Usable (object : MemoryObject) (present : Nat → Bool) (count : Nat) : Prop where
  alive : object.freed = false
  unlocked : object.locked = false
  size : object.size = count
  mapped : ∀ page, present page = true → (object.pages.find? (pageKey 0 page)).isSome = true

structure OneBlock (file : TempFSVNode) (count : Nat) : Prop where
  tree : file.tree = OrderedMap.empty.insert 0 count
  small : count * pageSize < 2 ^ 64
  object : ∃ object, file.memObj = some object ∧ Usable object (file.present 0) count

/-- What accesses to the memory of the blocks leave alone. -/
structure SameAttributes (before after : TempFSVNode) : Prop where
  size : after.size = before.size
  blocks : after.blocks = before.blocks
  allocations : after.allocations = before.allocations

theorem same_attributes_trans {first second third : TempFSVNode}
    (left : SameAttributes first second) (right : SameAttributes second third) :
    SameAttributes first third :=
  ⟨right.size.trans left.size, right.blocks.trans left.blocks,
    right.allocations.trans left.allocations⟩

variable {count : Nat} {file : TempFSVNode}

theorem page_key_zero {page : Nat} (small : count * pageSize < 2 ^ 64) (inside : page < count) :
    pageKey 0 page = page * pageSize := by
  have bound : page * pageSize < 2 ^ 64 := by
    have := Nat.mul_le_mul_right pageSize inside.le
    omega
  rw [pageKey, mul64_of_lt bound, add64_of_lt (by omega), Nat.zero_add]

section
variable (one : OneBlock file count)
include one

theorem one_block_find : file.tree.find? 0 = some count := by
  rw [one.tree, find_insert_of_none count (find_empty 0), if_pos rfl]

theorem one_block_of {number : Nat} (inside : number < count) :
    file.blockOf number = some (0, count) := by
  have lower : file.tree.findNodeOrLower number = some (0, count) := by
    rw [find_node_or_lower_some_iff]
    refine ⟨one_block_find one, Nat.zero_le _, ?_⟩
    intro node member _
    rw [one.tree] at member
    simp only [OrderedMap.insert, OrderedMap.empty, OrderedMap.insertList, mem_singleton]
      at member
    rw [member]
  have bound : 0 + count < 2 ^ 64 := by
    have := one.small
    simp only [pageSize] at this
    omega
  rw [blockOf, lower]
  simp only
  rw [add64_of_lt bound, if_neg (by omega)]

theorem fault_spec {page : Nat} (inside : page < count) :
    ∃ after object contents, file.fault 0 page = .ok after ∧ OneBlock after count ∧
      SameAttributes file after ∧ (∀ offset, after.byte 0 offset = file.byte 0 offset) ∧
      after.memObj = some object ∧ object.pages.find? (pageKey 0 page) = some contents := by
  obtain ⟨object, has, usable⟩ := one.object
  unfold fault
  by_cases present : file.present 0 page = true
  · rw [if_pos present]
    obtain ⟨contents, found⟩ := isSome_iff_exists.mp (usable.mapped page present)
    exact ⟨file, object, contents, rfl, one, ⟨rfl, rfl, rfl⟩, fun _ => rfl, has, found⟩
  have key := page_key_zero one.small inside
  have room : ¬ object.size < pageKey 0 page / pageSize + 1 := by
    rw [key, usable.size, Nat.mul_div_cancel _ (by simp [pageSize])]
    omega
  have alive : ¬ object.freed = true := by simp [usable.alive]
  have unlocked : ¬ object.locked = true := by simp [usable.unlocked]
  rw [if_neg present, has]
  simp only
  rw [if_neg alive, if_neg unlocked, if_neg room]
  cases found : object.pages.find? (pageKey 0 page) with
  | some contents =>
    refine ⟨_, object, contents, rfl, ⟨one.tree, one.small, object, rfl, usable.alive,
      usable.unlocked, usable.size, ?_⟩, ⟨rfl, rfl, rfl⟩, ?_, rfl, found⟩
    · intro other mapped
      by_cases same : other = page
      · rw [same, found]
        rfl
      · exact usable.mapped other (by simpa [same] using mapped)
    · intro offset
      simp only [byte, has]
  | none =>
    have lookup := find_insert_of_none (fun _ => (0 : UInt8)) found
    refine ⟨_, { object with pages := object.pages.insert (pageKey 0 page) fun _ => 0 },
      fun _ => 0, rfl, ⟨one.tree, one.small, _, rfl, usable.alive, usable.unlocked, usable.size,
      ?_⟩, ⟨rfl, rfl, rfl⟩, ?_, rfl, by rw [lookup, if_pos rfl]⟩
    · intro other mapped
      simp only [lookup]
      split_ifs with same
      · rfl
      · refine usable.mapped other ?_
        have different : other ≠ page := fun equal => same (by rw [equal])
        simpa [different] using mapped
    · intro offset
      simp only [byte, has, lookup]
      by_cases same : pageKey 0 (offset / pageSize) = pageKey 0 page
      · rw [if_pos same, same, found]
      · rw [if_neg same]

variable {offset : Nat}

theorem load_spec (inside : offset < count * pageSize) :
    ∃ after, file.load 0 offset = .ok (after, file.byte 0 offset) ∧ OneBlock after count ∧
      SameAttributes file after ∧ ∀ other, after.byte 0 other = file.byte 0 other := by
  have page : offset / pageSize < count := (Nat.div_lt_iff_lt_mul (by simp [pageSize])).mpr inside
  obtain ⟨after, _, _, done, still, same, bytes, _⟩ := fault_spec one page
  refine ⟨after, ?_, still, same, bytes⟩
  simp only [load, one_block_find one, if_pos inside, done]
  rw [← bytes]
  rfl

theorem store_spec (inside : offset < count * pageSize) (value : UInt8) :
    ∃ after, file.store 0 offset value = .ok after ∧ OneBlock after count ∧
      SameAttributes file after ∧
      ∀ other, other < count * pageSize →
        after.byte 0 other = if other = offset then value else file.byte 0 other := by
  have page : offset / pageSize < count := (Nat.div_lt_iff_lt_mul (by simp [pageSize])).mpr inside
  obtain ⟨mapped, object, contents, done, still, same, bytes, has, found⟩ := fault_spec one page
  obtain ⟨other, again, usable⟩ := still.object
  rw [has, some.injEq] at again
  subst again
  simp only [store, one_block_find one, if_pos inside, done]
  refine ⟨_, by simp only [bind, Except.bind, has, found, getD_some]; rfl, ?_, ?_, ?_⟩
  · refine ⟨still.tree, still.small, _, rfl, usable.alive, usable.unlocked, usable.size, ?_⟩
    intro number present
    simp only [find_set]
    split_ifs with equal
    · rw [found]
      rfl
    · exact usable.mapped number present
  · exact ⟨same.size, same.blocks, same.allocations⟩
  · intro place within
    rw [← bytes place]
    simp only [byte, has, find_set, found, map_some]
    have placePage : place / pageSize < count :=
      (Nat.div_lt_iff_lt_mul (by simp [pageSize])).mpr within
    rw [page_key_zero one.small placePage, page_key_zero one.small page]
    by_cases equal : place / pageSize = offset / pageSize
    · rw [if_pos (by rw [equal]), equal]
      simp only [Function.update_apply]
      rw [page_key_zero one.small page] at found
      rw [found]
      have iff : place % pageSize = offset % pageSize ↔ place = offset := by
        constructor
        · intro modulo
          rw [← Nat.div_add_mod place pageSize, ← Nat.div_add_mod offset pageSize, equal, modulo]
        · rintro rfl
          rfl
      simp only [iff]
    · have keys : ¬ place / pageSize * pageSize = offset / pageSize * pageSize := by
        intro products
        exact equal (Nat.eq_of_mul_eq_mul_right (by simp [pageSize]) products)
      have different : place ≠ offset := by
        rintro rfl
        exact equal rfl
      rw [if_neg keys, if_neg different]

end

theorem store_all_spec (values : List UInt8) (offset : Nat) (one : OneBlock file count)
    (inside : offset + values.length ≤ count * pageSize) :
    ∃ after, storeAll 0 offset values file = .ok after ∧ OneBlock after count ∧
      SameAttributes file after ∧
      ∀ other, other < count * pageSize → after.byte 0 other =
        if offset ≤ other ∧ other < offset + values.length then values.getD (other - offset) 0
        else file.byte 0 other := by
  induction values generalizing file offset with
  | nil =>
    refine ⟨file, rfl, one, ⟨rfl, rfl, rfl⟩, ?_⟩
    intro other _
    rw [if_neg (by simp)]
  | cons value rest ih =>
    rw [length_cons] at inside
    obtain ⟨stored, done, still, same, bytes⟩ := store_spec one
      (show offset < count * pageSize by omega) value
    obtain ⟨after, finished, last, same', bytes'⟩ := ih (offset + 1) still (by omega)
    refine ⟨after, ?_, last, same_attributes_trans same same', ?_⟩
    · rw [storeAll, done]
      exact finished
    · intro other within
      rw [bytes' other within, bytes other within, length_cons]
      by_cases first : other = offset
      · subst first
        rw [if_neg (by omega), if_pos rfl, if_pos (by omega), Nat.sub_self]
        rfl
      · rw [if_neg first]
        by_cases later : offset + 1 ≤ other ∧ other < offset + 1 + rest.length
        · have index : other - offset = other - (offset + 1) + 1 := by omega
          rw [if_pos later, if_pos (by omega), index, getD_cons_succ]
        · rw [if_neg later, if_neg (by omega)]

theorem load_all_spec (length offset : Nat) (one : OneBlock file count)
    (inside : offset + length ≤ count * pageSize) :
    ∃ after, loadAll 0 offset length file =
        .ok (after, (List.range length).map fun index => file.byte 0 (offset + index)) ∧
      OneBlock after count ∧ SameAttributes file after ∧
      ∀ other, after.byte 0 other = file.byte 0 other := by
  induction length generalizing file offset with
  | zero => exact ⟨file, rfl, one, ⟨rfl, rfl, rfl⟩, fun _ => rfl⟩
  | succ length ih =>
    obtain ⟨loaded, done, still, same, bytes⟩ := load_spec one
      (show offset < count * pageSize by omega)
    obtain ⟨after, finished, last, same', bytes'⟩ := ih (offset + 1) still (by omega)
    refine ⟨after, ?_, last, same_attributes_trans same same', ?_⟩
    · rw [loadAll, done]
      simp only [bind, Except.bind, finished]
      rw [List.range_succ_eq_map, List.map_cons, List.map_map]
      simp only [bytes, Function.comp_def, Nat.succ_eq_add_one, add_assoc, add_comm 1, add_zero]
    · intro other
      rw [bytes', bytes]

end OneBlock

section Contents

/-- The single block of the file has room for all of it. -/
structure Written (file : TempFSVNode) (count : Nat) : Prop extends OneBlock file count where
  blocks : file.blocks = count * pageSize
  bound : file.size ≤ count * pageSize

structure Blank (file : TempFSVNode) : Prop where
  size : file.size = 0
  blocks : file.blocks = 0
  tree : file.tree = .empty
  memObj : file.memObj = none

variable {offset : Nat} {after before : TempFSVNode}

theorem one_block_byte_at {file : TempFSVNode} {count : Nat} (one : OneBlock file count)
    (inside : offset < count * pageSize) : file.byteAt offset = file.byte 0 offset := by
  have page : offset / pageSize < count := (Nat.div_lt_iff_lt_mul (by simp [pageSize])).mpr inside
  rw [byteAt, one_block_of one page]
  simp

theorem contents_length (file : TempFSVNode) : file.contents.length = file.size := by
  simp [contents]

theorem contents_congr (size : after.size = before.size)
    (bytes : ∀ offset, offset < before.size → after.byteAt offset = before.byteAt offset) :
    after.contents = before.contents := by
  rw [contents, contents, size]
  apply map_congr_left
  intro offset member
  exact bytes offset (mem_range.mp member)

theorem contents_splice {buffer : List UInt8} (start : offset ≤ before.size)
    (size : after.size = max before.size (offset + buffer.length))
    (bytes : ∀ place, place < after.size → after.byteAt place =
      if offset ≤ place ∧ place < offset + buffer.length then buffer.getD (place - offset) 0
      else before.byteAt place) : after.contents = splice before.contents buffer offset := by
  apply ext_getElem
  · simp only [splice, contents_length, length_append, length_take, length_drop, size]
    omega
  · intro place inside within
    rw [contents_length] at inside
    have own : ∀ (file : TempFSVNode) (index : Nat) (valid : index < file.contents.length),
        file.contents[index] = file.byteAt index := by
      intro file index valid
      simp [contents]
    rw [own, bytes place inside]
    have takeLength : (before.contents.take offset).length = offset := by
      rw [length_take, contents_length]
      omega
    simp only [splice]
    by_cases early : place < offset
    · rw [if_neg (by omega), getElem_append_left (by simp [takeLength]; omega),
        getElem_append_left (by omega), getElem_take, own]
    by_cases middle : place < offset + buffer.length
    · rw [if_pos (by omega), getElem_append_left (by simp [takeLength]; omega),
        getElem_append_right (by omega)]
      simp only [takeLength]
      rw [getD_eq_getElem?_getD, getElem?_eq_getElem (by omega), getD_some]
    · rw [if_neg (by omega), getElem_append_right (by simp [takeLength]; omega), getElem_drop, own]
      congr 1
      simp only [length_append, takeLength]
      omega

end Contents

section Calls
variable {cursor : Cursor} {step : Cursor → Cursor ⊕ Except Fault Outcome} {buffer : List UInt8}
  {offset : Nat}

theorem loop_continue {fuel : Nat} {next : Cursor} (continues : step cursor = .inl next) :
    loop step (fuel + 1) cursor = loop step fuel next := by
  simp only [loop, continues]

theorem loop_finish {fuel : Nat} {outcome : Except Fault Outcome}
    (ends : step cursor = .inr outcome) : loop step (fuel + 1) cursor = some outcome := by
  simp only [loop, ends]

theorem write_round_finished (offset : Nat) (finished : buffer.length ≤ cursor.done) :
    roundStep (writeRound buffer offset) cursor =
      .inr (.ok ⟨cursor.file, .success, cursor.done, []⟩) := by
  simp only [roundStep, writeRound, if_pos finished]
  rfl

theorem div_mul_mod (offset : Nat) : offset / pageSize * pageSize + offset % pageSize = offset := by
  rw [mul_comm, Nat.div_add_mod]

variable {count : Nat} {file : TempFSVNode}

theorem block_left {length : Nat} (inside : offset + length ≤ count * pageSize) :
    length ≤ (count - offset / pageSize) * pageSize := by
  have split := div_mul_mod offset
  rw [Nat.sub_mul]
  omega

section
variable (written : Written file count)
include written

theorem written_room (inside : offset < file.size) :
    offset / pageSize < count ∧ count < 2 ^ 64 ∧ (count - offset / pageSize) * pageSize < 2 ^ 64 := by
  have small := written.small
  have bound := written.bound
  refine ⟨(Nat.div_lt_iff_lt_mul (by simp [pageSize])).mpr (by omega), ?_, ?_⟩
  · simp only [pageSize] at small
    omega
  · rw [Nat.sub_mul]
    omega

theorem write_inside (some' : buffer ≠ []) (aligned : pageSize ∣ offset)
    (inside : offset + buffer.length ≤ file.size) :
    ∃ after, file.write buffer offset = some (.ok ⟨after, .success, buffer.length, []⟩) ∧
      Written after count ∧ after.size = file.size ∧
      after.contents = splice file.contents buffer offset := by
  have positive : 0 < buffer.length := length_pos_iff.mpr some'
  have small := written.small
  have bound := written.bound
  obtain ⟨page, countSmall, room⟩ := written_room written (show offset < file.size by omega)
  have split := div_mul_mod offset
  have remainder : offset % pageSize = 0 := Nat.mod_eq_zero_of_dvd aligned
  have least := block_left (show offset + buffer.length ≤ count * pageSize by omega)
  obtain ⟨after, done, still, same, bytes⟩ := store_all_spec buffer offset written.toOneBlock
    (by omega)
  have round : roundStep (writeRound buffer offset) ⟨file, 0, []⟩ =
      .inl ⟨after, buffer.length, []⟩ := by
    have place : add64 offset 0 = offset := add64_of_lt (by omega)
    simp only [roundStep, writeRound, place, if_neg (Nat.not_le.mpr positive), written.blocks,
      if_neg (show ¬ count * pageSize ≤ offset by omega), one_block_of written.toOneBlock page]
    rw [sub64_of_le (by omega) (Nat.zero_le _), sub64_of_le (by omega) (Nat.zero_le _),
      sub64_of_le countSmall (by omega), Nat.sub_zero, Nat.sub_zero, mul64_of_lt room,
      Nat.min_eq_left least, remainder, sub64_of_le (by omega) (Nat.zero_le _), Nat.sub_zero,
      mul64_of_lt (by omega), add64_of_lt (by omega), add64_of_lt (by omega)]
    simp only [copyIn, Nat.zero_add, le_refl, if_true, drop_zero, take_length]
    rw [show offset / pageSize * pageSize + 0 = offset by omega, done]
    rfl
  refine ⟨after, ?_, ⟨still, same.blocks.trans written.blocks, ?_⟩, same.size, ?_⟩
  · obtain ⟨fuel, more⟩ : ∃ fuel, buffer.length = fuel + 1 := ⟨buffer.length - 1, by omega⟩
    rw [write, loop_continue round]
    rw [more, loop_finish (write_round_finished offset (le_of_eq more))]
  · rw [same.size]
    exact bound
  · refine contents_splice (by omega) (by rw [same.size]; omega) ?_
    intro place within
    rw [same.size] at within
    rw [one_block_byte_at still (by omega), one_block_byte_at written.toOneBlock (by omega)]
    exact bytes place (by omega)

theorem read_inside (size offset : Nat) (inside : offset < file.size)
    (small : offset + size < 2 ^ 64) :
    ∃ after, file.read size offset = some (.ok ⟨after, .success, min size (file.size - offset),
        (file.contents.drop offset).take size⟩) ∧
      Written after count ∧ after.size = file.size ∧ after.contents = file.contents := by
  have limit := written.small
  have bound := written.bound
  obtain ⟨page, countSmall, room⟩ := written_room written inside
  have clipped : (if file.size < add64 offset size then sub64 file.size offset else size) =
      min size (file.size - offset) := by
    rw [add64_of_lt small, sub64_of_le (by omega) (by omega)]
    split_ifs <;> omega
  generalize length : min size (file.size - offset) = clip at clipped
  have split := div_mul_mod offset
  have least := block_left (show offset + clip ≤ count * pageSize by omega)
  obtain ⟨after, done, still, same, bytes⟩ := load_all_spec clip offset written.toOneBlock (by omega)
  have array : (List.range clip).map (fun index => file.byte 0 (offset + index)) =
      (file.contents.drop offset).take size := by
    apply ext_getElem
    · simp only [length_map, length_range, length_take, length_drop, contents_length]
      omega
    · intro index within _
      simp only [length_map, length_range] at within
      simp only [getElem_map, getElem_range, getElem_take, getElem_drop, contents]
      rw [one_block_byte_at written.toOneBlock (by omega)]
  have finish : ∀ cursor : Cursor, clip ≤ cursor.done →
      roundStep (readRound size clip offset) cursor =
        .inr (.ok ⟨cursor.file, .success, cursor.done, cursor.bytes⟩) := by
    intro cursor finished
    simp only [roundStep, readRound, if_pos (Or.inl finished)]
    rfl
  have contents : after.contents = file.contents := by
    refine contents_congr same.size ?_
    intro place within
    rw [one_block_byte_at still (by omega), one_block_byte_at written.toOneBlock (by omega), bytes]
  have still' : Written after count :=
    ⟨still, same.blocks.trans written.blocks, by rw [same.size]; exact bound⟩
  rw [TempFSVNode.read, if_neg (by omega)]
  simp only [clipped]
  by_cases zero : clip = 0
  · refine ⟨file, ?_, written, rfl, rfl⟩
    rw [loop_finish (finish ⟨file, 0, []⟩ (by simp [zero])), ← array, zero]
    rfl
  refine ⟨after, ?_, still', same.size, contents⟩
  have round : roundStep (readRound size clip offset) ⟨file, 0, []⟩ =
      .inl ⟨after, clip, (file.contents.drop offset).take size⟩ := by
    have place : add64 offset 0 = offset := add64_of_lt (by omega)
    simp only [roundStep, readRound, place, if_neg (show ¬ (clip ≤ 0 ∨ file.size ≤ offset) by
      omega), one_block_of written.toOneBlock page]
    rw [sub64_of_le (by omega) (Nat.zero_le _), sub64_of_le (by omega) (Nat.zero_le _), sub64_of_le
      countSmall (by omega), Nat.sub_zero, Nat.sub_zero, mul64_of_lt room, Nat.min_eq_left least,
      mul64_of_lt (by omega), add64_of_lt (by omega), add64_of_lt (by omega), split]
    simp only [copyOut, Nat.zero_add, if_pos (show clip ≤ size by omega), done, array, nil_append]
    rfl
  obtain ⟨fuel, more⟩ : ∃ fuel, clip = fuel + 1 := ⟨clip - 1, by omega⟩
  rw [loop_continue round]
  have ends := finish ⟨after, clip, (file.contents.drop offset).take size⟩ le_rfl
  rw [more] at ends ⊢
  exact loop_finish ends

end

theorem write_nothing (file : TempFSVNode) (offset : Nat) :
    file.write [] offset = some (.ok ⟨file, .success, 0, []⟩) :=
  loop_finish (write_round_finished offset le_rfl)

theorem create_first_block (blank : Blank file) {pages : Nat} (positive : pages ≠ 0)
    (small : pages * pageSize < 2 ^ 64) :
    (file.allocations ≠ [] ∧ ∃ rest, file.createBlock 0 pages = .ok (rest, false) ∧ Blank rest) ∨
    (∃ made, file.createBlock 0 pages = .ok (made, true) ∧ OneBlock made pages ∧
      made.size = 0 ∧ made.blocks = 0) := by
  have rest : Blank { file with allocations := file.allocations.tail } :=
    ⟨blank.size, blank.blocks, blank.tree, blank.memObj⟩
  have planned : file.allocations.headD .succeeds ≠ .succeeds → file.allocations ≠ [] := by
    intro fails none
    rw [none] at fails
    exact fails rfl
  unfold createBlock
  rw [if_neg positive]
  cases outcome : file.allocations.headD .succeeds with
  | noRegion =>
    exact .inl ⟨planned (by rw [outcome]; decide), _, rfl, rest⟩
  | noObject =>
    simp only [blank.memObj]
    exact .inl ⟨planned (by rw [outcome]; decide), _, rfl, blank.size, blank.blocks, blank.tree,
      rfl⟩
  | noEntry =>
    simp only [blank.memObj]
    exact .inl ⟨planned (by rw [outcome]; decide), _, rfl, blank.size, blank.blocks, blank.tree,
      rfl⟩
  | succeeds =>
    simp only [blank.memObj]
    refine .inr ⟨_, rfl, ⟨by rw [blank.tree], small, _, rfl, rfl, rfl, rfl, ?_⟩, blank.size,
      blank.blocks⟩
    simp

theorem write_first (blank : Blank file) (buffer : List UInt8) (some' : buffer ≠ [])
    (small : buffer.length + pageSize ≤ 2 ^ 64) :
    (∃ after count, file.write buffer 0 = some (.ok ⟨after, .success, buffer.length, []⟩) ∧
      Written after count ∧ after.size = buffer.length ∧
      after.contents = splice file.contents buffer 0) ∨
    (file.allocations ≠ [] ∧
      ∃ after, file.write buffer 0 = some (.ok ⟨after, .noMemory, 0, []⟩) ∧ Blank after) := by
  simp only [pageSize] at small
  have positive : 0 < buffer.length := length_pos_iff.mpr some'
  have whole : sub64 buffer.length 0 = buffer.length := sub64_of_le (by omega) (Nat.zero_le _)
  have rounded : divRoundup buffer.length pageSize = (buffer.length + 4095) / 4096 := by
    rw [divRoundup, pageSize, add64_of_lt (by omega)]
  have limit : (buffer.length + 4095) / 4096 * pageSize < 2 ^ 64 := by
    rw [pageSize]
    omega
  have enough : buffer.length ≤ (buffer.length + 4095) / 4096 * pageSize := by
    rw [pageSize]
    omega
  have up : alignUp buffer.length pageSize = (buffer.length + 4095) / 4096 * pageSize := by
    rw [alignUp, rounded, mul64_of_lt limit]
  rcases create_first_block blank (by omega) limit with
    ⟨planned, rest, created, still⟩ | ⟨made, created, one, size, blocks⟩
  · refine .inr ⟨planned, rest, loop_finish ?_, still⟩
    simp only [roundStep, writeRound, if_neg (Nat.not_le.mpr positive), blank.blocks, whole,
      rounded]
    rw [if_pos (Nat.zero_le _), show add64 0 0 / pageSize = 0 from rfl, created]
    rfl
  · obtain ⟨after, done, still, same, bytes⟩ := store_all_spec buffer 0 one (by omega)
    refine .inl ⟨{ after with
        size := buffer.length
        blocks := (buffer.length + 4095) / 4096 * pageSize }, (buffer.length + 4095) / 4096,
      loop_finish ?_, ⟨⟨still.tree, still.small, still.object⟩, rfl, enough⟩, rfl, ?_⟩
    · simp only [roundStep, writeRound, if_neg (Nat.not_le.mpr positive), blank.blocks, whole,
        rounded]
      rw [if_pos (Nat.zero_le _), show add64 0 0 / pageSize = 0 from rfl,
        show add64 0 0 % pageSize = 0 from rfl, created]
      simp only [bind, Except.bind, if_true, copyIn, Nat.zero_add, le_refl,
        drop_zero, take_length, done, same.size, same.blocks, size, blocks, up]
      rw [add64_of_lt (by omega), add64_of_lt (by omega), Nat.zero_add, Nat.zero_add]
      rfl
    · refine contents_splice (Nat.zero_le _) (by rw [blank.size]; simp) ?_
      intro place within
      have early : place < buffer.length := within
      have byte : byteAt { after with
          size := buffer.length
          blocks := (buffer.length + 4095) / 4096 * pageSize } place = after.byteAt place := rfl
      rw [byte, one_block_byte_at still (by omega), bytes place (by omega)]
      have inside : 0 ≤ place ∧ place < 0 + buffer.length := by
        rw [Nat.zero_add]
        exact ⟨Nat.zero_le _, early⟩
      rw [if_pos inside, if_pos inside]

end Calls

section Runs

inductive Call
  | write (buffer : List UInt8) (offset : Nat)
  | read (size offset : Nat)

section
variable (file before : TempFSVNode) (call : Call) (after : TempFSVNode)

def Call.run : Call → Option (Except Fault Outcome)
  | .write buffer offset => file.write buffer offset
  | .read size offset => file.read size offset

def Call.Legal : Call → Prop
  | .write buffer offset => offset ≤ file.size ∧ offset + buffer.length + pageSize ≤ 2 ^ 64
  | .read size offset => offset < file.size ∧ offset + size < 2 ^ 64

/-- A write of nothing, the first write, or one that starts at a page boundary and stays in
the file. -/
def Call.Fits : Call → Prop
  | .write buffer offset => buffer = [] ∨ file.size = 0 ∨
      (pageSize ∣ offset ∧ offset + buffer.length ≤ file.size)
  | .read _ _ => True

def Call.Steps : Prop :=
  call.Legal before ∧ ∃ outcome, call.run before = some (.ok outcome) ∧ outcome.file = after

def Call.FittingSteps : Prop := Call.Steps before call after ∧ call.Fits before

/-- The call returns, accesses only the blocks and the buffer, and does what it does on an
array of bytes; a write that finds no memory leaves the array. -/
def Call.Refines : Prop :=
  ∃ outcome, call.run file = some (.ok outcome) ∧
    match call with
    | .write buffer offset =>
      (outcome.status = .success ∧ outcome.count = buffer.length ∧
        outcome.file.size = max file.size (offset + buffer.length) ∧
        outcome.file.contents = splice file.contents buffer offset) ∨
      (outcome.status = .noMemory ∧ outcome.file.contents = file.contents)
    | .read size offset =>
      outcome.status = .success ∧ outcome.count = min size (file.size - offset) ∧
        outcome.bytes = (file.contents.drop offset).take size ∧
        outcome.file.contents = file.contents

def Regular : Prop := Blank file ∨ ∃ count, 0 < file.size ∧ Written file count

end

theorem splice_nil (array : List UInt8) (offset : Nat) : splice array [] offset = array := by
  simp [splice]

variable {file : TempFSVNode}

theorem blank_contents (blank : Blank file) : file.contents = [] := by
  rw [contents, blank.size]
  rfl

theorem only_outcome {call : Call} {outcome : Outcome} (done : call.run file = some (.ok outcome))
    (regular : Regular outcome.file) :
    ∀ other, call.run file = some (.ok other) → Regular other.file := by
  intro other again
  rw [done, some.injEq, Except.ok.injEq] at again
  exact again ▸ regular

theorem call_regular (regular : Regular file) {call : Call} (legal : call.Legal file)
    (fits : call.Fits file) :
    call.Refines file ∧ ∀ outcome, call.run file = some (.ok outcome) → Regular outcome.file := by
  cases call with
  | write buffer offset =>
    by_cases nothing : buffer = []
    · subst nothing
      have done := write_nothing file offset
      constructor
      · refine ⟨_, done, .inl ⟨rfl, rfl, ?_, (splice_nil _ _).symm⟩⟩
        have start : offset ≤ file.size := legal.1
        simp only [length_nil]
        omega
      · exact only_outcome done regular
    · rcases regular with blank | ⟨count, positive, written⟩
      · have origin : offset = 0 := by
          have start : offset ≤ file.size := legal.1
          rw [blank.size] at start
          omega
        subst origin
        have small := legal.2
        rw [Nat.zero_add] at small
        rcases write_first blank buffer nothing small with
          ⟨after, count, done, written, size, contents⟩ | ⟨_, after, done, still⟩
        · constructor
          · refine ⟨_, done, .inl ⟨rfl, rfl, ?_, contents⟩⟩
            rw [size, blank.size]
            simp
          · exact only_outcome done
              (.inr ⟨count, by rw [size]; exact length_pos_iff.mpr nothing, written⟩)
        · constructor
          · refine ⟨_, done, .inr ⟨rfl, ?_⟩⟩
            rw [blank_contents blank]
            exact blank_contents still
          · exact only_outcome done (.inl still)
      · have inside : pageSize ∣ offset ∧ offset + buffer.length ≤ file.size := by
          rcases fits with empty | zero | inside
          · exact absurd empty nothing
          · omega
          · exact inside
        obtain ⟨after, done, still, size, contents⟩ := write_inside written nothing
          inside.1 inside.2
        constructor
        · refine ⟨_, done, .inl ⟨rfl, rfl, ?_, contents⟩⟩
          rw [size]
          omega
        · exact only_outcome done (.inr ⟨count, by rw [size]; exact positive, still⟩)
  | read size offset =>
    rcases regular with blank | ⟨count, positive, written⟩
    · have start : offset < file.size := legal.1
      rw [blank.size] at start
      omega
    obtain ⟨after, done, still, same, contents⟩ := read_inside written size offset legal.1 legal.2
    constructor
    · exact ⟨_, done, rfl, rfl, rfl, contents⟩
    · exact only_outcome done (.inr ⟨count, by rw [same]; exact positive, still⟩)

/-- In every state reached by writes that fit, and by reads, the next read or fitting write
does what it does on an array of bytes. -/
theorem file_refines_bytes {allocations : List Allocation} {file : TempFSVNode} {calls : List Call}
    (run : Run Call.FittingSteps (created allocations) calls file) (call : Call)
    (legal : call.Legal file) (fits : call.Fits file) : call.Refines file := by
  have regular : Regular file := by
    refine run_invariant Regular ?_ (.inl ⟨rfl, rfl, rfl, rfl⟩) run
    rintro before label after inside ⟨⟨allowed, outcome, done, rfl⟩, fitting⟩
    exact (call_regular inside allowed fitting).2 outcome done
  exact (call_regular regular legal fits).1

/-- Two bytes written and the first read back. -/
theorem file_refines_bytes_two :
    ∃ file, Run Call.FittingSteps (created []) [.write [7, 8] 0] file ∧
      (Call.read 1 1).Refines file := by
  refine exists_run_of (fun file => file.size = 2)
    ⟨_, run_cons ⟨⟨⟨le_rfl, by decide⟩, _, rfl, rfl⟩, .inr (.inl rfl)⟩ (Run.nil _), rfl⟩ ?_
  intro file run size
  refine file_refines_bytes run (.read 1 1) ⟨?_, by decide⟩ trivial
  rw [size]
  decide

set_option maxRecDepth 20000 in
/-- A byte appended to a file of one byte: the call reports one byte and the file keeps its size. -/
theorem append_loses_byte :
    ∃ file, Run Call.Steps (created []) [.write [7] 0] file ∧
      (Call.write [8] 1).Legal file ∧ ¬ (Call.write [8] 1).Refines file := by
  refine exists_run_of (fun file => file.size = 1 ∧ ∃ outcome, file.write [8] 1 =
      some (.ok outcome) ∧ outcome.status = .success ∧ outcome.file.size = 1)
    ⟨_, run_cons ⟨⟨le_rfl, by decide⟩, _, rfl, rfl⟩ (Run.nil _), rfl, _, rfl, rfl, rfl⟩ ?_
  rintro file run ⟨size, outcome, done, status, kept⟩
  refine ⟨⟨by rw [size], by decide⟩, ?_⟩
  rintro ⟨other, again, result⟩
  have same : file.write [8] 1 = some (.ok other) := again
  rw [done, some.injEq, Except.ok.injEq] at same
  subst same
  rcases result with ⟨_, _, grown, _⟩ | ⟨failed, _⟩
  · rw [kept, size] at grown
    exact absurd grown (by decide)
  · rw [status] at failed
    cases failed

end Runs
end FrostyKernel.TempFS
