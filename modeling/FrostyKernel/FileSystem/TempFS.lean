import FrostyKernel.Lib.Run
import FrostyKernel.Memory.Types

/-!
# Regular files of TempFS

A file is a tree of blocks. A block is a range of kernel memory whose pages are
pages of the memory object of the file; a page is made on the first access to it.
Reading and writing copy between the blocks and the buffer of the caller.
-/

namespace FrostyKernel.TempFS

open FrostyKernel.Memory Word

/-- Why a call does not return: it waits for a lock that nobody releases, it accesses memory
outside the blocks or the buffer of the caller, the pager has no page, or the object of the
file has been freed. -/
inductive Fault
  | spins
  | outside
  | panics
  | freed
deriving DecidableEq, Repr

/-- How the allocations of one `AllocMemObjAnonPages` end. -/
inductive Allocation
  | succeeds
  | noRegion
  | noObject
  | noEntry
deriving DecidableEq, Repr

/-- The pages are indexed by their offset in the object. -/
structure MemoryObject where
  size : Nat
  refCount : Nat
  locked : Bool
  freed : Bool
  pages : OrderedMap Nat (Nat → UInt8)

/-- `size` and `blocks` are the fields of `m_attr`, both in bytes; `tree` is `m_blocks`, with
the number of pages of each block; `present` tells whether a page of a block is mapped;
`allocations` are the results of the allocations to come, which succeed when none are left. -/
structure TempFSVNode where
  size : Nat
  blocks : Nat
  tree : OrderedMap Nat Nat
  present : Nat → Nat → Bool
  memObj : Option MemoryObject
  allocations : List Allocation

def TempFSVNode.created (allocations : List Allocation) : TempFSVNode where
  size := 0
  blocks := 0
  tree := .empty
  present := fun _ _ => false
  memObj := none
  allocations := allocations

section Blocks

/-- `AllocMemObjAnonPages` as `CreateBlock` calls it, with the block number as the offset in
the object. The lock of an object that exists is taken and not released. Whether a block
was made. -/
def TempFSVNode.createBlock (file : TempFSVNode) (number pages : Nat) :
    Except Fault (TempFSVNode × Bool) :=
  if pages = 0 then .ok (file, false)
  else
    let rest := { file with allocations := file.allocations.tail }
    let made := { rest with
      tree := file.tree.insert number pages
      present := Function.update file.present number fun _ => false }
    match file.allocations.headD .succeeds, file.memObj with
    | .noRegion, _ => .ok (rest, false)
    | .noObject, none => .ok (rest, false)
    | .noEntry, none => .ok (rest, false)
    | .succeeds, none =>
      .ok ({ made with memObj := some ⟨pages, 1, false, false, .empty⟩ }, true)
    | outcome, some object =>
      if object.freed then .error .freed
      else if object.locked then .error .spins
      else
        let grown := { object with
          size := add64 object.size pages
          refCount := add64 object.refCount 1
          locked := true }
        if outcome = .noEntry then
          .ok ({ rest with memObj := some { grown with freed := true } }, false)
        else .ok ({ made with memObj := some grown }, true)

def pageKey (block page : Nat) : Nat := add64 block (mul64 page pageSize)

namespace TempFSVNode

section
variable (file : TempFSVNode) (block offset : Nat)

/-- The page fault on a page of a block that is not mapped: the pager finds the page or
makes one of zeroes. -/
def fault (page : Nat) : Except Fault TempFSVNode :=
  if file.present block page then .ok file
  else
    match file.memObj with
    | none => .error .outside
    | some object =>
      if object.freed then .error .freed
      else if object.locked then .error .spins
      else if object.size < pageKey block page / pageSize + 1 then .error .panics
      else
        let pages := match object.pages.find? (pageKey block page) with
          | some _ => object.pages
          | none => object.pages.insert (pageKey block page) fun _ => 0
        .ok { file with
          memObj := some { object with pages }
          present := Function.update file.present block
            (Function.update (file.present block) page true) }

def byte : UInt8 :=
  match file.memObj with
  | none => 0
  | some object =>
    match object.pages.find? (pageKey block (offset / pageSize)) with
    | none => 0
    | some page => page (offset % pageSize)

def load : Except Fault (TempFSVNode × UInt8) :=
  match file.tree.find? block with
  | none => .error .outside
  | some pages =>
    if offset < pages * pageSize then do
      let mapped ← file.fault block (offset / pageSize)
      .ok (mapped, mapped.byte block offset)
    else .error .outside

def store (value : UInt8) : Except Fault TempFSVNode :=
  match file.tree.find? block with
  | none => .error .outside
  | some pages =>
    if offset < pages * pageSize then do
      let mapped ← file.fault block (offset / pageSize)
      match mapped.memObj with
      | none => .error .outside
      | some object =>
        let key := pageKey block (offset / pageSize)
        let page := Function.update ((object.pages.find? key).getD fun _ => 0)
          (offset % pageSize) value
        .ok { mapped with memObj := some { object with pages := object.pages.set key page } }
    else .error .outside

end

def storeAll (block : Nat) : Nat → List UInt8 → TempFSVNode → Except Fault TempFSVNode
  | _, [], file => .ok file
  | offset, value :: rest, file => do
      let stored ← file.store block offset value
      storeAll block (offset + 1) rest stored

def loadAll (block : Nat) : Nat → Nat → TempFSVNode → Except Fault (TempFSVNode × List UInt8)
  | _, 0, file => .ok (file, [])
  | offset, count + 1, file => do
      let (loaded, value) ← file.load block offset
      let (rest, values) ← loadAll block (offset + 1) count loaded
      .ok (rest, value :: values)

/-- `memcpy` of `count` bytes of the buffer to the block. -/
def copyIn (file : TempFSVNode) (block offset : Nat) (buffer : List UInt8)
    (start count : Nat) : Except Fault TempFSVNode :=
  if start + count ≤ buffer.length then
    TempFSVNode.storeAll block offset ((buffer.drop start).take count) file
  else .error .outside

/-- `memcpy` of `count` bytes of the block to the buffer, which has room for `capacity` bytes
and holds `start` bytes so far. -/
def copyOut (file : TempFSVNode) (block offset capacity start count : Nat) :
    Except Fault (TempFSVNode × List UInt8) :=
  if start + count ≤ capacity then TempFSVNode.loadAll block offset count file
  else .error .outside

end TempFSVNode
end Blocks

section Calls

inductive Status
  | success
  | noMemory
  | invalid
deriving DecidableEq, Repr

/-- `bytes` is what a read has put in the buffer; `count` is what the call reports. -/
structure Outcome where
  file : TempFSVNode
  status : Status
  count : Nat
  bytes : List UInt8

/-- The variables of the two loops. -/
structure Cursor where
  file : TempFSVNode
  done : Nat
  bytes : List UInt8

def TempFSVNode.blockOf (file : TempFSVNode) (number : Nat) : Option (Nat × Nat) :=
  match file.tree.findNodeOrLower number with
  | none => none
  | some (key, pages) => if add64 key pages ≤ number then none else some (key, pages)

/-- One round of the loop of `Read`; `size` has been clipped to the file. -/
def readRound (capacity size offset : Nat) (cursor : Cursor) : Except Fault (Cursor ⊕ Outcome) := do
  let file := cursor.file
  let place := add64 offset cursor.done
  let blockNum := place / pageSize
  let blockOffset := place % pageSize
  if size ≤ cursor.done ∨ file.size ≤ place then
    return .inr ⟨file, .success, cursor.done, cursor.bytes⟩
  match file.blockOf blockNum with
  | some (key, pages) =>
    let readSize := min (sub64 size cursor.done)
      (mul64 (sub64 pages (sub64 blockNum key)) pageSize)
    let (after, bytes) ← file.copyOut key
      (add64 (mul64 (sub64 blockNum key) pageSize) blockOffset) capacity cursor.done readSize
    return .inl ⟨after, add64 cursor.done readSize, cursor.bytes ++ bytes⟩
  | none =>
    -- in the range of the file, but the block does not exist
    let last := match file.tree.findNodeOrHigher blockNum with
      | none => none
      | some (key, pages) => if add64 offset size ≤ key then none else some (key, pages)
    match last with
    | none =>
      let (created, made) ← file.createBlock blockNum
        (divRoundup (sub64 size cursor.done) pageSize)
      if made then
        let (after, bytes) ← created.copyOut blockNum blockOffset capacity cursor.done
          (sub64 size cursor.done)
        return .inr ⟨after, .success, size, cursor.bytes ++ bytes⟩
      else return .inr ⟨created, .noMemory, cursor.done, cursor.bytes⟩
    | some (key, pages) =>
      let (created, made) ← file.createBlock blockNum (sub64 key blockNum)
      if made then
        let gap := mul64 (sub64 key blockNum) pageSize
        let (filled, first) ← created.copyOut blockNum blockOffset capacity cursor.done gap
        let done := add64 cursor.done gap
        let readSize := min (sub64 size done) (mul64 pages pageSize)
        let (after, second) ← filled.copyOut key 0 capacity done readSize
        return .inl ⟨after, add64 done readSize, cursor.bytes ++ first ++ second⟩
      else return .inr ⟨created, .noMemory, cursor.done, cursor.bytes⟩

/-- One round of the loop of `Write`. -/
def writeRound (buffer : List UInt8) (offset : Nat) (cursor : Cursor) :
    Except Fault (Cursor ⊕ Outcome) := do
  let file := cursor.file
  let size := buffer.length
  let place := add64 offset cursor.done
  let blockNum := place / pageSize
  let blockOffset := place % pageSize
  if size ≤ cursor.done then
    return .inr ⟨file, .success, cursor.done, []⟩
  if file.blocks ≤ place then
    let left := sub64 size cursor.done
    let (created, made) ← file.createBlock blockNum (divRoundup left pageSize)
    if made then
      let after ← created.copyIn blockNum blockOffset buffer cursor.done left
      return .inr ⟨{ after with
        size := add64 after.size left
        blocks := add64 after.blocks (alignUp left pageSize) }, .success, size, []⟩
    else return .inr ⟨created, .noMemory, cursor.done, []⟩
  match file.blockOf blockNum with
  | some (key, pages) =>
    let writeSize := min (sub64 size cursor.done)
      (mul64 (sub64 pages (sub64 blockNum key)) pageSize)
    let after ← file.copyIn key (add64 (mul64 (sub64 blockNum key) pageSize) blockOffset) buffer
      cursor.done (sub64 writeSize blockOffset)
    return .inl ⟨after, add64 cursor.done writeSize, []⟩
  | none =>
    let last := match file.tree.findNodeOrHigher blockNum with
      | none => none
      | some (key, pages) => if add64 offset size ≤ key then none else some (key, pages)
    match last with
    | none =>
      let left := sub64 size cursor.done
      let (created, made) ← file.createBlock blockNum (divRoundup left pageSize)
      if made then
        let after ← created.copyIn blockNum blockOffset buffer cursor.done
          (sub64 left blockOffset)
        return .inr ⟨after, .success, size, []⟩
      else return .inr ⟨created, .noMemory, cursor.done, []⟩
    | some (key, pages) =>
      let (created, made) ← file.createBlock blockNum (sub64 key blockNum)
      if made then
        let gap := mul64 (sub64 key blockNum) pageSize
        let filled ← created.copyIn blockNum blockOffset buffer cursor.done
          (sub64 gap blockOffset)
        let done := add64 cursor.done gap
        let writeSize := min (sub64 size done) (mul64 pages pageSize)
        let after ← filled.copyIn key 0 buffer done writeSize
        return .inl ⟨after, add64 done writeSize, []⟩
      else return .inr ⟨created, .noMemory, cursor.done, []⟩

def roundStep (round : Cursor → Except Fault (Cursor ⊕ Outcome)) (cursor : Cursor) :
    Cursor ⊕ Except Fault Outcome :=
  match round cursor with
  | .error fault => .inr (.error fault)
  | .ok (.inl next) => .inl next
  | .ok (.inr outcome) => .inr (.ok outcome)

def TempFSVNode.read (file : TempFSVNode) (size offset : Nat) : Option (Except Fault Outcome) :=
  if file.size ≤ offset then some (.ok ⟨file, .invalid, 0, []⟩)
  else
    let clipped := if file.size < add64 offset size then sub64 file.size offset else size
    loop (roundStep (readRound size clipped offset)) (clipped + 1) ⟨file, 0, []⟩

def TempFSVNode.write (file : TempFSVNode) (buffer : List UInt8) (offset : Nat) :
    Option (Except Fault Outcome) :=
  loop (roundStep (writeRound buffer offset)) (buffer.length + 1) ⟨file, 0, []⟩

end Calls

section Contents

def TempFSVNode.byteAt (file : TempFSVNode) (offset : Nat) : UInt8 :=
  match file.blockOf (offset / pageSize) with
  | none => 0
  | some (key, _) => file.byte key (offset - key * pageSize)

def TempFSVNode.contents (file : TempFSVNode) : List UInt8 := (List.range file.size).map file.byteAt

def splice (array buffer : List UInt8) (offset : Nat) : List UInt8 :=
  array.take offset ++ buffer ++ array.drop (offset + buffer.length)

end Contents
end FrostyKernel.TempFS
