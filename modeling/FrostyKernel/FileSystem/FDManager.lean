import FrostyKernel.Lib.Run
import FrostyKernel.FileSystem.Types

/-!
# The descriptor table of a process

`FDManager.cpp` keeps the numbers in use twice: as the keys of a tree of
descriptors and as the bits of a bitmap. The bitmap lives in an array that
`Allocate` replaces by a longer one and that `Fork` copies, so arrays and
descriptors have addresses here, and two managers could share them.

The numbers are those the tree and the bitmap see, which is `fd_t` as an
unsigned word. A result `none` is a call that does not return: it uses a pointer
that is null or dangling, or it waits for a lock that is never released.
-/

namespace FrostyKernel.FileSystem

open Bitmap

def INITIAL_FD_TABLE_SIZE : Nat := 128

def MAX_FD : Nat := 65536

def initialBytes : Nat := INITIAL_FD_TABLE_SIZE / 8

/-- What `new` has handed out. The outcomes are those of the coming allocations
that the code checks; an empty list means success. -/
structure Memory where
  arrays : Nat → Option Bytes
  nextArray : Nat
  descriptors : Nat → Option FileDescriptor
  nextDescriptor : Nat
  outcomes : List Bool

namespace Memory

section
variable (memory : Memory)

def draw : Memory × Bool :=
  match memory.outcomes with
  | [] => (memory, true)
  | outcome :: rest => ({ memory with outcomes := rest }, outcome)

/-- `new uint8_t[size]`, which clears the array. -/
def newArray (size : Nat) : Memory × Option Nat :=
  match memory.draw with
  | (drawn, false) => (drawn, none)
  | (drawn, true) =>
    ({ drawn with
        arrays := Function.update drawn.arrays drawn.nextArray (some (List.replicate size 0#8))
        nextArray := drawn.nextArray + 1 },
      some drawn.nextArray)

def deleteArray (buffer : Option Nat) : Memory :=
  match buffer with
  | none => memory
  | some address => { memory with arrays := Function.update memory.arrays address none }

def setArray (address : Nat) (bytes : Bytes) : Memory :=
  { memory with arrays := Function.update memory.arrays address (some bytes) }

/-- `memcpy(target, source, size)` between arrays; nothing is read for size zero. -/
def copyArray (target : Nat) (source : Option Nat) (size : Nat) : Option Memory :=
  if size = 0 then some memory
  else do
    let old ← memory.arrays (← source)
    let new ← memory.arrays target
    if old.length < size ∨ new.length < size then none
    else some (memory.setArray target (old.take size ++ new.drop size))

def newDescriptor (desc : FileDescriptor) : Memory × Option Nat :=
  match memory.draw with
  | (drawn, false) => (drawn, none)
  | (drawn, true) =>
    ({ drawn with
        descriptors := Function.update drawn.descriptors drawn.nextDescriptor (some desc)
        nextDescriptor := drawn.nextDescriptor + 1 },
      some drawn.nextDescriptor)

def setDescriptor (id : Nat) (desc : Option FileDescriptor) : Memory :=
  { memory with descriptors := Function.update memory.descriptors id desc }

end
end Memory

/-! ## The bitmap -/

structure RawBitmap where
  buffer : Option Nat
  size : Nat
deriving DecidableEq, Repr

namespace RawBitmap

def get (bitmap : RawBitmap) (memory : Memory) (index : Nat) : Option Bool :=
  if bitmap.size * 8 ≤ index then some false
  else do
    let bytes ← memory.arrays (← bitmap.buffer)
    if bytes.length ≤ index / 8 then none else some (bitAt bytes index)

def set (bitmap : RawBitmap) (memory : Memory) (index : Nat) (value : Bool) : Option Memory :=
  if bitmap.size * 8 ≤ index then some memory
  else do
    let address ← bitmap.buffer
    let bytes ← memory.arrays address
    if bytes.length ≤ index / 8 then none
    else some (memory.setArray address (write bytes index value))

/-- The loop of `Allocate` over the numbers given. -/
def firstClear (bitmap : RawBitmap) (memory : Memory) : List Nat → Option (Option Nat)
  | [] => some none
  | index :: rest =>
    match bitmap.get memory index with
    | none => none
    | some false => some (some index)
    | some true => bitmap.firstClear memory rest

end RawBitmap

/-! ## The manager -/

/-- The lock of the bitmap is taken and released by every call; only `Fork` can
return with the lock of the other manager held. -/
structure FileDescriptorManager where
  currentFDs : OrderedMap Nat Nat
  bitmap : RawBitmap
  bitmapLocked : Bool

namespace FileDescriptorManager

def fresh : FileDescriptorManager := ⟨.empty, ⟨none, 0⟩, false⟩

section
variable (manager : FileDescriptorManager) (memory : Memory) (desc : Nat)

def init : Option (Memory × FileDescriptorManager × Bool) :=
  match memory.newArray initialBytes with
  | (failed, none) => some (failed, manager, false)
  | (granted, some buffer) =>
    if manager.bitmapLocked then none
    else some (granted, { manager with bitmap := ⟨some buffer, initialBytes⟩ }, true)

def deleteAll (memory : Memory) : List (Nat × Nat) → Option Memory
  | [] => some memory
  | node :: rest =>
    match memory.descriptors node.2 with
    | none => none
    | some _ => deleteAll (memory.setDescriptor node.2 none) rest

/-- `Delete()`. -/
def delete : Option (Memory × FileDescriptorManager) :=
  if manager.bitmapLocked then none
  else
    match deleteAll (memory.deleteArray manager.bitmap.buffer) manager.currentFDs.nodes with
    | none => none
    | some cleared => some (cleared, fresh)

/-- The end of `Allocate`: the bit is set and the descriptor is stored. -/
def take (index : Nat) (desc : Nat) : Option (Memory × FileDescriptorManager × Except Errno Nat) :=
  match manager.bitmap.set memory index true with
  | none => none
  | some marked =>
    some (marked, { manager with currentFDs := manager.currentFDs.insert index desc }, .ok index)

/-- The part of `Allocate` for a bitmap without a clear bit. -/
def grow : Option (Memory × FileDescriptorManager × Except Errno Nat) :=
  let currentSize := manager.bitmap.size
  match memory.newArray (currentSize + initialBytes) with
  | (failed, none) => some (failed, manager, .error .ENOMEM)
  | (granted, some buffer) =>
    match granted.copyArray buffer manager.bitmap.buffer currentSize with
    | none => none
    | some copied =>
      FileDescriptorManager.take
        { manager with bitmap := ⟨some buffer, currentSize + initialBytes⟩ }
        (copied.deleteArray manager.bitmap.buffer) (currentSize * 8) desc

/-- `Allocate(desc)`. -/
def allocate : Option (Memory × FileDescriptorManager × Except Errno Nat) :=
  if manager.bitmapLocked then none
  else
    match manager.bitmap.firstClear memory (List.range (manager.bitmap.size * 8)) with
    | none => none
    | some (some index) => manager.take memory index desc
    | some none =>
      if manager.bitmap.size * 8 = MAX_FD then some (memory, manager, .error .EMFILE)
      else manager.grow memory desc

end

section
variable (manager : FileDescriptorManager) (memory : Memory) (fd : Nat)

/-- `Free(fd, &desc)`, with the descriptor that is handed out. -/
def free : Option (Memory × FileDescriptorManager × Option Nat) :=
  match manager.currentFDs.find? fd with
  | none => some (memory, manager, none)
  | some desc =>
    if manager.bitmapLocked then none
    else
      match manager.bitmap.set memory fd false with
      | none => none
      | some cleared =>
        some (cleared, { manager with currentFDs := manager.currentFDs.erase fd }, some desc)

/-- `ReserveFD(fd, desc)`. -/
def reserveFD (desc : Nat) : Option (Memory × FileDescriptorManager × Bool) :=
  if manager.bitmapLocked then none
  else
    match manager.bitmap.get memory fd with
    | none => none
    | some true => some (memory, manager, false)
    | some false =>
      match manager.bitmap.set memory fd true with
      | none => none
      | some marked =>
        some (marked, { manager with currentFDs := manager.currentFDs.insert fd desc }, true)

/-- `Get(fd)`. -/
def get : Option Nat := manager.currentFDs.find? fd

end

/-- The loop of `Fork` over the table of the other manager: the table of this
one, and whether every descriptor was copied. -/
def forkAll (newProc : Nat) : List (Nat × Nat) → Memory → OrderedMap Nat Nat →
    Option (Memory × OrderedMap Nat Nat × Bool)
  | [], memory, table => some (memory, table, true)
  | node :: rest, memory, table =>
    match memory.descriptors node.2 with
    | none => none
    | some desc =>
      match memory.newDescriptor (desc.forked newProc) with
      | (failed, none) => some (failed, table, false)
      | (granted, some copy) => forkAll newProc rest granted (table.insert node.1 copy)

/-- `Fork(other, newProc)`: the memory, this manager and the other one. Where the
array is not granted, the lock of the other manager is not released. -/
def fork (manager other : FileDescriptorManager) (memory : Memory) (newProc : Nat) :
    Option (Memory × FileDescriptorManager × FileDescriptorManager × Bool) :=
  if other.bitmapLocked then none
  else
    match memory.newArray other.bitmap.size with
    | (failed, none) => some (failed, manager, { other with bitmapLocked := true }, false)
    | (granted, some buffer) =>
      match granted.copyArray buffer other.bitmap.buffer other.bitmap.size with
      | none => none
      | some copied =>
        if manager.bitmapLocked then none
        else
          match forkAll newProc other.currentFDs.nodes copied manager.currentFDs with
          | none => none
          | some (done, table, true) =>
            some (done, { manager with
              currentFDs := table
              bitmap := ⟨some buffer, other.bitmap.size⟩ }, other, true)
          | some (failed, table, false) =>
            match deleteAll failed table.nodes with
            | none => none
            | some cleared =>
              some (cleared.deleteArray (some buffer), { manager with
                currentFDs := .empty
                bitmap := ⟨none, 0⟩ }, other, false)

end FileDescriptorManager
end FrostyKernel.FileSystem
