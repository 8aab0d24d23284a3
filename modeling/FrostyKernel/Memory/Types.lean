import FrostyKernel.Lib.Word
import FrostyKernel.Lib.OrderedMap

/-!
# Data types of the virtual memory manager

The records of `VMM.hpp`. A protection is its three bits, so every value the
casts between `Protection` and `uint8_t` can produce is present. Pointers to
`Anon` and `MemoryObject` are identifiers into a store, since several address
spaces share them. An `AnonMap` is held by exactly one map entry and a `Page`
by exactly one object, so both are stored where they are held.
-/

namespace FrostyKernel.Memory

def pageSize : Nat := 4096

structure Protection where
  read : Bool
  write : Bool
  execute : Bool
deriving DecidableEq, Repr

namespace Protection

def READ : Protection := ⟨true, false, false⟩
def WRITE : Protection := ⟨false, true, false⟩
def EXECUTE : Protection := ⟨false, false, true⟩
def READ_WRITE : Protection := ⟨true, true, false⟩
def READ_EXECUTE : Protection := ⟨true, false, true⟩
def READ_WRITE_EXECUTE : Protection := ⟨true, true, true⟩

/-- The mask `prot & ~WRITE`. -/
def withoutWrite (prot : Protection) : Protection := { prot with write := false }

end Protection

inductive CacheType where
  | uncachable
  | writeBack
  | writeThrough
  | writeProtected
  | writeCombining
deriving DecidableEq, Repr

structure PageFaultCode where
  present : Bool
  write : Bool
  user : Bool
  execute : Bool
deriving DecidableEq, Repr

abbrev AnonId := Nat
abbrev ObjectId := Nat

structure Page where
  physAddr : Nat
  protection : Protection
  isWired : Bool
deriving DecidableEq, Repr

structure Anon where
  refCount : Nat
  physAddr : Nat
deriving DecidableEq, Repr

structure AnonMap where
  refCount : Nat
  slotCount : Nat
  slots : List (Option AnonId)
deriving DecidableEq, Repr

/-- The two pagers of the source. `DefaultPager` has no pages of its own; the
pager of the RAM file system creates the pages of a file, whose vnode is the
pager data and gives the protection of a new page. -/
inductive Pager where
  | defaultPager
  | tempFS (vnode : Option Protection)
deriving DecidableEq, Repr

structure MemoryObject where
  size : Nat
  refCount : Nat
  pages : OrderedMap Nat Page
  pager : Pager

structure EntryFlags where
  protection : Protection
  cacheType : CacheType
  user : Bool
  needsCopy : Bool
  isPrivate : Bool
  zero : Bool
deriving DecidableEq, Repr

structure MapEntry where
  startVirt : Nat
  endVirt : Nat
  offset : Nat
  anonMap : Option AnonMap
  memoryObject : Option ObjectId
  flags : EntryFlags
deriving DecidableEq, Repr

namespace MapEntry

/-- `(entry->endVirt - entry->startVirt) >> PAGE_SIZE_SHIFT`. -/
def pageCount (entry : MapEntry) : Nat := (entry.endVirt - entry.startVirt) / pageSize

def Covers (entry : MapEntry) (address : Nat) : Prop :=
  entry.startVirt ≤ address ∧ address < entry.endVirt

instance (entry : MapEntry) (address : Nat) : Decidable (entry.Covers address) := by
  unfold Covers
  infer_instance

end MapEntry

structure AllocFlags where
  protection : Protection
  cacheType : CacheType
  user : Bool
  isPrivate : Bool
  zero : Bool
  allocPhys : Bool
  addrIsHint : Bool
  replace : Bool
deriving DecidableEq, Repr

end FrostyKernel.Memory
