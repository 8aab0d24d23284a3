import FrostyKernel.Lib.Word
import FrostyKernel.Lib.OrderedMap
import FrostyKernel.Lib.Bitmap

/-!
# Data types of the file system

The records of `VFS.hpp` and `FileDescriptor.hpp` that the file system calls
read and write. A call that fails returns the negated code, so a result is
either an error code or a value.
-/

namespace FrostyKernel.FileSystem

/-- The codes of `errno.h` that the calls return. -/
inductive Errno
  | ENOENT
  | EBADF
  | ENOMEM
  | ENOTDIR
  | EISDIR
  | EINVAL
  | EMFILE
  | ERANGE
  | ENAMETOOLONG
  | ENOSYS
deriving DecidableEq, Repr

inductive VType
  | NON
  | REG
  | DIR
  | BLK
  | CHR
  | LNK
  | SOCK
  | FIFO
  | BAD
deriving DecidableEq, Repr

/-- The attributes of a vnode. The size and the number of bytes in blocks stand with
the contents of the file. -/
structure VAttr where
  type : VType
  mode : Nat
  uid : Nat
  gid : Nat
  atime : Nat
  mtime : Nat
  ctime : Nat
deriving DecidableEq, Repr

/-- The effective user and group of a process. -/
structure Credential where
  euid : Nat
  egid : Nat
deriving DecidableEq, Repr

inductive FDType
  | File
  | TTY
  | Directory
  | Invalid
deriving DecidableEq, Repr

/-- The process and the vnode are named by the order of their creation. -/
structure FileDescriptor where
  proc : Nat
  type : FDType
  offset : Nat
  isOpen : Bool
  append : Bool
  vnode : Option Nat
deriving DecidableEq, Repr

namespace FileDescriptor

def create (proc : Nat) (type : FDType) (vnode : Option Nat) : FileDescriptor :=
  ⟨proc, type, 0, false, false, vnode⟩

/-- `Open(flags)`, with whether `O_APPEND` is among the flags. -/
def opened (desc : FileDescriptor) (append : Bool) : Except Errno FileDescriptor :=
  match desc.type with
  | .File =>
    if desc.vnode = none then .error .EBADF
    else .ok { desc with isOpen := true, offset := 0, append := desc.append || append }
  | .TTY => if append then .error .EBADF else .ok { desc with isOpen := true, offset := 0 }
  | .Directory =>
    if desc.vnode = none then .error .EBADF else .ok { desc with isOpen := true, offset := 0 }
  | .Invalid => .error .EBADF

def closed (desc : FileDescriptor) : FileDescriptor :=
  { desc with offset := 0, append := false, isOpen := false }

/-- `Fork(other, newProc)`: the fields of the other descriptor, for a new process. -/
def forked (other : FileDescriptor) (newProc : Nat) : FileDescriptor :=
  { other with proc := newProc }

end FileDescriptor
end FrostyKernel.FileSystem
