import FrostyKernel.Lib.CString
import FrostyKernel.FileSystem.Types
import FrostyKernel.FileSystem.TempFS

/-!
# Paths and vnodes

`VFS.cpp` over a TempFS root. No code mounts another file system on a vnode, so
the pointers to mounted systems are null everywhere and are left out. Vnodes have
addresses, and a vnode that was deleted has none; a call that follows a pointer to
it has no result.
-/

namespace FrostyKernel.FileSystem

open CString

def slash : UInt8 := 47

def dot : UInt8 := 46

def NAME_MAX : Nat := 255

def ROOT_DIR_MODE : Nat := 0o755

def DEFAULT_DIR_MODE : Nat := 0o755

def DEFAULT_FILE_MODE : Nat := 0o644

structure VNode where
  attr : VAttr
  refCount : Int
  parent : Option Nat
  name : List UInt8
  children : List Nat
  file : TempFS.TempFSVNode

structure VFS where
  vnodes : Nat → Option VNode
  next : Nat
  root : Nat

namespace VFS

def setVNode (fs : VFS) (id : Nat) (node : Option VNode) : VFS :=
  { fs with vnodes := Function.update fs.vnodes id node }

/-- `TempFS::Mount` on an empty system: the root, with a reference of its own. -/
def mounted (cred : Credential) : VFS where
  vnodes := Function.update (fun _ => none) 0 (some
    { attr := ⟨.DIR, ROOT_DIR_MODE, cred.euid, cred.egid, 0, 0, 0⟩
      refCount := 3
      parent := none
      name := []
      children := []
      file := .created [] })
  next := 1
  root := 0

/-! ## Lookup -/

/-- The loop of `TempFSVNode::Lookup` over the children, with what `data.node` is so far.
`RearInsertLinkedList::Enumerate` does not stop at a match, so the last one stays. -/
def findChild (fs : VFS) (name : List UInt8) (nameLen : Nat) :
    Option Nat → List Nat → Option (Option Nat)
  | found, [] => some found
  | found, child :: rest =>
    match fs.vnodes child with
    | none => none
    | some node =>
      fs.findChild name nameLen
        (if node.name.length = nameLen ∧ node.name = name.take nameLen then some child else found)
        rest

/-- `TempFSVNode::Lookup(name, nameLen, ...)`. -/
def lookup (fs : VFS) (node : VNode) (name : List UInt8) (nameLen : Nat) :
    Option (Except Errno Nat) :=
  if nameLen = 0 then some (.error .EINVAL)
  else
    match fs.findChild name nameLen none node.children with
    | none => none
    | some none => some (.error .ENOENT)
    | some (some child) => some (.ok child)

/-- `if (currentPath[0] == '/') currentPath++`. -/
def skipSlash : List UInt8 → List UInt8
  | [] => []
  | byte :: rest => if byte = slash then rest else byte :: rest

/-- The variables of the loop of `VFS_LookupPath`. The pointer `next` may stand
before `currentPath`. -/
structure PathCursor where
  vnode : Nat
  currentPath : List UInt8
  next : Option (List UInt8)

/-- `(size_t)(next - currentPath)`, for a string that fits in memory. -/
def distance (currentPath next : List UInt8) : Nat :=
  if next.length ≤ currentPath.length then currentPath.length - next.length
  else 2 ^ 64 - (next.length - currentPath.length)

section
variable (fs : VFS) (vnode : Nat) (node : VNode) (path : List UInt8)

def PathCursor.advance (next : List UInt8) : PathCursor :=
  ⟨vnode, skipSlash next, strchr slash (skipSlash next)⟩

def lookupLast : Option (Except Errno Nat) :=
  if path.getLast? = some slash then some (.ok vnode)
  else if node.attr.type ≠ .DIR then some (.error .ENOTDIR)
  else fs.lookup node path path.length

/-- A segment of `len` bytes that is followed by a separator. -/
def lookupSegment (len : Nat) : Option (Except Errno Nat) :=
  if len = 2 ∧ path.take 2 = [dot, dot] then
    if node.attr.type ≠ .DIR then some (.error .ENOTDIR)
    else
      match node.parent with
      | none => some (.error .ENOENT)
      | some parent => some (.ok parent)
  else if len = 1 ∧ path.head? = some dot then some (.ok vnode)
  else if node.attr.type ≠ .DIR then some (.error .ENOTDIR)
  else fs.lookup node path len

end

/-- One iteration of the loop of `VFS_LookupPath`. -/
def lookupRound (fs : VFS) (cursor : PathCursor) : PathCursor ⊕ Option (Except Errno Nat) :=
  match fs.vnodes cursor.vnode with
  | none => .inr none
  | some node =>
    let path := skipSlash cursor.currentPath
    if path = [] then .inr (some (.ok cursor.vnode))
    else
      match cursor.next with
      | none => .inr (fs.lookupLast cursor.vnode node path)
      | some next =>
        match fs.lookupSegment cursor.vnode node path (distance path next) with
        | none => .inr none
        | some (.error code) => .inr (some (.error code))
        | some (.ok vnode) => .inl (PathCursor.advance vnode next)

def walk (fs : VFS) (vnode : Nat) (path : List UInt8) : Option (Except Errno Nat) :=
  (loop fs.lookupRound (path.length + 1) ⟨vnode, path, strchr slash path⟩).join

/-- `VFS_LookupPath(path, ..., cwd, ...)`. -/
def lookupPath (fs : VFS) (path : List UInt8) (cwd : Option Nat) : Option (Except Errno Nat) :=
  match path with
  | [] => some (.ok fs.root)
  | first :: rest =>
    if first = slash then
      if rest = [] then some (.ok fs.root) else fs.walk fs.root rest
    else
      match cwd with
      | none => some (.error .EINVAL)
      | some vnode => fs.walk vnode path

/-! ## Creation -/

/-- The vnode that `TempFSVNode::Create` sets up. -/
def newVNode (attr : VAttr) (parent : Nat) (name : List UInt8) : VNode where
  attr := attr
  refCount := 2
  parent := some parent
  name := name
  children := []
  file := .created []

/-- `TempFSVNode::Create` below a parent. -/
def create (fs : VFS) (parent : Nat) (name : List UInt8) (attr : VAttr) :
    Option (VFS × Except Errno Unit) :=
  if name = [] then some (fs, .error .EINVAL)
  else
    match fs.vnodes parent with
    | none => none
    | some node =>
      some ({ (fs.setVNode fs.next (some (newVNode attr parent name))).setVNode parent
        (some { node with
          children := node.children ++ [fs.next]
          refCount := node.refCount + 1 }) with next := fs.next + 1 }, .ok ())

section
variable (fs : VFS) (path name : List UInt8)

section
variable (cwd : Option Nat) (cred : Credential)

/-- What `VFS_CreateDir` and `VFS_CreateFile` have in common. -/
def createNode (attr : VAttr) : Option (VFS × Except Errno Unit) :=
  match fs.lookupPath path cwd with
  | none => none
  | some (.error code) => some (fs, .error code)
  | some (.ok parent) =>
    if NAME_MAX < name.length then some (fs, .error .ENAMETOOLONG)
    else fs.create parent name attr

/-- `VFS_CreateDir(path, name, cwd, cred)`. -/
def createDir : Option (VFS × Except Errno Unit) :=
  fs.createNode path name cwd ⟨.DIR, DEFAULT_DIR_MODE, cred.euid, cred.egid, 0, 0, 0⟩

/-- `VFS_CreateFile(path, name, cwd, cred)`. -/
def createFile : Option (VFS × Except Errno Unit) :=
  fs.createNode path name cwd ⟨.REG, DEFAULT_FILE_MODE, cred.euid, cred.egid, 0, 0, 0⟩

end
end

/-! ## References -/

section
variable (fs : VFS) (id : Nat)

/-- `RefVNode`. -/
def refVNode : Option VFS :=
  match fs.vnodes id with
  | none => none
  | some node => some (fs.setVNode id (some { node with refCount := node.refCount + 1 }))

/-- `UnrefVNode`, which deletes the vnode when the count reaches zero. -/
def unrefVNode : Option VFS :=
  match fs.vnodes id with
  | none => none
  | some node =>
    some (fs.setVNode id
      (if node.refCount - 1 = 0 then none else some { node with refCount := node.refCount - 1 }))

/-- `VFS_Open(path, ..., cwd, ...)`. -/
def openPath (path : List UInt8) (cwd : Option Nat) : Option (VFS × Except Errno Nat) :=
  match fs.lookupPath path cwd with
  | none => none
  | some (.error code) => some (fs, .error code)
  | some (.ok vnode) =>
    match fs.refVNode vnode with
    | none => none
    | some held => some (held, .ok vnode)

/-! ## Building a path -/

/-- The variables of the loop of `VFS_BuildPath`; `ptr` is an index into the buffer. -/
structure BuildCursor where
  buf : List UInt8
  ptr : Nat
  current : Nat

def finishPath (buf : List UInt8) (ptr : Nat) : Option (List UInt8 × Except Errno Unit) :=
  match put buf 0 ((buf.drop ptr).take (buf.length - 1 - ptr + 1)) with
  | none => none
  | some shifted => some (shifted, .ok ())

/-- One iteration of the loop of `VFS_BuildPath`. -/
def buildRound (cursor : BuildCursor) : BuildCursor ⊕ Option (List UInt8 × Except Errno Unit) :=
  if cursor.current = fs.root then .inr (finishPath cursor.buf cursor.ptr)
  else
    match fs.vnodes cursor.current with
    | none => .inr none
    | some node =>
      let nameLen := node.name.length
      if NAME_MAX + 1 ≤ nameLen then .inr (some (cursor.buf, .error .ERANGE))
      else if cursor.ptr < nameLen + 1 then .inr (some (cursor.buf, .error .ERANGE))
      else
        match put cursor.buf (cursor.ptr - nameLen) node.name with
        | none => .inr none
        | some named =>
          match put named (cursor.ptr - nameLen - 1) [slash] with
          | none => .inr none
          | some separated =>
            match node.parent with
            | none => .inr (some (separated, .error .ENOENT))
            | some parent => .inl ⟨separated, cursor.ptr - nameLen - 1, parent⟩

/-- `VFS_BuildPath(vnode, buf, size, ...)`: the buffer afterwards and the result. The
pointer moves down in every iteration. -/
def buildPath (vnode : Nat) (buf : List UInt8) : Option (List UInt8 × Except Errno Unit) :=
  let size := buf.length
  if size = 0 then some (buf, .error .EINVAL)
  else if vnode = fs.root then
    if size < 2 then some (buf, .error .ERANGE)
    else
      match put buf 0 [slash, 0] with
      | none => none
      | some written => some (written, .ok ())
  else
    match put buf (size - 1) [0] with
    | none => none
    | some ended => (loop fs.buildRound size ⟨ended, size - 1, vnode⟩).join

end
end VFS
end FrostyKernel.FileSystem
