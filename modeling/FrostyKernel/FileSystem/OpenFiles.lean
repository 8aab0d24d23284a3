import FrostyKernel.FileSystem.Creation
import FrostyKernel.FileSystem.FDManager

/-!
# The file calls of the processes

The vnodes, the descriptors and the tables of all processes together:
`Process::Create`, `sys_open`, `sys_close`, the descriptor part of `sys_fork` and
`Process::Delete`. Copies from user memory are taken as done.
-/

namespace FrostyKernel.FileSystem

open CString

structure ProcessFiles where
  manager : FileDescriptorManager
  cwd : Option Nat
  cred : Credential

structure Files where
  fs : VFS
  memory : Memory
  processes : Nat → Option ProcessFiles
  nextProcess : Nat

namespace Files

def initial (cred : Credential) (outcomes : List Bool) : Files where
  fs := .mounted cred
  memory :=
    { arrays := fun _ => none
      nextArray := 0
      descriptors := fun _ => none
      nextDescriptor := 0
      outcomes := outcomes }
  processes := fun _ => none
  nextProcess := 0

def setProcess (state : Files) (proc : Nat) (files : Option ProcessFiles) : Files :=
  { state with processes := Function.update state.processes proc files }

def setManager (state : Files) (proc : Nat) (files : ProcessFiles)
    (manager : FileDescriptorManager) : Files :=
  state.setProcess proc (some { files with manager := manager })

/-! ## Process creation -/

/-- `new FileDescriptor(this, FDType::TTY, ...)`, once for each stream. -/
def newStreams (proc : Nat) : Nat → Memory → Memory × List (Option Nat)
  | 0, memory => (memory, [])
  | count + 1, memory =>
    let (granted, id) := memory.newDescriptor (.create proc .TTY none)
    let (final, ids) := newStreams proc count granted
    (final, id :: ids)

def deleteStreams (memory : Memory) (ids : List Nat) : Memory :=
  ids.foldl (fun current id => current.setDescriptor id none) memory

/-- The calls of `ReserveFD`, up to the first that fails. -/
def reserveStreams (manager : FileDescriptorManager) (memory : Memory) :
    List (Nat × Nat) → Option (Memory × FileDescriptorManager × Bool)
  | [] => some (memory, manager, true)
  | (fd, id) :: rest =>
    match manager.reserveFD memory fd id with
    | none => none
    | some (failed, same, false) => some (failed, same, false)
    | some (marked, stored, true) => reserveStreams stored marked rest

/-- The calls of `Open(0)`, up to the first that fails. -/
def openStreams (memory : Memory) : List Nat → Option (Memory × Bool)
  | [] => some (memory, true)
  | id :: rest =>
    match memory.descriptors id with
    | none => none
    | some desc =>
      match desc.opened false with
      | .error _ => some (memory, false)
      | .ok stream => openStreams (memory.setDescriptor id (some stream)) rest

/-- `Delete()` of the manager where the creation of the process failed. -/
def abandon (state : Files) (manager : FileDescriptorManager) (memory : Memory) : Option Files :=
  match manager.delete memory with
  | none => none
  | some (cleared, _) => some { state with memory := cleared }

/-- `Process::Create` for a process without a manager: the streams are the numbers 0 to 3, and the
working directory is the root. -/
def createProcess (state : Files) (cred : Credential) : Option Files :=
  match state.memory.draw with
  | (failed, false) => some { state with memory := failed }
  | (drawn, true) =>
    match FileDescriptorManager.fresh.init drawn with
    | none => none
    | some (failed, _, false) => some { state with memory := failed }
    | some (ready, manager, true) =>
      let (granted, ids) := newStreams state.nextProcess 4 ready
      if none ∈ ids then
        some { state with memory := deleteStreams granted (ids.filterMap id) }
      else
        match reserveStreams manager granted ((List.range 4).zip (ids.filterMap id)) with
        | none => none
        | some (marked, stored, false) => state.abandon stored marked
        | some (marked, stored, true) =>
          match openStreams marked (ids.filterMap id) with
          | none => none
          | some (failed, false) => state.abandon stored failed
          | some (opened, true) =>
            match state.fs.lookupPath [slash] none with
            | none => none
            | some looked =>
              some { ({ state with memory := opened }.setProcess state.nextProcess
                (some ⟨stored, looked.toOption, cred⟩)) with nextProcess := state.nextProcess + 1 }

/-! ## Opening -/

/-- `VFS_Close` on an error path. -/
def giveUp (state : Files) (vnode : Nat) (code : Errno) : Option (Files × Except Errno Nat) :=
  match state.fs.unrefVNode vnode with
  | none => none
  | some released => some ({ state with fs := released }, .error code)

/-- The part of `sys_open` that finds the vnode, or creates a file when `O_CREAT` is among the
flags. -/
def resolve (fs : VFS) (files : ProcessFiles) (path : List UInt8) (create : Bool) :
    Option (VFS × Except Errno Nat) :=
  let realPath := cString (path ++ [0])
  match fs.openPath realPath files.cwd with
  | none => none
  | some (held, .ok vnode) => some (held, .ok vnode)
  | some (same, .error code) =>
    if code = .ENOENT ∧ create then
      if path.getLast? = some slash then some (same, .error .EISDIR)
      else
        let (parent, name) := (strrchr slash realPath).getD ([], realPath)
        match same.createFile parent name files.cwd files.cred with
        | none => none
        | some (failed, .error code) => some (failed, .error code)
        | some (created, .ok ()) => created.openPath realPath files.cwd
    else some (same, .error code)

/-- The part of `sys_open` behind the lookup: the descriptor and its number. -/
def install (state : Files) (proc : Nat) (files : ProcessFiles) (vnode : Nat)
    (directory append : Bool) : Option (Files × Except Errno Nat) :=
  match state.fs.vnodes vnode with
  | none => none
  | some node =>
    if node.attr.type ≠ .REG ∧ node.attr.type ≠ .DIR then state.giveUp vnode .ENOSYS
    else if node.attr.type ≠ .DIR ∧ directory then state.giveUp vnode .ENOTDIR
    else
      let desc := FileDescriptor.create proc
        (if node.attr.type = .REG then .File else .Directory) (some vnode)
      match state.memory.newDescriptor desc with
      | (failed, none) => { state with memory := failed }.giveUp vnode .ENOMEM
      | (granted, some id) =>
        match desc.opened append with
        | .error code =>
          { state with memory := granted.setDescriptor id none }.giveUp vnode code
        | .ok opened =>
          match files.manager.allocate (granted.setDescriptor id (some opened)) id with
          | none => none
          | some (stored, manager, .ok fd) =>
            some ({ state with memory := stored }.setManager proc files manager, .ok fd)
          | some (stored, manager, .error code) =>
            ({ state with memory := stored.setDescriptor id none }.setManager proc files
              manager).giveUp vnode code

/-- `sys_open(path, pathLen, flags, mode)`, with whether `O_CREAT`, `O_DIRECTORY` and `O_APPEND` are
among the flags. -/
def sysOpen (state : Files) (proc : Nat) (path : List UInt8) (create directory append : Bool) :
    Option (Files × Except Errno Nat) :=
  match state.processes proc with
  | none => none
  | some files =>
    match state.memory.draw with
    | (failed, false) => some ({ state with memory := failed }, .error .ENOMEM)
    | (drawn, true) =>
      match resolve state.fs files path create with
      | none => none
      | some (fs, .error code) => some ({ state with fs := fs, memory := drawn }, .error code)
      | some (fs, .ok vnode) =>
        { state with fs := fs, memory := drawn }.install proc files vnode directory append

/-! ## Closing -/

/-- The part of `sys_close` behind `Free`. -/
def closeDescriptor (state : Files) (id : Nat) : Option (Files × Except Errno Unit) :=
  match state.memory.descriptors id with
  | none => none
  | some desc =>
    if desc.isOpen = false then some (state, .error .EBADF)
    else
      let closed := { state with memory := state.memory.setDescriptor id (some desc.closed) }
      if desc.type ≠ .File then some (closed, .ok ())
      else
        match desc.vnode with
        | none => some (closed, .error .EBADF)
        | some vnode =>
          match closed.fs.unrefVNode vnode with
          | none => none
          | some released =>
            some ({ closed with
              fs := released
              memory := closed.memory.setDescriptor id none }, .ok ())

/-- `sys_close(fd)`. -/
def sysClose (state : Files) (proc fd : Nat) : Option (Files × Except Errno Unit) :=
  match state.processes proc with
  | none => none
  | some files =>
    match files.manager.free state.memory fd with
    | none => none
    | some (memory, manager, none) =>
      some ({ state with memory := memory }.setManager proc files manager, .error .EBADF)
    | some (memory, manager, some id) =>
      ({ state with memory := memory }.setManager proc files manager).closeDescriptor id

/-! ## Fork and exit -/

/-- The descriptors of `sys_fork`: a new manager, which `Fork` fills from the caller's. -/
def fork (state : Files) (proc : Nat) : Option (Files × Bool) :=
  match state.processes proc with
  | none => none
  | some files =>
    let (first, process) := state.memory.draw
    let (second, manager) := first.draw
    if (process && manager) = false then some ({ state with memory := second }, false)
    else
      match FileDescriptorManager.fresh.fork files.manager second state.nextProcess with
      | none => none
      | some (memory, _, parent, false) =>
        some ({ state with memory := memory }.setManager proc files parent, false)
      | some (memory, child, parent, true) =>
        some ({ ({ state with memory := memory }.setManager proc files parent).setProcess
          state.nextProcess (some { files with manager := child }) with
            nextProcess := state.nextProcess + 1 }, true)

/-- The descriptors of `Process::Delete`. -/
def exit (state : Files) (proc : Nat) : Option Files :=
  match state.processes proc with
  | none => none
  | some files =>
    match files.manager.delete state.memory with
    | none => none
    | some (memory, _) => some ({ state with memory := memory }.setProcess proc none)

end Files

/-- The calls of a run. -/
inductive FileCall
  | createProcess (cred : Credential)
  | create (call : VFS.CreateCall)
  | sysOpen (proc : Nat) (path : List UInt8) (create directory append : Bool)
  | sysClose (proc fd : Nat)
  | fork (proc : Nat)
  | exit (proc : Nat)

namespace FileCall

def run (state : Files) : FileCall → Option Files
  | createProcess cred => state.createProcess cred
  | create call => (call.run state.fs).map fun result => { state with fs := result.1 }
  | sysOpen proc path creates directory append =>
    (state.sysOpen proc path creates directory append).map Prod.fst
  | sysClose proc fd => (state.sysClose proc fd).map Prod.fst
  | fork proc => (state.fork proc).map Prod.fst
  | exit proc => state.exit proc

end FileCall
end FrostyKernel.FileSystem
