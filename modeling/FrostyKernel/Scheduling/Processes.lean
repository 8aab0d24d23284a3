import FrostyKernel.Lib.Run
import FrostyKernel.Lib.Word

/-!
# Processes and their identifiers

The list of processes of the scheduler, with process creation, `sys_fork`,
`sys_exec`, `sys_exit` and the handler of dead threads. Process objects have
addresses, and a deleted object has none; a call that follows a pointer to it has
no result. What a call depends on outside this state (whether memory or a program
could be had) is an argument of the call.
-/

namespace FrostyKernel.Scheduling

open Word

def UINT64_MAX : Nat := 2 ^ 64 - 1

def ENOMEM : Int := 12

def ENOSYS : Int := 38

structure Process where
  pid : Nat
  ppid : Nat

/-- `SimpleLinkedList` of process addresses. The count is stored. -/
structure ProcessList where
  nodes : List Nat
  count : Nat

namespace ProcessList

def insert (list : ProcessList) (id : Nat) : ProcessList := ⟨list.nodes ++ [id], list.count + 1⟩

def remove (list : ProcessList) (id : Nat) : ProcessList :=
  ⟨list.nodes.erase id, if list.count = 0 then UINT64_MAX else list.count - 1⟩

end ProcessList

/-- `running` are the processes whose main thread is scheduled, and `dead` the
processes of the threads on the list of dead threads, with the flag `removeProc`. -/
structure Processes where
  objects : Nat → Option Process
  next : Nat
  list : ProcessList
  lastPID : Nat
  running : List Nat
  dead : List (Nat × Bool)

/-- What can happen to a `sys_fork`: it fails before the new process has an identifier,
its thread cannot be added to a run queue, or neither. -/
inductive ForkOutcome where
  | fails (rc : Int)
  | notAdded
  | succeeds
deriving DecidableEq

namespace Processes

def initial : Processes := ⟨fun _ => none, 0, ⟨[], 0⟩, 0, [], []⟩

def setProcess (state : Processes) (id : Nat) (process : Option Process) : Processes :=
  { state with objects := Function.update state.objects id process }

def pidOf (state : Processes) (id : Nat) : Option Nat := (state.objects id).map Process.pid

/-- `new Process(...)`. -/
def newProcess (state : Processes) : Processes :=
  { state.setProcess state.next (some ⟨UINT64_MAX, UINT64_MAX⟩) with next := state.next + 1 }

/-- `Scheduler::AddProcess(process)`. -/
def addProcess (state : Processes) (id : Nat) : Option Processes :=
  match state.objects id with
  | none => none
  | some process =>
    some { state.setProcess id (some { process with pid := state.lastPID }) with
      lastPID := add64 state.lastPID 1
      list := state.list.insert id }

/-- The walk of `Enumerate` up to the first process with the identifier. -/
def enumerate (state : Processes) (pid : Nat) : Nat → List Nat → Option (Option Nat)
  | 0, _ => some none
  | _ + 1, [] => none
  | count + 1, id :: rest =>
    match state.objects id with
    | none => none
    | some process =>
      if process.pid = pid then some (some id) else state.enumerate pid count rest

/-- `Scheduler::GetProcess(pid)`. -/
def getProcess (state : Processes) (pid : Nat) : Option (Option Nat) :=
  state.enumerate pid state.list.count state.list.nodes

/-- `Scheduler::RemoveProcess(pid)`. -/
def removeProcess (state : Processes) (pid : Nat) : Option Processes :=
  match state.getProcess pid with
  | none => none
  | some none => some state
  | some (some id) => some { state with list := state.list.remove id }

section
variable (state : Processes) (id pid : Nat) (parent : Option Nat) (ppid : Nat)

/-- `Process::Start`: the process gets its identifier and its thread is scheduled. -/
def start : Option Processes :=
  match state.addProcess id with
  | none => none
  | some added => some { added with running := added.running ++ [id] }

/-- `proc->SetPPID(...)`. -/
def setPPID : Option Processes :=
  match state.objects id with
  | none => none
  | some process => some (state.setProcess id (some { process with ppid := ppid }))

/-- `proc->SetPID(...)`. -/
def setPID : Option Processes :=
  match state.objects id with
  | none => none
  | some process => some (state.setProcess id (some { process with pid := pid }))

/-- `if (parent != nullptr) proc->SetPPID(parent->GetPID())`. -/
def adopt : Option Processes :=
  match parent with
  | none => some state
  | some parent =>
    match state.objects parent with
    | none => none
    | some process => state.setPPID id process.pid

end

section
variable (state : Processes) (caller : Nat)

/-- `CreateELFProcess` on a program that loads with the result `rc`: the new process, or
the code with which it fails after the process is deleted again. -/
def createELFProcess (parent : Option Nat) (rc : Int) (noStart : Bool) :
    Option (Processes × Except Int Nat) :=
  let id := state.next
  match state.newProcess.adopt id parent with
  | none => none
  | some made =>
    if rc < 0 then some (made.setProcess id none, .error rc)
    else if noStart then some (made, .ok id)
    else
      match made.start id with
      | none => none
      | some started => some (started, .ok id)

/-- `sys_fork`: the new process, or the code with which it fails. -/
def sysFork (outcome : ForkOutcome) : Option (Processes × Except Int Nat) :=
  match state.objects caller with
  | none => none
  | some process =>
    let id := state.next
    match state.newProcess.setPPID id process.pid with
    | none => none
    | some made =>
      match outcome with
      | .fails rc => some (made.setProcess id none, .error rc)
      | .notAdded =>
        match made.addProcess id with
        | none => none
        | some added =>
          match added.removeProcess state.lastPID with
          | none => none
          | some removed => some (removed.setProcess id none, .error (-ENOMEM))
      | .succeeds =>
        match made.start id with
        | none => none
        | some started => some (started, .ok id)

/-- The parent of the process after `sys_exec`: its address and the identifier that is
stored, which is taken as a signed number. -/
def execParent (ppid : Nat) : Option (Except Int (Option Nat × Nat)) :=
  if 2 ^ 63 ≤ ppid then some (.ok (none, ppid))
  else
    match state.getProcess ppid with
    | none => none
    | some (some parent) => some (.ok (some parent, ppid))
    | some none =>
      match state.getProcess 1 with
      | none => none
      | some (some parent) => some (.ok (some parent, 1))
      | some none => some (.error (-ENOSYS))

/-- The end of `sys_exec`: the new process takes the place of the caller, whose thread
dies. -/
def replace (id : Nat) (pid ppid : Nat) : Option Processes :=
  match state.setPID id pid with
  | none => none
  | some named =>
    match named.setPPID id ppid with
    | none => none
    | some placed =>
      match placed.removeProcess pid with
      | none => none
      | some removed =>
        match removed.start id with
        | none => none
        | some started =>
          some { started with
            running := started.running.erase caller
            dead := started.dead ++ [(caller, false)] }

/-- `sys_exec`, where the arguments are copied with the result `copied` and the program
loads with the result `rc`: the process that goes on, or the code that is returned. -/
def sysExec (copied rc : Int) : Option (Processes × Except Int Nat) :=
  match state.objects caller with
  | none => none
  | some process =>
    match state.execParent process.ppid with
    | none => none
    | some (.error code) => some (state, .error code)
    | some (.ok (parent, ppid)) =>
      if copied < 0 then some (state, .error copied)
      else
        match state.createELFProcess parent rc true with
        | none => none
        | some (failed, .error code) => some (failed, .error code)
        | some (created, .ok id) =>
          match created.replace caller id process.pid ppid with
          | none => none
          | some replaced => some (replaced, .ok id)

/-- `sys_exit`: the thread goes to the dead threads, the process stays in the list. -/
def sysExit : Processes :=
  { state with
    running := state.running.erase caller
    dead := state.dead ++ [(caller, true)] }

/-- `HandleDeadThreads` with the next thread, if there is one. -/
def handleDeadThread : Processes :=
  match state.dead with
  | [] => state
  | (id, removeProc) :: rest =>
    let list := if removeProc then state.list.remove id else state.list
    { state.setProcess id none with list := list, dead := rest }

end
end Processes

inductive ProcessCall where
  | create (parent : Option Nat) (rc : Int)
  | fork (caller : Nat) (outcome : ForkOutcome)
  | exec (caller : Nat) (copied rc : Int)
  | exit (caller : Nat)
  | reap
deriving DecidableEq

namespace ProcessCall

/-- The state after a call and what it returns. A process that makes a call is running,
and the parent of a created process is in the list. -/
def run (state : Processes) : ProcessCall → Option (Processes × Except Int Nat)
  | .create parent rc =>
    if ∀ id ∈ parent, id ∈ state.list.nodes then state.createELFProcess parent rc false
    else none
  | .fork caller outcome => if caller ∈ state.running then state.sysFork caller outcome else none
  | .exec caller copied rc =>
    if caller ∈ state.running then state.sysExec caller copied rc else none
  | .exit caller =>
    if caller ∈ state.running then some (state.sysExit caller, .ok caller) else none
  | .reap => some (state.handleDeadThread, .ok 0)

end ProcessCall
end FrostyKernel.Scheduling
