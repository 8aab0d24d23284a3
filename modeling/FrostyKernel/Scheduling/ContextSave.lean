import FrostyKernel.Scheduling.SchedulerRuns

/-!
# Saving the context of a blocking thread

The operations of the scheduler cut into the steps that other processors can see:
the critical sections, the saving of the registers, the operations on the run
queues, `PickNext` and `RunThread`. A thread that waits is on its wait queue before
its registers are saved.
-/

namespace FrostyKernel.Scheduling

/-- What a processor does. `leaving thread saved` is `Scheduler_SaveAndYield` of the thread,
before and after its registers have been saved; `sleepers`, `interrupted` and `switching` are
the parts of `TimerTick`; after `picked` comes `RunThread`. -/
inductive Phase (Thread : Type)
  | booting
  | executing
  | leaving (thread : Thread) (saved : Bool)
  | exiting
  | sleepers (ms : Nat) (next : Option Thread) (count : Nat)
  | interrupted (ms : Nat)
  | switching
  | picked

/-- `saved` tells whether the stored registers of the thread are those it has to go on with. -/
structure Machine (n : Nat) (Thread : Type) where
  scheduler : Scheduler n Thread
  phase : Fin n → Phase Thread
  saved : Thread → Bool

variable {n : Nat} {Thread : Type} [DecidableEq Thread]

section Steps

section
variable (machine : Machine n Thread) (p : Fin n) (thread : Thread) (ms id : Nat)

namespace Machine

def enter (phase : Phase Thread) (scheduler : Scheduler n Thread) : Machine n Thread :=
  { machine with scheduler, phase := Function.update machine.phase p phase }

def leave (scheduler : Scheduler n Thread) : Machine n Thread :=
  { machine.enter p (.leaving thread false) scheduler with
    saved := Function.update machine.saved thread false }

def block (key : ListKey n) : Option (Machine n Thread) :=
  (((machine.scheduler.removeCurrentThread p).1.setSleep thread 0).push key thread).map
    (machine.leave p thread)

def semaphoreWait : Option (Machine n Thread) :=
  if 0 < (machine.scheduler.semaphores id).1 then
    some { machine with
      scheduler := machine.scheduler.setSemaphore id ((machine.scheduler.semaphores id).1 - 1) }
  else machine.block p thread (.semaphore id)

def futexWait : Option (Machine n Thread) :=
  { machine with scheduler := machine.scheduler.setFutex thread (some id) }.block p thread (.futex id)

def sleep : Machine n Thread :=
  if ms = 0 then machine
  else machine.leave p thread ((machine.scheduler.removeCurrentThread p).1.setSleep thread ms)

def exit : Option (Machine n Thread) :=
  ((machine.scheduler.removeCurrentThread p).1.push .dead thread).map (machine.enter p .exiting)

end Machine
end

section
variable (machine : Machine n Thread) (p : Fin n) (thread : Thread)

def Machine.handleDeadThreads : Option (Machine n Thread) :=
  match (machine.scheduler.pop .dead).2 with
  | none => machine.semaphoreWait p thread deadThreadsSemaphore
  | some dead =>
    let reaped := (machine.scheduler.pop .dead).1.setScheduled dead false
    match reaped.blockedFutex dead with
    | none => some { machine with scheduler := reaped }
    | some id => (reaped.futexRemove p id dead).map fun scheduler => { machine with scheduler }

/-- `PickNext` and the time slice. -/
def Machine.select : Option (Machine n Thread) :=
  ((machine.scheduler.pickNext p).bind fun picked => picked.resume p).map (machine.enter p .picked)

def Machine.yield : Option (Machine n Thread) :=
  if 0 < machine.scheduler.sleepRemainingTime thread then
    (machine.scheduler.push (.sleeping p) thread).bind fun asleep =>
      (machine.enter p .switching asleep).select p
  else (machine.enter p .switching machine.scheduler).select p

end

section
variable (machine : Machine n Thread) (p : Fin n) (ms : Nat)

def Machine.wakeSleeper : Option Thread → Nat → Option (Machine n Thread)
  | some thread, count + 1 =>
    (Scheduler.wakeSleepers p ms 1 (some thread) machine.scheduler).map
      (machine.enter p (.sleepers ms (machine.scheduler.links thread).next count))
  | _, _ => some (machine.enter p (.interrupted ms) machine.scheduler)

def Machine.interrupt : Option (Machine n Thread) :=
  match machine.scheduler.current p with
  | none => some (machine.enter p .switching machine.scheduler)
  | some thread =>
    let timed := machine.scheduler.setTimeRemaining thread
      (machine.scheduler.timeRemaining thread - ms)
    if 0 < timed.timeRemaining thread ∧ (timed.processors p).isIdle = false then
      some (machine.enter p .executing timed)
    else
      (timed.requeue p thread).map fun queued =>
        { machine.enter p .switching queued with
          saved := Function.update machine.saved thread true }

def Machine.runThread : Option (Machine n Thread) :=
  (machine.scheduler.current p).map fun thread =>
    { machine.enter p .executing machine.scheduler with
      saved := Function.update machine.saved thread false }

end

inductive Event (n : Nat) (Thread : Type)
  | schedule (p : Fin n) (thread : Thread) (target : Option (Fin n))
  | start (p : Fin n) (bootstrap : Bool)
  | wait (p : Fin n) (id : Nat)
  | futexWait (p : Fin n) (id : Nat)
  | sleep (p : Fin n) (ms : Nat)
  | exit (p : Fin n)
  | signalDead (p : Fin n)
  | handleDead (p : Fin n)
  | signal (p : Fin n) (id : Nat)
  | wake (p : Fin n) (id : Nat)
  | remove (p : Fin n) (id : Nat) (thread : Thread)
  | save (p : Fin n)
  | yield (p : Fin n)
  | tick (p : Fin n) (ms : Nat)
  | wakeSleeper (p : Fin n)
  | interrupt (p : Fin n)
  | select (p : Fin n)
  | runThread (p : Fin n)

def Phase.calls : Phase Thread → Bool
  | .booting | .executing => true
  | _ => false

section
variable (machine : Machine n Thread)

def Machine.caller (p : Fin n) : Option Thread :=
  match machine.phase p with
  | .executing => machine.scheduler.current p
  | _ => none

def Machine.update (scheduler : Option (Scheduler n Thread)) : Option (Machine n Thread) :=
  scheduler.map fun scheduler => { machine with scheduler }

/-- No result when the processor does something else, or when an assertion fails. `wake` is
one round of the loop of `Wake`. -/
def Event.run : Event n Thread → Option (Machine n Thread)
  | .schedule p thread target =>
    if (machine.phase p).calls then
      (machine.scheduler.scheduleThread p thread target).map fun scheduler =>
        { machine with scheduler, saved := Function.update machine.saved thread true }
    else none
  | .start p bootstrap =>
    match machine.phase p with
    | .booting => (machine.scheduler.start p bootstrap).map (machine.enter p .picked)
    | _ => none
  | .wait p id => (machine.caller p).bind fun thread => machine.semaphoreWait p thread id
  | .futexWait p id => (machine.caller p).bind fun thread => machine.futexWait p thread id
  | .sleep p ms => (machine.caller p).map fun thread => machine.sleep p thread ms
  | .exit p => (machine.caller p).bind fun thread => machine.exit p thread
  | .handleDead p => (machine.caller p).bind fun thread => machine.handleDeadThreads p thread
  | .signalDead p =>
    match machine.phase p with
    | .exiting =>
      (machine.scheduler.semaphoreSignal p deadThreadsSemaphore).map (machine.enter p .switching)
    | _ => none
  | .signal p id =>
    (machine.caller p).bind fun _ => machine.update (machine.scheduler.semaphoreSignal p id)
  | .wake p id =>
    (machine.caller p).bind fun _ => machine.update (Scheduler.futexWake p id 1 machine.scheduler)
  | .remove p id thread =>
    (machine.caller p).bind fun _ => machine.update (machine.scheduler.futexRemove p id thread)
  | .save p =>
    match machine.phase p with
    | .leaving thread false =>
      some { machine.enter p (.leaving thread true) machine.scheduler with
        saved := Function.update machine.saved thread true }
    | _ => none
  | .yield p =>
    match machine.phase p with
    | .leaving thread true => machine.yield p thread
    | _ => none
  | .tick p ms =>
    (machine.caller p).map fun _ =>
      if (machine.scheduler.processors p).startAllowed = false then machine
      else
        machine.enter p (.sleepers ms (machine.scheduler.lists (.sleeping p)).head
          (machine.scheduler.lists (.sleeping p)).count) machine.scheduler
  | .wakeSleeper p =>
    match machine.phase p with
    | .sleepers ms next count => machine.wakeSleeper p ms next count
    | _ => none
  | .interrupt p =>
    match machine.phase p with
    | .interrupted ms => machine.interrupt p ms
    | _ => none
  | .select p =>
    match machine.phase p with
    | .switching => machine.select p
    | _ => none
  | .runThread p =>
    match machine.phase p with
    | .picked => machine.runThread p
    | _ => none

/-- A thread is scheduled once, and only a thread that is not an idle thread gives up its
processor. -/
def Event.Legal : Event n Thread → Prop
  | .schedule _ thread _ =>
    machine.scheduler.scheduled thread = false ∧ ∀ p, machine.scheduler.idle p ≠ thread
  | .wait p _ | .futexWait p _ | .sleep p _ | .exit p | .handleDead p =>
    machine.scheduler.Runs p
  | _ => True

end

def Event.Steps (before : Machine n Thread) (event : Event n Thread) (after : Machine n Thread) :
    Prop :=
  event.Legal before ∧ event.run before = some after

end Steps

section Properties

section
variable (machine : Machine n Thread)

def Machine.Executes (p : Fin n) (thread : Thread) : Prop :=
  (machine.phase p ≠ .picked ∧ machine.scheduler.current p = some thread) ∨
    machine.phase p = .leaving thread false

/-- A selected thread has been saved by the processor it left, it is resumed with the saved
registers, and no two processors execute one thread. -/
structure Machine.Safe : Prop where
  selected : ∀ p q thread, machine.scheduler.current p = some thread →
    machine.phase q ≠ .leaving thread false
  restored : ∀ p thread, machine.phase p = .picked → machine.scheduler.current p = some thread →
    thread ≠ machine.scheduler.idle p → machine.saved thread = true
  single : ∀ p q thread, (∀ r, machine.scheduler.idle r ≠ thread) → machine.Executes p thread →
    machine.Executes q thread → p = q

/-- No processor is between the critical section in which the thread blocked and the
selection of its next thread. -/
def Machine.Free (thread : Thread) : Prop := ∀ p saved, machine.phase p ≠ .leaving thread saved

def Event.Patient : Event n Thread → Prop
  | .signal _ id =>
    ∀ thread, (machine.scheduler.lists (.semaphore id)).head = some thread → machine.Free thread
  | .signalDead _ =>
    ∀ thread, (machine.scheduler.lists (.semaphore deadThreadsSemaphore)).head = some thread →
      machine.Free thread
  | .wake _ id =>
    ∀ thread, (machine.scheduler.lists (.futex id)).head = some thread → machine.Free thread
  | .remove _ id thread => machine.scheduler.blockedFutex thread = some id → machine.Free thread
  | _ => True

end

def Event.PatientSteps (before : Machine n Thread) (event : Event n Thread)
    (after : Machine n Thread) : Prop :=
  Event.Steps before event after ∧ event.Patient before

end Properties
end FrostyKernel.Scheduling
