import FrostyKernel.Lib.LinkedQueue

/-!
# The scheduler

The processors with their run queues and sleeping lists, the wait queues of the
semaphores and futexes, and the list of dead threads. All lists link the threads
through the same two fields of the thread. An operation has no result when an
assertion fails or the kernel panics.
-/

namespace FrostyKernel.Scheduling

open Function

def niceLevels : Nat := 16

def maxRunCount : Nat := 2

def defaultTimeslice : Nat := 10

def deadThreadsSemaphore : Nat := 0

inductive ListKey (n : Nat)
  | run (processor : Fin n) (nice : Nat)
  | sleeping (processor : Fin n)
  | semaphore (id : Nat)
  | futex (id : Nat)
  | dead
deriving DecidableEq

structure ProcessorState (Thread : Type) where
  currentThread : Option Thread
  idleThread : Thread
  runCounts : Nat → Nat
  isIdle : Bool
  startAllowed : Bool

/-- `nice` is the nice level of the thread's process, `none` without a process.
The last two fields are not stored by the kernel: whether the thread has been
scheduled and not reaped, and whether a processor has ever selected its idle
thread although a run queue had a thread. -/
structure Scheduler (n : Nat) (Thread : Type) where
  links : Thread → Links Thread
  lists : ListKey n → Queue Thread
  processors : Fin n → ProcessorState Thread
  semaphores : Nat → Nat × Nat
  nice : Thread → Option Nat
  timeRemaining : Thread → Nat
  sleepRemainingTime : Thread → Nat
  blockedFutex : Thread → Option Nat
  scheduled : Thread → Bool
  idledWithWork : Bool

variable {n : Nat} {Thread : Type} [DecidableEq Thread]

section Fields

section
variable (scheduler : Scheduler n Thread) (thread : Thread) (key : ListKey n) (time : Nat) (p : Fin n)

namespace Scheduler

def push (thread : Thread) : Option (Scheduler n Thread) :=
  ((scheduler.lists key).pushBack scheduler.links thread).map fun (links, queue) =>
    { scheduler with links, lists := update scheduler.lists key queue }

def pop : Scheduler n Thread × Option Thread :=
  ({ scheduler with
    links := ((scheduler.lists key).popFront scheduler.links).1
    lists := update scheduler.lists key ((scheduler.lists key).popFront scheduler.links).2.1 },
    ((scheduler.lists key).popFront scheduler.links).2.2)

def unlink (thread : Thread) : Option (Scheduler n Thread) :=
  ((scheduler.lists key).remove scheduler.links thread).map fun (links, queue) =>
    { scheduler with links, lists := update scheduler.lists key queue }

def setProcessor (state : ProcessorState Thread) : Scheduler n Thread :=
  { scheduler with processors := update scheduler.processors p state }

def setRunCounts (runCounts : Nat → Nat) : Scheduler n Thread :=
  scheduler.setProcessor p { scheduler.processors p with runCounts }

def setTimeRemaining : Scheduler n Thread :=
  { scheduler with timeRemaining := update scheduler.timeRemaining thread time }

def setSleep : Scheduler n Thread :=
  { scheduler with sleepRemainingTime := update scheduler.sleepRemainingTime thread time }

def setFutex (id : Option Nat) : Scheduler n Thread :=
  { scheduler with blockedFutex := update scheduler.blockedFutex thread id }

def setSemaphore (id value : Nat) : Scheduler n Thread :=
  { scheduler with
    semaphores := update scheduler.semaphores id (value, (scheduler.semaphores id).2) }

def setScheduled (known : Bool) : Scheduler n Thread :=
  { scheduler with scheduled := update scheduler.scheduled thread known }

end Scheduler
end
end Fields

section Adding

section
variable (scheduler : Scheduler n Thread) (current : Fin n) (thread : Thread)

def Scheduler.scheduleThread (target : Option (Fin n)) : Option (Scheduler n Thread) :=
  match scheduler.nice thread with
  | none => some scheduler
  | some nice =>
    if niceLevels ≤ nice then some scheduler
    else
      (((scheduler.setTimeRemaining thread defaultTimeslice).setSleep thread 0).setScheduled
        thread true).push (.run (target.getD current) nice) thread

def Scheduler.addExistingThread : Option (Scheduler n Thread × Bool) :=
  match scheduler.nice thread with
  | none => some (scheduler, false)
  | some nice =>
    if niceLevels ≤ nice then some (scheduler, false)
    else
      ({ ((scheduler.setTimeRemaining thread defaultTimeslice).setSleep thread 0).setScheduled
          thread true with
        links := update scheduler.links thread .unlinked }.push
          (.run current nice) thread).map fun after => (after, true)

/-- `assert(Scheduler::AddExistingThread(thread))` -/
def Scheduler.wakeUp : Option (Scheduler n Thread) :=
  match scheduler.addExistingThread current thread with
  | some (after, true) => some after
  | _ => none

end
end Adding

section Selection

/-- What the loop over the nice levels has found so far. -/
structure Scan (Thread : Type) where
  thread : Option Thread
  nice : Option Nat
  runCounts : Nat → Nat

def scanLevel (queues : Nat → Queue Thread) (scan : Scan Thread) (level : Nat) : Scan Thread :=
  if (queues level).count = 0 ∨
      (maxRunCount ≤ scan.runCounts level ∧ level ≠ 0 ∧ scan.thread ≠ none) then scan
  else
    { thread := (queues level).head
      nice := some level
      runCounts :=
        if scan.thread = none ∧ maxRunCount ≤ scan.runCounts level then
          update scan.runCounts level 0
        else scan.runCounts }

def scanLevels (queues : Nat → Queue Thread) (runCounts : Nat → Nat) : Scan Thread :=
  (List.range niceLevels).foldl (scanLevel queues) ⟨none, none, runCounts⟩

def Scheduler.stealThreadFromOther (current : Fin n) :
    List (Fin n) → Scheduler n Thread → Option (Scheduler n Thread × Option (Thread × Nat))
  | [], scheduler => some (scheduler, none)
  | other :: rest, scheduler =>
    if other = current then stealThreadFromOther current rest scheduler
    else
      let scan := scanLevels (fun nice => scheduler.lists (.run other nice))
        (scheduler.processors current).runCounts
      match scan.thread, scan.nice with
      | some thread, some nice =>
        if ((scheduler.setRunCounts current scan.runCounts).pop (.run other nice)).2 =
            some thread then
          some (((scheduler.setRunCounts current scan.runCounts).pop (.run other nice)).1,
            some (thread, nice))
        else none
      | _, _ => stealThreadFromOther current rest (scheduler.setRunCounts current scan.runCounts)

def resetCounts (first : Nat) (runCounts : Nat → Nat) : Nat → Nat := fun level =>
  if first ≤ level ∧ level < niceLevels ∧ maxRunCount ≤ runCounts level then 0
  else runCounts level

def Scheduler.hasWork (scheduler : Scheduler n Thread) : Bool :=
  (List.finRange n).any fun p => (List.range niceLevels).any fun nice =>
    (scheduler.lists (.run p nice)).count ≠ 0

/-- Make the thread the current one, after a thread from the level `nice` was chosen. -/
def Scheduler.select (scheduler : Scheduler n Thread) (p : Fin n) (thread : Thread)
    (nice : Option Nat) : Scheduler n Thread :=
  let runCounts := (scheduler.processors p).runCounts
  let counted := match nice with
    | some level => resetCounts (level + 1)
        (update runCounts level (runCounts level + 1))
    | none => resetCounts 0 runCounts
  scheduler.setProcessor p
    { scheduler.processors p with
      runCounts := counted
      isIdle := thread = (scheduler.processors p).idleThread
      currentThread := some thread }

def Scheduler.pickNext (scheduler : Scheduler n Thread) (p : Fin n) : Option (Scheduler n Thread) :=
  let scan := scanLevels (fun nice => scheduler.lists (.run p nice))
    (scheduler.processors p).runCounts
  match scan.thread, scan.nice with
  | some thread, some nice =>
    some ((((scheduler.setRunCounts p scan.runCounts).pop (.run p nice)).1).select p thread
      (some nice))
  | _, _ =>
    match Scheduler.stealThreadFromOther p (List.finRange n)
        (scheduler.setRunCounts p scan.runCounts) with
    | none => none
    | some (after, some (thread, nice)) => some (after.select p thread (some nice))
    | some (after, none) =>
      some ({ after with
        idledWithWork := scheduler.idledWithWork || scheduler.hasWork }.select p
          (scheduler.processors p).idleThread none)

end Selection

section Blocking

namespace Scheduler

def removeCurrentThread (scheduler : Scheduler n Thread) (p : Fin n) :
    Scheduler n Thread × Option Thread :=
  (scheduler.setProcessor p { scheduler.processors p with currentThread := none },
    (scheduler.processors p).currentThread)

/-- Give the selected thread its time slice, before `RunThread`. -/
def resume (scheduler : Scheduler n Thread) (p : Fin n) : Option (Scheduler n Thread) :=
  (scheduler.processors p).currentThread.map fun thread =>
    scheduler.setTimeRemaining thread defaultTimeslice

/-- `Yield` by a thread that has been removed from its processor: it sleeps if it
has a time to sleep. No yield callback is ever set. -/
def yieldFrom (scheduler : Scheduler n Thread) (p : Fin n) (thread : Thread) :
    Option (Scheduler n Thread) :=
  if 0 < scheduler.sleepRemainingTime thread then
    (scheduler.push (.sleeping p) thread).bind fun asleep =>
      (asleep.pickNext p).bind fun picked => picked.resume p
  else
    (scheduler.pickNext p).bind fun picked => picked.resume p

def block (scheduler : Scheduler n Thread) (p : Fin n) (key : ListKey n) :
    Option (Scheduler n Thread) :=
  match (scheduler.removeCurrentThread p).2 with
  | none => none
  | some thread =>
    (((scheduler.removeCurrentThread p).1.setSleep thread 0).push key thread).bind fun queued =>
      queued.yieldFrom p thread

def sleepCurrentThread (scheduler : Scheduler n Thread) (p : Fin n) (ms : Nat) :
    Option (Scheduler n Thread) :=
  if ms = 0 then some scheduler
  else
    match (scheduler.removeCurrentThread p).2 with
    | none => some (scheduler.removeCurrentThread p).1
    | some thread => ((scheduler.removeCurrentThread p).1.setSleep thread ms).yieldFrom p thread

def semaphoreWait (scheduler : Scheduler n Thread) (p : Fin n) (id : Nat) :
    Option (Scheduler n Thread) :=
  if 0 < (scheduler.semaphores id).1 then
    some (scheduler.setSemaphore id ((scheduler.semaphores id).1 - 1))
  else scheduler.block p (.semaphore id)

def semaphoreSignal (scheduler : Scheduler n Thread) (p : Fin n) (id : Nat) :
    Option (Scheduler n Thread) :=
  if (scheduler.semaphores id).1 < (scheduler.semaphores id).2 then
    let counted := scheduler.setSemaphore id ((scheduler.semaphores id).1 + 1)
    if (counted.lists (.semaphore id)).count = 0 then some counted
    else
      match (counted.pop (.semaphore id)).2 with
      | none => none
      | some thread => (counted.pop (.semaphore id)).1.wakeUp p thread
  else some scheduler

def futexWait (scheduler : Scheduler n Thread) (p : Fin n) (id : Nat) :
    Option (Scheduler n Thread) :=
  match (scheduler.processors p).currentThread with
  | none => none
  | some thread => (scheduler.setFutex thread (some id)).block p (.futex id)

/-- The loop of `Wake`, for at most the given number of threads. -/
def futexWake (p : Fin n) (id : Nat) : Nat → Scheduler n Thread → Option (Scheduler n Thread)
  | 0, scheduler => some scheduler
  | count + 1, scheduler =>
    if (scheduler.lists (.futex id)).count = 0 then some scheduler
    else
      match (scheduler.pop (.futex id)).2 with
      | none => none
      | some thread =>
        (((scheduler.pop (.futex id)).1.setFutex thread none).wakeUp p thread).bind
          (futexWake p id count)

def futexRemove (scheduler : Scheduler n Thread) (p : Fin n) (id : Nat)
    (thread : Thread) : Option (Scheduler n Thread) :=
  if scheduler.blockedFutex thread = some id then
    (scheduler.unlink (.futex id) thread).bind fun removed =>
      (removed.setFutex thread none).wakeUp p thread
  else some scheduler

/-- `DeleteThread` and the yield of `Thread_ExitHelper`. -/
def exitCurrentThread (scheduler : Scheduler n Thread) (p : Fin n) : Option (Scheduler n Thread) :=
  match (scheduler.removeCurrentThread p).2 with
  | none => some (scheduler.removeCurrentThread p).1
  | some thread =>
    ((scheduler.removeCurrentThread p).1.push .dead thread).bind fun dead =>
      (dead.semaphoreSignal p deadThreadsSemaphore).bind fun signalled =>
        (signalled.pickNext p).bind fun picked => picked.resume p

def handleDeadThreads (scheduler : Scheduler n Thread) (p : Fin n) : Option (Scheduler n Thread) :=
  match (scheduler.pop .dead).2 with
  | none => (scheduler.pop .dead).1.semaphoreWait p deadThreadsSemaphore
  | some thread =>
    let reaped := (scheduler.pop .dead).1.setScheduled thread false
    match reaped.blockedFutex thread with
    | none => some reaped
    | some id => reaped.futexRemove p id thread

end Scheduler
end Blocking

section Tick

/-- The walk over the sleeping threads, with the next thread read before the
current one may be moved. -/
def Scheduler.wakeSleepers (p : Fin n) (ms : Nat) :
    Nat → Option Thread → Scheduler n Thread → Option (Scheduler n Thread)
  | 0, _, scheduler => some scheduler
  | _ + 1, none, scheduler => some scheduler
  | count + 1, some thread, scheduler =>
    if scheduler.sleepRemainingTime thread ≤ ms then
      match scheduler.nice thread with
      | none => none
      | some nice =>
        ((scheduler.setSleep thread 0).unlink (.sleeping p) thread).bind fun removed =>
          (removed.push (.run p nice) thread).bind
            (wakeSleepers p ms count (scheduler.links thread).next)
    else
      wakeSleepers p ms count (scheduler.links thread).next
        (scheduler.setSleep thread (scheduler.sleepRemainingTime thread - ms))

section
variable (scheduler : Scheduler n Thread) (p : Fin n)

def Scheduler.requeue (thread : Thread) : Option (Scheduler n Thread) :=
  let removed := scheduler.setProcessor p { scheduler.processors p with currentThread := none }
  if (scheduler.processors p).isIdle then some removed
  else
    match scheduler.nice thread with
    | none => none
    | some nice => removed.push (.run p nice) thread

def Scheduler.timerTick (ms : Nat) : Option (Scheduler n Thread) :=
  if (scheduler.processors p).startAllowed = false then some scheduler
  else
    (Scheduler.wakeSleepers p ms (scheduler.lists (.sleeping p)).count
      (scheduler.lists (.sleeping p)).head scheduler).bind fun awake =>
      match (awake.processors p).currentThread with
      | none => (awake.pickNext p).bind fun picked => picked.resume p
      | some thread =>
        let timed := awake.setTimeRemaining thread (awake.timeRemaining thread - ms)
        if 0 < timed.timeRemaining thread ∧ (timed.processors p).isIdle = false then some timed
        else
          (timed.requeue p thread).bind fun queued =>
            (queued.pickNext p).bind fun picked => picked.resume p

def Scheduler.start (bootstrap : Bool) : Option (Scheduler n Thread) :=
  (scheduler.pickNext p).map fun picked =>
    if bootstrap then
      { picked with
        processors := fun q => { picked.processors q with startAllowed := true } }
    else picked

end
end Tick
end FrostyKernel.Scheduling
