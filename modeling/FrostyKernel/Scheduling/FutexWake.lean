import FrostyKernel.Lib.LinkedQueue
import FrostyKernel.Scheduling.Futex

/-!
# Waking the threads of a futex queue

`Wait`, `Wake` and `Remove` hold the lock of their queue around all that they do
to it, so each of them is one step. `runnable` lists the threads handed to
`AddExistingThread`, in order.
-/

namespace FrostyKernel.Futex

open Function List

inductive FutexWakeReason
  | none
  | woken
  | timedOut
  | interrupted

/-- A queue with the fields of the threads that `Wake` and `Remove` use;
`blockedFutex` is whether the field points to this queue. -/
structure Blocking (Thread : Type) where
  waitingThreads : List Thread
  blockedFutex : Thread → Bool
  wakeReason : Thread → FutexWakeReason
  runnable : List Thread

def Blocking.start (Thread : Type) : Blocking Thread := ⟨[], fun _ => false, fun _ => .none, []⟩

variable {Thread : Type} [DecidableEq Thread]

namespace Blocking

def wait (queue : Blocking Thread) (thread : Thread) : Blocking Thread :=
  { queue with
    waitingThreads := queue.waitingThreads ++ [thread]
    blockedFutex := update queue.blockedFutex thread true
    wakeReason := update queue.wakeReason thread .none }

/-- The thread is off the list, and `remaining` are left. -/
def release (queue : Blocking Thread) (remaining : List Thread) (reason : FutexWakeReason)
    (thread : Thread) : Blocking Thread where
  waitingThreads := remaining
  blockedFutex := update queue.blockedFutex thread false
  wakeReason := update queue.wakeReason thread reason
  runnable := queue.runnable ++ [thread]

/-- The loop of `Wake` over the list of the queue, from a value of `woken` on. -/
def wakeLoop (maxCount : Nat) : List Thread → Int → Blocking Thread → Blocking Thread × Int
  | [], woken, queue => (queue, woken)
  | thread :: rest, woken, queue =>
    if woken < signedCount maxCount then
      wakeLoop maxCount rest (woken + 1) (queue.release rest .woken thread)
    else
      (queue, woken)

def wake (queue : Blocking Thread) (maxCount : Nat) : Blocking Thread × Int :=
  wakeLoop maxCount queue.waitingThreads 0 queue

/-- `none` when `ThreadList::remove` asserts that the thread is in the list. -/
def remove (queue : Blocking Thread) (thread : Thread) (reason : FutexWakeReason) :
    Option (Blocking Thread) :=
  if queue.blockedFutex thread then
    if thread ∈ queue.waitingThreads then
      some (queue.release (queue.waitingThreads.erase thread) reason thread)
    else none
  else some queue

end Blocking

/-- The first `count` threads have been made runnable, and no others. -/
structure WakesFirst (count : Nat) (before : Blocking Thread) (result : Blocking Thread × Int) :
    Prop where
  runnable : result.1.runnable = before.runnable ++ before.waitingThreads.take count
  waiting : result.1.waitingThreads = before.waitingThreads.drop count
  reasons : ∀ thread, result.1.wakeReason thread =
    if thread ∈ before.waitingThreads.take count then .woken else before.wakeReason thread
  returned : result.2 = count

theorem wake_loop_first (maxCount : Nat) (waiting : List Thread) (woken : Nat)
    (queue : Blocking Thread) (whole : queue.waitingThreads = waiting) :
    ∃ count, count = min (signedCount maxCount - woken).toNat waiting.length ∧
      WakesFirst count queue
        ((Blocking.wakeLoop maxCount waiting woken queue).1,
          (Blocking.wakeLoop maxCount waiting woken queue).2 - woken) := by
  induction waiting generalizing woken queue with
  | nil => exact ⟨0, by simp, by constructor <;> simp [Blocking.wakeLoop, whole]⟩
  | cons thread rest ih =>
    simp only [Blocking.wakeLoop]
    split
    · rename_i more
      obtain ⟨count, counted, first⟩ := ih (woken + 1) (queue.release rest .woken thread) rfl
      refine ⟨count + 1, by simp only [length_cons]; omega, ?_⟩
      constructor
      · simpa [whole, Blocking.release] using first.runnable
      · simpa [whole, Blocking.release] using first.waiting
      · intro other
        have reason := first.reasons other
        push_cast at reason
        rw [reason, whole, take_succ_cons]
        by_cases same : other = thread <;> simp [Blocking.release, same]
      · have returned := first.returned
        push_cast at returned ⊢
        omega
    · exact ⟨0, by omega, by constructor <;> simp [whole]⟩

theorem wake_first (queue : Blocking Thread) (maxCount : Nat) :
    WakesFirst (min (signedCount maxCount).toNat queue.waitingThreads.length) queue
      (queue.wake maxCount) := by
  obtain ⟨count, rfl, first⟩ := wake_loop_first maxCount queue.waitingThreads 0 queue rfl
  simpa [Blocking.wake] using first

section Once

/-- `blockedFutex` says which threads are in the list. -/
structure Listed (queue : Blocking Thread) : Prop where
  distinct : queue.waitingThreads.Nodup
  blocked : ∀ thread, queue.blockedFutex thread ↔ thread ∈ queue.waitingThreads

/-- The threads of `added` have waited; otherwise threads have only moved from the
list to the runnable threads. -/
structure Moves (added : List Thread) (before after : Blocking Thread) : Prop where
  listed : Listed after
  threads : (after.runnable ++ after.waitingThreads).Perm
    (added ++ (before.runnable ++ before.waitingThreads))

variable {queue : Blocking Thread}

theorem release_moves (listed : Listed queue) {thread : Thread} {remaining : List Thread}
    (reason : FutexWakeReason) (parts : queue.waitingThreads.Perm (thread :: remaining)) :
    Moves [] queue (queue.release remaining reason thread) := by
  have distinct := parts.nodup_iff.mp listed.distinct
  rw [nodup_cons] at distinct
  constructor
  · refine ⟨distinct.2, ?_⟩
    intro other
    by_cases same : other = thread
    · subst same
      simpa [Blocking.release] using distinct.1
    · simp [Blocking.release, same, listed.blocked, parts.mem_iff]
  · simpa [Blocking.release] using parts.symm.append_left queue.runnable

theorem wake_loop_moves (maxCount : Nat) (waiting : List Thread) (woken : Int)
    (listed : Listed queue) (whole : queue.waitingThreads = waiting) :
    Moves [] queue (Blocking.wakeLoop maxCount waiting woken queue).1 := by
  induction waiting generalizing woken queue with
  | nil => exact ⟨listed, .refl _⟩
  | cons thread rest ih =>
    simp only [Blocking.wakeLoop]
    split
    · have first := release_moves listed .woken (List.Perm.of_eq whole)
      have others := ih (woken + 1) first.listed rfl
      exact ⟨others.listed, others.threads.trans first.threads⟩
    · exact ⟨listed, .refl _⟩

theorem remove_moves (listed : Listed queue) (thread : Thread) (reason : FutexWakeReason) :
    ∃ after, queue.remove thread reason = some after ∧ Moves [] queue after ∧
      thread ∉ after.waitingThreads := by
  by_cases member : thread ∈ queue.waitingThreads
  · refine ⟨queue.release (queue.waitingThreads.erase thread) reason thread, ?_,
      release_moves listed reason (perm_cons_erase member), listed.distinct.not_mem_erase⟩
    simp [Blocking.remove, listed.blocked, member]
  · exact ⟨queue, by simp [Blocking.remove, listed.blocked, member], ⟨listed, .refl _⟩, member⟩

end Once

/-! ## The linked list

A `ThreadList` of the waiting threads holds those of the queue after each operation on it. -/

section ThreadLists
variable {queue : Blocking Thread} {links : Thread → Links Thread} {list : Queue Thread}
  {thread : Thread} (holds : Holds links list queue.waitingThreads)
include holds

theorem wait_pushes_back (absent : thread ∉ queue.waitingThreads)
    (loose : links thread = .unlinked) :
    ∃ after final, list.pushBack links thread = some (after, final) ∧
      Holds after final (queue.wait thread).waitingThreads := by
  obtain ⟨after, final, pushed, held, _⟩ := push_back_holds holds absent loose
  exact ⟨after, final, pushed, held⟩

theorem wake_pops_front {rest : List Thread} (whole : queue.waitingThreads = thread :: rest) :
    ∃ after final, list.popFront links = (after, final, some thread) ∧
      Holds after final (queue.release rest .woken thread).waitingThreads := by
  obtain ⟨after, final, popped, held, _⟩ := pop_front_holds (whole ▸ holds)
  exact ⟨after, final, popped, held⟩

theorem remove_unlinks (member : thread ∈ queue.waitingThreads) :
    ∃ after final, list.remove links thread = some (after, final) ∧
      Holds after final (queue.waitingThreads.erase thread) := by
  obtain ⟨left, right, cut⟩ := append_of_mem member
  rw [cut] at holds ⊢
  have absent := (nodup_cons.mp (nodup_middle.mp holds.distinct)).1
  obtain ⟨after, final, removed, held, _⟩ := remove_holds holds
  rw [erase_append_right _ (by simp_all), erase_cons_head]
  exact ⟨after, final, removed, held⟩

end ThreadLists

inductive Event (Thread : Type)
  | wait (thread : Thread)
  | wake (maxCount : Nat)
  | remove (thread : Thread) (reason : FutexWakeReason)

/-- A thread that waits is running, so it is not blocked. -/
def Event.Steps (before : Blocking Thread) (event : Event Thread) (after : Blocking Thread) : Prop :=
  match event with
  | .wait thread => before.blockedFutex thread = false ∧ before.wait thread = after
  | .wake maxCount => (before.wake maxCount).1 = after
  | .remove thread reason => before.remove thread reason = some after

def Event.waiter : Event Thread → Option Thread
  | .wait thread => some thread
  | _ => none

variable {after before : Blocking Thread}

theorem event_moves {event : Event Thread} (listed : Listed before)
    (step : Event.Steps before event after) : Moves event.waiter.toList before after := by
  cases event with
  | wait thread =>
    obtain ⟨running, rfl⟩ := step
    have absent : thread ∉ before.waitingThreads := by
      rw [← listed.blocked, running]
      exact Bool.false_ne_true
    refine ⟨⟨?_, ?_⟩, ?_⟩
    · rw [Blocking.wait, ← concat_eq_append, nodup_concat]
      exact ⟨absent, listed.distinct⟩
    · intro other
      by_cases same : other = thread <;> simp [Blocking.wait, same, listed.blocked]
    · rw [Blocking.wait, ← append_assoc]
      exact perm_append_singleton thread _
  | wake maxCount =>
    cases step
    exact wake_loop_moves maxCount _ 0 listed rfl
  | remove thread reason =>
    obtain ⟨found, done, moves, _⟩ := remove_moves listed thread reason
    cases done.symm.trans step
    exact moves

theorem run_moves {events : List (Event Thread)} (listed : Listed before)
    (run : Run Event.Steps before events after) :
    Moves (events.filterMap Event.waiter) before after := by
  induction run with
  | nil => exact ⟨listed, .refl _⟩
  | @snoc _ _ events event _ last ih =>
    obtain ⟨final, moved⟩ := event_moves ih.listed last
    refine ⟨final, moved.trans ((ih.threads.append_left _).trans ?_)⟩
    have own : [event].filterMap Event.waiter = event.waiter.toList := by
      cases event <;> rfl
    rw [filterMap_append, own, ← append_assoc]
    exact perm_append_comm.append_right _

/-- `Wake` compares with `(int)maxCount`. Every wait of a thread is answered
once: by a `Wake`, or at the latest by a `Remove` of the thread. -/
theorem wake_first_iff (queue : Blocking Thread) (maxCount : Nat) (word : maxCount < 2 ^ 32) :
    (WakesFirst (min maxCount queue.waitingThreads.length) queue (queue.wake maxCount) ↔
      maxCount < 2 ^ 31 ∨ queue.waitingThreads = []) ∧
    ∀ events reached, Run Event.Steps (.start Thread) events reached →
      ∀ thread, reached.runnable.count thread + reached.waitingThreads.count thread =
          (events.filterMap Event.waiter).count thread ∧
        ∀ reason, ∃ after, reached.remove thread reason = some after ∧
          after.runnable.count thread = (events.filterMap Event.waiter).count thread ∧
          thread ∉ after.waitingThreads := by
  constructor
  · have first := wake_first queue maxCount
    constructor
    · intro wanted
      have counts := first.returned.symm.trans wanted.returned
      by_contra neither
      rw [not_or, ← length_eq_zero_iff] at neither
      have negative : (signedCount maxCount).toNat = 0 := by
        rw [signedCount, if_neg neither.1]
        omega
      rw [negative] at counts
      omega
    · intro usual
      have same : min (signedCount maxCount).toNat queue.waitingThreads.length =
          min maxCount queue.waitingThreads.length := by
        rcases usual with small | empty
        · rw [signedCount, if_pos small, Int.toNat_natCast]
        · simp [empty]
      exact same ▸ first
  · intro events reached run thread
    obtain ⟨listed, threads⟩ := run_moves ⟨nodup_nil, by simp [Blocking.start]⟩ run
    have counts := threads.count_eq thread
    simp only [Blocking.start, append_nil, count_append] at counts
    refine ⟨counts, ?_⟩
    intro reason
    obtain ⟨after, removed, moves, gone⟩ := remove_moves listed thread reason
    refine ⟨after, removed, ?_, gone⟩
    have moved := moves.threads.count_eq thread
    rw [count_append, count_eq_zero_of_not_mem gone, nil_append, count_append] at moved
    exact moved.trans counts

theorem wake_first_iff_two_of_three : ∃ queue : Blocking Nat,
    queue.waitingThreads = [7, 8, 9] ∧
      WakesFirst (min 2 queue.waitingThreads.length) queue (queue.wake 2) :=
  ⟨⟨[7, 8, 9], fun _ => true, fun _ => .none, []⟩, rfl,
    (wake_first_iff _ 2 (by decide)).1.mpr (.inl (by decide))⟩

/-- `FUTEX_WAKE` with the largest count wakes nobody. -/
theorem wake_all_wakes_none : ∃ queue : Blocking Nat,
    queue.waitingThreads = [7] ∧ (queue.wake (2 ^ 32 - 1)).2 = 0 ∧
      ¬ WakesFirst (min (2 ^ 32 - 1) 1) queue (queue.wake (2 ^ 32 - 1)) := by
  refine ⟨⟨[7], fun _ => true, fun _ => .none, []⟩, rfl, by decide, ?_⟩
  intro first
  exact absurd first.returned (by decide)

end FrostyKernel.Futex
