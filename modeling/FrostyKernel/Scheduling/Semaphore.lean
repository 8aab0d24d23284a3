import FrostyKernel.Lib.Run
import FrostyKernel.Lib.Word

/-!
# Semaphores

`Wait` and `Signal` of a semaphore as their critical sections under the lock.
A signal makes a unit available and wakes the first waiter without handing it
the unit, so that a woken thread competes with newcomers when it resumes and may
have to queue again.
-/

namespace FrostyKernel.Scheduling

open Word List

variable {Thread : Type}

structure Semaphore (Thread : Type) where
  value : Nat
  maxValue : Nat
  waitingThreads : List Thread
deriving DecidableEq

/-- What a critical section of `Wait` leaves to its caller. -/
inductive Waiting
  | done
  | queued
  | spinning
deriving DecidableEq

/-- From taking the lock to the return, the yield or the pause: on entry, and
each time the thread comes back from the yield or the pause. The processor has
a current thread to block when `canBlock` is set. -/
def Semaphore.wait (semaphore : Semaphore Thread) (thread : Thread) (canBlock : Bool) :
    Semaphore Thread × Waiting :=
  if 0 < semaphore.value then
    ({ semaphore with value := semaphore.value - 1 }, .done)
  else if canBlock then
    ({ semaphore with waitingThreads := semaphore.waitingThreads ++ [thread] }, .queued)
  else
    (semaphore, .spinning)

/-- The thread that is returned has been passed to `AddExistingThread`. -/
def Semaphore.signal (semaphore : Semaphore Thread) : Semaphore Thread × Option Thread :=
  if semaphore.value < semaphore.maxValue then
    match semaphore.waitingThreads with
    | [] => ({ semaphore with value := add64 semaphore.value 1 }, none)
    | thread :: rest =>
      ({ semaphore with value := add64 semaphore.value 1, waitingThreads := rest }, some thread)
  else
    (semaphore, none)

section
variable (semaphore : Semaphore Thread)
include semaphore

theorem wait_cases (thread : Thread) (canBlock : Bool) :
    (0 < semaphore.value ∧ semaphore.wait thread canBlock =
      ({ semaphore with value := semaphore.value - 1 }, .done)) ∨
    (semaphore.value = 0 ∧ semaphore.wait thread canBlock =
      ({ semaphore with waitingThreads := semaphore.waitingThreads ++ [thread] }, .queued)) ∨
    (semaphore.value = 0 ∧ semaphore.wait thread canBlock = (semaphore, .spinning)) := by
  by_cases available : 0 < semaphore.value
  · exact .inl ⟨available, by simp [Semaphore.wait, available]⟩
  · cases canBlock with
    | true => exact .inr (.inl ⟨by omega, by simp [Semaphore.wait, available]⟩)
    | false => exact .inr (.inr ⟨by omega, by simp [Semaphore.wait, available]⟩)

theorem signal_cases (word : semaphore.maxValue < 2 ^ 64) :
    (semaphore.maxValue ≤ semaphore.value ∧ semaphore.signal = (semaphore, none)) ∨
    (semaphore.value < semaphore.maxValue ∧ semaphore.waitingThreads = [] ∧
      semaphore.signal = ({ semaphore with value := semaphore.value + 1 }, none)) ∨
    (∃ thread rest, semaphore.value < semaphore.maxValue ∧
      semaphore.waitingThreads = thread :: rest ∧
      semaphore.signal =
        ({ semaphore with value := semaphore.value + 1, waitingThreads := rest }, some thread)) := by
  by_cases room : semaphore.value < semaphore.maxValue
  · have counted : add64 semaphore.value 1 = semaphore.value + 1 := by
      rw [add64]
      omega
    cases queue : semaphore.waitingThreads with
    | nil => exact .inr (.inl ⟨room, rfl, by simp [Semaphore.signal, room, queue, counted]⟩)
    | cons thread rest =>
      exact .inr (.inr ⟨thread, rest, room, rfl, by simp [Semaphore.signal, room, queue, counted]⟩)
  · exact .inl ⟨by omega, by simp [Semaphore.signal, room]⟩

theorem signal_max_value : semaphore.signal.1.maxValue = semaphore.maxValue := by
  unfold Semaphore.signal
  split
  · split <;> rfl
  · rfl

/-- A semaphore and the threads that use it: those popped by `Signal` that have
not resumed in `Wait`, those that spin, and those that hold a unit, as often as
their `Wait` returned without a `Signal` of theirs after it. -/
structure Users (Thread : Type) where
  semaphore : Semaphore Thread
  woken : List Thread
  spinning : List Thread
  holders : List Thread
deriving DecidableEq

def Users.start (value maxValue : Nat) : Users Thread := ⟨⟨value, maxValue, []⟩, [], [], []⟩

/-- The thread is not inside `Wait`. -/
def Users.Outside (users : Users Thread) (thread : Thread) : Prop :=
  thread ∉ users.semaphore.waitingThreads ∧ thread ∉ users.woken ∧ thread ∉ users.spinning

/-- Enter what the critical section of `Wait` made of its caller. -/
def Users.settle (users : Users Thread) (thread : Thread) :
    Semaphore Thread × Waiting → Users Thread
  | (semaphore, .done) => { users with semaphore, holders := thread :: users.holders }
  | (semaphore, .queued) => { users with semaphore }
  | (semaphore, .spinning) => { users with semaphore, spinning := thread :: users.spinning }

theorem wait_max_value (thread : Thread) (canBlock : Bool) (users : Users Thread) :
    (users.settle thread (semaphore.wait thread canBlock)).semaphore.maxValue =
      semaphore.maxValue := by
  rcases wait_cases semaphore thread canBlock with ⟨_, same⟩ | ⟨_, same⟩ | ⟨_, same⟩ <;>
    rw [same] <;> rfl

end

/-- No unit is left to a queued thread that no woken thread can claim. -/
structure Accounted (users : Users Thread) : Prop where
  word : users.semaphore.maxValue < 2 ^ 64
  bounded : users.semaphore.value ≤ users.semaphore.maxValue
  claimed : users.semaphore.waitingThreads ≠ [] → users.semaphore.value ≤ users.woken.length
  distinct : (users.semaphore.waitingThreads ++ (users.woken ++ users.spinning)).Nodup

/-- The caller of the critical section may have been the last woken thread: it
takes the unit that was counted for it, or finds none. -/
theorem settle_accounted (users : Users Thread) (thread : Thread) (canBlock : Bool)
    (word : users.semaphore.maxValue < 2 ^ 64)
    (bounded : users.semaphore.value ≤ users.semaphore.maxValue)
    (claimed : users.semaphore.waitingThreads ≠ [] → users.semaphore.value ≤ users.woken.length + 1)
    (distinct : (thread :: (users.semaphore.waitingThreads ++
      (users.woken ++ users.spinning))).Nodup) :
    Accounted (users.settle thread (users.semaphore.wait thread canBlock)) := by
  rcases wait_cases users.semaphore thread canBlock with
    ⟨available, same⟩ | ⟨empty, same⟩ | ⟨empty, same⟩
  · rw [same]
    constructor
    · exact word
    · exact le_trans (Nat.sub_le _ _) bounded
    · intro queued
      have counted := claimed queued
      simp only [Users.settle]
      omega
    · exact distinct.of_cons
  · rw [same]
    constructor
    · exact word
    · exact bounded
    · intro _
      simp only [Users.settle, empty]
      omega
    · simp only [Users.settle, append_assoc]
      exact nodup_middle.mpr distinct
  · rw [same]
    constructor
    · exact word
    · exact bounded
    · intro _
      simp only [Users.settle, empty]
      omega
    · simp only [Users.settle, ← append_assoc]
      refine nodup_middle.mpr ?_
      rw [append_assoc]
      exact distinct

theorem start_accounted {value maxValue : Nat} (bounded : value ≤ maxValue)
    (word : maxValue < 2 ^ 64) : Accounted (Users.start value maxValue : Users Thread) :=
  ⟨word, bounded, fun queued => absurd rfl queued, nodup_nil⟩

inductive Section (Thread : Type)
  | wait (thread : Thread) (canBlock : Bool)
  | resume (thread : Thread) (canBlock : Bool)
  | retry (thread : Thread) (canBlock : Bool)
  | signal (thread : Thread)

variable [DecidableEq Thread]

instance (users : Users Thread) (thread : Thread) : Decidable (users.Outside thread) := by
  unfold Users.Outside
  infer_instance

def Section.Legal (users : Users Thread) : Section Thread → Prop
  | .wait thread _ => users.Outside thread
  | .resume thread _ => thread ∈ users.woken
  | .retry thread _ => thread ∈ users.spinning
  | .signal thread => users.Outside thread

instance (users : Users Thread) : DecidablePred (Section.Legal users) := fun call => by
  cases call <;> unfold Section.Legal <;> infer_instance

def Section.apply (users : Users Thread) : Section Thread → Users Thread
  | .wait thread canBlock => users.settle thread (users.semaphore.wait thread canBlock)
  | .resume thread canBlock =>
    { users with woken := users.woken.erase thread }.settle thread
      (users.semaphore.wait thread canBlock)
  | .retry thread canBlock =>
    { users with spinning := users.spinning.erase thread }.settle thread
      (users.semaphore.wait thread canBlock)
  | .signal thread =>
    { users with
      semaphore := users.semaphore.signal.1
      woken := users.semaphore.signal.2.toList ++ users.woken
      holders := users.holders.erase thread }

def Interleaves (before : Users Thread) (call : Section Thread) (after : Users Thread) : Prop :=
  call.Legal before ∧ after = call.apply before

/-- As a `Mutex`: `Unlock` is called by a holder only. -/
def LocksStep (before : Users Thread) (call : Section Thread) (after : Users Thread) : Prop :=
  Interleaves before call after ∧ ∀ thread, call = .signal thread → thread ∈ before.holders

section Invariant
variable {thread : Thread} {users : Users Thread} (canBlock : Bool)

theorem wait_accounted (outside : users.Outside thread) (accounted : Accounted users) :
    Accounted ((Section.wait thread canBlock).apply users) := by
  refine settle_accounted users thread canBlock accounted.word accounted.bounded ?_
    (nodup_cons.mpr ⟨by simpa [Users.Outside] using outside, accounted.distinct⟩)
  intro queued
  exact le_trans (accounted.claimed queued) (Nat.le_succ _)

theorem resume_accounted (popped : thread ∈ users.woken) (accounted : Accounted users) :
    Accounted ((Section.resume thread canBlock).apply users) := by
  have distinct := accounted.distinct
  have parted := perm_cons_erase popped
  refine settle_accounted { users with woken := users.woken.erase thread } thread canBlock
    accounted.word accounted.bounded ?_ ?_
  · intro queued
    have counted := accounted.claimed queued
    have shorter := parted.length_eq
    rw [length_cons] at shorter
    exact shorter ▸ counted
  · refine nodup_middle.mp (distinct.perm ?_)
    exact (List.Perm.refl _).append (parted.append_right _)

theorem retry_accounted (member : thread ∈ users.spinning) (accounted : Accounted users) :
    Accounted ((Section.retry thread canBlock).apply users) := by
  have distinct := accounted.distinct
  have parted := perm_cons_erase member
  refine settle_accounted { users with spinning := users.spinning.erase thread } thread canBlock
    accounted.word accounted.bounded ?_ ?_
  · intro queued
    exact le_trans (accounted.claimed queued) (Nat.le_succ _)
  · rw [← append_assoc]
    refine nodup_middle.mp (distinct.perm ?_)
    rw [← append_assoc]
    exact (List.Perm.refl _).append parted

theorem signal_accounted (thread : Thread) (accounted : Accounted users) :
    Accounted ((Section.signal thread).apply users) := by
  rcases signal_cases users.semaphore accounted.word with
    ⟨_, same⟩ | ⟨room, empty, same⟩ | ⟨first, rest, room, queue, same⟩
  · simp only [Section.apply, same]
    exact ⟨accounted.word, accounted.bounded, accounted.claimed, accounted.distinct⟩
  · simp only [Section.apply, same]
    exact ⟨accounted.word, room, fun queued => absurd empty queued, accounted.distinct⟩
  simp only [Section.apply, same]
  have queued : users.semaphore.waitingThreads ≠ [] := by
    rw [queue]
    exact cons_ne_nil _ _
  have counted := accounted.claimed queued
  have distinct := accounted.distinct
  rw [queue, cons_append] at distinct
  exact ⟨accounted.word, room, fun _ => Nat.succ_le_succ counted, (nodup_middle).mpr distinct⟩

theorem section_accounted {call : Section Thread} {after : Users Thread}
    (accounted : Accounted users) (step : Interleaves users call after) : Accounted after := by
  obtain ⟨legal, rfl⟩ := step
  cases call with
  | wait thread canBlock => exact wait_accounted canBlock legal accounted
  | resume thread canBlock => exact resume_accounted canBlock legal accounted
  | retry thread canBlock => exact retry_accounted canBlock legal accounted
  | signal thread => exact signal_accounted thread accounted

theorem section_max_value (users : Users Thread) (call : Section Thread) :
    (call.apply users).semaphore.maxValue = users.semaphore.maxValue := by
  cases call with
  | wait thread canBlock => exact wait_max_value users.semaphore thread canBlock users
  | resume thread canBlock =>
    exact wait_max_value users.semaphore thread canBlock
      { users with woken := users.woken.erase thread }
  | retry thread canBlock =>
    exact wait_max_value users.semaphore thread canBlock
      { users with spinning := users.spinning.erase thread }
  | signal thread => exact signal_max_value users.semaphore

end Invariant

section Mutex

/-- The unit is either available or held. -/
structure OneUnit (users : Users Thread) : Prop where
  maxValue : users.semaphore.maxValue = 1
  unit : users.semaphore.value + users.holders.length = 1

omit [DecidableEq Thread] in
theorem settle_one_unit (users : Users Thread) (thread : Thread) (canBlock : Bool)
    (mutex : OneUnit users) :
    OneUnit (users.settle thread (users.semaphore.wait thread canBlock)) := by
  have unit := mutex.unit
  rcases wait_cases users.semaphore thread canBlock with ⟨available, same⟩ | ⟨_, same⟩ | ⟨_, same⟩
  · rw [same]
    refine ⟨mutex.maxValue, ?_⟩
    simp only [Users.settle, length_cons]
    omega
  · rw [same]
    exact ⟨mutex.maxValue, unit⟩
  · rw [same]
    exact ⟨mutex.maxValue, unit⟩

theorem signal_one_unit {users : Users Thread} {thread : Thread} (holder : thread ∈ users.holders)
    (mutex : OneUnit users) : OneUnit ((Section.signal thread).apply users) := by
  have unit := mutex.unit
  have shorter := (perm_cons_erase holder).length_eq
  have limit := mutex.maxValue
  rw [length_cons] at shorter
  refine ⟨(signal_max_value users.semaphore).trans limit, ?_⟩
  rcases signal_cases users.semaphore (by omega) with ⟨full, _⟩ | ⟨_, _, same⟩ | ⟨_, _, _, _, same⟩
  · omega
  · simp only [Section.apply, same]
    omega
  · simp only [Section.apply, same]
    omega

theorem locks_one_unit (users : Users Thread) (call : Section Thread) (after : Users Thread)
    (mutex : OneUnit users) (step : LocksStep users call after) : OneUnit after := by
  obtain ⟨⟨_, rfl⟩, unlocks⟩ := step
  cases call with
  | wait thread canBlock => exact settle_one_unit users thread canBlock mutex
  | resume thread canBlock =>
    exact settle_one_unit { users with woken := users.woken.erase thread } thread canBlock
      ⟨mutex.maxValue, mutex.unit⟩
  | retry thread canBlock =>
    exact settle_one_unit { users with spinning := users.spinning.erase thread } thread canBlock
      ⟨mutex.maxValue, mutex.unit⟩
  | signal thread => exact signal_one_unit (unlocks thread rfl) mutex

end Mutex

/-- In every interleaving of the critical sections, the value stays within the
maximum, a unit is available beside a queued thread only if as many woken
threads are about to claim it, and a mutex has at most one holder. -/
theorem semaphore_run_safe (value maxValue : Nat) (bounded : value ≤ maxValue)
    (word : maxValue < 2 ^ 64) :
    (∀ calls (users : Users Thread),
      Run Interleaves (Users.start value maxValue) calls users →
        users.semaphore.value ≤ maxValue ∧ users.woken.Nodup ∧
        (users.semaphore.waitingThreads ≠ [] →
          users.semaphore.value ≤ users.woken.length)) ∧
    ∀ calls (users : Users Thread), Run LocksStep (Users.start 1 1) calls users →
      users.holders.length ≤ 1 := by
  constructor
  · intro calls users run
    have kept : Accounted users ∧ users.semaphore.maxValue = maxValue := by
      refine run_invariant
        (fun state => Accounted state ∧ state.semaphore.maxValue = maxValue) ?_
        ⟨start_accounted bounded word, rfl⟩ run
      rintro state call after ⟨accounted, same⟩ step
      exact ⟨section_accounted accounted step, by rw [step.2, section_max_value, same]⟩
    obtain ⟨accounted, same⟩ := kept
    refine ⟨same ▸ accounted.bounded, ?_, accounted.claimed⟩
    exact (nodup_append.mp (nodup_append.mp accounted.distinct).2.1).1
  · intro calls users run
    have mutex := run_invariant OneUnit locks_one_unit ⟨rfl, rfl⟩ run
    have unit := mutex.unit
    omega

/-- A newcomer takes the unit between the signal and the resumption of the woken
thread, which queues again. -/
theorem semaphore_run_safe_barging :
    ∃ users : Users Nat, Run Interleaves (Users.start 0 1)
        [.wait 1 true, .signal 2, .wait 3 true, .resume 1 true] users ∧
      users.semaphore.waitingThreads = [1] ∧ users.holders = [3] ∧
      users.semaphore.value ≤ 1 ∧ users.semaphore.value ≤ users.woken.length := by
  refine exists_run_of
    (fun users => users.semaphore.waitingThreads = [1] ∧ users.holders = [3])
    ⟨_, Run.snoc (Run.snoc (Run.snoc (Run.snoc (Run.nil _) ⟨?_, rfl⟩) ⟨?_, rfl⟩) ⟨?_, rfl⟩)
      ⟨?_, rfl⟩, ?_, ?_⟩ ?implies
  case implies =>
    rintro users run ⟨queued, held⟩
    obtain ⟨bounded, _, claimed⟩ :=
      (semaphore_run_safe 0 1 (by decide) (by decide)).1 _ users run
    exact ⟨queued, held, bounded, claimed (by rw [queued]; decide)⟩
  all_goals decide

end FrostyKernel.Scheduling
