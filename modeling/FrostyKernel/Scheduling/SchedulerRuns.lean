import FrostyKernel.Lib.Run
import FrostyKernel.Scheduling.Places

/-!
# Runs of the scheduler

Each completed operation moves threads between places and returns. In every
state of a run a scheduled thread is in exactly one place, and no processor has
selected its idle thread while a run queue had a thread.
-/

namespace FrostyKernel.Scheduling

open Function Scheduler List Option

variable {n : Nat} {Thread : Type} [DecidableEq Thread]

/-- The two fields of the threads that depend on their place. -/
structure Booked (scheduler : Scheduler n Thread) (place : Thread → Place n) : Prop where
  scheduled : ∀ thread, scheduler.scheduled thread = true ↔
    place thread ≠ .nowhere ∧ place thread ≠ .idle
  futex : ∀ thread id, scheduler.blockedFutex thread = some id ↔ place thread = .listed (.futex id)

structure Ordered (scheduler : Scheduler n Thread) (place : Thread → Place n) : Prop extends
    Booked scheduler place where
  placed : Placed scheduler place

section Bookkeeping
variable {place : Place n} {thread : Thread}

section
omit [DecidableEq Thread]

theorem active_scheduled (active : place.Active) : place ≠ .nowhere ∧ place ≠ .idle := by
  constructor
  · rintro rfl
    exact active
  · rintro rfl
    exact active

theorem active_running {p : Fin n} (running : place = .running p) : place.Active := by
  rw [running]
  trivial

theorem active_not_futex (active : place.Active) (id : Nat) : place ≠ .listed (.futex id) := by
  rintro rfl
  exact active

end

variable {after before : Scheduler n Thread} {place : Thread → Place n}

omit [DecidableEq Thread] in
theorem shifts_booked {moved : Thread → Place n} (booked : Booked before place)
    (shifts : Shifts place moved) (keeps : Keeps before after) : Booked after moved := by
  constructor
  · intro thread
    rw [keeps.scheduled, booked.scheduled]
    rcases shifts thread with same | ⟨was, is⟩
    · rw [same]
    · exact iff_of_true (active_scheduled was) (active_scheduled is)
  · intro thread id
    rw [keeps.blockedFutex, booked.futex]
    rcases shifts thread with same | ⟨was, is⟩
    · rw [same]
    · exact iff_of_false (active_not_futex was id) (active_not_futex is id)

/-- One thread has moved and its two fields follow. -/
theorem move_booked (booked : Booked before place) (thread : Thread) (target : Place n)
    (scheduled : ∀ other, other ≠ thread → after.scheduled other = before.scheduled other)
    (futex : ∀ other, other ≠ thread → after.blockedFutex other = before.blockedFutex other)
    (known : after.scheduled thread = true ↔ target ≠ .nowhere ∧ target ≠ .idle)
    (waiting : ∀ id, after.blockedFutex thread = some id ↔ target = .listed (.futex id)) :
    Booked after (update place thread target) := by
  constructor
  · intro other
    by_cases self : other = thread
    · subst self
      rw [update_self]
      exact known
    · rw [update_of_ne self, scheduled other self]
      exact booked.scheduled other
  · intro other id
    by_cases self : other = thread
    · subst self
      rw [update_self]
      exact waiting id
    · rw [update_of_ne self, futex other self]
      exact booked.futex other id

omit [DecidableEq Thread] in
theorem niced_congr (nice : after.nice = before.nice) (niced : before.Niced thread) :
    after.Niced thread := by
  rw [Niced, nice]
  exact niced

theorem listed_niced {scheduler : Scheduler n Thread} (placed : Placed scheduler place)
    {key : ListKey n} (listed : place thread = .listed key) : scheduler.Niced thread :=
  placed.niced thread (by simp [listed]) (by simp [listed])

end Bookkeeping

section Adding

/-- The thread has been put in a run queue with its fields reset. -/
structure Added (before after : Scheduler n Thread) (place : Thread → Place n) (thread : Thread)
    (p : Fin n) (nice : Nat) : Prop where
  placed : Placed after (update place thread (.listed (.run p nice)))
  nice : after.nice = before.nice
  scheduled : after.scheduled = update before.scheduled thread true
  blockedFutex : after.blockedFutex = update before.blockedFutex thread none
  sleepRemainingTime : after.sleepRemainingTime = update before.sleepRemainingTime thread 0
  processors : after.processors = before.processors

variable {place : Thread → Place n} {scheduler : Scheduler n Thread} {thread : Thread}

theorem added_booked {before after : Scheduler n Thread} {p : Fin n} {nice : Nat}
    (added : Added before after place thread p nice) (booked : Booked before place) :
    Booked after (update place thread (.listed (.run p nice))) := by
  refine move_booked booked thread _ ?_ ?_ ?_ ?_
  · intro other different
    rw [added.scheduled, update_of_ne different]
  · intro other different
    rw [added.blockedFutex, update_of_ne different]
  · rw [added.scheduled]
    simp
  · intro id
    rw [added.blockedFutex]
    simp

theorem push_added (placed : Placed scheduler place) (p : Fin n) {nice : Nat}
    (away : place thread = .nowhere) (level : scheduler.nice thread = some nice)
    (small : nice < niceLevels) (unblocked : scheduler.blockedFutex thread = none) :
    ∃ after, (((scheduler.setTimeRemaining thread defaultTimeslice).setSleep thread 0).setScheduled
        thread true).push (.run p nice) thread = some after ∧
      Added scheduler after place thread p nice := by
  have reset : Placed (((scheduler.setTimeRemaining thread defaultTimeslice).setSleep thread
      0).setScheduled thread true) place :=
    placed_fields placed
  obtain ⟨after, done, now, _, _, keeps, processors, sleep⟩ := push_placed reset (.run p nice)
    thread away ⟨nice, level, small⟩ (by
      intro q other same
      cases same
      exact level)
  refine ⟨after, done, now, keeps.nice, keeps.scheduled, ?_, sleep, processors⟩
  rw [keeps.blockedFutex, ← unblocked, update_eq_self]
  rfl

theorem add_existing_added (placed : Placed scheduler place) (p : Fin n)
    (away : place thread = .nowhere) (niced : scheduler.Niced thread)
    (unblocked : scheduler.blockedFutex thread = none) :
    ∃ after nice, scheduler.addExistingThread p thread = some (after, true) ∧
      Added scheduler after place thread p nice := by
  obtain ⟨nice, level, small⟩ := niced
  have loose : update scheduler.links thread .unlinked = scheduler.links := by
    rw [← placed.loose thread (by simp [away])]
    exact update_eq_self _ _
  obtain ⟨after, done, added⟩ := push_added placed p away level small unblocked
  refine ⟨after, nice, ?_, added⟩
  simp only [addExistingThread, level, if_neg (Nat.not_le.mpr small), loose]
  rw [map_eq_some_iff]
  exact ⟨after, done, rfl⟩

/-- A thread taken off a wait queue is woken. -/
theorem wake_removed_added {removed : Scheduler n Thread} (p : Fin n)
    (placed : Placed removed (update place thread .nowhere)) (niced : scheduler.Niced thread)
    (keeps : Keeps scheduler removed) (processors : removed.processors = scheduler.processors)
    (sleep : removed.sleepRemainingTime = scheduler.sleepRemainingTime) :
    ∃ after nice, (removed.setFutex thread none).wakeUp p thread = some after ∧
      Added scheduler after place thread p nice := by
  have cleared : Placed (removed.setFutex thread none) (update place thread .nowhere) :=
    placed_fields placed
  have unblocked : (removed.setFutex thread none).blockedFutex thread = none := update_self _ _ _
  obtain ⟨after, nice, done, added⟩ := add_existing_added cleared p (by simp)
    (niced_congr keeps.nice niced) unblocked
  have now := added.placed
  rw [update_idem] at now
  refine ⟨after, nice, by rw [wakeUp, done], now, added.nice.trans keeps.nice, ?_, ?_, ?_,
    added.processors.trans processors⟩
  · rw [← keeps.scheduled]
    exact added.scheduled
  · rw [added.blockedFutex, ← keeps.blockedFutex]
    exact update_idem _ _ _
  · rw [← sleep]
    exact added.sleepRemainingTime

theorem set_futex_self (unblocked : scheduler.blockedFutex thread = none) :
    scheduler.setFutex thread none = scheduler := by
  rw [setFutex, ← unblocked, update_eq_self]

omit [DecidableEq Thread] in
theorem not_futex_unblocked (booked : Booked scheduler place) (thread : Thread)
    (elsewhere : ∀ id, place thread ≠ .listed (.futex id)) :
    scheduler.blockedFutex thread = none := by
  rw [eq_none_iff_forall_ne_some]
  intro id blocked
  exact elsewhere id ((booked.futex thread id).mp blocked)

theorem schedule_added (placed : Placed scheduler place) (p : Fin n) (thread : Thread)
    (target : Option (Fin n)) (away : place thread = .nowhere)
    (unblocked : scheduler.blockedFutex thread = none) :
    scheduler.scheduleThread p thread target = some scheduler ∨
    ∃ after nice, scheduler.scheduleThread p thread target = some after ∧
      Added scheduler after place thread (target.getD p) nice := by
  unfold scheduleThread
  cases level : scheduler.nice thread with
  | none => exact .inl rfl
  | some nice =>
    simp only
    by_cases small : nice < niceLevels
    · rw [if_neg (Nat.not_le.mpr small)]
      obtain ⟨after, done, added⟩ := push_added placed (target.getD p) away level small unblocked
      exact .inr ⟨after, nice, done, added⟩
    · rw [if_pos (Nat.not_lt.mp small)]
      exact .inl rfl

theorem schedule_ordered (ordered : Ordered scheduler place) (p : Fin n) (target : Option (Fin n))
    (away : place thread = .nowhere) :
    ∃ after moved, scheduler.scheduleThread p thread target = some after ∧ Ordered after moved := by
  have unblocked := not_futex_unblocked ordered.toBooked thread (by simp [away])
  rcases schedule_added ordered.placed p thread target away unblocked with
    same | ⟨after, nice, done, added⟩
  · exact ⟨scheduler, place, same, ordered⟩
  · exact ⟨after, _, done, added_booked added ordered.toBooked, added.placed⟩

theorem add_existing_ordered (ordered : Ordered scheduler place) (p : Fin n)
    (away : place thread = .nowhere) :
    ∃ after added moved, scheduler.addExistingThread p thread = some (after, added) ∧
      Ordered after moved := by
  by_cases niced : scheduler.Niced thread
  · obtain ⟨after, nice, done, added⟩ := add_existing_added ordered.placed p away niced
      (not_futex_unblocked ordered.toBooked thread (by simp [away]))
    exact ⟨after, true, _, done, added_booked added ordered.toBooked, added.placed⟩
  refine ⟨scheduler, false, place, ?_, ordered⟩
  unfold addExistingThread
  cases level : scheduler.nice thread with
  | none => rfl
  | some nice =>
    have large : niceLevels ≤ nice := by
      rw [← not_lt]
      intro small
      exact niced ⟨nice, level, small⟩
    simp only [if_pos large]

end Adding

section Giving
variable {place : Thread → Place n} {scheduler : Scheduler n Thread}

/-- The processor selects its next thread and gives it a time slice. -/
theorem pick_resume_placed (placed : Placed scheduler place) (p : Fin n)
    (vacant : scheduler.current p = none) :
    ∃ after moved, ((scheduler.pickNext p).bind fun picked => picked.resume p) = some after ∧
      Placed after moved ∧ Shifts place moved ∧ Keeps scheduler after := by
  obtain ⟨picked, done, moved, now, dispatches, keeps, _, thread, seated⟩ :=
    pick_next_placed placed p vacant
  have current : (picked.processors p).currentThread = some thread := seated
  refine ⟨picked.setTimeRemaining thread defaultTimeslice, moved, ?_, placed_fields now,
    dispatches_shifts dispatches, keeps⟩
  rw [done, bind_some, resume, current]
  rfl

omit [DecidableEq Thread] in
theorem removed_current (scheduler : Scheduler n Thread) (p : Fin n) :
    (scheduler.removeCurrentThread p).1.current p = none := by
  simp [removeCurrentThread, current, setProcessor]

variable {p : Fin n}

section
variable (placed : Placed scheduler place)
include placed

theorem running_niced {thread : Thread} (running : place thread = .running p) :
    scheduler.Niced thread :=
  placed.niced thread (by simp [running]) (by simp [running])

/-- The current thread is queued elsewhere and the processor selects another. -/
theorem queue_current_placed (p : Fin n) (thread : Thread) (running : place thread = .running p)
    (key : ListKey n) (time : Nat)
    (level : ∀ q nice, key = .run q nice → scheduler.nice thread = some nice) :
    ∃ queued, ((scheduler.removeCurrentThread p).1.setSleep thread time).push key thread =
        some queued ∧
      Placed queued (update place thread (.listed key)) ∧ Keeps scheduler queued ∧
      queued.current p = none ∧
      queued.sleepRemainingTime = update scheduler.sleepRemainingTime thread time ∧
      ∀ q, q ≠ p → queued.processors q = scheduler.processors q := by
  have left := leave_placed placed p thread running
  have timed : Placed ((scheduler.removeCurrentThread p).1.setSleep thread time)
      (update place thread .nowhere) :=
    placed_fields left
  obtain ⟨queued, done, now, _, _, keeps, processors, sleep⟩ := push_placed timed key thread
    (by simp) (running_niced placed running) level
  rw [update_idem] at now
  refine ⟨queued, done, now, keeps, ?_, sleep, ?_⟩
  · rw [current, processors]
    exact removed_current scheduler p
  · intro q different
    rw [processors]
    exact update_of_ne different _ _

theorem block_placed (p : Fin n) (thread : Thread) (running : place thread = .running p)
    (key : ListKey n) (waits : ∀ q nice, key ≠ .run q nice) :
    ∃ after moved, scheduler.block p key = some after ∧ Placed after moved ∧
      Shifts (update place thread (.listed key)) moved ∧ Keeps scheduler after := by
  have current : (scheduler.removeCurrentThread p).2 = some thread :=
    ((placed.running p thread).mp running).1
  obtain ⟨queued, done, now, keeps, vacant, sleep, _⟩ := queue_current_placed placed p thread running
    key 0 (fun q nice same => absurd same (waits q nice))
  obtain ⟨after, moved, picked, later, shifts, kept⟩ := pick_resume_placed now p vacant
  refine ⟨after, moved, ?_, later, shifts, keeps_trans keeps kept⟩
  simp only [block, current, done, bind_some, yieldFrom, sleep, update_self, lt_irrefl, if_false]
  exact picked

theorem semaphore_signal_added (p : Fin n) (id : Nat)
    (unblocked : ∀ thread, place thread = .listed (.semaphore id) →
      scheduler.blockedFutex thread = none) :
    scheduler.semaphoreSignal p id = some scheduler ∨
    scheduler.semaphoreSignal p id =
      some (scheduler.setSemaphore id ((scheduler.semaphores id).1 + 1)) ∨
    ∃ after thread nice, scheduler.semaphoreSignal p id = some after ∧
      (scheduler.lists (.semaphore id)).head = some thread ∧
      place thread = .listed (.semaphore id) ∧ Added scheduler after place thread p nice := by
  unfold semaphoreSignal
  split_ifs with room
  · right
    simp only
    have counted : Placed (scheduler.setSemaphore id ((scheduler.semaphores id).1 + 1)) place :=
      placed_fields placed
    by_cases empty : ((scheduler.setSemaphore id ((scheduler.semaphores id).1 + 1)).lists
        (.semaphore id)).count = 0
    · rw [if_pos empty]
      exact .inl rfl
    right
    rw [if_neg empty]
    obtain ⟨thread, first⟩ := count_head counted _ empty
    obtain ⟨popped, listed, now, keeps⟩ := pop_head_placed counted _ thread first
    have clear := unblocked thread listed
    obtain ⟨after, nice, done, added⟩ := wake_removed_added p now
      (listed_niced counted listed) keeps rfl rfl
    rw [popped]
    simp only
    rw [set_futex_self (by rw [keeps.blockedFutex]; exact clear)] at done
    exact ⟨after, thread, nice, done, first, listed, added.placed, added.nice, added.scheduled,
      added.blockedFutex, added.sleepRemainingTime, added.processors⟩
  · exact .inl rfl

theorem futex_remove_added (p : Fin n) (id : Nat) (thread : Thread)
    (blocked : scheduler.blockedFutex thread = some id)
    (listed : place thread = .listed (.futex id)) :
    ∃ after nice, scheduler.futexRemove p id thread = some after ∧
      Added scheduler after place thread p nice := by
  obtain ⟨left, right, middle⟩ := append_of_mem ((placed.members _ _).mpr listed)
  obtain ⟨removed, unlinked, now, _, keeps, processors, sleep⟩ :=
    unlink_placed placed _ thread left right middle
  obtain ⟨after, nice, done, added⟩ := wake_removed_added p now (listed_niced placed listed)
    keeps processors sleep
  refine ⟨after, nice, ?_, added⟩
  rw [futexRemove, if_pos blocked, unlinked, bind_some]
  exact done

end

def Scheduler.Runs (scheduler : Scheduler n Thread) (p : Fin n) : Prop :=
  ∃ thread, scheduler.current p = some thread ∧ thread ≠ scheduler.idle p

section
variable (ordered : Ordered scheduler place)
include ordered

theorem sleep_ordered (ms : Nat) (runs : scheduler.Runs p) :
    ∃ after moved, scheduler.sleepCurrentThread p ms = some after ∧ Ordered after moved := by
  unfold sleepCurrentThread
  by_cases zero : ms = 0
  · rw [if_pos zero]
    exact ⟨scheduler, place, rfl, ordered⟩
  rw [if_neg zero]
  obtain ⟨thread, current, different⟩ := runs
  have running := (ordered.placed.running p thread).mpr ⟨current, different⟩
  have removed : (scheduler.removeCurrentThread p).2 = some thread := current
  obtain ⟨queued, done, now, keeps, vacant, _⟩ := queue_current_placed ordered.placed p thread
    running (.sleeping p) ms (by simp)
  obtain ⟨after, moved, picked, later, shifts, kept⟩ := pick_resume_placed now p vacant
  refine ⟨after, moved, ?_, shifts_booked ordered.toBooked ?_ (keeps_trans keeps kept), later⟩
  · have long : 0 < ((scheduler.removeCurrentThread p).1.setSleep thread ms).sleepRemainingTime
        thread := by
      simpa [setSleep] using Nat.pos_of_ne_zero zero
    simp only [removed, yieldFrom, if_pos long, done, bind_some]
    exact picked
  · have asleep : (Place.listed (.sleeping p)).Active := trivial
    exact shifts_trans (shifts_update place thread _ (active_running running) asleep) shifts

theorem set_semaphore_ordered (id value : Nat) : Ordered (scheduler.setSemaphore id value) place :=
  ⟨⟨ordered.scheduled, ordered.futex⟩, placed_fields ordered.placed⟩

theorem semaphore_wait_ordered (p : Fin n) (id : Nat) (runs : scheduler.Runs p) :
    ∃ after moved, scheduler.semaphoreWait p id = some after ∧ Ordered after moved := by
  unfold semaphoreWait
  split_ifs with free
  · exact ⟨_, place, rfl, set_semaphore_ordered ordered id _⟩
  obtain ⟨thread, current⟩ := runs
  have running := (ordered.placed.running p thread).mpr current
  obtain ⟨after, moved, done, now, shifts, keeps⟩ := block_placed ordered.placed p thread running
    (.semaphore id) (by simp)
  have waiting : (Place.listed (.semaphore id) : Place n).Active := trivial
  exact ⟨after, moved, done, shifts_booked ordered.toBooked
    (shifts_trans (shifts_update place thread _ (active_running running) waiting) shifts) keeps, now⟩

theorem semaphore_signal_ordered (p : Fin n) (id : Nat) :
    ∃ after moved, scheduler.semaphoreSignal p id = some after ∧ Ordered after moved ∧
      after.processors = scheduler.processors := by
  have unblocked : ∀ thread, place thread = .listed (.semaphore id) →
      scheduler.blockedFutex thread = none := by
    intro thread listed
    exact not_futex_unblocked ordered.toBooked thread (by simp [listed])
  rcases semaphore_signal_added ordered.placed p id unblocked with
    same | counted | ⟨after, thread, nice, done, _, _, added⟩
  · exact ⟨scheduler, place, same, ordered, rfl⟩
  · exact ⟨_, place, counted, set_semaphore_ordered ordered id _, rfl⟩
  · exact ⟨after, _, done, ⟨added_booked added ordered.toBooked, added.placed⟩, added.processors⟩

theorem futex_wait_ordered (id : Nat) (runs : scheduler.Runs p) :
    ∃ after moved, scheduler.futexWait p id = some after ∧ Ordered after moved := by
  obtain ⟨thread, current⟩ := runs
  have running := (ordered.placed.running p thread).mpr current
  have blocked : Placed (scheduler.setFutex thread (some id)) place := placed_fields ordered.placed
  obtain ⟨after, moved, done, now, shifts, keeps⟩ := block_placed blocked p thread running
    (.futex id) (by simp)
  have seated : (scheduler.processors p).currentThread = some thread := current.1
  have queued : Booked (scheduler.setFutex thread (some id))
      (update place thread (.listed (.futex id))) := by
    refine move_booked ordered.toBooked thread _ (fun _ _ => rfl) ?_ ?_ ?_
    · intro other different
      exact update_of_ne different _ _
    · refine iff_of_true ((ordered.scheduled thread).mpr ?_) ?_ <;> simp [running]
    · intro other
      simp [setFutex]
  exact ⟨after, moved, by rw [futexWait, seated]; exact done,
    shifts_booked queued shifts keeps, now⟩

theorem futex_remove_ordered (p : Fin n) (id : Nat) (thread : Thread) :
    ∃ after moved, scheduler.futexRemove p id thread = some after ∧ Ordered after moved := by
  by_cases blocked : scheduler.blockedFutex thread = some id
  · obtain ⟨after, nice, done, added⟩ := futex_remove_added ordered.placed p id thread blocked
      ((ordered.futex thread id).mp blocked)
    exact ⟨after, _, done, added_booked added ordered.toBooked, added.placed⟩
  · exact ⟨scheduler, place, if_neg blocked, ordered⟩

theorem exit_ordered (runs : scheduler.Runs p) :
    ∃ after moved, scheduler.exitCurrentThread p = some after ∧ Ordered after moved := by
  obtain ⟨thread, current⟩ := runs
  have running := (ordered.placed.running p thread).mpr current
  have removed : (scheduler.removeCurrentThread p).2 = some thread := current.1
  have left := leave_placed ordered.placed p thread running
  obtain ⟨dead, done, now, _, _, keeps, processors, _⟩ := push_placed left .dead thread (by simp)
    (running_niced ordered.placed running) (by simp)
  rw [update_idem] at now
  have buried : Ordered dead (update place thread (.listed .dead)) :=
    ⟨shifts_booked ordered.toBooked
      (shifts_update place thread _ (active_running running) trivial) keeps, now⟩
  obtain ⟨signalled, place', told, next, same⟩ := semaphore_signal_ordered buried p
    deadThreadsSemaphore
  have vacant : signalled.current p = none := by
    rw [Scheduler.current, same, processors]
    exact removed_current scheduler p
  obtain ⟨after, moved, picked, later, shifts, kept⟩ := pick_resume_placed next.placed p vacant
  refine ⟨after, moved, ?_, shifts_booked next.toBooked shifts kept, later⟩
  simp only [exitCurrentThread, removed, done, told, bind_some]
  exact picked

theorem handle_dead_ordered (runs : scheduler.Runs p) :
    ∃ after moved, scheduler.handleDeadThreads p = some after ∧ Ordered after moved := by
  unfold handleDeadThreads
  cases nodes : scheduler.contents .dead with
  | nil =>
    rw [pop_empty ordered.placed _ nodes]
    exact semaphore_wait_ordered ordered p _ runs
  | cons thread rest =>
    obtain ⟨popped, listed, now, keeps⟩ := pop_placed ordered.placed _ thread rest nodes
    have unblocked := not_futex_unblocked ordered.toBooked thread (by simp [listed])
    rw [popped]
    simp only
    have field : ((scheduler.pop .dead).1.setScheduled thread false).blockedFutex thread = none :=
      unblocked
    rw [field]
    refine ⟨_, _, rfl, move_booked ordered.toBooked thread .nowhere ?_ (fun _ _ => rfl) ?_ ?_, ?_⟩
    · intro other different
      exact update_of_ne different _ _
    · simp [setScheduled]
    · intro id
      rw [field]
      simp
    · exact placed_fields now

end

theorem futex_wake_one_added (placed : Placed scheduler place) (p : Fin n) (id : Nat)
    (some' : (scheduler.lists (.futex id)).count ≠ 0) :
    ∃ after thread nice, (scheduler.pop (.futex id)).2 = some thread ∧
      ((scheduler.pop (.futex id)).1.setFutex thread none).wakeUp p thread = some after ∧
      (scheduler.lists (.futex id)).head = some thread ∧
      place thread = .listed (.futex id) ∧ Added scheduler after place thread p nice := by
  obtain ⟨thread, first⟩ := count_head placed _ some'
  obtain ⟨popped, listed, now, keeps⟩ := pop_head_placed placed _ thread first
  obtain ⟨after, nice, done, added⟩ := wake_removed_added p now (listed_niced placed listed)
    keeps rfl rfl
  exact ⟨after, thread, nice, popped, done, first, listed, added⟩

theorem futex_wake_ordered (p : Fin n) (id count : Nat) (scheduler : Scheduler n Thread)
    (ordered : Ordered scheduler place) :
    ∃ after moved, futexWake p id count scheduler = some after ∧ Ordered after moved := by
  induction count generalizing scheduler place with
  | zero => exact ⟨scheduler, place, rfl, ordered⟩
  | succ count ih =>
    rw [futexWake]
    split_ifs with empty
    · exact ⟨scheduler, place, rfl, ordered⟩
    · obtain ⟨woken, thread, nice, popped, done, _, _, added⟩ :=
        futex_wake_one_added ordered.placed p id empty
      obtain ⟨after, final, finished, last⟩ := ih woken
        ⟨added_booked added ordered.toBooked, added.placed⟩
      refine ⟨after, final, ?_, last⟩
      simp only [popped, done, bind_some]
      exact finished

end Giving

section Tick
variable {place : Thread → Place n} {scheduler : Scheduler n Thread} {thread : Thread}

theorem links_next (placed : Placed scheduler place) {key : ListKey n} {left right : List Thread}
    (middle : scheduler.contents key = left ++ thread :: right) :
    (scheduler.links thread).next = right.head? := by
  have linked := (placed.holds key).linked
  rw [middle, linked_append] at linked
  simp [linked.2.1]

theorem sleeper_woken (placed : Placed scheduler place) (p : Fin n) (thread : Thread)
    (left right : List Thread)
    (middle : scheduler.contents (.sleeping p) = left ++ thread :: right) :
    ∃ nice removed queued, scheduler.nice thread = some nice ∧
      (scheduler.setSleep thread 0).unlink (.sleeping p) thread = some removed ∧
      removed.push (.run p nice) thread = some queued ∧
      Placed queued (update place thread (.listed (.run p nice))) ∧
      queued.contents (.sleeping p) = left ++ right ∧ Keeps scheduler queued ∧
      queued.processors = scheduler.processors ∧
      queued.sleepRemainingTime = update scheduler.sleepRemainingTime thread 0 := by
  have listed : place thread = .listed (.sleeping p) := by
    rw [← placed.members, middle]
    simp
  obtain ⟨nice, level, small⟩ := listed_niced placed listed
  have timed : Placed (scheduler.setSleep thread 0) place := placed_fields placed
  obtain ⟨removed, unlinked, loose, others, keeps, processors, sleep⟩ :=
    unlink_placed timed (.sleeping p) thread left right middle
  have sameNice : removed.nice = scheduler.nice := keeps.nice
  obtain ⟨queued, pushed, now, _, frame, keeps', processors', sleep'⟩ :=
    push_placed loose (.run p nice) thread (by simp)
      (niced_congr sameNice ⟨nice, level, small⟩) (by
        intro q other same
        cases same
        rw [sameNice]
        exact level)
  rw [update_idem] at now
  exact ⟨nice, removed, queued, level, unlinked, pushed, now, (frame _ (by simp)).trans others,
    keeps_trans keeps keeps', processors'.trans processors, sleep'.trans sleep⟩

theorem wake_sleepers_placed (p : Fin n) (ms : Nat) (kept remaining : List Thread)
    (scheduler : Scheduler n Thread) (placed : Placed scheduler place)
    (sleepers : scheduler.contents (.sleeping p) = kept ++ remaining) :
    ∃ after moved,
      wakeSleepers p ms remaining.length remaining.head? scheduler = some after ∧
      Placed after moved ∧ Shifts place moved ∧ Keeps scheduler after ∧
      after.processors = scheduler.processors := by
  induction remaining generalizing kept scheduler place with
  | nil => exact ⟨scheduler, place, rfl, placed, shifts_refl place, keeps_refl _, rfl⟩
  | cons thread rest ih =>
    have listed : place thread = .listed (.sleeping p) := by
      rw [← placed.members, sleepers]
      simp
    simp only [length_cons, head?_cons, wakeSleepers, links_next placed sleepers]
    split_ifs with due
    · obtain ⟨nice, removed, queued, level, unlinked, pushed, now, others, keeps, processors, _⟩ :=
        sleeper_woken placed p thread kept rest sleepers
      obtain ⟨after, moved, done, last, shifts, final, processors'⟩ := ih kept queued now others
      have shifted : Shifts place (update place thread (.listed (.run p nice))) := by
        refine shifts_update place thread _ ?_ trivial
        rw [listed]
        trivial
      refine ⟨after, moved, ?_, last, shifts_trans shifted shifts, keeps_trans keeps final,
        processors'.trans processors⟩
      simp only [level, unlinked, pushed, bind_some]
      exact done
    · have timed : Placed (scheduler.setSleep thread (scheduler.sleepRemainingTime thread - ms))
          place :=
        placed_fields placed
      obtain ⟨after, moved, done, last, shifts, final, processors⟩ := ih (kept ++ [thread]) _ timed
        (by
          rw [append_assoc]
          exact sleepers)
      exact ⟨after, moved, done, last, shifts, final, processors⟩

theorem requeue_placed (placed : Placed scheduler place) (p : Fin n) (thread : Thread)
    (current : scheduler.current p = some thread) :
    ∃ queued target, scheduler.requeue p thread = some queued ∧
      Placed queued (update place thread target) ∧
      ((place thread = .idle ∧ target = .idle) ∨
        (place thread = .running p ∧ ∃ nice, target = .listed (.run p nice))) ∧
      Keeps scheduler queued ∧ Spares p scheduler queued ∧ queued.current p = none := by
  unfold requeue
  rw [placed.isIdle p thread current]
  by_cases idle : thread = scheduler.idle p
  · have here : place thread = .idle := by
      rw [idle]
      exact idle_not_running placed p
    have same : update place thread .idle = place := by
      rw [← here, update_eq_self]
    simp only [idle, decide_true, if_true] at same ⊢
    refine ⟨_, .idle, rfl, ?_, .inl ⟨idle_not_running placed p, rfl⟩, ⟨rfl, rfl, rfl⟩,
      ⟨rfl, fun q different => update_of_ne different _ _⟩, removed_current scheduler p⟩
    rw [same]
    refine leave_idle_placed placed p ?_
    intro other seated
    rw [current, some.injEq] at seated
    exact seated.symm.trans idle
  · simp only [idle, decide_false, Bool.false_eq_true, if_false]
    have running := (placed.running p thread).mpr ⟨current, idle⟩
    obtain ⟨nice, level, small⟩ := running_niced placed running
    obtain ⟨queued, done, now, _, _, keeps, processors, sleep⟩ := push_placed
      (leave_placed placed p thread running) (.run p nice) thread (by simp) ⟨nice, level, small⟩ (by
        intro q other same
        cases same
        exact level)
    rw [update_idem] at now
    simp only [level]
    refine ⟨queued, _, done, now, .inr ⟨running, nice, rfl⟩, keeps, ⟨sleep, ?_⟩, ?_⟩
    · intro q different
      rw [processors]
      exact update_of_ne different _ _
    · rw [Scheduler.current, processors]
      exact removed_current scheduler p

theorem requeue_shifts {target : Place n} {p : Fin n}
    (moves : (place thread = .idle ∧ target = .idle) ∨
      (place thread = .running p ∧ ∃ nice, target = .listed (.run p nice))) :
    Shifts place (update place thread target) := by
  rcases moves with ⟨idle, rfl⟩ | ⟨running, nice, rfl⟩
  · rw [← idle, update_eq_self]
    exact shifts_refl place
  · exact shifts_update place thread _ (active_running running) trivial

theorem timer_tick_ordered (ordered : Ordered scheduler place) (p : Fin n) (ms : Nat) :
    ∃ after moved, scheduler.timerTick p ms = some after ∧ Ordered after moved := by
  unfold timerTick
  split_ifs with stopped
  · exact ⟨scheduler, place, rfl, ordered⟩
  rw [list_count ordered.placed, list_head ordered.placed]
  obtain ⟨awake, place', woken, placed, shifts, keeps, processors⟩ := wake_sleepers_placed p ms []
    (scheduler.contents (.sleeping p)) scheduler ordered.placed rfl
  have booked := shifts_booked ordered.toBooked shifts keeps
  rw [woken, bind_some]
  cases current : (awake.processors p).currentThread with
  | none =>
    obtain ⟨after, moved, done, now, moves, kept⟩ := pick_resume_placed placed p current
    exact ⟨after, moved, done, shifts_booked booked moves kept, now⟩
  | some thread =>
    have timed : Placed (awake.setTimeRemaining thread (awake.timeRemaining thread - ms)) place' :=
      placed_fields placed
    simp only
    split_ifs with running
    · exact ⟨_, place', rfl, ⟨booked.scheduled, booked.futex⟩, timed⟩
    · obtain ⟨queued, target, done, now, moves, kept, _, vacant⟩ := requeue_placed timed p thread
        current
      obtain ⟨after, moved, picked, last, again, final⟩ := pick_resume_placed now p vacant
      refine ⟨after, moved, by rw [done, bind_some]; exact picked, ?_, last⟩
      exact shifts_booked (shifts_booked booked (requeue_shifts moves) kept) again final

theorem start_ordered (ordered : Ordered scheduler place) {p : Fin n} (bootstrap : Bool)
    (vacant : scheduler.current p = none) :
    ∃ after moved, scheduler.start p bootstrap = some after ∧ Ordered after moved := by
  obtain ⟨picked, done, moved, now, dispatches, keeps, _⟩ :=
    pick_next_placed ordered.placed p vacant
  have booked := shifts_booked ordered.toBooked (dispatches_shifts dispatches) keeps
  unfold start
  rw [done, map_some]
  refine ⟨_, moved, rfl, ?_⟩
  split_ifs
  · exact ⟨⟨booked.scheduled, booked.futex⟩,
      placed_congr now rfl rfl rfl rfl (fun _ => rfl) (fun _ => rfl) (fun _ => rfl)⟩
  · exact ⟨booked, now⟩

end Tick

section Runs

/-- A completed call, by the processor that makes it. -/
inductive Operation (n : Nat) (Thread : Type)
  | schedule (p : Fin n) (thread : Thread) (target : Option (Fin n))
  | addExisting (p : Fin n) (thread : Thread)
  | start (p : Fin n) (bootstrap : Bool)
  | tick (p : Fin n) (ms : Nat)
  | sleep (p : Fin n) (ms : Nat)
  | wait (p : Fin n) (id : Nat)
  | signal (p : Fin n) (id : Nat)
  | futexWait (p : Fin n) (id : Nat)
  | futexWake (p : Fin n) (id count : Nat)
  | futexRemove (p : Fin n) (id : Nat) (thread : Thread)
  | exit (p : Fin n)
  | handleDead (p : Fin n)

def Operation.run (scheduler : Scheduler n Thread) :
    Operation n Thread → Option (Scheduler n Thread)
  | .schedule p thread target => scheduler.scheduleThread p thread target
  | .addExisting p thread => (scheduler.addExistingThread p thread).map Prod.fst
  | .start p bootstrap => scheduler.start p bootstrap
  | .tick p ms => scheduler.timerTick p ms
  | .sleep p ms => scheduler.sleepCurrentThread p ms
  | .wait p id => scheduler.semaphoreWait p id
  | .signal p id => scheduler.semaphoreSignal p id
  | .futexWait p id => scheduler.futexWait p id
  | .futexWake p id count => Scheduler.futexWake p id count scheduler
  | .futexRemove p id thread => scheduler.futexRemove p id thread
  | .exit p => scheduler.exitCurrentThread p
  | .handleDead p => scheduler.handleDeadThreads p

/-- What the callers see to: a thread is added when it is on no list and not running, a
processor starts once, and only a thread that is not an idle thread gives up its processor. -/
def Operation.Legal (scheduler : Scheduler n Thread) : Operation n Thread → Prop
  | .schedule _ thread _ | .addExisting _ thread =>
    scheduler.scheduled thread = false ∧ ∀ p, scheduler.idle p ≠ thread
  | .start p _ => scheduler.current p = none
  | .sleep p _ | .wait p _ | .futexWait p _ | .exit p | .handleDead p => scheduler.Runs p
  | .tick _ _ | .signal _ _ | .futexWake _ _ _ | .futexRemove _ _ _ => True

def Operation.Steps (before : Scheduler n Thread) (operation : Operation n Thread)
    (after : Scheduler n Thread) : Prop :=
  operation.Legal before ∧ operation.run before = some after

/-- Nothing has been scheduled and no processor has started. -/
structure Initial (scheduler : Scheduler n Thread) : Prop where
  links : ∀ thread, scheduler.links thread = .unlinked
  lists : ∀ key, scheduler.lists key = .empty
  current : ∀ p, scheduler.current p = none
  scheduled : ∀ thread, scheduler.scheduled thread = false
  blockedFutex : ∀ thread, scheduler.blockedFutex thread = none
  idledWithWork : scheduler.idledWithWork = false

def Scheduler.Has (scheduler : Scheduler n Thread) (thread : Thread) : Place n → Prop
  | .nowhere => False
  | .idle => False
  | .running p => scheduler.current p = some thread
  | .listed key => thread ∈ scheduler.contents key

variable {scheduler : Scheduler n Thread} {place : Thread → Place n}

theorem initial_ordered (initial : Initial scheduler) : ∃ place, Ordered scheduler place := by
  classical
  have empty : ∀ key, scheduler.contents key = [] := by
    intro key
    simp [contents, Queue.contents, initial.lists, Queue.empty, follow]
  refine ⟨fun thread => if ∃ p, scheduler.idle p = thread then .idle else .nowhere, ⟨?_, ?_⟩, ?_⟩
  · intro thread
    rw [initial.scheduled]
    split_ifs <;> simp
  · intro thread id
    rw [initial.blockedFutex]
    split_ifs <;> simp
  · constructor
    · intro key
      rw [empty, initial.lists]
      exact holds_empty _
    · intro key thread
      rw [empty]
      split_ifs <;> simp
    · exact fun thread _ => initial.links thread
    · intro p thread
      rw [initial.current]
      split_ifs <;> simp
    · intro thread
      split_ifs with idle <;> simp [idle]
    · intro thread p nice listed
      split_ifs at listed
    · intro thread somewhere notIdle
      split_ifs at somewhere notIdle
      · exact absurd rfl notIdle
      · exact absurd rfl somewhere
    · intro p thread current
      simp [initial.current] at current
    · exact initial.idledWithWork

variable {thread : Thread}

theorem unscheduled_nowhere (ordered : Ordered scheduler place)
    (legal : scheduler.scheduled thread = false ∧ ∀ p, scheduler.idle p ≠ thread) :
    place thread = .nowhere := by
  by_contra somewhere
  have notIdle : place thread ≠ .idle := by
    intro idle
    obtain ⟨p, same⟩ := (ordered.placed.idle thread).mp idle
    exact legal.2 p same
  have scheduled := (ordered.scheduled thread).mpr ⟨somewhere, notIdle⟩
  rw [legal.1] at scheduled
  cases scheduled

theorem operation_ordered (ordered : Ordered scheduler place) {operation : Operation n Thread}
    (legal : operation.Legal scheduler) :
    ∃ after moved, operation.run scheduler = some after ∧ Ordered after moved := by
  cases operation with
  | schedule p thread target =>
    exact schedule_ordered ordered p target (unscheduled_nowhere ordered legal)
  | addExisting p thread =>
    obtain ⟨after, added, moved, done, now⟩ := add_existing_ordered ordered p
      (unscheduled_nowhere ordered legal)
    exact ⟨after, moved, by rw [Operation.run, done]; rfl, now⟩
  | start p bootstrap => exact start_ordered ordered bootstrap legal
  | tick p ms => exact timer_tick_ordered ordered p ms
  | sleep p ms => exact sleep_ordered ordered ms legal
  | wait p id => exact semaphore_wait_ordered ordered p id legal
  | signal p id =>
    obtain ⟨after, moved, done, now, _⟩ := semaphore_signal_ordered ordered p id
    exact ⟨after, moved, done, now⟩
  | futexWait p id => exact futex_wait_ordered ordered id legal
  | futexWake p id count => exact futex_wake_ordered p id count scheduler ordered
  | futexRemove p id thread => exact futex_remove_ordered ordered p id thread
  | exit p => exact exit_ordered ordered legal
  | handleDead p => exact handle_dead_ordered ordered legal

theorem run_ordered {start final : Scheduler n Thread} {operations : List (Operation n Thread)}
    (initial : Initial start) (run : Run Operation.Steps start operations final) :
    ∃ place, Ordered final place := by
  refine run_invariant (fun scheduler => ∃ place, Ordered scheduler place) ?_
    (initial_ordered initial) run
  rintro before operation after ⟨place, ordered⟩ ⟨legal, done⟩
  obtain ⟨next, moved, returned, now⟩ := operation_ordered ordered legal
  rw [done, some.injEq] at returned
  exact ⟨moved, returned ▸ now⟩

theorem has_place (ordered : Ordered scheduler place)
    (scheduled : scheduler.scheduled thread = true) (target : Place n) :
    scheduler.Has thread target ↔ target = place thread := by
  have somewhere := (ordered.scheduled thread).mp scheduled
  have notIdle : ∀ p, thread ≠ scheduler.idle p := by
    rintro p rfl
    exact somewhere.2 (idle_not_running ordered.placed p)
  cases target with
  | nowhere => exact iff_of_false id (Ne.symm somewhere.1)
  | idle => exact iff_of_false id (Ne.symm somewhere.2)
  | running p =>
    rw [eq_comm, ordered.placed.running p thread]
    simp [Has, notIdle p]
  | listed key =>
    rw [eq_comm, ← ordered.placed.members key thread]
    rfl

/-- After any sequence of completed operations, every scheduled thread is in exactly one
place and once, a run queue has only threads of its nice level, idle threads are on no
list, no idle thread was selected while a run queue had a thread, and the next operation
returns. -/
theorem scheduler_threads_placed {start final : Scheduler n Thread}
    {operations : List (Operation n Thread)} (initial : Initial start)
    (run : Run Operation.Steps start operations final) :
    (∀ thread, final.scheduled thread = true → ∃! place, final.Has thread place) ∧
    (∀ key, (final.contents key).Nodup) ∧
    (∀ p nice, ∀ thread ∈ final.contents (.run p nice), final.nice thread = some nice) ∧
    (∀ p key, final.idle p ∉ final.contents key) ∧
    final.idledWithWork = false ∧
    ∀ operation : Operation n Thread, operation.Legal final →
      ∃ after, operation.run final = some after := by
  obtain ⟨place, ordered⟩ := run_ordered initial run
  refine ⟨?_, ?_, ?_, ?_, ordered.placed.honest, ?_⟩
  · intro thread scheduled
    exact ⟨place thread, (has_place ordered scheduled _).mpr rfl,
      fun target has => (has_place ordered scheduled target).mp has⟩
  · exact fun key => (ordered.placed.holds key).distinct
  · intro p nice thread member
    exact ordered.placed.levels thread p nice ((ordered.placed.members _ _).mp member)
  · intro p key member
    have listed := (ordered.placed.members key _).mp member
    rw [idle_not_running ordered.placed p] at listed
    cases listed
  · intro operation legal
    obtain ⟨after, _, done, _⟩ := operation_ordered ordered legal
    exact ⟨after, done⟩

def twoProcessors : Scheduler 2 Nat where
  links := fun _ => .unlinked
  lists := fun _ => .empty
  processors := fun p => ⟨none, p.val, fun _ => 0, false, false⟩
  semaphores := fun _ => (0, 1)
  nice := fun thread => if 2 ≤ thread then some 5 else none
  timeRemaining := fun _ => 0
  sleepRemainingTime := fun _ => 0
  blockedFutex := fun _ => none
  scheduled := fun _ => false
  idledWithWork := false

/-- A thread waits on one processor, is woken by the other and goes on there. -/
theorem scheduler_threads_placed_woken_elsewhere :
    ∃ final, Run Operation.Steps twoProcessors
        [.schedule 0 2 none, .start 0 true, .start 1 false, .schedule 0 3 none, .wait 0 1,
          .signal 1 1, .tick 1 10] final ∧
      final.current 0 = some 3 ∧ final.current 1 = some 2 ∧ ∃! place, final.Has 2 place := by
  have initial : Initial twoProcessors :=
    ⟨fun _ => rfl, fun _ => rfl, fun _ => rfl, fun _ => rfl, fun _ => rfl, rfl⟩
  refine exists_run_of
    (fun final => final.current 0 = some 3 ∧ final.current 1 = some 2 ∧ final.scheduled 2 = true)
    ⟨_, run_cons ⟨⟨rfl, by decide⟩, rfl⟩ (run_cons ⟨rfl, rfl⟩ (run_cons ⟨rfl, rfl⟩
      (run_cons ⟨⟨rfl, by decide⟩, rfl⟩ (run_cons ⟨⟨2, rfl, by decide⟩, rfl⟩
        (run_cons ⟨trivial, rfl⟩ (run_cons ⟨trivial, rfl⟩ (Run.nil _))))))), rfl, rfl, rfl⟩ ?_
  rintro final run ⟨here, there, known⟩
  exact ⟨here, there, (scheduler_threads_placed initial run).1 2 known⟩

end Runs
end FrostyKernel.Scheduling
