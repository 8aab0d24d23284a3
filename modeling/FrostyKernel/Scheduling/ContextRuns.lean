import FrostyKernel.Scheduling.ContextInvariant

/-!
# Runs of the processors

In a run in which no thread is taken off its wait queue while a processor is still
leaving it, a thread is selected only after its registers have been saved. Without
that, a thread can be executed by two processors.
-/

namespace FrostyKernel.Scheduling

open Function List Option Machine

variable {n : Nat} {Thread : Type} [DecidableEq Thread]

section Events
variable {machine after before : Machine n Thread} {place : Thread → Place n} {p : Fin n}
  {thread : Thread}

omit [DecidableEq Thread] in
theorem caller_executing (caller : machine.caller p = some thread) :
    machine.phase p = .executing := by
  unfold Machine.caller at caller
  split at caller
  · assumption
  · cases caller

section
variable (sound : Sound machine place)
include sound
variable {p : Fin n} {thread : Thread}

theorem caller_running (caller : machine.caller p = some thread) (runs : machine.scheduler.Runs p) :
    machine.phase p = .executing ∧ place thread = .running p := by
  obtain ⟨other, current, different⟩ := runs
  unfold Machine.caller at caller
  split at caller
  · rename_i executing
    rw [current, some.injEq] at caller
    subst caller
    exact ⟨executing, (sound.placed.running p other).mpr ⟨current, different⟩⟩
  · cases caller

theorem seated_place (seated : machine.scheduler.current p = some thread) :
    place thread = .idle ∨ place thread = .running p := by
  by_cases idle : thread = machine.scheduler.idle p
  · left
    rw [idle]
    exact idle_not_running sound.placed p
  · exact .inr ((sound.placed.running p thread).mpr ⟨seated, idle⟩)

theorem seated_touched (seated : place thread = .idle ∨ place thread = .running p) {is : Place n}
    (now : ThreadSound after is thread) : Touched machine after (place thread) is p thread := by
  refine ⟨fun q _ => not_leaving sound thread ?_ ?_ q, ?_, now⟩
  · rcases seated with here | here <;> simp [here, Place.Waits]
  · rcases seated with here | here <;> simp [here]
  · intro q different
    rcases seated with here | here <;> simp [here, different.symm]

theorem leave_sound (p : Fin n) (thread : Thread) (target : Place n)
    (scheduler : Scheduler n Thread) (executing : machine.phase p = .executing)
    (running : place thread = .running p) (placed : Placed scheduler (update place thread target))
    (nice : scheduler.nice = machine.scheduler.nice)
    (scheduled : scheduler.scheduled = machine.scheduler.scheduled)
    (futex : ∀ other, other ≠ thread →
      scheduler.blockedFutex other = machine.scheduler.blockedFutex other)
    (blocked : ∀ id, scheduler.blockedFutex thread = some id ↔ target = .listed (.futex id))
    (sleep : ∀ other, other ≠ thread →
      scheduler.sleepRemainingTime other = machine.scheduler.sleepRemainingTime other)
    (vacant : scheduler.current p = none)
    (processors : ∀ q, q ≠ p → scheduler.processors q = machine.scheduler.processors q)
    (goes : (target.Waits ∧ scheduler.sleepRemainingTime thread = 0) ∨
      (target = .nowhere ∧ 0 < scheduler.sleepRemainingTime thread)) :
    Sound (machine.leave p thread scheduler) (update place thread target) := by
  have phase : (machine.leave p thread scheduler).phase p = .leaving thread false :=
    update_self _ _ _
  have known : machine.scheduler.scheduled thread = true :=
    thread_scheduled (sound.threads thread) (by simp [running]) (by simp [running])
  have free := not_leaving sound thread (by simp [running, Place.Waits]) (by simp [running])
  refine move_sound sound p thread target placed nice ?_ processors ?_
    (seated_touched sound (.inr running) ?_) ?_ ?_
  · intro q different
    exact update_of_ne different _ _
  · intro other different
    exact ⟨rfl, update_of_ne different _ _, sleep other different,
      congrFun scheduled other, futex other different, by simp [executing]⟩
  · constructor
    · intro fresh
      have still : scheduler.scheduled thread = false := fresh
      rw [scheduled, known] at still
      cases still
    · exact blocked
    · rintro ⟨q, ⟨nice, rfl⟩ | rfl⟩ <;> simp [Place.Waits] at goes
    · intro _
      exact .inr ⟨p, phase⟩
  · simp only [ProcessorSound, phase, update_self]
    refine ⟨vacant, ⟨?_, ?_, goes⟩, by simp⟩
    · rw [← known, ← scheduled]
      rfl
    · exact niced_congr nice (running_niced sound.placed running)
  · intro other saved leaving q _ late
    rw [phase] at leaving
    cases leaving
    exact free q late

theorem block_sound (p : Fin n) (thread : Thread) (key : ListKey n) (scheduler : Scheduler n Thread)
    (executing : machine.phase p = .executing) (running : place thread = .running p)
    (placed : Placed scheduler place) (keeps : scheduler.nice = machine.scheduler.nice)
    (scheduled : scheduler.scheduled = machine.scheduler.scheduled)
    (sleep : scheduler.sleepRemainingTime = machine.scheduler.sleepRemainingTime)
    (processors : scheduler.processors = machine.scheduler.processors)
    (futex : ∀ other, other ≠ thread →
      scheduler.blockedFutex other = machine.scheduler.blockedFutex other)
    (blocked : ∀ id, scheduler.blockedFutex thread = some id ↔ key = .futex id)
    (waits : (Place.listed key).Waits)
    (done : { machine with scheduler }.block p thread key = some after) :
    Sound after (update place thread (.listed key)) := by
  obtain ⟨queued, pushed, now, kept, vacant, slept, others⟩ := queue_current_placed placed p thread
    running key 0 (by
      rintro q nice rfl
      obtain ⟨id, same | same⟩ := waits <;> cases same)
  simp only [block, pushed, map_some, some.injEq] at done
  rw [← done]
  refine leave_sound sound p thread _ queued executing running now (kept.nice.trans keeps)
    (kept.scheduled.trans scheduled) ?_ ?_ ?_ vacant ?_ ?_
  · intro other different
    rw [kept.blockedFutex]
    exact futex other different
  · intro id
    rw [kept.blockedFutex, blocked id]
    simp
  · intro other different
    rw [slept, update_of_ne different, sleep]
  · intro q different
    rw [others q different, processors]
  · left
    rw [slept]
    exact ⟨waits, update_self _ _ _⟩

section
variable {p : Fin n} (executing : machine.phase p = .executing)
include executing

theorem call_sound {scheduler : Scheduler n Thread} (placed : Placed scheduler place)
    (keeps : Keeps machine.scheduler scheduler)
    (sleep : scheduler.sleepRemainingTime = machine.scheduler.sleepRemainingTime)
    (processors : scheduler.processors = machine.scheduler.processors) :
    Sound { machine with scheduler } place := by
  have same : machine.enter p .executing scheduler = { machine with scheduler } := by
    rw [enter, ← executing, update_eq_self]
  rw [← same]
  refine enter_sound sound placed keeps sleep processors (by simp [executing]) (by simp) ?_
  have phase : (machine.enter p .executing scheduler).phase p = .executing := update_self _ _ _
  simp only [ProcessorSound, phase]

theorem set_semaphore_sound (id value : Nat) :
    Sound { machine with scheduler := machine.scheduler.setSemaphore id value } place :=
  call_sound sound executing (placed_fields sound.placed) ⟨rfl, rfl, rfl⟩ rfl rfl

theorem semaphore_wait_sound {thread : Thread} {id : Nat} (running : place thread = .running p)
    (done : machine.semaphoreWait p thread id = some after) : ∃ moved, Sound after moved := by
  unfold semaphoreWait at done
  split_ifs at done
  · rw [← Option.some.inj done]
    exact ⟨place, set_semaphore_sound sound executing id _⟩
  · have unblocked := thread_unblocked (sound.threads thread) (by simp [running])
    refine ⟨_, block_sound sound p thread (.semaphore id) machine.scheduler executing running
      sound.placed rfl rfl rfl rfl (fun _ _ => rfl) ?_ ⟨id, .inl rfl⟩ done⟩
    intro other
    simp [unblocked]

end

theorem futex_wait_sound {id : Nat} (step : Event.Steps machine (.futexWait p id) after) :
    ∃ moved, Sound after moved := by
  obtain ⟨thread, caller, done⟩ := bind_eq_some_iff.mp step.2
  obtain ⟨executing, running⟩ := caller_running sound caller step.1
  refine ⟨_, block_sound sound p thread (.futex id) (machine.scheduler.setFutex thread (some id))
    executing running (placed_fields sound.placed) rfl rfl rfl rfl ?_ ?_ ⟨id, .inr rfl⟩ done⟩
  · intro other different
    exact update_of_ne different _ _
  · intro other
    simp [Scheduler.setFutex]

theorem sleep_sound {ms : Nat} (step : Event.Steps machine (.sleep p ms) after) :
    ∃ moved, Sound after moved := by
  obtain ⟨thread, caller, result⟩ := map_eq_some_iff.mp step.2
  obtain ⟨executing, running⟩ := caller_running sound caller step.1
  rw [← result, sleep]
  split_ifs with zero
  · exact ⟨place, sound⟩
  have unblocked := thread_unblocked (sound.threads thread) (by simp [running])
  refine ⟨_, leave_sound sound p thread .nowhere _ executing running ?_ rfl rfl (fun _ _ => rfl)
    ?_ ?_ (removed_current machine.scheduler p) ?_ ?_⟩
  · exact placed_fields (leave_placed sound.placed p thread running)
  · intro id
    have still : ((machine.scheduler.removeCurrentThread p).1.setSleep thread ms).blockedFutex
      thread = none := unblocked
    rw [still]
    simp
  · intro other different
    exact update_of_ne different _ _
  · intro q different
    exact update_of_ne different _ _
  · right
    refine ⟨rfl, ?_⟩
    simp only [Scheduler.setSleep, update_self]
    exact Nat.pos_of_ne_zero zero

theorem exit_sound (step : Event.Steps machine (.exit p) after) : ∃ moved, Sound after moved := by
  obtain ⟨thread, caller, done⟩ := bind_eq_some_iff.mp step.2
  obtain ⟨executing, running⟩ := caller_running sound caller step.1
  have known := sound.threads thread
  have left := leave_placed sound.placed p thread running
  obtain ⟨dead, pushed, now, _, _, keeps, processors, sleep⟩ := push_placed left .dead thread
    (by simp) (running_niced sound.placed running) (by simp)
  rw [update_idem] at now
  simp only [exit, pushed, map_some, some.injEq] at done
  rw [← done]
  have phase : (machine.enter p .exiting dead).phase p = .exiting := update_self _ _ _
  refine ⟨_, move_sound sound p thread (.listed .dead) now keeps.nice ?_ ?_ ?_
    (seated_touched sound (.inr running) ?_) ?_ ?_⟩
  · intro q different
    exact update_of_ne different _ _
  · intro q different
    have same := congrFun processors q
    exact same.trans (update_of_ne different _ _)
  · intro other _
    exact ⟨rfl, rfl, congrFun sleep other, congrFun keeps.scheduled other,
      congrFun keeps.blockedFutex other, by simp [executing]⟩
  · exact kept_active known keeps (by simp [running]) (by simp [running]) (by simp [running])
      (by simp [Place.Waits]) (by simp [Place.Queued])
  · simp only [ProcessorSound, phase]
    have same : dead.current p = (machine.scheduler.removeCurrentThread p).1.current p :=
      congrArg ProcessorState.currentThread (congrFun processors p)
    exact same.trans (removed_current machine.scheduler p)
  · simp [phase]

end

theorem added_sound (sound : Sound before place) {q : Fin n} {nice : Nat}
    (added : Added before.scheduler after.scheduler place thread q nice)
    (phases : ∀ r, r ≠ p → after.phase r = before.phase r)
    (here : ∀ other saved, before.phase p ≠ .leaving other saved)
    (there : ∀ other saved, after.phase p ≠ .leaving other saved)
    (saved : ∀ other, other ≠ thread → after.saved other = before.saved other)
    (stored : after.saved thread = true) (free : ∀ r saved, before.phase r ≠ .leaving thread saved)
    (mine : ∀ r, place thread ≠ .running r ∧ place thread ≠ .listed (.sleeping r))
    (own : ProcessorSound after (update place thread (.listed (.run q nice))) p) :
    Sound after (update place thread (.listed (.run q nice))) := by
  refine move_sound sound p thread _ added.placed added.nice phases ?_ ?_ ⟨?_, ?_, ?_⟩ own ?_
  · intro r _
    rw [added.processors]
  · intro other different
    refine ⟨rfl, saved other different, ?_, ?_, ?_, fun leaving => absurd leaving (here other false)⟩
    · rw [added.sleepRemainingTime, update_of_ne different]
    · rw [added.scheduled, update_of_ne different]
    · rw [added.blockedFutex, update_of_ne different]
  · exact fun r _ => free r
  · exact fun r _ => mine r
  · refine active_sound ?_ ?_ (by simp [Place.Waits]) (fun _ => stored)
    · rw [added.scheduled, update_self]
    · rw [added.blockedFutex, update_self]
  · intro other early leaving
    exact absurd leaving (there other early)

/-- A call on `p` wakes a thread that no processor is leaving. -/
theorem woken_sound (sound : Sound before place) {key : ListKey n} {nice : Nat}
    (added : Added before.scheduler after.scheduler place thread p nice)
    (waits : (Place.listed key).Waits) (listed : place thread = .listed key)
    (free : before.Free thread) (phases : ∀ r, r ≠ p → after.phase r = before.phase r)
    (here : ∀ other saved, before.phase p ≠ .leaving other saved)
    (there : ∀ other saved, after.phase p ≠ .leaving other saved)
    (saved : after.saved = before.saved)
    (own : ProcessorSound after (update place thread (.listed (.run p nice))) p) :
    Sound after (update place thread (.listed (.run p nice))) := by
  refine added_sound sound added phases here there
    (fun other _ => congrFun saved other) ?_ free ?_ own
  · rw [saved]
    rcases (sound.threads thread).waiting (listed ▸ waits) with stored | ⟨r, leaving⟩
    · exact stored
    · exact absurd leaving (free r false)
  · intro r
    rw [listed]
    obtain ⟨id, same | same⟩ := waits <;> cases same <;> simp

section
variable (sound : Sound machine place)
include sound

theorem thread_semaphore_unblocked (id : Nat) (thread : Thread)
    (listed : place thread = .listed (.semaphore id)) :
    machine.scheduler.blockedFutex thread = none :=
  thread_unblocked (sound.threads thread) (by simp [listed])

variable {p : Fin n} {id : Nat} {thread : Thread}

theorem signal_sound (step : Event.PatientSteps machine (.signal p id) after) :
    ∃ moved, Sound after moved := by
  obtain ⟨_, caller, done⟩ := bind_eq_some_iff.mp step.1.2
  have executing := caller_executing caller
  rcases semaphore_signal_added sound.placed p id (thread_semaphore_unblocked sound id) with
    same | counted | ⟨woken, thread, nice, signalled, first, listed, added⟩
  · rw [Machine.update, same, map_some, some.injEq] at done
    rw [← done]
    exact ⟨place, sound⟩
  · rw [Machine.update, counted, map_some, some.injEq] at done
    rw [← done]
    exact ⟨place, set_semaphore_sound sound executing id _⟩
  · rw [Machine.update, signalled, map_some, some.injEq] at done
    subst done
    exact ⟨_, woken_sound sound added ⟨id, .inl rfl⟩ listed (step.2 thread first) (fun _ _ => rfl)
      (by simp [executing]) (by simp [executing]) rfl (by simp [ProcessorSound, executing])⟩

theorem signal_dead_sound (step : Event.PatientSteps machine (.signalDead p) after) :
    ∃ moved, Sound after moved := by
  obtain ⟨⟨_, done⟩, patient⟩ := step
  simp only [Event.run] at done
  split at done
  case h_2 => cases done
  rename_i exiting
  have vacant := sound.processors p
  simp only [ProcessorSound, exiting] at vacant
  have phase : ∀ scheduler, (machine.enter p .switching scheduler).phase p = .switching :=
    fun _ => update_self _ _ _
  rcases semaphore_signal_added sound.placed p deadThreadsSemaphore
      (thread_semaphore_unblocked sound _) with
    same | counted | ⟨woken, thread, nice, signalled, first, listed, added⟩
  · rw [same, map_some, some.injEq] at done
    rw [← done]
    refine ⟨place, enter_sound sound sound.placed (keeps_refl _) rfl rfl
      (by simp [exiting]) (by simp) ?_⟩
    simp only [ProcessorSound, phase]
    exact vacant
  · rw [counted, map_some, some.injEq] at done
    rw [← done]
    refine ⟨place, enter_sound sound (placed_fields sound.placed) ⟨rfl, rfl, rfl⟩ rfl rfl (by simp
      [exiting]) (by simp) ?_⟩
    simp only [ProcessorSound, phase]
    exact vacant
  · rw [signalled, map_some, some.injEq] at done
    subst done
    refine ⟨_, woken_sound sound added
      ⟨_, .inl rfl⟩ listed (patient thread first) ?_ (by simp [exiting]) (by simp [phase]) rfl ?_⟩
    · intro q different
      exact update_of_ne different _ _
    · simp only [ProcessorSound, phase]
      have same : woken.current p = machine.scheduler.current p :=
        congrArg (fun states => (states p).currentThread) added.processors
      exact same.trans vacant

theorem wake_sound (step : Event.PatientSteps machine (.wake p id) after) :
    ∃ moved, Sound after moved := by
  obtain ⟨_, caller, done⟩ := bind_eq_some_iff.mp step.1.2
  have executing := caller_executing caller
  by_cases empty : (machine.scheduler.lists (.futex id)).count = 0
  · rw [Machine.update, Scheduler.futexWake, if_pos empty, map_some, some.injEq] at done
    rw [← done]
    exact ⟨place, sound⟩
  · obtain ⟨woken, thread, nice, popped, pushed, first, listed, added⟩ :=
      futex_wake_one_added sound.placed p id empty
    rw [Machine.update, Scheduler.futexWake, if_neg empty] at done
    simp only [popped, pushed, bind_some, Scheduler.futexWake, map_some, some.injEq] at done
    subst done
    exact ⟨_, woken_sound sound added ⟨id, .inr rfl⟩ listed (step.2 thread first) (fun _ _ => rfl)
      (by simp [executing]) (by simp [executing]) rfl (by simp [ProcessorSound, executing])⟩

theorem remove_sound (step : Event.PatientSteps machine (.remove p id thread) after) :
    ∃ moved, Sound after moved := by
  obtain ⟨_, caller, done⟩ := bind_eq_some_iff.mp step.1.2
  have executing := caller_executing caller
  by_cases blocked : machine.scheduler.blockedFutex thread = some id
  · have listed := ((sound.threads thread).futex id).mp blocked
    obtain ⟨woken, nice, removed, added⟩ := futex_remove_added sound.placed p id thread blocked listed
    rw [Machine.update, removed, map_some, some.injEq] at done
    subst done
    exact ⟨_, woken_sound sound added ⟨id, .inr rfl⟩ listed (step.2 blocked) (fun _ _ => rfl) (by
      simp [executing]) (by simp [executing]) rfl (by simp [ProcessorSound, executing])⟩
  · rw [Machine.update, Scheduler.futexRemove, if_neg blocked, map_some, some.injEq] at done
    rw [← done]
    exact ⟨place, sound⟩

theorem handle_dead_sound (step : Event.Steps machine (.handleDead p) after) :
    ∃ moved, Sound after moved := by
  obtain ⟨thread, caller, done⟩ := bind_eq_some_iff.mp step.2
  obtain ⟨executing, running⟩ := caller_running sound caller step.1
  unfold handleDeadThreads at done
  cases nodes : machine.scheduler.contents .dead with
  | nil =>
    rw [pop_empty sound.placed _ nodes] at done
    exact semaphore_wait_sound sound executing running done
  | cons dead rest =>
    obtain ⟨popped, listed, now, keeps⟩ := pop_placed sound.placed _ dead rest nodes
    have unblocked := thread_unblocked (sound.threads dead) (by simp [listed])
    have field : ((machine.scheduler.pop .dead).1.setScheduled dead false).blockedFutex dead =
      none := unblocked
    rw [popped] at done
    simp only [field, some.injEq] at done
    subst done
    have placed : Placed ((machine.scheduler.pop .dead).1.setScheduled dead false)
        (update place dead .nowhere) :=
      placed_fields now
    refine ⟨_, move_sound sound p dead .nowhere placed rfl (fun _ _ => rfl) (fun _ _ => rfl) ?_
      ⟨?_, ?_, ?_⟩ (by simp [ProcessorSound, executing]) (by simp [executing])⟩
    · intro other different
      exact ⟨rfl, rfl, rfl, update_of_ne different _ _, rfl, by simp [executing]⟩
    · intro q _
      exact not_leaving sound dead (by simp [listed, Place.Waits]) (by simp [listed]) q
    · intro q _
      simp [listed]
    · refine ⟨fun _ => .inl rfl, ?_, by simp [Place.Queued], by simp [Place.Waits]⟩
      intro id
      rw [field]
      simp

theorem schedule_sound {target : Option (Fin n)}
    (step : Event.Steps machine (.schedule p thread target) after) :
    ∃ moved, Sound after moved := by
  obtain ⟨legal, done⟩ := step
  simp only [Event.run] at done
  split_ifs at done with calls
  have known := sound.threads thread
  have away : place thread = .nowhere := by
    rcases known.fresh legal.1 with away | idle
    · exact away
    · obtain ⟨q, same⟩ := (sound.placed.idle thread).mp idle
      exact absurd same (legal.2 q)
  have free : ∀ q saved, machine.phase q ≠ .leaving thread saved := by
    intro q saved leaving
    have processor := sound.processors q
    simp only [ProcessorSound, leaving] at processor
    have scheduled := processor.2.1.scheduled
    rw [legal.1] at scheduled
    cases scheduled
  have here : ∀ other saved, machine.phase p ≠ .leaving other saved := by
    intro other saved leaving
    rw [leaving] at calls
    cases calls
  have own : ∀ after moved, after.phase p = machine.phase p →
      after.scheduler.current p = machine.scheduler.current p → ProcessorSound after moved p := by
    intro after moved phase current
    have processor := sound.processors p
    unfold ProcessorSound at processor ⊢
    rw [phase, current]
    cases now : machine.phase p with
    | booting =>
      simp only [now] at processor ⊢
      exact processor
    | executing => trivial
    | leaving | exiting | sleepers | interrupted | switching | picked =>
      simp [now, Phase.calls] at calls
  rcases schedule_added sound.placed p thread target away
      (thread_unblocked known (by simp [away])) with same | ⟨queued, nice, scheduled, added⟩
  · rw [same, map_some, some.injEq] at done
    subst done
    have still : update place thread .nowhere = place := by
      rw [← away, update_eq_self]
    refine ⟨update place thread .nowhere, move_sound sound p thread .nowhere ?_ rfl
      (fun _ _ => rfl) (fun _ _ => rfl) ?_ ⟨?_, ?_, ?_⟩ (own _ _ rfl rfl)
      (fun other early leaving => absurd leaving (here other early))⟩
    · rw [still]
      exact sound.placed
    · intro other different
      exact ⟨rfl, update_of_ne different _ _, rfl, rfl, rfl, id⟩
    · exact fun q _ => free q
    · intro q _
      simp [away]
    · refine ⟨fun _ => .inl rfl, ?_, by simp [Place.Queued], by simp [Place.Waits]⟩
      rw [← away]
      exact known.futex
  · rw [scheduled, map_some, some.injEq] at done
    subst done
    refine ⟨_, added_sound sound added (fun _ _ => rfl) here here ?_ ?_ free ?_ (own _ _ rfl ?_)⟩
    · intro other different
      exact update_of_ne different _ _
    · exact update_self _ _ _
    · intro q
      simp [away]
    · exact congrArg (fun states => (states p).currentThread) added.processors

theorem save_sound (done : Event.run machine (.save p) = some after) : Sound after place := by
  simp only [Event.run] at done
  split at done
  case h_2 => cases done
  rename_i thread leaving
  rw [← Option.some.inj done]
  have processor := sound.processors p
  simp only [ProcessorSound, leaving] at processor
  obtain ⟨vacant, left, _⟩ := processor
  have known := sound.threads thread
  have free : ∀ q, q ≠ p → ∀ saved, machine.phase q ≠ .leaving thread saved := by
    intro q different saved other
    exact different (sound.alone q p thread saved false other leaving)
  have still : update place thread (place thread) = place := update_eq_self _ _
  rw [← still]
  refine move_sound sound p thread (place thread) ?_ rfl ?_ (fun _ _ => rfl) ?_ ⟨free, ?_, ?_⟩ ?_ ?_
  · rw [still]
    exact sound.placed
  · intro q different
    exact update_of_ne different _ _
  · intro other different
    refine ⟨rfl, update_of_ne different _ _, rfl, rfl, rfl, ?_⟩
    intro same
    rw [leaving] at same
    cases same
    exact absurd rfl different
  · intro q _
    rcases leaving_place sound leaving with ⟨id, waits | waits⟩ | away <;> simp [*]
  · exact ⟨known.fresh, known.futex, fun _ => update_self _ _ _, fun _ => .inl (update_self _ _ _)⟩
  · rw [still]
    simp only [ProcessorSound, enter, update_self]
    exact ⟨vacant, ⟨left.scheduled, left.niced, left.where'⟩, fun _ => trivial⟩
  · intro other saved same
    simp only [enter, update_self, Phase.leaving.injEq] at same
    rw [← same.1]
    exact free

theorem yield_sound (done : Event.run machine (.yield p) = some after) :
    ∃ moved, Sound after moved := by
  simp only [Event.run] at done
  split at done
  case h_2 => cases done
  rename_i thread leaving
  have processor := sound.processors p
  simp only [ProcessorSound, leaving] at processor
  obtain ⟨vacant, left, stored⟩ := processor
  have phase : ∀ scheduler, (machine.enter p .switching scheduler).phase p = .switching :=
    fun _ => update_self _ _ _
  unfold yield at done
  rcases left.where' with ⟨_, awake⟩ | ⟨away, asleep⟩
  · rw [if_neg (by omega)] at done
    have switched : Sound (machine.enter p .switching machine.scheduler) place := by
      refine enter_sound sound sound.placed (keeps_refl _) rfl rfl (by simp [leaving]) (by simp) ?_
      simp only [ProcessorSound, phase]
      exact vacant
    exact select_sound switched (phase _) done
  · obtain ⟨queued, pushed, now, _, _, keeps, processors, sleep⟩ := push_placed sound.placed
      (.sleeping p) thread away left.niced (by simp)
    rw [if_pos asleep, pushed, bind_some] at done
    have known := sound.threads thread
    have switched : Sound (machine.enter p .switching queued)
        (update place thread (.listed (.sleeping p))) := by
      refine move_sound sound p thread _ now keeps.nice ?_ ?_ ?_ ⟨?_, ?_, ?_⟩ ?_ (by simp [phase])
      · intro q different
        exact update_of_ne different _ _
      · intro q _
        exact congrFun processors q
      · intro other different
        refine ⟨rfl, rfl, congrFun sleep other, congrFun keeps.scheduled other,
          congrFun keeps.blockedFutex other, by simp [leaving]⟩
      · intro q different saved other
        exact different (sound.alone q p thread saved true other leaving)
      · intro q _
        simp [away]
      · refine active_sound ?_ ?_ (by simp [Place.Waits]) (fun _ => stored trivial)
        · rw [← left.scheduled]
          exact congrFun keeps.scheduled thread
        · rw [← thread_unblocked known (by simp [away])]
          exact congrFun keeps.blockedFutex thread
      · simp only [ProcessorSound, phase]
        have same : queued.current p = machine.scheduler.current p :=
          congrArg (fun states => (states p).currentThread) processors
        exact same.trans vacant
    exact select_sound switched (phase _) done

theorem tick_sound {ms : Nat} (done : Event.run machine (.tick p ms) = some after) :
    Sound after place := by
  obtain ⟨_, caller, result⟩ := map_eq_some_iff.mp done
  have executing := caller_executing caller
  rw [← result]
  split_ifs
  · exact sound
  refine enter_sound sound sound.placed (keeps_refl _) rfl rfl (by simp [executing]) (by simp) ?_
  simp only [ProcessorSound, enter, update_self]
  rw [list_head sound.placed]
  cases nodes : machine.scheduler.contents (.sleeping p) with
  | nil => trivial
  | cons thread rest =>
    simp only [head?_cons]
    rw [← sound.placed.members, nodes]
    exact mem_cons_self

theorem wake_sleeper_sound (done : Event.run machine (.wakeSleeper p) = some after) :
    ∃ moved, Sound after moved := by
  simp only [Event.run] at done
  split at done
  case h_2 => cases done
  rename_i ms next count sleepers
  have finished : Sound (machine.enter p (.interrupted ms) machine.scheduler) place := by
    refine enter_sound sound sound.placed (keeps_refl _) rfl rfl (by simp [sleepers]) (by simp) ?_
    simp only [ProcessorSound, enter, update_self]
  cases next with
  | none =>
    rw [wakeSleeper] at done
    · rw [← Option.some.inj done]
      exact ⟨place, finished⟩
    · simp
  | some thread =>
    cases count with
    | zero =>
      rw [wakeSleeper] at done
      · rw [← Option.some.inj done]
        exact ⟨place, finished⟩
      · simp
    | succ count =>
      have listed := sound.processors p
      simp only [ProcessorSound, sleepers] at listed
      have member := (sound.placed.members _ _).mpr listed
      obtain ⟨left, right, middle⟩ := append_of_mem member
      have distinct := (sound.placed.holds (.sleeping p)).distinct
      rw [middle, nodup_middle, nodup_cons] at distinct
      have follows := links_next sound.placed middle
      -- the next thread is another one of the same list
      have later : ∀ other, right.head? = some other →
          other ≠ thread ∧ place other = .listed (.sleeping p) := by
        intro other first
        have inside : other ∈ right := mem_of_mem_head? first
        constructor
        · rintro rfl
          exact distinct.1 (mem_append_right _ inside)
        · rw [← sound.placed.members, middle]
          simp [inside]
      have known := sound.threads thread
      have free := not_leaving sound thread (by simp [listed, Place.Waits]) (by simp [listed])
      have mine : ∀ q, q ≠ p →
          place thread ≠ .running q ∧ place thread ≠ .listed (.sleeping q) := by
        intro q different
        simp [listed, different.symm]
      have own : ∀ scheduler target, ProcessorSound
          (machine.enter p (.sleepers ms right.head? count) scheduler)
          (update place thread target) p := by
        intro scheduler target
        simp only [ProcessorSound, enter, update_self]
        cases first : right.head? with
        | none => trivial
        | some other =>
          simp only
          rw [update_of_ne (later other first).1]
          exact (later other first).2
      rw [wakeSleeper, follows] at done
      simp only [Scheduler.wakeSleepers] at done
      split_ifs at done with due
      · obtain ⟨nice, removed, queued, level, unlinked, pushed, now, _, keeps, processors, sleep⟩ :=
          sleeper_woken sound.placed p thread left right middle
        simp only [level, unlinked, pushed, bind_some, map_some, some.injEq] at done
        rw [← done]
        refine ⟨_, move_sound sound p thread _ now keeps.nice ?_ ?_ ?_ ⟨?_, mine, ?_⟩ (own _ _) ?_⟩
        · intro q different
          exact update_of_ne different _ _
        · intro q _
          exact congrFun processors q
        · intro other different
          refine ⟨rfl, rfl, ?_, congrFun keeps.scheduled other,
            congrFun keeps.blockedFutex other, by simp [sleepers]⟩
          exact (congrFun sleep other).trans (update_of_ne different _ _)
        · exact fun q _ => free q
        · exact kept_active known keeps (by simp [listed]) (by simp [listed]) (by simp [listed])
            (by simp [Place.Waits]) fun _ => known.queued ⟨p, .inr listed⟩
        · simp [enter]
      · rw [map_some, some.injEq] at done
        rw [← done]
        have still : update place thread (place thread) = place := update_eq_self _ _
        refine ⟨update place thread (place thread), move_sound sound p thread _ ?_ rfl ?_
          (fun _ _ => rfl) ?_ ⟨fun q _ => free q, mine, ?_⟩ (own _ _) ?_⟩
        · rw [still]
          exact placed_fields sound.placed
        · intro q different
          exact update_of_ne different _ _
        · intro other different
          exact ⟨rfl, rfl, update_of_ne different _ _, rfl, rfl, by simp [sleepers]⟩
        · refine ⟨known.fresh, known.futex, known.queued, ?_⟩
          simp [listed, Place.Waits]
        · simp [enter]

theorem interrupt_sound (done : Event.run machine (.interrupt p) = some after) :
    ∃ moved, Sound after moved := by
  simp only [Event.run] at done
  split at done
  case h_2 => cases done
  rename_i ms interrupted
  unfold interrupt at done
  cases current : machine.scheduler.current p with
  | none =>
    rw [current] at done
    rw [← Option.some.inj done]
    refine ⟨place, enter_sound sound sound.placed (keeps_refl _) rfl rfl
      (by simp [interrupted]) (by simp) ?_⟩
    simp only [ProcessorSound, enter, update_self]
    exact current
  | some thread =>
    have timed : Placed (machine.scheduler.setTimeRemaining thread
        (machine.scheduler.timeRemaining thread - ms)) place :=
      placed_fields sound.placed
    rw [current] at done
    simp only at done
    split_ifs at done
    · rw [← Option.some.inj done]
      refine ⟨place, enter_sound sound timed ⟨rfl, rfl, rfl⟩ rfl rfl
        (by simp [interrupted]) (by simp) ?_⟩
      simp only [ProcessorSound, enter, update_self]
    · obtain ⟨queued, target, requeued, now, moves, keeps, spares, vacant⟩ :=
        requeue_placed timed p thread current
      rw [requeued, map_some, some.injEq] at done
      rw [← done]
      have known := sound.threads thread
      have placeCases := seated_place sound current
      refine ⟨_, move_sound sound p thread target now keeps.nice ?_ ?_ ?_
        (seated_touched sound placeCases ?_) ?_ ?_⟩
      · intro q different
        exact update_of_ne different _ _
      · intro q different
        exact spares.processors q different
      · intro other different
        exact ⟨rfl, update_of_ne different _ _, congrFun spares.sleepRemainingTime other, congrFun
          keeps.scheduled other, congrFun keeps.blockedFutex other, by simp [interrupted]⟩
      · have unblocked : queued.blockedFutex thread = none := by
          rw [keeps.blockedFutex]
          refine thread_unblocked known ?_
          rcases placeCases with here | here <;> simp [here]
        have stored : update machine.saved thread true thread = true := update_self _ _ _
        rcases moves with ⟨_, rfl⟩ | ⟨running, nice, rfl⟩
        · refine ⟨fun _ => .inr rfl, ?_, fun _ => stored, by simp [Place.Waits]⟩
          intro id
          have field : ({ machine.enter p .switching queued with
            saved := update machine.saved thread true } :
              Machine n Thread).scheduler.blockedFutex thread = none := unblocked
          rw [field]
          simp
        · exact kept_active known keeps (by simp [running]) (by simp [running]) (by simp [running])
            (by simp [Place.Waits]) fun _ => stored
      · simp only [ProcessorSound, enter, update_self]
        exact vacant
      · simp [enter]

theorem run_thread_sound (done : Event.run machine (.runThread p) = some after) :
    ∃ moved, Sound after moved := by
  simp only [Event.run] at done
  split at done
  case h_2 => cases done
  rename_i picked
  obtain ⟨thread, current, result⟩ := map_eq_some_iff.mp done
  rw [← result]
  have known := sound.threads thread
  have placeCases := seated_place sound current
  have still : update place thread (place thread) = place := update_eq_self _ _
  refine ⟨update place thread (place thread), move_sound sound p thread _ ?_ rfl ?_
    (fun _ _ => rfl) ?_ (seated_touched sound placeCases ?_) ?_ ?_⟩
  · rw [still]
    exact sound.placed
  · intro q different
    exact update_of_ne different _ _
  · intro other different
    exact ⟨rfl, update_of_ne different _ _, rfl, rfl, rfl, by simp [picked]⟩
  · refine ⟨known.fresh, known.futex, ?_, ?_⟩
    · rcases placeCases with here | here <;> simp [here, Place.Queued]
    · rcases placeCases with here | here <;> simp [here, Place.Waits]
  · simp only [ProcessorSound, enter, update_self]
  · simp [enter]

end

theorem event_sound (sound : Sound before place) {event : Event n Thread}
    (step : Event.PatientSteps before event after) : ∃ moved, Sound after moved := by
  cases event with
  | schedule p thread target => exact schedule_sound sound step.1
  | start p bootstrap => exact start_sound sound step.1.2
  | wait p id =>
    obtain ⟨thread, caller, waited⟩ := bind_eq_some_iff.mp step.1.2
    obtain ⟨executing, running⟩ := caller_running sound caller step.1.1
    exact semaphore_wait_sound sound executing running waited
  | futexWait p id => exact futex_wait_sound sound step.1
  | sleep p ms => exact sleep_sound sound step.1
  | exit p => exact exit_sound sound step.1
  | signalDead p => exact signal_dead_sound sound step
  | handleDead p => exact handle_dead_sound sound step.1
  | signal p id => exact signal_sound sound step
  | wake p id => exact wake_sound sound step
  | remove p id thread => exact remove_sound sound step
  | save p => exact ⟨place, save_sound sound step.1.2⟩
  | yield p => exact yield_sound sound step.1.2
  | tick p ms => exact ⟨place, tick_sound sound step.1.2⟩
  | wakeSleeper p => exact wake_sleeper_sound sound step.1.2
  | interrupt p => exact interrupt_sound sound step.1.2
  | select p =>
    obtain ⟨⟨_, done⟩, _⟩ := step
    simp only [Event.run] at done
    split at done
    case h_2 => cases done
    rename_i switching
    exact select_sound sound switching done
  | runThread p => exact run_thread_sound sound step.1.2

end Events

section Runs

/-- Nothing has been scheduled and no processor has started. -/
structure Machine.Initial (machine : Machine n Thread) : Prop where
  scheduler : Scheduling.Initial machine.scheduler
  phase : ∀ p, machine.phase p = .booting

variable {machine : Machine n Thread}

theorem initial_sound (initial : machine.Initial) : ∃ place, Sound machine place := by
  obtain ⟨place, ordered⟩ := initial_ordered initial.scheduler
  have nothing : ∀ thread, place thread = .nowhere ∨ place thread = .idle := by
    intro thread
    have unscheduled := ordered.scheduled thread
    rw [initial.scheduler.scheduled] at unscheduled
    by_contra somewhere
    rw [not_or] at somewhere
    exact absurd (unscheduled.mpr somewhere) (by simp)
  refine ⟨place, ordered.placed, ?_, ?_, ?_⟩
  · intro thread
    refine ⟨fun _ => nothing thread, ordered.futex thread, ?_, ?_⟩
    · rcases nothing thread with here | here <;> simp [here, Place.Queued]
    · rcases nothing thread with here | here <;> simp [here, Place.Waits]
  · intro p
    simp only [ProcessorSound, initial.phase p]
    exact initial.scheduler.current p
  · intro p q thread early late leaving
    rw [initial.phase p] at leaving
    cases leaving

theorem sound_safe {place : Thread → Place n} (sound : Sound machine place) : machine.Safe := by
  constructor
  · intro p q thread seated leaving
    rcases leaving_place sound leaving with ⟨id, waits | waits⟩ | away <;>
      rcases seated_place sound seated with here | here <;> simp_all
  · intro p thread picked seated different
    have processor := sound.processors p
    simp only [ProcessorSound, picked] at processor
    exact processor thread seated different
  · intro p q thread notIdle first second
    have running : ∀ r, machine.scheduler.current r = some thread → place thread = .running r := by
      intro r seated
      exact (sound.placed.running r thread).mpr ⟨seated, (notIdle r).symm⟩
    have away : ∀ r s, machine.scheduler.current r = some thread →
        machine.phase s ≠ .leaving thread false := by
      intro r s seated
      have here := running r seated
      exact not_leaving sound thread (by simp [here, Place.Waits]) (by simp [here]) s false
    rcases first with ⟨_, here⟩ | here <;> rcases second with ⟨_, there⟩ | there
    · have same := (running p here).symm.trans (running q there)
      cases same
      rfl
    · exact absurd there (away p q here)
    · exact absurd here (away q p there)
    · exact sound.alone p q thread false false here there

/-- In a run in which every thread that is taken off a wait queue has been left by its
processor, a thread is selected and executed only by one processor, and after its
registers have been saved. -/
theorem blocked_thread_saved_first {start final : Machine n Thread} {events : List (Event n Thread)}
    (initial : start.Initial) (run : Run Event.PatientSteps start events final) : final.Safe := by
  have invariant := run_invariant (fun machine => ∃ place, Sound machine place)
    (fun before event after sound step => by
      obtain ⟨place, sound⟩ := sound
      exact event_sound sound step) (initial_sound initial) run
  obtain ⟨place, sound⟩ := invariant
  exact sound_safe sound

def twoBooting : Machine 2 Nat where
  scheduler := twoProcessors
  phase := fun _ => .booting
  saved := fun _ => false

theorem two_booting_initial : twoBooting.Initial :=
  ⟨⟨fun _ => rfl, fun _ => rfl, fun _ => rfl, fun _ => rfl, fun _ => rfl, rfl⟩, fun _ => rfl⟩

/-- The processor of the waiting thread has gone on to its idle thread when the other
processor signals. -/
theorem blocked_thread_saved_first_late_signal :
    ∃ final, Run Event.PatientSteps twoBooting
        [.schedule 0 2 none, .schedule 1 3 none, .start 0 true, .runThread 0, .start 1 false,
          .runThread 1, .wait 0 1, .save 0, .yield 0, .runThread 0, .signal 1 1, .tick 1 10,
          .wakeSleeper 1, .interrupt 1, .select 1, .runThread 1] final ∧
      final.scheduler.current 1 = some 2 ∧ final.Safe := by
  refine exists_run_of (fun final => final.scheduler.current 1 = some 2)
    ⟨_, run_cons ⟨⟨⟨rfl, by decide⟩, rfl⟩, trivial⟩ (run_cons ⟨⟨⟨rfl, by decide⟩, rfl⟩, trivial⟩
      (run_cons ⟨⟨trivial, rfl⟩, trivial⟩ (run_cons ⟨⟨trivial, rfl⟩, trivial⟩
      (run_cons ⟨⟨trivial, rfl⟩, trivial⟩ (run_cons ⟨⟨trivial, rfl⟩, trivial⟩
      (run_cons ⟨⟨⟨2, rfl, by decide⟩, rfl⟩, trivial⟩ (run_cons ⟨⟨trivial, rfl⟩, trivial⟩
      (run_cons ⟨⟨trivial, rfl⟩, trivial⟩ (run_cons ⟨⟨trivial, rfl⟩, trivial⟩
      (run_cons ⟨⟨trivial, rfl⟩, fun _ _ p _ => by fin_cases p <;> nofun⟩
      (run_cons ⟨⟨trivial, rfl⟩, trivial⟩ (run_cons ⟨⟨trivial, rfl⟩, trivial⟩
      (run_cons ⟨⟨trivial, rfl⟩, trivial⟩ (run_cons ⟨⟨trivial, rfl⟩, trivial⟩
      (run_cons ⟨⟨trivial, rfl⟩, trivial⟩ (Run.nil _)))))))))))))))), rfl⟩ ?_
  intro final run current
  exact ⟨current, blocked_thread_saved_first two_booting_initial run⟩

/-- The other processor signals and selects the waiting thread before its registers are saved. -/
theorem blocked_thread_selected_unsaved :
    ∃ final, Run Event.Steps twoBooting
        [.schedule 0 2 none, .schedule 1 3 none, .start 0 true, .runThread 0, .start 1 false,
          .runThread 1, .wait 0 1, .signal 1 1, .tick 1 10, .wakeSleeper 1, .interrupt 1, .select 1,
          .runThread 1] final ∧
      final.Executes 0 2 ∧ final.Executes 1 2 ∧ ¬ final.Safe := by
  refine exists_run_of (fun final => final.phase 0 = .leaving 2 false ∧ final.phase 1 = .executing ∧
      final.scheduler.current 1 = some 2)
    ⟨_, run_cons ⟨⟨rfl, by decide⟩, rfl⟩ (run_cons ⟨⟨rfl, by decide⟩, rfl⟩
      (run_cons ⟨trivial, rfl⟩ (run_cons ⟨trivial, rfl⟩ (run_cons ⟨trivial, rfl⟩
      (run_cons ⟨trivial, rfl⟩ (run_cons ⟨⟨2, rfl, by decide⟩, rfl⟩ (run_cons ⟨trivial, rfl⟩
      (run_cons ⟨trivial, rfl⟩ (run_cons ⟨trivial, rfl⟩ (run_cons ⟨trivial, rfl⟩
      (run_cons ⟨trivial, rfl⟩ (run_cons ⟨trivial, rfl⟩ (Run.nil _))))))))))))), rfl, rfl, rfl⟩ ?_
  rintro final run ⟨leaving, executing, current⟩
  refine ⟨.inr leaving, .inl ⟨by simp [executing], current⟩, ?_⟩
  intro safe
  exact safe.selected 1 0 2 current leaving

end Runs
end FrostyKernel.Scheduling
