import FrostyKernel.Scheduling.ContextSave

/-!
# What the steps of the processors keep

Each processor is concerned with at most one thread. A step of one processor moves
threads that are none of the others', so what holds of the others goes on to hold.
-/

namespace FrostyKernel.Scheduling

open Function Option

variable {n : Nat} {Thread : Type} [DecidableEq Thread]

section Invariant

def Place.Waits (place : Place n) : Prop :=
  ∃ id, place = .listed (.semaphore id) ∨ place = .listed (.futex id)

def Place.Queued (place : Place n) : Prop :=
  ∃ p, (∃ nice, place = .listed (.run p nice)) ∨ place = .listed (.sleeping p)

section
variable (machine : Machine n Thread) (place : Thread → Place n)

structure ThreadSound (place : Place n) (thread : Thread) : Prop where
  fresh : machine.scheduler.scheduled thread = false → place = .nowhere ∨ place = .idle
  futex : ∀ id, machine.scheduler.blockedFutex thread = some id ↔ place = .listed (.futex id)
  queued : place.Queued → machine.saved thread = true
  waiting : place.Waits → machine.saved thread = true ∨ ∃ p, machine.phase p = .leaving thread false

/-- A thread that leaves is on its wait queue, or about to be put on the sleeping list. -/
structure LeavingSound (place : Place n) (thread : Thread) : Prop where
  scheduled : machine.scheduler.scheduled thread = true
  niced : machine.scheduler.Niced thread
  where' : (place.Waits ∧ machine.scheduler.sleepRemainingTime thread = 0) ∨
    (place = .nowhere ∧ 0 < machine.scheduler.sleepRemainingTime thread)

def ProcessorSound (p : Fin n) : Prop :=
  match machine.phase p with
  | .booting | .exiting | .switching => machine.scheduler.current p = none
  | .leaving thread saved => machine.scheduler.current p = none ∧
      LeavingSound machine (place thread) thread ∧ (saved = true → machine.saved thread = true)
  | .picked => ∀ thread, machine.scheduler.current p = some thread →
      thread ≠ machine.scheduler.idle p → machine.saved thread = true
  | .sleepers _ (some thread) _ => place thread = .listed (.sleeping p)
  | .sleepers _ none _ | .executing | .interrupted _ => True

structure Sound : Prop where
  placed : Placed machine.scheduler place
  threads : ∀ thread, ThreadSound machine (place thread) thread
  processors : ∀ p, ProcessorSound machine place p
  alone : ∀ p q thread early late, machine.phase p = .leaving thread early →
    machine.phase q = .leaving thread late → p = q

end

/-- The step leaves the thread where it is, with all its fields. -/
structure Untouched (before after : Machine n Thread) (was is : Place n) (p : Fin n)
    (thread : Thread) : Prop where
  place : is = was
  saved : after.saved thread = before.saved thread
  sleep : after.scheduler.sleepRemainingTime thread = before.scheduler.sleepRemainingTime thread
  scheduled : after.scheduler.scheduled thread = before.scheduler.scheduled thread
  futex : after.scheduler.blockedFutex thread = before.scheduler.blockedFutex thread
  stays : before.phase p = .leaving thread false → after.phase p = .leaving thread false

/-- The step of `p` moves the thread, which is none of another processor. -/
structure Touched (before after : Machine n Thread) (was is : Place n) (p : Fin n)
    (thread : Thread) : Prop where
  free : ∀ q, q ≠ p → ∀ saved, before.phase q ≠ .leaving thread saved
  mine : ∀ q, q ≠ p → was ≠ .running q ∧ was ≠ .listed (.sleeping q)
  sound : ThreadSound after is thread

variable {after before machine : Machine n Thread} {thread : Thread} {place : Thread → Place n}
  {p : Fin n} {scheduler : Scheduler n Thread} {moved : Thread → Place n}

omit [DecidableEq Thread] in
theorem untouched_thread {was is : Place n} (untouched : Untouched before after was is p thread)
    (others : ∀ q, q ≠ p → after.phase q = before.phase q) (sound : ThreadSound before was thread) :
    ThreadSound after is thread := by
  rw [untouched.place]
  constructor
  · rw [untouched.scheduled]
    exact sound.fresh
  · rw [untouched.futex]
    exact sound.futex
  · rw [untouched.saved]
    exact sound.queued
  · intro waits
    rw [untouched.saved]
    rcases sound.waiting waits with saved | ⟨q, leaving⟩
    · exact .inl saved
    · right
      by_cases self : q = p
      · subst self
        exact ⟨q, untouched.stays leaving⟩
      · exact ⟨q, (others q self).trans leaving⟩

/-- A step of the processor `p`. -/
theorem step_sound (sound : Sound before place) (placed : Placed after.scheduler moved)
    (nice : after.scheduler.nice = before.scheduler.nice)
    (phases : ∀ q, q ≠ p → after.phase q = before.phase q)
    (currents : ∀ q, q ≠ p → after.scheduler.current q = before.scheduler.current q)
    (idles : ∀ q, q ≠ p → after.scheduler.idle q = before.scheduler.idle q)
    (threads : ∀ thread, Untouched before after (place thread) (moved thread) p thread ∨
      Touched before after (place thread) (moved thread) p thread)
    (own : ProcessorSound after moved p)
    (alone : ∀ thread saved, after.phase p = .leaving thread saved →
      ∀ q, q ≠ p → ∀ other, before.phase q ≠ .leaving thread other) : Sound after moved := by
  constructor
  · exact placed
  · intro thread
    rcases threads thread with untouched | touched
    · exact untouched_thread untouched phases (sound.threads thread)
    · exact touched.sound
  · intro q
    by_cases self : q = p
    · subst self
      exact own
    have was := sound.processors q
    unfold ProcessorSound at was ⊢
    rw [phases q self, currents q self, idles q self]
    -- the thread the other processor is concerned with has not been touched
    cases phase : before.phase q with
    | booting | exiting | switching =>
      simp only [phase] at was ⊢
      exact was
    | executing | interrupted => trivial
    | leaving thread saved =>
      simp only [phase] at was ⊢
      obtain ⟨vacant, leaving, stored⟩ := was
      rcases threads thread with untouched | touched
      · refine ⟨vacant, ⟨?_, ?_, ?_⟩, ?_⟩
        · rw [untouched.scheduled]
          exact leaving.scheduled
        · exact niced_congr nice leaving.niced
        · rw [untouched.sleep, untouched.place]
          exact leaving.where'
        · rw [untouched.saved]
          exact stored
      · exact absurd phase (touched.free q self saved)
    | picked =>
      simp only [phase] at was ⊢
      intro thread current different
      rcases threads thread with untouched | touched
      · rw [untouched.saved]
        exact was thread current different
      · have running := (sound.placed.running q thread).mpr ⟨current, different⟩
        exact absurd running (touched.mine q self).1
    | sleepers ms next count =>
      simp only [phase] at was ⊢
      cases next with
      | none => trivial
      | some thread =>
        simp only at was ⊢
        rcases threads thread with untouched | touched
        · rw [untouched.place]
          exact was
        · exact absurd was (touched.mine q self).2
  · intro q r thread early late first second
    by_cases left : q = p
    · by_cases right : r = p
      · rw [left, right]
      · subst left
        rw [phases r right] at second
        exact absurd second (alone thread early first r right late)
    · rw [phases q left] at first
      by_cases right : r = p
      · subst right
        exact absurd first (alone thread late second q left early)
      · rw [phases r right] at second
        exact sound.alone q r thread early late first second

section
omit [DecidableEq Thread]

/-- A thread in an active place that does not wait. -/
theorem active_sound {place : Place n} (scheduled : machine.scheduler.scheduled thread = true)
    (unblocked : machine.scheduler.blockedFutex thread = none) (elsewhere : ¬ place.Waits)
    (queued : place.Queued → machine.saved thread = true) : ThreadSound machine place thread := by
  constructor
  · intro fresh
    rw [scheduled] at fresh
    cases fresh
  · intro id
    rw [unblocked]
    refine iff_of_false (by simp) ?_
    rintro rfl
    exact elsewhere ⟨id, .inr rfl⟩
  · exact queued
  · exact fun waits => absurd waits elsewhere

theorem thread_scheduled {place : Place n} (sound : ThreadSound machine place thread)
    (somewhere : place ≠ .nowhere) (notIdle : place ≠ .idle) :
    machine.scheduler.scheduled thread = true := by
  cases scheduled : machine.scheduler.scheduled thread with
  | true => rfl
  | false =>
    rcases sound.fresh scheduled with away | idle
    · exact absurd away somewhere
    · exact absurd idle notIdle

theorem thread_unblocked {place : Place n} (sound : ThreadSound machine place thread)
    (elsewhere : ∀ id, place ≠ .listed (.futex id)) :
    machine.scheduler.blockedFutex thread = none := by
  rw [eq_none_iff_forall_ne_some]
  intro id blocked
  exact elsewhere id ((sound.futex id).mp blocked)

/-- An active thread moves to an active place. -/
theorem kept_active {was is : Place n} (sound : ThreadSound before was thread)
    (keeps : Keeps before.scheduler after.scheduler) (somewhere : was ≠ .nowhere)
    (notIdle : was ≠ .idle) (unlisted : ∀ id, was ≠ .listed (.futex id)) (elsewhere : ¬ is.Waits)
    (queued : is.Queued → after.saved thread = true) : ThreadSound after is thread := by
  refine active_sound ?_ ?_ elsewhere queued
  · rw [keeps.scheduled]
    exact thread_scheduled sound somewhere notIdle
  · rw [keeps.blockedFutex]
    exact thread_unblocked sound unlisted

end

section
variable (sound : Sound machine place)
include sound

theorem leaving_place {saved : Bool} (leaving : machine.phase p = .leaving thread saved) :
    (place thread).Waits ∨ place thread = .nowhere := by
  have processor := sound.processors p
  simp only [ProcessorSound, leaving] at processor
  rcases processor.2.1.where' with ⟨waits, _⟩ | ⟨away, _⟩
  · exact .inl waits
  · exact .inr away

theorem not_leaving (thread : Thread) (elsewhere : ¬ (place thread).Waits)
    (somewhere : place thread ≠ .nowhere) (p : Fin n) (saved : Bool) :
    machine.phase p ≠ .leaving thread saved := by
  intro leaving
  rcases leaving_place sound leaving with waits | away
  · exact elsewhere waits
  · exact somewhere away

theorem dispatch_sound (vacant : machine.scheduler.current p = none)
    (here : ∀ thread, machine.phase p ≠ .leaving thread false) (placed : Placed scheduler moved)
    (dispatches : Dispatches p place moved) (keeps : Keeps machine.scheduler scheduler)
    (sleep : scheduler.sleepRemainingTime = machine.scheduler.sleepRemainingTime)
    (currents : ∀ q, q ≠ p → scheduler.current q = machine.scheduler.current q)
    (idles : ∀ q, q ≠ p → scheduler.idle q = machine.scheduler.idle q) :
    Sound (machine.enter p .picked scheduler) moved := by
  have phase : (machine.enter p .picked scheduler).phase p = .picked := update_self _ _ _
  refine step_sound sound placed keeps.nice ?_ currents idles ?_ ?_ ?_
  · intro q different
    exact update_of_ne different _ _
  · intro thread
    rcases dispatches thread with same | ⟨⟨q, nice, queued⟩, running⟩
    · left
      refine ⟨same, rfl, congrFun sleep thread, congrFun keeps.scheduled thread,
        congrFun keeps.blockedFutex thread, ?_⟩
      intro leaving
      exact absurd leaving (here thread)
    · right
      have away : ¬ (place thread).Waits := by simp [queued, Place.Waits]
      refine ⟨fun r _ => not_leaving sound thread away (by simp [queued]) r, ?_, ?_⟩
      · intro r _
        simp [queued]
      · have known := sound.threads thread
        exact kept_active known keeps (by simp [queued]) (by simp [queued]) (by simp [queued])
          (by simp [running, Place.Waits]) (by simp [running, Place.Queued])
  · simp only [ProcessorSound, phase]
    intro thread current different
    have running := (placed.running p thread).mpr ⟨current, different⟩
    rcases dispatches thread with same | ⟨⟨q, nice, queued⟩, _⟩
    · rw [same] at running
      have before := (sound.placed.running p thread).mp running
      rw [vacant] at before
      cases before.1
    · exact (sound.threads thread).queued ⟨q, .inl ⟨nice, queued⟩⟩
  · intro thread saved leaving
    rw [phase] at leaving
    cases leaving

theorem select_sound (switching : machine.phase p = .switching)
    (done : machine.select p = some after) : ∃ moved, Sound after moved := by
  have vacant := sound.processors p
  simp only [ProcessorSound, switching] at vacant
  obtain ⟨picked, selected, moved, now, dispatches, keeps, spares, thread, seated⟩ :=
    pick_next_placed sound.placed p vacant
  have current : (picked.processors p).currentThread = some thread := seated
  have timed : Placed (picked.setTimeRemaining thread defaultTimeslice) moved := placed_fields now
  have result : machine.enter p .picked (picked.setTimeRemaining thread defaultTimeslice) =
      after := by
    simpa [Machine.select, selected, Scheduler.resume, current] using done
  rw [← result]
  exact ⟨moved, dispatch_sound sound vacant (by simp [switching]) timed dispatches keeps
    spares.sleepRemainingTime spares.current spares.idle⟩

theorem start_sound {bootstrap : Bool}
    (done : Event.run machine (.start p bootstrap) = some after) : ∃ moved, Sound after moved := by
  simp only [Event.run] at done
  split at done
  case h_2 => cases done
  rename_i booting
  have vacant := sound.processors p
  simp only [ProcessorSound, booting] at vacant
  obtain ⟨picked, selected, moved, now, dispatches, keeps, spares, _⟩ :=
    pick_next_placed sound.placed p vacant
  rw [Scheduler.start, selected, map_some, map_some, some.injEq] at done
  rw [← done]
  refine ⟨moved, ?_⟩
  split_ifs
  · exact dispatch_sound sound vacant (by simp [booting])
      (placed_congr now rfl rfl rfl rfl (fun _ => rfl) (fun _ => rfl) (fun _ => rfl)) dispatches keeps
      spares.sleepRemainingTime spares.current spares.idle
  · exact dispatch_sound sound vacant (by simp [booting]) now dispatches keeps
      spares.sleepRemainingTime spares.current spares.idle

/-- Only `p` changes its phase. -/
theorem enter_sound {phase : Phase Thread} (placed : Placed scheduler place)
    (keeps : Keeps machine.scheduler scheduler)
    (spares : scheduler.sleepRemainingTime = machine.scheduler.sleepRemainingTime)
    (processors : scheduler.processors = machine.scheduler.processors)
    (here : ∀ thread, machine.phase p ≠ .leaving thread false)
    (there : ∀ thread saved, phase ≠ .leaving thread saved)
    (own : ProcessorSound (machine.enter p phase scheduler) place p) :
    Sound (machine.enter p phase scheduler) place := by
  refine step_sound sound placed keeps.nice ?_ ?_ ?_ ?_ own ?_
  · intro q different
    exact update_of_ne different _ _
  · intro q _
    exact congrArg (fun states => (states q).currentThread) processors
  · intro q _
    exact congrArg (fun states => (states q).idleThread) processors
  · intro thread
    exact .inl ⟨rfl, rfl, congrFun spares thread, congrFun keeps.scheduled thread,
      congrFun keeps.blockedFutex thread, fun leaving => absurd leaving (here thread)⟩
  · intro thread saved leaving
    have entered : (machine.enter p phase scheduler).phase p = phase := update_self _ _ _
    exact absurd (entered.symm.trans leaving) (there thread saved)

end

/-- One thread moves; `p` may change its phase. -/
theorem move_sound (sound : Sound before place) (p : Fin n) (thread : Thread) (target : Place n)
    (placed : Placed after.scheduler (update place thread target))
    (nice : after.scheduler.nice = before.scheduler.nice)
    (phases : ∀ q, q ≠ p → after.phase q = before.phase q)
    (processors : ∀ q, q ≠ p → after.scheduler.processors q = before.scheduler.processors q)
    (fields : ∀ other, other ≠ thread → Untouched before after (place other) (place other) p other)
    (touched : Touched before after (place thread) target p thread)
    (own : ProcessorSound after (update place thread target) p)
    (alone : ∀ other saved, after.phase p = .leaving other saved →
      ∀ q, q ≠ p → ∀ late, before.phase q ≠ .leaving other late) :
    Sound after (update place thread target) := by
  refine step_sound sound placed nice phases ?_ ?_ ?_ own alone
  · intro q different
    exact congrArg ProcessorState.currentThread (processors q different)
  · intro q different
    exact congrArg ProcessorState.idleThread (processors q different)
  · intro other
    by_cases self : other = thread
    · subst self
      rw [update_self]
      exact .inr touched
    · rw [update_of_ne self]
      exact .inl (fields other self)

end Invariant
end FrostyKernel.Scheduling
