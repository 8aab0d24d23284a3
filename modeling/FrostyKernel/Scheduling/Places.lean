import FrostyKernel.Scheduling.Scheduler

/-!
# Places of threads

Each thread is in one place: on no list, current on a processor, or on one list.
`Placed` says that the links, the lists and the processors agree with such an
assignment. The list operations move one thread; nothing else changes.
-/

namespace FrostyKernel.Scheduling

open Function Scheduler List

variable {n : Nat} {Thread : Type} [DecidableEq Thread]

inductive Place (n : Nat)
  | nowhere
  | idle
  | running (processor : Fin n)
  | listed (key : ListKey n)
deriving DecidableEq

def Scheduler.contents (scheduler : Scheduler n Thread) (key : ListKey n) : List Thread :=
  (scheduler.lists key).contents scheduler.links

section
variable (scheduler : Scheduler n Thread) (p : Fin n)

def Scheduler.current : Option Thread := (scheduler.processors p).currentThread

def Scheduler.idle : Thread := (scheduler.processors p).idleThread

def Scheduler.Niced (thread : Thread) : Prop :=
  ∃ nice, scheduler.nice thread = some nice ∧ nice < niceLevels

end

structure Placed (scheduler : Scheduler n Thread) (place : Thread → Place n) : Prop where
  holds : ∀ key, Holds scheduler.links (scheduler.lists key) (scheduler.contents key)
  members : ∀ key thread, thread ∈ scheduler.contents key ↔ place thread = .listed key
  loose : ∀ thread, (∀ key, place thread ≠ .listed key) → scheduler.links thread = .unlinked
  running : ∀ p thread, place thread = .running p ↔
    scheduler.current p = some thread ∧ thread ≠ scheduler.idle p
  idle : ∀ thread, place thread = .idle ↔ ∃ p, scheduler.idle p = thread
  levels : ∀ thread p nice, place thread = .listed (.run p nice) → scheduler.nice thread = some nice
  niced : ∀ thread, place thread ≠ .nowhere → place thread ≠ .idle → scheduler.Niced thread
  isIdle : ∀ p thread, scheduler.current p = some thread →
    (scheduler.processors p).isIdle = decide (thread = scheduler.idle p)
  honest : scheduler.idledWithWork = false

/-- The fields that the lists and the processors leave alone. -/
def Keeps (before after : Scheduler n Thread) : Prop :=
  after.nice = before.nice ∧ after.blockedFutex = before.blockedFutex ∧
    after.scheduled = before.scheduled

/-- What selecting on `p` leaves alone. -/
structure Spares (p : Fin n) (before after : Scheduler n Thread) : Prop where
  sleepRemainingTime : after.sleepRemainingTime = before.sleepRemainingTime
  processors : ∀ q, q ≠ p → after.processors q = before.processors q

/-- Threads have been moved between lists, and `p` has counted the levels anew. -/
def Recounts (p : Fin n) (before after : Scheduler n Thread) : Prop :=
  Keeps before after ∧ after.sleepRemainingTime = before.sleepRemainingTime ∧
    ∃ runCounts, after.processors = (before.setRunCounts p runCounts).processors

section Fields
omit [DecidableEq Thread]
variable {before middle after : Scheduler n Thread} {p : Fin n}

theorem Keeps.nice (keeps : Keeps before after) : after.nice = before.nice := keeps.1

theorem Keeps.blockedFutex (keeps : Keeps before after) :
    after.blockedFutex = before.blockedFutex := keeps.2.1

theorem Keeps.scheduled (keeps : Keeps before after) : after.scheduled = before.scheduled := keeps.2.2

section
variable (scheduler : Scheduler n Thread) (p q : Fin n) (state : ProcessorState Thread)

theorem keeps_refl : Keeps scheduler scheduler := ⟨rfl, rfl, rfl⟩

theorem keeps_trans (first : Keeps before middle) (second : Keeps middle after) :
    Keeps before after :=
  ⟨second.nice.trans first.nice, second.blockedFutex.trans first.blockedFutex,
    second.scheduled.trans first.scheduled⟩

theorem set_processor_current :
    (scheduler.setProcessor p state).current q =
      if q = p then state.currentThread else scheduler.current q := by
  simp only [current, setProcessor, update_apply]
  split_ifs <;> rfl

theorem set_processor_idle (same : state.idleThread = scheduler.idle p) (q : Fin n) :
    (scheduler.setProcessor p state).idle q = scheduler.idle q := by
  simp only [idle, setProcessor, update_apply]
  split_ifs with equal
  · rw [same, equal]
    rfl
  · rfl

end

theorem Spares.current (spares : Spares p before after) (q : Fin n) (different : q ≠ p) :
    after.current q = before.current q :=
  congrArg ProcessorState.currentThread (spares.processors q different)

theorem Spares.idle (spares : Spares p before after) (q : Fin n) (different : q ≠ p) :
    after.idle q = before.idle q :=
  congrArg ProcessorState.idleThread (spares.processors q different)

theorem recounts_refl (scheduler : Scheduler n Thread) (p : Fin n) : Recounts p scheduler scheduler :=
  ⟨keeps_refl scheduler, rfl, (scheduler.processors p).runCounts, (update_eq_self _ _).symm⟩

theorem set_run_counts_recounts (scheduler : Scheduler n Thread) (p : Fin n)
    (runCounts : Nat → Nat) : Recounts p scheduler (scheduler.setRunCounts p runCounts) :=
  ⟨keeps_refl scheduler, rfl, runCounts, rfl⟩

theorem recounts_trans (first : Recounts p before middle) (second : Recounts p middle after) :
    Recounts p before after := by
  rcases first with ⟨keeps, sleep, _, middles⟩
  rcases second with ⟨kept, slept, runCounts, processors⟩
  refine ⟨keeps_trans keeps kept, slept.trans sleep, runCounts, ?_⟩
  rw [processors]
  simp [setRunCounts, setProcessor, middles]

theorem Recounts.seats (recounts : Recounts p before after) (q : Fin n) :
    after.current q = before.current q ∧ after.idle q = before.idle q := by
  rcases recounts with ⟨_, _, runCounts, processors⟩
  simp only [Scheduler.current, Scheduler.idle, processors, setRunCounts, setProcessor,
    update_apply]
  split_ifs with equal
  · rw [equal]
    exact ⟨rfl, rfl⟩
  · exact ⟨rfl, rfl⟩

end Fields

variable {place : Thread → Place n}

/-- What `Placed` depends on. -/
theorem placed_congr {before after : Scheduler n Thread} (placed : Placed before place)
    (links : after.links = before.links) (lists : after.lists = before.lists)
    (nice : after.nice = before.nice) (ghost : after.idledWithWork = before.idledWithWork)
    (current : ∀ p, after.current p = before.current p) (idle : ∀ p, after.idle p = before.idle p)
    (isIdle : ∀ p, (after.processors p).isIdle = (before.processors p).isIdle) :
    Placed after place := by
  have contents : ∀ key, after.contents key = before.contents key := by
    intro key
    rw [contents, contents, links, lists]
  constructor
  · intro key
    rw [links, lists, contents]
    exact placed.holds key
  · intro key thread
    rw [contents]
    exact placed.members key thread
  · intro thread away
    rw [links]
    exact placed.loose thread away
  · intro p thread
    rw [current, idle]
    exact placed.running p thread
  · intro thread
    simp only [idle]
    exact placed.idle thread
  · intro thread p level
    rw [nice]
    exact placed.levels thread p level
  · intro thread placedSomewhere notIdle
    rw [Niced, nice]
    exact placed.niced thread placedSomewhere notIdle
  · intro p thread
    rw [current, isIdle, idle]
    exact placed.isIdle p thread
  · rw [ghost]
    exact placed.honest

theorem placed_fields {scheduler : Scheduler n Thread} (placed : Placed scheduler place)
    {semaphores : Nat → Nat × Nat} {scheduled : Thread → Bool}
    {timeRemaining sleepRemainingTime : Thread → Nat} {blockedFutex : Thread → Option Nat} :
    Placed { scheduler with
      semaphores, timeRemaining, sleepRemainingTime, blockedFutex, scheduled } place :=
  placed_congr placed rfl rfl rfl rfl (fun _ => rfl) (fun _ => rfl) (fun _ => rfl)

section Lists
variable {place : Thread → Place n} {scheduler : Scheduler n Thread}
  (placed : Placed scheduler place)
include placed

section
variable (key : ListKey n) (thread : Thread)

/-- A list operation on `key` that moves one thread between the list and nowhere. -/
theorem relist_placed (target : Place n) (links : Thread → Links Thread) (queue : Queue Thread)
    (nodes : List Thread) (holds : Holds links queue nodes)
    (frame : ∀ other, other ∉ scheduler.contents key → other ≠ thread →
      links other = scheduler.links other)
    (members : ∀ other, other ∈ nodes ↔ update place thread target other = .listed key)
    (from' : place thread = .nowhere ∨ place thread = .listed key)
    (to' : (target = .nowhere ∧ links thread = .unlinked) ∨
      (target = .listed key ∧ scheduler.Niced thread ∧
        ∀ p nice, key = .run p nice → scheduler.nice thread = some nice))
    :
    let after := { scheduler with links, lists := update scheduler.lists key queue }
    Placed after (update place thread target) ∧ after.contents key = nodes ∧
      (∀ other, other ≠ key → after.contents other = scheduler.contents other) ∧
      Keeps scheduler after := by
  intro after
  have own : after.contents key = nodes := by
    simp only [contents, after, update_self]
    exact holds_contents holds
  have elsewhere : ∀ other, other ≠ key →
      Holds links (scheduler.lists other) (scheduler.contents other) := by
    intro other different
    refine holds_congr (placed.holds other) ?_
    intro node member
    have here := (placed.members other node).mp member
    refine frame node ?_ ?_
    · intro also
      have there := (placed.members key node).mp also
      rw [here] at there
      cases there
      exact different rfl
    · rintro rfl
      rcases from' with none | listed
      · simp [here] at none
      · rw [here] at listed
        cases listed
        exact different rfl
  have others : ∀ other, other ≠ key → after.contents other = scheduler.contents other := by
    intro other different
    simp only [contents, after, update_of_ne different]
    exact holds_contents (elsewhere other different)
  refine ⟨?_, own, others, rfl, rfl, rfl⟩
  have unmoved : ∀ other, other ≠ thread → update place thread target other = place other :=
    fun other different => update_of_ne different _ _
  have moved : update place thread target thread = target := update_self _ _ _
  -- only nowhere and the list itself gain or lose a thread
  have kept : ∀ node there, there ≠ .nowhere → there ≠ .listed key →
      (update place thread target node = there ↔ place node = there) := by
    intro node there somewhere notKey
    by_cases self : node = thread
    · subst self
      rw [moved]
      refine iff_of_false ?_ ?_
      · rintro rfl
        rcases to' with ⟨none, _⟩ | ⟨listed, _⟩
        · exact somewhere none
        · exact notKey listed
      · rintro rfl
        rcases from' with none | listed
        · exact somewhere none
        · exact notKey listed
    · rw [unmoved node self]
  constructor
  · intro other
    by_cases same : other = key
    · subst same
      rw [own]
      simpa [after] using holds
    · rw [others other same]
      simpa [after, same] using elsewhere other same
  · intro other node
    by_cases same : other = key
    · subst same
      rw [own]
      exact members node
    · rw [others other same, placed.members, kept node (.listed other) (by simp)
        (by simpa using same)]
  · intro node away
    by_cases self : node = thread
    · subst self
      rw [moved] at away
      rcases to' with ⟨_, loose⟩ | ⟨rfl, _⟩
      · exact loose
      · exact absurd rfl (away key)
    · rw [unmoved node self] at away
      have outside : node ∉ scheduler.contents key := by
        rw [placed.members]
        exact away key
      exact (frame node outside self).trans (placed.loose node away)
  · intro p node
    rw [kept node (.running p) (by simp) (by simp)]
    exact placed.running p node
  · intro node
    rw [kept node .idle (by simp) (by simp)]
    exact placed.idle node
  · intro node p nice listed
    by_cases self : node = thread
    · subst self
      rw [moved] at listed
      rcases to' with ⟨rfl, _⟩ | ⟨rfl, _, level⟩
      · cases listed
      · cases listed
        exact level p nice rfl
    · rw [unmoved node self] at listed
      exact placed.levels node p nice listed
  · intro node somewhere notIdle
    by_cases self : node = thread
    · subst self
      rw [moved] at somewhere
      rcases to' with ⟨rfl, _⟩ | ⟨_, niced, _⟩
      · exact absurd rfl somewhere
      · exact niced
    · rw [unmoved node self] at somewhere notIdle
      exact placed.niced node somewhere notIdle
  · exact placed.isIdle
  · exact placed.honest

theorem push_placed (away : place thread = .nowhere) (niced : scheduler.Niced thread)
    (level : ∀ p nice, key = .run p nice → scheduler.nice thread = some nice) :
    ∃ after, scheduler.push key thread = some after ∧
      Placed after (update place thread (.listed key)) ∧
      after.contents key = scheduler.contents key ++ [thread] ∧
      (∀ other, other ≠ key → after.contents other = scheduler.contents other) ∧
      Keeps scheduler after ∧ after.processors = scheduler.processors ∧
      after.sleepRemainingTime = scheduler.sleepRemainingTime := by
  have absent : thread ∉ scheduler.contents key := by
    simp [placed.members, away]
  have loose := placed.loose thread (by simp [away])
  obtain ⟨links, queue, done, holds, frame⟩ := push_back_holds (placed.holds key) absent loose
  refine ⟨_, by rw [push, done]; rfl, ?_⟩
  obtain ⟨now, own, others, keeps⟩ := relist_placed placed key thread (.listed key) links queue _
    holds frame (by
      intro other
      rw [mem_append, mem_singleton, placed.members]
      by_cases self : other = thread
      · simp [self]
      · simp [self]) (.inl away) (.inr ⟨rfl, niced, level⟩)
  exact ⟨now, own, others, keeps, rfl, rfl⟩

theorem pop_placed (rest : List Thread) (first : scheduler.contents key = thread :: rest) :
    (scheduler.pop key).2 = some thread ∧ place thread = .listed key ∧
      Placed (scheduler.pop key).1 (update place thread .nowhere) ∧
      Keeps scheduler (scheduler.pop key).1 := by
  have holds := placed.holds key
  rw [first] at holds
  have listed : place thread = .listed key := by
    rw [← placed.members, first]
    exact mem_cons_self
  obtain ⟨links, queue, done, rests, loose, frame⟩ := pop_front_holds holds
  have distinct := nodup_cons.mp holds.distinct
  obtain ⟨now, _, _, keeps⟩ := relist_placed placed key thread .nowhere links queue rest rests
    (by
      intro other outside _
      rw [first] at outside
      exact frame other outside)
    (by
      intro other
      by_cases self : other = thread
      · subst self
        simp [distinct.1]
      · rw [update_of_ne self, ← placed.members, first]
        simp [self]) (.inr listed) (.inl ⟨rfl, loose⟩)
  simp only [pop, done]
  exact ⟨trivial, listed, now, keeps⟩

theorem pop_empty (empty : scheduler.contents key = []) :
    scheduler.pop key = (scheduler, none) := by
  have holds := placed.holds key
  rw [empty] at holds
  simp [pop, pop_front_empty holds]

theorem unlink_placed (left right : List Thread)
    (middle : scheduler.contents key = left ++ thread :: right) :
    ∃ after, scheduler.unlink key thread = some after ∧
      Placed after (update place thread .nowhere) ∧ after.contents key = left ++ right ∧
      Keeps scheduler after ∧ after.processors = scheduler.processors ∧
      after.sleepRemainingTime = scheduler.sleepRemainingTime := by
  have holds := placed.holds key
  rw [middle] at holds
  have listed : place thread = .listed key := by
    rw [← placed.members, middle]
    simp
  obtain ⟨links, queue, done, rests, loose, frame⟩ := remove_holds holds
  have distinct := nodup_cons.mp (nodup_middle.mp holds.distinct)
  refine ⟨_, by rw [unlink, done]; rfl, ?_⟩
  obtain ⟨now, own, _, keeps⟩ := relist_placed placed key thread .nowhere links queue _ rests
    (by
      intro other outside _
      rw [middle] at outside
      exact frame other outside)
    (by
      intro other
      by_cases self : other = thread
      · subst self
        simp only [update_self, reduceCtorEq, iff_false]
        exact distinct.1
      · rw [update_of_ne self, ← placed.members, middle]
        simp [self]) (.inr listed) (.inl ⟨rfl, loose⟩)
  exact ⟨now, own, keeps, rfl, rfl⟩

end
end Lists

section Processors
variable {place : Thread → Place n} {scheduler : Scheduler n Thread}

section
variable (placed : Placed scheduler place)
include placed

/-- A processor changes its current thread. -/
theorem seat_placed (p : Fin n) (state : ProcessorState Thread)
    (same : state.idleThread = scheduler.idle p) (after : Thread → Place n)
    (here : ∀ thread, after thread = .running p ↔
      state.currentThread = some thread ∧ thread ≠ scheduler.idle p)
    (elsewhere : ∀ thread, after thread ≠ .running p →
      (after thread = place thread) ∨ (place thread = .running p ∧ after thread = .nowhere))
    (free : ∀ thread, after thread = .running p →
      (place thread = .nowhere ∨ place thread = .running p) ∧ scheduler.Niced thread)
    (isIdle : ∀ thread, state.currentThread = some thread →
      state.isIdle = decide (thread = scheduler.idle p)) :
    Placed (scheduler.setProcessor p state) after := by
  have idles := set_processor_idle scheduler p state same
  -- the place of a thread that is not current on `p` can only have changed from there to nowhere
  have kept : ∀ thread target, target ≠ .running p → target ≠ .nowhere →
      (after thread = target ↔ place thread = target) := by
    intro thread target notHere somewhere
    by_cases now : after thread = .running p
    · have before := (free thread now).1
      constructor
      · intro equal
        exact absurd (equal.symm.trans now) notHere
      · intro equal
        rcases before with none | running
        · exact absurd (equal.symm.trans none) somewhere
        · exact absurd (equal.symm.trans running) notHere
    · rcases elsewhere thread now with equal | ⟨running, none⟩
      · rw [equal]
      · rw [running, none]
        exact iff_of_false (Ne.symm somewhere) (Ne.symm notHere)
  constructor
  · exact placed.holds
  · intro key thread
    rw [kept thread (.listed key) (by simp) (by simp)]
    exact placed.members key thread
  · intro thread away
    refine placed.loose thread fun key listed => away key ?_
    exact (kept thread (.listed key) (by simp) (by simp)).mpr listed
  · intro q thread
    rw [idles, set_processor_current]
    by_cases equal : q = p
    · subst equal
      rw [if_pos rfl]
      exact here thread
    · rw [if_neg equal, kept thread (.running q) (by simpa using equal) (by simp)]
      exact placed.running q thread
  · intro thread
    rw [kept thread .idle (by simp) (by simp)]
    simp only [idles]
    exact placed.idle thread
  · intro thread q nice listed
    rw [kept thread _ (by simp) (by simp)] at listed
    exact placed.levels thread q nice listed
  · intro thread somewhere notIdle
    by_cases now : after thread = .running p
    · exact (free thread now).2
    · rcases elsewhere thread now with equal | ⟨_, none⟩
      · rw [equal] at somewhere notIdle
        exact placed.niced thread somewhere notIdle
      · exact absurd none somewhere
  · intro q thread current
    rw [set_processor_current] at current
    rw [idles]
    by_cases equal : q = p
    · subst equal
      rw [if_pos rfl] at current
      simpa [setProcessor] using isIdle thread current
    · rw [if_neg equal] at current
      simpa [setProcessor, equal] using placed.isIdle q thread current
  · exact placed.honest

/-- The idle thread of a processor is in no other place. -/
theorem idle_not_running (p : Fin n) : place (scheduler.idle p) = .idle :=
  (placed.idle _).mpr ⟨p, rfl⟩

/-- The current thread leaves its processor. -/
theorem leave_placed (p : Fin n) (thread : Thread) (running : place thread = .running p) :
    Placed (scheduler.removeCurrentThread p).1 (update place thread .nowhere) := by
  have current := (placed.running p thread).mp running
  refine seat_placed placed p { scheduler.processors p with currentThread := none } rfl _ ?_ ?_ ?_
    (by simp)
  · intro other
    by_cases self : other = thread
    · simp [self]
    · rw [update_of_ne self, placed.running, current.1]
      simp [Ne.symm self]
  · intro other _
    by_cases self : other = thread
    · subst self
      exact .inr ⟨running, by simp⟩
    · exact .inl (update_of_ne self _ _)
  · intro other now
    by_cases self : other = thread
    · simp [self] at now
    · rw [update_of_ne self] at now
      exact ⟨.inr now, placed.niced other (by simp [now]) (by simp [now])⟩

theorem leave_idle_placed (p : Fin n)
    (idle : ∀ thread, scheduler.current p = some thread → thread = scheduler.idle p) :
    Placed (scheduler.setProcessor p { scheduler.processors p with currentThread := none }) place := by
  have unseated : ∀ thread, place thread ≠ .running p := by
    intro thread running
    have current := (placed.running p thread).mp running
    exact current.2 (idle thread current.1)
  refine seat_placed placed p { scheduler.processors p with currentThread := none } rfl place ?_
    (fun thread _ => .inl rfl) ?_ (by simp)
  · intro thread
    exact iff_of_false (unseated thread) (by simp)
  · intro thread running
    exact absurd running (unseated thread)

theorem select_placed (p : Fin n) (thread : Thread) (nice : Option Nat)
    (vacant : scheduler.current p = none) (away : place thread = .nowhere)
    (niced : scheduler.Niced thread) :
    Placed (scheduler.select p thread nice) (update place thread (.running p)) := by
  have unseated : ∀ other, place other ≠ .running p := by
    intro other running
    have seated := ((placed.running p other).mp running).1
    simp [vacant] at seated
  have notIdle : thread ≠ scheduler.idle p := by
    rintro rfl
    simp [idle_not_running placed p] at away
  refine seat_placed placed p { scheduler.processors p with
    runCounts := _, isIdle := _, currentThread := some thread } rfl _ ?_ ?_ ?_ ?_
  · intro other
    by_cases self : other = thread
    · subst self
      simp [notIdle]
    · rw [update_of_ne self]
      exact iff_of_false (unseated other) (by simp [Ne.symm self])
  · intro other notHere
    by_cases self : other = thread
    · simp [self] at notHere
    · exact .inl (update_of_ne self _ _)
  · intro other now
    by_cases self : other = thread
    · subst self
      exact ⟨.inl away, niced⟩
    · rw [update_of_ne self] at now
      exact absurd now (unseated other)
  · intro other seated
    cases seated
    rfl

theorem select_idle_placed (p : Fin n) (vacant : scheduler.current p = none) :
    Placed (scheduler.select p (scheduler.idle p) none) place := by
  have unseated : ∀ other, place other ≠ .running p := by
    intro other running
    have seated := ((placed.running p other).mp running).1
    simp [vacant] at seated
  refine seat_placed placed p { scheduler.processors p with
    runCounts := _, isIdle := _, currentThread := some (scheduler.idle p) } rfl place ?_
    (fun thread _ => .inl rfl) ?_ ?_
  · intro other
    refine iff_of_false (unseated other) ?_
    rintro ⟨seated, different⟩
    cases seated
    exact different rfl
  · intro other running
    exact absurd running (unseated other)
  · intro other seated
    cases seated
    rfl

end

theorem select_current (scheduler : Scheduler n Thread) (p : Fin n) (thread : Thread)
    (nice : Option Nat) : (scheduler.select p thread nice).current p = some thread := by
  simp [select, current, setProcessor]

theorem set_run_counts_placed (placed : Placed scheduler place) (p : Fin n)
    (runCounts : Nat → Nat) :
    Placed (scheduler.setRunCounts p runCounts) place := by
  refine placed_congr placed rfl rfl rfl rfl ?_ ?_ ?_ <;> intro q <;>
    by_cases equal : q = p <;>
    simp [setRunCounts, setProcessor, current, idle, equal]

end Processors

section Selection

section
variable (queues : Nat → Queue Thread) (seen : List Nat) (scan : Scan Thread)

/-- What the loop over the nice levels has found after the levels in `seen`. -/
def Found : Prop :=
  (scan.thread = none ∧ scan.nice = none ∧ ∀ level ∈ seen, (queues level).count = 0) ∨
  ∃ level ∈ seen, ∃ thread, scan.nice = some level ∧ scan.thread = some thread ∧
    (queues level).head = some thread

omit [DecidableEq Thread] in
theorem scan_level_found (level : Nat) (found : Found queues seen scan)
    (sound : (queues level).count ≠ 0 → ∃ thread, (queues level).head = some thread) :
    Found queues (seen ++ [level]) (scanLevel queues scan level) := by
  unfold scanLevel
  by_cases skip : (queues level).count = 0 ∨
      (maxRunCount ≤ scan.runCounts level ∧ level ≠ 0 ∧ scan.thread ≠ none)
  · rw [if_pos skip]
    rcases found with ⟨noThread, noNice, empty⟩ | ⟨other, member, thread, nice, found, first⟩
    · refine .inl ⟨noThread, noNice, ?_⟩
      intro other member
      rcases mem_append.mp member with old | new
      · exact empty other old
      · rw [mem_singleton] at new
        subst new
        rcases skip with zero | ⟨_, _, some⟩
        · exact zero
        · exact absurd noThread some
    · exact .inr ⟨other, mem_append_left _ member, thread, nice, found, first⟩
  · rw [if_neg skip]
    rw [not_or] at skip
    obtain ⟨thread, first⟩ := sound skip.1
    exact .inr ⟨level, by simp, thread, rfl, first, first⟩

end

omit [DecidableEq Thread] in
theorem scan_levels_found (queues : Nat → Queue Thread) (runCounts : Nat → Nat)
    (sound : ∀ level, (queues level).count ≠ 0 → ∃ thread, (queues level).head = some thread) :
    Found queues (List.range niceLevels) (scanLevels queues runCounts) := by
  have general : ∀ (levels seen : List Nat) (scan : Scan Thread), Found queues seen scan →
      Found queues (seen ++ levels) (levels.foldl (scanLevel queues) scan) := by
    intro levels
    induction levels with
    | nil =>
      intro seen scan found
      simpa using found
    | cons level rest ih =>
      intro seen scan found
      have next := ih (seen ++ [level]) _
        (scan_level_found queues seen scan level found (sound level))
      simpa using next
  exact general (List.range niceLevels) [] ⟨none, none, runCounts⟩ (.inl ⟨rfl, rfl, by simp⟩)

variable {place : Thread → Place n} {scheduler after : Scheduler n Thread} {p : Fin n}

section
variable (placed : Placed scheduler place)
include placed

section
variable (key : ListKey n)

theorem list_head :
    (scheduler.lists key).head = (scheduler.contents key).head? := (placed.holds key).head

theorem list_count :
    (scheduler.lists key).count = (scheduler.contents key).length := (placed.holds key).count

theorem count_head (some : (scheduler.lists key).count ≠ 0) :
    ∃ thread, (scheduler.lists key).head = Option.some thread := by
  rw [list_head placed]
  cases nodes : scheduler.contents key with
  | nil =>
    rw [list_count placed, nodes] at some
    exact absurd rfl some
  | cons thread rest => exact ⟨thread, rfl⟩

/-- The thread at the head of a run queue is taken off it. -/
theorem pop_head_placed (thread : Thread) (first : (scheduler.lists key).head = some thread) :
    (scheduler.pop key).2 = some thread ∧ place thread = .listed key ∧
      Placed (scheduler.pop key).1 (update place thread .nowhere) ∧
      Keeps scheduler (scheduler.pop key).1 := by
  rw [list_head placed] at first
  cases nodes : scheduler.contents key with
  | nil => simp [nodes] at first
  | cons head rest =>
    rw [nodes, head?_cons, Option.some.injEq] at first
    subst first
    exact pop_placed placed key head rest nodes

end

theorem scan_placed (p : Fin n) (runCounts : Nat → Nat) :
    Found (fun nice => scheduler.lists (.run p nice)) (List.range niceLevels)
      (scanLevels (fun nice => scheduler.lists (.run p nice)) runCounts) :=
  scan_levels_found _ _ fun level => count_head placed (.run p level)

end

def Scheduler.Workless (scheduler : Scheduler n Thread) (p : Fin n) : Prop :=
  ∀ nice < niceLevels, (scheduler.lists (.run p nice)).count = 0

theorem steal_placed (current : Fin n) (others : List (Fin n)) (scheduler : Scheduler n Thread)
    (placed : Placed scheduler place) :
    (∃ after, stealThreadFromOther current others scheduler = some (after, none) ∧
      Placed after place ∧ Recounts current scheduler after ∧
      ∀ other ∈ others, other ≠ current → scheduler.Workless other) ∨
    ∃ after thread other nice,
      stealThreadFromOther current others scheduler = some (after, some (thread, nice)) ∧
      place thread = .listed (.run other nice) ∧
      Placed after (update place thread .nowhere) ∧ Recounts current scheduler after := by
  induction others generalizing scheduler with
  | nil => exact .inl ⟨scheduler, rfl, placed, recounts_refl _ _, by simp⟩
  | cons other rest ih =>
    by_cases self : other = current
    · rw [stealThreadFromOther, if_pos self]
      rcases ih scheduler placed with ⟨after, done, now, recounts, empty⟩ | stolen
      · refine .inl ⟨after, done, now, recounts, ?_⟩
        intro q member different
        rcases mem_cons.mp member with rfl | member
        · exact absurd self different
        · exact empty q member different
      · exact .inr stolen
    · rw [stealThreadFromOther, if_neg self]
      generalize counts : scanLevels _ (scheduler.processors current).runCounts = scan
      have found := scan_placed placed other (scheduler.processors current).runCounts
      rw [counts] at found
      have counted := set_run_counts_placed placed current scan.runCounts
      have first := set_run_counts_recounts scheduler current scan.runCounts
      rcases found with ⟨noThread, noNice, empty⟩ | ⟨level, _, thread, nice, chosen, head⟩
      · simp only [noThread, noNice]
        rcases ih _ counted with ⟨after, done, now, recounts, workless⟩ |
          ⟨after, thread, victim, nice, done, listed, now, recounts⟩
        · refine .inl ⟨after, done, now, recounts_trans first recounts, ?_⟩
          intro q member different
          rcases mem_cons.mp member with rfl | member
          · intro nice small
            exact empty nice (mem_range.mpr small)
          · exact workless q member different
        · exact .inr ⟨after, thread, victim, nice, done, listed, now, recounts_trans first recounts⟩
      · simp only [nice, chosen]
        obtain ⟨popped, listed, now, keeps⟩ := pop_head_placed counted (.run other level) thread head
        rw [if_pos popped]
        exact .inr ⟨_, thread, other, level, rfl, listed, now, keeps, first.2⟩

def Place.Active : Place n → Prop
  | .nowhere => False
  | .idle => False
  | .running _ => True
  | .listed (.futex _) => False
  | .listed _ => True

def Shifts (before after : Thread → Place n) : Prop :=
  ∀ thread, after thread = before thread ∨ ((before thread).Active ∧ (after thread).Active)

omit [DecidableEq Thread] in
theorem shifts_refl (place : Thread → Place n) : Shifts place place := fun _ => .inl rfl

variable {before : Thread → Place n}

omit [DecidableEq Thread] in
theorem shifts_trans {middle after : Thread → Place n} (first : Shifts before middle)
    (second : Shifts middle after) : Shifts before after := by
  intro thread
  rcases first thread with same | ⟨was, is⟩ <;> rcases second thread with again | ⟨started, ended⟩
  · exact .inl (again.trans same)
  · rw [same] at started
    exact .inr ⟨started, ended⟩
  · rw [← again] at is
    exact .inr ⟨was, is⟩
  · exact .inr ⟨was, ended⟩

theorem shifts_update (place : Thread → Place n) (thread : Thread) (target : Place n)
    (source : (place thread).Active) (active : target.Active) :
    Shifts place (update place thread target) := by
  intro other
  by_cases self : other = thread
  · subst self
    rw [update_self]
    exact .inr ⟨source, active⟩
  · exact .inl (update_of_ne self _ _)

omit [DecidableEq Thread] in
theorem workless_of_all (empty : ∀ p, scheduler.Workless p) : scheduler.hasWork = false := by
  simp only [hasWork, any_eq_false, decide_eq_true_eq, Bool.not_eq_true]
  intro p _ nice small
  simp [empty p nice (mem_range.mp small)]

def Dispatches (p : Fin n) (before after : Thread → Place n) : Prop :=
  ∀ thread, after thread = before thread ∨
    ((∃ q nice, before thread = .listed (.run q nice)) ∧ after thread = .running p)

theorem dispatches_update (place : Thread → Place n) (p q : Fin n) (thread : Thread) (nice : Nat)
    (source : place thread = .listed (.run q nice)) :
    Dispatches p place (update place thread (.running p)) := by
  intro other
  by_cases self : other = thread
  · subst self
    exact .inr ⟨⟨q, nice, source⟩, update_self _ _ _⟩
  · exact .inl (update_of_ne self _ _)

omit [DecidableEq Thread] in
theorem dispatches_shifts {after : Thread → Place n} (dispatches : Dispatches p before after) :
    Shifts before after := by
  intro thread
  rcases dispatches thread with same | ⟨⟨q, nice, queued⟩, running⟩
  · exact .inl same
  · rw [queued, running]
    exact .inr ⟨trivial, trivial⟩

theorem Recounts.select_spares {before : Scheduler n Thread} (recounts : Recounts p before after)
    (thread : Thread) (nice : Option Nat) : Spares p before (after.select p thread nice) := by
  rcases recounts with ⟨_, sleep, runCounts, processors⟩
  refine ⟨sleep, fun q different => ?_⟩
  simp [select, setProcessor, processors, setRunCounts, different]

/-- The processor has selected a thread. -/
def Picked (p : Fin n) (before : Scheduler n Thread) (place : Thread → Place n)
    (after : Scheduler n Thread) : Prop :=
  ∃ moved, Placed after moved ∧ Dispatches p place moved ∧ Keeps before after ∧
    Spares p before after ∧ ∃ thread, after.current p = some thread

/-- A thread that was taken off a run queue becomes the current one. -/
theorem picked_placed (placed : Placed scheduler place) {q : Fin n} {nice : Nat} {thread : Thread}
    (vacant : scheduler.current p = none) (listed : place thread = .listed (.run q nice))
    (now : Placed after (update place thread .nowhere)) (recounts : Recounts p scheduler after) :
    Picked p scheduler place (after.select p thread (some nice)) := by
  have niced : after.Niced thread := by
    rw [Niced, recounts.1.nice]
    exact placed.niced thread (by simp [listed]) (by simp [listed])
  have seated := select_placed now p thread (some nice) ((recounts.seats p).1.trans vacant) (by simp)
    niced
  rw [update_idem] at seated
  exact ⟨_, seated, dispatches_update place p q thread nice listed, recounts.1,
    recounts.select_spares _ _, thread, select_current after p thread _⟩

/-- A processor without a current thread selects one: a thread of some run queue, or
its idle thread when all run queues are empty. -/
theorem pick_next_placed (placed : Placed scheduler place) (p : Fin n)
    (vacant : scheduler.current p = none) :
    ∃ after, scheduler.pickNext p = some after ∧ Picked p scheduler place after := by
  unfold pickNext
  generalize counts : scanLevels _ (scheduler.processors p).runCounts = scan
  have found := scan_placed placed p (scheduler.processors p).runCounts
  rw [counts] at found
  have counted := set_run_counts_placed placed p scan.runCounts
  have first := set_run_counts_recounts scheduler p scan.runCounts
  rcases found with ⟨noThread, noNice, empty⟩ | ⟨level, _, thread, nice, chosen, head⟩
  · simp only [noThread, noNice]
    rcases steal_placed p (List.finRange n) _ counted with ⟨after, done, now, recounts, workless⟩ |
      ⟨after, thread, victim, nice, done, listed, now, recounts⟩
    · have whole := recounts_trans first recounts
      have lazy : scheduler.hasWork = false := by
        apply workless_of_all
        intro q
        by_cases self : q = p
        · subst self
          intro nice small
          exact empty nice (mem_range.mpr small)
        · exact workless q (mem_finRange q) self
      have honest : (scheduler.idledWithWork || scheduler.hasWork) = after.idledWithWork := by
        rw [lazy, placed.honest, now.honest]
        rfl
      simp only [done, honest]
      have idle : (scheduler.processors p).idleThread = after.idle p := (whole.seats p).2.symm
      rw [idle]
      exact ⟨_, rfl, place, select_idle_placed now p ((whole.seats p).1.trans vacant), fun _ => .inl
        rfl, whole.1, whole.select_spares _ none, after.idle p, select_current after p _ none⟩
    · simp only [done]
      exact ⟨_, rfl, picked_placed placed vacant listed now (recounts_trans first recounts)⟩
  · simp only [nice, chosen]
    obtain ⟨_, listed, now, keeps⟩ := pop_head_placed counted (.run p level) thread head
    exact ⟨_, rfl, picked_placed placed vacant listed now ⟨keeps, first.2⟩⟩

end Selection
end FrostyKernel.Scheduling
