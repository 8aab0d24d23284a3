import FrostyKernel.Lib.Run

/-!
# Futexes

The queues of a process and the steps of its `sys_futex` calls: the lookup and
the release of a queue under the lock of the tree, the check and the enqueueing
under the lock of the queue, and the wake under that lock. User code stores to
the words between any two steps, also while a waiter holds the lock of its queue.
-/

namespace FrostyKernel.Futex

open Function List Option

variable {Thread : Type}

/-- A queued thread, with the times at which it read the word and queued. -/
structure Waiter (Thread : Type) where
  thread : Thread
  readAt : Nat
  queuedAt : Nat
deriving DecidableEq

/-- `address` and `borrowers` are not stored by the kernel: the address that the
queue was created for, and the threads between the lookup and `PutFutex`. -/
structure FutexWaitQueue (Thread : Type) where
  refCount : Nat
  waitingThreads : List (Waiter Thread)
  lock : Option Thread
  address : Nat
  borrowers : List Thread
deriving DecidableEq

def FutexWaitQueue.new (address : Nat) : FutexWaitQueue Thread := ⟨1, [], none, address, []⟩

/-- How far a thread is in `sys_futex`. -/
inductive Call
  | idle
  | found (address expected queue : Nat)
  | locked (address expected queue : Nat)
  | checked (address expected queue readAt : Nat)
  | queued (address queue : Nat)
  | waking (address count queue : Nat)
  | leaving (address queue : Nat)
deriving DecidableEq

def Call.borrows : Call → Option (Nat × Nat)
  | .idle => none
  | .found address _ queue => some (address, queue)
  | .locked address _ queue => some (address, queue)
  | .checked address _ queue _ => some (address, queue)
  | .queued address queue => some (address, queue)
  | .waking address _ queue => some (address, queue)
  | .leaving address queue => some (address, queue)

/-- A process: its words, the tree of its queues, the queues that exist, and its
threads. The clock counts the steps. -/
structure Process (Thread : Type) where
  words : Nat → Nat
  tree : Nat → Option Nat
  queues : Nat → Option (FutexWaitQueue Thread)
  calls : Thread → Call
  clock : Nat

def Process.start (words : Nat → Nat) : Process Thread :=
  ⟨words, fun _ => none, fun _ => none, fun _ => .idle, 0⟩

variable [DecidableEq Thread]

section
variable (process : Process Thread) (thread : Thread) (id : Nat) (queue : FutexWaitQueue Thread)

def Process.setQueue : Process Thread :=
  { process with queues := update process.queues id (some queue) }

def Process.setCall (call : Call) : Process Thread :=
  { process with calls := update process.calls thread call }

/-- `q->refCount++` -/
def Process.borrow : Process Thread :=
  process.setQueue id
    { queue with refCount := queue.refCount + 1, borrowers := thread :: queue.borrowers }

end

def Process.getOrCreateFutex (process : Process Thread) (thread : Thread)
    (address allocated : Nat) : Option (Process Thread × Nat) :=
  match process.tree address with
  | some id =>
    (process.queues id).map fun queue => (process.borrow thread id queue, id)
  | none =>
    match process.queues allocated with
    | some _ => none
    | none =>
      some ({ process with tree := update process.tree address (some allocated) }.borrow
        thread allocated (FutexWaitQueue.new address), allocated)

def Process.getFutexForWake (process : Process Thread) (thread : Thread) (address : Nat) :
    Option (Process Thread × Option Nat) :=
  match process.tree address with
  | some id =>
    (process.queues id).map fun queue => (process.borrow thread id queue, some id)
  | none => some (process, none)

def Process.putFutex (process : Process Thread) (thread : Thread) (address id : Nat) :
    Option (Process Thread) :=
  match process.queues id with
  | none => none
  | some queue =>
    if queue.refCount - 1 = 0 then
      some { process with
        tree := update process.tree address none
        queues := update process.queues id none }
    else
      some (process.setQueue id
        { queue with
          refCount := queue.refCount - 1
          borrowers := queue.borrowers.erase thread })

/-- `(int)maxCount` -/
def signedCount (count : Nat) : Int :=
  if count < 2 ^ 31 then count else (count : Int) - 2 ^ 32

/-- The loop of `Wake`: the threads that it pops, and those it leaves. -/
def wakeLoop (count : Nat) : Nat → List (Waiter Thread) → List (Waiter Thread) × List (Waiter Thread)
  | _, [] => ([], [])
  | woken, waiter :: rest =>
    if (woken : Int) < signedCount count then
      (waiter :: (wakeLoop count (woken + 1) rest).1, (wakeLoop count (woken + 1) rest).2)
    else
      ([], waiter :: rest)

/-- The popped threads return from `Wait`. -/
def Process.release (process : Process Thread) (address id : Nat)
    (popped : List (Waiter Thread)) : Process Thread :=
  { process with
    calls := fun thread =>
      if thread ∈ popped.map Waiter.thread then .leaving address id else process.calls thread }

inductive Action (Thread : Type)
  | store (address value : Nat)
  | waitLookup (thread : Thread) (address expected allocated : Nat)
  | waitLock (thread : Thread)
  | waitRead (thread : Thread) (faults : Bool)
  | waitQueue (thread : Thread)
  | wakeLookup (thread : Thread) (address count : Nat)
  | wake (thread : Thread)
  | remove (thread : Thread)
  | put (thread : Thread)

/-- `none` when the thread is not at that step, when it waits for a lock, or
when the queue it refers to does not exist. -/
def Action.run (process : Process Thread) : Action Thread → Option (Process Thread)
  | .store address value =>
    some { process with words := update process.words address value }
  | .waitLookup thread address expected allocated =>
    match process.calls thread with
    | .idle =>
      (process.getOrCreateFutex thread address allocated).map fun (after, id) =>
        after.setCall thread (.found address expected id)
    | _ => none
  | .waitLock thread =>
    match process.calls thread with
    | .found address expected id =>
      match process.queues id with
      | some queue =>
        if queue.lock = none then
          some ((process.setQueue id { queue with lock := some thread }).setCall thread
            (.locked address expected id))
        else none
      | none => none
    | _ => none
  | .waitRead thread faults =>
    match process.calls thread with
    | .locked address expected id =>
      match process.queues id with
      | some queue =>
        if faults = false ∧ process.words address = expected then
          some (process.setCall thread (.checked address expected id process.clock))
        else
          some ((process.setQueue id { queue with lock := none }).setCall thread
            (.leaving address id))
      | none => none
    | _ => none
  | .waitQueue thread =>
    match process.calls thread with
    | .checked address _ id readAt =>
      match process.queues id with
      | some queue =>
        some ((process.setQueue id
          { queue with
            lock := none
            waitingThreads := queue.waitingThreads ++ [⟨thread, readAt, process.clock⟩] }).setCall
          thread (.queued address id))
      | none => none
    | _ => none
  | .wakeLookup thread address count =>
    match process.calls thread with
    | .idle =>
      match process.getFutexForWake thread address with
      | some (after, some id) => some (after.setCall thread (.waking address count id))
      | some (after, none) => some after
      | none => none
    | _ => none
  | .wake thread =>
    match process.calls thread with
    | .waking address count id =>
      match process.queues id with
      | some queue =>
        if queue.lock = none then
          some (((process.setQueue id
            { queue with waitingThreads := (wakeLoop count 0 queue.waitingThreads).2 }).release
              address id (wakeLoop count 0 queue.waitingThreads).1).setCall thread
                (.leaving address id))
        else none
      | none => none
    | _ => none
  | .remove thread =>
    match process.calls thread with
    | .queued address id =>
      match process.queues id with
      | some queue =>
        if queue.lock = none then
          some ((process.setQueue id
            { queue with
              waitingThreads :=
                queue.waitingThreads.filter fun waiter => waiter.thread ≠ thread }).setCall
            thread (.leaving address id))
        else none
      | none => none
    | _ => none
  | .put thread =>
    match process.calls thread with
    | .leaving address id =>
      (process.putFutex thread address id).map fun after => after.setCall thread .idle
    | _ => none

def Steps (before : Process Thread) (action : Action Thread) (after : Process Thread) : Prop :=
  (action.run before).map (fun process => { process with clock := process.clock + 1 }) = some after

open Process

section Updates

section
variable (process : Process Thread) (thread : Thread) (call : Call) (id : Nat)
  (queue : FutexWaitQueue Thread)

@[simp] theorem set_call_queues : (process.setCall thread call).queues = process.queues := rfl

@[simp] theorem set_call_same : (process.setCall thread call).calls thread = call := by
  simp [setCall]

theorem set_call_other {thread other : Thread} (call : Call) (different : other ≠ thread) :
    (process.setCall thread call).calls other = process.calls other := by
  simp [setCall, different]

omit [DecidableEq Thread]

@[simp] theorem set_queue_calls : (process.setQueue id queue).calls = process.calls := rfl

@[simp] theorem set_queue_same : (process.setQueue id queue).queues id = some queue := by
  simp [setQueue]

end

variable {id other : Nat} {process : Process Thread}
omit [DecidableEq Thread]

theorem set_queue_other (process : Process Thread) (queue : FutexWaitQueue Thread)
    (different : other ≠ id) : (process.setQueue id queue).queues other = process.queues other := by
  simp [setQueue, different]

theorem set_queue_self {queue : FutexWaitQueue Thread} (present : process.queues id = some queue) :
    process.setQueue id queue = process := by
  simp [setQueue, ← present]

theorem set_queue_cases {changed found : FutexWaitQueue Thread}
    (present : (process.setQueue id changed).queues other = some found) :
    (other = id ∧ changed = found) ∨ (other ≠ id ∧ process.queues other = some found) := by
  by_cases own : other = id
  · subst own
    rw [set_queue_same, some.injEq] at present
    exact .inl ⟨rfl, present⟩
  · rw [set_queue_other _ _ own] at present
    exact .inr ⟨own, present⟩

def Process.addQueue (process : Process Thread) (address id : Nat) : Process Thread :=
  { process with tree := update process.tree address (some id) }.setQueue id
    (FutexWaitQueue.new address)

end Updates

section Consistency

/-- The queue is in the tree, counts its calls, and its threads are queued. -/
structure QueueSound (tree : Nat → Option Nat) (calls : Thread → Call) (id : Nat)
    (queue : FutexWaitQueue Thread) : Prop where
  listed : tree queue.address = some id
  counted : queue.refCount = queue.borrowers.length + 1
  waits : ∀ waiter ∈ queue.waitingThreads, calls waiter.thread = .queued queue.address id
  distinct : (queue.waitingThreads.map Waiter.thread).Nodup

/-- The tree and the queues agree, every call in progress is counted, and the
threads of a queue and the holder of its lock are at that point of their call. -/
structure Consistent (process : Process Thread) : Prop where
  known : ∀ address id, process.tree address = some id →
    ∃ queue, process.queues id = some queue ∧ queue.address = address
  each : ∀ id queue, process.queues id = some queue → QueueSound process.tree process.calls id queue
  borrowed : ∀ thread address id, (process.calls thread).borrows = some (address, id) →
    ∃ queue, process.queues id = some queue ∧ queue.address = address ∧ thread ∈ queue.borrowers
  locks : ∀ thread address expected id, process.calls thread = .locked address expected id ∨
    (∃ readAt, process.calls thread = .checked address expected id readAt) →
      ∃ queue, process.queues id = some queue ∧ queue.lock = some thread

omit [DecidableEq Thread] in
theorem start_consistent (words : Nat → Nat) : Consistent (start words : Process Thread) := by
  constructor <;> simp [start, Call.borrows]

/-- What a step of one thread may do to the queue of its call. -/
structure Touches (process : Process Thread) (thread : Thread) (id : Nat)
    (queue changed : FutexWaitQueue Thread) (call : Call) : Prop where
  present : process.queues id = some queue
  stays : ∀ address other, process.calls thread = .queued address other → other = id
  address : changed.address = queue.address
  counted : changed.refCount = changed.borrowers.length + 1
  others : ∀ other, other ≠ thread → other ∈ queue.borrowers → other ∈ changed.borrowers
  own : ∀ address touched, call.borrows = some (address, touched) →
    touched = id ∧ queue.address = address ∧ thread ∈ changed.borrowers
  waits : ∀ waiter ∈ changed.waitingThreads,
    (waiter.thread ≠ thread ∧ waiter ∈ queue.waitingThreads) ∨
      (waiter.thread = thread ∧ call = .queued queue.address id ∧
        waiter.queuedAt = process.clock ∧
          ∃ expected, process.calls thread = .checked queue.address expected id waiter.readAt)
  distinct : (changed.waitingThreads.map Waiter.thread).Nodup
  locks : ∀ other, other ≠ thread → queue.lock = some other → changed.lock = some other
  holds : ∀ address expected touched, call = .locked address expected touched ∨
    (∃ readAt, call = .checked address expected touched readAt) → changed.lock = some thread
  reads : ∀ address expected touched readAt, call = .checked address expected touched readAt →
    readAt = process.clock

/-- The parts a step is made of. -/
inductive Effect (before : Process Thread) : Process Thread → Prop
  | store (words : Nat → Nat) : Effect before { before with words := words }
  | create (address id : Nat) (missing : before.tree address = none)
      (unused : before.queues id = none) : Effect before (before.addQueue address id)
  | touch (thread : Thread) (id : Nat) (queue changed : FutexWaitQueue Thread) (call : Call)
      (touches : Touches before thread id queue changed call) :
      Effect before ((before.setQueue id changed).setCall thread call)
  | release (address id : Nat) (popped : List (Waiter Thread))
      (queued : ∀ waiter ∈ popped, (before.calls waiter.thread).borrows = some (address, id))
      (gone : ∀ other queue, before.queues other = some queue →
        ∀ waiter ∈ queue.waitingThreads, waiter.thread ∉ popped.map Waiter.thread) :
      Effect before (before.release address id popped)

variable {process : Process Thread} {thread : Thread} {id : Nat}
  {queue changed : FutexWaitQueue Thread} {call : Call}

theorem touched_queue (touches : Touches process thread id queue changed call) {other : Nat}
    {old : FutexWaitQueue Thread} (present : process.queues other = some old) :
    ∃ new, ((process.setQueue id changed).setCall thread call).queues other = some new ∧
      new.address = old.address ∧
      ∀ another, another ≠ thread → (another ∈ old.borrowers → another ∈ new.borrowers) ∧
        (old.lock = some another → new.lock = some another) := by
  by_cases own : other = id
  · subst own
    rw [touches.present] at present
    cases present
    exact ⟨changed, by simp, touches.address,
      fun another different => ⟨touches.others another different, touches.locks another different⟩⟩
  · exact ⟨old, by rw [set_call_queues, set_queue_other _ _ own, present], rfl,
      fun _ _ => ⟨fun member => member, fun locked => locked⟩⟩

theorem touch_consistent (consistent : Consistent process)
    (touches : Touches process thread id queue changed call) :
    Consistent ((process.setQueue id changed).setCall thread call) := by
  constructor
  · intro address other found
    obtain ⟨old, oldPresent, same⟩ := consistent.known address other found
    obtain ⟨new, newPresent, kept, _⟩ := touched_queue touches oldPresent
    exact ⟨new, newPresent, kept.trans same⟩
  · intro other found foundPresent
    rcases set_queue_cases foundPresent with ⟨rfl, rfl⟩ | ⟨own, old⟩
    · have sound := consistent.each other queue touches.present
      refine ⟨?_, touches.counted, ?_, touches.distinct⟩
      · rw [touches.address]
        exact sound.listed
      · intro waiter member
        rw [touches.address]
        rcases touches.waits waiter member with ⟨self, old⟩ | ⟨self, queued, _⟩
        · rw [set_call_other _ _ self]
          exact sound.waits waiter old
        · rw [self, set_call_same]
          exact queued
    · have sound := consistent.each other found old
      refine ⟨sound.listed, sound.counted, ?_, sound.distinct⟩
      intro waiter member
      have queued := sound.waits waiter member
      have self : waiter.thread ≠ thread := by
        intro same
        exact own (touches.stays found.address other (same ▸ queued))
      rw [set_call_other _ _ self]
      exact queued
  · intro other address touched borrows
    by_cases self : other = thread
    · subst self
      rw [set_call_same] at borrows
      obtain ⟨rfl, same, member⟩ := touches.own address touched borrows
      exact ⟨changed, by simp, touches.address.trans same, member⟩
    · rw [set_call_other _ _ self] at borrows
      obtain ⟨old, oldPresent, same, member⟩ := consistent.borrowed other address touched borrows
      obtain ⟨new, newPresent, kept, rest⟩ := touched_queue touches oldPresent
      exact ⟨new, newPresent, kept.trans same, (rest other self).1 member⟩
  · intro other address expected touched holds
    by_cases self : other = thread
    · subst self
      rw [set_call_same] at holds
      have locked := touches.holds address expected touched holds
      have borrows : call.borrows = some (address, touched) := by
        rcases holds with rfl | ⟨_, rfl⟩ <;> rfl
      obtain ⟨rfl, _⟩ := touches.own address touched borrows
      exact ⟨changed, by simp, locked⟩
    · rw [set_call_other _ _ self] at holds
      obtain ⟨old, oldPresent, locked⟩ := consistent.locks other address expected touched holds
      obtain ⟨new, newPresent, _, rest⟩ := touched_queue touches oldPresent
      exact ⟨new, newPresent, (rest other self).2 locked⟩

variable {address : Nat}

omit [DecidableEq Thread] in
theorem add_queue_consistent (consistent : Consistent process)
    (missing : process.tree address = none) (unused : process.queues id = none) :
    Consistent (process.addQueue address id) := by
  have elsewhere : ∀ other queue, process.queues other = some queue →
      queue.address ≠ address ∧ (process.addQueue address id).queues other = some queue := by
    intro other queue present
    constructor
    · intro same
      have listed := (consistent.each other queue present).listed
      simp [same, missing] at listed
    · have different : other ≠ id := by
        rintro rfl
        simp [unused] at present
      exact (set_queue_other _ _ different).trans present
  constructor
  · intro wanted other found
    simp only [addQueue, setQueue, update_apply] at found
    split at found
    · rename_i same
      cases found
      exact ⟨_, set_queue_same _ _ _, same.symm⟩
    · obtain ⟨queue, present, same⟩ := consistent.known wanted other found
      exact ⟨queue, (elsewhere other queue present).2, same⟩
  · intro other queue present
    rcases set_queue_cases present with ⟨rfl, rfl⟩ | ⟨_, old⟩
    · exact ⟨update_self _ _ _, rfl, nofun, nodup_nil⟩
    · have sound := consistent.each other queue old
      exact ⟨(update_of_ne (elsewhere other queue old).1 _ _).trans sound.listed, sound.counted,
        sound.waits, sound.distinct⟩
  · intro other wanted touched borrows
    obtain ⟨queue, present, rest⟩ := consistent.borrowed other wanted touched borrows
    exact ⟨queue, (elsewhere touched queue present).2, rest⟩
  · intro other wanted expected touched holds
    obtain ⟨queue, present, locked⟩ := consistent.locks other wanted expected touched holds
    exact ⟨queue, (elsewhere touched queue present).2, locked⟩

theorem release_consistent (consistent : Consistent process) {popped : List (Waiter Thread)}
    (queued : ∀ waiter ∈ popped, (process.calls waiter.thread).borrows = some (address, id))
    (gone : ∀ other queue, process.queues other = some queue →
      ∀ waiter ∈ queue.waitingThreads, waiter.thread ∉ popped.map Waiter.thread) :
    Consistent (process.release address id popped) := by
  constructor
  · exact consistent.known
  · intro other queue present
    have sound := consistent.each other queue present
    refine ⟨sound.listed, sound.counted, ?_, sound.distinct⟩
    intro waiter member
    simp only [release, if_neg (gone other queue present waiter member)]
    exact sound.waits waiter member
  · intro thread wanted touched borrows
    simp only [release] at borrows
    split at borrows
    · rename_i member
      obtain ⟨waiter, inside, rfl⟩ := mem_map.mp member
      cases borrows
      exact consistent.borrowed waiter.thread address id (queued waiter inside)
    · exact consistent.borrowed thread wanted touched borrows
  · intro thread wanted expectation touched holds
    simp only [release] at holds
    split at holds
    · simp at holds
    · exact consistent.locks thread wanted expectation touched holds

theorem effect_consistent {before after : Process Thread} (consistent : Consistent before)
    (effect : Effect before after) : Consistent after := by
  cases effect with
  | store words =>
    exact ⟨consistent.known, consistent.each, consistent.borrowed, consistent.locks⟩
  | create address id missing unused => exact add_queue_consistent consistent missing unused
  | touch thread id queue changed call touches => exact touch_consistent consistent touches
  | release address id popped queued gone =>
    exact release_consistent consistent queued gone

end Consistency

open Relation (ReflTransGen)

section Actions
variable {process after : Process Thread} {thread : Thread} {address id : Nat}
  {queue : FutexWaitQueue Thread} {call : Call}

section
variable (consistent : Consistent process)
include consistent

section
omit [DecidableEq Thread]

/-- A thread that is not queued is in no queue. -/
theorem not_waiting (thread : Thread)
    (elsewhere : ∀ address id, process.calls thread ≠ .queued address id)
    (present : process.queues id = some queue) (waiter : Waiter Thread)
    (member : waiter ∈ queue.waitingThreads) : waiter.thread ≠ thread := by
  rintro rfl
  exact elsewhere _ _ ((consistent.each id queue present).waits waiter member)

theorem borrowed_queue (borrows : (process.calls thread).borrows = some (address, id))
    (present : process.queues id = some queue) :
    queue.address = address ∧ thread ∈ queue.borrowers := by
  obtain ⟨found, foundPresent, same, borrower⟩ := consistent.borrowed thread address id borrows
  rw [present] at foundPresent
  cases foundPresent
  exact ⟨same, borrower⟩

theorem lock_holder {expected : Nat} (holds : process.calls thread = .locked address expected id ∨
      ∃ readAt, process.calls thread = .checked address expected id readAt)
    (present : process.queues id = some queue) : queue.lock = some thread := by
  obtain ⟨found, foundPresent, locked⟩ := consistent.locks thread address expected id holds
  rw [present] at foundPresent
  cases foundPresent
  exact locked

theorem borrow_touches (idle : process.calls thread = .idle)
    (present : process.queues id = some queue) (listed : queue.address = address)
    (looked : (∃ expected, call = .found address expected id) ∨
      ∃ count, call = .waking address count id) :
    Touches process thread id queue
      { queue with refCount := queue.refCount + 1, borrowers := thread :: queue.borrowers } call := by
  have others := not_waiting consistent thread (by simp [idle]) present
  constructor
  · exact present
  · simp [idle]
  · rfl
  · simp [(consistent.each id queue present).counted]
  · intro other _ member
    exact mem_cons_of_mem _ member
  · intro wanted touched borrows
    rcases looked with ⟨expected, rfl⟩ | ⟨count, rfl⟩ <;> cases borrows <;>
      exact ⟨rfl, listed, mem_cons_self⟩
  · intro waiter member
    exact .inl ⟨others waiter member, member⟩
  · exact (consistent.each id queue present).distinct
  · intro _ _ locked
    exact locked
  · rcases looked with ⟨expected, rfl⟩ | ⟨count, rfl⟩ <;> simp
  · rcases looked with ⟨expected, rfl⟩ | ⟨count, rfl⟩ <;> simp

end

section Work
variable (lock : Option Thread) (borrows : (process.calls thread).borrows = some (address, id))
  (present : process.queues id = some queue) (same : call.borrows = some (address, id))
  (mine : queue.lock = none ∨ queue.lock = some thread)
  (holds : ∀ wanted expected touched, call = .locked wanted expected touched ∨
    (∃ readAt, call = .checked wanted expected touched readAt) → lock = some thread)
  (reads : ∀ wanted expected touched readAt, call = .checked wanted expected touched readAt →
    readAt = process.clock)
include borrows present same mine holds reads

omit [DecidableEq Thread] in
/-- The steps between the lookup and `PutFutex`: they change the lock and the waiting threads. -/
theorem work_touches (waiting : List (Waiter Thread))
    (waits : ∀ waiter ∈ waiting, (waiter.thread ≠ thread ∧ waiter ∈ queue.waitingThreads) ∨
      (waiter.thread = thread ∧ call = .queued queue.address id ∧
        waiter.queuedAt = process.clock ∧
          ∃ expected, process.calls thread = .checked queue.address expected id waiter.readAt))
    (distinct : (waiting.map Waiter.thread).Nodup) :
    Touches process thread id queue { queue with lock := lock, waitingThreads := waiting } call := by
  obtain ⟨listed, borrower⟩ := borrowed_queue consistent borrows present
  constructor
  · exact present
  · intro wanted other queued
    rw [queued] at borrows
    cases borrows
    rfl
  · rfl
  · exact (consistent.each id queue present).counted
  · intro _ _ member
    exact member
  · intro wanted touched touches
    rw [same] at touches
    cases touches
    exact ⟨rfl, listed, borrower⟩
  · exact waits
  · exact distinct
  · intro other different held
    rcases mine with free | own
    · simp [free] at held
    · rw [own] at held
      exact absurd (Option.some.inj held).symm different
  · exact holds
  · exact reads

theorem relock_effects (elsewhere : ∀ wanted other, process.calls thread ≠ .queued wanted other) :
    ReflTransGen Effect process
      ((process.setQueue id { queue with lock := lock }).setCall thread call) := by
  have others := not_waiting consistent thread elsewhere present
  refine .single (.touch thread id queue _ call (work_touches consistent lock borrows present same
    mine holds reads queue.waitingThreads ?_ (consistent.each id queue present).distinct))
  intro waiter member
  exact .inl ⟨others waiter member, member⟩

end Work

theorem put_touches (leaves : process.calls thread = .leaving address id)
    (present : process.queues id = some queue) :
    Touches process thread id queue
      { queue with refCount := queue.refCount - 1, borrowers := queue.borrowers.erase thread }
      .idle := by
  have borrows : (process.calls thread).borrows = some (address, id) := by
    rw [leaves]
    rfl
  obtain ⟨_, borrower⟩ := borrowed_queue consistent borrows present
  have others := not_waiting consistent thread (by simp [leaves]) present
  constructor
  · exact present
  · simp [leaves]
  · rfl
  · have counted := (consistent.each id queue present).counted
    have positive := length_pos_of_mem borrower
    simp only [length_erase_of_mem borrower]
    omega
  · intro other different member
    exact (mem_erase_of_ne different).mpr member
  · simp [Call.borrows]
  · intro waiter member
    exact .inl ⟨others waiter member, member⟩
  · exact (consistent.each id queue present).distinct
  · intro _ _ locked
    exact locked
  · simp
  · simp

end

omit [DecidableEq Thread] in
theorem wake_loop_split (count woken : Nat) (waiting : List (Waiter Thread)) :
    (wakeLoop count woken waiting).1 ++ (wakeLoop count woken waiting).2 = waiting := by
  induction waiting generalizing woken with
  | nil => rfl
  | cons waiter rest ih =>
    simp only [wakeLoop]
    split
    · simp [ih]
    · rfl

omit [DecidableEq Thread] in
theorem wake_loop_all (count woken : Nat) (waiting : List (Waiter Thread)) (word : count < 2 ^ 31)
    (covers : woken + waiting.length ≤ count) : (wakeLoop count woken waiting).2 = [] := by
  induction waiting generalizing woken with
  | nil => rfl
  | cons waiter rest ih =>
    rw [length_cons] at covers
    have below : (woken : Int) < signedCount count := by
      rw [signedCount, if_pos word]
      omega
    simp only [wakeLoop, if_pos below]
    exact ih (woken + 1) (by omega)

theorem release_set_call (process : Process Thread) (thread : Thread) (address id : Nat)
    (popped : List (Waiter Thread)) :
    (process.release address id popped).setCall thread (.leaving address id) =
      (process.setCall thread (.leaving address id)).release address id popped := by
  simp only [release, setCall, mk.injEq, true_and, and_true]
  funext other
  simp only [update_apply]
  split_ifs <;> rfl

section
variable (consistent : Consistent process)
include consistent

theorem wake_effects (done : (Action.wake thread).run process = some after) :
    ReflTransGen Effect process after := by
  simp only [Action.run] at done
  split at done
  case h_2 => cases done
  rename_i address count id wakes
  split at done
  case h_2 => cases done
  rename_i queue present
  split_ifs at done with unlocked
  cases done
  have borrows : (process.calls thread).borrows = some (address, id) := by
    rw [wakes]
    rfl
  obtain ⟨same, borrower⟩ := borrowed_queue consistent borrows present
  have others := not_waiting consistent thread (by simp [wakes]) present
  have parts := wake_loop_split count 0 queue.waitingThreads
  have distinct := (consistent.each id queue present).distinct
  rw [← parts, map_append, nodup_append] at distinct
  have first : ∀ waiter ∈ (wakeLoop count 0 queue.waitingThreads).1,
      waiter ∈ queue.waitingThreads := by
    intro waiter member
    rw [← parts]
    exact mem_append_left _ member
  rw [release_set_call]
  refine (ReflTransGen.single (Effect.touch thread id queue _ _ (work_touches consistent queue.lock
    borrows present rfl (.inl unlocked) (by simp) (by simp)
      (wakeLoop count 0 queue.waitingThreads).2 ?_ distinct.2.1))).tail
        (Effect.release address id _ ?_ ?_)
  · intro waiter member
    have inside : waiter ∈ queue.waitingThreads := by
      rw [← parts]
      exact mem_append_right _ member
    exact .inl ⟨others waiter inside, inside⟩
  · intro waiter member
    rw [set_call_other _ _ (others waiter (first waiter member)), set_queue_calls,
      (consistent.each id queue present).waits waiter (first waiter member), same]
    rfl
  · intro other changed changedPresent waiter member popped
    rcases set_queue_cases changedPresent with ⟨rfl, rfl⟩ | ⟨own, old⟩
    · exact distinct.2.2 waiter.thread popped waiter.thread (mem_map_of_mem member) rfl
    · obtain ⟨woken, wokenMember, sameThread⟩ := mem_map.mp popped
      have here := (consistent.each id queue present).waits woken (first woken wokenMember)
      have there := (consistent.each other changed old).waits waiter member
      rw [← sameThread, here, Call.queued.injEq] at there
      exact own there.2.symm

theorem wait_lookup_effects {expected allocated : Nat}
    (done : (Action.waitLookup thread address expected allocated).run process = some after) :
    ReflTransGen Effect process after := by
  simp only [Action.run] at done
  split at done
  case h_2 => cases done
  rename_i idle
  cases known : process.tree address with
  | some id =>
    obtain ⟨queue, present, listed⟩ := consistent.known address id known
    simp only [getOrCreateFutex, known, present, map_some, some.injEq] at done
    exact done ▸ .single (.touch thread id queue _ _
      (borrow_touches consistent idle present listed (.inl ⟨expected, rfl⟩)))
  | none =>
    cases unused : process.queues allocated with
    | some queue => simp [getOrCreateFutex, known, unused] at done
    | none =>
      simp only [getOrCreateFutex, known, unused, map_some, some.injEq] at done
      have opened : Effect process (process.addQueue address allocated) :=
        Effect.create address allocated known unused
      have touches := borrow_touches (effect_consistent consistent opened)
        (show (process.addQueue address allocated).calls thread = .idle from idle)
        (set_queue_same _ allocated (FutexWaitQueue.new address)) rfl (.inl ⟨expected, rfl⟩)
      have borrowed := (ReflTransGen.single opened).tail (Effect.touch thread allocated _ _ _ touches)
      simp only [addQueue, setQueue, update_idem] at borrowed
      exact done ▸ borrowed

theorem wake_lookup_effects {count : Nat}
    (done : (Action.wakeLookup thread address count).run process = some after) :
    ReflTransGen Effect process after := by
  simp only [Action.run] at done
  split at done
  case h_2 => cases done
  rename_i idle
  cases known : process.tree address with
  | some id =>
    obtain ⟨queue, present, listed⟩ := consistent.known address id known
    simp only [getFutexForWake, known, present, map_some, some.injEq] at done
    exact done ▸ .single (.touch thread id queue _ _
      (borrow_touches consistent idle present listed (.inr ⟨count, rfl⟩)))
  | none =>
    simp only [getFutexForWake, known, some.injEq] at done
    exact done ▸ .refl

theorem lock_effects (done : (Action.waitLock thread).run process = some after) :
    ReflTransGen Effect process after := by
  simp only [Action.run] at done
  split at done
  case h_2 => cases done
  rename_i address expected id waits
  split at done
  case h_2 => cases done
  rename_i queue present
  split_ifs at done with unlocked
  cases done
  exact relock_effects consistent _ (by rw [waits]; rfl) present rfl (.inl unlocked)
    (fun _ _ _ _ => rfl) (by simp) (by simp [waits])

theorem read_effects {faults : Bool}
    (done : (Action.waitRead thread faults).run process = some after) :
    ReflTransGen Effect process after := by
  simp only [Action.run] at done
  split at done
  case h_2 => cases done
  rename_i address expected id waits
  split at done
  case h_2 => cases done
  rename_i queue present
  have locked := lock_holder consistent (.inl waits) present
  split_ifs at done
  · cases done
    have effects := relock_effects consistent _ (by rw [waits]; rfl) present
      (show (Call.checked address expected id process.clock).borrows = _ from rfl)
      (.inr locked) (fun _ _ _ _ => locked) (by rintro _ _ _ _ ⟨⟩; rfl) (by simp [waits])
    rw [set_queue_self present] at effects
    exact effects
  · cases done
    exact relock_effects consistent _ (by rw [waits]; rfl) present rfl (.inr locked) (by simp)
      (by simp) (by simp [waits])

theorem enqueue_effects (done : (Action.waitQueue thread).run process = some after) :
    ReflTransGen Effect process after := by
  simp only [Action.run] at done
  split at done
  case h_2 => cases done
  rename_i address expected id readAt waits
  split at done
  case h_2 => cases done
  rename_i queue present
  cases done
  have borrows : (process.calls thread).borrows = some (address, id) := by
    rw [waits]
    rfl
  have listed := (borrowed_queue consistent borrows present).1
  have locked := lock_holder consistent (.inr ⟨readAt, waits⟩) present
  have others := not_waiting consistent thread (by simp [waits]) present
  refine .single (.touch thread id queue _ _ (work_touches consistent none borrows present rfl
    (.inr locked) (by simp) (by simp) _ ?_ ?_))
  · intro waiter member
    rcases mem_append.mp member with old | own
    · exact .inl ⟨others waiter old, old⟩
    · rw [mem_singleton] at own
      subst own
      rw [listed]
      exact .inr ⟨rfl, rfl, rfl, expected, waits⟩
  · have absent : thread ∉ queue.waitingThreads.map Waiter.thread := by
      intro member
      obtain ⟨waiter, inside, sameThread⟩ := mem_map.mp member
      exact others waiter inside sameThread
    rw [map_append, map_singleton, ← concat_eq_append, nodup_concat]
    exact ⟨absent, (consistent.each id queue present).distinct⟩

theorem remove_effects (done : (Action.remove thread).run process = some after) :
    ReflTransGen Effect process after := by
  simp only [Action.run] at done
  split at done
  case h_2 => cases done
  rename_i address id waits
  split at done
  case h_2 => cases done
  rename_i queue present
  split_ifs at done with unlocked
  cases done
  refine .single (.touch thread id queue _ _ (work_touches consistent queue.lock
    (by simp [waits, Call.borrows]) present rfl (.inl unlocked) (by simp) (by simp) _ ?_ ?_))
  · intro waiter member
    obtain ⟨inside, different⟩ := mem_filter.mp member
    exact .inl ⟨by simpa using different, inside⟩
  · exact (consistent.each id queue present).distinct.sublist ((filter_sublist).map Waiter.thread)

theorem put_effects (done : (Action.put thread).run process = some after) :
    ReflTransGen Effect process after := by
  simp only [Action.run] at done
  split at done
  case h_2 => cases done
  rename_i address id leaves
  obtain ⟨middle, put, rfl⟩ := map_eq_some_iff.mp done
  unfold putFutex at put
  split at put
  · cases put
  rename_i queue present
  have touches := put_touches consistent leaves present
  rw [if_neg (by have := touches.counted; simp at this; omega)] at put
  cases put
  exact .single (.touch thread id queue _ _ touches)

end

theorem action_effects {action : Action Thread} (consistent : Consistent process)
    (done : action.run process = some after) : ReflTransGen Effect process after := by
  cases action with
  | store =>
    cases done
    exact .single (.store _)
  | waitLookup => exact wait_lookup_effects consistent done
  | wakeLookup => exact wake_lookup_effects consistent done
  | put => exact put_effects consistent done
  | waitLock => exact lock_effects consistent done
  | waitRead => exact read_effects consistent done
  | waitQueue => exact enqueue_effects consistent done
  | wake => exact wake_effects consistent done
  | remove => exact remove_effects consistent done

end Actions

section Times

/-- Every thread in a queue of the address, and every thread about to queue
there, has read the word at `time` or later. -/
structure Reread (time address : Nat) (process : Process Thread) : Prop where
  later : time ≤ process.clock
  queued : ∀ id queue, process.queues id = some queue → queue.address = address →
    ∀ waiter ∈ queue.waitingThreads, time ≤ waiter.readAt ∧ time ≤ waiter.queuedAt
  checked : ∀ thread expected id readAt,
    process.calls thread = .checked address expected id readAt → time ≤ readAt

variable {after before : Process Thread}

theorem effect_reread (time address : Nat) (effect : Effect before after)
    (reread : Reread time address before) : Reread time address after := by
  cases effect with
  | store words => exact ⟨reread.later, reread.queued, reread.checked⟩
  | create wanted id missing unused =>
    refine ⟨reread.later, ?_, reread.checked⟩
    intro other queue present listed waiter member
    rcases set_queue_cases present with ⟨_, rfl⟩ | ⟨_, old⟩
    · cases member
    · exact reread.queued other queue old listed waiter member
  | touch thread id queue changed call touches =>
    refine ⟨reread.later, ?_, ?_⟩
    · intro other found present listed waiter member
      rcases set_queue_cases present with ⟨_, rfl⟩ | ⟨_, old⟩
      · rw [touches.address] at listed
        rcases touches.waits waiter member with ⟨_, old⟩ | ⟨_, _, queuedAt, expected, checked⟩
        · exact reread.queued id queue touches.present listed waiter old
        · rw [listed] at checked
          exact ⟨reread.checked thread expected id _ checked, queuedAt ▸ reread.later⟩
      · exact reread.queued other found old listed waiter member
    · intro other expected touched readAt checked
      by_cases self : other = thread
      · subst self
        rw [set_call_same] at checked
        exact touches.reads _ _ _ _ checked ▸ reread.later
      · rw [set_call_other _ _ self] at checked
        exact reread.checked other expected touched readAt checked
  | release wanted id popped queued gone =>
    refine ⟨reread.later, reread.queued, ?_⟩
    intro thread expected touched readAt checked
    simp only [release] at checked
    split at checked
    · cases checked
    · exact reread.checked thread expected touched readAt checked

theorem effect_clock (effect : Effect before after) : before.clock ≤ after.clock := by
  cases effect <;> exact le_rfl

theorem effect_queues (effect : Effect before after) (id : Nat)
    (exists' : before.queues id ≠ none) : after.queues id ≠ none := by
  have replaced : ∀ (process : Process Thread) other queue,
      process.queues id ≠ none → (process.setQueue other queue).queues id ≠ none := by
    intro process other queue old
    by_cases own : id = other
    · rw [own, set_queue_same]
      exact some_ne_none _
    · rw [set_queue_other _ _ own]
      exact old
  cases effect with
  | store | release => exact exists'
  | create | touch => exact replaced _ _ _ exists'

/-- What holds later in a run. -/
structure Later (before after : Process Thread) : Prop where
  consistent : Consistent after
  clock : before.clock ≤ after.clock
  queues : ∀ id, before.queues id ≠ none → after.queues id ≠ none
  reread : ∀ time address, Reread time address before → Reread time address after

omit [DecidableEq Thread] in
theorem later_trans {first second third : Process Thread} (before : Later first second)
    (after : Later second third) : Later first third :=
  ⟨after.consistent, le_trans before.clock after.clock,
    fun id present => after.queues id (before.queues id present),
    fun time address reread => after.reread time address (before.reread time address reread)⟩

omit [DecidableEq Thread] in
theorem later_refl {process : Process Thread} (consistent : Consistent process) :
    Later process process :=
  ⟨consistent, le_rfl, fun _ present => present, fun _ _ reread => reread⟩

section
variable (consistent : Consistent before)
include consistent

theorem effects_later (effects : Relation.ReflTransGen Effect before after) :
    Later before after := by
  induction effects with
  | refl => exact later_refl consistent
  | tail _ effect ih =>
    apply later_trans ih
    exact ⟨effect_consistent ih.consistent effect, effect_clock effect, effect_queues effect,
      fun time address => effect_reread time address effect⟩

theorem steps_later {action : Action Thread} (step : Steps before action after) :
    Later before after := by
  simp only [Steps, map_eq_some_iff] at step
  obtain ⟨middle, done, rfl⟩ := step
  have effects := action_effects consistent done
  apply later_trans (effects_later consistent effects)
  have kept := (effects_later consistent effects).consistent
  exact ⟨⟨kept.known, kept.each, kept.borrowed, kept.locks⟩, Nat.le_succ _,
    fun _ present => present, fun _ _ reread =>
      ⟨le_trans reread.later (Nat.le_succ _), reread.queued, reread.checked⟩⟩

theorem run_later {actions : List (Action Thread)} (run : Run Steps before actions after) :
    Later before after := by
  refine run_invariant (Later before) ?_ (later_refl consistent) run
  intro state action next kept step
  exact later_trans kept (steps_later kept.consistent step)

end
end Times

/-- A `FUTEX_WAKE` of the address from its critical section on, or from the
lookup if that finds no queue. Its count covers the threads that are queued. -/
def Wakes (before : Process Thread) (address : Nat) (after : Process Thread) : Prop :=
  (before.tree address = none ∧
    ∃ waker count, Steps before (.wakeLookup waker address count) after) ∨
  ∃ waker count id queue, before.calls waker = .waking address count id ∧
    before.queues id = some queue ∧ count < 2 ^ 31 ∧ queue.waitingThreads.length ≤ count ∧
    Steps before (.wake waker) after

theorem wakes_reread {before : Process Thread} {address : Nat} {after : Process Thread}
    (consistent : Consistent before) (wakes : Wakes before address after) :
    Reread before.clock address after := by
  rcases wakes with ⟨missing, waker, count, step⟩ |
    ⟨waker, count, id, queue, waking, present, word, covers, step⟩
  · refine (steps_later consistent step).reread before.clock address ⟨le_rfl, ?_, ?_⟩
    · intro id queue present listed
      have known := (consistent.each id queue present).listed
      rw [listed, missing] at known
      cases known
    · intro thread expected id readAt checked
      obtain ⟨queue, present, listed, _⟩ :=
        consistent.borrowed thread address id (by simp [checked, Call.borrows])
      have known := (consistent.each id queue present).listed
      rw [listed, missing] at known
      cases known
  · obtain ⟨listed, _⟩ := borrowed_queue consistent (by rw [waking]; rfl) present
    have only : ∀ other found, before.queues other = some found → found.address = address →
        other = id := by
      intro other found foundPresent same
      have here := (consistent.each id queue present).listed
      have there := (consistent.each other found foundPresent).listed
      rw [same, ← listed, here] at there
      exact (Option.some.inj there).symm
    simp only [Steps, Action.run, waking, present] at step
    split at step
    · rename_i unlocked
      have unchecked : ∀ thread expected readAt,
          before.calls thread ≠ .checked address expected id readAt := by
        intro thread expected readAt checked
        have locked := lock_holder consistent (.inr ⟨readAt, checked⟩) present
        rw [unlocked] at locked
        cases locked
      cases step
      refine ⟨Nat.le_succ _, ?_, ?_⟩
      · intro other found foundPresent same waiter member
        by_cases own : other = id
        · subst own
          simp only [release, set_call_queues, set_queue_same, some.injEq]
            at foundPresent
          subst foundPresent
          simp [wake_loop_all count 0 queue.waitingThreads word (by omega)] at member
        · simp only [release, set_call_queues, set_queue_other _ _ own] at foundPresent
          exact absurd (only other found foundPresent same) own
      · intro thread expected touched readAt checked
        by_cases self : thread = waker
        · subst self
          simp at checked
        · simp only [set_call_other _ _ self, release, set_queue_calls] at checked
          split at checked
          · cases checked
          · obtain ⟨found, foundPresent, same, _⟩ :=
              consistent.borrowed thread address touched (by simp [checked, Call.borrows])
            rw [only touched found foundPresent same] at checked
            exact absurd checked (unchecked thread expected readAt)
    · cases step

/-- No wake-up is lost: after a store to the word and a wake that covers the
queue, everyone who is queued has queued later, having read the word after the
store. The queue of a waiting thread is in the tree at its address, and no queue
is ever deleted. -/
theorem futex_wakeups_kept (words : Nat → Nat) (actions : List (Action Thread))
    (process : Process Thread) (run : Run Steps (start words) actions process) :
    (∀ id queue, process.queues id = some queue → ∀ waiter ∈ queue.waitingThreads,
      ∃ address, process.calls waiter.thread = .queued address id ∧
        process.tree address = some id) ∧
    (∀ actions later, Run Steps process actions later →
      ∀ id, process.queues id ≠ none → later.queues id ≠ none) ∧
    ∀ address value stored, Steps process (.store address value) stored →
      ∀ actions waking, Run Steps stored actions waking →
      ∀ finished, Wakes waking address finished →
      ∀ actions later, Run Steps finished actions later →
      ∀ id queue, later.tree address = some id → later.queues id = some queue →
      ∀ waiter ∈ queue.waitingThreads,
        waking.clock ≤ waiter.queuedAt ∧ process.clock < waiter.readAt := by
  have consistent := (run_later (start_consistent words) run).consistent
  refine ⟨?_, ?_, ?_⟩
  · intro id queue present waiter member
    exact ⟨queue.address, (consistent.each id queue present).waits waiter member,
      (consistent.each id queue present).listed⟩
  · intro actions later rest
    exact (run_later consistent rest).queues
  · intro address value stored store before waking first finished wakes after later second
      id queue known present waiter member
    have storedConsistent := (steps_later consistent store).consistent
    have storedClock : stored.clock = process.clock + 1 := by
      cases store
      rfl
    have wakingLater := run_later storedConsistent first
    have reread := wakes_reread wakingLater.consistent wakes
    have finishedConsistent : Consistent finished := by
      rcases wakes with ⟨_, waker, count, step⟩ | ⟨waker, count, _, _, _, _, _, _, step⟩
      · exact (steps_later wakingLater.consistent step).consistent
      · exact (steps_later wakingLater.consistent step).consistent
    have last := run_later finishedConsistent second
    obtain ⟨found, foundPresent, listed⟩ := last.consistent.known address id known
    rw [present] at foundPresent
    cases foundPresent
    obtain ⟨read, queued⟩ :=
      (last.reread waking.clock address reread).queued id queue present listed waiter member
    have clock := wakingLater.clock
    exact ⟨queued, by omega⟩

/-- Thread 0 queues after the store although it read the word before it, the
wake pops it, and thread 2 queues with the new value. -/
theorem futex_wakeups_kept_late_waiter :
    ∃ process stored waking finished later : Process Nat, ∃ queue,
      Run Steps (start fun _ => 5)
        [.waitLookup 0 16 5 1, .waitLock 0, .waitRead 0 false] process ∧
      Steps process (.store 16 6) stored ∧
      Run Steps stored [.waitQueue 0, .wakeLookup 1 16 1] waking ∧ Wakes waking 16 finished ∧
      Run Steps finished [.waitLookup 2 16 6 3, .waitLock 2, .waitRead 2 false, .waitQueue 2] later ∧
      later.tree 16 = some 1 ∧ later.queues 1 = some queue ∧
      queue.waitingThreads = [⟨2, 9, 10⟩] ∧ waking.clock ≤ 10 ∧ process.clock < 9 := by
  refine ⟨_, _, _, _, _, _, run_cons rfl (run_cons rfl (run_cons rfl (.nil _))), rfl,
    run_cons rfl (run_cons rfl (.nil _)), .inr ⟨1, 1, 1, _, rfl, rfl, by decide, by decide, rfl⟩,
    run_cons rfl (run_cons rfl (run_cons rfl (run_cons rfl (.nil _)))), rfl, rfl, rfl, ?_⟩
  exact (@futex_wakeups_kept Nat instDecidableEqNat (fun _ => 5) [.waitLookup 0 16 5 1, .waitLock 0,
    .waitRead 0 false] _ (run_cons rfl (run_cons rfl (run_cons rfl (.nil _))))).2.2 16 6 _ rfl
    [.waitQueue 0, .wakeLookup 1 16 1] _ (run_cons rfl (run_cons rfl (.nil _))) _
    (.inr ⟨1, 1, 1, _, rfl, rfl, by decide, by decide, rfl⟩)
    [.waitLookup 2 16 6 3, .waitLock 2, .waitRead 2 false, .waitQueue 2] _
    (run_cons rfl (run_cons rfl (run_cons rfl (run_cons rfl (.nil _))))) 1 _ rfl rfl ⟨2, 9, 10⟩
    mem_cons_self

/-- The calls between the lookup of a queue and its release. -/
def Process.users (process : Process Thread) (address id : Nat) : Set Thread :=
  {thread | (process.calls thread).borrows = some (address, id)}

/-- `refCount` is the number of calls that use the queue, the tree holds a queue
exactly while it is used, and nothing remains once every call has returned. -/
structure Balanced (process : Process Thread) : Prop where
  counts : ∀ id queue, process.queues id = some queue →
    (queue.refCount : ENat) = (process.users queue.address id).encard
  used : ∀ address id, process.tree address = some id ↔ (process.users address id).Nonempty
  returned : (∀ thread, process.calls thread = .idle) →
    (∀ address, process.tree address = none) ∧ ∀ id, process.queues id = none

section Balance
variable {process after : Process Thread}

section
variable (consistent : Consistent process)
include consistent
omit [DecidableEq Thread]

/-- The reference of the constructor is given back by no call. -/
theorem users_below_count {id : Nat} {queue : FutexWaitQueue Thread}
    (present : process.queues id = some queue) :
    (process.users queue.address id).encard < queue.refCount := by
  classical
  have inside : process.users queue.address id ⊆ queue.borrowers.toFinset := by
    intro thread borrows
    simpa using (borrowed_queue consistent borrows present).2
  have bounded : (process.users queue.address id).encard ≤ queue.borrowers.length := by
    apply (Set.encard_le_encard inside).trans
    rw [Set.encard_coe_eq_coe_finsetCard]
    exact_mod_cast queue.borrowers.toFinset_card_le
  apply bounded.trans_lt
  rw [(consistent.each id queue present).counted]
  exact_mod_cast Nat.lt_succ_self _

theorem queueless (empty : ∀ id, process.queues id = none) :
    (∀ address, process.tree address = none) ∧ ∀ thread, process.calls thread = .idle := by
  constructor
  · intro address
    cases known : process.tree address with
    | none => rfl
    | some id =>
      obtain ⟨queue, present, _⟩ := consistent.known address id known
      simp [empty] at present
  · intro thread
    have unused : ∀ address id, (process.calls thread).borrows ≠ some (address, id) := by
      intro address id borrows
      obtain ⟨queue, present, _⟩ := consistent.borrowed thread address id borrows
      simp [empty] at present
    cases at_ : process.calls thread <;> simp [at_, Call.borrows] at unused ⊢

theorem balanced_iff_queueless : Balanced process ↔ ∀ id, process.queues id = none := by
  constructor
  · intro balanced id
    cases present : process.queues id with
    | none => rfl
    | some queue =>
      have below := users_below_count consistent present
      exact absurd (balanced.counts id queue present).symm below.ne
  · intro empty
    obtain ⟨tree, idle⟩ := queueless consistent empty
    refine ⟨by simp [empty], ?_, fun _ => ⟨tree, empty⟩⟩
    simp [tree, idle, users, Call.borrows]

end

theorem wait_lookup_queue {thread : Thread} {address expected allocated : Nat}
    (step : Steps process (.waitLookup thread address expected allocated) after) :
    ∃ id, after.queues id ≠ none := by
  simp only [Steps, Action.run, map_eq_some_iff] at step
  obtain ⟨middle, done, rfl⟩ := step
  split at done
  · obtain ⟨⟨looked, id⟩, found, rfl⟩ := map_eq_some_iff.mp done
    refine ⟨id, ?_⟩
    unfold getOrCreateFutex at found
    split at found
    · obtain ⟨queue, _, ⟨⟩⟩ := map_eq_some_iff.mp found
      simp [borrow]
    · split at found <;> cases found
      simp [borrow]
  · cases done

def Action.waits : Action Thread → Prop
  | .waitLookup .. => True
  | _ => False

variable {action : Action Thread}

section
variable (consistent : Consistent process)
include consistent

theorem queueless_kept (empty : ∀ id, process.queues id = none) (other : ¬ action.waits)
    (step : Steps process action after) (id : Nat) :
    after.queues id = none := by
  obtain ⟨tree, idle⟩ := queueless consistent empty
  cases action <;> simp [Steps, Action.run, idle, getFutexForWake, tree] at step
  case waitLookup => exact absurd trivial other
  all_goals
    subst step
    exact empty id

theorem queueless_step (step : Steps process action after) :
    (∀ id, after.queues id = none) ↔ (∀ id, process.queues id = none) ∧ ¬ action.waits := by
  constructor
  · intro empty
    constructor
    · intro id
      by_contra present
      exact (steps_later consistent step).queues id present (empty id)
    · intro waits
      cases action <;> cases waits
      obtain ⟨id, present⟩ := wait_lookup_queue step
      exact present (empty id)
  · intro both
    exact queueless_kept consistent both.1 both.2 step

theorem queueless_run {actions : List (Action Thread)} (empty : ∀ id, process.queues id = none)
    (run : Run Steps process actions after) :
    (∀ id, after.queues id = none) ↔ ∀ action ∈ actions, ¬ action.waits := by
  induction run with
  | nil => simpa using empty
  | snoc initial last ih =>
    rw [queueless_step (run_later consistent initial).consistent last, ih]
    simp [or_imp, forall_and]

end
end Balance

/-- A queue starts with a count of 1 that no call gives back, so a `FUTEX_WAIT`
that found or made a queue leaves it behind for good. -/
theorem futex_counts_balanced_iff (words : Nat → Nat) (actions : List (Action Thread))
    (process : Process Thread) (run : Run Steps (start words) actions process) :
    Balanced process ↔ ∀ action ∈ actions, ¬ action.waits := by
  rw [balanced_iff_queueless (run_later (start_consistent words) run).consistent]
  exact queueless_run (start_consistent words) (fun _ => rfl) run

theorem futex_counts_balanced_iff_unheard_wake : ∃ process : Process Nat,
    Run Steps (start fun _ => 5) [.wakeLookup 0 16 1] process ∧ Balanced process := by
  have run : Run Steps (start fun _ => 5) [.wakeLookup 0 16 1] _ := run_cons rfl (Run.nil _)
  exact ⟨_, run, (futex_counts_balanced_iff _ _ (_ : Process Nat) run).mpr (by simp [Action.waits])⟩

/-- The wait finds that the word has another value, and returns. -/
theorem futex_queue_left_behind : ∃ process : Process Nat,
    Run Steps (start fun _ => 5)
      [.waitLookup 0 16 6 1, .waitLock 0, .waitRead 0 false, .put 0] process ∧
    (∀ thread, process.calls thread = .idle) ∧ process.tree 16 = some 1 ∧ ¬ Balanced process := by
  have runs : ∃ process : Process Nat, Run Steps (start fun _ => 5)
      [.waitLookup 0 16 6 1, .waitLock 0, .waitRead 0 false, .put 0] process ∧
      (process.calls = update (start fun _ => 5).calls 0 .idle) ∧ process.tree 16 = some 1 := by
    refine ⟨_, run_cons rfl (run_cons rfl (run_cons rfl (run_cons rfl (Run.nil _)))), ?_, rfl⟩
    simp [setCall, setQueue, borrow, start]
  obtain ⟨process, run, calls, known⟩ := runs
  have idle : ∀ thread, process.calls thread = .idle := by
    rw [calls]
    simp [start]
  refine ⟨process, run, idle, known, ?_⟩
  intro balanced
  simp [(balanced.returned idle).1] at known

end FrostyKernel.Futex
