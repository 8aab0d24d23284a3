import FrostyKernel.Lib.Run
import FrostyKernel.Memory.Types

/-!
# Invalidation requests by NMI

A processor raises a request through a mailbox, sends the NMIs and waits until
the targets have answered. There is one mailbox for requests to all other
processors, whose counter the handlers increment, and one for each processor.
The raisers exclude each other with one lock; each mailbox has a lock of its own,
but the raiser polls the counter and the `handled` flag without it.
-/

namespace FrostyKernel.NMI

open Word Function Finset
open Memory (pageSize)

variable {n : Nat}

inductive NMIType
  | halt
  | invPages
  | yield
  | none
deriving DecidableEq

structure InvPagesData where
  start : Nat
  pageCount : Nat
deriving DecidableEq

structure GlobalNMIData (n : Nat) where
  type : NMIType
  invPagesData : InvPagesData
  cpuCount : Nat
  maxCPUCount : Nat
  lock : Option (Fin n)
  raiseLock : Option (Fin n)
deriving DecidableEq

structure LocalNMIData (n : Nat) where
  type : NMIType
  invPagesData : InvPagesData
  lock : Option (Fin n)
  handled : Bool
deriving DecidableEq

/-- A request of `x86_64_GlobalNMI::Raise`, or one of `x86_64_LocalNMI::Raise`. -/
inductive Target (n : Nat)
  | others
  | only (processor : Fin n)
deriving DecidableEq

def Target.processors (raiser : Fin n) : Target n → Finset (Fin n)
  | .others => Finset.univ.erase raiser
  | .only processor => {processor}

/-- How far a processor is in `Raise`, below its NMI handler. -/
inductive Code (n : Nat)
  | idle
  | setting (target : Target n) (request : InvPagesData)
  | storing (target : Target n) (request : InvPagesData)
  | sending (target : Target n) (request : InvPagesData)
  | waiting (target : Target n) (request : InvPagesData)
  | leaving (target : Target n) (request : InvPagesData)
deriving DecidableEq

/-- How far a processor is in `x86_64_HandleNMI`. -/
inductive Handler
  | outside
  | entered
  | locked
  | invalidated
  | counted (count : Nat)
  | localEntered
  | localLocked
  | localInvalidated
  | localDone
deriving DecidableEq

/-- A call of `x86_64_InvalidatePages` by the handler of a processor. -/
structure Answer (n : Nat) where
  processor : Fin n
  virtualAddress : Nat
  size : Nat
deriving DecidableEq

/-- The request that was last stored in a mailbox, and the answers since. -/
structure Posted (n : Nat) where
  raiser : Option (Fin n)
  request : InvPagesData
  answers : List (Answer n)
deriving DecidableEq

def InvPagesData.answer (request : InvPagesData) (processor : Fin n) : Answer n :=
  ⟨processor, request.start, mul64 request.pageCount pageSize⟩

/-- The mailboxes, the processors with their undelivered NMIs, and for each
mailbox the last request and its answers. -/
structure System (n : Nat) where
  shared : GlobalNMIData n
  mailbox : Fin n → LocalNMIData n
  code : Fin n → Code n
  handler : Fin n → Handler
  pending : Fin n → Nat
  log : Target n → Posted n

def System.start (n : Nat) : System n where
  shared := ⟨.none, ⟨0, 0⟩, 0, 0, none, none⟩
  mailbox := fun _ => ⟨.none, ⟨0, 0⟩, none, false⟩
  code := fun _ => .idle
  handler := fun _ => .outside
  pending := fun _ => 0
  log := fun _ => ⟨none, ⟨0, 0⟩, []⟩

inductive Action (n : Nat)
  | raise (processor : Fin n) (target : Target n) (request : InvPagesData)
  | takeLock (processor : Fin n)
  | setData (processor : Fin n)
  | send (processor : Fin n)
  | observe (processor : Fin n)
  | leave (processor : Fin n)
  | deliver (processor : Fin n)
  | enter (processor : Fin n)
  | examine (processor : Fin n)
  | count (processor : Fin n)
  | finish (processor : Fin n)
  | enterLocal (processor : Fin n)
  | examineLocal (processor : Fin n)
  | acknowledge (processor : Fin n)
  | finishLocal (processor : Fin n)

section
variable (system : System n) (processor : Fin n)

@[reducible] def System.setCode (code : Code n) : System n :=
  { system with code := update system.code processor code }

@[reducible] def System.setHandler (handler : Handler) : System n :=
  { system with handler := update system.handler processor handler }

@[reducible] def System.setMailbox (mail : LocalNMIData n) : System n :=
  { system with mailbox := update system.mailbox processor mail }

@[reducible] def System.post (raiser : Fin n) (target : Target n) (request : InvPagesData) :
    System n :=
  { system with log := update system.log target ⟨some raiser, request, []⟩ }

/-- The handler calls `x86_64_InvalidatePages` for a request of the mailbox. -/
@[reducible] def System.invalidate (target : Target n) (request : InvPagesData) : System n :=
  { system with
    log := update system.log target
      { system.log target with
        answers := request.answer processor :: (system.log target).answers } }

end

/-- `none` when the processor is not at that step or waits for a lock, for the
counter or for the flag. The code of a processor does not run during its handler. -/
def Action.run (system : System n) : Action n → Option (System n)
  | .raise p target request =>
    -- `GetProcessorCount() - 1` processors are to be waited for
    if system.handler p = .outside ∧ system.code p = .idle then
      if target = .others ∧ n - 1 = 0 then some system
      else if system.shared.raiseLock = none then
        some ({ system with shared := { system.shared with raiseLock := some p } }.setCode p
          (.setting target request))
      else none
    else none
  | .takeLock p =>
    match system.handler p, system.code p with
    | .outside, .setting .others request =>
      if system.shared.lock = none then
        some ({ system with shared := { system.shared with lock := some p } }.setCode p
          (.storing .others request))
      else none
    | .outside, .setting (.only t) request =>
      if (system.mailbox t).lock = none then
        some ((system.setMailbox t { system.mailbox t with lock := some p }).setCode p
          (.storing (.only t) request))
      else none
    | _, _ => none
  | .setData p =>
    match system.handler p, system.code p with
    | .outside, .storing .others request =>
      some (({ system with
        shared := { system.shared with
          type := .invPages
          invPagesData := request
          cpuCount := 0
          maxCPUCount := n - 1
          lock := none } }.post p .others request).setCode p (.sending .others request))
    | .outside, .storing (.only t) request =>
      some (((system.setMailbox t
        { type := .invPages, invPagesData := request, handled := false, lock := none }).post
          p (.only t) request).setCode p (.sending (.only t) request))
    | _, _ => none
  | .send p =>
    match system.handler p, system.code p with
    | .outside, .sending target request =>
      some ({ system with
        pending := fun q =>
          if q ∈ target.processors p then system.pending q + 1 else system.pending q }.setCode p
        (.waiting target request))
    | _, _ => none
  | .observe p =>
    match system.handler p, system.code p with
    | .outside, .waiting .others request =>
      if system.shared.cpuCount < n - 1 then none
      else some (system.setCode p (.leaving .others request))
    | .outside, .waiting (.only t) request =>
      if (system.mailbox t).handled = false then none
      else some (system.setCode p (.leaving (.only t) request))
    | _, _ => none
  | .leave p =>
    match system.handler p, system.code p with
    | .outside, .leaving _ _ =>
      some ({ system with shared := { system.shared with raiseLock := none } }.setCode p .idle)
    | _, _ => none
  | .deliver q =>
    if system.handler q = .outside ∧ 0 < system.pending q then
      some ({ system with
        pending := update system.pending q (system.pending q - 1) }.setHandler q .entered)
    else none
  | .enter q =>
    if system.handler q = .entered ∧ system.shared.lock = none then
      some ({ system with shared := { system.shared with lock := some q } }.setHandler q .locked)
    else none
  | .examine q =>
    if system.handler q = .locked then
      match system.shared.type with
      | .invPages =>
        some ((system.invalidate q .others system.shared.invPagesData).setHandler q .invalidated)
      | .none =>
        some ({ system with shared := { system.shared with lock := none } }.setHandler q
          .localEntered)
      | _ => none
    else none
  | .count q =>
    if system.handler q = .invalidated then
      some ({ system with
        shared := { system.shared with cpuCount := system.shared.cpuCount + 1 } }.setHandler q
          (.counted (system.shared.cpuCount + 1)))
    else none
  | .finish q =>
    match system.handler q with
    | .counted total =>
      if total = system.shared.maxCPUCount then
        some ({ system with
          shared := { system.shared with
            type := .none, maxCPUCount := 0, lock := none } }.setHandler q .outside)
      else
        some ({ system with shared := { system.shared with lock := none } }.setHandler q .outside)
    | _ => none
  | .enterLocal q =>
    if system.handler q = .localEntered ∧ (system.mailbox q).lock = none then
      some ((system.setMailbox q { system.mailbox q with lock := some q }).setHandler q .localLocked)
    else none
  | .examineLocal q =>
    if system.handler q = .localLocked then
      match (system.mailbox q).type with
      | .invPages =>
        some ((system.invalidate q (.only q) (system.mailbox q).invPagesData).setHandler q
          .localInvalidated)
      | .none => some (system.setHandler q .localDone)
      | _ => none
    else none
  | .acknowledge q =>
    if system.handler q = .localInvalidated then
      some ((system.setMailbox q { system.mailbox q with handled := true }).setHandler q .localDone)
    else none
  | .finishLocal q =>
    if system.handler q = .localDone then
      some ((system.setMailbox q { system.mailbox q with lock := none }).setHandler q .outside)
    else none

def Steps (before : System n) (action : Action n) (after : System n) : Prop :=
  action.run before = some after

section Invariant

def Handler.Shared : Handler → Prop
  | .locked | .invalidated | .counted _ => True
  | _ => False

def Handler.Own : Handler → Prop
  | .localLocked | .localInvalidated | .localDone => True
  | _ => False

def Handler.Answered : Handler → Prop
  | .outside | .counted _ | .localDone => True
  | _ => False

/-- The locks, the processors that have not answered the request in progress (`owing`), the
mailboxes, and the answers to the last request of each. -/
structure Invariant (system : System n) (owing : Finset (Fin n)) : Prop where
  raiser : ∀ p, system.code p ≠ .idle → system.shared.raiseLock = some p
  storing : ∀ p request, system.code p = .storing .others request →
    system.shared.lock = some p ∧ ∀ q, ¬ (system.handler q).Shared
  storingOnly : ∀ p t request, system.code p = .storing (.only t) request →
    (system.mailbox t).lock = some p ∧ ¬ (system.handler t).Own
  shared : ∀ q, (system.handler q).Shared → system.shared.lock = some q
  own : ∀ q, (system.handler q).Own → (system.mailbox q).lock = some q
  calm : ∀ q, q ∉ owing → system.pending q = 0 ∧ (system.handler q).Answered
  owes : ∀ q, q ∈ owing → (system.pending q = 1 ∧ (system.handler q).Answered) ∨
    (system.pending q = 0 ∧ ¬ (system.handler q).Answered)
  sent : ∀ q, q ∈ owing → ∃ p target request, system.code p = .waiting target request ∧
    q ∈ target.processors p
  others : ∀ p request, system.code p = .waiting .others request →
    ∀ q, system.handler q ≠ .localEntered ∧ system.handler q ≠ .localLocked ∧
      system.handler q ≠ .localInvalidated
  only : ∀ p t request, system.code p = .waiting (.only t) request →
    ∀ q, system.handler q ≠ .invalidated
  sending : ∀ p request, system.code p = .sending .others request →
    system.shared.type = .invPages ∧ system.shared.invPagesData = request ∧
      system.shared.cpuCount = 0 ∧ system.shared.maxCPUCount = n - 1 ∧
      ∀ q, ¬ (system.handler q).Shared
  counting : ∀ p request, system.code p = .waiting .others request →
    system.shared.cpuCount + owing.card = n - 1 ∧
      (∀ q total, system.handler q = .counted total → total = system.shared.cpuCount) ∧
      (owing.Nonempty → system.shared.type = .invPages ∧ system.shared.invPagesData = request ∧
        system.shared.maxCPUCount = n - 1)
  settled : (∀ p request, system.code p ≠ .sending .others request) →
    (∀ p request, system.code p = .waiting .others request → owing = ∅) →
      system.shared.type = .none ∨ ∃ q, system.handler q = .counted system.shared.maxCPUCount
  sendingOnly : ∀ p t request, system.code p = .sending (.only t) request →
    (system.mailbox t).type = .invPages ∧ (system.mailbox t).invPagesData = request ∧
      (system.mailbox t).handled = false
  waitingOnly : ∀ p t request, system.code p = .waiting (.only t) request →
    (system.mailbox t).type = .invPages ∧ (system.mailbox t).invPagesData = request ∧
      ((system.mailbox t).handled = true → owing = ∅)
  posted : ∀ p target request, system.code p = .sending target request ∨
    system.code p = .waiting target request ∨ system.code p = .leaving target request →
      (system.log target).raiser = some p ∧ (system.log target).request = request
  waiting : ∀ p target request, system.code p = .waiting target request →
    ∀ q ∈ target.processors p,
      q ∉ owing ∨ system.handler q = .invalidated ∨ system.handler q = .localInvalidated →
        request.answer q ∈ (system.log target).answers
  answered : ∀ target raiser, (system.log target).raiser = some raiser →
    (∀ p request, system.code p ≠ .sending target request ∧
      system.code p ≠ .waiting target request) →
    ∀ q ∈ target.processors raiser,
      (system.log target).request.answer q ∈ (system.log target).answers

abbrev System.Sound (system : System n) : Prop := ∃ owing, Invariant system owing

theorem start_invariant : Invariant (System.start n) ∅ := by
  constructor <;> simp [System.start, Handler.Shared, Handler.Own, Handler.Answered]

attribute [local grind =] update_apply
attribute [local grind] Handler.Shared Handler.Own Handler.Answered

variable {system after : System n} {owing : Finset (Fin n)} {p q : Fin n} {target : Target n}
  {request : InvPagesData} (holds : Invariant system owing)
include holds

theorem others_idle (p : Fin n) (busy : system.code p ≠ .idle) (q : Fin n)
    (different : q ≠ p) : system.code q = .idle := by
  by_contra also
  have first := holds.raiser p busy
  have second := holds.raiser q also
  rw [first] at second
  exact different (Option.some.inj second).symm

theorem owing_waits (q : Fin n) (unanswered : ¬ (system.handler q).Answered) :
    q ∈ owing ∧ ∃ p target request, system.code p = .waiting target request ∧
      q ∈ target.processors p ∧ ∀ other, other ≠ p → system.code other = .idle := by
  have member : q ∈ owing := by
    by_contra absent
    exact unanswered (holds.calm q absent).2
  obtain ⟨p, target, request, waits, targeted⟩ := holds.sent q member
  exact ⟨member, p, target, request, waits, targeted, others_idle holds p (by simp [waits])⟩

theorem sharer_alone (held : system.shared.lock = some q) (other : Fin n)
    (inside : (system.handler other).Shared) : other = q := by
  rw [holds.shared other inside] at held
  exact Option.some.inj held

theorem unshared (free : system.shared.lock = none) (q : Fin n) : ¬ (system.handler q).Shared := by
  intro inside
  simpa [free] using holds.shared q inside

/-- A raiser is alone, and nobody owes an answer while it is not waiting. -/
theorem nobody_owes (p : Fin n) (busy : system.code p ≠ .idle)
    (before : ∀ target request, system.code p ≠ .waiting target request) :
    owing = ∅ ∧ ∀ q, q ≠ p → system.code q = .idle := by
  have alone := others_idle holds p busy
  refine ⟨eq_empty_iff_forall_notMem.mpr ?_, alone⟩
  intro q member
  obtain ⟨raiser, target, request, waits, _⟩ := holds.sent q member
  by_cases same : raiser = p
  · exact before target request (same ▸ waits)
  · simp [alone raiser same] at waits

theorem settled_elsewhere (handler : Handler)
    (uncounted : ∀ total, system.handler q ≠ .counted total)
    (quiet : ∀ p request, system.code p ≠ .sending .others request)
    (done : ∀ p request, system.code p = .waiting .others request → owing = ∅) :
    system.shared.type = .none ∨ ∃ other, update system.handler q handler other =
      .counted system.shared.maxCPUCount := by
  refine (holds.settled quiet done).imp_right ?_
  rintro ⟨other, counted⟩
  have different : other ≠ q := by
    rintro rfl
    exact uncounted _ counted
  exact ⟨other, by rw [update_of_ne different, counted]⟩

theorem local_request (q : Fin n)
    (inside : system.handler q = .localLocked ∨ system.handler q = .localInvalidated) :
    q ∈ owing ∧ (∀ other ∈ owing, other = q) ∧
      ∃ raiser request, system.code raiser = .waiting (.only q) request ∧
        ∀ other, other ≠ raiser → system.code other = .idle := by
  obtain ⟨member, raiser, target, request, waits, targeted, alone⟩ :=
    owing_waits holds q (by rcases inside with stage | stage <;> simp [stage, Handler.Answered])
  cases target with
  | others =>
    have excluded := holds.others raiser request waits q
    rcases inside with stage | stage <;> simp [stage] at excluded
  | only t =>
    have same : q = t := by simpa [Target.processors] using targeted
    subst same
    refine ⟨member, ?_, raiser, request, waits, alone⟩
    intro other also
    obtain ⟨second, target, asked, waitsToo, targetedToo⟩ := holds.sent other also
    have one : second = raiser := by
      by_contra different
      simp [alone second different] at waitsToo
    subst one
    rw [waits] at waitsToo
    cases waitsToo
    simpa [Target.processors] using targetedToo

theorem raise_invariant (step : Steps system (.raise p target request) after) : after.Sound := by
  simp only [Steps, Action.run] at step
  split_ifs at step with _ _ free
  · cases step
    exact ⟨owing, holds⟩
  cases step
  have idle : ∀ q, system.code q = .idle := by
    intro q
    by_contra busy
    simpa [free] using holds.raiser q busy
  refine ⟨owing, ?_⟩
  constructor <;> grind [Invariant]

theorem take_lock_invariant (step : Steps system (.takeLock p) after) : after.Sound := by
  simp only [Steps, Action.run] at step
  split at step
  · rename_i request _ sets
    split_ifs at step with free
    cases step
    obtain ⟨rfl, alone⟩ := nobody_owes holds p (by simp [sets]) (by simp [sets])
    have nobody := unshared holds free
    refine ⟨∅, ?_⟩
    constructor <;> grind [Invariant]
  · rename_i t request _ sets
    split_ifs at step with free
    cases step
    obtain ⟨rfl, alone⟩ := nobody_owes holds p (by simp [sets]) (by simp [sets])
    have apart : ¬ (system.handler t).Own := by
      intro inside
      simpa [free] using holds.own t inside
    refine ⟨∅, ?_⟩
    constructor <;> grind [Invariant]
  · cases step

theorem set_data_invariant (step : Steps system (.setData p) after) : after.Sound := by
  simp only [Steps, Action.run] at step
  split at step
  · rename_i request _ stores
    cases step
    obtain ⟨rfl, alone⟩ := nobody_owes holds p (by simp [stores]) (by simp [stores])
    obtain ⟨_, unshared⟩ := holds.storing p request stores
    refine ⟨∅, ?_⟩
    constructor
    case settled =>
      intro quiet
      simpa using quiet p request
    case answered =>
      intro target raiser same quiet
      have other : target ≠ .others := by
        rintro rfl
        simpa using (quiet p request).1
      grind [Invariant]
    all_goals grind [Invariant]
  · rename_i t request _ stores
    cases step
    obtain ⟨rfl, alone⟩ := nobody_owes holds p (by simp [stores]) (by simp [stores])
    obtain ⟨_, apart⟩ := holds.storingOnly p t request stores
    refine ⟨∅, ?_⟩
    constructor
    case answered =>
      intro target raiser same quiet
      have other : target ≠ .only t := by
        rintro rfl
        simpa using (quiet p request).1
      grind [Invariant]
    all_goals grind [Invariant]
  · cases step

theorem send_invariant (many : 2 ≤ n) (step : Steps system (.send p) after) : after.Sound := by
  simp only [Steps, Action.run] at step
  split at step
  case h_2 => cases step
  rename_i target request _ sends
  cases step
  obtain ⟨rfl, alone⟩ := nobody_owes holds p (by simp [sends]) (by simp [sends])
  have calm : ∀ q, system.pending q = 0 ∧ (system.handler q).Answered := by
    intro q
    exact holds.calm q (notMem_empty q)
  refine ⟨target.processors p, ?_⟩
  constructor
  case sent =>
    intro q member
    exact ⟨p, target, request, by simp, member⟩
  case counting =>
    intro raiser other waits
    have same : raiser = p := by grind
    subst same
    have kind : target = .others ∧ request = other := by simpa using waits
    obtain ⟨rfl, rfl⟩ := kind
    obtain ⟨type, data, zero, max, unshared⟩ := holds.sending raiser request sends
    refine ⟨?_, by grind, fun _ => ⟨type, data, max⟩⟩
    simp [zero, Target.processors]
  case settled =>
    intro quiet done
    by_cases kind : target = .others
    · subst kind
      have none := done p request (by simp)
      have card : (Target.others.processors p).card = n - 1 := by simp [Target.processors]
      rw [none, card_empty] at card
      omega
    · refine holds.settled ?_ fun _ _ _ => rfl
      intro raiser other also
      by_cases same : raiser = p
      · subst same
        rw [sends] at also
        cases also
        exact kind rfl
      · simp [alone raiser same] at also
  case answered =>
    intro other raiser same quiet
    have different : other ≠ target := by
      rintro rfl
      simpa using (quiet p request).2
    grind [Invariant]
  all_goals grind [Invariant]

theorem answered_invariant (none : owing = ∅) (waits : system.code p = .waiting target request) :
    (system.setCode p (.leaving target request)).Sound := by
  cases none
  have alone := others_idle holds p (by simp [waits])
  refine ⟨∅, ?_⟩
  constructor
  case answered =>
    intro other raiser same quiet q member
    by_cases kind : other = target
    · subst kind
      obtain ⟨posted, asked⟩ := holds.posted p other request (.inr (.inl waits))
      rw [posted] at same
      cases same
      rw [asked]
      exact holds.waiting p other request waits q member (.inl (notMem_empty q))
    · grind [Invariant]
  all_goals grind [Invariant]

theorem observe_invariant (step : Steps system (.observe p) after) : after.Sound := by
  simp only [Steps, Action.run] at step
  split at step
  · rename_i request _ waits
    split_ifs at step with fewer
    cases step
    obtain ⟨total, _⟩ := holds.counting p request waits
    exact answered_invariant holds (card_eq_zero.mp (by omega)) waits
  · rename_i t request _ waits
    split_ifs at step with unhandled
    cases step
    have none := (holds.waitingOnly p t request waits).2.2 (by simpa using unhandled)
    exact answered_invariant holds none waits
  · cases step

theorem leave_invariant (step : Steps system (.leave p) after) : after.Sound := by
  simp only [Steps, Action.run] at step
  split at step
  case h_2 => cases step
  rename_i target request _ leaves
  cases step
  obtain ⟨rfl, alone⟩ := nobody_owes holds p (by simp [leaves]) (by simp [leaves])
  refine ⟨∅, ?_⟩
  constructor <;> grind [Invariant]

theorem deliver_invariant (step : Steps system (.deliver q) after) : after.Sound := by
  simp only [Steps, Action.run] at step
  split_ifs at step with ready
  obtain ⟨outside, arrived⟩ := ready
  cases step
  have member : q ∈ owing := by
    by_contra absent
    have calm := (holds.calm q absent).1
    omega
  refine ⟨owing, ?_⟩
  constructor
  case settled => exact settled_elsewhere holds _ (by simp [outside])
  all_goals grind [Invariant]

theorem enter_invariant (step : Steps system (.enter q) after) : after.Sound := by
  simp only [Steps, Action.run] at step
  split_ifs at step with ready
  obtain ⟨entered, free⟩ := ready
  cases step
  obtain ⟨member, raiser, target, request, waits, _, alone⟩ :=
    owing_waits holds q (by simp [entered, Handler.Answered])
  have nobody := unshared holds free
  refine ⟨owing, ?_⟩
  constructor <;> grind [Invariant]

/-- A request that the handler finds in the shared mailbox is the one that its
NMI was sent for, since a mailbox that was answered has been cleared. -/
theorem examine_invariant (step : Steps system (.examine q) after) : after.Sound := by
  simp only [Steps, Action.run] at step
  split_ifs at step with locked
  obtain ⟨member, raiser, target, request, waits, targeted, alone⟩ :=
    owing_waits holds q (by simp [locked, Handler.Answered])
  have held := holds.shared q (by simp [locked, Handler.Shared])
  split at step
  · rename_i full
    cases step
    have uncounted : ∀ other total, system.handler other ≠ .counted total := by
      intro other total counted
      cases sharer_alone holds held other (by simp [counted, Handler.Shared])
      simp [locked] at counted
    have shared : target = .others := by
      cases target with
      | others => rfl
      | only t =>
        have settled := holds.settled (by grind) (by grind)
        simp [full, uncounted] at settled
    subst shared
    obtain ⟨_, data, _⟩ := (holds.counting raiser request waits).2.2 ⟨q, member⟩
    refine ⟨owing, ?_⟩
    constructor <;> grind [Invariant]
  · rename_i empty
    cases step
    have only : ∃ t, target = .only t := by
      cases target with
      | others =>
        obtain ⟨full, _⟩ := (holds.counting raiser request waits).2.2 ⟨q, member⟩
        simp [empty] at full
      | only t => exact ⟨t, rfl⟩
    obtain ⟨t, rfl⟩ := only
    refine ⟨owing, ?_⟩
    constructor <;> grind [Invariant]
  · cases step

theorem count_invariant (step : Steps system (.count q) after) : after.Sound := by
  simp only [Steps, Action.run] at step
  split_ifs at step with invalidated
  cases step
  obtain ⟨member, raiser, target, request, waits, targeted, alone⟩ :=
    owing_waits holds q (by simp [invalidated, Handler.Answered])
  have held := holds.shared q (by simp [invalidated, Handler.Shared])
  have shared : target = .others := by
    cases target with
    | others => rfl
    | only t => exact absurd invalidated (holds.only raiser t request waits q)
  subst shared
  obtain ⟨total, _, full⟩ := holds.counting raiser request waits
  obtain ⟨type, data, max⟩ := full ⟨q, member⟩
  have fewer : (owing.erase q).card + 1 = owing.card := card_erase_add_one member
  have empties : owing.erase q = ∅ → system.shared.cpuCount + 1 = n - 1 := by
    intro none
    rw [none, card_empty] at fewer
    omega
  refine ⟨owing.erase q, ?_⟩
  constructor
  case settled =>
    intro _ done
    exact .inr ⟨q, by simp [max, empties (done raiser request waits)]⟩
  all_goals grind [Invariant]

theorem finish_invariant (step : Steps system (.finish q) after) : after.Sound := by
  simp only [Steps, Action.run] at step
  split at step
  case h_2 => cases step
  rename_i total counted
  have held := holds.shared q (by simp [counted, Handler.Shared])
  have only := sharer_alone holds held
  -- while an answer is missing, the counter is below the maximum
  have missing : ∀ p request, system.code p = .waiting .others request → owing.Nonempty →
      total ≠ system.shared.maxCPUCount := by
    intro p request waits some
    obtain ⟨sum, latest, full⟩ := holds.counting p request waits
    have positive := card_pos.mpr some
    rw [(full some).2.2, latest q total counted]
    omega
  split_ifs at step with last
  all_goals
    cases step
    refine ⟨owing, ?_⟩
    constructor <;> grind [Invariant]

theorem enter_local_invariant (step : Steps system (.enterLocal q) after) : after.Sound := by
  simp only [Steps, Action.run] at step
  split_ifs at step with ready
  have entered := ready.1
  cases step
  obtain ⟨member, raiser, target, request, waits, targeted, alone⟩ :=
    owing_waits holds q (by simp [entered, Handler.Answered])
  refine ⟨owing, ?_⟩
  constructor
  case settled => exact settled_elsewhere holds _ (by simp [entered])
  all_goals grind [Invariant]

theorem examine_local_invariant (step : Steps system (.examineLocal q) after) : after.Sound := by
  simp only [Steps, Action.run] at step
  split_ifs at step with locked
  obtain ⟨member, _, raiser, request, waits, alone⟩ := local_request holds q (.inl locked)
  obtain ⟨full, data, _⟩ := holds.waitingOnly raiser q request waits
  simp only [full] at step
  cases step
  refine ⟨owing, ?_⟩
  constructor
  case settled => exact settled_elsewhere holds _ (by simp [locked])
  all_goals grind [Invariant]

theorem acknowledge_invariant (step : Steps system (.acknowledge q) after) : after.Sound := by
  simp only [Steps, Action.run] at step
  split_ifs at step with invalidated
  cases step
  obtain ⟨member, single, raiser, request, waits, alone⟩ := local_request holds q (.inr invalidated)
  refine ⟨∅, ?_⟩
  constructor
  case settled =>
    intro quiet _
    refine settled_elsewhere holds _ (by simp [invalidated]) quiet ?_
    intro p asked also
    grind
  case waiting =>
    intro p target asked also other targeted _
    have same : p = raiser := by
      by_contra different
      simp [alone p different] at also
    subst same
    rw [waits] at also
    cases also
    have same : other = q := by simpa [Target.processors] using targeted
    subst same
    exact holds.waiting p (.only other) request waits other targeted (.inr (.inr invalidated))
  all_goals grind [Invariant]

theorem finish_local_invariant (step : Steps system (.finishLocal q) after) : after.Sound := by
  simp only [Steps, Action.run] at step
  split_ifs at step with done
  cases step
  refine ⟨owing, ?_⟩
  constructor
  case settled => exact settled_elsewhere holds _ (by simp [done])
  all_goals grind [Invariant]

omit holds in
theorem steps_invariant (many : 2 ≤ n) (before : System n) (action : Action n) (after : System n)
    (holds : before.Sound) (step : Steps before action after) : after.Sound := by
  obtain ⟨owing, holds⟩ := holds
  cases action with
  | raise => exact raise_invariant holds step
  | takeLock => exact take_lock_invariant holds step
  | setData => exact set_data_invariant holds step
  | send => exact send_invariant holds many step
  | observe => exact observe_invariant holds step
  | leave => exact leave_invariant holds step
  | deliver => exact deliver_invariant holds step
  | enter => exact enter_invariant holds step
  | examine => exact examine_invariant holds step
  | count => exact count_invariant holds step
  | finish => exact finish_invariant holds step
  | enterLocal => exact enter_local_invariant holds step
  | examineLocal => exact examine_local_invariant holds step
  | acknowledge => exact acknowledge_invariant holds step
  | finishLocal => exact finish_local_invariant holds step

end Invariant

/-- In every interleaving: when a raise is about to return, each of its targets
has invalidated the pages of the request since it was stored, and when a raise
is about to store a request in a mailbox, each target of the request before has
done so. -/
theorem nmi_requests_answered (many : 2 ≤ n) (actions : List (Action n)) (system : System n)
    (run : Run Steps (System.start n) actions system) :
    (∀ p target request, system.code p = .leaving target request →
      (system.log target).raiser = some p ∧ (system.log target).request = request ∧
      ∀ q ∈ target.processors p, request.answer q ∈ (system.log target).answers) ∧
    ∀ p target request, system.code p = .storing target request →
      ∀ raiser, (system.log target).raiser = some raiser →
      ∀ q ∈ target.processors raiser,
        (system.log target).request.answer q ∈ (system.log target).answers := by
  obtain ⟨owing, holds⟩ :=
    run_invariant System.Sound (steps_invariant many) ⟨∅, start_invariant⟩ run
  have inactive : ∀ p, (∃ target request, system.code p = .leaving target request ∨
      system.code p = .storing target request) → ∀ target q request,
      system.code q ≠ .sending target request ∧ system.code q ≠ .waiting target request := by
    rintro p ⟨kept, asked, stage⟩ target q request
    by_cases same : q = p
    · subst same
      rcases stage with stage | stage <;> simp [stage]
    · have busy : system.code p ≠ .idle := by
        rcases stage with stage | stage <;> simp [stage]
      simp [others_idle holds p busy q same]
  constructor
  · intro p target request leaves
    obtain ⟨posted, asked⟩ := holds.posted p target request (.inr (.inr leaves))
    refine ⟨posted, asked, ?_⟩
    have done := holds.answered target p posted
      (inactive p ⟨target, request, .inl leaves⟩ target)
    rw [asked] at done
    exact done
  · intro p target request stores raiser posted
    exact holds.answered target raiser posted
      (inactive p ⟨target, request, .inr stores⟩ target)

/-- Processor 0 leaves when processor 1 has counted but not cleared the mailbox. -/
theorem nmi_requests_answered_two_processors :
    ∃ system : System 2, Run Steps (System.start 2)
        [.raise 0 .others ⟨4096, 2⟩, .takeLock 0, .setData 0, .send 0, .deliver 1, .enter 1,
          .examine 1, .count 1, .observe 0] system ∧
      system.code 0 = .leaving .others ⟨4096, 2⟩ ∧ system.shared.type = .invPages ∧
      (⟨1, 4096, 8192⟩ : Answer 2) ∈ (system.log .others).answers := by
  refine exists_run_of
    (fun system => system.code 0 = .leaving .others ⟨4096, 2⟩ ∧ system.shared.type = .invPages)
    ⟨_, run_cons rfl (run_cons rfl (run_cons rfl (run_cons rfl (run_cons rfl (run_cons rfl
      (run_cons rfl (run_cons rfl (run_cons rfl (Run.nil _))))))))), rfl, rfl⟩ ?_
  rintro system run ⟨leaves, full⟩
  obtain ⟨_, _, answered⟩ :=
    (nmi_requests_answered (by decide) _ system run).1 0 .others ⟨4096, 2⟩ leaves
  exact ⟨leaves, full, answered 1 (by decide)⟩

/-- In every interleaving one processor at most raises, one at most is inside the shared mailbox,
and no NMI arrives at a processor that has one to take. Who stores a request is alone with the
mailbox, and no NMI is on its way. -/
theorem nmi_mailboxes_exclusive (many : 2 ≤ n) (actions : List (Action n)) (system : System n)
    (run : Run Steps (System.start n) actions system) :
    (∀ p q, system.code p ≠ .idle → system.code q ≠ .idle → p = q) ∧
    (∀ p q, (system.handler p).Shared → (system.handler q).Shared → p = q) ∧
    (∀ q, system.pending q ≤ 1) ∧
    ∀ p target request, system.code p = .storing target request → ∀ q, system.pending q = 0 ∧
      (target = .others → ¬ (system.handler q).Shared) ∧
      (target = .only q → ¬ (system.handler q).Own) := by
  obtain ⟨owing, holds⟩ :=
    run_invariant System.Sound (steps_invariant many) ⟨∅, start_invariant⟩ run
  refine ⟨?_, ?_, ?_, ?_⟩
  · intro p q raises also
    by_contra different
    exact raises (others_idle holds q also p different)
  · intro p q first second
    exact sharer_alone holds (holds.shared q second) p first
  · intro q
    by_cases owes : q ∈ owing
    · rcases holds.owes q owes with sent | taken <;> omega
    · exact (holds.calm q owes).1.le.trans zero_le_one
  · intro p target request stores q
    obtain ⟨rfl, _⟩ := nobody_owes holds p (by simp [stores]) (by simp [stores])
    refine ⟨(holds.calm q (notMem_empty q)).1, ?_, ?_⟩
    · rintro rfl
      exact (holds.storing p request stores).2 q
    · rintro rfl
      exact (holds.storingOnly p q request stores).2

/-- Processor 0 is about to store a request for processor 1. -/
theorem nmi_mailboxes_exclusive_one_raise :
    ∃ system : System 2, Run Steps (System.start 2)
        [.raise 0 (.only 1) ⟨4096, 2⟩, .takeLock 0] system ∧
      system.code 0 = .storing (.only 1) ⟨4096, 2⟩ ∧ ¬ (system.handler 1).Own := by
  have run : Run Steps (System.start 2) [.raise 0 (.only 1) ⟨4096, 2⟩, .takeLock 0] _ :=
    run_cons rfl (run_cons rfl (Run.nil _))
  exact ⟨_, run, rfl, ((nmi_mailboxes_exclusive le_rfl _ _ run).2.2.2 0 _ _ rfl 1).2.2 rfl⟩

end FrostyKernel.NMI
