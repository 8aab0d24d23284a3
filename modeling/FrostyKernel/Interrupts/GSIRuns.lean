import FrostyKernel.Interrupts.GSI

/-!
# Runs of registrations and removals

While only GSIs are registered that were not registered before, the bitmap, the map of
interrupts, the handlers and the redirection entries agree. A removal, a second
registration of a GSI and one through the HAL whose context is not its record break it.
-/

namespace FrostyKernel.IRQ

open Function Option Manager

/-! ## The invariant -/

/-- The map of interrupts has exactly the GSIs that are registered, and the other tables
exactly their vectors. -/
structure Sound (manager : Manager) (registered : Nat → Option (Nat × Nat)) : Prop where
  bytes : ∃ data, manager.irqData = some data ∧ data.usedInterrupts.length = 32
  listed : ∀ GSI, (manager.vectorOf GSI).isSome = (registered GSI).isSome
  used : ∀ vector, Allocatable vector →
    (manager.isUsed vector = true ↔ ∃ GSI, manager.vectorOf GSI = some vector)
  allocatable : ∀ GSI vector, manager.vectorOf GSI = some vector → Allocatable vector
  distinct : ∀ one two vector, manager.vectorOf one = some vector →
    manager.vectorOf two = some vector → one = two
  programmed : ∀ GSI vector, manager.vectorOf GSI = some vector →
    manager.programmed GSI = some vector
  stored : ∀ vector, (manager.stored vector).isSome = true ↔
    ∃ GSI, manager.vectorOf GSI = some vector
  runs : ∀ GSI vector, manager.vectorOf GSI = some vector →
    manager.interrupt vector = registered GSI

variable {call : Call} {history next : History}

theorem initialised_sound (initialised : Initialised history) :
    Sound history.manager history.registered := by
  have none : ∀ GSI, history.manager.vectorOf GSI = none := by
    intro GSI
    unfold vectorOf
    rw [initialised.interruptMap]
    rfl
  have unlisted : ∀ GSI vector, history.manager.vectorOf GSI ≠ some vector := by
    intro GSI vector
    rw [none]
    exact nofun
  have clear : ∀ vector, 0x30 ≤ vector → vector < 0xFE →
      Bitmap.bitAt fullInit.usedInterrupts vector = false := by decide +kernel
  constructor
  · exact ⟨fullInit, initialised.irqData, rfl⟩
  · intro GSI
    rw [none, initialised.registered]
    rfl
  · intro vector inside
    unfold isUsed
    rw [initialised.irqData]
    simp only [none, clear vector inside.1 inside.2]
    simp
  · exact fun GSI vector found => absurd found (unlisted GSI vector)
  · exact fun one _ vector found => absurd found (unlisted one vector)
  · exact fun GSI vector found => absurd found (unlisted GSI vector)
  · intro vector
    unfold stored
    rw [initialised.irqData]
    simp only [none]
    simp [fullInit]
  · exact fun GSI vector found => absurd found (unlisted GSI vector)

section Invariant
variable {manager next : Manager} {registered : Nat → Option (Nat × Nat)} {GSI vector : Nat}

theorem interrupt_kept (runs : (manager.interrupt vector).isSome = true)
    (stored : next.stored vector = manager.stored vector)
    (irqHandler : next.irqHandler vector = manager.irqHandler vector)
    (records : ∀ address record, manager.intHandlers address = some record →
      next.intHandlers address = some record) :
    next.interrupt vector = manager.interrupt vector := by
  unfold interrupt at runs ⊢
  rw [stored, irqHandler]
  split_ifs with off
  · rfl
  rw [if_neg off] at runs
  revert runs
  rcases manager.stored vector with _ | ⟨_ | _, ctx⟩ <;> intro runs
  · rfl
  · rfl
  · dsimp only at runs ⊢
    split_ifs with null
    · rfl
    · rw [if_neg null, isSome_map] at runs
      rcases isSome_iff_exists.mp runs with ⟨record, found⟩
      rw [found, records ctx record found]

section
variable (sound : Sound manager registered)
include sound

theorem Sound.consistent : Consistent manager registered := by
  have found : ∀ {GSI}, (registered GSI).isSome = true →
      ∃ vector, manager.vectorOf GSI = some vector := by
    intro GSI present
    rw [← sound.listed] at present
    exact isSome_iff_exists.mp present
  constructor
  · intro vector inside
    rw [sound.used vector inside]
    constructor
    · rintro ⟨GSI, owned⟩
      refine ⟨GSI, ?_, owned⟩
      rw [← sound.listed, owned]
      rfl
    · rintro ⟨GSI, _, owned⟩
      exact ⟨GSI, owned⟩
  · intro one two vector _ _ first second
    exact sound.distinct one two vector first second
  · intro GSI present
    rcases found present with ⟨vector, owned⟩
    exact ⟨vector, owned, sound.programmed GSI vector owned, (sound.stored vector).mpr ⟨GSI, owned⟩⟩
  · intro GSI vector _ owned
    exact sound.runs GSI vector owned

/-- A removal fails only where the GSI is not in the map. -/
theorem Sound.not_removed (failed : ∀ vector, manager.vectorOf GSI = some vector →
    manager.stored vector = none ∨ manager.programmed GSI = none) : manager.vectorOf GSI = none := by
  cases recorded : manager.vectorOf GSI with
  | none => rfl
  | some vector =>
    rcases failed vector recorded with unstored | unprogrammed
    · have present := (sound.stored vector).mpr ⟨GSI, recorded⟩
      simp [unstored] at present
    · have programmed := sound.programmed GSI vector recorded
      simp [unprogrammed] at programmed

theorem Sound.byte_count (data : ProcessorIRQData) (present : manager.irqData = some data) :
    data.usedInterrupts.length = 32 := by
  rcases sound.bytes with ⟨other, found, size⟩
  rw [present] at found
  cases found
  exact size

theorem Sound.listed_iff : manager.vectorOf GSI = none ↔ registered GSI = none := by
  rw [← isNone_iff_eq_none, ← isNone_iff_eq_none, ← not_isSome, ← not_isSome, sound.listed]

theorem Sound.runs_handler (owned : manager.vectorOf GSI = some vector) :
    (manager.interrupt vector).isSome = true := by
  rw [sound.runs GSI vector owned, ← sound.listed, owned]
  rfl

theorem Sound.with_record {address : Nat} (fresh : manager.intHandlers address = none)
    (record : IntHandlerData) :
    Sound { manager with
      intHandlers := update manager.intHandlers address (some record) } registered where
  bytes := sound.bytes
  listed := sound.listed
  used := sound.used
  allocatable := sound.allocatable
  distinct := sound.distinct
  programmed := sound.programmed
  stored := sound.stored
  runs := by
    intro GSI vector owned
    rw [← sound.runs GSI vector owned]
    apply interrupt_kept (sound.runs_handler owned)
    · rfl
    · rfl
    intro other old found
    have elsewhere : other ≠ address := by
      rintro rfl
      rw [fresh] at found
      cases found
    rw [← found]
    exact update_of_ne elsewhere _ _

end

variable {data : HandlerData}

section
variable (registers : Registers manager next GSI data vector)
include registers

theorem Registers.not_owned (sound : Sound manager registered) {other owned : Nat}
    (found : manager.vectorOf other = some owned) : owned ≠ vector := by
  rintro rfl
  have marked := (sound.used owned registers.allocatable).mpr ⟨other, found⟩
  rw [registers.free] at marked
  cases marked

theorem Registers.unowned (sound : Sound manager registered) : manager.stored vector = none := by
  by_contra present
  rcases (sound.stored vector).mp (isSome_iff_ne_none.mpr present) with ⟨other, owned⟩
  exact registers.not_owned sound owned rfl

theorem Registers.interrupt_new (sound : Sound manager registered) :
    next.stored vector = some data ∧ next.irqHandler vector = true := by
  constructor
  · rw [registers.stored (registers.unowned sound), if_pos rfl]
  · rw [registers.irqHandler, update_self]

/-- The registration of a GSI that was not registered keeps the tables sound. -/
theorem Registers.sound (sound : Sound manager registered) (absent : registered GSI = none)
    {request : Nat × Nat} (runs : next.interrupt vector = some request) :
    Sound next (update registered GSI (some request)) := by
  have unlisted := sound.listed_iff.mpr absent
  have recorded := registers.recorded unlisted
  have here : next.vectorOf GSI = some vector := by rw [recorded, if_pos rfl]
  have stored := registers.interrupt_new sound
  have unowned := registers.unowned sound
  have owners : ∀ other, other ≠ vector → ((∃ owner, manager.vectorOf owner = some other) ↔
      ∃ owner, next.vectorOf owner = some other) := by
    intro other different
    constructor
    · rintro ⟨owner, owned⟩
      refine ⟨owner, ?_⟩
      rw [recorded, if_neg, owned]
      rintro rfl
      rw [unlisted] at owned
      cases owned
    · rintro ⟨owner, owned⟩
      rw [recorded] at owned
      split_ifs at owned
      · exact absurd (Option.some.inj owned).symm different
      · exact ⟨owner, owned⟩
  constructor
  · exact registers.bytes
  · intro other
    rw [recorded]
    by_cases same : other = GSI
    · rw [same, if_pos rfl, update_self]
      rfl
    · rw [if_neg same, update_of_ne same]
      exact sound.listed other
  · intro other inside
    rw [registers.used]
    split_ifs with same
    · rw [same]
      exact ⟨fun _ => ⟨GSI, here⟩, fun _ => rfl⟩
    rw [sound.used other inside]
    exact owners other same
  · intro other owned found
    rw [recorded] at found
    split_ifs at found
    · rw [← Option.some.inj found]
      exact registers.allocatable
    · exact sound.allocatable other owned found
  · intro one two owned first second
    rw [recorded] at first second
    split_ifs at first second with isOne isTwo isTwo
    · rw [isOne, isTwo]
    · cases first
      exact absurd rfl (registers.not_owned sound second)
    · cases second
      exact absurd rfl (registers.not_owned sound first)
    · exact sound.distinct one two owned first second
  · intro other owned found
    rw [recorded] at found
    rw [registers.programmed]
    split_ifs at found ⊢ with same
    · exact found
    · exact sound.programmed other owned found
  · intro other
    rw [registers.stored unowned]
    split_ifs with same
    · rw [same]
      exact ⟨fun _ => ⟨GSI, here⟩, fun _ => rfl⟩
    rw [sound.stored other]
    exact owners other same
  · intro other owned found
    rw [recorded] at found
    split_ifs at found with same
    · cases found
      rw [same, update_self]
      exact runs
    have elsewhere := registers.not_owned sound found
    rw [update_of_ne same, ← sound.runs other owned found]
    apply interrupt_kept (sound.runs_handler found)
    · rw [registers.stored unowned, if_neg elsewhere]
    · rw [registers.irqHandler, update_of_ne elsewhere]
    · intro address record present
      rw [registers.intHandlers]
      exact present

theorem Registers.consistent_iff (sound : Sound manager registered) (request : Nat × Nat) :
    Consistent next (update registered GSI (some request)) ↔
      registered GSI = none ∧ next.interrupt vector = some request := by
  constructor
  · intro consistent
    have present : (update registered GSI (some request) GSI).isSome = true := by
      rw [update_self]
      rfl
    rcases consistent.programmed GSI present with ⟨owned, recorded, programmed, _⟩
    rw [registers.programmed, if_pos rfl] at programmed
    cases programmed
    have absent : registered GSI = none := by
      by_contra before
      have listed := sound.listed GSI
      rw [isSome_iff_ne_none.mpr before] at listed
      have kept := registers.kept (isSome_iff_ne_none.mp listed)
      rw [kept] at recorded
      exact registers.not_owned sound recorded rfl
    refine ⟨absent, ?_⟩
    have runs := consistent.runs GSI vector present recorded
    rw [update_self] at runs
    exact runs
  · rintro ⟨absent, runs⟩
    exact (registers.sound sound absent runs).consistent

end

theorem Removes.inconsistent (removes : Removes manager next GSI vector)
    (sound : Sound manager registered) : ¬ Consistent next (update registered GSI none) := by
  intro consistent
  have inside := sound.allocatable GSI vector removes.recorded
  have marked : next.isUsed vector = true := by
    rw [removes.used]
    exact (sound.used vector inside).mpr ⟨GSI, removes.recorded⟩
  rcases (consistent.used vector inside).mp marked with ⟨owner, _, owned⟩
  rw [removes.gone] at owned
  split_ifs at owned with same
  exact same (sound.distinct owner GSI vector owned removes.recorded)

end Invariant

/-! ## Runs -/

/-- What a call does to sound tables: nothing, a registration on top of tables that are
sound for the same registrations, or a removal. -/
inductive Outcome (history : History) (call : Call) (next : History) : Prop
  | unchanged (same : next = history) (harmless : call.Harmless history)
  | registered {base : Manager} {GSI vector : Nat} {data : HandlerData} {request : Nat × Nat}
      (sound : Sound base history.registered)
      (registers : Registers base next.manager GSI data vector)
      (records : next.registered = update history.registered GSI (some request))
      (condition : call.Harmless history ↔
        history.registered GSI = none ∧ next.manager.interrupt vector = some request)
  | removed {GSI vector : Nat} (removes : Removes history.manager next.manager GSI vector)
      (records : next.registered = update history.registered GSI none)
      (harmful : ¬ call.Harmless history)

theorem run_next {after : History} {success : Bool} (answer : Bool)
    (ran : call.run history = some (after, answer))
    (result : call.run history = some (next, success)) : next = after := by
  rw [ran] at result
  cases result
  rfl

section Outcomes
variable {GSI handler ctx address : Nat} {success : Bool}
  (sound : Sound history.manager history.registered)
include sound

theorem register_gsi_outcome
    (result : Call.run history (.registerGSIHandler GSI handler ctx) = some (next, success)) :
    Outcome history (.registerGSIHandler GSI handler ctx) next := by
  rcases called : history.manager.registerGSIHandler GSI (.driver handler) ctx with
    ⟨manager, answer⟩
  rcases register_cases sound.byte_count called with
    ⟨rfl, rfl, cannot⟩ | ⟨rfl, can, vector, registers⟩
  · refine .unchanged (run_next false ?_ result) fun can => absurd can cannot
    simp only [Call.run, called]
  obtain rfl : next = ⟨manager, update history.registered GSI (some (handler, ctx))⟩ :=
    run_next true (by simp only [Call.run, called]) result
  refine .registered sound registers rfl ?_
  have runs : manager.interrupt vector = some (handler, ctx) := by
    rcases registers.interrupt_new sound with ⟨stored, unmasked⟩
    unfold interrupt
    rw [stored, unmasked]
    rfl
  rw [← sound.listed_iff]
  constructor
  · intro harmless
    exact ⟨harmless can, runs⟩
  · rintro ⟨absent, _⟩ _
    exact absent

theorem remove_gsi_outcome
    (result : Call.run history (.removeGSIHandler GSI) = some (next, success)) :
    Outcome history (.removeGSIHandler GSI) next := by
  rcases called : history.manager.removeGSIHandler GSI with ⟨manager, answer⟩
  rcases remove_cases called with ⟨rfl, rfl, failed⟩ | ⟨rfl, _, vector, removes⟩
  · refine .unchanged (run_next false ?_ result) (sound.not_removed failed)
    simp only [Call.run, called]
  obtain rfl : next = ⟨manager, update history.registered GSI none⟩ :=
    run_next true (by simp only [Call.run, called]) result
  refine .removed removes rfl fun harmless => ?_
  rw [Call.Harmless, removes.recorded] at harmless
  cases harmless

theorem register_int_outcome (notNull : address ≠ 0)
    (fresh : history.manager.intHandlers address = none)
    (result : Call.run history (.registerIntHandler GSI handler ctx address) =
      some (next, success)) :
    Outcome history (.registerIntHandler GSI handler ctx address) next := by
  have withRecord := sound.with_record fresh ⟨GSI, handler, ctx⟩
  rcases called : registerGSIHandler
      { history.manager with
        intHandlers := update history.manager.intHandlers address (some ⟨GSI, handler, ctx⟩) }
      GSI .halWrapper address with ⟨manager, answer⟩
  rcases register_cases withRecord.byte_count called with
    ⟨rfl, rfl, cannot⟩ | ⟨rfl, can, vector, registers⟩
  · have restored : update
        (update history.manager.intHandlers address (some ⟨GSI, handler, ctx⟩))
        address none = history.manager.intHandlers := by
      rw [update_idem, ← fresh, update_eq_self]
    refine .unchanged (run_next false ?_ result)
      fun can => absurd ⟨can.ioapic, can.irqData, can.lapic, can.vector⟩ cannot
    simp only [Call.run, registerIntHandler, called, restored]
  obtain rfl : next = ⟨manager, update history.registered GSI (some (handler, ctx))⟩ :=
    run_next true (by simp only [Call.run, registerIntHandler, called]) result
  refine .registered withRecord registers rfl ?_
  have runs : manager.interrupt vector = some (handler, address) := by
    rcases registers.interrupt_new withRecord with ⟨stored, unmasked⟩
    unfold interrupt
    rw [stored, unmasked, registers.intHandlers, if_neg (by decide)]
    dsimp only
    rw [if_neg notNull, update_self]
    rfl
  rw [runs, ← sound.listed_iff]
  constructor
  · intro harmless
    rcases harmless ⟨can.ioapic, can.irqData, can.lapic, can.vector⟩ with ⟨absent, same⟩
    exact ⟨absent, by rw [same]⟩
  · rintro ⟨absent, same⟩ _
    simp only [some.injEq, Prod.mk.injEq, true_and] at same
    exact ⟨absent, same.symm⟩

theorem remove_int_outcome
    (result : Call.run history (.removeIntHandler address) = some (next, success)) :
    Outcome history (.removeIntHandler address) next := by
  by_cases null : address = 0
  · refine .unchanged (run_next false ?_ result) fun real => absurd null real
    simp only [Call.run, removeIntHandler, if_pos null]
  cases found : history.manager.intHandlers address with
  | none =>
    simp only [Call.run, removeIntHandler, if_neg null, found] at result
    cases result
  | some record =>
    rcases called : history.manager.removeGSIHandler record.GSI with ⟨manager, answer⟩
    rcases remove_cases called with ⟨rfl, rfl, failed⟩ | ⟨rfl, _, vector, removes⟩
    · refine .unchanged (run_next false ?_ result) fun _ other same => ?_
      · simp only [Call.run, removeIntHandler, if_neg null, found, called]
      · cases found.symm.trans same
        exact sound.not_removed failed
    obtain rfl : next = ⟨{ manager with intHandlers := update manager.intHandlers address none },
        update history.registered record.GSI none⟩ :=
      run_next true (by simp only [Call.run, removeIntHandler, if_neg null, found, called]) result
    refine .removed ⟨removes.recorded, removes.used, removes.gone⟩ rfl fun harmless => ?_
    have absent := harmless null record found
    rw [removes.recorded] at absent
    cases absent

theorem step_outcome (step : call.Step history next) : Outcome history call next := by
  rcases step with ⟨legal, success, result⟩
  cases call with
  | registerGSIHandler GSI handler ctx => exact register_gsi_outcome sound result
  | removeGSIHandler GSI => exact remove_gsi_outcome sound result
  | registerIntHandler GSI handler ctx address =>
    exact register_int_outcome sound legal.1 legal.2 result
  | removeIntHandler data => exact remove_int_outcome sound result

end Outcomes

theorem step_consistent_iff (sound : Sound history.manager history.registered)
    (step : call.Step history next) :
    (Consistent next.manager next.registered ↔ call.Harmless history) ∧
      (call.Harmless history → Sound next.manager next.registered) := by
  rcases step_outcome sound step with ⟨rfl, harmless⟩ |
    ⟨baseSound, registers, records, condition⟩ | ⟨removes, records, harmful⟩
  · exact ⟨⟨fun _ => harmless, fun _ => sound.consistent⟩, fun _ => sound⟩
  · rw [records, condition]
    exact ⟨registers.consistent_iff baseSound _,
      fun both => registers.sound baseSound both.1 both.2⟩
  · refine ⟨⟨?_, fun harmless => absurd harmless harmful⟩, fun harmless => absurd harmless harmful⟩
    rw [records]
    exact fun consistent => absurd consistent (removes.inconsistent sound)

/-- The tables are consistent after every call of a run exactly when every call of the run is
harmless. -/
theorem gsi_tables_consistent_iff {start final : History} {calls : List Call}
    (initialised : Initialised start) :
    Run (fun history call next => call.Step history next ∧
        Consistent next.manager next.registered) start calls final ↔
      Run (fun history call next => call.Step history next ∧ call.Harmless history) start calls
        final := by
  apply run_steps_iff
  · intro history call next sound step harmless
    exact (step_consistent_iff sound step).2 harmless
  · intro history call next sound step
    exact (step_consistent_iff sound step).1
  · exact initialised_sound initialised

def oneIOAPIC : History where
  manager :=
    { ioapics :=
        { list := [⟨0xFEC00000, 0, 24, by decide, by decide, by decide⟩]
          apart := by simp }
      redirection := fun _ _ => ⟨0, 0, true, 0⟩
      lapic := some 0
      irqData := some fullInit
      interruptMap := OrderedMap.empty
      irqHandler := fun _ => false
      intHandlers := fun _ => none }
  registered := fun _ => none

theorem one_ioapic_initialised : Initialised oneIOAPIC := ⟨rfl, rfl, rfl, rfl⟩

theorem marked_without_owner {manager : Manager} {registered : Nat → Option (Nat × Nat)}
    {vector : Nat} (inside : Allocatable vector) (marked : manager.isUsed vector = true)
    (none : ∀ GSI, manager.vectorOf GSI = none) : ¬ Consistent manager registered := by
  intro consistent
  rcases (consistent.used vector inside).mp marked with ⟨GSI, _, owned⟩
  rw [none] at owned
  cases owned

/-- A GSI is registered and removed, and its vector stays marked without an owner. -/
theorem removed_vector_stays_used :
    ∃ final, Run (fun (history : History) (call : Call) next => call.Step history next) oneIOAPIC
        [.registerGSIHandler 4 7 9, .removeGSIHandler 4] final ∧
      ¬ Consistent final.manager final.registered := by
  refine ⟨_, Run.snoc (Run.snoc (Run.nil _) ⟨trivial, true, rfl⟩) ⟨trivial, true, rfl⟩, ?_⟩
  apply marked_without_owner (show Allocatable 0x30 by unfold Allocatable; decide)
  · rfl
  · intro GSI
    rfl

theorem two_registrations_consistent :
    ∃ final, Run (fun (history : History) (call : Call) next => call.Step history next ∧
      Consistent next.manager next.registered) oneIOAPIC
        [.registerGSIHandler 4 7 9, .registerGSIHandler 5 8 9, .removeGSIHandler 6] final :=
  ⟨_, (gsi_tables_consistent_iff one_ioapic_initialised).mpr
    (Run.snoc (Run.snoc (Run.snoc (Run.nil _) ⟨⟨trivial, true, rfl⟩, fun _ => rfl⟩)
      ⟨⟨trivial, true, rfl⟩, fun _ => rfl⟩)
      ⟨⟨trivial, false, rfl⟩, show Manager.vectorOf _ 6 = none from rfl⟩)⟩

end FrostyKernel.IRQ
