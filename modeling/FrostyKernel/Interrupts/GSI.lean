import FrostyKernel.Lib.Bitmap
import FrostyKernel.Lib.OrderedMap
import FrostyKernel.Lib.Run

/-!
# Handlers of global system interrupts

`x86_64_RegisterGSIHandler` and `x86_64_RemoveGSIHandler` on one processor, with the two
functions of the HAL over them. A registration takes the first vector that is not marked,
writes it to the redirection entry of the IO APIC and to the map of interrupts, and stores
the handler under it. `HashMap::insert` keeps an entry that is there, a removal leaves the
mark of the vector, and the wrapper of the HAL hands its own record to the handler, not
the context.
-/

namespace FrostyKernel.IRQ

open Function List Option OrderedMap Bitmap

/-! ## The IO APICs -/

/-- The fields of a redirection entry that are written here. -/
structure RedirectionEntry where
  vector : Nat
  deliveryMode : Nat
  masked : Bool
  destination : Nat
deriving DecidableEq

/-- An IO APIC after its `Init`. Its register selector has eight bits, so there are at most
120 entries. -/
structure IOAPIC where
  baseAddress : Nat
  gsiBase : Nat
  maxRedirectionEntries : Nat
  positive : 0 < maxRedirectionEntries
  selectable : maxRedirectionEntries ≤ 120
  inside : gsiBase + maxRedirectionEntries ≤ 2 ^ 32

namespace IOAPIC

def getMaxGSI (ioapic : IOAPIC) : Nat := ioapic.gsiBase + ioapic.maxRedirectionEntries - 1

/-- `GSI - ioapic->GetGSIBase()`, as the `uint8_t` that the accessors take. -/
def index (ioapic : IOAPIC) (GSI : Nat) : Nat := (GSI - ioapic.gsiBase) % 256

end IOAPIC

/-- `g_IOAPICs`; each has registers of its own. -/
structure IOAPICs where
  list : List IOAPIC
  apart : ∀ one ∈ list, ∀ two ∈ list, one.baseAddress = two.baseAddress → one = two

/-- `x86_64_GetIOAPICForGSI(GSI)`. -/
def getIOAPICForGSI (ioapics : IOAPICs) (GSI : Nat) : Option IOAPIC :=
  ioapics.list.find? fun ioapic => ioapic.gsiBase ≤ GSI && GSI ≤ ioapic.getMaxGSI

/-! ## The manager -/

/-- The functions that are stored for a vector: one of a driver, or the wrapper of the HAL. -/
inductive GSIHandler
  | driver (handler : Nat)
  | halWrapper
deriving DecidableEq

structure HandlerData where
  handler : GSIHandler
  ctx : Nat
deriving DecidableEq

/-- `HAL_IntHandlerData`. -/
structure IntHandlerData where
  GSI : Nat
  handler : Nat
  ctx : Nat
deriving DecidableEq

/-- `x86_64_IRQInfo`; the processor is always the one of the manager. -/
structure IRQInfo where
  interrupt : Nat
deriving DecidableEq

/-- `x86_64_ProcessorIRQData`. -/
structure ProcessorIRQData where
  usedInterrupts : Bitmap.Bytes
  handlerMap : OrderedMap Nat HandlerData

/-- The redirection entries are found by the address of the IO APIC and the index. A vector
may have `x86_64_IRQHandler` as its handler. -/
structure Manager where
  ioapics : IOAPICs
  redirection : Nat → Nat → RedirectionEntry
  lapic : Option Nat
  irqData : Option ProcessorIRQData
  interruptMap : OrderedMap Nat IRQInfo
  irqHandler : Nat → Bool
  intHandlers : Nat → Option IntHandlerData

/-- The data that `x86_64_IRQ_FullInit` makes. -/
def fullInit : ProcessorIRQData where
  usedInterrupts := List.replicate 6 0xFF#8 ++ List.replicate 25 0#8 ++ [0xC0#8]
  handlerMap := OrderedMap.empty

namespace Manager

def getRedirectionEntry (manager : Manager) (ioapic : IOAPIC) (index : Nat) : RedirectionEntry :=
  if ioapic.maxRedirectionEntries < index then ⟨0, 0, false, 0⟩
  else manager.redirection ioapic.baseAddress index

def setRedirectionEntry (manager : Manager) (ioapic : IOAPIC) (index : Nat)
    (entry : RedirectionEntry) : Manager :=
  if ioapic.maxRedirectionEntries < index then manager
  else
    { manager with
      redirection := fun address position =>
        if address = ioapic.baseAddress ∧ position = index then entry
        else manager.redirection address position }

def freeInterrupt (data : ProcessorIRQData) : Option Nat :=
  (List.range' 0x30 (0xFE - 0x30)).find? fun vector => !Bitmap.bitAt data.usedInterrupts vector

/-- `x86_64_RegisterGSIHandler(GSI, handler, ctx)`. -/
def registerGSIHandler (manager : Manager) (GSI : Nat) (handler : GSIHandler) (ctx : Nat) :
    Manager × Bool :=
  match getIOAPICForGSI manager.ioapics GSI with
  | none => (manager, false)
  | some ioapic =>
    match manager.irqData with
    | none => (manager, false)
    | some data =>
      match freeInterrupt data with
      | none => (manager, false)
      | some vector =>
        match manager.lapic with
        | none => (manager, false)
        | some lapic =>
          let index := ioapic.index GSI
          let entry := manager.getRedirectionEntry ioapic index
          let programmed := manager.setRedirectionEntry ioapic index
            { entry with
              deliveryMode := 0
              vector := vector
              destination := lapic
              masked := true }
          ({ programmed with
              interruptMap := manager.interruptMap.insert GSI ⟨vector⟩
              irqHandler := update manager.irqHandler vector true
              irqData := some
                { usedInterrupts := Bitmap.write data.usedInterrupts vector true
                  handlerMap := data.handlerMap.insert vector ⟨handler, ctx⟩ } }, true)

/-- `x86_64_RemoveGSIHandler(GSI)`. -/
def removeGSIHandler (manager : Manager) (GSI : Nat) : Manager × Bool :=
  match manager.interruptMap.find? GSI with
  | none => (manager, false)
  | some info =>
    match manager.irqData with
    | none => (manager, false)
    | some data =>
      match data.handlerMap.find? info.interrupt with
      | none => (manager, false)
      | some _ =>
        match getIOAPICForGSI manager.ioapics GSI with
        | none => (manager, false)
        | some ioapic =>
          let index := ioapic.index GSI
          let entry := manager.getRedirectionEntry ioapic index
          let cleared := manager.setRedirectionEntry ioapic index
            { entry with masked := true, vector := 0 }
          ({ cleared with
              interruptMap := manager.interruptMap.erase GSI
              irqData := some
                { data with handlerMap := data.handlerMap.erase info.interrupt } }, true)

section
variable (manager : Manager) (GSI vector : Nat)

/-- `HAL_RegisterIntHandler(GSI, handler, ctx)`, whose record is at an address that `new`
returns. -/
def registerIntHandler (handler ctx address : Nat) : Manager × Bool :=
  let stored := { manager with
    intHandlers := update manager.intHandlers address (some ⟨GSI, handler, ctx⟩) }
  match stored.registerGSIHandler GSI .halWrapper address with
  | (registered, true) => (registered, true)
  | (refused, false) =>
    ({ refused with intHandlers := update refused.intHandlers address none }, false)

/-- `HAL_RemoveIntHandler(data)`; there is no result when there is no record at the address. -/
def removeIntHandler (data : Nat) : Option (Manager × Bool) :=
  if data = 0 then some (manager, false)
  else
    match manager.intHandlers data with
    | none => none
    | some record =>
      match manager.removeGSIHandler record.GSI with
      | (removed, true) =>
        some ({ removed with
          intHandlers := update removed.intHandlers data none }, true)
      | (refused, false) => some (refused, false)

def stored : Option HandlerData := manager.irqData.bind fun data => data.handlerMap.find? vector

/-- What an interrupt on a vector runs, a handler with a context: `x86_64_IRQHandler`, and
`HAL_GSIHandlerWrapper` where it is stored. -/
def interrupt : Option (Nat × Nat) :=
  if manager.irqHandler vector = false then none
  else
    match manager.stored vector with
    | none => none
    | some ⟨.driver handler, ctx⟩ => some (handler, ctx)
    | some ⟨.halWrapper, ctx⟩ =>
      if ctx = 0 then none
      else (manager.intHandlers ctx).map fun record => (record.handler, ctx)

/-! ## What is asked of the manager -/

def isUsed : Bool :=
  match manager.irqData with
  | none => false
  | some data => Bitmap.bitAt data.usedInterrupts vector

def vectorOf : Option Nat := (manager.interruptMap.find? GSI).map IRQInfo.interrupt

end

def programmed (manager : Manager) (GSI : Nat) : Option Nat :=
  (getIOAPICForGSI manager.ioapics GSI).map fun ioapic =>
    (manager.redirection ioapic.baseAddress (ioapic.index GSI)).vector

end Manager

def Allocatable (vector : Nat) : Prop := 0x30 ≤ vector ∧ vector < 0xFE

/-- A registration of the GSI finds an IO APIC, a processor to deliver to and a free vector. -/
structure Manager.CanRegister (manager : Manager) (GSI : Nat) : Prop where
  ioapic : (getIOAPICForGSI manager.ioapics GSI).isSome = true
  irqData : manager.irqData.isSome = true
  lapic : manager.lapic.isSome = true
  vector : ∃ vector, Allocatable vector ∧ manager.isUsed vector = false

/-- The tables agree with the registrations that are in force: for a GSI, the handler and the
context of its last registration, if it was not removed since. -/
structure Consistent (manager : Manager) (registered : Nat → Option (Nat × Nat)) : Prop where
  used : ∀ vector, Allocatable vector → (manager.isUsed vector = true ↔
    ∃ GSI, (registered GSI).isSome = true ∧ manager.vectorOf GSI = some vector)
  distinct : ∀ one two vector, (registered one).isSome = true → (registered two).isSome = true →
    manager.vectorOf one = some vector → manager.vectorOf two = some vector → one = two
  programmed : ∀ GSI, (registered GSI).isSome = true → ∃ vector,
    manager.vectorOf GSI = some vector ∧ manager.programmed GSI = some vector ∧
      (manager.stored vector).isSome = true
  runs : ∀ GSI vector, (registered GSI).isSome = true → manager.vectorOf GSI = some vector →
    manager.interrupt vector = registered GSI

/-! ## Runs -/

inductive Call
  | registerGSIHandler (GSI handler ctx : Nat)
  | removeGSIHandler (GSI : Nat)
  | registerIntHandler (GSI handler ctx address : Nat)
  | removeIntHandler (data : Nat)

/-- The manager with the registrations in force. -/
structure History where
  manager : Manager
  registered : Nat → Option (Nat × Nat)

namespace Call

section
variable (history : History) (call : Call)

def run : Call → Option (History × Bool)
  | registerGSIHandler GSI handler ctx =>
    match history.manager.registerGSIHandler GSI (.driver handler) ctx with
    | (next, true) =>
      some (⟨next, update history.registered GSI (some (handler, ctx))⟩, true)
    | (next, false) => some (⟨next, history.registered⟩, false)
  | removeGSIHandler GSI =>
    match history.manager.removeGSIHandler GSI with
    | (next, true) => some (⟨next, update history.registered GSI none⟩, true)
    | (next, false) => some (⟨next, history.registered⟩, false)
  | registerIntHandler GSI handler ctx address =>
    match history.manager.registerIntHandler GSI handler ctx address with
    | (next, true) =>
      some (⟨next, update history.registered GSI (some (handler, ctx))⟩, true)
    | (next, false) => some (⟨next, history.registered⟩, false)
  | removeIntHandler data =>
    match history.manager.removeIntHandler data, history.manager.intHandlers data with
    | some (next, true), some record =>
      some (⟨next, update history.registered record.GSI none⟩, true)
    | some (next, _), _ => some (⟨next, history.registered⟩, false)
    | none, _ => none

/-- `new` returns storage that is not in use. -/
def Legal : Call → Prop
  | registerIntHandler _ _ _ address => address ≠ 0 ∧ history.manager.intHandlers address = none
  | _ => True

def Step (next : History) : Prop :=
  call.Legal history ∧ ∃ success, call.run history = some (next, success)

/-- The interrupt map does not have the GSI of the call, or it is a registration that cannot
be made. Through the HAL the context is the address of the new record. -/
def Harmless : Call → Prop
  | registerGSIHandler GSI _ _ =>
    history.manager.CanRegister GSI → history.manager.vectorOf GSI = none
  | registerIntHandler GSI _ ctx address =>
    history.manager.CanRegister GSI → history.manager.vectorOf GSI = none ∧ ctx = address
  | removeGSIHandler GSI => history.manager.vectorOf GSI = none
  | removeIntHandler data =>
    data ≠ 0 → ∀ record, history.manager.intHandlers data = some record →
      history.manager.vectorOf record.GSI = none

end
end Call

/-- The manager after `x86_64_IRQ_FullInit`, before any registration. -/
structure Initialised (history : History) : Prop where
  irqData : history.manager.irqData = some fullInit
  interruptMap : history.manager.interruptMap = OrderedMap.empty
  intHandlers : history.manager.intHandlers = fun _ => none
  registered : history.registered = fun _ => none

/-! ## One call -/

section Calls
variable {manager next : Manager} {GSI vector : Nat} {success : Bool} {ioapic : IOAPIC}
  {ioapics : IOAPICs}

theorem ioapic_found (found : getIOAPICForGSI ioapics GSI = some ioapic) :
    ioapic ∈ ioapics.list ∧ ioapic.gsiBase ≤ GSI ∧ ioapic.index GSI = GSI - ioapic.gsiBase ∧
      ioapic.index GSI < ioapic.maxRedirectionEntries := by
  have inside := find?_some found
  have positive := ioapic.positive
  have selectable := ioapic.selectable
  unfold IOAPIC.getMaxGSI at inside
  rw [Bool.and_eq_true, decide_eq_true_eq, decide_eq_true_eq] at inside
  refine ⟨mem_of_find?_eq_some found, inside.1, ?_⟩
  unfold IOAPIC.index
  omega

theorem redirection_apart {one two : Nat} {first second : IOAPIC}
    (foundOne : getIOAPICForGSI ioapics one = some first)
    (foundTwo : getIOAPICForGSI ioapics two = some second)
    (address : first.baseAddress = second.baseAddress)
    (index : first.index one = second.index two) : one = two := by
  rcases ioapic_found foundOne with ⟨memberOne, aboveOne, indexOne, _⟩
  rcases ioapic_found foundTwo with ⟨memberTwo, aboveTwo, indexTwo, _⟩
  obtain rfl := ioapics.apart _ memberOne _ memberTwo address
  omega

theorem programmed_set (found : getIOAPICForGSI manager.ioapics GSI = some ioapic)
    (entry : RedirectionEntry) (other : Nat) :
    (manager.setRedirectionEntry ioapic (ioapic.index GSI) entry).programmed other =
      if other = GSI then some entry.vector else manager.programmed other := by
  rcases ioapic_found found with ⟨_, _, _, inside⟩
  have written : manager.setRedirectionEntry ioapic (ioapic.index GSI) entry =
      { manager with
        redirection := fun address position =>
          if address = ioapic.baseAddress ∧ position = ioapic.index GSI then entry
          else manager.redirection address position } := if_neg (by omega)
  rw [written]
  unfold Manager.programmed
  dsimp only
  split_ifs with same
  · rw [same, found, map_some, if_pos ⟨rfl, rfl⟩]
  · cases there : getIOAPICForGSI manager.ioapics other with
    | none => rfl
    | some second =>
      have apart : ¬ (second.baseAddress = ioapic.baseAddress ∧
          second.index other = ioapic.index GSI) :=
        fun both => same (redirection_apart there found both.1 both.2)
      rw [map_some, map_some, if_neg apart]

/-- What a registration that succeeds does to the tables. -/
structure Registers (manager next : Manager) (GSI : Nat) (data : HandlerData) (vector : Nat) :
    Prop where
  allocatable : Allocatable vector
  free : manager.isUsed vector = false
  bytes : ∃ data, next.irqData = some data ∧ data.usedInterrupts.length = 32
  used : ∀ other, next.isUsed other = if other = vector then true else manager.isUsed other
  recorded : manager.vectorOf GSI = none →
    ∀ other, next.vectorOf other = if other = GSI then some vector else manager.vectorOf other
  kept : manager.vectorOf GSI ≠ none → next.vectorOf = manager.vectorOf
  programmed : ∀ other,
    next.programmed other = if other = GSI then some vector else manager.programmed other
  stored : manager.stored vector = none →
    ∀ other, next.stored other = if other = vector then some data else manager.stored other
  irqHandler : next.irqHandler = update manager.irqHandler vector true
  intHandlers : next.intHandlers = manager.intHandlers

theorem vector_of_insert (map : OrderedMap Nat IRQInfo) (info : IRQInfo) :
    (map.find? GSI = none → ∀ other, ((map.insert GSI info).find? other).map IRQInfo.interrupt =
      if other = GSI then some info.interrupt else (map.find? other).map IRQInfo.interrupt) ∧
    (map.find? GSI ≠ none → map.insert GSI info = map) := by
  constructor
  · intro absent other
    rw [find_insert_of_none info absent]
    split_ifs <;> rfl
  · intro present
    rcases ne_none_iff_exists'.mp present with ⟨old, found⟩
    exact insert_of_some info found

theorem register_cases {handler : GSIHandler} {ctx : Nat}
    (bytes : ∀ data, manager.irqData = some data → data.usedInterrupts.length = 32)
    (result : manager.registerGSIHandler GSI handler ctx = (next, success)) :
    (success = false ∧ next = manager ∧ ¬ manager.CanRegister GSI) ∨
      (success = true ∧ manager.CanRegister GSI ∧
        ∃ vector, Registers manager next GSI ⟨handler, ctx⟩ vector) := by
  unfold Manager.registerGSIHandler at result
  split at result
  · rename_i none
    cases result
    exact .inl ⟨rfl, rfl, fun can => by simpa [none] using can.ioapic⟩
  rename_i ioapic found
  split at result
  · rename_i none
    cases result
    exact .inl ⟨rfl, rfl, fun can => by simpa [none] using can.irqData⟩
  rename_i irqData data
  have same : manager.isUsed = bitAt irqData.usedInterrupts := by
    funext other
    unfold Manager.isUsed
    rw [data]
  split at result
  · rename_i full
    cases result
    refine .inl ⟨rfl, rfl, fun can => ?_⟩
    rcases can.vector with ⟨vector, inside, clear⟩
    have marked := find?_eq_none.mp full vector
      (mem_range'_1.mpr ⟨inside.1, by have := inside.2; omega⟩)
    rw [← same, clear] at marked
    exact marked rfl
  rename_i vector free
  have listed := mem_range'_1.mp (mem_of_find?_eq_some free)
  have unmarked : bitAt irqData.usedInterrupts vector = false := by
    simpa using find?_some free
  have allocatable : Allocatable vector := ⟨listed.1, by omega⟩
  split at result
  · rename_i none
    cases result
    exact .inl ⟨rfl, rfl, fun can => by simpa [none] using can.lapic⟩
  rename_i id lapic
  right
  cases result
  have can : manager.CanRegister GSI := by
    refine ⟨by rw [found]; rfl, by rw [data]; rfl, by rw [lapic]; rfl, vector, allocatable, ?_⟩
    rw [same]
    exact unmarked
  refine ⟨rfl, can, vector, ?_⟩
  have size := bytes irqData data
  have held : manager.stored = irqData.handlerMap.find? := by
    funext other
    unfold Manager.stored
    rw [data]
    rfl
  have insert := @vector_of_insert GSI manager.interruptMap ⟨vector⟩
  constructor
  · exact allocatable
  · rw [same]
    exact unmarked
  · exact ⟨_, rfl, by rw [write_length, size]⟩
  · intro other
    rw [same]
    split_ifs with here
    · rw [here]
      exact bit_at_write_same true (by omega)
    · exact bit_at_write_other true here
  · intro absent other
    exact insert.1 (map_eq_none_iff.mp absent) other
  · intro present
    have kept := insert.2 fun absent => present (map_eq_none_iff.mpr absent)
    funext other
    exact congrArg (fun map => (find? map other).map IRQInfo.interrupt) kept
  · intro other
    exact programmed_set found _ other
  · intro absent other
    rw [held] at absent ⊢
    exact find_insert_of_none _ absent other
  · rfl
  · have unchanged : ∀ entry, (manager.setRedirectionEntry ioapic (ioapic.index GSI)
        entry).intHandlers = manager.intHandlers := by
      intro entry
      unfold Manager.setRedirectionEntry
      split_ifs <;> rfl
    exact unchanged _

/-- What a removal that succeeds does to the tables. The mark of the vector stays. -/
structure Removes (manager next : Manager) (GSI vector : Nat) : Prop where
  recorded : manager.vectorOf GSI = some vector
  used : next.isUsed = manager.isUsed
  gone : ∀ other, next.vectorOf other = if other = GSI then none else manager.vectorOf other

theorem remove_cases (result : manager.removeGSIHandler GSI = (next, success)) :
    (success = false ∧ next = manager ∧ ∀ vector, manager.vectorOf GSI = some vector →
        manager.stored vector = none ∨ manager.programmed GSI = none) ∨
      (success = true ∧ next.intHandlers = manager.intHandlers ∧
        ∃ vector, Removes manager next GSI vector) := by
  unfold Manager.removeGSIHandler at result
  split at result
  · rename_i absent
    cases result
    exact .inl ⟨rfl, rfl, by simp [Manager.vectorOf, absent]⟩
  rename_i record info
  have recorded : manager.vectorOf GSI = some record.interrupt := by
    unfold Manager.vectorOf
    rw [info]
    rfl
  split at result
  · rename_i absent
    cases result
    exact .inl ⟨rfl, rfl, by simp [Manager.stored, absent]⟩
  rename_i irqData data
  split at result
  · rename_i absent
    cases result
    refine .inl ⟨rfl, rfl, fun vector same => .inl ?_⟩
    rw [recorded] at same
    cases same
    simp [Manager.stored, data, absent]
  rename_i old handler
  split at result
  · rename_i absent
    cases result
    exact .inl ⟨rfl, rfl, fun _ _ => .inr (by simp [Manager.programmed, absent])⟩
  rename_i ioapic found
  right
  cases result
  refine ⟨rfl, ?_, record.interrupt, recorded, ?_, ?_⟩
  · unfold Manager.setRedirectionEntry
    split_ifs <;> rfl
  · funext other
    unfold Manager.isUsed
    rw [data]
  · intro other
    unfold Manager.vectorOf
    dsimp only
    rw [find_erase]
    split_ifs <;> rfl

end Calls
end FrostyKernel.IRQ
