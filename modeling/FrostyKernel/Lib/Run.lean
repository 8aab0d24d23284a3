import Mathlib.Tactic

/-!
# Loops and runs

A loop is a step function that either continues in a new state or returns. It
is executed with fuel, so a loop that never returns has no result at any fuel.
A run is a finite sequence of labelled steps. The rules here are the only
inductions over loops and runs: a property kept by one step holds at the end.
-/

namespace FrostyKernel

section Loop
variable {State Result : Type*}

/-- Execute a step function until it returns, for at most `fuel` steps. -/
def loop (step : State → State ⊕ Result) : Nat → State → Option Result
  | 0, _ => none
  | fuel + 1, state =>
    match step state with
    | .inl next => loop step fuel next
    | .inr result => some result

/-- The loop started in `state` comes to an end with `result`. -/
def Returns (step : State → State ⊕ Result) (state : State) (result : Result) : Prop :=
  ∃ fuel, loop step fuel state = some result

variable {result : Result} {next state : State} {step : State → State ⊕ Result}

theorem returns_of_inr (ends : step state = .inr result) : Returns step state result :=
  ⟨1, by simp [loop, ends]⟩

theorem returns_of_inl (continues : step state = .inl next) (rest : Returns step next result) :
    Returns step state result := by
  obtain ⟨fuel, done⟩ := rest
  exact ⟨fuel + 1, by simpa [loop, continues] using done⟩

theorem returns_inr_iff {found : Result} (ends : step state = .inr found) :
    Returns step state result ↔ found = result := by
  constructor
  · rintro ⟨fuel, done⟩
    cases fuel with
    | zero => simp [loop] at done
    | succ fuel => simpa [loop, ends] using done
  · rintro rfl
    exact returns_of_inr ends

theorem returns_inl_iff (continues : step state = .inl next) :
    Returns step state result ↔ Returns step next result := by
  constructor
  · rintro ⟨fuel, done⟩
    cases fuel with
    | zero => simp [loop] at done
    | succ fuel => exact ⟨fuel, by simpa [loop, continues] using done⟩
  · exact returns_of_inl continues

/-- Partial correctness: what every step keeps and every return needs. -/
theorem loop_invariant (invariant : State → Prop) (post : Result → Prop)
    (keep : ∀ state next, invariant state → step state = .inl next → invariant next)
    (finish : ∀ state result, invariant state → step state = .inr result → post result)
    (start : invariant state) (returned : Returns step state result) : post result := by
  obtain ⟨fuel, done⟩ := returned
  induction fuel generalizing state with
  | zero => simp [loop] at done
  | succ fuel ih =>
    simp only [loop] at done
    split at done
    · rename_i next continues
      exact ih (keep state next start continues) done
    · rename_i found ends
      have same : found = result := by simpa using done
      exact same ▸ finish state found start ends

theorem not_returns_of_trap (trap : State → Prop)
    (stay : ∀ state, trap state → ∃ next, step state = .inl next ∧ trap next) (start : trap state)
    (result : Result) : ¬ Returns step state result := by
  intro returned
  refine loop_invariant trap (fun _ => False) ?_ ?_ start returned
  · intro current next inside continues
    obtain ⟨other, same, further⟩ := stay current inside
    rw [continues] at same
    exact Sum.inl.inj same ▸ further
  · intro current found inside ends
    obtain ⟨other, same, _⟩ := stay current inside
    rw [ends] at same
    cases same

/-! ## Loops of a fixed number of iterations -/

theorem iterate_alike {Other : Type*} {step : State → State} {step' : Other → Other}
    {alike : State → Other → Prop}
    (keep : ∀ {state other}, alike state other → alike (step state) (step' other)) (count : Nat)
    {other : Other} (start : alike state other) :
    alike (step^[count] state) (step'^[count] other) := by
  induction count generalizing state other with
  | zero => exact start
  | succ count ih => exact ih (keep start)

theorem iterate_kept {step : State → State} (invariant : State → Prop)
    (keep : ∀ state, invariant state → invariant (step state)) (count : Nat)
    (holds : invariant state) : invariant (step^[count] state) := by
  induction count generalizing state with
  | zero => exact holds
  | succ count ih => exact ih (keep state holds)

end Loop

section Run
variable {State Label : Type*}

/-- A finite sequence of labelled steps. -/
inductive Run (step : State → Label → State → Prop) : State → List Label → State → Prop
  | nil (state : State) : Run step state [] state
  | snoc {start middle final : State} {labels : List Label} {label : Label}
      (initial : Run step start labels middle) (last : step middle label final) :
      Run step start (labels ++ [label]) final

variable {step : State → Label → State → Prop} {guard : State → Label → Prop}
  {invariant property : State → Prop} {start final : State} {label : Label} {labels : List Label}

theorem run_invariant (invariant : State → Prop)
    (keep : ∀ state label next, invariant state → step state label next → invariant next)
    (holds : invariant start) (run : Run step start labels final) : invariant final := by
  induction run with
  | nil => exact holds
  | snoc _ last ih => exact keep _ _ _ ih last

theorem run_cons {middle : State} (first : step start label middle)
    (rest : Run step middle labels final) : Run step start (label :: labels) final := by
  induction rest with
  | nil => exact Run.snoc (Run.nil start) first
  | snoc _ last ih =>
    rw [← List.cons_append]
    exact Run.snoc ih last

theorem run_mono {weaker : State → Label → State → Prop}
    (implies : ∀ state label next, step state label next → weaker state label next)
    (run : Run step start labels final) : Run weaker start labels final := by
  induction run with
  | nil => exact Run.nil _
  | snoc _ last ih => exact Run.snoc ih (implies _ _ _ last)

theorem run_snoc_inv (run : Run step start (labels ++ [label]) final) :
    ∃ middle, Run step start labels middle ∧ step middle label final := by
  generalize whole : labels ++ [label] = sequence at run
  cases run with
  | nil => simp at whole
  | snoc initial last =>
    rcases List.append_inj' whole rfl with ⟨front, same⟩
    cases front
    cases same
    exact ⟨_, initial, last⟩

theorem run_deterministic
    (deterministic : ∀ state label next other, step state label next → step state label other →
      next = other) {other : State} (run : Run step start labels final)
    (again : Run step start labels other) : final = other := by
  induction run generalizing other with
  | nil =>
    generalize none : ([] : List Label) = sequence at again
    cases again with
    | nil => rfl
    | snoc => simp at none
  | snoc _ last ih =>
    rcases run_snoc_inv again with ⟨middle, initial, lastAgain⟩
    cases ih initial
    exact deterministic _ _ _ _ last lastAgain

/-- A property that a step keeps exactly when a guard holds is true at the end of a run
exactly when every step of the run met the guard. -/
theorem run_guarded_iff
    (deterministic : ∀ state label next other, step state label next → step state label other →
      next = other)
    (keep : ∀ state label next, invariant state → step state label next → invariant next)
    (exactly : ∀ state label next, invariant state → step state label next →
      (property next ↔ property state ∧ guard state label))
    (holds : invariant start) (first : property start) (run : Run step start labels final) :
    property final ↔
      Run (fun state label next => step state label next ∧ guard state label) start labels final := by
  induction run with
  | nil => exact ⟨fun _ => .nil _, fun _ => first⟩
  | snoc initial last ih =>
    rw [exactly _ _ _ (run_invariant invariant keep holds initial) last, ih]
    constructor
    · rintro ⟨before, met⟩
      exact .snoc before ⟨last, met⟩
    · intro guarded
      rcases run_snoc_inv guarded with ⟨middle, before, _, met⟩
      have unguarded := run_mono (fun _ _ _ both => both.1) before
      cases run_deterministic deterministic initial unguarded
      exact ⟨before, met⟩

/-- The runs in which every step has a property are the runs in which every step meets
the guard. -/
theorem run_steps_iff {property : State → Label → State → Prop}
    (keep : ∀ state label next, invariant state → step state label next → guard state label →
      invariant next) (exactly : ∀ state label next, invariant state → step state label next →
      (property state label next ↔ guard state label)) (holds : invariant start) :
    Run (fun state label next => step state label next ∧ property state label next) start labels
        final ↔
      Run (fun state label next => step state label next ∧ guard state label) start labels
        final := by
  constructor
  · intro run
    suffices whole : Run (fun state label next => step state label next ∧ guard state label) start
        labels final ∧ invariant final from whole.1
    induction run with
    | nil => exact ⟨.nil _, holds⟩
    | snoc _ last ih =>
      rcases ih with ⟨guarded, inside⟩
      have met := (exactly _ _ _ inside last.1).mp last.2
      exact ⟨.snoc guarded ⟨last.1, met⟩, keep _ _ _ inside last.1 met⟩
  · intro run
    suffices whole : Run (fun state label next => step state label next ∧
        property state label next) start labels final ∧ invariant final from whole.1
    induction run with
    | nil => exact ⟨.nil _, holds⟩
    | snoc _ last ih =>
      rcases ih with ⟨always, inside⟩
      have after := (exactly _ _ _ inside last.1).mpr last.2
      exact ⟨.snoc always ⟨last.1, after⟩, keep _ _ _ inside last.1 last.2⟩

theorem run_always_iff
    (keep : ∀ state label next, invariant state → property state → step state label next →
      invariant next)
    (exactly : ∀ state label next, invariant state → property state → step state label next →
      (property next ↔ guard state label)) (holds : invariant start) (first : property start) :
    Run (fun state label next => step state label next ∧ property next) start labels final ↔
      Run (fun state label next => step state label next ∧ guard state label) start labels
        final := by
  apply @run_steps_iff State Label step guard (fun state => invariant state ∧ property state)
  · rintro state label next ⟨inside, before⟩ last met
    exact ⟨keep _ _ _ inside before last, (exactly _ _ _ inside before last).mpr met⟩
  · rintro state label next ⟨inside, before⟩ last
    exact exactly _ _ _ inside before last
  · exact ⟨holds, first⟩

/-- A run found together with what is known of its last state. -/
theorem exists_run_of {ran late : State → Prop} (known : State → Prop)
    (found : ∃ final, ran final ∧ known final)
    (implies : ∀ final, ran final → known final → late final) : ∃ final, ran final ∧ late final :=
  found.imp fun final both => ⟨both.1, implies final both.1 both.2⟩

theorem run_of_foldlM {step : State → Label → Option State}
    (evaluated : labels.foldlM step start = some final) :
    Run (fun state label next => step state label = some next) start labels final := by
  induction labels generalizing start with
  | nil =>
    cases evaluated
    exact .nil _
  | cons label rest ih =>
    rw [List.foldlM_cons, Option.bind_eq_bind, Option.bind_eq_some_iff] at evaluated
    rcases evaluated with ⟨middle, first, further⟩
    exact run_cons first (ih further)

end Run
end FrostyKernel
