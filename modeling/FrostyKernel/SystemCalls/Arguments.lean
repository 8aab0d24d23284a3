import FrostyKernel.Lib.Word

/-!
# The arguments of a new program

`CopyArgEnvFromUser` copies two arrays of strings, each ended by a null pointer,
out of user memory. Two loops collect the pointers and two more copy the strings.
The second loop reads the element at the index where the first one ended, not at
its own.

What `UserReadString` does with a pointer is left open. The kernel heap enters
with the number of times it lets an array grow by eight entries.
-/

namespace FrostyKernel.SystemCalls

open Word List

inductive Errno
  | EFAULT
  | ENOMEM
deriving DecidableEq, Repr

inductive Element
  | argv (index : Nat)
  | envv (index : Nat)
deriving DecidableEq, Repr

structure UserMemory where
  /-- The word at an address, unless `ValidateRead` refuses it. -/
  word : Nat → Option Nat
  readString : Nat → Option (List UInt8)

structure Arguments where
  argc : Nat
  argv : List (Option (List UInt8))
  envc : Nat
  env : List (Option (List UInt8))
deriving DecidableEq

/-- `UserRead` of a pointer. -/
def userRead (user : UserMemory) (address : Nat) : Option Nat :=
  if address = 0 then none else user.word address

def elementAddress (argv envv : Nat) : Element → Nat
  | .argv index => add64 argv (mul64 8 index)
  | .envv index => add64 envv (mul64 8 index)

/-- A loop that collects pointers, with the elements it reads; an array of `room`
entries cannot grow any more. -/
def collect (user : UserMemory) (address : Element → Nat) (element : Nat → Element) :
    Nat → Nat → List Element × Except Errno (List Nat)
  | 0, count =>
    match userRead user (address (element count)) with
    | none => ([element count], .error .EFAULT)
    | some _ => ([element count], .error .ENOMEM)
  | room + 1, count =>
    match userRead user (address (element count)) with
    | none => ([element count], .error .EFAULT)
    | some pointer =>
      if pointer = 0 then ([element count], .ok [])
      else
        let rest := collect user address element room (count + 1)
        (element count :: rest.1, rest.2.map (pointer :: ·))

def copyStrings (user : UserMemory) : List Nat → Except Errno (List (List UInt8))
  | [] => .ok []
  | pointer :: rest =>
    match user.readString pointer with
    | none => .error .EFAULT
    | some string => (copyStrings user rest).map (string :: ·)

def terminated (strings : List (List UInt8)) : List (Option (List UInt8)) :=
  strings.map some ++ [none]

/-- `CopyArgEnvFromUser(argv, envv, ...)` with the elements it reads. -/
def copyArgEnvFromUser (user : UserMemory) (argv envv growths : Nat) :
    List Element × Except Errno Arguments :=
  let args := collect user (elementAddress argv envv) .argv (8 * (growths + 1)) 0
  match args.2 with
  | .error code => (args.1, .error code)
  | .ok argPointers =>
    let argc := argPointers.length
    let envs :=
      collect user (elementAddress argv envv) (fun _ => .envv argc) (8 * (growths + 1)) 0
    match envs.2 with
    | .error code => (args.1 ++ envs.1, .error code)
    | .ok envPointers =>
      (args.1 ++ envs.1, do
        let argStrings ← copyStrings user argPointers
        let envStrings ← copyStrings user envPointers
        return ⟨argc, terminated argStrings, envPointers.length, terminated envStrings⟩)

/-- From `index` on the elements are the pointers and a null pointer. -/
def Holds (user : UserMemory) (address : Nat → Nat) : Nat → List Nat → Prop
  | index, [] => userRead user (address index) = some 0
  | index, pointer :: rest =>
    pointer ≠ 0 ∧ userRead user (address index) = some pointer ∧ Holds user address (index + 1) rest

def Element.Within (argc envc : Nat) : Element → Prop
  | .argv index => index ≤ argc
  | .envv index => index ≤ envc

/-- The copies are the strings in their order, each array with its end, and no
element behind the end of an array was read. -/
structure Exact (args envs : List (List UInt8))
    (outcome : List Element × Except Errno Arguments) : Prop where
  result : outcome.2 = .ok ⟨args.length, terminated args, envs.length, terminated envs⟩
  inside : ∀ element ∈ outcome.1, element.Within args.length envs.length

section Collect
variable {user : UserMemory} {address : Element → Nat} {element : Nat → Element}

theorem collect_reads_first (room count : Nat) :
    element count ∈ (collect user address element room count).1 := by
  cases room with
  | zero =>
    unfold collect
    split <;> simp
  | succ room =>
    unfold collect
    split
    · simp
    · split_ifs <;> simp

variable {pointers : List Nat} {index : Nat} {place : Nat → Nat}

theorem collect_array {room count : Nat}
    (holds : Holds user (fun index => address (element index)) count pointers)
    (large : pointers.length < room) :
    (collect user address element room count).2 = .ok pointers := by
  induction pointers generalizing room count with
  | nil =>
    cases room with
    | zero => simp at large
    | succ room =>
      have null : userRead user (address (element count)) = some 0 := holds
      simp [collect, null]
  | cons pointer rest ih =>
    cases room with
    | zero => simp at large
    | succ room =>
      rcases holds with ⟨nonzero, here, further⟩
      have tail := ih further (by simpa using large)
      simp only at here
      simp [collect, here, nonzero, tail, Except.map]

/-- A loop that reads one pointer again and again ends when its array cannot grow. -/
theorem collect_same {same : Element} {pointer : Nat} (room count : Nat)
    (here : userRead user (address same) = some pointer) (nonzero : pointer ≠ 0) :
    (collect user address (fun _ => same) room count).2 = .error .ENOMEM := by
  induction room generalizing count with
  | zero => simp [collect, here]
  | succ room ih => simp [collect, here, nonzero, ih, Except.map]

theorem holds_entry {offset : Nat} (holds : Holds user place index pointers)
    (inside : offset < pointers.length) :
    ∃ pointer, pointer ≠ 0 ∧ userRead user (place (index + offset)) = some pointer := by
  induction pointers generalizing index offset with
  | nil => simp at inside
  | cons pointer rest ih =>
    rcases holds with ⟨nonzero, here, further⟩
    cases offset with
    | zero => exact ⟨pointer, nonzero, here⟩
    | succ offset =>
      rw [add_comm offset, ← add_assoc]
      exact ih further (by simpa using inside)

theorem holds_end (holds : Holds user place index pointers) :
    userRead user (place (index + pointers.length)) = some 0 := by
  induction pointers generalizing index with
  | nil => exact holds
  | cons pointer rest ih =>
    rw [length_cons, add_comm rest.length, ← add_assoc]
    exact ih holds.2.2

end Collect

/-- The arrays are copied, given enough memory, exactly when both are empty. -/
theorem arguments_exact_iff {user : UserMemory} {argv envv : Nat}
    {args envs : List (Nat × List UInt8)}
    (argArray : Holds user (fun index => elementAddress argv envv (.argv index)) 0
      (args.map Prod.fst))
    (envArray : Holds user (fun index => elementAddress argv envv (.envv index)) 0
      (envs.map Prod.fst)) :
    (∃ enough, ∀ growths, enough ≤ growths →
      Exact (args.map Prod.snd) (envs.map Prod.snd)
        (copyArgEnvFromUser user argv envv growths)) ↔ args = [] ∧ envs = [] := by
  constructor
  · intro copied
    rcases copied with ⟨enough, exact⟩
    have outcome := exact (enough + args.length) (by omega)
    have collected : (collect user (elementAddress argv envv) .argv
        (8 * (enough + args.length + 1)) 0).2 = .ok (args.map Prod.fst) :=
      collect_array argArray (by simp only [length_map]; omega)
    have reads : .envv args.length ∈
        (copyArgEnvFromUser user argv envv (enough + args.length)).1 := by
      have first : .envv args.length ∈ (collect user (elementAddress argv envv)
        (fun _ => .envv args.length) (8 * (enough + args.length + 1)) 0).1 :=
        collect_reads_first _ 0
      unfold copyArgEnvFromUser
      simp only [collected, length_map]
      split <;> simp [first]
    have order : args.length ≤ envs.length := by
      simpa [Element.Within] using outcome.inside _ reads
    have result := outcome.result
    unfold copyArgEnvFromUser at result
    simp only [collected, length_map] at result
    rcases Nat.lt_or_eq_of_le order with fewer | same
    · rcases holds_entry envArray (show args.length < (envs.map Prod.fst).length by simpa) with
        ⟨pointer, nonzero, here⟩
      rw [zero_add] at here
      simp [collect_same _ 0 here nonzero] at result
    · have null := holds_end envArray
      rw [zero_add, length_map, ← same] at null
      have nothing : (collect user (elementAddress argv envv) (fun _ => .envv args.length)
          (8 * (enough + args.length + 1)) 0).2 = .ok [] :=
        collect_array null (by simp)
      have none : envs = [] := by
        simp only [nothing, copyStrings] at result
        cases strings : copyStrings user (args.map Prod.fst) with
        | error code => simp [strings, bind, Except.bind] at result
        | ok copies =>
          simp [strings, bind, Except.bind, pure, Except.pure] at result
          exact eq_nil_of_length_eq_zero result.2.1.symm
      rw [none] at same
      exact ⟨eq_nil_of_length_eq_zero same, none⟩
  · intro empty
    rcases empty with ⟨noArgs, noEnvs⟩
    subst noArgs noEnvs
    have noArg : userRead user (elementAddress argv envv (.argv 0)) = some 0 := argArray
    have noEnv : userRead user (elementAddress argv envv (.envv 0)) = some 0 := envArray
    refine ⟨0, fun growths _ => ⟨?_, ?_⟩⟩
    · simp [copyArgEnvFromUser, collect, noArg, noEnv, copyStrings, mul_add, bind,
        Except.bind, pure, Except.pure]
    · simp [copyArgEnvFromUser, collect, noArg, noEnv, mul_add, Element.Within]

/-- Two arrays without strings, at `0x1000` and `0x2000`. -/
def noStrings : UserMemory :=
  ⟨fun address => if address = 0x1000 ∨ address = 0x2000 then some 0 else none, fun _ => none⟩

theorem arguments_exact_iff_no_strings :
    ∃ enough, ∀ growths, enough ≤ growths →
      Exact [] [] (copyArgEnvFromUser noStrings 0x1000 0x2000 growths) := by
  have argArray : Holds noStrings (fun index => elementAddress 0x1000 0x2000 (.argv index)) 0
      (([] : List (Nat × List UInt8)).map Prod.fst) := rfl
  have envArray : Holds noStrings (fun index => elementAddress 0x1000 0x2000 (.envv index)) 0
      (([] : List (Nat × List UInt8)).map Prod.fst) := rfl
  exact (arguments_exact_iff argArray envArray).mpr ⟨rfl, rfl⟩

/-- One argument at `0x1000` and no environment at `0x2000`. -/
def oneArgument : UserMemory :=
  ⟨fun address => if address = 0x1000 then some 0x3000
    else if address = 0x1008 ∨ address = 0x2000 then some 0 else none, fun _ => some [97]⟩

/-- The word behind the end of the environment is read, and the call fails. -/
theorem one_argument_reads_past_environment :
    Holds oneArgument (fun index => elementAddress 0x1000 0x2000 (.argv index)) 0 [0x3000] ∧
      Holds oneArgument (fun index => elementAddress 0x1000 0x2000 (.envv index)) 0 [] ∧
      ∀ growths, copyArgEnvFromUser oneArgument 0x1000 0x2000 growths =
        ([.argv 0, .argv 1, .envv 1], .error .EFAULT) := by
  refine ⟨⟨by decide, rfl, rfl⟩, rfl, ?_⟩
  intro growths
  have first : userRead oneArgument (elementAddress 0x1000 0x2000 (.argv 0)) = some 0x3000 := rfl
  have last : userRead oneArgument (elementAddress 0x1000 0x2000 (.argv 1)) = some 0 := rfl
  have past : userRead oneArgument (elementAddress 0x1000 0x2000 (.envv 1)) = none := rfl
  simp [copyArgEnvFromUser, collect, first, last, past, mul_add, Except.map]

end FrostyKernel.SystemCalls
