import FrostyKernel.Stdio.PrintfSinks

/-!
# The two formatters agree

A format that matches its arguments is formatted to its end. The buffer of `vsnprintf`
is at every point the image of the stream of `vfprintf`, and both return the number of
characters as far as an `int` can count it.
-/

namespace FrostyKernel.Stdio

open FrostyKernel.Output Word Formatter List Buffer Scan Conversion

/-! ## Formats that match their arguments -/

namespace Formatter

variable {Sink : Type} {put : Sink → UInt8 → Sink} {formatter : Formatter Sink} {more : List Kind}
  {c : UInt8} {fuel : Nat} {result : Scan × List Kind} {scan : Scan}

theorem take_some {kind : Kind} (kinds : formatter.args.map Arg.kind = kind :: more) :
    ∃ rest, rest.map Arg.kind = more ∧
      match kind with
      | .int => ∃ value, formatter.takeInt = some ({ formatter with args := rest }, value)
      | .long => ∃ value, formatter.takeLong = some ({ formatter with args := rest }, value)
      | .string => ∃ text, formatter.takeString = some ({ formatter with args := rest }, text)
      | .pointer => ∃ p, formatter.takePointer = some ({ formatter with args := rest }, p) := by
  rcases map_eq_cons_iff.mp kinds with ⟨arg, rest, shape, rfl, left⟩
  refine ⟨rest, left, ?_⟩
  cases arg with
  | int value => exact ⟨value, by rw [takeInt, shape]⟩
  | long value => exact ⟨value, by rw [takeLong, shape]⟩
  | string text => exact ⟨text, by rw [takeString, shape]⟩
  | pointer address => exact ⟨address, by rw [takePointer, shape]⟩

def numberKind (len : Length) : Kind := if len.wide then .long else .int

theorem take_number_some
    (kinds : formatter.args.map Arg.kind = numberKind formatter.conv.len :: more) :
    ∃ num rest, formatter.takeNumber = some ({ formatter with args := rest }, num) ∧
      rest.map Arg.kind = more := by
  unfold takeNumber
  unfold numberKind at kinds
  split at kinds
  · rename_i wide
    rcases take_some kinds with ⟨rest, left, value, taken⟩
    rw [if_pos wide, taken]
    exact ⟨_, rest, rfl, left⟩
  · rename_i narrow
    rcases take_some kinds with ⟨rest, left, value, taken⟩
    rw [if_neg narrow, taken]
    exact ⟨_, rest, rfl, left⟩

/-- The same arguments are left, and the same number is to be printed. -/
structure SameNumber (before after : Formatter Sink) : Prop where
  args : after.args = before.args
  number : after.conv.number = before.conv.number
  floating : after.conv.floating = before.conv.floating
  len : after.conv.len = before.conv.len

section
variable (formatter : Formatter Sink)

theorem SameNumber.refl : SameNumber formatter formatter := ⟨rfl, rfl, rfl, rfl⟩

theorem SameNumber.trans {first second third : Formatter Sink} (one : SameNumber first second)
    (two : SameNumber second third) : SameNumber first third :=
  ⟨two.args.trans one.args, two.number.trans one.number, two.floating.trans one.floating,
    two.len.trans one.len⟩

theorem same_number_emit (c : UInt8) :
    SameNumber formatter (formatter.emit put c) := ⟨rfl, rfl, rfl, rfl⟩

theorem same_number_width (width : Int) :
    SameNumber formatter (formatter.setWidth width) := ⟨rfl, rfl, rfl, rfl⟩

theorem same_number_string (text : List UInt8) (j : Nat) (formatter : Formatter Sink) :
    SameNumber formatter (formatter.printString put j text) := by
  induction text generalizing j formatter with
  | nil => exact .refl formatter
  | cons c rest ih =>
    unfold printString
    split
    · exact .refl formatter
    · exact ((same_number_emit formatter c).trans (same_number_width _ _)).trans (ih _ _)

theorem same_number_extra : SameNumber formatter (formatter.printExtra put) := by
  unfold printExtra
  split
  · split
    · exact ((same_number_emit formatter _).trans (same_number_emit _ _)).trans
        (same_number_width _ _)
    · split
      · exact (same_number_emit formatter _).trans (same_number_width _ _)
      · exact .refl formatter
  · exact .refl formatter

end

def otherKinds (c : Char) : List Kind :=
  match c with
  | 'c' => [.int]
  | 's' => [.string]
  | 'n' => [.pointer]
  | _ => []

theorem print_other_some {c : Char} (kinds : formatter.args.map Arg.kind = otherKinds c ++ more) :
    ∃ printed rest, formatter.printOther put c = some printed ∧ rest.map Arg.kind = more ∧
      SameNumber { formatter with args := rest } printed := by
  unfold printOther
  unfold otherKinds at kinds
  split at kinds
  · rcases take_some kinds with ⟨rest, left, value, taken⟩
    rw [taken]
    exact ⟨_, rest, rfl, left, same_number_emit _ _⟩
  · rcases take_some kinds with ⟨rest, left, text, taken⟩
    rw [taken]
    refine ⟨_, rest, rfl, left, ?_⟩
    apply iterate_kept (SameNumber { formatter with args := rest })
    · intro printed same
      exact same.trans (same_number_emit _ _)
    · exact same_number_string text 0 _
  · rcases take_some kinds with ⟨rest, left, address, taken⟩
    rw [taken]
    exact ⟨_, rest, rfl, left, ⟨rfl, rfl, rfl, rfl⟩⟩
  · split
    · contradiction
    · contradiction
    · contradiction
    · exact ⟨_, formatter.args, rfl, kinds, same_number_emit formatter _⟩
    · exact ⟨_, formatter.args, rfl, kinds, .refl formatter⟩

theorem print_number_some (supported : formatter.conv.floating = false)
    (kinds : formatter.args.map Arg.kind =
      (if formatter.conv.number then [numberKind formatter.conv.len] else []) ++ more) :
    ∃ done, formatter.printNumber put = some done ∧ done.args.map Arg.kind = more := by
  unfold printNumber
  split
  · rename_i number
    rw [if_pos number] at kinds
    rcases take_number_some kinds with ⟨num, rest, taken, left⟩
    rw [if_neg (by simp [supported]), taken]
    simp only
    split
    · exact ⟨_, rfl, left⟩
    · exact ⟨_, rfl, left⟩
  · rename_i number
    rw [if_neg number] at kinds
    exact ⟨_, rfl, kinds⟩

variable {conv : Conversion} {next : Formatter Sink}

theorem specify_kinds {c : Char} (plain : conv.number = false) (supported : floating c = false) :
    specKinds conv.len c =
      otherKinds c ++
        if (conv.specify c).number then [numberKind (conv.specify c).len] else [] := by
  unfold specKinds
  split
  all_goals try rfl
  · simp [otherKinds, specify, plain]
  · simp [otherKinds, specify, plain]
  · simp [otherKinds, specify, plain]
  · have noOther : otherKinds c = [] := by
      unfold otherKinds
      split <;> first | contradiction | rfl
    have noNumber : (conv.specify c).number = false := by
      unfold specify
      split <;> first | contradiction | exact plain
    rw [noOther, noNumber]
    rfl

theorem specify_supported {c : Char} (plain : conv.floating = false)
    (supported : floating c = false) : (conv.specify c).floating = false := by
  unfold specify
  split <;> first | rfl | contradiction | exact plain

/-- The formatter is where the scan of the format is, no number is set up yet, and a dot
may be read if the scan has seen none. -/
structure Follows (scan : Scan) (formatter : Formatter Sink) : Prop where
  mode : formatter.mode = scan.mode
  len : formatter.conv.len = scan.len
  number : formatter.conv.number = false
  floating : formatter.conv.floating = false
  dot : scan.dotted = false → formatter.conv.precision = -1
  prec : scan.mode = .PREC → scan.dotted = true

/-- At the character `c` the formatter takes the arguments the scan names and goes on
where the scan does. -/
def Advances (put : Sink → UInt8 → Sink) (fuel : Nat) (formatter : Formatter Sink) (c : UInt8)
    (result : Scan × List Kind) : Prop :=
  ∀ more, formatter.args.map Arg.kind = result.2 ++ more →
    ∃ next, atChar put fuel formatter c = some next ∧ Follows result.1 next ∧
      next.args.map Arg.kind = more

theorem start_follows (sink : Sink) (symbols : Int) (args : List Arg) (stores : List Store) :
    Follows Scan.start ⟨.NORMAL, .start, sink, symbols, args, stores⟩ :=
  ⟨rfl, rfl, rfl, rfl, fun _ => rfl, by simp [Scan.start]⟩

theorem advances_of_step (step : formatter.step put c = some (next, true))
    (follows : Follows result.1 next)
    (args : ∀ more, formatter.args.map Arg.kind = result.2 ++ more →
      next.args.map Arg.kind = more) :
    Advances put (fuel + 1) formatter c result := by
  intro more kinds
  refine ⟨next, ?_, follows, args more kinds⟩
  rw [atChar, step]

theorem advances_of_skip (step : formatter.step put c = some (next, false))
    (same : next.args = formatter.args) (later : Advances put fuel next c result) :
    Advances put (fuel + 1) formatter c result := by
  intro more kinds
  rw [atChar, step]
  exact later more (same ▸ kinds)

section
variable (follows : Follows scan formatter)
include follows

theorem spec_advances (mode : scan.mode = .SPEC)
    (scanned : scan.atSpec (Char.ofNat c.toNat) = some result) :
    Advances put (fuel + 1) formatter c result := by
  unfold atSpec at scanned
  split at scanned
  · cases scanned
  rename_i supported
  cases scanned
  rw [Bool.not_eq_true] at supported
  intro more kinds
  let specified := formatter.setConv (formatter.conv.specify (Char.ofNat c.toNat))
  have needs : specified.args.map Arg.kind = otherKinds (Char.ofNat c.toNat) ++
      ((if specified.conv.number then [numberKind specified.conv.len] else []) ++ more) := by
    refine kinds.trans ?_
    rw [← follows.len, specify_kinds follows.number supported, append_assoc]
    rfl
  rcases @print_other_some _ put _ _ _ needs with ⟨printed, rest, other, left, same⟩
  have whole := same.trans (@same_number_extra _ put printed)
  have supportedStill : (printed.printExtra put).conv.floating = false :=
    whole.floating.trans (specify_supported follows.floating supported)
  have numberNeeds : (printed.printExtra put).args.map Arg.kind =
      (if (printed.printExtra put).conv.number then
        [numberKind (printed.printExtra put).conv.len] else []) ++ more := by
    rw [whole.args, whole.number, whole.len]
    exact left
  rcases @print_number_some _ put _ _ supportedStill numberNeeds with ⟨done, number, finished⟩
  refine ⟨(done.setConv .start).setMode .NORMAL, ?_, start_follows _ _ _ _, finished⟩
  have specStep : formatter.step put c = some ((done.setConv .start).setMode .NORMAL, true) := by
    simp only [step, follows.mode.trans mode, printSpec]
    rw [other]
    simp only
    rw [number]
  rw [atChar, specStep]

theorem Follows.set_length (len : Length) :
    Follows { scan with len := len } (formatter.setLength len) :=
  ⟨follows.mode, rfl, follows.number, follows.floating, follows.dot, follows.prec⟩

theorem Follows.set_mode {mode : Mode} (other : mode ≠ .PREC) :
    Follows { scan with mode := mode } (formatter.setMode mode) :=
  ⟨rfl, follows.len, follows.number, follows.floating, follows.dot, fun same => absurd same other⟩

theorem Follows.set_width (width : Int) : Follows scan (formatter.setWidth width) :=
  ⟨follows.mode, follows.len, follows.number, follows.floating, follows.dot, follows.prec⟩

theorem Follows.set_precision (inPrecision : scan.mode = .PREC) (precision : Int) :
    Follows scan (formatter.setPrecision precision) :=
  ⟨follows.mode, follows.len, follows.number, follows.floating,
    by simp [follows.prec inPrecision], follows.prec⟩

theorem Follows.set_args (args : List Arg) : Follows scan { formatter with args := args } :=
  ⟨follows.mode, follows.len, follows.number, follows.floating, follows.dot, follows.prec⟩

theorem length_advances (mode : scan.mode = .LEN)
    (scanned : scan.atLength (Char.ofNat c.toNat) = some result) :
    Advances put (fuel + 2) formatter c result := by
  have stepped : formatter.step put c = formatter.readLength (Char.ofNat c.toNat) := by
    simp only [step, follows.mode.trans mode]
  unfold atLength at scanned
  unfold readLength at stepped
  split at scanned
  · rename_i dot
    rw [dot] at stepped
    split at scanned
    · cases scanned
    · rename_i first
      cases scanned
      simp only [if_pos (follows.dot (by simpa using first))] at stepped
      exact advances_of_step stepped ⟨rfl, follows.len, follows.number, follows.floating, by simp,
        fun _ => rfl⟩ fun _ kinds => kinds
  case h_8 =>
    split at stepped
    all_goals try contradiction
    exact advances_of_skip stepped rfl (spec_advances (follows.set_mode (by simp)) rfl scanned)
  all_goals
    rename_i length
    rw [length] at stepped
    simp only [follows.len] at stepped
    cases scanned
    exact advances_of_step stepped (follows.set_length _) fun _ kinds => kinds

theorem number_advances (mode : scan.mode = .WIDTH ∨ scan.mode = .PREC)
    (scanned : scan.atNumber c = some result) : Advances put (fuel + 3) formatter c result := by
  unfold atNumber at scanned
  split at scanned
  · rename_i star
    cases scanned
    intro more kinds
    rcases take_some kinds with ⟨rest, left, value, taken⟩
    rcases mode with width | precision
    · have stepped : formatter.step put c =
          some (({ formatter with args := rest }.setWidth (signedInt value)).setMode .LEN, true) := by
        simp only [step, follows.mode.trans width, readWidth, if_pos star, taken]
      rw [atChar, stepped]
      exact ⟨_, rfl, ((follows.set_args rest).set_width _).set_mode (by simp), left⟩
    · have stepped : formatter.step put c =
          some (({ formatter with args := rest }.setPrecision (signedInt value)).setMode .LEN,
            true) := by
        simp only [step, follows.mode.trans precision, readPrecision, if_pos star, taken]
      rw [atChar, stepped]
      exact ⟨_, rfl, ((follows.set_args rest).set_precision precision _).set_mode (by simp), left⟩
  · rename_i notStar
    split at scanned
    · rename_i digit
      cases scanned
      rcases mode with width | precision
      · have stepped : formatter.step put c =
            some (formatter.setWidth (shiftDigit formatter.conv.width c), true) := by
          simp only [step, follows.mode.trans width, readWidth, if_neg notStar, if_pos digit]
        exact advances_of_step stepped (follows.set_width _) fun _ kinds => kinds
      · have stepped : formatter.step put c =
            some (formatter.setPrecision (shiftDigit formatter.conv.precision c), true) := by
          simp only [step, follows.mode.trans precision, readPrecision, if_neg notStar,
            if_pos digit]
        exact advances_of_step stepped (follows.set_precision precision _) fun _ kinds => kinds
    · rename_i notDigit
      have stepped : formatter.step put c = some (formatter.setMode .LEN, false) := by
        rcases mode with width | precision
        · simp only [step, follows.mode.trans width, readWidth, if_neg notStar, if_neg notDigit]
        · simp only [step, follows.mode.trans precision, readPrecision, if_neg notStar,
            if_neg notDigit]
      exact advances_of_skip stepped rfl (length_advances (follows.set_mode (by simp)) rfl scanned)

theorem flag_advances (mode : scan.mode = .FLAGS) (scanned : scan.atFlag c = some result) :
    Advances put 4 formatter c result := by
  have stepped : formatter.step put c = some (formatter.flag (Char.ofNat c.toNat)) := by
    simp only [step, follows.mode.trans mode]
  have kept : ∀ conv : Conversion, conv.len = formatter.conv.len →
      conv.number = formatter.conv.number → conv.floating = formatter.conv.floating →
      conv.precision = formatter.conv.precision → Follows scan (formatter.setConv conv) := by
    intro conv len number floating precision
    exact ⟨follows.mode, len.trans follows.len, number.trans follows.number, floating.trans
      follows.floating, fun first => precision.trans (follows.dot first), follows.prec⟩
  unfold atFlag at scanned
  unfold flag at stepped
  split at stepped
  case h_6 =>
    split at scanned
    all_goals try contradiction
    exact advances_of_skip stepped rfl
      (number_advances (follows.set_mode (by simp)) (.inl rfl) scanned)
  all_goals
    rename_i same
    rw [same] at scanned
    cases scanned
    exact advances_of_step stepped (kept _ rfl rfl rfl rfl) fun _ kinds => kinds

theorem char_advances (scanned : scan.next c = some result) :
    Advances put 4 formatter c result := by
  unfold Scan.next at scanned
  split at scanned
  · rename_i normal
    have formatterMode := follows.mode.trans normal
    split at scanned
    · rename_i percent
      cases scanned
      have stepped : formatter.step put c = some (formatter.setMode .FLAGS, true) := by
        simp only [step, formatterMode, if_pos percent]
      exact advances_of_step stepped (follows.set_mode (by simp)) fun _ kinds => kinds
    · rename_i other
      cases scanned
      have stepped : formatter.step put c = some (formatter.emit put c, true) := by
        simp only [step, formatterMode, if_neg other]
      exact advances_of_step stepped ⟨follows.mode, follows.len, follows.number,
        follows.floating, follows.dot, follows.prec⟩ fun _ kinds => kinds
  · rename_i mode
    exact flag_advances follows mode scanned
  · rename_i mode
    exact number_advances follows (.inl mode) scanned
  · rename_i mode
    exact number_advances follows (.inr mode) scanned
  · rename_i mode
    exact length_advances follows mode scanned
  · rename_i mode
    exact spec_advances follows mode scanned

theorem run_some {format : List UInt8} {kinds : List Kind}
    (scanned : scan.kinds format = some kinds)
    (args : formatter.args.map Arg.kind = kinds ++ more) :
    ∃ done, run put formatter format = some done := by
  induction format generalizing scan formatter kinds with
  | nil => exact ⟨formatter, rfl⟩
  | cons c rest ih =>
    simp only [Scan.kinds] at scanned
    split at scanned
    · cases scanned
    rename_i further here found
    rcases Option.map_eq_some_iff.mp scanned with ⟨later, behind, rfl⟩
    rw [append_assoc] at args
    rcases @char_advances _ put _ _ _ _ follows found _ args with ⟨next, stepped, onward, left⟩
    rcases ih onward behind left with ⟨done, finished⟩
    refine ⟨done, ?_⟩
    rw [run, stepped]
    exact finished

end
end Formatter

/-! ## The two functions -/

/-- Both return the number of characters of the stream; the memory receives the first of
them, as many as there is room for, with a terminator behind, and nothing else. -/
def Agrees (s : Nat → UInt8) (n : Nat) (format : List UInt8) (args : List Arg) : Prop :=
  ∃ emitted written, vfprintf format args = some emitted ∧
    vsnprintf s n format args = some written ∧
    emitted.returned = emitted.sink.length ∧ written.returned = emitted.sink.length ∧
    (∀ i < min (n - 1) emitted.sink.length, written.sink i = emitted.sink.getD i 0) ∧
    written.sink (min (n - 1) emitted.sink.length) = 0 ∧
    ∀ i, min (n - 1) emitted.sink.length < i → written.sink i = s i

variable {args : List Arg} {format : List UInt8} {emitted : Printed (List UInt8)} {n : Nat}

theorem vfprintf_some (matching : Matches format args) :
    ∃ emitted, vfprintf format args = some emitted := by
  rcases matching with ⟨_, kinds, more, scanned, typed⟩
  have follows : Follows Scan.start (start ([] : List UInt8) args) := start_follows _ _ _ _
  rcases @run_some _ stream _ _ _ follows _ _ scanned typed with ⟨done, run⟩
  rw [vfprintf, run]
  exact ⟨_, rfl⟩

variable {front : List UInt8} {length width : Nat} {Sink : Type}

/-- A sink that is the image of the stream at every point. -/
theorem run_image (put : Sink → UInt8 → Sink) (image : List UInt8 → Sink)
    (follows : ∀ out c, put (image out) c = image (stream out c))
    (run : vfprintf format args = some emitted) :
    emitted.returned = int32 emitted.sink.length ∧ ∃ mode conv rest,
      Formatter.run put (.start (image []) args) format =
        some ⟨mode, conv, image emitted.sink, emitted.returned, rest, emitted.stores⟩ := by
  let Same (count : Nat) (out : List UInt8) (sink : Sink) : Prop :=
    count = out.length ∧ sink = image out
  have carries : Carries Same stream put := by
    rintro count out sink c ⟨rfl, rfl⟩
    exact ⟨by simp [stream], follows out c⟩
  have started : Alike Same (start [] args) (start (image []) args) := .intro ⟨rfl, rfl⟩ rfl
  unfold vfprintf at run
  rcases run_alike carries format started with ⟨one, _⟩ | ⟨done, other, one, two, alike⟩
  · rw [one] at run
    cases run
  · rw [one] at run
    cases run
    rw [two]
    cases alike with
    | intro same counted =>
      rcases same with ⟨rfl, rfl⟩
      exact ⟨counted, _, _, _, rfl⟩

variable (s : Nat → UInt8)

/-- The stream and the buffer side by side. -/
theorem vsnprintf_eq (n : Nat) (run : vfprintf format args = some emitted) :
    emitted.returned = int32 emitted.sink.length ∧ vsnprintf s n format args =
      some ⟨((filled (sub64 n 1) s emitted.sink).put SIZE_MAX 0).memory, emitted.returned,
        emitted.stores⟩ := by
  unfold vsnprintf
  generalize sub64 n 1 = limit
  rcases run_image (snputc limit) (filled limit s)
    (fun out c => (filled_stream limit s out c).symm) run with ⟨counted, mode, conv, rest, done⟩
  rw [show filled limit s [] = ⟨s, 0⟩ from rfl] at done
  rw [done]
  exact ⟨counted, rfl⟩

theorem short_of_counted (counted : (length : Int) = int32 length) : length < 2 ^ 31 := by
  have upper : Int.bmod (length : Int) 4294967296 < (4294967296 + 1) / 2 :=
    Int.bmod_lt (by norm_num)
  unfold int32 at counted
  omega

theorem int32_of_short (short : length < 2 ^ 31) : int32 length = length := by
  unfold int32
  rw [Int.bmod_eq_of_le_mul_two (by omega) (by omega)]

theorem agrees_of_short (room : 1 ≤ n) (size : n < 2 ^ 64)
    (run : vfprintf format args = some emitted) (short : emitted.sink.length < 2 ^ 31) :
    Agrees s n format args := by
  rcases vsnprintf_eq s n run with ⟨counted, printed⟩
  rw [int32_of_short short] at counted
  have limit : sub64 n 1 = n - 1 := sub64_of_le size room
  have filledSize := filled_size (n - 1) s emitted.sink
  have below : min (n - 1) emitted.sink.length < SIZE_MAX := by
    have bound : n - 1 < SIZE_MAX := by
      unfold SIZE_MAX
      omega
    exact lt_of_le_of_lt (min_le_left _ _) bound
  have terminated : ∀ i, ((filled (n - 1) s emitted.sink).put SIZE_MAX 0).memory i =
      if i = min (n - 1) emitted.sink.length then 0
      else (filled (n - 1) s emitted.sink).memory i := by
    intro i
    rw [put, filledSize, if_pos below]
    exact Function.update_apply _ _ _ _
  refine ⟨emitted, _, run, printed, counted, counted, ?_, ?_, ?_⟩
  · intro i inside
    rw [limit]
    simp only
    rw [terminated, if_neg (ne_of_lt inside), filled_memory, if_pos inside]
  · rw [limit]
    simp only
    rw [terminated, if_pos rfl]
  · intro i outside
    rw [limit]
    simp only
    rw [terminated, if_neg (ne_of_gt outside), filled_memory, if_neg (Nat.not_lt_of_gt outside)]

theorem short_of_agrees {s : Nat → UInt8} (run : vfprintf format args = some emitted)
    (agrees : Agrees s n format args) : emitted.sink.length < 2 ^ 31 := by
  rcases agrees with ⟨again, written, same, _, counted, _⟩
  rw [run] at same
  cases same
  exact short_of_counted (counted.symm.trans (vsnprintf_eq s n run).1)

/-- `vfprintf` returns. `vsnprintf` leaves the front of what it emits, and both return its
length, exactly when an `int` can count it. -/
theorem vsnprintf_agrees_vfprintf (s : Nat → UInt8) {n : Nat} {format : List UInt8}
    {args : List Arg} (matching : Matches format args) (room : 1 ≤ n) (size : n < 2 ^ 64) :
    ∃ emitted, vfprintf format args = some emitted ∧
      (Agrees s n format args ↔ emitted.sink.length < 2 ^ 31) := by
  rcases vfprintf_some matching with ⟨emitted, run⟩
  refine ⟨emitted, run, ?_⟩
  constructor
  · intro agrees
    exact short_of_agrees run agrees
  · intro short
    exact agrees_of_short s room size run short

/-- The number 42 in a buffer of two characters. -/
theorem agrees_truncated_number :
    Matches [37, 100] [.int 42] ∧ (1 ≤ 2 ∧ 2 < 2 ^ 64) ∧
      Agrees (fun _ => 1) 2 [37, 100] [.int 42] := by
  have matching : Matches [37, 100] [.int 42] := ⟨by decide, [.int], [], rfl, rfl⟩
  refine ⟨matching, by norm_num, ?_⟩
  rcases vsnprintf_agrees_vfprintf (fun _ => 1) matching (n := 2) (by norm_num) (by norm_num) with
    ⟨emitted, run, agrees⟩
  cases run
  exact agrees.mpr (by decide)

/-! ## The bytes that are written -/

/-- `snputc` with the indices that have been written. -/
def snputcLogged (maxSize : Nat) (state : Buffer × List Nat) (c : UInt8) : Buffer × List Nat :=
  (snputc maxSize state.1 c, if state.1.size < maxSize then state.2 ++ [state.1.size] else state.2)

/-- The indices from `s` on that `vsnprintf(s, n, format, args)` writes. -/
def vsnprintfWrites (s : Nat → UInt8) (n : Nat) (format : List UInt8) (args : List Arg) :
    Option (List Nat) :=
  match Formatter.run (snputcLogged (sub64 n 1)) (.start (⟨s, 0⟩, []) args) format with
  | none => none
  | some done => some (snputcLogged SIZE_MAX done.sink 0).2

/-- The buffer beside the indices is the one that `vsnprintf` leaves. -/
theorem vsnprintf_logged (s : Nat → UInt8) (n : Nat) (format : List UInt8) (args : List Arg) :
    vsnprintf s n format args =
      (Formatter.run (snputcLogged (sub64 n 1)) (.start (⟨s, 0⟩, []) args) format).map fun done =>
        ⟨(snputcLogged SIZE_MAX done.sink 0).1.memory, done.symbolsPrinted, done.stores⟩ := by
  unfold vsnprintf
  generalize sub64 n 1 = limit
  let Same (_ : Nat) (logged : Buffer × List Nat) (buffer : Buffer) : Prop := logged.1 = buffer
  have carries : Carries Same (snputcLogged limit) (snputc limit) := by
    rintro count logged buffer c rfl
    rfl
  have started : Alike Same (start (⟨s, 0⟩, []) args) (start ⟨s, 0⟩ args) :=
    @Alike.intro _ _ Same 0 _ _ _ _ _ _ _ rfl rfl
  refine (run_alike @carries format started).elim rfl fun _ _ alike => ?_
  cases alike with
  | intro same _ =>
    cases same
    rfl

theorem vsnprintf_writes_eq (n : Nat) (run : vfprintf format args = some emitted) :
    vsnprintfWrites s n format args = some (snputcLogged SIZE_MAX
      (filled (sub64 n 1) s emitted.sink,
        range (min (sub64 n 1) emitted.sink.length)) 0).2 := by
  unfold vsnprintfWrites
  generalize sub64 n 1 = limit
  let image (out : List UInt8) := (filled limit s out, range (min limit out.length))
  have follows : ∀ out c, snputcLogged limit (image out) c = image (stream out c) := by
    intro out c
    refine Prod.ext (filled_stream limit s out c).symm ?_
    simp only [snputcLogged, image, filled_size, stream, length_append, length_singleton]
    split_ifs with room
    · have early : out.length < limit := by omega
      rw [min_eq_right early.le, min_eq_right early, range_succ]
    · have late : limit ≤ out.length := by omega
      rw [min_eq_left late, min_eq_left (by omega)]
  rcases run_image _ image follows run with ⟨_, mode, conv, rest, done⟩
  rw [show image [] = (⟨s, 0⟩, []) by simp [image, filled]] at done
  rw [done]

/-- `vsnprintf` keeps to the buffer exactly when there is one. The size 0 wraps, and even
then a terminator is written. -/
theorem vsnprintf_writes_inside_iff (s : Nat → UInt8) {n : Nat} {format : List UInt8}
    {args : List Arg} (matching : Matches format args) (size : n < 2 ^ 64) :
    (∃ writes, vsnprintfWrites s n format args = some writes ∧ ∀ index ∈ writes, index < n) ↔
      n ≠ 0 := by
  rcases vfprintf_some matching with ⟨emitted, run⟩
  have filled := filled_size (sub64 n 1) s emitted.sink
  rw [vsnprintf_writes_eq s n run]
  simp only [snputcLogged, filled, Option.some.injEq, exists_eq_left']
  constructor
  · rintro inside rfl
    by_cases nothing : min (sub64 0 1) emitted.sink.length = 0
    · rw [nothing] at inside
      simp [SIZE_MAX] at inside
    · have first := inside 0 (by
        split_ifs
        · simp [mem_append, Nat.pos_of_ne_zero nothing]
        · simp [Nat.pos_of_ne_zero nothing])
      omega
  · intro room index written
    have limit : sub64 n 1 = n - 1 := sub64_of_le size (by omega)
    rw [limit] at written
    split_ifs at written
    · rcases mem_append.mp written with early | last
      · rw [mem_range] at early
        omega
      · rw [mem_singleton] at last
        omega
    · rw [mem_range] at written
      omega

/-- The number 42 in a buffer of one character. -/
theorem writes_inside_one_character :
    ∃ writes, vsnprintfWrites (fun _ => 1) 1 [37, 100] [.int 42] = some writes ∧
      ∀ index ∈ writes, index < 1 :=
  (vsnprintf_writes_inside_iff (fun _ => 1) ⟨by decide, [.int], [], rfl, rfl⟩ (by norm_num)).mpr
    (by norm_num)

/-- With the size 0 both digits and the terminator are written. -/
theorem empty_buffer_overrun :
    vsnprintfWrites (fun _ => 1) 0 [37, 100] [.int 42] = some [0, 1, 2] := by
  decide

/-! A width can be as large as an `int`, so one more character overflows the count. -/

theorem Printer.pad_left_length (paddingType : Bool) (printer : Printer (List UInt8)) :
    (padLeft stream paddingType printer).sink.length = printer.sink.length + 1 := by
  unfold padLeft
  split
  · simp [emit, dropDigit, stream]
  · simp [emit, stream]

theorem Printer.pad_left_iterate_length (paddingType : Bool) (count : Nat)
    (printer : Printer (List UInt8)) :
    ((padLeft stream paddingType)^[count] printer).sink.length = printer.sink.length + count := by
  induction count generalizing printer with
  | zero => rfl
  | succ count ih =>
    rw [Function.iterate_succ_apply, ih, pad_left_length]
    omega

theorem print_zero_length (out : List UInt8) (radix : Nat) (wide : 1 < width)
    (fits : width < 2 ^ 31) :
    (printUint stream out width (-1) 0 radix false false false).1.length = out.length + width := by
  have reduced : int32 ((width : Int) - 1) = ((width - 1 : Nat) : Int) := by
    rw [← int32_of_short (show width - 1 < 2 ^ 31 by omega)]
    congr 1
    omega
  have long : 1 < (width : Int) := by omega
  have digits : (-1 : Int) ≠ 0 := by norm_num
  simp only [printUint, if_true, Printer.zero, if_pos long, Printer.zeroLeft, if_pos digits]
  simp only [Printer.emit, stream, Printer.pad_left_iterate_length, length_append,
    length_singleton, Printer.dropDigit, Printer.shorten, Bool.false_eq_true, if_false]
  rw [reduced]
  simp only [Int.toNat_natCast]
  omega

theorem Formatter.run_append {put : Sink → UInt8 → Sink} {formatter next : Formatter Sink}
    (rest : List UInt8) (first : run put formatter front = some next) :
    run put formatter (front ++ rest) = run put next rest := by
  induction front generalizing formatter with
  | nil =>
    cases first
    rfl
  | cons c others ih =>
    rw [cons_append, run]
    rw [run] at first
    cases here : atChar put 4 formatter c with
    | none =>
      rw [here] at first
      cases first
    | some further =>
      rw [here] at first
      exact ih first

theorem Formatter.run_width {put : Sink → UInt8 → Sink} {digits : List UInt8}
    {formatter : Formatter Sink} (mode : formatter.mode = .WIDTH)
    (decimal : ∀ c ∈ digits, isDigit c = true) :
    run put formatter digits =
      some (formatter.setWidth (digits.foldl shiftDigit formatter.conv.width)) := by
  induction digits generalizing formatter with
  | nil => rfl
  | cons c rest ih =>
    have digit := decimal c (by simp)
    have notStar : c ≠ charByte '*' := by
      rintro rfl
      revert digit
      decide
    have stepped : formatter.step put c =
        some (formatter.setWidth (shiftDigit formatter.conv.width c), true) := by
      simp only [step, mode, readWidth, if_neg notStar, if_pos digit]
    have later := @ih (formatter.setWidth (shiftDigit formatter.conv.width c)) mode
      fun other member => decimal other (by simp [member])
    simp only [run, atChar, stepped]
    rw [later]
    rfl

def Formatter.inWidth (width : Int) : Formatter (List UInt8) :=
  ⟨.WIDTH, { Conversion.start with width := width }, [], 0, [.int 0], []⟩

theorem Formatter.run_zero (width : Int) :
    run stream (inWidth width) [100, 120] =
      some (emit stream ⟨.NORMAL, .start,
        (printUint stream [] (max width (-1)) (-1) 0 10 false false false).1,
        int32 (0 + (printUint stream [] (max width (-1)) (-1) 0 10 false false false).2), [], []⟩
        120) :=
  rfl

theorem zero_fills_width (wide : 1 < width) (fits : width < 2 ^ 31)
    (opened : run stream (.start [] [.int 0]) front = some (inWidth width)) :
    ∃ emitted, vfprintf (front ++ [100, 120]) [.int 0] = some emitted ∧
      emitted.sink.length = width + 1 := by
  have whole := run_append [100, 120] opened
  have natural : max (width : Int) (-1) = width := by omega
  rw [run_zero, natural] at whole
  rw [vfprintf, whole]
  refine ⟨_, rfl, ?_⟩
  simp only [emit, stream, length_append, length_singleton]
  rw [print_zero_length [] 10 wide fits]
  simp

/-- The format `%2147483647dx`. -/
def widestZero : List UInt8 := ([37, 50] ++ [49, 52, 55, 52, 56, 51, 54, 52, 55]) ++ [100, 120]

theorem widest_zero_opened :
    run stream (.start [] [.int 0]) ([37, 50] ++ [49, 52, 55, 52, 56, 51, 54, 52, 55]) =
      some (inWidth ((2147483647 : Nat) : Int)) := by
  have value : [49, 52, 55, 52, 56, 51, 54, 52, 55].foldl shiftDigit
      (shiftDigit 0 50) = ((2147483647 : Nat) : Int) := by
    decide +kernel
  have opened : run stream (.start [] [.int 0]) [37, 50] = some (inWidth (shiftDigit 0 50)) := rfl
  rw [← value, run_append _ opened]
  exact run_width rfl (all_eq_true.mp rfl)

/-- With `%2147483647dx` the characters are one more than the largest `int`. -/
theorem count_overflows :
    Matches widestZero [.int 0] ∧ ¬ Agrees (fun _ => 0) 1 widestZero [.int 0] := by
  refine ⟨⟨by decide, [.int], [], rfl, rfl⟩, ?_⟩
  intro agrees
  rcases zero_fills_width (by norm_num) (by norm_num) widest_zero_opened with ⟨emitted, run, length⟩
  have short := short_of_agrees run agrees
  omega

end FrostyKernel.Stdio
