import FrostyKernel.Lib.Run
import FrostyKernel.Stdio.Printf

/-!
# Two formatters side by side

The formatter uses its sink through one operation. Two sinks that stay the same under
this operation stay the same along a whole run, and the characters are counted in an
`int`, so what is returned is their number modulo its range.
-/

namespace FrostyKernel.Stdio

open FrostyKernel.Output Word

theorem int32_add_left (left right : Int) : int32 (int32 left + right) = int32 (left + right) :=
  Int.bmod_add_bmod

theorem int32_add_right (left right : Int) : int32 (left + int32 right) = int32 (left + right) :=
  Int.add_bmod_bmod

section Sides
variable {Left Right : Type}

/-- The sinks are the same after a number of characters, and stay so with one more. -/
def Carries (Same : Nat → Left → Right → Prop) (put : Left → UInt8 → Left)
    (put' : Right → UInt8 → Right) : Prop :=
  ∀ {count left right} c, Same count left right → Same (count + 1) (put left c) (put' right c)

/-- The printers differ in their sinks only, and have counted the characters behind the
first `before` ones. -/
inductive Printer.Alike (Same : Nat → Left → Right → Prop) (before : Nat) :
    Printer Left → Printer Right → Prop
  | intro {count : Nat} {left : Left} {right : Right} {minLength minDigits chars : Int}
      (same : Same count left right) (counted : chars = int32 (count - before)) :
      Alike Same before ⟨left, minLength, minDigits, chars⟩ ⟨right, minLength, minDigits, chars⟩

inductive Formatter.Alike (Same : Nat → Left → Right → Prop) :
    Formatter Left → Formatter Right → Prop
  | intro {count : Nat} {left : Left} {right : Right} {mode : Mode} {conv : Conversion}
      {symbols : Int} {args : List Arg} {stores : List Store} (same : Same count left right)
      (counted : symbols = int32 count) :
      Alike Same ⟨mode, conv, left, symbols, args, stores⟩
        ⟨mode, conv, right, symbols, args, stores⟩

variable {Same : Nat → Left → Right → Prop} {put : Left → UInt8 → Left}
  {put' : Right → UInt8 → Right} {before : Nat}

namespace Printer

variable {printer : Printer Left} {other : Printer Right}

section
variable (alike : Alike Same before printer other)
include alike

theorem Alike.length : other.minLength = printer.minLength := by
  cases alike
  rfl

theorem Alike.digits : other.minDigits = printer.minDigits := by
  cases alike
  rfl

theorem Alike.set (minLength minDigits : Int) :
    Alike Same before { printer with minLength := minLength, minDigits := minDigits }
      { other with minLength := minLength, minDigits := minDigits } := by
  cases alike with
  | intro same counted => exact .intro same counted

theorem Alike.shorten : Alike Same before printer.shorten other.shorten := by
  cases alike with
  | intro same counted => exact .intro same counted

theorem Alike.drop_digit : Alike Same before printer.dropDigit other.dropDigit := by
  cases alike with
  | intro same counted => exact .intro same counted

end

variable (carries : Carries Same put put')
include carries

theorem emit_alike (c : Char) (alike : Alike Same before printer other) :
    Alike Same before (printer.emit put c) (other.emit put' c) := by
  cases alike with
  | intro same counted =>
    refine .intro (carries (charByte c) same) ?_
    rw [counted, int32_add_left]
    congr 1
    push_cast
    ring

theorem leading_zero_alike (alike : Alike Same before printer other) :
    Alike Same before (printer.leadingZero put) (other.leadingZero put') :=
  (emit_alike carries '0' alike).shorten

variable (paddingType : Bool)

section
variable (alike : Alike Same before printer other)
include alike

theorem pad_right_alike :
    Alike Same before (padRight put paddingType printer) (padRight put' paddingType other) := by
  unfold padRight
  split <;> exact emit_alike carries _ alike

theorem pad_left_alike :
    Alike Same before (padLeft put paddingType printer) (padLeft put' paddingType other) := by
  unfold padLeft
  rw [alike.digits]
  split
  · exact (emit_alike carries '0' alike).drop_digit
  · exact emit_alike carries ' ' alike

theorem zero_right_alike :
    Alike Same before (printer.zeroRight put paddingType) (other.zeroRight put' paddingType) := by
  have led := iterate_alike (leading_zero_alike carries) printer.minDigits.toNat alike
  simp only [zeroRight]
  rw [alike.digits, led.digits]
  split
  · have zero := (emit_alike carries '0' led).drop_digit.shorten
    rw [zero.length]
    exact iterate_alike (pad_right_alike carries paddingType) _ zero
  · rw [led.length]
    exact iterate_alike (pad_right_alike carries paddingType) _ led

theorem zero_left_alike :
    Alike Same before (printer.zeroLeft put paddingType) (other.zeroLeft put' paddingType) := by
  have started := alike.drop_digit.shorten
  simp only [zeroLeft]
  rw [alike.digits]
  split
  · rw [started.length]
    exact emit_alike carries '0' (iterate_alike (pad_left_alike carries paddingType) _ started)
  · rw [alike.length]
    exact iterate_alike (pad_left_alike carries paddingType) _ alike

end

theorem zero_alike (paddingOrientation : Bool) (alike : Alike Same before printer other) :
    Alike Same before (printer.zero put paddingType paddingOrientation)
      (other.zero put' paddingType paddingOrientation) := by
  unfold zero
  rw [alike.length, alike.digits]
  split_ifs
  · exact zero_right_alike carries paddingType alike
  · exact zero_left_alike carries paddingType alike
  · exact (emit_alike carries '0' alike).drop_digit.shorten
  · exact alike

theorem digits_alike (text : List Char) (alike : Alike Same before printer other) :
    Alike Same before (printer.digits put text) (other.digits put' text) := by
  induction text generalizing printer other with
  | nil => exact alike
  | cons c rest ih => exact ih (emit_alike carries c alike)

theorem nonzero_alike (text : List Char) (paddingType paddingOrientation : Bool)
    (alike : Alike Same before printer other) :
    Alike Same before (printer.nonzero put text paddingType paddingOrientation)
      (other.nonzero put' text paddingType paddingOrientation) := by
  have reduced := alike.set (int32 (printer.minLength - text.length))
    (int32 (printer.minDigits - text.length))
  unfold nonzero
  simp only [alike.length, alike.digits]
  split_ifs
  · have printed := digits_alike carries text
      (iterate_alike (leading_zero_alike carries)
        (int32 (printer.minDigits - text.length)).toNat reduced)
    rw [printed.length]
    exact iterate_alike (pad_right_alike carries paddingType) _ printed
  · exact digits_alike carries text (iterate_alike (pad_left_alike carries paddingType) _ reduced)
  · exact digits_alike carries text alike

end Printer

def PrintedAlike (Same : Nat → Left → Right → Prop) (before : Nat) (printed : Left × Int)
    (other : Right × Int) : Prop :=
  ∃ count, Same count printed.1 other.1 ∧ other.2 = printed.2 ∧ printed.2 = int32 (count - before)

section Numbers
variable (carries : Carries Same put put') {left : Left} {right : Right}
include carries

theorem print_uint_alike (minLength minDigits : Int) (num radix : Nat)
    (paddingType paddingOrientation uppercase : Bool) (same : Same before left right) :
    PrintedAlike Same before
      (printUint put left minLength minDigits num radix paddingType paddingOrientation uppercase)
      (printUint put' right minLength minDigits num radix paddingType paddingOrientation
        uppercase) := by
  have started : Printer.Alike Same before ⟨left, minLength, minDigits, 0⟩
      ⟨right, minLength, minDigits, 0⟩ := .intro same (by rw [sub_self]; rfl)
  have printed : ∀ {printer : Printer Left} {other : Printer Right},
      Printer.Alike Same before printer other →
      PrintedAlike Same before (printer.sink, printer.charsPrinted)
        (other.sink, other.charsPrinted) := by
    intro printer other alike
    cases alike with
    | intro same counted => exact ⟨_, same, rfl, counted⟩
  simp only [printUint]
  split
  · exact printed (Printer.zero_alike carries _ _ started)
  · exact printed (Printer.nonzero_alike carries _ _ _ started)

theorem print_int_alike (num : Int) (forceSign padSign : Bool) (minLength minDigits : Int)
    (radix : Nat) (paddingType paddingOrientation uppercase : Bool)
    (same : Same before left right) :
    PrintedAlike Same before
      (printInt put left num forceSign padSign minLength minDigits radix paddingType
        paddingOrientation uppercase)
      (printInt put' right num forceSign padSign minLength minDigits radix paddingType
        paddingOrientation uppercase) := by
  simp only [printInt]
  split
  · exact print_uint_alike carries _ _ _ _ _ _ _ same
  · rename_i c _
    rcases print_uint_alike carries (int32 (minLength - 1)) minDigits num.natAbs radix paddingType
      paddingOrientation uppercase (carries (charByte c) same) with ⟨count, printed, equal, counted⟩
    refine ⟨count, printed, by rw [equal], ?_⟩
    simp only
    rw [counted, int32_add_left]
    congr 1
    push_cast
    ring

end Numbers

/-- Both functions have no result, or results that belong together. -/
def Outcomes {Value Other : Type} (together : Value → Other → Prop) (one : Option Value)
    (two : Option Other) : Prop :=
  (one = none ∧ two = none) ∨
    ∃ value other, one = some value ∧ two = some other ∧ together value other

variable {Other Value : Type} {together : Value → Other → Prop}

theorem outcomes_some {value : Value} {other : Other} (both : together value other) :
    Outcomes together (some value) (some other) :=
  .inr ⟨value, other, rfl, rfl, both⟩

theorem outcomes_none :
    Outcomes together (none : Option Value) (none : Option Other) := .inl ⟨rfl, rfl⟩

@[elab_as_elim]
theorem Outcomes.elim {motive : Option Value → Option Other → Prop} {one : Option Value}
    {two : Option Other} (outcomes : Outcomes together one two) (nothing : motive none none)
    (both : ∀ value other, together value other → motive (some value) (some other)) :
    motive one two := by
  rcases outcomes with ⟨rfl, rfl⟩ | ⟨value, other, rfl, rfl, values⟩
  · exact nothing
  · exact both value other values

namespace Formatter

variable {formatter : Formatter Left} {other : Formatter Right} {c : UInt8}

def WithAlike {Value : Type} (Same : Nat → Left → Right → Prop) (one : Formatter Left × Value)
    (two : Formatter Right × Value) : Prop :=
  Alike Same one.1 two.1 ∧ one.2 = two.2

section
variable (alike : Alike Same formatter other)
include alike

theorem Alike.mode : other.mode = formatter.mode := by
  cases alike
  rfl

theorem Alike.conv : other.conv = formatter.conv := by
  cases alike
  rfl

theorem Alike.set_mode (mode : Mode) :
    Alike Same (formatter.setMode mode) (other.setMode mode) := by
  cases alike with
  | intro same counted => exact .intro same counted

theorem Alike.set_conv (conv : Conversion) :
    Alike Same (formatter.setConv conv) (other.setConv conv) := by
  cases alike with
  | intro same counted => exact .intro same counted

theorem Alike.set_width (width : Int) :
    Alike Same (formatter.setWidth width) (other.setWidth width) := by
  unfold setWidth
  rw [alike.conv]
  exact alike.set_conv _

theorem Alike.set_precision (precision : Int) :
    Alike Same (formatter.setPrecision precision) (other.setPrecision precision) := by
  unfold setPrecision
  rw [alike.conv]
  exact alike.set_conv _

theorem Alike.reduce_width (count : Int) :
    Alike Same (formatter.reduceWidth count) (other.reduceWidth count) := by
  unfold reduceWidth
  rw [alike.conv]
  exact alike.set_width _

theorem take_alike : Outcomes (WithAlike Same) formatter.takeInt other.takeInt ∧
    Outcomes (WithAlike Same) formatter.takeLong other.takeLong ∧
    Outcomes (WithAlike Same) formatter.takeString other.takeString ∧
    Outcomes (WithAlike Same) formatter.takePointer other.takePointer := by
  cases alike with
  | @intro _ _ _ _ _ _ args _ same counted =>
    rcases args with _ | ⟨_ | _ | _ | _, rest⟩ <;> refine ⟨?_, ?_, ?_, ?_⟩ <;>
      first | exact outcomes_none | exact outcomes_some ⟨.intro same counted, rfl⟩

theorem flag_alike (c : Char) : WithAlike Same (formatter.flag c) (other.flag c) := by
  unfold flag
  rw [alike.conv]
  split
  case h_6 => exact ⟨alike.set_mode .WIDTH, rfl⟩
  all_goals exact ⟨alike.set_conv _, rfl⟩

theorem read_width_alike :
    Outcomes (WithAlike Same) (formatter.readWidth c) (other.readWidth c) := by
  unfold readWidth
  rw [alike.conv]
  split_ifs
  · refine (take_alike alike).1.elim outcomes_none ?_
    rintro ⟨_, _⟩ ⟨_, _⟩ ⟨taken, rfl⟩
    exact outcomes_some ⟨(taken.set_width _).set_mode .LEN, rfl⟩
  · exact outcomes_some ⟨alike.set_width _, rfl⟩
  · exact outcomes_some ⟨alike.set_mode .LEN, rfl⟩

theorem read_precision_alike :
    Outcomes (WithAlike Same) (formatter.readPrecision c) (other.readPrecision c) := by
  unfold readPrecision
  rw [alike.conv]
  split_ifs
  · refine (take_alike alike).1.elim outcomes_none ?_
    rintro ⟨_, _⟩ ⟨_, _⟩ ⟨taken, rfl⟩
    exact outcomes_some ⟨(taken.set_precision _).set_mode .LEN, rfl⟩
  · exact outcomes_some ⟨alike.set_precision _, rfl⟩
  · exact outcomes_some ⟨alike.set_mode .LEN, rfl⟩

theorem read_length_alike (c : Char) :
    Outcomes (WithAlike Same) (formatter.readLength c) (other.readLength c) := by
  unfold readLength setLength
  rw [alike.conv]
  split
  case h_1 =>
    split
    · exact outcomes_some ⟨(alike.set_precision 0).set_mode .PREC, rfl⟩
    · exact outcomes_none
  case h_8 => exact outcomes_some ⟨alike.set_mode .SPEC, rfl⟩
  all_goals exact outcomes_some ⟨alike.set_conv _, rfl⟩

theorem take_number_alike : Outcomes (WithAlike Same) formatter.takeNumber other.takeNumber := by
  unfold takeNumber
  rw [alike.conv]
  split
  · refine (take_alike alike).2.1.elim outcomes_none ?_
    rintro ⟨_, _⟩ ⟨_, _⟩ ⟨taken, rfl⟩
    exact outcomes_some ⟨taken, rfl⟩
  · refine (take_alike alike).1.elim outcomes_none ?_
    rintro ⟨_, _⟩ ⟨_, _⟩ ⟨taken, rfl⟩
    exact outcomes_some ⟨taken, rfl⟩

theorem add_printed_alike {result : Left × Int} {result' : Right × Int}
    (printed : ∀ {count}, Same count formatter.sink other.sink →
      PrintedAlike Same count result result') :
    Alike Same (formatter.addPrinted result) (other.addPrinted result') := by
  cases alike with
  | intro same counted =>
    rcases printed same with ⟨count, after, equal, added⟩
    simp only [addPrinted]
    rw [equal]
    refine .intro after ?_
    rw [counted, added, int32_add_left, int32_add_right]
    congr 1
    ring

end

variable (carries : Carries Same put put')
include carries

theorem emit_alike (c : UInt8) (alike : Alike Same formatter other) :
    Alike Same (formatter.emit put c) (other.emit put' c) := by
  cases alike with
  | intro same counted =>
    refine .intro (carries c same) ?_
    rw [counted, int32_add_left]
    push_cast
    rfl

theorem print_string_alike (text : List UInt8) (j : Nat) (alike : Alike Same formatter other) :
    Alike Same (formatter.printString put j text) (other.printString put' j text) := by
  induction text generalizing j formatter other with
  | nil => exact alike
  | cons c rest ih =>
    unfold printString
    rw [alike.conv]
    split
    · exact alike
    · exact ih (j + 1) ((emit_alike carries c alike).set_width _)

theorem print_other_alike (c : Char) (alike : Alike Same formatter other) :
    Outcomes (Alike Same) (formatter.printOther put c) (other.printOther put' c) := by
  unfold printOther
  split
  · refine (take_alike alike).1.elim outcomes_none ?_
    rintro ⟨_, _⟩ ⟨_, _⟩ ⟨taken, rfl⟩
    exact outcomes_some (emit_alike carries _ taken)
  · refine (take_alike alike).2.2.1.elim outcomes_none ?_
    rintro ⟨_, text⟩ ⟨_, _⟩ ⟨taken, rfl⟩
    have printed := print_string_alike carries text 0 taken
    simp only at printed ⊢
    rw [printed.conv]
    exact outcomes_some (iterate_alike (emit_alike carries _) _ printed)
  · refine (take_alike alike).2.2.2.elim outcomes_none ?_
    rintro ⟨_, _⟩ ⟨_, _⟩ ⟨taken, rfl⟩
    cases taken with
    | intro same counted => exact outcomes_some (.intro same counted)
  · exact outcomes_some (emit_alike carries _ alike)
  · exact outcomes_some alike

theorem print_extra_alike (alike : Alike Same formatter other) :
    Alike Same (formatter.printExtra put) (other.printExtra put') := by
  have zero := emit_alike carries (charByte '0') alike
  unfold printExtra
  rw [alike.conv]
  split_ifs
  · exact (emit_alike carries _ zero).reduce_width 2
  · exact (emit_alike carries _ zero).reduce_width 2
  · exact zero.reduce_width 1
  · exact alike
  · exact alike

theorem print_number_alike (alike : Alike Same formatter other) :
    Outcomes (Alike Same) (formatter.printNumber put) (other.printNumber put') := by
  unfold printNumber
  rw [alike.conv]
  split_ifs
  · exact outcomes_none
  · refine (take_number_alike alike).elim outcomes_none ?_
    rintro ⟨_, _⟩ ⟨_, _⟩ ⟨taken, rfl⟩
    simp only at taken ⊢
    rw [taken.conv]
    split
    · exact outcomes_some (add_printed_alike taken fun same =>
        print_int_alike carries _ _ _ _ _ _ _ _ _ same)
    · exact outcomes_some (add_printed_alike taken fun same =>
        print_uint_alike carries _ _ _ _ _ _ _ same)
  · exact outcomes_some alike

theorem print_spec_alike (c : Char) (alike : Alike Same formatter other) :
    Outcomes (Alike Same) (formatter.printSpec put c) (other.printSpec put' c) := by
  unfold printSpec
  rw [alike.conv]
  refine (print_other_alike carries c (alike.set_conv (formatter.conv.specify c))).elim
    outcomes_none fun _ _ printed => ?_
  simp only
  refine (print_number_alike carries (print_extra_alike carries printed)).elim outcomes_none
    fun _ _ done => ?_
  exact outcomes_some ((done.set_conv .start).set_mode .NORMAL)

theorem step_alike (c : UInt8) (alike : Alike Same formatter other) :
    Outcomes (WithAlike Same) (formatter.step put c) (other.step put' c) := by
  unfold step
  rw [alike.mode]
  cases formatter.mode with
  | NORMAL =>
    simp only
    split
    · exact outcomes_some ⟨alike.set_mode .FLAGS, rfl⟩
    · exact outcomes_some ⟨emit_alike carries c alike, rfl⟩
  | FLAGS => exact outcomes_some (flag_alike alike _)
  | WIDTH => exact read_width_alike alike
  | PREC => exact read_precision_alike alike
  | LEN => exact read_length_alike alike _
  | SPEC =>
    simp only
    refine (print_spec_alike carries (Char.ofNat c.toNat) alike).elim outcomes_none
      fun _ _ printed => ?_
    exact outcomes_some ⟨printed, rfl⟩

theorem at_char_alike (fuel : Nat) (c : UInt8) (alike : Alike Same formatter other) :
    Outcomes (Alike Same) (atChar put fuel formatter c) (atChar put' fuel other c) := by
  induction fuel generalizing formatter other with
  | zero => exact outcomes_none
  | succ fuel ih =>
    unfold atChar
    refine (step_alike carries c alike).elim outcomes_none ?_
    rintro ⟨_, gotoNextChar⟩ ⟨_, _⟩ ⟨next, rfl⟩
    cases gotoNextChar with
    | true => exact outcomes_some next
    | false => exact ih next

theorem run_alike (format : List UInt8) (alike : Alike Same formatter other) :
    Outcomes (Alike Same) (run put formatter format) (run put' other format) := by
  induction format generalizing formatter other with
  | nil => exact outcomes_some alike
  | cons c rest ih =>
    unfold run
    refine (at_char_alike carries 4 c alike).elim outcomes_none fun _ _ next => ?_
    exact ih next

end Formatter
end Sides
end FrostyKernel.Stdio
