import FrostyKernel.Lib.Output
import FrostyKernel.Lib.Word

/-!
# Formatted output

`vfprintf` and `vsnprintf` of `stdio.cpp`. The two, and the functions they print
numbers with, have the same text except for the operation that takes a character, so
each is one definition over a sink. An `int` wraps at 32 bits. A format that runs into
`assert(false)`, or an argument of another type than `va_arg` asks for, has no result.
-/

namespace FrostyKernel.Stdio

open FrostyKernel.Output Word

/-- The value of an `int` after an operation. -/
def int32 (value : Int) : Int := Int.bmod value 4294967296

def charByte (c : Char) : UInt8 := c.toNat.toUInt8

inductive Mode where
  | NORMAL
  | FLAGS
  | WIDTH
  | PREC
  | LEN
  | SPEC
deriving DecidableEq

inductive Length where
  | L_CHAR
  | L_SHORT
  | L_NORMAL
  | L_LONG
  | L_LONG_LONG
  | L_INTMAX
  | L_SIZET
  | L_PTRDIFFT
  | L_LDOUB
deriving DecidableEq

/-- The types of this length have 64 bits; the others are passed as an `int`. -/
def Length.wide : Length → Bool
  | .L_LONG | .L_LONG_LONG | .L_INTMAX | .L_SIZET | .L_PTRDIFFT => true
  | .L_CHAR | .L_SHORT | .L_NORMAL | .L_LDOUB => false

/-- What `va_arg` can deliver. A string is given by its characters. -/
inductive Arg where
  | int (value : UInt32)
  | long (value : UInt64)
  | string (text : List UInt8)
  | pointer (address : Nat)

/-- `*(va_arg(args, T*)) = value` for a type of `bytes` bytes. -/
structure Store where
  address : Nat
  bytes : Nat
  value : Int

section Sinks
variable {Sink : Type} (put : Sink → UInt8 → Sink)

/-! ## Numbers -/

/-- The local variables of `fprintf_uint` and `snprintf_uint`. -/
structure Printer (Sink : Type) where
  sink : Sink
  minLength : Int
  minDigits : Int
  charsPrinted : Int

namespace Printer

section
variable (printer : Printer Sink) (paddingType : Bool) (text : List Char)

def emit (c : Char) : Printer Sink :=
  { printer with
    sink := put printer.sink (charByte c)
    charsPrinted := int32 (printer.charsPrinted + 1) }

def shorten : Printer Sink := { printer with minLength := int32 (printer.minLength - 1) }

def dropDigit : Printer Sink := { printer with minDigits := int32 (printer.minDigits - 1) }

def leadingZero : Printer Sink := (printer.emit put '0').shorten

def padRight (printer : Printer Sink) : Printer Sink :=
  if paddingType then printer.emit put '0' else printer.emit put ' '

def padLeft (printer : Printer Sink) : Printer Sink :=
  if paddingType ∨ 0 < printer.minDigits then (printer.emit put '0').dropDigit
  else printer.emit put ' '

def zeroRight : Printer Sink :=
  let led := (leadingZero put)^[printer.minDigits.toNat] printer
  let zero := if led.minDigits ≠ 0 then (led.emit put '0').dropDigit.shorten else led
  (padRight put paddingType)^[zero.minLength.toNat] zero

def zeroLeft : Printer Sink :=
  let printZero := printer.minDigits ≠ 0
  let started := if printZero then printer.dropDigit.shorten else printer
  let padded := (padLeft put paddingType)^[started.minLength.toNat] started
  if printZero then padded.emit put '0' else padded

def zero (paddingOrientation : Bool) : Printer Sink :=
  if 1 < printer.minLength then
    if paddingOrientation then printer.zeroRight put paddingType
    else printer.zeroLeft put paddingType
  else if printer.minDigits ≠ 0 then (printer.emit put '0').dropDigit.shorten
  else printer

def digits : Printer Sink := text.foldl (fun printer c => printer.emit put c) printer

/-- A number other than zero with the digits `text`. -/
def nonzero (paddingType paddingOrientation : Bool) : Printer Sink :=
  if text.length < printer.minLength then
    let reduced := { printer with
      minLength := int32 (printer.minLength - text.length)
      minDigits := int32 (printer.minDigits - text.length) }
    if paddingOrientation then
      let led := (leadingZero put)^[reduced.minDigits.toNat] reduced
      let printed := led.digits put text
      (padRight put paddingType)^[printed.minLength.toNat] printed
    else
      let padded := (padLeft put paddingType)^[reduced.minLength.toNat] reduced
      padded.digits put text
  else printer.digits put text

end
end Printer

/-- `g_HexCharsLOWER` and `g_HexCharsUPPER`. -/
def hexChar (uppercase : Bool) (value : Nat) : Char :=
  if value < 10 then Char.ofNat (48 + value)
  else if uppercase then Char.ofNat (55 + value)
  else Char.ofNat (87 + value)

def digitBuffer (radix : Nat) (uppercase : Bool) : Nat → Nat → List Char
  | 0, _ => []
  | room + 1, num =>
    hexChar uppercase (num % radix) ::
      if num / radix = 0 then [] else digitBuffer radix uppercase room (num / radix)

/-- `fprintf_uint` and `snprintf_uint`: the sink and the number of characters. -/
def printUint (sink : Sink) (minLength minDigits : Int) (num radix : Nat)
    (paddingType paddingOrientation uppercase : Bool) : Sink × Int :=
  let printer : Printer Sink := ⟨sink, minLength, minDigits, 0⟩
  let printed :=
    if num = 0 then printer.zero put paddingType paddingOrientation
    else printer.nonzero put (digitBuffer radix uppercase 64 num).reverse paddingType
      paddingOrientation
  (printed.sink, printed.charsPrinted)

/-- `fprintf_int` and `snprintf_int`. -/
def printInt (sink : Sink) (num : Int) (forceSign padSign : Bool) (minLength minDigits : Int)
    (radix : Nat) (paddingType paddingOrientation uppercase : Bool) : Sink × Int :=
  let signed : Option Char :=
    if num < 0 then some '-' else if forceSign then some '+' else if padSign then some ' ' else none
  match signed with
  | none =>
    printUint put sink minLength minDigits num.natAbs radix paddingType paddingOrientation uppercase
  | some c =>
    let (printed, chars) :=
      printUint put (put sink (charByte c)) (int32 (minLength - 1)) minDigits num.natAbs radix
        paddingType paddingOrientation uppercase
    (printed, int32 (chars + 1))

/-! ## The formatter -/

/-- The variables that describe one conversion. -/
structure Conversion where
  radix : Nat
  len : Length
  sign : Bool
  leftJustify : Bool
  forceSign : Bool
  addBlank : Bool
  flagsExtra : Bool
  zeroPad : Bool
  number : Bool
  upper : Bool
  floating : Bool
  width : Int
  precision : Int

def Conversion.start : Conversion where
  radix := 10
  len := .L_NORMAL
  sign := false
  leftJustify := false
  forceSign := false
  addBlank := false
  flagsExtra := false
  zeroPad := false
  number := false
  upper := false
  floating := false
  width := 0
  precision := -1

structure Formatter (Sink : Type) where
  mode : Mode
  conv : Conversion
  sink : Sink
  symbolsPrinted : Int
  args : List Arg
  stores : List Store

namespace Formatter

section
variable (formatter : Formatter Sink) (c : UInt8)

def emit : Formatter Sink :=
  { formatter with
    sink := put formatter.sink c
    symbolsPrinted := int32 (formatter.symbolsPrinted + 1) }

def setMode (mode : Mode) : Formatter Sink := { formatter with mode := mode }

def setConv (conv : Conversion) : Formatter Sink := { formatter with conv := conv }

/-- `va_arg(args, int)`. -/
def takeInt : Option (Formatter Sink × UInt32) :=
  match formatter.args with
  | .int value :: rest => some ({ formatter with args := rest }, value)
  | _ => none

/-- `va_arg(args, T)` for a type `T` of 64 bits. -/
def takeLong : Option (Formatter Sink × UInt64) :=
  match formatter.args with
  | .long value :: rest => some ({ formatter with args := rest }, value)
  | _ => none

/-- `va_arg(args, const char*)`. -/
def takeString : Option (Formatter Sink × List UInt8) :=
  match formatter.args with
  | .string text :: rest => some ({ formatter with args := rest }, text)
  | _ => none

/-- `va_arg(args, T*)`. -/
def takePointer : Option (Formatter Sink × Nat) :=
  match formatter.args with
  | .pointer address :: rest => some ({ formatter with args := rest }, address)
  | _ => none

def flag (c : Char) : Formatter Sink × Bool :=
  match c with
  | '-' => (formatter.setConv { formatter.conv with leftJustify := true }, true)
  | '+' => (formatter.setConv { formatter.conv with forceSign := true }, true)
  | ' ' => (formatter.setConv { formatter.conv with addBlank := true }, true)
  | '#' => (formatter.setConv { formatter.conv with flagsExtra := true }, true)
  | '0' => (formatter.setConv { formatter.conv with zeroPad := true }, true)
  | _ => (formatter.setMode .WIDTH, false)

def isDigit : Bool := charByte '0' ≤ c && c ≤ charByte '9'

def shiftDigit (value : Int) (c : UInt8) : Int :=
  int32 (int32 (value * 10) + (c.toNat - (charByte '0').toNat))

def setWidth (width : Int) : Formatter Sink :=
  formatter.setConv { formatter.conv with width := width }

def setPrecision (precision : Int) : Formatter Sink :=
  formatter.setConv { formatter.conv with precision := precision }

/-- The value of an argument of type `int`. -/
def signedInt (value : UInt32) : Int := int32 value.toNat

def readWidth : Option (Formatter Sink × Bool) :=
  if c = charByte '*' then
    match formatter.takeInt with
    | none => none
    | some (next, value) => some ((next.setWidth (signedInt value)).setMode .LEN, true)
  else if isDigit c then
    some (formatter.setWidth (shiftDigit formatter.conv.width c), true)
  else some (formatter.setMode .LEN, false)

def readPrecision : Option (Formatter Sink × Bool) :=
  if c = charByte '*' then
    match formatter.takeInt with
    | none => none
    | some (next, value) => some ((next.setPrecision (signedInt value)).setMode .LEN, true)
  else if isDigit c then
    some (formatter.setPrecision (shiftDigit formatter.conv.precision c), true)
  else some (formatter.setMode .LEN, false)

def setLength (len : Length) : Formatter Sink :=
  formatter.setConv { formatter.conv with len := len }

def readLength (c : Char) : Option (Formatter Sink × Bool) :=
  match c with
  | '.' =>
    if formatter.conv.precision = -1 then
      some ((formatter.setPrecision 0).setMode .PREC, true)
    else none
  | 'h' =>
    some (formatter.setLength (if formatter.conv.len = .L_SHORT then .L_CHAR else .L_SHORT), true)
  | 'l' =>
    some (formatter.setLength
      (if formatter.conv.len = .L_LONG then .L_LONG_LONG else .L_LONG), true)
  | 'j' => some (formatter.setLength .L_INTMAX, true)
  | 'z' => some (formatter.setLength .L_SIZET, true)
  | 't' => some (formatter.setLength .L_PTRDIFFT, true)
  | 'L' => some (formatter.setLength .L_LDOUB, true)
  | _ => some (formatter.setMode .SPEC, false)

end
end Formatter

def Conversion.specify (conv : Conversion) (c : Char) : Conversion :=
  match c with
  | 'd' | 'i' => { conv with radix := 10, number := true, sign := true, floating := false }
  | 'u' => { conv with radix := 10, number := true, sign := false, floating := false }
  | 'o' => { conv with radix := 8, number := true, sign := false, floating := false }
  | 'p' =>
    { conv with
      len := .L_LONG, radix := 16, number := true, sign := false, upper := false
      floating := false }
  | 'x' =>
    { conv with radix := 16, number := true, sign := false, upper := false, floating := false }
  | 'X' =>
    { conv with radix := 16, number := true, sign := false, upper := true, floating := false }
  | 'f' | 'e' | 'g' =>
    { conv with radix := 10, number := true, sign := true, upper := false, floating := true }
  | 'F' | 'E' | 'G' =>
    { conv with radix := 10, number := true, sign := true, upper := true, floating := true }
  | 'a' =>
    { conv with radix := 16, upper := false, floating := true, sign := true, number := true }
  | 'A' =>
    { conv with radix := 16, upper := true, floating := true, sign := true, number := true }
  | _ => conv

namespace Formatter

/-- The loop over a string from the index `j` on. The width goes down with each
character. -/
def printString (formatter : Formatter Sink) : Nat → List UInt8 → Formatter Sink
  | _, [] => formatter
  | j, c :: rest =>
    if 0 < formatter.conv.precision ∧ formatter.conv.precision ≤ j then formatter
    else
      printString ((formatter.emit put c).setWidth (int32 (formatter.conv.width - 1))) (j + 1) rest

/-- The type that `%n` stores, by its size. -/
def storeBytes : Length → Nat
  | .L_CHAR => 1
  | .L_SHORT => 2
  | .L_LONG | .L_LONG_LONG | .L_INTMAX | .L_SIZET | .L_PTRDIFFT => 8
  | .L_NORMAL | .L_LDOUB => 4

section
variable (formatter : Formatter Sink) (c : Char)

def printOther : Option (Formatter Sink) :=
  match c with
  | 'c' =>
    match formatter.takeInt with
    | none => none
    | some (next, value) => some (next.emit put value.toUInt8)
  | 's' =>
    match formatter.takeString with
    | none => none
    | some (next, text) =>
      let printed := next.printString put 0 text
      some ((fun formatter => emit put formatter (charByte ' '))^[printed.conv.width.toNat] printed)
  | 'n' =>
    match formatter.takePointer with
    | none => none
    | some (next, address) =>
      some { next with
        stores := next.stores ++ [⟨address, storeBytes next.conv.len, next.symbolsPrinted⟩] }
  | '%' => some (formatter.emit put (charByte '%'))
  | _ => some formatter

/-- `width -= count` that stops at zero. -/
def reduceWidth (count : Int) : Formatter Sink :=
  formatter.setWidth (max (int32 (formatter.conv.width - count)) 0)

/-- What the flag `#` prints. -/
def printExtra : Formatter Sink :=
  if formatter.conv.flagsExtra then
    if formatter.conv.radix = 16 then
      ((formatter.emit put (charByte '0')).emit put
        (charByte (if formatter.conv.upper then 'X' else 'x'))).reduceWidth 2
    else if formatter.conv.radix = 8 then (formatter.emit put (charByte '0')).reduceWidth 1
    else formatter
  else formatter

def takeNumber : Option (Formatter Sink × Int) :=
  if formatter.conv.len.wide then
    match formatter.takeLong with
    | none => none
    | some (next, value) =>
      some (next, if formatter.conv.sign then Int.bmod value.toNat (2 ^ 64) else value.toNat)
  else
    match formatter.takeInt with
    | none => none
    | some (next, value) =>
      some (next, if formatter.conv.sign then signedInt value else value.toNat)

/-- `symbols_printed += ...` for the result of a printing function. -/
def addPrinted (result : Sink × Int) : Formatter Sink :=
  { formatter with
    sink := result.1
    symbolsPrinted := int32 (formatter.symbolsPrinted + result.2) }

def printNumber : Option (Formatter Sink) :=
  if formatter.conv.number then
    if formatter.conv.floating then none
    else
      match formatter.takeNumber with
      | none => none
      | some (next, num) =>
        let conv := next.conv
        if conv.sign then
          some (next.addPrinted (printInt put next.sink num conv.forceSign conv.addBlank
            (max conv.width conv.precision) conv.precision conv.radix conv.zeroPad
            conv.leftJustify conv.upper))
        else
          some (next.addPrinted (printUint put next.sink (max conv.width conv.precision)
            conv.precision num.toNat conv.radix conv.zeroPad conv.leftJustify conv.upper))
  else some formatter

/-- The mode `SPEC`. -/
def printSpec : Option (Formatter Sink) :=
  match (formatter.setConv (formatter.conv.specify c)).printOther put c with
  | none => none
  | some printed =>
    match (printed.printExtra put).printNumber put with
    | none => none
    | some done => some ((done.setConv .start).setMode .NORMAL)

/-- One iteration of the loop, with `gotoNextChar`. -/
def step (c : UInt8) : Option (Formatter Sink × Bool) :=
  let char := Char.ofNat c.toNat
  match formatter.mode with
  | .NORMAL =>
    if char = '%' then some (formatter.setMode .FLAGS, true)
    else some (formatter.emit put c, true)
  | .FLAGS => some (formatter.flag char)
  | .WIDTH => formatter.readWidth c
  | .PREC => formatter.readPrecision c
  | .LEN => formatter.readLength char
  | .SPEC =>
    match formatter.printSpec put char with
    | none => none
    | some next => some (next, true)

end

/-- The iterations at one character. The modes only go forward, so there are at most
four. -/
def atChar : Nat → Formatter Sink → UInt8 → Option (Formatter Sink)
  | 0, _, _ => none
  | fuel + 1, formatter, c =>
    match formatter.step put c with
    | none => none
    | some (next, true) => some next
    | some (next, false) => atChar fuel next c

def run : Formatter Sink → List UInt8 → Option (Formatter Sink)
  | formatter, [] => some formatter
  | formatter, c :: rest =>
    match atChar put 4 formatter c with
    | none => none
    | some next => run next rest

def start (sink : Sink) (args : List Arg) : Formatter Sink := ⟨.NORMAL, .start, sink, 0, args, []⟩

end Formatter
end Sinks

/-! ## Formats -/

/-- The types of arguments. -/
inductive Kind where
  | int
  | long
  | string
  | pointer
deriving DecidableEq

def Arg.kind : Arg → Kind
  | .int _ => .int
  | .long _ => .long
  | .string _ => .string
  | .pointer _ => .pointer

/-- How far a conversion of a format has been read: the length seen so far, and
whether a dot was seen. -/
structure Scan where
  mode : Mode
  len : Length
  dotted : Bool

namespace Scan

def start : Scan := ⟨.NORMAL, .L_NORMAL, false⟩

def floating (c : Char) : Bool :=
  match c with
  | 'f' | 'F' | 'e' | 'E' | 'g' | 'G' | 'a' | 'A' => true
  | _ => false

def specKinds (len : Length) (c : Char) : List Kind :=
  match c with
  | 'd' | 'i' | 'u' | 'o' | 'x' | 'X' => [if len.wide then .long else .int]
  | 'p' => [.long]
  | 'c' => [.int]
  | 's' => [.string]
  | 'n' => [.pointer]
  | _ => []

section
variable (scan : Scan) (c : UInt8)

def atSpec (c : Char) : Option (Scan × List Kind) :=
  if floating c then none else some (start, specKinds scan.len c)

def atLength (c : Char) : Option (Scan × List Kind) :=
  match c with
  | '.' => if scan.dotted then none else some ({ scan with mode := .PREC, dotted := true }, [])
  | 'h' => some ({ scan with len := if scan.len = .L_SHORT then .L_CHAR else .L_SHORT }, [])
  | 'l' => some ({ scan with len := if scan.len = .L_LONG then .L_LONG_LONG else .L_LONG }, [])
  | 'j' => some ({ scan with len := .L_INTMAX }, [])
  | 'z' => some ({ scan with len := .L_SIZET }, [])
  | 't' => some ({ scan with len := .L_PTRDIFFT }, [])
  | 'L' => some ({ scan with len := .L_LDOUB }, [])
  | _ => scan.atSpec c

def atNumber : Option (Scan × List Kind) :=
  if c = charByte '*' then some ({ scan with mode := .LEN }, [.int])
  else if Formatter.isDigit c then some (scan, [])
  else { scan with mode := .LEN }.atLength (Char.ofNat c.toNat)

def atFlag : Option (Scan × List Kind) :=
  match Char.ofNat c.toNat with
  | '-' | '+' | ' ' | '#' | '0' => some (scan, [])
  | _ => { scan with mode := .WIDTH }.atNumber c

def next : Option (Scan × List Kind) :=
  match scan.mode with
  | .NORMAL =>
    if Char.ofNat c.toNat = '%' then some ({ scan with mode := .FLAGS }, []) else some (scan, [])
  | .FLAGS => scan.atFlag c
  | .WIDTH => scan.atNumber c
  | .PREC => scan.atNumber c
  | .LEN => scan.atLength (Char.ofNat c.toNat)
  | .SPEC => scan.atSpec (Char.ofNat c.toNat)

end

def kinds : Scan → List UInt8 → Option (List Kind)
  | _, [] => some []
  | scan, c :: rest =>
    match scan.next c with
    | none => none
    | some (further, here) => (kinds further rest).map (here ++ ·)

end Scan

/-- A format without floating point conversions and with at most one dot in each
conversion, and arguments of the types it needs. There may be more of them. -/
def Matches (format : List UInt8) (args : List Arg) : Prop :=
  0 ∉ format ∧ ∃ kinds more, Scan.start.kinds format = some kinds ∧
    args.map Arg.kind = kinds ++ more

/-- What a call returns, with what it wrote and what `%n` stored. -/
structure Printed (Sink : Type) where
  sink : Sink
  returned : Int
  stores : List Store

/-- `vfprintf(file, format, args)` with the characters it sends to the stream. -/
def vfprintf (format : List UInt8) (args : List Arg) : Option (Printed (List UInt8)) :=
  match Formatter.run stream (.start [] args) format with
  | none => none
  | some done => some ⟨done.sink, done.symbolsPrinted, done.stores⟩

/-- `snputc(s, max_size, &current_size, c)`. -/
def snputc (maxSize : Nat) (buffer : Buffer) (c : UInt8) : Buffer := buffer.put maxSize c

def SIZE_MAX : Nat := 2 ^ 64 - 1

/-- `vsnprintf(s, n, format, args)` with the memory from `s` on. -/
def vsnprintf (s : Nat → UInt8) (n : Nat) (format : List UInt8) (args : List Arg) :
    Option (Printed (Nat → UInt8)) :=
  match Formatter.run (snputc (sub64 n 1)) (.start ⟨s, 0⟩ args) format with
  | none => none
  | some done => some ⟨(snputc SIZE_MAX done.sink 0).memory, done.symbolsPrinted, done.stores⟩

end FrostyKernel.Stdio
