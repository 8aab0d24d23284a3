import FrostyKernel.Lib.Word
import FrostyKernel.Lib.OrderedMap

/-!
# The symbol table of the kernel

The host tool `buildsymboltable` drops the type letters of an `nm` listing, and
`SymbolTable::FillFromRawStringData` reads what it prints. Both are machines over
single characters. A pointer into the data is the suffix it points to.
-/

namespace FrostyKernel.Symbols

open Word List Option OrderedMap UInt8

def space : UInt8 := 32

def newline : UInt8 := 10

def isDecimal (c : UInt8) : Bool := 48 ≤ c && c ≤ 57

def isLowerHex (c : UInt8) : Bool := 97 ≤ c && c ≤ 102

def isUpperHex (c : UInt8) : Bool := 65 ≤ c && c ≤ 70

def isHexDigit (c : UInt8) : Bool := isDecimal c || isLowerHex c || isUpperHex c

def isLetter (c : UInt8) : Bool := (97 ≤ c && c ≤ 122) || (65 ≤ c && c ≤ 90)

/-! ## The host tool -/

namespace BuildSymbolTable

inductive Stage where
  | Address
  | Space1
  | Ignore
  | Space2
  | Name
  | Done

/-- What the tool leaves: its exit status, what it printed, and the message on
`stderr` with the character it names. -/
structure Outcome where
  status : Nat
  out : List UInt8
  err : Option (String × UInt8)

/-- The `switch` on the stage: the next stage and what is printed, or a message. -/
def stageStep (stage : Stage) (c : UInt8) : Except String (Stage × List UInt8) :=
  match stage with
  | .Address =>
    if c = space then .ok (.Space1, [])
    else if isHexDigit c then .ok (.Address, [c])
    else .error "Error: Expected address or space, got %c\n"
  | .Space1 =>
    if isLetter c then .ok (.Ignore, []) else .error "Error: Expected letter, got %c\n"
  | .Ignore =>
    if c = space then .ok (.Space2, []) else .error "Error: Expected space, got %c\n"
  | .Space2 => .ok (.Name, [space, c])
  | .Name => if c = newline then .ok (.Done, [c]) else .ok (.Name, [c])
  | .Done =>
    if isHexDigit c then .ok (.Address, [c]) else .error "Error: Expected address, got %c\n"

/-- The loop of `main`. The result of `fgetc` is stored in a `char`, so the byte 255
is taken for the end of the file. -/
def run : Stage → List UInt8 → Outcome
  | _, [] => ⟨0, [], none⟩
  | stage, c :: rest =>
    if c = 255 then ⟨0, [], none⟩
    else
      match stageStep stage c with
      | .error message => ⟨1, [], some (message, c)⟩
      | .ok (next, text) => { run next rest with out := text ++ (run next rest).out }

/-- `main` on the contents of its input. -/
def main (input : List UInt8) : Outcome := run .Address input

end BuildSymbolTable

/-! ## The kernel's reader -/

/-- The tree maps an address to the array that holds the name and its terminator. -/
structure SymbolTable where
  symbols : OrderedMap Nat (List UInt8)
  regionStart : Nat
  regionEnd : Nat

namespace SymbolTable

/-- An empty table after `SetMemRegion(regionStart, regionEnd)`. -/
def forRegion (regionStart regionEnd : Nat) : SymbolTable := ⟨.empty, regionStart, regionEnd⟩

inductive Stage where
  | Address
  | Name

/-- The local variables of `FillFromRawStringData`. -/
structure Reader where
  table : SymbolTable
  currentAddress : Nat
  currentName : Option (List UInt8)
  currentNameLength : Nat
  stage : Stage

def Reader.atLine (table : SymbolTable) : Reader := ⟨table, 0, none, 0, .Address⟩

def Reader.shiftIn (reader : Reader) (digit : Nat) : Reader :=
  { reader with currentAddress := add64 (mul64 reader.currentAddress 16) digit }

def addLine (table : SymbolTable) (address : Nat) (name : List UInt8) : SymbolTable :=
  if table.regionStart ≤ address ∧ address ≤ table.regionEnd then
    { table with symbols := table.symbols.insert address (name ++ [0]) }
  else table

/-- One iteration of the loop, at the character `c` with `rest` behind it. -/
def Reader.step (reader : Reader) (c : UInt8) (rest : List UInt8) : Reader :=
  match reader.stage with
  | .Address =>
    if c = space then
      { reader with stage := .Name, currentName := some rest, currentNameLength := 0 }
    else if isDecimal c then reader.shiftIn (c.toNat - 48)
    else if isLowerHex c then reader.shiftIn (c.toNat - 97 + 10)
    else if isUpperHex c then reader.shiftIn (c.toNat - 65 + 10)
    else reader
  | .Name =>
    if c = newline then
      .atLine (reader.table.addLine reader.currentAddress
        ((reader.currentName.getD []).take reader.currentNameLength))
    else { reader with currentNameLength := reader.currentNameLength + 1 }

def Reader.run : Reader → List UInt8 → Reader
  | reader, [] => reader
  | reader, c :: rest => (reader.step c rest).run rest

/-- `FillFromRawStringData(data, size)`. -/
def fillFromRawStringData (table : SymbolTable) (data : List UInt8) : SymbolTable :=
  if data = [] then table else ((Reader.atLine table).run data).table

/-- `FindSymbol(address, &base_address)`: the name and the base address. -/
def findSymbol (table : SymbolTable) (address : Nat) : Option (List UInt8 × Nat) :=
  match table.symbols.findNodeOrLower address with
  | none => none
  | some (key, value) => some (value, key)

end SymbolTable

/-! ## Listings -/

/-- A line of an `nm` listing. -/
structure Line where
  digits : List UInt8
  letter : UInt8
  name : List UInt8
  digits_hex : ∀ digit ∈ digits, isHexDigit digit = true
  digits_some : 1 ≤ digits.length
  digits_few : digits.length ≤ 16
  letter_letter : isLetter letter = true
  name_some : name ≠ []
  name_ascii : ∀ c ∈ name, c < 128
  name_one_line : newline ∉ name

def digitValue (digit : UInt8) : Nat :=
  if isDecimal digit then digit.toNat - 48
  else if isLowerHex digit then digit.toNat - 87
  else digit.toNat - 55

def hexValue (digits : List UInt8) : Nat :=
  digits.foldl (fun value digit => value * 16 + digitValue digit) 0

namespace Line

def address (line : Line) : Nat := hexValue line.digits

def bytes (line : Line) : List UInt8 :=
  line.digits ++ space :: line.letter :: space :: (line.name ++ [newline])

def printed (line : Line) : List UInt8 := line.digits ++ space :: (line.name ++ [newline])

end Line

def listing (lines : List Line) : List UInt8 := lines.flatMap Line.bytes

def InRegion (regionStart regionEnd : Nat) (line : Line) : Prop :=
  regionStart ≤ line.address ∧ line.address ≤ regionEnd

instance (regionStart regionEnd : Nat) (line : Line) :
    Decidable (InRegion regionStart regionEnd line) :=
  inferInstanceAs (Decidable (_ ∧ _))

def firstAt (regionStart regionEnd : Nat) (lines : List Line) (address : Nat) : Option Line :=
  lines.find? fun line => line.address = address ∧ InRegion regionStart regionEnd line

/-! ## Single characters -/

variable {digit : UInt8}

section
variable (hex : isHexDigit digit = true)
include hex

theorem hex_ne_space : digit ≠ space := by
  rintro rfl
  revert hex
  decide

theorem hex_ne_end : digit ≠ 255 := by
  rintro rfl
  revert hex
  decide

theorem digit_value_lt : digitValue digit < 16 := by
  have bound := digit.toNat_lt
  simp only [isHexDigit, isDecimal, isLowerHex, isUpperHex, Bool.or_eq_true, Bool.and_eq_true,
    decide_eq_true_eq, le_iff_toNat_le] at hex
  simp only [digitValue, isDecimal, isLowerHex, Bool.and_eq_true, decide_eq_true_eq,
    le_iff_toNat_le]
  simp only [reduceToNat] at hex ⊢
  split_ifs <;> omega

end

theorem letter_ne_end {letter : UInt8} (isLet : isLetter letter = true) : letter ≠ 255 := by
  rintro rfl
  revert isLet
  decide

theorem ascii_ne_end {c : UInt8} (ascii : c < 128) : c ≠ 255 := by
  rintro rfl
  revert ascii
  decide

/-! ## What the tool prints -/

namespace BuildSymbolTable

def Outcome.after (text : List UInt8) (outcome : Outcome) : Outcome :=
  { outcome with out := text ++ outcome.out }

variable {stage : Stage} (rest : List UInt8)

theorem run_step {next : Stage} {c : UInt8} {text : List UInt8} (inFile : c ≠ 255)
    (step : stageStep stage c = .ok (next, text)) :
    run stage (c :: rest) = (run next rest).after text := by
  rw [run, if_neg inFile, step]
  rfl

theorem after_after (first second : List UInt8) (outcome : Outcome) :
    (outcome.after second).after first = outcome.after (first ++ second) := by
  simp [Outcome.after]

theorem run_digits {digits : List UInt8} (hex : ∀ digit ∈ digits, isHexDigit digit = true) :
    run .Address (digits ++ rest) = (run .Address rest).after digits := by
  induction digits with
  | nil => rfl
  | cons digit others ih =>
    have head := hex digit (by simp)
    have step : stageStep .Address digit = .ok (.Address, [digit]) := by
      simp only [stageStep, if_neg (hex_ne_space head), if_pos head]
    rw [cons_append, run_step _ (hex_ne_end head) step,
      ih fun other member => hex other (by simp [member]), after_after]
    rfl

theorem run_name {name : List UInt8} (ascii : ∀ c ∈ name, c < 128) (oneLine : newline ∉ name) :
    run .Name (name ++ newline :: rest) = (run .Done rest).after (name ++ [newline]) := by
  induction name with
  | nil => exact run_step rest (by decide) rfl
  | cons c others ih =>
    rw [mem_cons, not_or] at oneLine
    have step : stageStep .Name c = .ok (.Name, [c]) := if_neg (Ne.symm oneLine.1)
    rw [cons_append, run_step _ (ascii_ne_end (ascii c (by simp))) step,
      ih (fun other member => ascii other (by simp [member])) oneLine.2, after_after]
    rfl

/-- The first digit of a line is read in `Address` on the first line and in `Done`
on the others. -/
def AtLine (stage : Stage) : Prop := stage = .Address ∨ stage = .Done

theorem run_first_digit {digit : UInt8} (atLine : AtLine stage) (hex : isHexDigit digit = true) :
    run stage (digit :: rest) = (run .Address rest).after [digit] := by
  apply run_step rest (hex_ne_end hex)
  rcases atLine with rfl | rfl
  · simp only [stageStep, if_neg (hex_ne_space hex), if_pos hex]
  · simp only [stageStep, if_pos hex]

theorem run_behind_digits (line : Line) (rest : List UInt8) :
    run .Address (space :: line.letter :: space :: (line.name ++ newline :: rest)) =
      (run .Done rest).after (space :: (line.name ++ [newline])) := by
  have letterStep : stageStep .Space1 line.letter = .ok (.Ignore, []) := if_pos line.letter_letter
  rw [run_step _ (by decide) (show stageStep .Address space = .ok (.Space1, []) from rfl),
    run_step _ (letter_ne_end line.letter_letter) letterStep,
    run_step _ (by decide) (show stageStep .Ignore space = .ok (.Space2, []) from rfl)]
  cases shape : line.name with
  | nil => exact absurd shape line.name_some
  | cons first others =>
    have ascii := line.name_ascii
    have oneLine := line.name_one_line
    rw [shape] at ascii oneLine
    rw [mem_cons, not_or] at oneLine
    rw [cons_append, run_step _ (ascii_ne_end (ascii first (by simp))) (show stageStep .Space2 first
      = .ok (.Name, [space, first]) from rfl), run_name _ (fun c member => ascii c (by simp
      [member])) oneLine.2, after_after, after_after, after_after, after_after]
    rfl

theorem run_line (line : Line) (rest : List UInt8) (atLine : AtLine stage) :
    run stage (line.bytes ++ rest) = (run .Done rest).after line.printed := by
  unfold Line.bytes Line.printed
  cases shape : line.digits with
  | nil => exact absurd line.digits_some (by simp [shape])
  | cons digit others =>
    have hex := line.digits_hex
    rw [shape] at hex
    simp only [cons_append, append_assoc, nil_append]
    rw [run_first_digit _ atLine (hex digit (by simp)), run_digits _ fun other member => hex other
      (by simp [member]), run_behind_digits, after_after, after_after]
    rfl

theorem run_listing (lines : List Line) (atLine : AtLine stage) :
    run stage (listing lines) = ⟨0, lines.flatMap Line.printed, none⟩ := by
  induction lines generalizing stage with
  | nil => rfl
  | cons line others ih =>
    rw [listing, flatMap_cons, run_line line _ atLine]
    have later := ih (.inr rfl)
    rw [listing] at later
    rw [later, flatMap_cons]
    rfl

end BuildSymbolTable

/-! ## What the kernel reads -/

namespace SymbolTable

theorem step_digit {reader : Reader} {digit : UInt8} (rest : List UInt8)
    (inAddress : reader.stage = .Address) (hex : isHexDigit digit = true) :
    reader.step digit rest = reader.shiftIn (digitValue digit) := by
  simp only [Reader.step, inAddress, if_neg (hex_ne_space hex)]
  simp only [isHexDigit, Bool.or_eq_true] at hex
  unfold digitValue
  split_ifs with decimal lower upper
  · rfl
  · have low : 97 ≤ digit.toNat := by
      simp only [isLowerHex, Bool.and_eq_true, decide_eq_true_eq, le_iff_toNat_le] at lower
      exact lower.1
    congr 1
    omega
  · have low : 65 ≤ digit.toNat := by
      simp only [isUpperHex, Bool.and_eq_true, decide_eq_true_eq, le_iff_toNat_le] at upper
      exact upper.1
    congr 1
    omega
  · rcases hex with (other | other) | other
    · exact absurd other decimal
    · exact absurd other lower
    · exact absurd other upper

theorem run_digits {digits : List UInt8} {table : SymbolTable} {value : Nat} (rest : List UInt8)
    (hex : ∀ digit ∈ digits, isHexDigit digit = true)
    (fits : value * 16 ^ digits.length + 16 ^ digits.length ≤ 2 ^ 64) :
    (Reader.mk table value none 0 .Address).run (digits ++ rest) =
      (Reader.mk table (digits.foldl (fun value digit => value * 16 + digitValue digit) value)
        none 0 .Address).run rest := by
  induction digits generalizing value with
  | nil => rfl
  | cons digit others ih =>
    have head := hex digit (by simp)
    have small := digit_value_lt head
    have power : 1 ≤ 16 ^ others.length := Nat.one_le_pow _ _ (by norm_num)
    rw [length_cons, pow_succ] at fits
    have spread : (value * 16 + 16) * 16 ^ others.length ≤ 2 ^ 64 := by
      calc (value * 16 + 16) * 16 ^ others.length
          = value * (16 ^ others.length * 16) + 16 ^ others.length * 16 := by ring
        _ ≤ 2 ^ 64 := fits
    have below : value * 16 + 16 ≤ 2 ^ 64 := le_trans (Nat.le_mul_of_pos_right _ power) spread
    have shifted : add64 (mul64 value 16) (digitValue digit) = value * 16 + digitValue digit := by
      rw [mul64_of_lt (by omega), add64_of_lt (by omega)]
    have next : (value * 16 + digitValue digit) * 16 ^ others.length + 16 ^ others.length ≤
        2 ^ 64 := by
      calc (value * 16 + digitValue digit) * 16 ^ others.length + 16 ^ others.length
          = (value * 16 + digitValue digit + 1) * 16 ^ others.length := by ring
        _ ≤ (value * 16 + 16) * 16 ^ others.length := Nat.mul_le_mul_right _ (by omega)
        _ ≤ 2 ^ 64 := spread
    rw [cons_append, Reader.run, step_digit _ rfl head, Reader.shiftIn, shifted,
      ih (fun other member => hex other (by simp [member])) next]
    rfl

theorem run_name {seen name : List UInt8} {table : SymbolTable} {address : Nat}
    (rest : List UInt8) (oneLine : newline ∉ name) :
    (Reader.mk table address (some (seen ++ (name ++ newline :: rest))) seen.length .Name).run
        (name ++ newline :: rest) =
      (Reader.atLine (table.addLine address (seen ++ name))).run rest := by
  induction name generalizing seen with
  | nil =>
    rw [nil_append, Reader.run]
    simp [Reader.step]
  | cons c others ih =>
    rw [mem_cons, not_or] at oneLine
    have step : (Reader.mk table address (some (seen ++ (c :: others ++ newline :: rest)))
        seen.length .Name).step c (others ++ newline :: rest) =
        ⟨table, address, some ((seen ++ [c]) ++ (others ++ newline :: rest)),
          (seen ++ [c]).length, .Name⟩ := by
      simp [Reader.step, Ne.symm oneLine.1]
    rw [cons_append, Reader.run, ← cons_append, step, ih oneLine.2]
    simp

section
variable (table : SymbolTable)
include table

theorem run_line (line : Line) (rest : List UInt8) :
    (Reader.atLine table).run (line.printed ++ rest) =
      (Reader.atLine (table.addLine line.address line.name)).run rest := by
  have few : 0 * 16 ^ line.digits.length + 16 ^ line.digits.length ≤ 2 ^ 64 := by
    have bound : 16 ^ line.digits.length ≤ 16 ^ 16 :=
      Nat.pow_le_pow_right (by norm_num) line.digits_few
    norm_num at bound ⊢
    exact bound
  have named : (Reader.mk table line.address (some (line.name ++ newline :: rest)) 0 .Name).run
      (line.name ++ newline :: rest) =
      (Reader.atLine (table.addLine line.address line.name)).run rest :=
    @run_name [] line.name table line.address rest line.name_one_line
  unfold Line.printed
  simp only [append_assoc, cons_append, nil_append]
  rw [Reader.atLine, run_digits _ line.digits_hex few, Reader.run]
  exact named

def addLines (table : SymbolTable) (lines : List Line) : SymbolTable :=
  lines.foldl (fun table line => table.addLine line.address line.name) table

variable (lines : List Line)

theorem run_lines :
    (Reader.atLine table).run (lines.flatMap Line.printed) =
      Reader.atLine (table.addLines lines) := by
  induction lines generalizing table with
  | nil => rfl
  | cons line others ih =>
    rw [flatMap_cons, run_line, ih]
    rfl

theorem fill_printed :
    table.fillFromRawStringData (lines.flatMap Line.printed) = table.addLines lines := by
  cases lines with
  | nil => rfl
  | cons line others =>
    have nonempty : (line :: others).flatMap Line.printed ≠ [] := by
      simp [Line.printed]
    rw [fillFromRawStringData, if_neg nonempty, run_lines]
    rfl

/-! ## The table -/

variable (address : Nat)

@[simp] theorem add_line_start (name : List UInt8) :
    (table.addLine address name).regionStart = table.regionStart := by
  unfold addLine
  split <;> rfl

@[simp] theorem add_line_end (name : List UInt8) :
    (table.addLine address name).regionEnd = table.regionEnd := by
  unfold addLine
  split <;> rfl

theorem find_add_line (line : Line) (address : Nat) :
    (table.addLine line.address line.name).symbols.find? address =
      (table.symbols.find? address).or
        (if line.address = address ∧ InRegion table.regionStart table.regionEnd line then
          some (line.name ++ [0]) else none) := by
  unfold addLine
  by_cases inside : InRegion table.regionStart table.regionEnd line
  · have within : table.regionStart ≤ line.address ∧ line.address ≤ table.regionEnd := inside
    rw [if_pos within]
    cases held : table.symbols.find? line.address with
    | some old =>
      rw [insert_of_some _ held]
      by_cases here : line.address = address
      · rw [← here, held]
        rfl
      · simp [here]
    | none =>
      rw [find_insert_of_none _ held]
      by_cases here : line.address = address
      · simp [← here, held, inside]
      · simp [here, Ne.symm here]
  · have outside : ¬(table.regionStart ≤ line.address ∧ line.address ≤ table.regionEnd) := inside
    simp [outside, inside]

theorem find_add_lines :
    (table.addLines lines).symbols.find? address =
      (table.symbols.find? address).or
        ((firstAt table.regionStart table.regionEnd lines address).map (·.name ++ [0])) := by
  induction lines generalizing table with
  | nil => simp [addLines, firstAt]
  | cons line others ih =>
    have next := ih (table.addLine line.address line.name)
    rw [add_line_start, add_line_end, find_add_line, Option.or_assoc] at next
    rw [addLines, List.foldl_cons]
    refine next.trans ?_
    congr 1
    unfold firstAt
    rw [find?_cons]
    by_cases here : line.address = address ∧ InRegion table.regionStart table.regionEnd line
    · simp [here]
    · simp [here]

end

theorem find_symbol_some_iff {table : SymbolTable} {address base : Nat} {name : List UInt8} :
    table.findSymbol address = some (name, base) ↔
      table.symbols.find? base = some name ∧ base ≤ address ∧
        ∀ other, (table.symbols.find? other).isSome → other ≤ address → other ≤ base := by
  rw [← forall_keys_iff (motive := fun other => other ≤ address → other ≤ base),
    ← find_node_or_lower_some_iff]
  unfold findSymbol
  cases table.symbols.findNodeOrLower address with
  | none => simp
  | some node => simp [Prod.ext_iff, and_comm]

theorem find_symbol_none_iff {table : SymbolTable} {address : Nat} :
    table.findSymbol address = none ↔
      ∀ other, (table.symbols.find? other).isSome → address < other := by
  rw [← forall_keys_iff, ← find_node_or_lower_none_iff]
  unfold findSymbol
  cases table.symbols.findNodeOrLower address with
  | none => simp
  | some node => simp

end SymbolTable

theorem first_at_is_some {regionStart regionEnd : Nat} {lines : List Line} {line : Line}
    (member : line ∈ lines) (inside : InRegion regionStart regionEnd line) :
    (firstAt regionStart regionEnd lines line.address).isSome := by
  unfold firstAt
  rw [find?_isSome]
  exact ⟨line, member, by simp [inside]⟩

/-! ## The whole chain -/

/-- The tool accepts every listing, the table then holds the first symbol listed at
each address of the region, and a search gives the nearest of them at or below. -/
theorem listing_loaded (lines : List Line) (regionStart regionEnd : Nat) :
    ∃ out, BuildSymbolTable.main (listing lines) = ⟨0, out, none⟩ ∧
      (∀ address,
        ((SymbolTable.forRegion regionStart regionEnd).fillFromRawStringData out).symbols.find?
            address =
          (firstAt regionStart regionEnd lines address).map (·.name ++ [0])) ∧
      ∀ address,
        match ((SymbolTable.forRegion regionStart regionEnd).fillFromRawStringData out).findSymbol
          address with
        | none => ∀ line ∈ lines, InRegion regionStart regionEnd line → address < line.address
        | some (name, base) =>
          base ≤ address ∧
            (∃ line, firstAt regionStart regionEnd lines base = some line ∧
              name = line.name ++ [0]) ∧
            ∀ line ∈ lines, InRegion regionStart regionEnd line → line.address ≤ address →
              line.address ≤ base := by
  have filled := SymbolTable.fill_printed (.forRegion regionStart regionEnd) lines
  have held : ∀ address,
      ((SymbolTable.forRegion regionStart regionEnd).addLines lines).symbols.find? address =
        (firstAt regionStart regionEnd lines address).map (·.name ++ [0]) :=
    fun address => SymbolTable.find_add_lines (.forRegion regionStart regionEnd) lines address
  have present : ∀ line ∈ lines, InRegion regionStart regionEnd line →
      (((SymbolTable.forRegion regionStart regionEnd).addLines lines).symbols.find?
        line.address).isSome := by
    intro line member inside
    rw [held, isSome_map]
    exact first_at_is_some member inside
  refine ⟨lines.flatMap Line.printed, BuildSymbolTable.run_listing lines (.inl rfl), ?_, ?_⟩
  · rw [filled]
    exact held
  · intro address
    rw [filled]
    cases search : ((SymbolTable.forRegion regionStart regionEnd).addLines lines).findSymbol
        address with
    | none =>
      intro line member inside
      exact SymbolTable.find_symbol_none_iff.mp search line.address (present line member inside)
    | some found =>
      rcases found with ⟨name, base⟩
      rcases SymbolTable.find_symbol_some_iff.mp search with ⟨stored, below, greatest⟩
      rw [held, map_eq_some_iff] at stored
      rcases stored with ⟨line, first, named⟩
      refine ⟨below, ⟨line, first, named.symm⟩, ?_⟩
      intro other member inside low
      exact greatest other.address (present other member inside) low

/-- The listing `5 t a`. -/
def lowLine : Line where
  digits := [53]
  letter := 116
  name := [97]
  digits_hex := all_eq_true.mp rfl
  digits_some := by decide
  digits_few := by decide
  letter_letter := by decide
  name_some := by decide
  name_ascii := by simp
  name_one_line := by decide

/-- A symbol below the region is not in the table, so a search above it finds
nothing although it is listed. -/
theorem symbol_outside_region_not_found :
    BuildSymbolTable.main (listing [lowLine]) = ⟨0, lowLine.printed, none⟩ ∧
      lowLine.address ≤ 7 ∧
      ((SymbolTable.forRegion 6 20).fillFromRawStringData lowLine.printed).findSymbol 7 = none :=
  ⟨rfl, by decide, rfl⟩

end FrostyKernel.Symbols
