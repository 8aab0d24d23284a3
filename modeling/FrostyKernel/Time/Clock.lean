import Mathlib.Tactic

/-!
# The real-time clock

`x86_64_CMOSGetTimeOfDay` decodes the registers of the clock, and `DaysSinceUnixEpoch`
counts the days in eras of 400 years that start in March. A signed overflow is undefined,
and there is no result then.
-/

namespace FrostyKernel.Time

open Finset

def int32? (value : Int) : Option Int :=
  if -2 ^ 31 ≤ value ∧ value < 2 ^ 31 then some value else none

def daysSinceUnixEpoch (year : Int) (month day : Nat) : Option Int := do
  let year ← int32? (year - if month ≤ 2 then 1 else 0)
  let dividend ← int32? (if 0 ≤ year then year else year - 399)
  let era := dividend.tdiv 400
  -- `yoe`, `doy` and `doe` are unsigned
  let yoe := (year - era * 400) % 2 ^ 32
  let doy := ((153 * (if month > 2 then month - 3 else month + 9) + 2) / 5 + day - 1 : Int) % 2 ^ 32
  let doe := (yoe * 365 + yoe / 4 - yoe / 100 + doy) % 2 ^ 32
  let first ← int32? (era * 146097)
  let days ← int32? (first + doe.bmod (2 ^ 32))
  int32? (days - 719468)

/-- The days of February, by the 4/100/400 rule. -/
def february (year : Int) : Nat :=
  if year % 4 = 0 ∧ (year % 100 ≠ 0 ∨ year % 400 = 0) then 29 else 28

def monthDays (year : Int) (month : Nat) : Nat :=
  if month = 2 then february year
  else if month = 4 ∨ month = 6 ∨ month = 9 ∨ month = 11 then 30
  else 31

/-- A date of the proleptic Gregorian calendar. -/
structure Date where
  year : Int
  month : Nat
  day : Nat
  inYear : 1 ≤ month ∧ month ≤ 12
  inMonth : 1 ≤ day ∧ day ≤ monthDays year month

theorem month_days_bounds (year : Int) (month : Nat) :
    1 ≤ monthDays year month ∧ monthDays year month ≤ 31 := by
  unfold monthDays february
  split_ifs <;> omega

namespace Date

def epoch : Date := ⟨1970, 1, 1, by decide, by decide⟩

def next (date : Date) : Date :=
  if within : date.day < monthDays date.year date.month then
    ⟨date.year, date.month, date.day + 1, date.inYear, by omega, within⟩
  else if early : date.month < 12 then
    ⟨date.year, date.month + 1, 1, by omega, le_rfl, (month_days_bounds _ _).1⟩
  else ⟨date.year + 1, 1, 1, by omega, le_rfl, by simp [monthDays]⟩

/-- The days from the epoch to the first of January, with 477 leap days before 1970. -/
def newYear (year : Int) : Int :=
  365 * (year - 1970) + (year - 1) / 4 - (year - 1) / 100 + (year - 1) / 400 - 477

/-- The days from the epoch to the date, negative before it. -/
def count (date : Date) : Int :=
  newYear date.year + ∑ month ∈ Ico 1 date.month, (monthDays date.year month : Int) + date.day - 1

theorem months_before (year : Int) {month : Nat} (january : 1 ≤ month) (last : month ≤ 12) :
    ∑ earlier ∈ Ico 1 month, (monthDays year earlier : Int) =
      if month ≤ 2 then 31 * (month - 1 : Int)
      else 31 + february year + (153 * (month - 3) + 2) / 5 := by
  induction month, january using Nat.le_induction with
  | base => rfl
  | succ month january ih =>
    rw [sum_Ico_succ_top january, ih (by omega)]
    have bound : month ≤ 11 := by omega
    interval_cases month <;> simp [monthDays] <;> omega

theorem new_year_succ (year : Int) : newYear (year + 1) = newYear year + 337 + february year := by
  simp only [newYear, february]
  split_ifs <;> omega

theorem count_next (date : Date) : date.next.count = date.count + 1 := by
  obtain ⟨year, month, day, inYear, first, last⟩ := date
  simp only [next]
  split_ifs with within early
  · simp only [count]
    omega
  · simp only [count, sum_Ico_succ_top inYear.1]
    omega
  · have december : month = 12 := by omega
    subst december
    have ends : day = 31 := by
      simp [monthDays] at within last
      omega
    simp only [count, new_year_succ, months_before year inYear.1 inYear.2, ends, Ico_self, sum_empty]
    omega

theorem count_iterate (date : Date) (steps : Nat) :
    (next^[steps] date).count = date.count + steps := by
  induction steps with
  | zero => simp
  | succ steps ih =>
    rw [Function.iterate_succ_apply', count_next, ih]
    omega

def marchYear (date : Date) : Int := date.year - if date.month ≤ 2 then 1 else 0

def dayOfYear (date : Date) : Int :=
  (153 * (if date.month > 2 then date.month - 3 else date.month + 9) + 2) / 5 + date.day - 1

theorem day_of_year_bounds (date : Date) : 0 ≤ date.dayOfYear ∧ date.dayOfYear ≤ 367 := by
  have first := date.inMonth.1
  have last := date.inMonth.2.trans (month_days_bounds _ _).2
  have inYear := date.inYear
  unfold dayOfYear
  split_ifs <;> omega

theorem count_march (date : Date) :
    date.count = date.marchYear / 400 * 146097 + (date.marchYear % 400 * 365 +
      date.marchYear % 400 / 4 - date.marchYear % 400 / 100 + date.dayOfYear) - 719468 := by
  obtain ⟨year, month, day, inYear, first, last⟩ := date
  have later := new_year_succ year
  simp only [count, marchYear, dayOfYear, months_before year inYear.1 inYear.2, newYear] at *
  split_ifs <;> omega

theorem era_eq (march : Int) :
    (if 0 ≤ march then march else march - 399).tdiv 400 = march / 400 := by
  rw [Int.tdiv_eq_ediv, show Int.sign 400 = 1 from rfl]
  split_ifs <;> omega

theorem days_eq (date : Date) (low : -2 ^ 31 ≤ date.count) (high : date.count + 719468 < 2 ^ 31) :
    daysSinceUnixEpoch date.year date.month date.day = some date.count := by
  have value := count_march date
  have bounds := day_of_year_bounds date
  have year : (date.marchYear - date.marchYear / 400 * 400) % 2 ^ 32 = date.marchYear % 400 := by
    omega
  have total : ((date.marchYear % 400 * 365 + date.marchYear % 400 / 4 -
      date.marchYear % 400 / 100 + date.dayOfYear % 2 ^ 32) % 2 ^ 32).bmod (2 ^ 32) =
        date.count + 719468 - date.marchYear / 400 * 146097 := by
    rw [Int.emod_eq_of_lt bounds.1 (by omega), Int.emod_eq_of_lt (by omega) (by omega),
      Int.bmod_eq_of_le (by omega) (by omega)]
    omega
  unfold daysSinceUnixEpoch
  change (int32? date.marchYear).bind _ = _
  rw [int32?, if_pos (by omega), Option.bind_some]
  change (int32? (if 0 ≤ date.marchYear then _ else _)).bind _ = _
  rw [int32?, if_pos (by split_ifs <;> omega), Option.bind_some, era_eq]
  change (int32? (date.marchYear / 400 * 146097)).bind _ = _
  rw [int32?, if_pos (by omega), Option.bind_some, year]
  change (int32? (_ + ((_ + date.dayOfYear % 2 ^ 32) % 2 ^ 32).bmod (2 ^ 32))).bind _ = _
  rw [total, int32?, if_pos (by omega), Option.bind_some, int32?, if_pos (by omega)]
  congr 1
  omega

/-- The days of the date and all intermediate results are values of `int32_t`. -/
def Fits (date : Date) : Prop := -2 ^ 31 ≤ date.count ∧ date.count + 719468 < 2 ^ 31

def days (date : Date) : Option Int := daysSinceUnixEpoch date.year date.month date.day

end Date

open Date

/-- The days are 0 on the epoch, one more on the next date, and those that `next` counts. -/
theorem days_since_unix_epoch_counts :
    epoch.days = some 0 ∧ ∀ date : Date, date.Fits →
      date.days = some date.count ∧
      (date.next.Fits → date.next.days = some (date.count + 1)) ∧
      ∀ steps : Nat, (next^[steps] epoch = date → date.days = some (steps : Int)) ∧
        (next^[steps] date = epoch → date.days = some (-steps : Int)) := by
  have zero : epoch.count = 0 := rfl
  have counted : ∀ date : Date, date.Fits → date.days = some date.count := by
    intro date fits
    exact days_eq date fits.1 fits.2
  refine ⟨counted epoch (by unfold Fits; decide), ?_⟩
  intro date fits
  refine ⟨counted date fits, ?_, ?_⟩
  · intro later
    rw [counted date.next later, count_next]
  · intro steps
    constructor
    · rintro rfl
      rw [counted _ fits, count_iterate, zero, zero_add]
    · intro reached
      have sum := count_iterate date steps
      rw [reached, zero] at sum
      rw [counted date fits]
      congr 1
      omega

/-! ## The registers -/

/-- The registers, and what `x86_64_InitCMOS` has found. -/
structure CMOS where
  hasCMOS : Bool
  centuryReg : Nat
  flags : Nat
  read : Nat → Nat

structure TimeOfDay where
  seconds : Nat
  minutes : Nat
  hours : Nat
  dayOfMonth : Nat
  month : Nat
  year : Nat

def fromBCD (value : Nat) : Nat := ((value &&& 0xf) + (value >>> 4) * 10) % 256

section
variable (cmos : CMOS) (flags : Nat)

def CMOS.readMaybeBCD (reg : Nat) : Nat :=
  if cmos.flags &&& 4 ≠ 0 then cmos.read reg else fromBCD (cmos.read reg)

def decodeHours (hours : Nat) : Nat :=
  if flags &&& 2 = 0 then
    let value := if flags &&& 4 = 0 then fromBCD (hours &&& 0x7F) else hours &&& 0x7F
    let value := value * (if hours &&& 0x80 ≠ 0 then 2 else 1) % 256
    if value = 24 then 0 else value
  else if flags &&& 4 = 0 then fromBCD hours
  else hours

/-- `x86_64_CMOSGetTimeOfDay` once no update is in progress. -/
def CMOS.getTimeOfDay : Option TimeOfDay :=
  if cmos.hasCMOS then
    let century := if cmos.centuryReg ≠ 0 then cmos.readMaybeBCD cmos.centuryReg else 20
    some ⟨cmos.readMaybeBCD 0, cmos.readMaybeBCD 2, decodeHours cmos.flags (cmos.read 4),
      cmos.readMaybeBCD 7, cmos.readMaybeBCD 8, cmos.readMaybeBCD 9 + century * 100⟩
  else none

def INT64_MAX : Int := 2 ^ 63 - 1

def CMOS.getUnixEpochTime : Option Int :=
  match cmos.getTimeOfDay with
  | none => some INT64_MAX
  | some time =>
    (daysSinceUnixEpoch time.year time.month time.dayOfMonth).map fun days =>
      days * 86400 + time.hours * 3600 + time.minutes * 60 + time.seconds

inductive Clock
  | realtime
  | monotonic
  | boottime
  | other

inductive Status
  | ESUCCESS
  | ENOSYS
  | EFAULT

structure Timespec where
  sec : Int
  nsec : Int

/-- The status and what is stored, given whether `UserWrite` succeeds. -/
def sysClockget (nsTicks : Nat) (userWrite : Bool) (clock : Clock) :
    Option (Status × Option Timespec) :=
  let store (time : Timespec) : Status × Option Timespec :=
    if userWrite then (.ESUCCESS, some time) else (.EFAULT, none)
  match clock with
  | .realtime =>
    match cmos.getUnixEpochTime with
    | none => none
    | some sec =>
      if sec = INT64_MAX then some (.ENOSYS, none)
      else if -2 ^ 63 ≤ sec * 1000000000 ∧ sec * 1000000000 < 2 ^ 63 then
        some (store ⟨sec, sec * 1000000000⟩)
      else none
  | .monotonic | .boottime =>
    let nsec := (nsTicks : Int).bmod (2 ^ 64)
    some (store ⟨nsec.tdiv 1000000000, nsec⟩)
  | .other => some (.ENOSYS, none)

structure Instant where
  date : Date
  hour : Nat
  minute : Nat
  second : Nat
  inDay : hour < 24 ∧ minute < 60 ∧ second < 60

variable (instant : Instant)

def Instant.unixTime : Int :=
  instant.date.count * 86400 + instant.hour * 3600 + instant.minute * 60 + instant.second

def encode (value : Nat) : Nat :=
  if flags &&& 4 ≠ 0 then value else value / 10 * 16 + value % 10

/-- The 12-hour clock has the hours 12, 1, …, 11 and a flag in the afternoon. -/
def encodeHours (hour : Nat) : Nat :=
  if flags &&& 2 ≠ 0 then encode flags hour
  else encode flags ((hour + 11) % 12 + 1) + if hour < 12 then 0 else 0x80

structure CMOS.Encodes : Prop where
  present : cmos.hasCMOS = true
  century : cmos.centuryReg ≠ 0 ∧
    cmos.read cmos.centuryReg = encode cmos.flags (instant.date.year / 100).toNat
  year : cmos.read 9 = encode cmos.flags (instant.date.year % 100).toNat
  month : cmos.read 8 = encode cmos.flags instant.date.month
  day : cmos.read 7 = encode cmos.flags instant.date.day
  hours : cmos.read 4 = encodeHours cmos.flags instant.hour
  minutes : cmos.read 2 = encode cmos.flags instant.minute
  seconds : cmos.read 0 = encode cmos.flags instant.second

end

theorem read_encoded {cmos : CMOS} {reg value : Nat} (small : value < 100)
    (encoded : cmos.read reg = encode cmos.flags value) : cmos.readMaybeBCD reg = value := by
  have decoded : ∀ value < 100, fromBCD (value / 10 * 16 + value % 10) = value := by decide
  rw [CMOS.readMaybeBCD, encoded, encode]
  split_ifs with binary
  · rfl
  · exact decoded value small

theorem hours_right_iff (flags : Nat) {hour : Nat} (valid : hour < 24) :
    decodeHours flags (encodeHours flags hour) = hour ↔ flags &&& 2 ≠ 0 ∨ 1 ≤ hour ∧ hour ≤ 11 := by
  by_cases full : flags &&& 2 = 0 <;> by_cases binary : flags &&& 4 = 0 <;>
    interval_cases hour <;> simp [decodeHours, encodeHours, encode, fromBCD, full, binary]

theorem count_bounds (date : Date) (years : 1970 ≤ date.year ∧ date.year ≤ 9999) :
    0 ≤ date.count ∧ date.count < 2 ^ 30 := by
  have first := date.inMonth.1
  have last := date.inMonth.2.trans (month_days_bounds _ _).2
  have inYear := date.inYear
  have february := (month_days_bounds date.year 2).2
  simp only [count, newYear, months_before date.year inYear.1 inYear.2]
  simp only [monthDays, if_true] at february
  split_ifs <;> omega

section Encoded
variable {cmos : CMOS} {instant : Instant} (encoded : cmos.Encodes instant)
  (years : 1970 ≤ instant.date.year ∧ instant.date.year ≤ 9999)
include encoded years

/-- Everything but the hours is read as it was encoded. -/
theorem unix_epoch_time_eq :
    cmos.getUnixEpochTime = some (instant.date.count * 86400 +
      decodeHours cmos.flags (encodeHours cmos.flags instant.hour) * 3600 +
      instant.minute * 60 + instant.second) := by
  have bounds := count_bounds instant.date years
  have counted := days_eq instant.date (by omega) (by omega)
  have inYear := instant.date.inYear
  have short := instant.date.inMonth.2.trans (month_days_bounds _ _).2
  obtain ⟨_, minute, second⟩ := instant.inDay
  have written : ((instant.date.year % 100).toNat + (instant.date.year / 100).toNat * 100 : Nat) =
      instant.date.year := by omega
  simp only [CMOS.getUnixEpochTime, CMOS.getTimeOfDay, encoded.present, if_true,
    if_pos encoded.century.1, encoded.hours, read_encoded (by omega) encoded.seconds,
    read_encoded (by omega) encoded.minutes, read_encoded (by omega) encoded.day,
    read_encoded (by omega) encoded.month, read_encoded (by omega) encoded.year,
    read_encoded (by omega) encoded.century.2, written, counted, Option.map_some]

/-- The hours of a 12-hour clock are right from 1 to 11 only, and the nanoseconds of
`sys_clockget` are those since the epoch. -/
theorem realtime_clock_right_iff (nsTicks : Nat) :
    (cmos.getUnixEpochTime = some instant.unixTime ↔
      cmos.flags &&& 2 ≠ 0 ∨ 1 ≤ instant.hour ∧ instant.hour ≤ 11) ∧
    ((cmos.getUnixEpochTime = some instant.unixTime ∧
      ∃ nsec, sysClockget cmos nsTicks true .realtime =
        some (.ESUCCESS, some ⟨instant.unixTime, nsec⟩) ∧ 0 ≤ nsec ∧ nsec < 1000000000) ↔
      cmos.flags &&& 2 ≠ 0 ∧ instant.unixTime = 0) := by
  have value := unix_epoch_time_eq encoded years
  have right : cmos.getUnixEpochTime = some instant.unixTime ↔
      cmos.flags &&& 2 ≠ 0 ∨ 1 ≤ instant.hour ∧ instant.hour ≤ 11 := by
    rw [value, ← hours_right_iff cmos.flags instant.inDay.1, Option.some.injEq, Instant.unixTime]
    omega
  refine ⟨right, ?_, ?_⟩
  · rintro ⟨known, nsec, stored, low, high⟩
    simp only [sysClockget, known] at stored
    split_ifs at stored
    · cases stored
    · cases stored
      have start : instant.unixTime = 0 := by omega
      have nonneg := (count_bounds instant.date years).1
      rcases right.mp known with full | morning
      · exact ⟨full, start⟩
      · unfold Instant.unixTime at start
        omega
  · rintro ⟨full, start⟩
    have known := right.mpr (.inl full)
    refine ⟨known, 0, ?_, le_rfl, by norm_num⟩
    simp only [sysClockget, known, start]
    rfl

end Encoded

/-- The registers of a BCD clock at noon of 1970-01-01, with the century in register 50. -/
def noonCMOS (flags hours : Nat) : CMOS :=
  ⟨true, 50, flags, fun reg =>
    if reg = 4 then hours else if reg = 7 ∨ reg = 8 then 1 else if reg = 9 then 0x70
    else if reg = 50 then 0x19 else 0⟩

def noon : Instant := ⟨epoch, 12, 0, 0, by decide⟩

theorem noon_read_in_24_hours : (noonCMOS 2 0x12).getUnixEpochTime = some noon.unixTime :=
  (realtime_clock_right_iff (by constructor <;> decide) (by decide) 0).1.mpr (by decide)

theorem noon_misread :
    ((noonCMOS 0 0x92).Encodes noon ∧ (noonCMOS 0 0x92).getUnixEpochTime = some 0) ∧
    (noonCMOS 2 0x12).Encodes noon ∧ sysClockget (noonCMOS 2 0x12) 0 true .realtime =
      some (.ESUCCESS, some ⟨43200, 43200000000000⟩) := by
  refine ⟨⟨?_, rfl⟩, ?_, rfl⟩ <;> constructor <;> decide

end FrostyKernel.Time
