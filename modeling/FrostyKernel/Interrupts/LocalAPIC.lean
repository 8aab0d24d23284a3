import FrostyKernel.Lib.Word

/-!
# The timer of the local APIC

`InitTimer` measures the period of the timer against the HPET unless it is known, chooses a
divisor, and writes the divide configuration and the initial count.
-/

namespace FrostyKernel.APIC

open Word Option

def lapicTimerPeriod : Nat := 2000000000

def hpetWaitNS : Nat := 10000000

def lapicDivisorLookup : List (BitVec 32) :=
  [0b1011, 0b0000, 0b0001, 0b0010, 0b0011, 0b1000, 0b1001, 0b1010]

/-- The fields of the timer and its registers, with the periods in picoseconds. -/
structure LAPIC where
  timerPeriod : Nat
  timerTicks : Nat
  timerDivisor : Nat
  divideConfig : BitVec 32
  lvtTimer : BitVec 32
  initialCount : Nat
deriving DecidableEq

/-- No result when the division traps. -/
def divide? (value divisor : Nat) : Option Nat :=
  if divisor = 0 then none else some (value / divisor)

namespace LAPIC

section
variable (lapic : LAPIC) (hpet : Option Nat) (reading : BitVec 32)

/-- The measurement. `reading` is what the timer has counted down to after the wait. -/
def calibrate : Option (Bool × LAPIC) :=
  match hpet with
  | none => some (false, lapic)
  | some hpetPeriod =>
    (divide? (hpetWaitNS * 1000000) (hpetPeriod % 2 ^ 32)).bind fun _ =>
      let counted := { lapic with
        divideConfig := lapic.divideConfig ||| 0xB
        lvtTimer := (lapic.lvtTimer &&& ~~~0x60000) ||| 0x10000
        initialCount := 0 }
      if reading = 0 ∨ reading = BitVec.allOnes 32 then some (false, counted)
      else
        (divide? (hpetWaitNS * 1000) (2 ^ 32 - 1 - reading.toNat)).bind fun period =>
          (divide? 1000000000000 period).bind fun freq =>
            (divide? 1000000000000 (alignUp freq 100000)).map fun timerPeriod =>
              (true, { counted with timerPeriod })

/-- The loop over the divisors. -/
def findDivisor (timerPeriod : Nat) : Nat → Nat
  | 0 => 0
  | divisor + 1 =>
    if 2 ^ (divisor + 1) * timerPeriod ≤ lapicTimerPeriod then divisor + 1
    else findDivisor timerPeriod divisor

/-- The part behind the measurement. -/
def program : Option (Bool × LAPIC) :=
  if lapicTimerPeriod < lapic.timerPeriod then some (false, lapic)
  else
    let divisor := findDivisor lapic.timerPeriod 7
    (divide? lapicTimerPeriod (lapic.timerPeriod * 2 ^ divisor)).map fun ticks =>
      (true, { lapic with
        timerDivisor := 2 ^ divisor
        timerTicks := ticks
        divideConfig := (lapic.divideConfig &&& 0xB) ||| lapicDivisorLookup.getD divisor 0
        lvtTimer := (lapic.lvtTimer &&& ~~~0x700FF) ||| (0x20000 ||| 0xFE)
        initialCount := ticks })

def initTimer : Option (Bool × LAPIC) :=
  if lapic.timerPeriod = 0 then
    (lapic.calibrate hpet reading).bind fun (ready, measured) =>
      if ready then measured.program else some (false, measured)
  else lapic.program

/-- The divide encoding of the manual, in the bits 3, 1 and 0. -/
def divideShift (config : BitVec 32) : Nat :=
  (4 * (config.getLsbD 3).toNat + 2 * (config.getLsbD 1).toNat + (config.getLsbD 0).toNat + 1) % 8

/-- The timer fires with a period of at most `lapicTimerPeriod`, short of it by less than
one tick of the divided clock. -/
def Timed : Prop :=
  let fires := lapic.initialCount * (lapic.timerPeriod * 2 ^ divideShift lapic.divideConfig)
  lapicTimerPeriod < fires + lapic.timerPeriod * lapic.timerDivisor ∧
    fires ≤ lapicTimerPeriod ∧ 0 < lapic.initialCount ∧ lapic.initialCount < 2 ^ 32

/-- The bits 3, 1 and 0 of the divide configuration, as a number. -/
def divideCode : Nat :=
  4 * (lapic.divideConfig.getLsbD 3).toNat + 2 * (lapic.divideConfig.getLsbD 1).toNat +
    (lapic.divideConfig.getLsbD 0).toNat

/-- The greatest divisor up to 128 that fits is encoded by `code`. The old bits of the register
stay set beside it, which is harmless if they are among its bits. With all three bits set the
clock is divided by 1, which is near enough if a single tick of the divided clock fits. -/
def Divides : Prop :=
  ∃ exponent ≤ 7, lapic.timerPeriod * 2 ^ exponent ≤ lapicTimerPeriod ∧
    (exponent = 7 ∨ lapicTimerPeriod < lapic.timerPeriod * 2 ^ (exponent + 1)) ∧
    let code := (exponent + 7) % 8
    (lapic.divideCode ||| code = code ∨ lapic.divideCode ||| code = 7 ∧
      lapicTimerPeriod < lapic.timerPeriod * (2 ^ exponent + 1))

end

variable {lapic : LAPIC}

theorem find_divisor_fits {timerPeriod : Nat} (fast : timerPeriod ≤ lapicTimerPeriod)
    (bound : Nat) : timerPeriod * 2 ^ findDivisor timerPeriod bound ≤ lapicTimerPeriod := by
  induction bound with
  | zero => simpa [findDivisor] using fast
  | succ divisor ih =>
    unfold findDivisor
    split_ifs with fits
    · rwa [Nat.mul_comm]
    · exact ih

/-- The loop stops at the greatest divisor that fits. -/
theorem find_divisor_greatest (timerPeriod bound : Nat) :
    findDivisor timerPeriod bound = bound ∨ findDivisor timerPeriod bound < bound ∧
      lapicTimerPeriod < timerPeriod * 2 ^ (findDivisor timerPeriod bound + 1) := by
  induction bound with
  | zero => exact .inl rfl
  | succ divisor ih =>
    unfold findDivisor
    split_ifs with fits
    · exact .inl rfl
    · rw [Nat.mul_comm, not_le] at fits
      rcases ih with same | ⟨less, greatest⟩
      · rw [same]
        exact .inr ⟨divisor.lt_succ_self, fits⟩
      · exact .inr ⟨Nat.lt_succ_of_lt less, greatest⟩

theorem exponent_unique {timerPeriod divisor exponent : Nat} (bound : exponent ≤ 7)
    (fits : timerPeriod * 2 ^ exponent ≤ lapicTimerPeriod)
    (greatest : exponent = 7 ∨ lapicTimerPeriod < timerPeriod * 2 ^ (exponent + 1))
    (found : findDivisor timerPeriod 7 = divisor)
    (small : timerPeriod * 2 ^ divisor ≤ lapicTimerPeriod) : exponent = divisor := by
  have window := find_divisor_greatest timerPeriod 7
  rw [found] at window
  have grows : ∀ {i j : Nat}, i ≤ j → timerPeriod * 2 ^ i ≤ timerPeriod * 2 ^ j := fun less =>
    Nat.mul_le_mul_left _ (Nat.pow_le_pow_right (by decide) less)
  rcases lt_trichotomy exponent divisor with less | same | more
  · have above := grows (Nat.succ_le_of_lt less)
    rw [Nat.succ_eq_add_one] at above
    omega
  · exact same
  · have above := grows (Nat.succ_le_of_lt more)
    rw [Nat.succ_eq_add_one] at above
    omega

theorem pow_apart (period i j : Nat) : period * 2 ^ i = period * 2 ^ j ∨
    2 * (period * 2 ^ i) ≤ period * 2 ^ j ∨ 2 * (period * 2 ^ j) ≤ period * 2 ^ i := by
  have doubled : ∀ {i j : Nat}, i < j → 2 * (period * 2 ^ i) ≤ period * 2 ^ j := by
    intro i j less
    rw [Nat.mul_left_comm, ← Nat.pow_succ']
    exact Nat.mul_le_mul_left _ (Nat.pow_le_pow_right (by decide) less)
  rcases lt_trichotomy i j with less | rfl | more
  · exact .inr (.inl (doubled less))
  · exact .inl rfl
  · exact .inr (.inr (doubled more))

/-- The count is right for `chosen`; the clock is divided by `left`. -/
theorem count_fires_iff {chosen left total : Nat} (fits : chosen ≤ total) (positive : 0 < chosen)
    (apart : left = chosen ∨ 2 * left ≤ chosen ∨ 2 * chosen ≤ left) :
    total < total / chosen * left + chosen ∧ total / chosen * left ≤ total ↔
      left = chosen ∨ left < chosen ∧ total < chosen + left := by
  have low := Nat.div_mul_le_self total chosen
  have high := Nat.lt_div_mul_add positive (a := total)
  have some : 0 < total / chosen := Nat.div_pos fits positive
  generalize total / chosen = ticks at *
  rcases apart with rfl | less | more
  · exact iff_of_true ⟨high, low⟩ (.inl rfl)
  · have product := Nat.mul_le_mul_left ticks less
    rw [Nat.mul_left_comm] at product
    rcases Nat.lt_or_ge 1 ticks with several | single
    · have twice := Nat.mul_le_mul_right chosen several
      omega
    · obtain rfl : ticks = 1 := by omega
      omega
  · have product := Nat.mul_le_mul_left ticks more
    have once := Nat.le_mul_of_pos_left chosen some
    rw [Nat.mul_left_comm] at product
    omega

theorem divide_code_lt (lapic : LAPIC) : lapic.divideCode < 8 := by
  unfold divideCode
  have three := Bool.toNat_le (lapic.divideConfig.getLsbD 3)
  have one := Bool.toNat_le (lapic.divideConfig.getLsbD 1)
  have zero := Bool.toNat_le (lapic.divideConfig.getLsbD 0)
  omega

/-- The entries of the table encode their divisors, and the mask keeps the old bits. -/
theorem divide_shift_left {divisor : Nat} (bound : divisor ≤ 7) :
    divideShift ((lapic.divideConfig &&& 0xB) ||| lapicDivisorLookup.getD divisor 0) =
      ((lapic.divideCode ||| (divisor + 7) % 8) + 1) % 8 := by
  unfold divideShift divideCode
  simp only [BitVec.getLsbD_or, BitVec.getLsbD_and]
  generalize lapic.divideConfig.getLsbD 3 = three
  generalize lapic.divideConfig.getLsbD 1 = one
  generalize lapic.divideConfig.getLsbD 0 = zero
  interval_cases divisor <;> revert three one zero <;> decide

/-- Old bits beside the code make the divisor greater, or 1 if all three bits are set. -/
theorem code_cases : ∀ old < 8, ∀ exponent ≤ 7,
    (old ||| (exponent + 7) % 8 = (exponent + 7) % 8 ∧
      ((old ||| (exponent + 7) % 8) + 1) % 8 = exponent) ∨
    (old ||| (exponent + 7) % 8 ≠ (exponent + 7) % 8 ∧ 0 < exponent ∧
      (old ||| (exponent + 7) % 8 = 7 ∧ ((old ||| (exponent + 7) % 8) + 1) % 8 = 0 ∨
        old ||| (exponent + 7) % 8 ≠ 7 ∧
          exponent < ((old ||| (exponent + 7) % 8) + 1) % 8)) := by
  decide

theorem divides_iff (known : lapic.timerPeriod ≠ 0) (fast : lapic.timerPeriod ≤ lapicTimerPeriod) :
    lapic.Divides ↔
      let divisor := findDivisor lapic.timerPeriod 7
      let chosen := lapic.timerPeriod * 2 ^ divisor
      let left := lapic.timerPeriod *
        2 ^ divideShift ((lapic.divideConfig &&& 0xB) ||| lapicDivisorLookup.getD divisor 0)
      left = chosen ∨ left < chosen ∧ lapicTimerPeriod < chosen + left := by
  have fits := find_divisor_fits fast 7
  have window := find_divisor_greatest lapic.timerPeriod 7
  generalize found : findDivisor lapic.timerPeriod 7 = divisor at fits window ⊢
  have bound : divisor ≤ 7 := by omega
  have unique : lapic.Divides ↔ lapic.divideCode ||| (divisor + 7) % 8 = (divisor + 7) % 8 ∨
      lapic.divideCode ||| (divisor + 7) % 8 = 7 ∧
        lapicTimerPeriod < lapic.timerPeriod * (2 ^ divisor + 1) := by
    constructor
    · rintro ⟨exponent, small, low, high, right⟩
      rwa [exponent_unique small low high found fits] at right
    · intro right
      exact ⟨divisor, bound, fits, by omega, right⟩
  have grows : ∀ {i j : Nat}, i < j → lapic.timerPeriod * 2 ^ i < lapic.timerPeriod * 2 ^ j :=
    fun less => Nat.mul_lt_mul_of_pos_left (Nat.pow_lt_pow_right (by decide) less) (by omega)
  dsimp only
  rw [unique, divide_shift_left bound, Nat.mul_add]
  rcases code_cases _ (divide_code_lt lapic) divisor bound with
    ⟨same, shift⟩ | ⟨other, positive, ⟨full, shift⟩ | ⟨partly, more⟩⟩
  · rw [shift]
    simp [same]
  · have less := grows positive
    rw [shift]
    simp only [full, Nat.pow_zero, Nat.mul_one, true_and] at other less ⊢
    omega
  · have above := grows more
    simp only [other, partly, false_and, or_false, false_iff]
    omega

theorem program_timed_iff (known : lapic.timerPeriod ≠ 0) :
    (∃ result, lapic.program = some result ∧ (result.1 = true → result.2.Timed)) ↔
      lapicTimerPeriod < lapic.timerPeriod ∨ lapic.Divides := by
  unfold program
  split_ifs with slow
  · simp [slow]
  rw [divides_iff known (not_lt.mp slow)]
  have fits := find_divisor_fits (not_lt.mp slow) 7
  have positive : 0 < lapic.timerPeriod * 2 ^ findDivisor lapic.timerPeriod 7 := by positivity
  have counted := fun shift => count_fires_iff fits positive (pow_apart _ shift _)
  have nonzero := Nat.div_pos fits positive
  have small : ∀ divisor, lapicTimerPeriod / divisor < 2 ^ 32 := fun divisor =>
    (Nat.div_le_self _ divisor).trans_lt (by decide)
  have done : divide? lapicTimerPeriod _ = some _ := if_neg positive.ne'
  simp only [done, map_some, some.injEq, exists_eq_left', forall_const, Timed, nonzero,
    small, and_true, slow, false_or, counted]

theorem divide_between (value : Nat) {low high divisor : Nat} (positive : 0 < low)
    (above : low ≤ divisor) (below : divisor ≤ high) :
    ∃ quotient, divide? value divisor = some quotient ∧ value / high ≤ quotient ∧
      quotient ≤ value / low := by
  have nonzero : divisor ≠ 0 := by omega
  exact ⟨_, if_neg nonzero, Nat.div_le_div_left below (by omega),
    Nat.div_le_div_left above positive⟩

theorem calibrate_measures {hpetPeriod : Nat} {reading : BitVec 32}
    (ticks : hpetPeriod % 2 ^ 32 ≠ 0) (counting : ¬ (reading = 0 ∨ reading = BitVec.allOnes 32)) :
    ∃ measured, lapic.calibrate (some hpetPeriod) reading = some (true, measured) ∧
      0 < measured.timerPeriod ∧ measured.timerPeriod ≤ 10000000 ∧
      measured.divideConfig = lapic.divideConfig ||| 0xB := by
  have bounds : 1 ≤ 2 ^ 32 - 1 - reading.toNat ∧ 2 ^ 32 - 1 - reading.toNat ≤ 2 ^ 32 - 2 := by
    simp only [← BitVec.toNat_inj] at counting
    simp at counting
    omega
  obtain ⟨period, first, slow, fast⟩ :=
    divide_between (hpetWaitNS * 1000) (by decide) bounds.1 bounds.2
  obtain ⟨freq, second, low, high⟩ := divide_between 1000000000000 (by decide) slow fast
  have aligned : 100000 ≤ alignUp freq 100000 ∧ alignUp freq 100000 ≤ 500000000000 := by
    rw [alignUp_of_lt (by decide)] <;> simp [hpetWaitNS] at low high <;> omega
  obtain ⟨timerPeriod, third, least, most⟩ :=
    divide_between 1000000000000 (by decide) aligned.1 aligned.2
  obtain ⟨_, waited, _⟩ := divide_between (hpetWaitNS * 1000000) (by decide)
    (Nat.pos_of_ne_zero ticks) le_rfl
  rw [calibrate, waited, bind_some, if_neg counting, first, bind_some, second,
    bind_some, third, map_some]
  exact ⟨_, rfl, Nat.lt_of_lt_of_le (by decide) least, most, rfl⟩

/-- The configuration of the measurement divides by 1, and its bits stay in the register. -/
theorem init_timer_timed_iff (lapic : LAPIC) (hpet : Option Nat) (reading : BitVec 32) :
    (∃ result, lapic.initTimer hpet reading = some result ∧
      (result.1 = true → result.2.Timed)) ↔
    if lapic.timerPeriod = 0 then
      hpet = none ∨ (∃ period, hpet = some period ∧ period % 2 ^ 32 ≠ 0) ∧
        (reading = 0 ∨ reading = BitVec.allOnes 32)
    else lapicTimerPeriod < lapic.timerPeriod ∨ lapic.Divides := by
  unfold initTimer
  split_ifs with unknown
  · cases hpet with
    | none => simp [calibrate]
    | some period =>
      by_cases zero : period % 2 ^ 32 = 0
      · simp only [calibrate, divide?, if_pos zero, bind_none]
        simp_all
      by_cases ended : reading = 0 ∨ reading = BitVec.allOnes 32
      · simp only [calibrate, divide?, if_neg zero, bind_some, if_pos ended]
        simp_all
      obtain ⟨measured, done, positive, fast, config⟩ := @calibrate_measures lapic _ _ zero ended
      have kept : measured.divideCode = 7 := by simp [divideCode, config]
      -- the divisor is 128, and the three bits that stay set mean 1
      have wrong : ¬ measured.Divides := by
        rintro ⟨exponent, bound, _, greatest, code⟩
        rw [kept] at code
        simp only [lapicTimerPeriod] at greatest code
        interval_cases exponent <;> simp at greatest code <;> omega
      have slow : ¬ lapicTimerPeriod < measured.timerPeriod := by
        simp only [lapicTimerPeriod]
        omega
      simp only [done, bind_some, if_true, program_timed_iff positive.ne', slow, wrong, ended]
      simp
  · exact program_timed_iff unknown

/-- After a measurement the timer fires 128 times too often. -/
theorem calibrated_timer_fast :
    ∃ result, initTimer ⟨0, 0, 0, 0, 0, 0⟩ (some 69841279) 4293967295 = some (true, result) ∧
      result.initialCount * result.timerPeriod = 15620000 ∧ ¬ result.Timed := by
  refine ⟨⟨10000, 1562, 128, 0xB, 0x200FE, 1562⟩, by decide +kernel, rfl, ?_⟩
  intro timed
  exact absurd timed.1 (by decide)

end LAPIC
end FrostyKernel.APIC
