import Mathlib.Tactic

/-!
# Machine words as natural numbers

Sixty-four bit words are natural numbers below `2 ^ 64`. Every operator that
can wrap takes the remainder explicitly, and one lemma for each operator says
when the remainder does nothing.
-/

namespace FrostyKernel.Word

section
variable (left value right align : Nat)

def add64 : Nat := (left + right) % 2 ^ 64

def sub64 : Nat := (left + (2 ^ 64 - right % 2 ^ 64)) % 2 ^ 64

def mul64 : Nat := left * right % 2 ^ 64

def shl64 (shift : Nat) : Nat := value * 2 ^ shift % 2 ^ 64

def alignDown : Nat := value / align * align

def divRoundup (div : Nat) : Nat := add64 value (div - 1) / div

def alignUp : Nat := mul64 (divRoundup value align) align

theorem mul64_lt : mul64 left right < 2 ^ 64 := Nat.mod_lt _ (by norm_num)

end

variable {align left right value : Nat}

theorem add64_of_lt (bound : left + right < 2 ^ 64) : add64 left right = left + right :=
  Nat.mod_eq_of_lt bound

theorem sub64_of_le (leftBound : left < 2 ^ 64) (order : right ≤ left) :
    sub64 left right = left - right := by
  unfold sub64
  omega

theorem mul64_of_lt (bound : left * right < 2 ^ 64) : mul64 left right = left * right :=
  Nat.mod_eq_of_lt bound

theorem shl64_of_lt {shift : Nat} (bound : value * 2 ^ shift < 2 ^ 64) :
    shl64 value shift = value * 2 ^ shift :=
  Nat.mod_eq_of_lt bound

theorem alignDown_dvd (value align : Nat) : align ∣ alignDown value align := dvd_mul_left align _

theorem alignUp_dvd (value : Nat) (power : align ∣ 2 ^ 64) : align ∣ alignUp value align :=
  (Nat.dvd_mod_iff power).mpr (dvd_mul_left align _)

theorem alignUp_of_lt (positive : 0 < align) (bound : value + align ≤ 2 ^ 64) :
    alignUp value align = (value + (align - 1)) / align * align := by
  have sum : add64 value (align - 1) = value + (align - 1) := add64_of_lt (by omega)
  have below : (value + (align - 1)) / align * align ≤ value + (align - 1) :=
    Nat.div_mul_le_self _ _
  unfold alignUp divRoundup
  rw [sum, mul64_of_lt (by omega)]

end FrostyKernel.Word
