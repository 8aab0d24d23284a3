import Mathlib.Tactic

/-!
# Strings that end with a zero byte

A string is the list of the bytes before its terminator, and a pointer into it is
the suffix it points to. A buffer is a list of bytes of fixed length; a write that
does not fit in it has no result.
-/

namespace FrostyKernel.CString

open List

def cString (buffer : List UInt8) : List UInt8 := buffer.takeWhile (· ≠ 0)

/-- `strchr`: the suffix that starts with the first occurrence. -/
def strchr (wanted : UInt8) : List UInt8 → Option (List UInt8)
  | [] => none
  | byte :: rest => if byte = wanted then some (byte :: rest) else strchr wanted rest

/-- `strrchr`: what stands before the last occurrence and what stands behind it. -/
def strrchr (wanted : UInt8) : List UInt8 → Option (List UInt8 × List UInt8)
  | [] => none
  | byte :: rest =>
    match strrchr wanted rest with
    | some (before, after) => some (byte :: before, after)
    | none => if byte = wanted then some ([], rest) else none

def put (buffer : List UInt8) (index : Nat) (bytes : List UInt8) : Option (List UInt8) :=
  if index + bytes.length ≤ buffer.length then
    some (buffer.take index ++ bytes ++ buffer.drop (index + bytes.length))
  else none

variable {buffer text : List UInt8} {index : Nat} {wanted : UInt8}

theorem cstring_append (rest : List UInt8) (noZero : 0 ∉ text) :
    cString (text ++ 0 :: rest) = text := by
  unfold cString
  rw [takeWhile_append_of_pos]
  · simp
  · intro byte member
    have nonzero : byte ≠ 0 := fun same => noZero (same ▸ member)
    simpa using nonzero

theorem strchr_none (absent : wanted ∉ text) : strchr wanted text = none := by
  induction text with
  | nil => rfl
  | cons byte rest ih =>
    rw [mem_cons, not_or] at absent
    rw [strchr, if_neg (Ne.symm absent.1)]
    exact ih absent.2

theorem strchr_append (rest : List UInt8) (absent : wanted ∉ text) :
    strchr wanted (text ++ wanted :: rest) = some (wanted :: rest) := by
  induction text with
  | nil => simp [strchr]
  | cons byte others ih =>
    rw [mem_cons, not_or] at absent
    rw [cons_append, strchr, if_neg (Ne.symm absent.1)]
    exact ih absent.2

theorem strchr_suffix {found : List UInt8} (search : strchr wanted text = some found) :
    ∃ rest, found = wanted :: rest ∧ rest.length < text.length := by
  induction text with
  | nil => cases search
  | cons byte others ih =>
    rw [strchr] at search
    split at search
    · rename_i here
      cases search
      exact ⟨others, by rw [here], Nat.lt_succ_self _⟩
    · rcases ih search with ⟨rest, starts, shorter⟩
      exact ⟨rest, starts, Nat.lt_succ_of_lt shorter⟩

theorem strrchr_none (absent : wanted ∉ text) : strrchr wanted text = none := by
  induction text with
  | nil => rfl
  | cons byte rest ih =>
    rw [mem_cons, not_or] at absent
    rw [strrchr, ih absent.2]
    simp [Ne.symm absent.1]

theorem strrchr_append (before : List UInt8) {after : List UInt8} (absent : wanted ∉ after) :
    strrchr wanted (before ++ wanted :: after) = some (before, after) := by
  induction before with
  | nil => simp [strrchr, strrchr_none absent]
  | cons byte rest ih => rw [cons_append, strrchr, ih]

theorem put_some {bytes : List UInt8} (fits : index + bytes.length ≤ buffer.length) :
    put buffer index bytes =
      some (buffer.take index ++ bytes ++ buffer.drop (index + bytes.length)) :=
  if_pos fits

theorem put_before {suffix : List UInt8} (bytes : List UInt8)
    (inside : index + bytes.length ≤ buffer.length)
    (behind : buffer.drop (index + bytes.length) = suffix) :
    ∃ after, put buffer index bytes = some after ∧ after.length = buffer.length ∧
      after.drop index = bytes ++ suffix := by
  refine ⟨_, put_some inside, ?_, ?_⟩
  · simp only [length_append, length_take, length_drop]
    omega
  · have front : (buffer.take index).length = index := by
      rw [length_take]
      omega
    rw [append_assoc, drop_append_of_le_length (le_of_eq front.symm),
      drop_of_length_le (le_of_eq front), nil_append, behind]

end FrostyKernel.CString
