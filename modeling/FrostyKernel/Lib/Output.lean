import Mathlib.Tactic
import Mathlib.Data.List.GetD

/-!
# Output of characters

Characters go to a sink, which is any state with an operation that takes one
character. A stream keeps all of them; a buffer keeps as many as its limit allows,
at the front of a memory. The buffer is the image of the stream, so a program that
uses its sink through this operation only does the same on both.
-/

namespace FrostyKernel.Output

open List

def stream (out : List UInt8) (c : UInt8) : List UInt8 := out ++ [c]

/-- A memory and the number of characters in it. -/
structure Buffer where
  memory : Nat → UInt8
  size : Nat

def Buffer.put (limit : Nat) (buffer : Buffer) (c : UInt8) : Buffer :=
  if buffer.size < limit then ⟨Function.update buffer.memory buffer.size c, buffer.size + 1⟩
  else buffer

def Buffer.filled (limit : Nat) (memory : Nat → UInt8) (out : List UInt8) : Buffer :=
  out.foldl (Buffer.put limit) ⟨memory, 0⟩

variable (limit : Nat) (memory : Nat → UInt8) (out : List UInt8)

theorem filled_stream (c : UInt8) :
    Buffer.filled limit memory (stream out c) = (Buffer.filled limit memory out).put limit c := by
  simp [Buffer.filled, stream, foldl_append]

theorem filled_size : (Buffer.filled limit memory out).size = min limit out.length := by
  induction out using List.reverseRecOn with
  | nil => simp [Buffer.filled]
  | append_singleton out c ih =>
    have next := filled_stream limit memory out c
    rw [stream] at next
    rw [next, Buffer.put, length_append, length_singleton]
    split
    · rename_i room
      simp only
      omega
    · omega

theorem filled_memory (index : Nat) :
    (Buffer.filled limit memory out).memory index =
      if index < min limit out.length then out.getD index 0 else memory index := by
  induction out using List.reverseRecOn with
  | nil => simp [Buffer.filled]
  | append_singleton out c ih =>
    have size := filled_size limit memory out
    have next := filled_stream limit memory out c
    rw [stream] at next
    rw [next, Buffer.put, length_append, length_singleton]
    by_cases room : (Buffer.filled limit memory out).size < limit
    · rw [if_pos room]
      have whole : (Buffer.filled limit memory out).size = out.length := by omega
      rw [whole]
      simp only [Function.update_apply]
      by_cases last : index = out.length
      · have inside : index < min limit (out.length + 1) := by omega
        rw [if_pos last, if_pos inside, last]
        simp
      rw [if_neg last, ih]
      by_cases early : index < out.length
      · have before : index < min limit out.length := by omega
        have inside : index < min limit (out.length + 1) := by omega
        rw [if_pos before, if_pos inside, getD_append _ _ _ _ early]
      · have outside : ¬ index < min limit out.length := by omega
        have beyond : ¬ index < min limit (out.length + 1) := by omega
        rw [if_neg outside, if_neg beyond]
    · rw [if_neg room, ih]
      have same : min limit (out.length + 1) = min limit out.length := by omega
      rw [same]
      split
      · rename_i inside
        rw [getD_append _ _ _ _ (by omega)]
      · rfl

end FrostyKernel.Output
