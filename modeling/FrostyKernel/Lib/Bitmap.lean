import Mathlib.Tactic

/-!
# Bits in an array of bytes

A bit is named by its position in the array: eight bits a byte, the lowest bit
first. An array that grows keeps its bits, and the new bytes are zero.
-/

namespace FrostyKernel.Bitmap

open List

abbrev Bytes := List (BitVec 8)

def mask (index : Nat) : BitVec 8 := 1#8 <<< (index % 8)

section
variable (bytes : Bytes) (index : Nat) (value : Bool)

def bitAt : Bool := (bytes[index / 8]?.getD 0#8 &&& mask index) != 0#8

def write : Bytes :=
  bytes.modify (index / 8) fun byte =>
    if value then byte ||| mask index else byte &&& ~~~(mask index)

theorem mask_bit (place : Nat) : (mask index).getLsbD place = decide (place = index % 8) := by
  have small : index % 8 < 8 := Nat.mod_lt _ (by decide)
  simp only [mask, BitVec.getLsbD_shiftLeft, BitVec.getLsbD_one]
  by_cases same : place = index % 8
  · simp [same, small]
  · rcases lt_or_ge place (index % 8) with below | above
    · simp [same, below]
    · have later : place - index % 8 ≠ 0 := by omega
      simp [same, later]

theorem and_mask_ne_zero (byte : BitVec 8) (index : Nat) :
    ((byte &&& mask index) != 0#8) = byte.getLsbD (index % 8) := by
  have place : (mask index).getLsbD (index % 8) = true := by simp [mask_bit]
  cases bit : byte.getLsbD (index % 8) with
  | false =>
    have clear : byte &&& mask index = 0#8 := by
      apply BitVec.eq_of_getLsbD_eq
      intro other _
      rw [BitVec.getLsbD_and, mask_bit]
      by_cases same : other = index % 8
      · simp [same, bit]
      · simp [same]
    simp [clear]
  | true =>
    rw [bne_iff_ne]
    intro clear
    have lost := congrArg (fun word => word.getLsbD (index % 8)) clear
    simp [BitVec.getLsbD_and, bit, place] at lost

theorem bit_at_eq : bitAt bytes index = (bytes[index / 8]?.getD 0#8).getLsbD (index % 8) :=
  and_mask_ne_zero _ _

@[simp] theorem write_length : (write bytes index value).length = bytes.length := by
  simp [write]

end

variable {bytes : Bytes} {index : Nat}

theorem bit_at_beyond (beyond : bytes.length * 8 ≤ index) : bitAt bytes index = false := by
  have outside : bytes.length ≤ index / 8 := by omega
  simp [bit_at_eq, getElem?_eq_none outside]

theorem bit_at_write_same (value : Bool) (inside : index < bytes.length * 8) :
    bitAt (write bytes index value) index = value := by
  have place : index / 8 < bytes.length := by omega
  rw [bit_at_eq, write, getElem?_modify_eq, getElem?_eq_getElem place]
  cases value with
  | false => simp [mask_bit]
  | true => simp [mask_bit]

theorem bit_at_write_other {other : Nat} (value : Bool) (different : other ≠ index) :
    bitAt (write bytes index value) other = bitAt bytes other := by
  rw [bit_at_eq, bit_at_eq, write]
  by_cases sameByte : index / 8 = other / 8
  · have otherBit : other % 8 ≠ index % 8 := by omega
    rw [sameByte, getElem?_modify_eq]
    cases bytes[other / 8]? with
    | none => simp
    | some byte =>
      have inByte : other % 8 < 8 := Nat.mod_lt _ (by decide)
      cases value with
      | false =>
        have clear : (mask index).getLsbD (other % 8) = false := by simp [mask_bit, otherBit]
        have kept : (byte &&& ~~~(mask index)).getLsbD (other % 8) = byte.getLsbD (other % 8) := by
          rw [BitVec.getLsbD_and, BitVec.getLsbD_not, clear]
          simp [inByte]
        exact kept
      | true => simp [mask_bit, otherBit]
  · rw [getElem?_modify_ne _ _ sameByte]

theorem bit_at_append_zeroes (bytes : Bytes) (count index : Nat) :
    bitAt (bytes ++ List.replicate count 0#8) index = bitAt bytes index := by
  rw [bit_at_eq, bit_at_eq]
  rcases lt_or_ge (index / 8) bytes.length with inside | outside
  · rw [getElem?_append_left inside]
  · rw [getElem?_append_right outside, getElem?_eq_none outside, getElem?_replicate]
    split_ifs <;> rfl

theorem bit_at_zeroes (count index : Nat) : bitAt (List.replicate count 0#8) index = false := by
  have grown := bit_at_append_zeroes [] count index
  rw [nil_append] at grown
  rw [grown]
  exact bit_at_beyond (Nat.zero_le _)

end FrostyKernel.Bitmap
