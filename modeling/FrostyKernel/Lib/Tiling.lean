import Mathlib.Tactic

/-!
# Tilings of an interval

A list of pieces, each a start with a value, tiles the half-open interval from
`low` to `high` when every piece starts where the piece before it ends. The
length of a piece is computed from its value and is positive.
-/

namespace FrostyKernel

variable {Value : Type*}

def Tiles (length : Value → Nat) : Nat → List (Nat × Value) → Nat → Prop
  | low, [], high => low = high
  | low, piece :: rest, high =>
    piece.1 = low ∧ 0 < length piece.2 ∧ Tiles length (low + length piece.2) rest high

variable {length : Value → Nat}

@[simp] theorem tiles_nil (low high : Nat) : Tiles length low [] high ↔ low = high := Iff.rfl

@[simp] theorem tiles_cons (low high : Nat) (piece : Nat × Value) (rest : List (Nat × Value)) :
    Tiles length low (piece :: rest) high ↔
      piece.1 = low ∧ 0 < length piece.2 ∧ Tiles length (low + length piece.2) rest high :=
  Iff.rfl

variable {after before pieces : List (Nat × Value)} {high low start : Nat} {piece : Nat × Value}
  {value : Value}

theorem mem_of_cut (cut : pieces = before ++ piece :: after) : piece ∈ pieces := by simp [cut]

theorem tiles_append :
    Tiles length low (before ++ after) high ↔
      ∃ middle, Tiles length low before middle ∧ Tiles length middle after high := by
  induction before generalizing low with
  | nil => simp
  | cons piece rest ih =>
    rw [List.cons_append, tiles_cons, ih]
    constructor
    · rintro ⟨start, positive, middle, first, second⟩
      exact ⟨middle, ⟨start, positive, first⟩, second⟩
    · rintro ⟨middle, ⟨start, positive, first⟩, second⟩
      exact ⟨start, positive, middle, first, second⟩

theorem tiles_low_le_high (tiles : Tiles length low pieces high) : low ≤ high := by
  induction pieces generalizing low with
  | nil => exact le_of_eq tiles
  | cons piece rest ih =>
    have further := ih tiles.2.2
    omega

theorem tiles_cut :
    Tiles length low (before ++ (start, value) :: after) high ↔
      Tiles length low before start ∧ 0 < length value ∧
        Tiles length (start + length value) after high := by
  rw [tiles_append]
  constructor
  · rintro ⟨middle, first, rfl, positive, second⟩
    exact ⟨first, positive, second⟩
  · rintro ⟨first, positive, second⟩
    exact ⟨start, first, rfl, positive, second⟩

section
variable {low high : Nat} {pieces : List (Nat × Value)} (tiles : Tiles length low pieces high)
include tiles

theorem tiles_piece_bounds {piece : Nat × Value} (member : piece ∈ pieces) :
    low ≤ piece.1 ∧ 0 < length piece.2 ∧ piece.1 + length piece.2 ≤ high := by
  obtain ⟨before, after, rfl⟩ := List.append_of_mem member
  obtain ⟨first, positive, second⟩ := tiles_cut.mp tiles
  exact ⟨tiles_low_le_high first, positive, tiles_low_le_high second⟩

theorem tiles_pairwise : pieces.Pairwise (fun left right => left.1 + length left.2 ≤ right.1) := by
  induction pieces generalizing low with
  | nil => exact List.Pairwise.nil
  | cons piece rest ih =>
    refine List.pairwise_cons.mpr ⟨?_, ih tiles.2.2⟩
    intro later member
    have bounds := tiles_piece_bounds tiles.2.2 member
    rw [tiles.1]
    exact bounds.1

theorem tiles_sorted : pieces.Pairwise (fun left right => left.1 < right.1) := by
  have apart := tiles_pairwise tiles
  refine apart.imp_of_mem ?_
  intro left right leftIn _ order
  have bounds := tiles_piece_bounds tiles leftIn
  omega

end

theorem tiles_last_ends {last : Nat × Value}
    (tiles : Tiles length low (before ++ [last] ++ (start, value) :: after) high) :
    last.1 + length last.2 = start := by
  have first : Tiles length low (before ++ (last.1, last.2) :: []) start := (tiles_cut.mp tiles).1
  exact (tiles_cut.mp first).2.2

theorem tiles_last_of_ends (tiles : Tiles length low pieces high) (member : piece ∈ pieces)
    (ends : piece.1 + length piece.2 = high) : pieces.getLast? = some piece := by
  obtain ⟨before, after, rfl⟩ := List.append_of_mem member
  obtain ⟨_, _, rest⟩ := tiles_cut.mp tiles
  rw [ends] at rest
  cases after with
  | nil => simp
  | cons next further =>
    have beyond := tiles_low_le_high rest.2.2
    have positive := rest.2.1
    omega

theorem tiles_first_of_starts (tiles : Tiles length low pieces high) (member : piece ∈ pieces)
    (starts : piece.1 = low) : pieces.head? = some piece := by
  cases pieces with
  | nil => simp at member
  | cons first rest =>
    rcases List.mem_cons.mp member with same | later
    · simp [same]
    · have bounds := tiles_piece_bounds tiles.2.2 later
      have positive := tiles.2.1
      omega

theorem tiles_empty (tiles : Tiles length low pieces low) : pieces = [] := by
  cases pieces with
  | nil => rfl
  | cons piece rest =>
    have beyond := tiles_low_le_high tiles.2.2
    have positive := tiles.2.1
    omega

end FrostyKernel
