import Mathlib.Tactic

/-!
# Separated intervals

A list of pieces, each a start with a value that gives its length, lies apart
between two bounds when the pieces are in order and do not overlap; gaps between
them are allowed. `Covers` is the set of points inside the pieces.
-/

namespace FrostyKernel

open List

variable {Value : Type*}

def Apart (length : Value → Nat) : Nat → List (Nat × Value) → Nat → Prop
  | low, [], high => low ≤ high
  | low, piece :: rest, high =>
    low ≤ piece.1 ∧ 0 < length piece.2 ∧ Apart length (piece.1 + length piece.2) rest high

def Covers (length : Value → Nat) (pieces : List (Nat × Value)) (point : Nat) : Prop :=
  ∃ piece ∈ pieces, piece.1 ≤ point ∧ point < piece.1 + length piece.2

variable {length : Value → Nat}

@[simp] theorem apart_nil (low high : Nat) : Apart length low [] high ↔ low ≤ high := Iff.rfl

@[simp] theorem apart_cons (low high : Nat) (piece : Nat × Value) (rest : List (Nat × Value)) :
    Apart length low (piece :: rest) high ↔
      low ≤ piece.1 ∧ 0 < length piece.2 ∧ Apart length (piece.1 + length piece.2) rest high :=
  Iff.rfl

@[simp] theorem not_covers_nil (point : Nat) : ¬ Covers length ([] : List (Nat × Value)) point := by
  simp [Covers]

@[simp] theorem covers_cons (piece : Nat × Value) (rest : List (Nat × Value)) (point : Nat) :
    Covers length (piece :: rest) point ↔
      (piece.1 ≤ point ∧ point < piece.1 + length piece.2) ∨ Covers length rest point := by
  simp [Covers]

@[simp] theorem covers_append (left right : List (Nat × Value)) (point : Nat) :
    Covers length (left ++ right) point ↔ Covers length left point ∨ Covers length right point := by
  simp only [Covers, mem_append, or_and_right, exists_or]

variable {left pieces right : List (Nat × Value)} {high low : Nat} {piece : Nat × Value}

theorem apart_low_le_high (apart : Apart length low pieces high) : low ≤ high := by
  induction pieces generalizing low with
  | nil => exact apart
  | cons piece rest ih =>
    have further := ih apart.2.2
    have start := apart.1
    omega

theorem apart_mono {lower higher : Nat} (apart : Apart length low pieces high) (below : lower ≤ low)
    (above : high ≤ higher) : Apart length lower pieces higher := by
  induction pieces generalizing low lower with
  | nil => exact (below.trans apart).trans above
  | cons piece rest ih => exact ⟨below.trans apart.1, apart.2.1, ih apart.2.2 le_rfl⟩

theorem apart_append :
    Apart length low (left ++ right) high ↔
      ∃ middle, Apart length low left middle ∧ Apart length middle right high := by
  induction left generalizing low with
  | nil =>
    constructor
    · intro apart
      exact ⟨low, le_refl low, apart⟩
    · intro parts
      rcases parts with ⟨middle, order, apart⟩
      exact apart_mono apart order le_rfl
  | cons piece rest ih =>
    rw [cons_append, apart_cons, ih]
    constructor
    · intro whole
      rcases whole with ⟨start, positive, middle, front, back⟩
      exact ⟨middle, ⟨start, positive, front⟩, back⟩
    · intro parts
      rcases parts with ⟨middle, ⟨start, positive, front⟩, back⟩
      exact ⟨start, positive, middle, front, back⟩

theorem apart_piece_bounds (apart : Apart length low pieces high) (member : piece ∈ pieces) :
    low ≤ piece.1 ∧ 0 < length piece.2 ∧ piece.1 + length piece.2 ≤ high := by
  rcases append_of_mem member with ⟨left, right, whole⟩
  rw [whole, apart_append] at apart
  rcases apart with ⟨middle, front, back⟩
  exact ⟨(apart_low_le_high front).trans back.1, back.2.1, apart_low_le_high back.2.2⟩

/-- The pieces before and after one of them end before it and start after it. -/
theorem apart_cut :
    Apart length low (left ++ piece :: right) high ↔
      Apart length low left piece.1 ∧ 0 < length piece.2 ∧
        Apart length (piece.1 + length piece.2) right high := by
  rw [apart_append]
  constructor
  · intro parts
    rcases parts with ⟨middle, front, back⟩
    exact ⟨apart_mono front le_rfl back.1, back.2⟩
  · intro parts
    exact ⟨piece.1, parts.1, le_rfl, parts.2⟩

theorem apart_around (apart : Apart length low (left ++ piece :: right) high) :
    (∀ other ∈ left, other.1 + length other.2 ≤ piece.1 ∧ other.1 < piece.1) ∧
      ∀ other ∈ right, piece.1 + length piece.2 ≤ other.1 ∧ piece.1 < other.1 := by
  rcases apart_cut.mp apart with ⟨front, positive, back⟩
  constructor
  · intro other member
    have bounds := apart_piece_bounds front member
    omega
  · intro other member
    have bounds := apart_piece_bounds back member
    omega

section
variable {low high : Nat} {pieces : List (Nat × Value)} (apart : Apart length low pieces high)
include apart

theorem apart_sorted : pieces.Pairwise fun before after => before.1 < after.1 := by
  induction pieces generalizing low with
  | nil => exact List.Pairwise.nil
  | cons piece rest ih =>
    refine pairwise_cons.mpr ⟨?_, ih apart.2.2⟩
    intro later member
    have bounds := apart_piece_bounds apart.2.2 member
    have positive := apart.2.1
    omega

theorem covers_bounds {point : Nat} (covered : Covers length pieces point) :
    low ≤ point ∧ point < high := by
  rcases covered with ⟨piece, member, inside⟩
  have bounds := apart_piece_bounds apart member
  omega

/-- There are at most as many pieces as there are points between the bounds. -/
theorem apart_length_le : low + pieces.length ≤ high := by
  induction pieces generalizing low with
  | nil => simpa using apart
  | cons piece rest ih =>
    have further := ih apart.2.2
    have start := apart.1
    have positive := apart.2.1
    simp only [length_cons]
    omega

theorem apart_split (point : Nat) :
    ∃ left right, pieces = left ++ right ∧ (∀ piece ∈ left, piece.1 ≤ point) ∧
      ∀ piece ∈ right, point < piece.1 := by
  induction pieces generalizing low with
  | nil => exact ⟨[], [], by simp⟩
  | cons piece rest ih =>
    by_cases later : point < piece.1
    · refine ⟨[], piece :: rest, rfl, by simp, ?_⟩
      intro other member
      rcases mem_cons.mp member with same | further
      · rw [same]
        exact later
      · have bounds := apart_piece_bounds apart.2.2 further
        omega
    · rcases ih apart.2.2 with ⟨left, right, whole, before, after⟩
      refine ⟨piece :: left, right, by rw [whole, cons_append], ?_, after⟩
      intro other member
      rcases mem_cons.mp member with same | further
      · rw [same]
        omega
      · exact before other further

theorem apart_gap {start size : Nat} (above : low ≤ start) (below : start + size ≤ high)
    (outside : ∀ point, start ≤ point → point < start + size → ¬ Covers length pieces point)
    (positive : 0 < size) :
    ∃ left right, pieces = left ++ right ∧ (∀ piece ∈ left, piece.1 < start) ∧
      (∀ piece ∈ right, start < piece.1) ∧ Apart length low left start ∧
      Apart length (start + size) right high := by
  rcases apart_split apart start with ⟨left, right, whole, before, after⟩
  subst whole
  have strictly : ∀ piece ∈ left, piece.1 + length piece.2 ≤ start := by
    intro piece member
    have bounds := apart_piece_bounds apart (mem_append_left right member)
    have order := before piece member
    by_contra overlap
    exact outside start le_rfl (by omega) ⟨piece, mem_append_left right member, order, by omega⟩
  have beyond : ∀ piece ∈ right, start + size ≤ piece.1 := by
    intro piece member
    have bounds := apart_piece_bounds apart (mem_append_right left member)
    have order := after piece member
    by_contra overlap
    exact outside piece.1 (by omega) (by omega)
      ⟨piece, mem_append_right left member, le_rfl, by omega⟩
  rcases apart_append.mp apart with ⟨middle, front, back⟩
  refine ⟨left, right, rfl, ?_, after, ?_, ?_⟩
  · intro piece member
    have ends := strictly piece member
    have bounds := apart_piece_bounds front member
    omega
  · rcases eq_nil_or_concat left with nothing | ⟨initial, last, concat⟩
    · rw [nothing]
      exact above
    · rw [concat, concat_eq_append] at front ⊢
      have lastEnds := strictly last (by rw [concat]; simp)
      rw [apart_cut] at front ⊢
      exact ⟨front.1, front.2.1, lastEnds⟩
  · cases right with
    | nil => exact below
    | cons piece rest => exact ⟨beyond piece (by simp), back.2⟩

end

/-! ## Intervals in any order -/

def Separate (first second : Nat × Nat) : Prop :=
  first.1 + first.2 ≤ second.1 ∨ second.1 + second.2 ≤ first.1

theorem separate_symm {first second : Nat × Nat} (separate : Separate first second) :
    Separate second first :=
  Or.symm separate

instance : Std.Symm Separate := ⟨fun _ _ separate => separate_symm separate⟩

theorem separate_points {pieces : List (Nat × Nat)} (separate : pieces.Pairwise Separate) :
    ∃ points : Finset Nat, points.card = (pieces.map Prod.snd).sum ∧
      ∀ point, point ∈ points ↔ Covers id pieces point := by
  induction pieces with
  | nil => exact ⟨∅, rfl, by simp⟩
  | cons piece rest ih =>
    rcases pairwise_cons.mp separate with ⟨first, others⟩
    rcases ih others with ⟨points, size, covers⟩
    have disjoint : Disjoint (Finset.Ico piece.1 (piece.1 + piece.2)) points := by
      rw [Finset.disjoint_left]
      intro point inside member
      rw [Finset.mem_Ico] at inside
      rcases (covers point).mp member with ⟨other, isOther, within⟩
      have apart := first other isOther
      simp only [Separate, id_eq] at apart within
      omega
    refine ⟨Finset.Ico piece.1 (piece.1 + piece.2) ∪ points, ?_, ?_⟩
    · rw [Finset.card_union_of_disjoint disjoint, Nat.card_Ico, size, map_cons, sum_cons]
      omega
    · intro point
      rw [Finset.mem_union, covers, covers_cons, Finset.mem_Ico]
      rfl

theorem separate_sum_le {pieces : List (Nat × Nat)} (separate : pieces.Pairwise Separate)
    (inside : ∀ piece ∈ pieces, low ≤ piece.1 ∧ piece.1 + piece.2 ≤ high) :
    (pieces.map Prod.snd).sum ≤ high - low := by
  rcases separate_points separate with ⟨points, size, covers⟩
  rw [← size, ← Nat.card_Ico]
  apply Finset.card_le_card
  intro point member
  rcases (covers point).mp member with ⟨piece, isPiece, within⟩
  have bounds := inside piece isPiece
  simp only [id_eq] at within
  rw [Finset.mem_Ico]
  omega

end FrostyKernel
