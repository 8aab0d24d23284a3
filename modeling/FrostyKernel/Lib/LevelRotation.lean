import Mathlib.Tactic

/-!
# Rotation between levels by counters

Each pick takes the highest level that has been picked less than `limit` times since a
lower one was picked, or else the lowest level. Counters of higher levels that have
reached the limit start again, and so does the counter of the lowest level at any pick.
The counters behave like the digits of a number to the
base `limit + 1`, and a level with `j` levels above it has to wait for these `j` digits.
-/

namespace FrostyKernel

open Finset

structure Pick (limit : Nat) (levels : Finset Nat) (before : Nat → Nat) (chosen : Nat)
    (after : Nat → Nat) : Prop where
  member : chosen ∈ levels
  allowed : before chosen < limit ∨ ∀ other ∈ levels, chosen ≤ other
  greatest : ∀ other ∈ levels, before other < limit → other ≤ chosen
  counted : after chosen = (if before chosen < limit then before chosen else 0) + 1
  below : ∀ other ∈ levels, other < chosen → after other = before other ∨
    after other = 0 ∧ limit ≤ before other ∧ ∀ lower ∈ levels, other ≤ lower
  above : ∀ other ∈ levels, chosen < other →
    after other = if before other < limit then before other else 0
  outside : ∀ other, other ∉ levels → after other ≤ before other

section Window
variable {limit : Nat} {levels : Finset Nat} {counts : Nat → Nat → Nat} {chosen : Nat → Nat}
  {calls : Nat} {level : Nat}

theorem Pick.bounded {before after : Nat → Nat} {picked : Nat} (positive : 0 < limit)
    (pick : Pick limit levels before picked after) (bound : before level ≤ limit) :
    after level ≤ limit := by
  by_cases member : level ∈ levels
  · rcases lt_trichotomy level picked with low | same | high
    · rcases pick.below level member low with kept | ⟨reset, _⟩
      · rw [kept]
        exact bound
      · rw [reset]
        exact Nat.zero_le limit
    · rw [same, pick.counted]
      split_ifs with few
      · exact few
      · exact positive
    · rw [pick.above level member high]
      split_ifs
      · exact bound
      · exact Nat.zero_le limit
  · exact (pick.outside level member).trans bound

variable
  (picks : ∀ call < calls, Pick limit levels (counts call) (chosen call) (counts (call + 1)))
include picks

/-- While nothing below `level` is picked its counter is never reset, so that each block
of calls that picks it adds one. -/
theorem counter_grows {lower : Nat} (member : level ∈ levels) (lowerMember : lower ∈ levels)
    (less : lower < level) {first width : Nat} (often : ∀ first, first + width ≤ calls →
      ∃ call, first ≤ call ∧ call < first + width ∧ chosen call ≤ level) (blocks : Nat)
    (within : first + width * blocks ≤ calls)
    (never : ∀ call, first ≤ call → call < first + width * blocks → level ≤ chosen call) :
    blocks ≤ counts (first + width * blocks) level := by
  -- A single call in which nothing below is picked.
  have single : ∀ call < calls, level ≤ chosen call → counts call level ≤ counts (call + 1) level ∧
      (chosen call = level → counts call level < counts (call + 1) level) := by
    intro call inside notBelow
    have pick := picks call inside
    rcases notBelow.lt_or_eq with low | same
    · refine ⟨?_, fun same => absurd low (by omega)⟩
      rcases pick.below level member low with kept | ⟨_, _, least⟩
      · exact kept.ge
      · exact absurd less (not_lt.mpr (least lower lowerMember))
    · have few : counts call (chosen call) < limit := by
        rcases pick.allowed with few | least
        · exact few
        · have bound := least lower lowerMember
          omega
      have counted := pick.counted
      rw [if_pos few, ← same] at counted
      exact ⟨by omega, fun _ => by omega⟩
  have monotone : ∀ length call, first ≤ call → call + length ≤ first + width * blocks →
      counts call level ≤ counts (call + length) level := by
    intro length
    induction length with
    | zero => intro call _ _; exact le_rfl
    | succ length ih =>
      intro call after inside
      have step := single (call + length) (by omega) (never _ (by omega) (by omega))
      exact (ih call after (by omega)).trans step.1
  induction blocks with
  | zero => exact Nat.zero_le _
  | succ blocks ih =>
    rw [Nat.mul_succ, ← Nat.add_assoc] at within never monotone ⊢
    have earlier := ih (by omega) (fun call after inside => never call after (by omega))
      (fun length call after inside => monotone length call after (by omega))
    rcases often (first + width * blocks) within with ⟨call, after, inside, atMost⟩
    have notBelow := never call (by omega) inside
    have added := (single call (by omega) notBelow).2 (le_antisymm atMost notBelow)
    have before := monotone (call - (first + width * blocks)) (first + width * blocks)
      (by omega) (by omega)
    have rest := monotone (first + width * blocks + width - (call + 1)) (call + 1)
      (by omega) (by omega)
    rw [Nat.add_sub_cancel' after] at before
    rw [Nat.add_sub_cancel' inside] at rest
    omega

variable (positive : 0 < limit)
include positive

theorem counts_bounded (start : counts 0 level ≤ limit) {call : Nat} (within : call ≤ calls) :
    counts call level ≤ limit := by
  induction call with
  | zero => exact start
  | succ call ih => exact (picks call within).bounded positive (ih (by omega))

variable (start : ∀ level ∈ levels, counts 0 level ≤ limit)
include start

/-- The levels above `level` exhaust their counters within a power of `limit + 1` calls. -/
theorem picks_at_most (member : level ∈ levels) {number : Nat}
    (higher : (levels.filter (level < ·)).card = number) (first : Nat)
    (within : first + (limit + 1) ^ number ≤ calls) :
    ∃ call, first ≤ call ∧ call < first + (limit + 1) ^ number ∧ chosen call ≤ level := by
  induction number generalizing level first with
  | zero =>
    refine ⟨first, le_rfl, by simp, ?_⟩
    by_contra above
    have inside : chosen first ∈ levels.filter (level < ·) :=
      mem_filter.mpr ⟨(picks first (by simp at within; omega)).member, not_le.mp above⟩
    rw [card_eq_zero.mp higher] at inside
    cases inside
  | succ number ih =>
    have nonempty : (levels.filter (level < ·)).Nonempty := card_pos.mp (by omega)
    -- The next level above, which has one level less above it.
    obtain ⟨next, nextMember, least⟩ := exists_min_image _ id nonempty
    simp only [mem_filter, id] at nextMember least
    have fewer : (levels.filter (next < ·)).card = number := by
      have split : levels.filter (next < ·) = (levels.filter (level < ·)).erase next := by
        ext other
        simp only [mem_filter, mem_erase]
        constructor
        · rintro ⟨inside, above⟩
          exact ⟨by omega, inside, by omega⟩
        · rintro ⟨different, inside, above⟩
          have atLeast := least other ⟨inside, above⟩
          exact ⟨inside, by omega⟩
      rw [split, card_erase_of_mem (mem_filter.mpr nextMember), higher]
      rfl
    rw [pow_succ] at within ⊢
    by_contra none
    have never : ∀ call, first ≤ call → call < first + (limit + 1) ^ number * (limit + 1) →
        next ≤ chosen call := by
      intro call after inside
      apply least
      refine ⟨(picks call (by omega)).member, ?_⟩
      by_contra low
      exact none ⟨call, after, inside, not_lt.mp low⟩
    have grown := counter_grows picks nextMember.1 member nextMember.2
      (fun first => ih nextMember.1 fewer first) (limit + 1) within never
    have bound := counts_bounded picks positive (start next nextMember.1) within
    omega

/-- Every level is picked in every window of `(limit + 1) ^ k` calls, for `k` levels. -/
theorem picked_in_window (member : level ∈ levels) (first : Nat)
    (within : first + (limit + 1) ^ levels.card ≤ calls) :
    ∃ call, first ≤ call ∧ call < first + (limit + 1) ^ levels.card ∧ chosen call = level := by
  set number := (levels.filter (level < ·)).card with higher
  have less : number < levels.card := by
    apply card_lt_card
    refine ⟨filter_subset _ _, fun all => ?_⟩
    exact lt_irrefl level (mem_filter.mp (all member)).2
  have twice : 2 * (limit + 1) ^ number ≤ (limit + 1) ^ levels.card := by
    calc 2 * (limit + 1) ^ number ≤ (limit + 1) * (limit + 1) ^ number :=
          Nat.mul_le_mul_right _ (by omega)
      _ = (limit + 1) ^ (number + 1) := by rw [pow_succ, mul_comm]
      _ ≤ (limit + 1) ^ levels.card := Nat.pow_le_pow_right (by omega) less
  by_contra none
  push Not at none
  rcases picks_at_most picks positive start member higher.symm first (by omega) with
    ⟨call, after, inside, atMost⟩
  have below := lt_of_le_of_ne atMost (none call after (by omega))
  -- From then on the level is allowed, since its counter stays below the limit.
  have stays : ∀ length, call + 1 + length < first + (limit + 1) ^ levels.card →
      counts (call + 1 + length) level < limit := by
    intro length
    induction length with
    | zero =>
      intro _
      rw [add_zero, (picks call (by omega)).above level member below]
      split_ifs with few
      · exact few
      · exact positive
    | succ length ih =>
      intro early
      have few := ih (by omega)
      have pick := picks (call + 1 + length) (by omega)
      rcases lt_trichotomy level (chosen (call + 1 + length)) with low | same | high
      · rcases pick.below level member low with kept | ⟨reset, _⟩
        · rw [← Nat.add_assoc, kept]
          exact few
        · rw [← Nat.add_assoc, reset]
          exact positive
      · exact absurd same.symm (none _ (by omega) (by omega))
      · rw [← Nat.add_assoc, pick.above level member high, if_pos few]
        exact few
  rcases picks_at_most picks positive start member higher.symm (call + 1) (by omega) with
    ⟨later, afterwards, soon, low⟩
  have few := stays (later - (call + 1)) (by omega)
  rw [Nat.add_sub_cancel' afterwards] at few
  have reached := (picks later (by omega)).greatest level member few
  exact none later (by omega) (by omega) (le_antisymm low reached)

end Window
end FrostyKernel
