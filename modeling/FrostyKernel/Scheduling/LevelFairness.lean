import FrostyKernel.Lib.LevelRotation
import FrostyKernel.Scheduling.SchedulerRuns

/-!
# Selection between the nice levels

`PickNext` scans the nice levels of a processor upwards and takes the last level it may
take. While the same levels stay non-empty the selection rotates between them. The scan
holds the lock of the level it has chosen so far and releases that lock when a later level
overrides the choice; the last lock is released after the head of the queue is popped.
-/

namespace FrostyKernel.Scheduling

open Function Scheduler List Option

variable {n : Nat} {Thread : Type}

inductive LevelLock
  | lock (level : Nat)
  | unlock (level : Nat)

/-- The lists that one iteration of the scan locks and unlocks. -/
def levelLocks (queues : Nat → Queue Thread) (scan : Scan Thread) (level : Nat) : List LevelLock :=
  if (queues level).count = 0 ∨
      (maxRunCount ≤ scan.runCounts level ∧ level ≠ 0 ∧ scan.thread ≠ none) then
    [.lock level, .unlock level]
  else if scan.thread ≠ none then .lock level :: scan.nice.toList.map .unlock
  else [.lock level]

/-- The rest of the scan, and the release of the last choice. -/
def scanLocks (queues : Nat → Queue Thread) : List Nat → Scan Thread → List LevelLock
  | [], scan => scan.nice.toList.map .unlock
  | level :: rest, scan =>
    levelLocks queues scan level ++ scanLocks queues rest (scanLevel queues scan level)

def Scheduler.pickNextLocks (scheduler : Scheduler n Thread) (p : Fin n) : List LevelLock :=
  scanLocks (fun nice => scheduler.lists (.run p nice)) (List.range niceLevels)
    ⟨none, none, (scheduler.processors p).runCounts⟩

/-- The locks held after an event; nothing follows a lock taken twice or a release of a
lock that is not held. -/
def holdLevel (held : Option (List Nat)) : LevelLock → Option (List Nat)
  | .lock level => held.bind fun levels => if level ∈ levels then none else some (level :: levels)
  | .unlock level =>
    held.bind fun levels => if level ∈ levels then some (levels.erase level) else none

/-- The queues of `p` are well formed, and `levels` are those with a thread. -/
structure Standing (scheduler : Scheduler n Thread) (p : Fin n) (levels : Finset Nat) : Prop where
  within : ∀ level ∈ levels, level < niceLevels
  holds : ∀ level < niceLevels, Holds scheduler.links (scheduler.lists (.run p level))
    (scheduler.contents (.run p level))
  busy : ∀ level < niceLevels, scheduler.contents (.run p level) ≠ [] ↔ level ∈ levels

/-- The head of the queue of this level, and nothing else, has been taken off the lists
and made the current thread. -/
def TakesHead (p : Fin n) (level : Nat) (before after : Scheduler n Thread) : Prop :=
  ∃ thread rest, before.contents (.run p level) = thread :: rest ∧
    after.contents (.run p level) = rest ∧ after.current p = some thread ∧
    (∀ key, key ≠ .run p level → after.lists key = before.lists key) ∧
    ∀ other, other ∉ thread :: rest → after.links other = before.links other

section Scan
variable {queues : Nat → Queue Thread} {levels : Finset Nat} {runCounts : Nat → Nat}

theorem scan_locks_released (heads : ∀ level < niceLevels, (queues level).count ≠ 0 →
      (queues level).head ≠ none)
    (remaining : List Nat) (distinct : remaining.Nodup)
      (low : ∀ level ∈ remaining, level < niceLevels)
    (scan : Scan Thread) (agree : scan.thread = none ↔ scan.nice = none)
    (passed : ∀ level ∈ scan.nice, level ∉ remaining) :
    (scanLocks queues remaining scan).foldl holdLevel (some scan.nice.toList) = some [] := by
  induction remaining generalizing scan with
  | nil => cases nice : scan.nice <;> simp [scanLocks, nice, holdLevel]
  | cons level rest ih =>
    rw [nodup_cons] at distinct
    have later : ∀ level ∈ rest, level < niceLevels := fun other member =>
      low other (mem_cons_of_mem level member)
    rw [scanLocks, foldl_append, levelLocks, scanLevel]
    by_cases skipped : (queues level).count = 0 ∨
        (maxRunCount ≤ scan.runCounts level ∧ level ≠ 0 ∧ scan.thread ≠ none)
    · have fresh : level ∉ scan.nice.toList := fun member =>
        passed level (mem_toList.mp member) mem_cons_self
      rw [if_pos skipped, if_pos skipped]
      simp only [foldl_cons, foldl_nil, holdLevel, bind_some, if_neg fresh,
        if_pos mem_cons_self, erase_cons_head]
      apply ih distinct.2 later scan agree
      intro nice isNice member
      exact passed nice isNice (mem_cons_of_mem level member)
    · have head := heads level (low level mem_cons_self) fun empty => skipped (.inl empty)
      rw [if_neg skipped, if_neg skipped]
      -- The lock of the earlier choice is given up, the lock of this level stays.
      have held : (if scan.thread ≠ none then .lock level :: scan.nice.toList.map .unlock
          else [.lock level]).foldl holdLevel (some scan.nice.toList) = some [level] := by
        cases nice : scan.nice with
        | none =>
          rw [if_neg (not_not.mpr (agree.mpr nice))]
          rfl
        | some earlier =>
          have different : level ≠ earlier := by
            rintro rfl
            exact passed level nice mem_cons_self
          rw [if_pos (fun none => by simp [agree.mp none] at nice)]
          simp [holdLevel, different, different.symm]
      rw [held]
      refine ih distinct.2 later ⟨(queues level).head, some level, _⟩ (by simp [head]) ?_
      intro nice isNice
      cases isNice
      exact distinct.1

/-- What the scan of the levels below `bound` has chosen. -/
structure Chosen (queues : Nat → Queue Thread) (levels : Finset Nat) (runCounts : Nat → Nat)
    (bound first chosen : Nat) (scan : Scan Thread) : Prop where
  lowest : first ∈ levels
  least : ∀ other ∈ levels, first ≤ other
  member : chosen ∈ levels
  below : chosen < bound
  allowed : chosen = first ∨ runCounts chosen < maxRunCount
  greatest : ∀ other ∈ levels, other < bound → runCounts other < maxRunCount → other ≤ chosen
  found : scan.thread = (queues chosen).head ∧ scan.nice = some chosen
  counts : scan.runCounts =
    if maxRunCount ≤ runCounts first then update runCounts first 0 else runCounts

variable (busy : ∀ level < niceLevels, (queues level).count ≠ 0 ↔ level ∈ levels)
  (heads : ∀ level < niceLevels, (queues level).count ≠ 0 → (queues level).head ≠ none)
include busy heads
variable {bound : Nat}

theorem scan_level_chosen {first chosen : Nat} {scan : Scan Thread} (low : bound < niceLevels)
    (found : Chosen queues levels runCounts bound first chosen scan) :
    ∃ next, Chosen queues levels runCounts (bound + 1) first next (scanLevel queues scan bound) := by
  have before := found.least chosen found.member
  have below := found.below
  have other : scan.runCounts bound = runCounts bound := by
    rw [found.counts]
    split_ifs
    · exact update_of_ne (by omega) _ _
    · rfl
  have some : scan.thread ≠ none := by
    rw [found.found.1]
    exact heads chosen (by omega) ((busy chosen (by omega)).mpr found.member)
  unfold scanLevel
  by_cases skipped : (queues bound).count = 0 ∨ maxRunCount ≤ runCounts bound
  · rw [if_pos (by rw [other]; grind)]
    refine ⟨chosen, found.lowest, found.least, found.member, by omega, found.allowed, ?_,
      found.found, found.counts⟩
    intro level member early few
    apply found.greatest level member _ few
    rcases (Nat.lt_succ_iff.mp early).lt_or_eq with earlier | rfl
    · exact earlier
    · have nonempty := (busy level low).mpr member
      omega
  · rw [not_or, not_le] at skipped
    rw [if_neg (by rw [other]; grind), if_neg (fun none => some none.1)]
    exact ⟨bound, found.lowest, found.least, (busy bound low).mp skipped.1, by omega,
      .inr skipped.2, fun level _ early _ => by omega, ⟨rfl, rfl⟩, found.counts⟩

theorem scan_range_chosen (runCounts : Nat → Nat) (low : bound ≤ niceLevels) :
    let scan := (List.range bound).foldl (scanLevel queues) ⟨none, none, runCounts⟩
    (∀ level ∈ levels, bound ≤ level) ∧ scan = ⟨none, none, runCounts⟩ ∨
      ∃ first chosen, Chosen queues levels runCounts bound first chosen scan := by
  induction bound with
  | zero => exact .inl ⟨fun level _ => Nat.zero_le level, rfl⟩
  | succ bound ih =>
    simp only [range_succ, foldl_append, foldl_cons, foldl_nil]
    rcases ih (by omega) with ⟨none, start⟩ | ⟨first, chosen, found⟩
    · rw [start]
      unfold scanLevel
      by_cases member : bound ∈ levels
      · have nonempty := (busy bound low).mpr member
        rw [if_neg (by simp [nonempty])]
        refine .inr ⟨bound, bound, member, none, member, by omega, .inl rfl,
          fun level _ early _ => by omega, ⟨rfl, rfl⟩, ?_⟩
        simp
      · have empty := not_not.mp (mt (busy bound low).mp member)
        rw [if_pos (.inl empty)]
        refine .inl ⟨fun level inside => ?_, rfl⟩
        have atLeast := none level inside
        have different : level ≠ bound := fun same => member (same ▸ inside)
        omega
    · rcases scan_level_chosen busy heads low found with ⟨next, later⟩
      exact .inr ⟨first, next, later⟩

end Scan

variable {levels : Finset Nat} {scheduler : Scheduler n Thread}

/-- The counters after a pick from the chosen level. -/
theorem chosen_pick {queues : Nat → Queue Thread} {runCounts : Nat → Nat} {first chosen : Nat}
    {scan : Scan Thread} (within : ∀ level ∈ levels, level < niceLevels)
    (found : Chosen queues levels runCounts niceLevels first chosen scan) :
    Pick maxRunCount levels runCounts chosen (resetCounts (chosen + 1)
      (update scan.runCounts chosen (scan.runCounts chosen + 1))) := by
  have lowest := found.lowest
  have least := found.least
  have member := found.member
  have allowed := found.allowed
  have scanned : ∀ level, scan.runCounts level =
      if level = first ∧ maxRunCount ≤ runCounts level then 0 else runCounts level := by
    intro level
    rw [found.counts]
    split_ifs with full same same
    all_goals grind [update_apply]
  constructor
  · exact member
  · rcases allowed with same | few
    · exact .inr (same ▸ least)
    · exact .inl few
  · intro other member few
    exact found.greatest other member (within other member) few
  all_goals grind [resetCounts, update_apply]

theorem Standing.count_pos {p : Fin n} (standing : Standing scheduler p levels) {level : Nat}
    (low : level < niceLevels) :
    ((scheduler.lists (.run p level)).count ≠ 0 ↔ level ∈ levels) ∧
      ((scheduler.lists (.run p level)).count ≠ 0 →
        (scheduler.lists (.run p level)).head ≠ none) := by
  have holds := standing.holds level low
  have busy := standing.busy level low
  rw [holds.count, holds.head, ← busy]
  simp

variable [DecidableEq Thread]

theorem pick_next_takes_head {p : Fin n} (standing : Standing scheduler p levels)
    (nonempty : levels.Nonempty) :
    ∃ level after, scheduler.pickNext p = some after ∧ TakesHead p level scheduler after ∧
      Pick maxRunCount levels (scheduler.processors p).runCounts level
        (after.processors p).runCounts := by
  rcases scan_range_chosen (fun level low => (standing.count_pos low).1)
    (fun level low => (standing.count_pos low).2) (scheduler.processors p).runCounts le_rfl with
    ⟨none, _⟩ | ⟨first, level, found⟩
  · rcases nonempty with ⟨level, member⟩
    exact absurd (standing.within level member) (not_lt.mpr (none level member))
  have holds := standing.holds level found.below
  rcases exists_cons_of_ne_nil ((standing.busy level found.below).mpr found.member) with
    ⟨thread, rest, contents⟩
  rw [contents] at holds
  rcases pop_front_holds holds with ⟨links, queue, popped, left, _, frame⟩
  have pick := chosen_pick standing.within found
  have head : (scheduler.lists (.run p level)).head = some thread := holds.head
  unfold pickNext scanLevels
  generalize List.foldl _ _ _ = scan at found pick ⊢
  simp only [found.found.1, found.found.2, head]
  refine ⟨level, _, rfl, ⟨thread, rest, contents, ?_, ?_, ?_, ?_⟩, ?_⟩
  · rw [← holds_contents left]
    simp [Scheduler.contents, select, setProcessor, setRunCounts, pop, popped]
  · simp [Scheduler.current, select, setProcessor]
  · intro key different
    simp [select, setProcessor, setRunCounts, pop, different]
  · intro other outside
    rw [← frame other outside]
    simp [select, setProcessor, setRunCounts, pop, popped]
  · simpa [select, setProcessor, setRunCounts, pop] using pick

/-- For every set of nice levels that stay non-empty on a processor while its other levels
stay empty, every processor and every sequence of calls of `PickNext` on it from run counts
of at most `MAX_RUN_COUNT`, between which anything but these counts may change: each call
takes exactly the head of the queue of one of the levels, releases every list lock it took
and leaves the counts at most `MAX_RUN_COUNT`, and each level is chosen in every `3 ^ k`
consecutive calls. -/
theorem pick_next_rotates {levels : Finset Nat} (nonempty : levels.Nonempty) (p : Fin n)
    (calls : Nat) (before : Nat → Scheduler n Thread)
    (standing : ∀ call < calls, Standing (before call) p levels)
    (start : ∀ level < niceLevels, ((before 0).processors p).runCounts level ≤ maxRunCount)
    (between : ∀ call after, call + 1 < calls → (before call).pickNext p = some after →
      ((before (call + 1)).processors p).runCounts = (after.processors p).runCounts) :
    (∀ call < calls, ∃ level ∈ levels, ∃ after, (before call).pickNext p = some after ∧
        TakesHead p level (before call) after ∧
        (∀ level < niceLevels, (after.processors p).runCounts level ≤ maxRunCount) ∧
        ((before call).pickNextLocks p).foldl holdLevel (some []) = some []) ∧
      ∀ first, first + 3 ^ levels.card ≤ calls → ∀ level ∈ levels, ∃ call after, first ≤ call ∧
        call < first + 3 ^ levels.card ∧ (before call).pickNext p = some after ∧
        TakesHead p level (before call) after := by
  have inhabited : Nonempty (Scheduler n Thread) := ⟨before 0⟩
  have picked := fun call within => pick_next_takes_head (standing call within) nonempty
  choose! chosen after returns takes pick using picked
  -- The counters after each call are those before the next one.
  let counts : Nat → Nat → Nat := fun call =>
    if call = 0 then ((before 0).processors p).runCounts
    else ((after (call - 1)).processors p).runCounts
  have same : ∀ call < calls, counts call = ((before call).processors p).runCounts := by
    intro call within
    cases call with
    | zero => rfl
    | succ call => exact (between call _ within (returns call (by omega))).symm
  have picks : ∀ call < calls,
      Pick maxRunCount levels (counts call) (chosen call) (counts (call + 1)) := by
    intro call within
    rw [same call within]
    exact pick call within
  constructor
  · intro call within
    refine ⟨chosen call, (pick call within).member, after call, returns call within,
      takes call within, ?_, ?_⟩
    · intro level low
      exact counts_bounded picks (by decide) (start level low) within
    · exact scan_locks_released (fun level low => ((standing call within).count_pos low).2)
        (List.range niceLevels) nodup_range (fun level => mem_range.mp)
        ⟨none, none, ((before call).processors p).runCounts⟩ (by simp) (by simp)
  · intro first within level member
    have positive : 0 < 3 ^ levels.card := by positivity
    rcases picked_in_window picks (by decide) (fun level member =>
      start level ((standing 0 (by omega)).within level member)) member first within with
      ⟨call, since, soon, rfl⟩
    have inside : call < calls := soon.trans_le within
    exact ⟨call, after call, since, soon, returns call inside, takes call inside⟩

/-- One thread waits on level 8 of the first processor and one on level 9. -/
def twoLevels (runCounts : Nat → Nat) : Scheduler 2 Nat :=
  { twoProcessors with
    lists := update (update twoProcessors.lists (.run 0 8) ⟨some 7, some 7, 1⟩)
      (.run 0 9) ⟨some 5, some 5, 1⟩ }.setRunCounts 0 runCounts

/-- The counters at each call, with both threads back on their lists by then. -/
def countsAt : Nat → Nat → Nat
  | 0 => fun _ => 0
  | call + 1 =>
    (((twoLevels (countsAt call)).pickNext 0).map fun after =>
      (after.processors 0).runCounts).getD (countsAt call)

theorem two_levels_standing (runCounts : Nat → Nat) : Standing (twoLevels runCounts) 0 {8, 9} := by
  have lists : ∀ level, (twoLevels runCounts).lists (.run 0 level) =
      if level = 9 then ⟨some 5, some 5, 1⟩ else if level = 8 then ⟨some 7, some 7, 1⟩ else .empty := by
    intro level
    simp [twoLevels, setRunCounts, setProcessor, update_apply, twoProcessors]
  have contents : ∀ level, (twoLevels runCounts).contents (.run 0 level) =
      if level = 9 then [5] else if level = 8 then [7] else [] := by
    intro level
    rw [Scheduler.contents, lists]
    split_ifs <;> rfl
  constructor
  · decide
  · intro level _
    rw [contents, lists]
    split_ifs
    · exact ⟨rfl, rfl, rfl, nodup_singleton 5, rfl, trivial⟩
    · exact ⟨rfl, rfl, rfl, nodup_singleton 7, rfl, trivial⟩
    · exact holds_empty _
  · intro level _
    rw [contents, Finset.mem_insert, Finset.mem_singleton]
    split_ifs <;> simp_all

theorem pick_next_rotates_on_two_levels :
    (∃ call after, 0 ≤ call ∧ call < 0 + 3 ^ ({8, 9} : Finset Nat).card ∧
      (twoLevels (countsAt call)).pickNext 0 = some after ∧
      TakesHead 0 8 (twoLevels (countsAt call)) after) ∧
    ∃ call after, 0 ≤ call ∧ call < 0 + 3 ^ ({8, 9} : Finset Nat).card ∧
      (twoLevels (countsAt call)).pickNext 0 = some after ∧
      TakesHead 0 9 (twoLevels (countsAt call)) after := by
  have rotates := (pick_next_rotates (Finset.insert_nonempty 8 {9}) 0 9
    (fun call => twoLevels (countsAt call)) (fun call _ => two_levels_standing (countsAt call))
    (by decide) ?_).2 0 (by decide)
  · exact ⟨rotates 8 (by decide), rotates 9 (by decide)⟩
  · intro call after _ returned
    simp only [countsAt, returned, map_some, getD_some]
    simp [twoLevels, setRunCounts, setProcessor]

end FrostyKernel.Scheduling
