import Mathlib.Data.List.Basic
import ArchivAgent.Agent.Breaker
import ArchivAgent.Transition.Run

/-!
# When the breaker trips

Runs of calls on one breaker, with their answers, at times that never go back. Beside the breaker's
own state a run keeps the faults recorded since the breaker last closed, which the breaker does not.
-/

namespace ArchivAgent
open Transition

namespace CircuitBreaker

inductive Call where
  | allow (now : Nat)
  | fault (now : Nat)
  deriving DecidableEq, Repr

def Call.now : Call → Nat
  | .allow now | .fault now => now

/-- The breaker, the time of the last call, and the faults since it last closed, or since it was made. -/
structure Watched where
  inner : Inner
  clock : Nat
  recorded : List Nat := []
  deriving DecidableEq, Repr

def Watched.start (now : Nat) : Watched := ⟨{ windowStart := now }, now, []⟩

def Watched.call (b : CircuitBreaker) (s : Watched) : Call → Bool × Watched
  | .allow now =>
    let (allowed, inner) := b.allowAt s.inner now
    (allowed, ⟨inner, now, if allowed && s.inner.openedAt.isSome then [] else s.recorded⟩)
  | .fault now =>
    let (tripped, inner) := b.recordFaultAt s.inner now
    (tripped, ⟨inner, now, s.recorded ++ [now]⟩)

def step (b : CircuitBreaker) (s : Watched) (e : Call × Bool) : Option Watched :=
  if s.clock ≤ e.1.now ∧ (s.call b e.1).1 = e.2 then some (s.call b e.1).2 else none

/-- The faults in the window that ends at `now`. -/
def recent (b : CircuitBreaker) (now : Nat) (faults : List Nat) : List Nat :=
  faults.filter fun t => now - t ≤ b.window

/-- No fault starts a new window while one before it is still recent. -/
def Rolls (b : CircuitBreaker) (s : Watched) : Call × Bool → Prop
  | (.allow _, _) => True
  | (.fault now, _) => s.inner.openedAt = none → b.window < now - s.inner.windowStart → b.recent now s.recorded = []

instance (b : CircuitBreaker) (s : Watched) : (e : Call × Bool) → Decidable (Rolls b s e)
  | (.allow _, _) => isTrue trivial
  | (.fault _, _) => inferInstanceAs (Decidable (_ → _ → _))

section Steps
variable {b : CircuitBreaker} {s s' : Watched} {now : Nat} {answer : Bool}

theorem step_some {e : Call × Bool} : step b s e = some s' ↔
    s.clock ≤ e.1.now ∧ (s.call b e.1).1 = e.2 ∧ (s.call b e.1).2 = s' := by
  unfold step
  rw [Option.ite_none_right_eq_some, Option.some.injEq, and_assoc]

theorem allow_cases (h : step b s (.allow now, answer) = some s') : s.clock ≤ now ∧
    ((s.inner.openedAt = none ∧ answer = true ∧ s' = { s with clock := now }) ∨
      ∃ opened, s.inner.openedAt = some opened ∧
        ((now - opened < b.cooldown ∧ answer = false ∧ s' = { s with clock := now }) ∨
          (b.cooldown ≤ now - opened ∧ answer = true ∧ s' = .start now))) := by
  obtain ⟨later, answered, rfl⟩ := step_some.mp h
  refine ⟨later, ?_⟩
  obtain ⟨⟨windowStart, faults, opened⟩, clock, recorded⟩ := s
  cases opened with
  | none => exact .inl ⟨rfl, answered.symm, rfl⟩
  | some t =>
    refine .inr ⟨t, rfl, ?_⟩
    by_cases cooling : now - t < b.cooldown
    · have called : b.allowAt ⟨windowStart, faults, some t⟩ now = (false, ⟨windowStart, faults, some t⟩) := if_pos cooling
      simp only [Watched.call, called] at answered ⊢
      exact .inl ⟨cooling, answered.symm, rfl⟩
    · have called : b.allowAt ⟨windowStart, faults, some t⟩ now = (true, { windowStart := now }) := if_neg cooling
      simp only [Watched.call, called] at answered ⊢
      exact .inr ⟨by omega, answered.symm, rfl⟩

def counted (b : CircuitBreaker) (g : Inner) (now : Nat) : Nat × Nat :=
  if b.window < now - g.windowStart then (now, 1) else (g.windowStart, (g.faults + 1) % 2 ^ 32)

theorem recordFaultAt_eq (b : CircuitBreaker) (g : Inner) (now : Nat) : b.recordFaultAt g now =
    if b.threshold ≤ (counted b g now).2 ∧ g.openedAt = none then
      (true, ⟨(counted b g now).1, (counted b g now).2, some now⟩)
    else (false, ⟨(counted b g now).1, (counted b g now).2, g.openedAt⟩) := by
  unfold recordFaultAt counted
  by_cases expired : b.window < now - g.windowStart
  · simp only [if_pos expired]
    rfl
  · simp only [if_neg expired]

/-- A fault is counted, and the one that reaches the threshold opens a closed breaker. -/
theorem fault_cases (h : step b s (.fault now, answer) = some s') : s.clock ≤ now ∧
    s'.clock = now ∧ s'.recorded = s.recorded ++ [now] ∧ s'.inner.windowStart = (counted b s.inner now).1 ∧
    s'.inner.faults = (counted b s.inner now).2 ∧
    ((answer = true ∧ s.inner.openedAt = none ∧ b.threshold ≤ (counted b s.inner now).2 ∧ s'.inner.openedAt = some now) ∨
      (answer = false ∧ (s.inner.openedAt = none → (counted b s.inner now).2 < b.threshold) ∧
        s'.inner.openedAt = s.inner.openedAt)) := by
  obtain ⟨later, answered, rfl⟩ := step_some.mp h
  simp only [Watched.call, recordFaultAt_eq] at answered ⊢
  refine ⟨later, trivial, trivial, ?_⟩
  split at answered
  · rename_i trips
    rw [if_pos trips]
    exact ⟨rfl, rfl, .inl ⟨answered.symm, trips.2, trips.1, rfl⟩⟩
  · rename_i stays
    rw [if_neg stays]
    exact ⟨rfl, rfl, .inr ⟨answered.symm, fun closed => Nat.lt_of_not_le fun reached => stays ⟨reached, closed⟩, rfl⟩⟩

theorem recent_later (b : CircuitBreaker) {now later : Nat} (h : now ≤ later) (faults : List Nat) :
    (b.recent later faults).length ≤ (b.recent now faults).length := by
  apply List.Sublist.length_le
  apply List.monotone_filter_right
  intro t recent
  simp only [decide_eq_true_eq] at recent ⊢
  omega

theorem recent_snoc (b : CircuitBreaker) (now : Nat) (faults : List Nat) :
    (b.recent now (faults ++ [now])).length = (b.recent now faults).length + 1 := by
  simp [recent, List.filter_append]

end Steps

/-! ### What the breaker keeps -/

structure Counts (s : Watched) : Prop where
  started : s.inner.windowStart ≤ s.clock
  backed : s.inner.openedAt = none → s.inner.faults ≤ (s.recorded.filter fun t => s.inner.windowStart ≤ t).length

/-- The count of a closed breaker has every recent fault, and is below the threshold. -/
structure Complete (b : CircuitBreaker) (s : Watched) : Prop where
  below : s.inner.openedAt = none → s.inner.faults < b.threshold
  recent : s.inner.openedAt = none → (b.recent s.clock s.recorded).length ≤ s.inner.faults

section Invariants
variable {b : CircuitBreaker} {s s' : Watched} {made : Nat} {es : List (Call × Bool)}

theorem Counts.start (made : Nat) : Counts (.start made) := ⟨Nat.le_refl _, fun _ => Nat.zero_le _⟩

theorem Counts.step {e : Call × Bool} (one : CircuitBreaker.step b s e = some s') (counts : Counts s) : Counts s' := by
  obtain ⟨call, answer⟩ := e
  cases call with
  | allow now =>
    obtain ⟨later, ⟨-, -, rfl⟩ | ⟨opened, -, ⟨-, -, rfl⟩ | ⟨-, -, rfl⟩⟩⟩ := allow_cases one
    · exact ⟨Nat.le_trans counts.started later, counts.backed⟩
    · exact ⟨Nat.le_trans counts.started later, counts.backed⟩
    · exact Counts.start now
  | fault now =>
    obtain ⟨later, clock, recorded, start, faults, opened⟩ := fault_cases one
    have started := counts.started
    refine ⟨?_, fun closed => ?_⟩
    · rw [start, clock]
      unfold counted
      split <;> simp only <;> omega
    · have before : s.inner.openedAt = none := by
        rcases opened with ⟨-, -, -, same⟩ | ⟨-, -, same⟩
        · rw [same] at closed
          cases closed
        · rw [← same]
          exact closed
      have backed := counts.backed before
      rw [start, faults, recorded, List.filter_append, List.length_append]
      unfold counted
      split
      · simp
      · have here : decide (s.inner.windowStart ≤ now) = true := by
          rw [decide_eq_true_eq]
          omega
        have fewer := Nat.mod_le (s.inner.faults + 1) (2 ^ 32)
        simp only [List.filter_cons_of_pos, here, List.filter_nil, List.length_singleton]
        omega

theorem run_counts (ran : run (CircuitBreaker.step b) (.start made) es = some s) : Counts s :=
  run_invariant Counts ran (fun _ _ _ _ one => Counts.step one) (Counts.start made)

theorem Complete.start (positive : 1 ≤ b.threshold) (made : Nat) : Complete b (.start made) :=
  ⟨fun _ => positive, fun _ => Nat.le_refl _⟩

theorem Complete.later (complete : Complete b s) {now : Nat} (later : s.clock ≤ now) : Complete b { s with clock := now } :=
  ⟨complete.below, fun closed => Nat.le_trans (recent_later b later _) (complete.recent closed)⟩

theorem Complete.step (positive : 1 ≤ b.threshold) (small : b.threshold < 2 ^ 32) {e : Call × Bool}
    (one : CircuitBreaker.step b s e = some s') (rolls : Rolls b s e) (complete : Complete b s) : Complete b s' := by
  obtain ⟨call, answer⟩ := e
  cases call with
  | allow now =>
    obtain ⟨later, ⟨-, -, rfl⟩ | ⟨opened, -, ⟨-, -, rfl⟩ | ⟨-, -, rfl⟩⟩⟩ := allow_cases one
    · exact complete.later later
    · exact complete.later later
    · exact Complete.start positive now
  | fault now =>
    obtain ⟨later, clock, recorded, -, faults, opened⟩ := fault_cases one
    rcases opened with ⟨-, -, -, same⟩ | ⟨-, below, same⟩
    · have opened : s'.inner.openedAt ≠ none := by
        rw [same]
        exact Option.some_ne_none now
      exact ⟨fun closed => absurd closed opened, fun closed => absurd closed opened⟩
    · refine ⟨fun closed => faults ▸ below (same ▸ closed), fun closed => ?_⟩
      have before : s.inner.openedAt = none := same ▸ closed
      rw [faults, clock, recorded, recent_snoc]
      unfold counted
      split
      · rename_i expired
        rw [rolls before expired]
        exact Nat.le_refl _
      · -- The count does not wrap below the threshold.
        have few := complete.below before
        have counted := complete.recent before
        have fewer := recent_later b later s.recorded
        simp only
        rw [Nat.mod_eq_of_lt (by omega)]
        omega

end Invariants

/-! ### Trips -/

/-- While it is open a breaker allows nothing and trips no more, until the cooldown is over. -/
theorem open_silent {b : CircuitBreaker} {s s' : Watched} {t : Nat} {fs : List (Call × Bool)}
    (opened : s.inner.openedAt = some t) (ran : run (step b) s fs = some s')
    (cooling : ∀ e ∈ fs, ∀ u, e.1 = .allow u → u - t < b.cooldown) :
    (∀ e ∈ fs, e.2 = false) ∧ s'.inner.openedAt = some t := by
  induction fs generalizing s with
  | nil =>
    cases ran
    exact ⟨by simp, opened⟩
  | cons e fs ih =>
    obtain ⟨mid, one, rest⟩ := run_cons_some.mp ran
    simp only [List.mem_cons, forall_eq_or_imp] at cooling ⊢
    obtain ⟨call, answer⟩ := e
    cases call with
    | allow u =>
      have soon := cooling.1 u rfl
      obtain ⟨-, ⟨closed, -, -⟩ | ⟨since, here, ⟨-, refused, rfl⟩ | ⟨expired, -, -⟩⟩⟩ := allow_cases one
      · rw [opened] at closed
        cases closed
      · have later := @ih { s with clock := u } opened rest cooling.2
        exact ⟨⟨refused, later.1⟩, later.2⟩
      · rw [opened] at here
        cases here
        omega
    | fault now =>
      obtain ⟨-, -, -, -, -, ⟨-, closed, -⟩ | ⟨silent, -, same⟩⟩ := fault_cases one
      · rw [opened] at closed
        cases closed
      · have later := ih (same.trans opened) rest cooling.2
        exact ⟨⟨silent, later.1⟩, later.2⟩

/-- A trip is backed by the faults of a window, is the only one until the breaker closes, and the
breaker closes at the first call after the cooldown, as one that was just made. -/
structure TripsOnce (b : CircuitBreaker) (made : Nat) : Prop where
  justified : ∀ es t s, run (step b) (.start made) (es ++ [(.fault t, true)]) = some s →
    b.threshold ≤ (b.recent t s.recorded).length
  silent : ∀ es t s, run (step b) (.start made) (es ++ [(.fault t, true)]) = some s →
    ∀ fs s', run (step b) s fs = some s' → (∀ e ∈ fs, ∀ u, e.1 = .allow u → u - t < b.cooldown) → ∀ e ∈ fs, e.2 = false
  closes : ∀ es t s, run (step b) (.start made) (es ++ [(.fault t, true)]) = some s →
    ∀ fs s', run (step b) s fs = some s' → (∀ e ∈ fs, ∀ u, e.1 = .allow u → u - t < b.cooldown) →
      ∀ u answer s'', step b s' (.allow u, answer) = some s'' → b.cooldown ≤ u - t → answer = true ∧ s'' = .start u

theorem trip_opens {b : CircuitBreaker} {made t : Nat} {es : List (Call × Bool)} {s : Watched}
    (ran : run (step b) (.start made) (es ++ [(.fault t, true)]) = some s) : s.inner.openedAt = some t := by
  obtain ⟨mid, -, one⟩ := run_snoc.mp ran
  obtain ⟨-, -, -, -, -, ⟨-, -, -, opened⟩ | ⟨silent, -, -⟩⟩ := fault_cases one
  · exact opened
  · cases silent

theorem trips_once (threshold window cooldown made : Nat) : TripsOnce (new threshold window cooldown) made where
  justified es t s ran := by
    obtain ⟨mid, before, one⟩ := run_snoc.mp ran
    have counts := run_counts before
    obtain ⟨later, -, recorded, -, -, ⟨-, closed, reached, -⟩ | ⟨silent, -, -⟩⟩ := fault_cases one
    · apply Nat.le_trans reached
      rw [recorded]
      unfold counted recent
      split
      · simp
      · rename_i inWindow
        have backed := counts.backed closed
        have wider : (mid.recorded.filter fun u => mid.inner.windowStart ≤ u).length
            ≤ (mid.recorded.filter fun u => t - u ≤ (new threshold window cooldown).window).length := by
          apply List.Sublist.length_le
          apply List.monotone_filter_right
          intro u counted
          simp only [decide_eq_true_eq] at counted ⊢
          omega
        have fewer := Nat.mod_le (mid.inner.faults + 1) (2 ^ 32)
        have grown := recent_snoc (new threshold window cooldown) t mid.recorded
        unfold recent at grown
        rw [grown]
        simp only
        omega
    · cases silent
  silent es t s ran fs s' more cooling := (open_silent (trip_opens ran) more cooling).1
  closes es t s ran fs s' more cooling u answer s'' one expired := by
    have opened := (open_silent (trip_opens ran) more cooling).2
    obtain ⟨-, ⟨closed, -, -⟩ | ⟨since, here, ⟨soon, -, -⟩ | ⟨-, allowed, fresh⟩⟩⟩ := allow_cases one
    · rw [opened] at closed
      cases closed
    · rw [opened] at here
      cases here
      omega
    · exact ⟨allowed, fresh⟩

/-- As long as no window starts over a recent fault, a burst of faults in one window opens the breaker. -/
theorem burst_opens {threshold window cooldown made : Nat} (positive : 1 ≤ threshold) (small : threshold < 2 ^ 32)
    {es : List (Call × Bool)} {t : Nat} {answer : Bool} {s : Watched}
    (ran : run (step (new threshold window cooldown)) (.start made) (es ++ [(.fault t, answer)]) = some s)
    (rolls : Along (step (new threshold window cooldown)) (Rolls (new threshold window cooldown)) (.start made)
      (es ++ [(.fault t, answer)]))
    (burst : threshold ≤ ((new threshold window cooldown).recent t s.recorded).length) : s.inner.openedAt ≠ none := by
  have same : (new threshold window cooldown).threshold = threshold := Nat.max_eq_left positive
  have complete := along_invariant (Complete (new threshold window cooldown)) ran rolls
    (fun _ _ _ one rolls complete => Complete.step (by omega) (by omega) one rolls complete)
    (Complete.start (by omega) made)
  obtain ⟨mid, -, one⟩ := run_snoc.mp ran
  obtain ⟨-, clock, -⟩ := fault_cases one
  intro closed
  have below := complete.below closed
  have counted := complete.recent closed
  rw [clock] at counted
  omega

theorem burst_opens_pair : (⟨⟨0, 2, some 5⟩, 5, [1, 5]⟩ : Watched).inner.openedAt ≠ none :=
  @burst_opens 2 10 30 0 (by decide) (by decide) [(.fault 1, false)] 5 true ⟨⟨0, 2, some 5⟩, 5, [1, 5]⟩ rfl (by decide)
    (by decide)

/-- Two faults 2 apart, with the end of the first window between them. -/
theorem burst_opens_not : ¬ ∀ threshold window cooldown made, 1 ≤ threshold → threshold < 2 ^ 32 → ∀ es t answer s,
    run (step (new threshold window cooldown)) (.start made) (es ++ [(.fault t, answer)]) = some s →
      threshold ≤ ((new threshold window cooldown).recent t s.recorded).length → s.inner.openedAt ≠ none := by
  intro opens
  have opened := opens 2 10 30 0 (by decide) (by decide) [(.fault 9, false)] 11 false ⟨⟨11, 1, none⟩, 11, [9, 11]⟩ rfl
    (by decide)
  exact opened rfl

end CircuitBreaker

end ArchivAgent
