import ArchivAgent.Backoff.Doubling
import ArchivAgent.Spool.DrainLoop
import ArchivAgent.Transition.Rank

/-!
# The pace of the drain loop

How long the loop sleeps, from the rounds before, and how often it can try a destination that is
down.
-/

namespace ArchivAgent.Spool
open Backoff

def LoopEvent.fails : LoopEvent → Bool
  | .drain (.unreadable _) _ | .drain (.refuse _) _ => true
  | _ => false

/-- The call is over and its payload delivered. -/
def LoopEvent.settles : LoopEvent → Bool
  | .drain (.settle _) _ => true
  | _ => false

namespace DrainLoop

/-- The failed calls since the last delivery. -/
def streak (rounds : List Round) : Nat :=
  rounds.foldl (fun n r => match r.outcome with
    | .delivered => 0
    | .idle => n
    | .retry => n + 1) 0

theorem streak_snoc (rounds : List Round) (r : Round) : streak (rounds ++ [r]) = match r.outcome with
    | .delivered => 0
    | .idle => streak rounds
    | .retry => streak rounds + 1 := by
  rw [streak, List.foldl_append]
  rfl

/-- How long the loop sleeps after an outcome, with the calls that had failed before it. -/
def Sleeps (failed : Nat) (wait : Nat) : DrainOutcome → Prop
  | .delivered => wait = 0
  | .idle => wait = idlePoll
  | .retry => delay backoffBase backoffMax failed ≤ wait ∧ wait < delay backoffBase backoffMax failed + 250

structure Paced (s : DrainLoop) : Prop where
  backoff : s.backoff = delay backoffBase backoffMax (streak s.rounds)
  waits : ∀ wait, s.phase = .waiting wait → ∃ before last, s.rounds = before ++ [last] ∧
    Sleeps (streak before) wait last.outcome

theorem base_delay : backoffBase = delay backoffBase backoffMax 0 := (delay_zero (by decide)).symm

theorem start_paced (sp : Spool) (files : Files) : (start sp files).Paced :=
  ⟨base_delay, fun wait waiting => by cases waiting⟩

section Steps
variable {s s' : DrainLoop} {e : LoopEvent}

theorem Paced.answered (paced : s.Paced) (subsecNanos : Nat) (outcome : DrainOutcome) (world : World) :
    (s.answered subsecNanos outcome world).Paced := by
  refine ⟨?_, fun wait waiting => ⟨s.rounds, ⟨s.current, outcome⟩, answered_rounds _ _ _ _, ?_⟩⟩
  · rw [answered_rounds, streak_snoc]
    cases outcome with
    | delivered => exact base_delay
    | idle => exact paced.backoff
    | retry =>
      show min (s.backoff * 2) backoffMax = _
      rw [delay_succ, paced.backoff]
  · cases outcome with
    | delivered | idle =>
      cases waiting
      rfl
    | retry =>
      cases waiting
      have jittered : jitter subsecNanos < 250 := Nat.mod_lt _ (by decide)
      show delay _ _ _ ≤ _ ∧ _ < delay _ _ _ + 250
      rw [← paced.backoff]
      exact ⟨Nat.le_add_right _ _, Nat.add_lt_add_left jittered _⟩

theorem step_paced (h : s.step e = some s') (paced : s.Paced) : s'.Paced := by
  cases step_cases h with
  | push | goes => exact ⟨paced.backoff, paced.waits⟩
  | ends => exact paced.answered _ _ _
  | wake | shutdown => exact ⟨paced.backoff, fun wait waiting => by cases waiting⟩

/-- The sleep that the loop is in; one cut short by the shutdown counts as the longest. -/
def waiting (s : DrainLoop) : Nat :=
  match s.phase with
  | .draining => 0
  | .waiting wait => wait
  | .stopped => backoffMax + 250

/-- The sleeps and what they were short of the longest: a failed call adds the longest one. -/
def waited (s : DrainLoop) : Nat := s.slept + s.waiting + shortfall backoffBase backoffMax (streak s.rounds)

theorem Paced.waiting_le (paced : s.Paced) : s.waiting ≤ backoffMax + 250 := by
  cases phase : s.phase with
  | draining => rw [waiting, phase]; exact Nat.zero_le _
  | stopped => rw [waiting, phase]
  | waiting wait =>
    obtain ⟨before, last, -, sleeps⟩ := paced.waits wait phase
    rw [waiting, phase]
    cases outcome : last.outcome with
    | delivered =>
      rw [outcome] at sleeps
      obtain rfl : wait = 0 := sleeps
      exact Nat.zero_le _
    | idle =>
      rw [outcome] at sleeps
      obtain rfl : wait = idlePoll := sleeps
      decide
    | retry =>
      rw [outcome] at sleeps
      have short : delay backoffBase backoffMax (streak before) ≤ backoffMax := delay_le
      have long : wait < delay backoffBase backoffMax (streak before) + 250 := sleeps.2
      show wait ≤ _
      omega

theorem answered_waited (paced : s.Paced) (draining : s.phase = .draining) (subsecNanos : Nat) (outcome : DrainOutcome)
    (world : World) (undelivered : outcome ≠ .delivered) :
    s.waited + (if outcome = .retry then backoffMax else 0) ≤ (s.answered subsecNanos outcome world).waited := by
  have still : s.waiting = 0 := by rw [waiting, draining]
  rw [waited, waited, answered_rounds, streak_snoc, still]
  cases outcome with
  | delivered => exact absurd rfl undelivered
  | idle =>
    show _ ≤ s.slept + idlePoll + _
    simp only [if_neg (show DrainOutcome.idle ≠ .retry by decide)]
    omega
  | retry =>
    show _ ≤ s.slept + (s.backoff + jitter subsecNanos) + _
    have short := @shortfall_succ backoffBase backoffMax (streak s.rounds)
    rw [← paced.backoff] at short
    simp only [if_true]
    omega

theorem step_waited (h : s.step e = some s') (paced : s.Paced) (unsettled : e.settles = false) :
    s.waited + (if e.fails then backoffMax else 0) ≤ s'.waited := by
  cases step_cases h with
  | @push e => exact Nat.le_refl _
  | goes _ _ goes => cases goes <;> exact Nat.le_refl _
  | @ends e n outcome world draining one ends =>
    have bound := answered_waited paced draining n outcome world
    cases ends with
    | idle | unreadable | refuse => exact bound nofun
    | settle => cases unsettled
  | wake waiting =>
    rw [waited, waited, DrainLoop.waiting, waiting]
    exact Nat.le_refl _
  | shutdown waits =>
    have longest := paced.waiting_le
    rw [waited, waited]
    show s.slept + s.waiting + _ + 0 ≤ s.slept + (backoffMax + 250) + shortfall backoffBase backoffMax (streak s.rounds)
    omega

end Steps

theorem run_paced {s s' : DrainLoop} {es : List LoopEvent} (ran : s.run es = some s') (paced : s.Paced) : s'.Paced :=
  Transition.run_invariant Paced ran (fun _ _ _ _ one paced => step_paced one paced) paced

/-- In every state of a run the loop sleeps for as long as the rounds so far say. -/
theorem waits_back_off {sp : Spool} {files : Files} {es : List LoopEvent} {s : DrainLoop}
    (ran : (start sp files).run es = some s) : s.Paced :=
  run_paced ran (start_paced sp files)

theorem waits_back_off_refused : ∃ s, (start ⟨10, 0, 0, ∅⟩ ∅).run refused = some s ∧
    s.phase = .waiting 1249 ∧ s.backoff = 2000 ∧ s.Paced := by
  obtain ⟨s, ran, waits⟩ := Option.map_eq_some_iff.mp
    (show ((start ⟨10, 0, 0, ∅⟩ ∅).run refused).map (fun s => (s.phase, s.backoff)) = some (.waiting 1249, 2000) by
      decide +kernel)
  exact ⟨s, ran, congrArg Prod.fst waits, congrArg Prod.snd waits, waits_back_off ran⟩

/-- In a stretch without a delivery, a call fails at most once in 30 s and four times besides. -/
theorem failures_bounded {sp : Spool} {files : Files} {es more : List LoopEvent} {s s' : DrainLoop}
    (ran : (start sp files).run es = some s) (stretch : s.run more = some s') (undelivered : ∀ e ∈ more, e.settles = false) :
    backoffMax * more.countP LoopEvent.fails + s.slept < s'.slept + 5 * backoffMax := by
  have paced := run_paced ran (start_paced sp files)
  have gained := Transition.run_gains Paced waited LoopEvent.fails backoffMax stretch
    (fun e member s s' one paced => ⟨step_paced one paced, step_waited one paced (undelivered e member)⟩) paced
  have longest := (run_paced stretch paced).waiting_le
  have short : shortfall backoffBase backoffMax (streak s'.rounds) ≤ shortfall backoffBase backoffMax 5 :=
    shortfall_le (by decide)
  have first : shortfall backoffBase backoffMax 5 = 119000 := by decide
  rw [waited, waited] at gained
  have cap : backoffMax = 30000 := rfl
  omega

theorem failures_bounded_refused : ∃ s s', (start ⟨10, 0, 0, ∅⟩ ∅).run (refused.take 6) = some s ∧
    s.run (refused.drop 6) = some s' ∧ 30000 * 1 + s.slept < s'.slept + 150000 := by
  obtain ⟨s, ran, more⟩ := Option.bind_eq_some_iff.mp
    (show ((start ⟨10, 0, 0, ∅⟩ ∅).run (refused.take 6)).bind (fun s => (s.run (refused.drop 6)).map fun _ => ()) = some () by
      decide +kernel)
  obtain ⟨s', stretch, -⟩ := Option.map_eq_some_iff.mp more
  exact ⟨s, s', ran, stretch, failures_bounded ran stretch (by decide)⟩

end DrainLoop

end ArchivAgent.Spool
