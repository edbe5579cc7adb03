import ArchivAgent.Spool.Life

/-!
# The drain loop

`src/spool.rs`, `run_drain_loop`. The agent's one drainer: it calls `drain_once`, sleeps for as
long as the outcome says, and looks for the shutdown signal only while it sleeps. Pushes go on
beside it. Times are milliseconds.
-/

namespace ArchivAgent.Spool
open Wire (Bytes)

def idlePoll : Nat := 1000

def backoffBase : Nat := 1000

def backoffMax : Nat := 30000

/-- Off the nanoseconds of the clock's second. -/
def jitter (subsecNanos : Nat) : Nat := subsecNanos % 250

def Event.drainId : Event → Option Nat
  | .select id | .read id | .unreadable id | .forward id | .refuse id | .remove id | .removeFailed id | .settle id => some id
  | _ => none

inductive LoopPhase where
  | draining
  | waiting (wait : Nat)
  | stopped
  deriving DecidableEq, Repr

/-- A call of `drain_once`: the entry it went for, and what it returned. -/
structure Round where
  seq : Option Nat
  outcome : DrainOutcome
  deriving DecidableEq, Repr

structure DrainLoop where
  world : World
  backoff : Nat := backoffBase
  phase : LoopPhase := .draining
  rounds : List Round := []
  /-- The sleeps that are over. -/
  slept : Nat := 0

inductive LoopEvent where
  | push (e : Event)
  /-- A step of the loop's `drain_once`; the clock is read where it returns `Retry`. -/
  | drain (e : Event) (subsecNanos : Nat)
  | wake
  | shutdown
  deriving DecidableEq, Repr

namespace DrainLoop

def call : Nat := 0

def current (s : DrainLoop) : Option Nat := (s.world.drains.lookup call).map Drain.seq

def answered (s : DrainLoop) (subsecNanos : Nat) (outcome : DrainOutcome) (world : World) : DrainLoop :=
  let s' : DrainLoop := { s with world, rounds := s.rounds ++ [⟨s.current, outcome⟩] }
  match outcome with
  -- catch up greedily
  | .delivered => { s' with backoff := backoffBase, phase := .waiting 0 }
  | .idle => { s' with phase := .waiting idlePoll }
  | .retry => { s' with
      backoff := min (s.backoff * 2) backoffMax
      phase := .waiting (s.backoff + jitter subsecNanos) }

def step (s : DrainLoop) : LoopEvent → Option DrainLoop
  | .push e => if e.pushId.isSome then (s.world.step e).map fun world => { s with world } else none
  | .drain e subsecNanos =>
    if e.drainId = some call ∧ s.phase = .draining then
      (s.world.step e).map fun world => match s.world.returns e with
        | some (_, .drained outcome) => s.answered subsecNanos outcome world
        | _ => { s with world }
    else none
  | .wake => match s.phase with
    | .waiting wait => some { s with phase := .draining, slept := s.slept + wait }
    | _ => none
  | .shutdown => match s.phase with
    | .waiting _ => some { s with phase := .stopped }
    | _ => none

def run (s : DrainLoop) (es : List LoopEvent) : Option DrainLoop := Transition.run step s es

def start (sp : Spool) (files : Files) : DrainLoop where
  world := .start sp files

/-- A push, and a call that the destination refuses. -/
def refused : List LoopEvent :=
  ([.push 0 [7], .create 0, .write 0 1, .sync 0, .rename 0, .publish 0].map .push) ++
    [.drain (.select call) 0, .drain (.read call) 0, .drain (.refuse call) 999999999]

/-- The sleep after it, and a call that goes through. -/
def resent : List LoopEvent :=
  .wake :: ([.select call, .read call, .forward call, .remove call, .settle call].map fun e => .drain e 0)

/-! ### What a step does -/

/-- A step of `drain_once` that is not its last. -/
inductive Goes (s : World) : Event → World → Prop where
  | select {seq len} (fresh : s.drains.lookup call = none) (oldest : s.state.oldest = some (seq, len)) :
      Goes s (.select call) { s with drains := s.drains.insert call ⟨seq, len, .selected⟩ }
  | read {d bytes} (here : s.drains.lookup call = some d) (phase : d.phase = .selected)
      (held : s.files.lookup (otlpName d.seq) = some bytes) : Goes s (.read call) (s.setDrain call d (.read bytes))
  | forward {d bytes} (here : s.drains.lookup call = some d) (phase : d.phase = .read bytes) :
      Goes s (.forward call) (s.delivers call d bytes)
  | remove {d bytes content} (here : s.drains.lookup call = some d) (phase : d.phase = .forwarded bytes)
      (held : s.files.lookup (otlpName d.seq) = some content) :
      Goes s (.remove call) ((s.removeFile d.seq).setDrain call d (.removed bytes))
  | removeFailed {d bytes} (here : s.drains.lookup call = some d) (phase : d.phase = .forwarded bytes) :
      Goes s (.removeFailed call) (s.setDrain call d (.removed bytes))

/-- The last step of `drain_once`. -/
inductive Ends (s : World) : Event → DrainOutcome → World → Prop where
  | idle (fresh : s.drains.lookup call = none) (empty : s.state.oldest = none) : Ends s (.select call) .idle s
  | unreadable {d} (here : s.drains.lookup call = some d) (phase : d.phase = .selected) :
      Ends s (.unreadable call) .retry (s.retried call)
  | refuse {d bytes} (here : s.drains.lookup call = some d) (phase : d.phase = .read bytes) :
      Ends s (.refuse call) .retry (s.retried call)
  | settle {d bytes} (here : s.drains.lookup call = some d) (phase : d.phase = .removed bytes) :
      Ends s (.settle call) .delivered (s.settled call d)

inductive Step (s : DrainLoop) : LoopEvent → DrainLoop → Prop where
  | push {e world} (mine : e.pushId.isSome = true) (one : s.world.step e = some world) : Step s (.push e) { s with world }
  | goes {e subsecNanos world} (draining : s.phase = .draining) (one : s.world.step e = some world)
      (goes : Goes s.world e world) : Step s (.drain e subsecNanos) { s with world }
  | ends {e subsecNanos outcome world} (draining : s.phase = .draining) (one : s.world.step e = some world)
      (ends : Ends s.world e outcome world) : Step s (.drain e subsecNanos) (s.answered subsecNanos outcome world)
  | wake {wait} (waiting : s.phase = .waiting wait) : Step s .wake { s with phase := .draining, slept := s.slept + wait }
  | shutdown {wait} (waiting : s.phase = .waiting wait) : Step s .shutdown { s with phase := .stopped }

theorem step_cases {s s' : DrainLoop} {e : LoopEvent} (h : s.step e = some s') : Step s e s' := by
  cases e with
  | push e =>
    simp only [step] at h
    split at h
    · obtain ⟨world, one, rfl⟩ := Option.map_eq_some_iff.mp h
      exact .push ‹_› one
    · cases h
  | drain e subsecNanos =>
    simp only [step] at h
    split at h
    · rename_i calls
      obtain ⟨mine, draining⟩ := calls
      obtain ⟨world, one, rfl⟩ := Option.map_eq_some_iff.mp h
      cases World.step_cases one with
      | select fresh oldest =>
        cases mine
        simp only [World.returns, oldest]
        exact .goes draining one (.select fresh oldest)
      | idle fresh empty =>
        cases mine
        simp only [World.returns, empty, if_true]
        exact .ends draining one (.idle fresh empty)
      | read here phase held =>
        cases mine
        exact .goes draining one (.read here phase held)
      | unreadable here phase =>
        cases mine
        exact .ends draining one (.unreadable here phase)
      | forward here phase =>
        cases mine
        exact .goes draining one (.forward here phase)
      | retry here phase =>
        cases mine
        exact .ends draining one (.refuse here phase)
      | remove here phase held =>
        cases mine
        exact .goes draining one (.remove here phase held)
      | removeFailed here phase =>
        cases mine
        exact .goes draining one (.removeFailed here phase)
      | settle here phase =>
        cases mine
        exact .ends draining one (.settle here phase)
      | _ => cases mine
    · cases h
  | wake =>
    simp only [step] at h
    split at h <;> cases h
    exact .wake ‹_›
  | shutdown =>
    simp only [step] at h
    split at h <;> cases h
    exact .shutdown ‹_›

theorem answered_world (s : DrainLoop) (n : Nat) (outcome : DrainOutcome) (world : World) :
    (s.answered n outcome world).world = world := by
  cases outcome <;> rfl

theorem answered_rounds (s : DrainLoop) (n : Nat) (outcome : DrainOutcome) (world : World) :
    (s.answered n outcome world).rounds = s.rounds ++ [⟨s.current, outcome⟩] := by
  cases outcome <;> rfl

/-- The spool sees a run of its own calls. -/
theorem world_of_step {s s' : DrainLoop} {e : LoopEvent} (h : s.step e = some s') :
    s'.world = s.world ∨ ∃ e, s.world.step e = some s'.world := by
  cases step_cases h with
  | push _ one => exact .inr ⟨_, one⟩
  | goes _ one => exact .inr ⟨_, one⟩
  | ends _ one => exact .inr ⟨_, by rw [answered_world]; exact one⟩
  | wake | shutdown => exact .inl rfl

/-- What every step of the spool keeps, the loop keeps. -/
theorem run_world (Inv : World → Prop) (keeps : ∀ w w' e, w.step e = some w' → Inv w → Inv w') {s s' : DrainLoop}
    {es : List LoopEvent} (ran : s.run es = some s') (start : Inv s.world) : Inv s'.world := by
  refine Transition.run_invariant (fun s => Inv s.world) ran (fun e _ s s' one held => ?_) start
  rcases world_of_step one with same | ⟨e, one⟩
  · rw [same]
    exact held
  · exact keeps _ _ e one held

end DrainLoop

end ArchivAgent.Spool
