import ArchivAgent.Agent.Pipeline
import ArchivAgent.Spool.World

/-!
# The service

`src/server.rs`: clients submit to a bounded queue, workers take jobs, run the pipeline, forward,
and spool what they cannot forward. An event is one step of one client, worker or drain. A push
has the number of its worker. What the destination and the file system answer, the pipeline that
is installed, the breaker's state, the clock and a stage's fault are part of the event.
-/

namespace ArchivAgent
open Wire (Bytes)

inductive Verdict where
  | accepted
  | malformed
  | forwardFailed
  deriving DecidableEq, Repr

structure AppState where
  crates : Crates
  forwardEndpoint : Option Bytes
  channelCapacity : Nat

/-- A job carries its request's reply channel. -/
structure Job where
  request : Nat
  raw : Bytes
  deriving DecidableEq, Repr

inductive Worker where
  | idle
  | got (job : Job)
  | forwarding (job : Job) (output : Bytes)
  /-- The forward failed, and there is a spool. -/
  | down (job : Job) (output : Bytes)
  | spooling (job : Job) (output : Bytes)
  | finished (job : Job) (verdict : Verdict)
  | dead
  deriving DecidableEq, Repr

def Worker.job : Worker → Option Job
  | .got job | .forwarding job _ | .down job _ | .spooling job _ | .finished job _ => some job
  | .idle | .dead => none

/-- The one-shot channel of a request. -/
inductive Reply where
  | waiting
  | sent (verdict : Verdict)
  | dropped
  deriving DecidableEq, Repr

inductive Answer where
  | pending
  | returned (verdict : Verdict)
  /-- The client has gone. -/
  | gone
  deriving DecidableEq, Repr

structure Request where
  raw : Bytes
  reply : Reply
  answer : Answer
  deriving DecidableEq, Repr

structure Service where
  workers : Table Nat Worker
  spool : Option Spool.World
  queue : List Job := []
  requests : Table Nat Request := ∅
  /-- What the pipeline made of each request. -/
  governed : List (Nat × Bytes) := []
  /-- What a worker's own forward got a 2xx for. -/
  forwarded : List (Nat × Bytes) := []
  /-- What `run` returned for each request, and the bytes it ran on. -/
  verdicts : List (Nat × Bytes × Verdict) := []

inductive ServiceEvent where
  | submit (request : Nat) (raw : Bytes)
  | closed (request : Nat) (raw : Bytes)
  | recv (worker : Nat)
  | process (worker : Nat) (pipeline : Pipeline) (breaker : CircuitBreaker.Inner) (now : Nat) (fault : Option StageFault)
  | forward (worker : Nat)
  | refuse (worker : Nat)
  | push (worker : Nat)
  | io (worker : Nat) (e : Spool.Event)
  | publish (worker : Nat)
  | release (worker : Nat)
  | drain (e : Spool.Event)
  | respond (worker : Nat)
  | answer (request : Nat)
  | hangUp (request : Nat)
  | die (worker : Nat)

def Spool.Event.isIo : Spool.Event → Bool
  | .create _ | .write .. | .sync _ | .rename _ | .fail .. => true
  | _ => false

namespace Service

def setWorker (s : Service) (w : Nat) (k : Worker) : Service := { s with workers := s.workers.insert w k }

def setRequest (s : Service) (i : Nat) (r : Request) : Service := { s with requests := s.requests.insert i r }

/-- `run` returns. -/
def finish (s : Service) (w : Nat) (job : Job) (v : Verdict) : Service :=
  { s.setWorker w (.finished job v) with verdicts := s.verdicts ++ [(job.request, job.raw, v)] }

/-- The worker's task ends, and the reply channel of its job with it. -/
def kill (s : Service) (w : Nat) (job : Option Job) : Service :=
  match job.bind fun job => (s.requests.lookup job.request).map fun r => (job.request, r) with
  | some (i, r) => (s.setWorker w .dead).setRequest i { r with reply := if r.reply = .waiting then .dropped else r.reply }
  | none => s.setWorker w .dead

/-- The queue is closed when its last receiver is gone. -/
def isClosed (s : Service) : Bool := s.workers.entries.all fun e => e.2 = .dead

def enqueue (s : Service) (i : Nat) (raw : Bytes) : Service :=
  { s.setRequest i ⟨raw, .waiting, .pending⟩ with queue := s.queue ++ [⟨i, raw⟩] }

def take (s : Service) (w : Nat) (job : Job) (rest : List Job) : Service := { s.setWorker w (.got job) with queue := rest }

def governs (s : Service) (job : Job) (output : Bytes) : Service :=
  { s with governed := s.governed ++ [(job.request, output)] }

def step (app : AppState) (s : Service) : ServiceEvent → Option Service
  | .submit i raw =>
    match s.requests.lookup i with
    | some _ => none
    | none =>
      if s.queue.length < max app.channelCapacity 1 ∧ s.isClosed = false then some (s.enqueue i raw) else none
  | .closed i raw =>
    match s.requests.lookup i with
    | some _ => none
    | none => if s.isClosed then some (s.setRequest i ⟨raw, .dropped, .returned .forwardFailed⟩) else none
  | .recv w =>
    match s.workers.lookup w, s.queue with
    | some .idle, job :: rest => some (s.take w job rest)
    | _, _ => none
  | .process w pipeline breaker now fault =>
    match s.workers.lookup w with
    | some (.got job) =>
      match pipeline.process app.crates breaker now fault job.raw with
      | .error _ => some (s.kill w (some job))
      | .ok (processed, _) =>
        if processed.stats.parseBypassed then some (s.finish w job .malformed)
        else
          let output := processed.output.contiguous
          match app.forwardEndpoint with
          | none => some ((s.governs job output).finish w job .accepted)
          | some _ => some ((s.governs job output).setWorker w (.forwarding job output))
    | _ => none
  | .forward w =>
    match s.workers.lookup w with
    | some (.forwarding job output) =>
      some ({ s with forwarded := s.forwarded ++ [(job.request, output)] }.finish w job .accepted)
    | _ => none
  | .refuse w =>
    match s.workers.lookup w, s.spool with
    | some (.forwarding job output), some _ => some (s.setWorker w (.down job output))
    | some (.forwarding job _), none => some (s.finish w job .forwardFailed)
    | _, _ => none
  | .push w =>
    match s.workers.lookup w, s.spool with
    | some (.down job output), some world =>
      (world.step (.push w output)).map fun after =>
        match world.state.reserve world.maxBytes output.length with
        | .ok _ => { s with spool := some after }.setWorker w (.spooling job output)
        | .error (.err _) => { s with spool := some after }.finish w job .forwardFailed
        | .error _ => { s with spool := some after }.kill w (some job)
    | _, _ => none
  | .io w e =>
    match s.workers.lookup w, s.spool with
    | some (.spooling _ _), some world =>
      if e.isIo = true ∧ e.pushId = some w then (world.step e).map fun after => { s with spool := some after } else none
    | _, _ => none
  | .publish w =>
    match s.workers.lookup w, s.spool with
    | some (.spooling job _), some world =>
      (world.step (.publish w)).map fun after => { s with spool := some after }.finish w job .accepted
    | _, _ => none
  | .release w =>
    match s.workers.lookup w, s.spool with
    | some (.spooling job _), some world =>
      (world.step (.release w)).map fun after => { s with spool := some after }.finish w job .forwardFailed
    | _, _ => none
  | .drain e =>
    match s.spool with
    | some world => if e.pushId = none then (world.step e).map fun after => { s with spool := some after } else none
    | none => none
  | .respond w =>
    match s.workers.lookup w with
    | some (.finished job v) =>
      -- a receiver that has hung up is no error
      match s.requests.lookup job.request with
      | some r => some ((s.setRequest job.request { r with reply := .sent v }).setWorker w .idle)
      | none => some (s.setWorker w .idle)
    | _ => none
  | .answer i => do
    let r ← s.requests.lookup i
    match r.answer, r.reply with
    | .pending, .sent v => some (s.setRequest i { r with answer := .returned v })
    | .pending, .dropped => some (s.setRequest i { r with answer := .returned .forwardFailed })
    | _, _ => none
  | .hangUp i => do
    let r ← s.requests.lookup i
    if r.answer = .pending then some (s.setRequest i { r with answer := .gone }) else none
  | .die w => do
    let k ← s.workers.lookup w
    if k = .dead then none else some (s.kill w k.job)

def run (app : AppState) (s : Service) (es : List ServiceEvent) : Option Service := Transition.run (step app) s es

/-- `workers.max(1)` idle workers. -/
def spawnPool (workers : Nat) (spool : Option Spool.World) : Service where
  workers := ((List.range (max workers 1)).map fun w => (⟨w, .idle⟩ : Sigma fun _ : Nat => Worker)).toAList
  spool := spool

/-! ### What a step does -/

inductive Step (app : AppState) (s : Service) : ServiceEvent → Service → Prop where
  | submit {i raw} (fresh : s.requests.lookup i = none) : Step app s (.submit i raw) (s.enqueue i raw)
  | closed {i raw} (fresh : s.requests.lookup i = none) :
      Step app s (.closed i raw) (s.setRequest i ⟨raw, .dropped, .returned .forwardFailed⟩)
  | recv {w job rest} (here : s.workers.lookup w = some .idle) (head : s.queue = job :: rest) :
      Step app s (.recv w) (s.take w job rest)
  | panic {w pipeline breaker now fault job} (here : s.workers.lookup w = some (.got job)) :
      Step app s (.process w pipeline breaker now fault) (s.kill w (some job))
  | malformed {w pipeline breaker now fault job processed after} (here : s.workers.lookup w = some (.got job))
      (ran : pipeline.process app.crates breaker now fault job.raw = .ok (processed, after))
      (bypassed : processed.stats.parseBypassed = true) :
      Step app s (.process w pipeline breaker now fault) (s.finish w job .malformed)
  | validated {w pipeline breaker now fault job processed after} (here : s.workers.lookup w = some (.got job))
      (ran : pipeline.process app.crates breaker now fault job.raw = .ok (processed, after))
      (parsed : processed.stats.parseBypassed = false) (unforwarded : app.forwardEndpoint = none) :
      Step app s (.process w pipeline breaker now fault)
        ((s.governs job processed.output.contiguous).finish w job .accepted)
  | governed {w pipeline breaker now fault job processed after} (here : s.workers.lookup w = some (.got job))
      (ran : pipeline.process app.crates breaker now fault job.raw = .ok (processed, after))
      (parsed : processed.stats.parseBypassed = false) :
      Step app s (.process w pipeline breaker now fault)
        ((s.governs job processed.output.contiguous).setWorker w (.forwarding job processed.output.contiguous))
  | forward {w job output} (here : s.workers.lookup w = some (.forwarding job output)) :
      Step app s (.forward w)
        ({ s with forwarded := s.forwarded ++ [(job.request, output)] }.finish w job .accepted)
  | down {w job output} (here : s.workers.lookup w = some (.forwarding job output)) :
      Step app s (.refuse w) (s.setWorker w (.down job output))
  | unspooled {w job output} (here : s.workers.lookup w = some (.forwarding job output)) :
      Step app s (.refuse w) (s.finish w job .forwardFailed)
  | reserve {w job output world after r} (here : s.workers.lookup w = some (.down job output)) (spool : s.spool = some world)
      (one : world.step (.push w output) = some after) (ok : world.state.reserve world.maxBytes output.length = .ok r) :
      Step app s (.push w) ({ s with spool := some after }.setWorker w (.spooling job output))
  | full {w job output world after} (here : s.workers.lookup w = some (.down job output)) (spool : s.spool = some world)
      (one : world.step (.push w output) = some after) :
      Step app s (.push w) ({ s with spool := some after }.finish w job .forwardFailed)
  | overflow {w job output world after} (here : s.workers.lookup w = some (.down job output))
      (spool : s.spool = some world) (one : world.step (.push w output) = some after) :
      Step app s (.push w) ({ s with spool := some after }.kill w (some job))
  | io {w e world after} (spool : s.spool = some world) (isIo : e.isIo = true) (one : world.step e = some after) :
      Step app s (.io w e) { s with spool := some after }
  | publish {w job output world after} (here : s.workers.lookup w = some (.spooling job output))
      (spool : s.spool = some world) (one : world.step (.publish w) = some after) :
      Step app s (.publish w) ({ s with spool := some after }.finish w job .accepted)
  | release {w job output world after} (here : s.workers.lookup w = some (.spooling job output))
      (spool : s.spool = some world) (one : world.step (.release w) = some after) :
      Step app s (.release w) ({ s with spool := some after }.finish w job .forwardFailed)
  | drain {e world after} (spool : s.spool = some world) (drains : e.pushId = none) (one : world.step e = some after) :
      Step app s (.drain e) { s with spool := some after }
  | respond {w job v r} (here : s.workers.lookup w = some (.finished job v))
      (asked : s.requests.lookup job.request = some r) :
      Step app s (.respond w) ((s.setRequest job.request { r with reply := .sent v }).setWorker w .idle)
  | unheard {w job v} (here : s.workers.lookup w = some (.finished job v))
      (unasked : s.requests.lookup job.request = none) : Step app s (.respond w) (s.setWorker w .idle)
  | answer {i r v} (asked : s.requests.lookup i = some r) (reply : r.reply = .sent v) :
      Step app s (.answer i) (s.setRequest i { r with answer := .returned v })
  | dropped {i r} (asked : s.requests.lookup i = some r) :
      Step app s (.answer i) (s.setRequest i { r with answer := .returned .forwardFailed })
  | hangUp {i r} (asked : s.requests.lookup i = some r) : Step app s (.hangUp i) (s.setRequest i { r with answer := .gone })
  | die {w k} (here : s.workers.lookup w = some k) : Step app s (.die w) (s.kill w k.job)

theorem step_cases {app : AppState} {s s' : Service} {e : ServiceEvent} (h : s.step app e = some s') : Step app s e s' := by
  cases e with
  | submit i raw =>
    simp only [step] at h
    split at h
    · cases h
    · split at h <;> cases h
      exact .submit ‹_›
  | closed i raw =>
    simp only [step] at h
    split at h
    · cases h
    · split at h <;> cases h
      exact .closed ‹_›
  | recv w =>
    simp only [step] at h
    split at h <;> cases h
    exact .recv ‹_› ‹_›
  | process w pipeline breaker now fault =>
    simp only [step] at h
    split at h
    · rename_i job here
      cases ran : pipeline.process app.crates breaker now fault job.raw with
      | error stop =>
        simp only [ran] at h
        cases h
        exact .panic here
      | ok done =>
        obtain ⟨processed, after⟩ := done
        simp only [ran] at h
        split at h
        · cases h
          exact .malformed here ran ‹_›
        · rename_i parsed
          have parsed := Bool.eq_false_iff.mpr parsed
          split at h <;> cases h
          · exact .validated here ran parsed ‹_›
          · exact .governed here ran parsed
    · cases h
  | forward w =>
    simp only [step] at h
    split at h <;> cases h
    exact .forward ‹_›
  | refuse w =>
    simp only [step] at h
    split at h <;> cases h
    · exact .down ‹_›
    · exact .unspooled ‹_›
  | push w =>
    simp only [step] at h
    split at h
    · rename_i job output world here spool
      obtain ⟨after, one, h⟩ := Option.map_eq_some_iff.mp h
      split at h <;> cases h
      · exact .reserve here spool one ‹_›
      · exact .full here spool one
      · exact .overflow here spool one
    · cases h
  | io w e =>
    simp only [step] at h
    split at h
    · split at h
      · obtain ⟨after, one, h⟩ := Option.map_eq_some_iff.mp h
        cases h
        rename_i spool mine
        exact .io spool mine.1 one
      · cases h
    · cases h
  | publish w =>
    simp only [step] at h
    split at h
    · obtain ⟨after, one, h⟩ := Option.map_eq_some_iff.mp h
      cases h
      exact .publish ‹_› ‹_› one
    · cases h
  | release w =>
    simp only [step] at h
    split at h
    · obtain ⟨after, one, h⟩ := Option.map_eq_some_iff.mp h
      cases h
      exact .release ‹_› ‹_› one
    · cases h
  | drain e =>
    simp only [step] at h
    split at h
    · split at h
      · obtain ⟨after, one, h⟩ := Option.map_eq_some_iff.mp h
        cases h
        exact .drain ‹_› ‹_› one
      · cases h
    · cases h
  | respond w =>
    simp only [step] at h
    split at h
    · split at h <;> cases h
      · exact .respond ‹_› ‹_›
      · exact .unheard ‹_› ‹_›
    · cases h
  | answer i =>
    obtain ⟨r, asked, h⟩ := Option.bind_eq_some_iff.mp h
    split at h <;> cases h
    · exact .answer asked ‹_›
    · exact .dropped asked
  | hangUp i =>
    obtain ⟨r, asked, h⟩ := Option.bind_eq_some_iff.mp h
    split at h <;> cases h
    exact .hangUp asked
  | die w =>
    obtain ⟨k, here, h⟩ := Option.bind_eq_some_iff.mp h
    split at h <;> cases h
    exact .die here

end Service

end ArchivAgent
