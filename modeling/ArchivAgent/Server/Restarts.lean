import Mathlib.Data.List.Chain
import ArchivAgent.Server.Receivers
import ArchivAgent.Spool.Life

/-!
# One process after another

The agent over any number of processes, as `main` starts each one on the directory that the one
before it left. A process can end at any step, and the next can have another configuration: with an
endpoint it opens the spool, and where that fails it goes on without one. What a process accepted
has been sent, by it or by one that came after it, or waits in the directory.
-/

namespace ArchivAgent
open Wire (Bytes)
open Spool (World OpenIo otlpName)

structure Process where
  app : AppState
  /-- The directory as the process finds it. -/
  dir : Files
  plane : DataPlane

structure Deployment where
  /-- The processes that have ended, in their order. -/
  past : List Process := []
  now : Process

inductive DeploymentEvent where
  | call (e : DataPlaneEvent)
  | restart (app : AppState) (workers : Nat) (io : OpenIo) (left : Files) (maxBytes : Nat)

namespace Process

/-- The spool is opened where there is somewhere to forward to. -/
def openSpool (app : AppState) (io : OpenIo) (dir : Files) (maxBytes : Nat) : Option (Option World) :=
  match app.forwardEndpoint with
  | none => some none
  | some _ =>
    match Spool.open io dir maxBytes with
    | .ok (sp, files) => some (some (.start sp files))
    | .error (.err _) => some none
    -- `main` does not get past a panic
    | .error .panic | .error .diverge => none

def start (app : AppState) (workers : Nat) (io : OpenIo) (dir : Files) (maxBytes : Nat) : Option Process :=
  (openSpool app io dir maxBytes).map fun spool => { app, dir, plane := .start workers spool }

def files (p : Process) : Files := (p.plane.service.spool.map (·.files)).getD p.dir

def Finds (p : Process) (x : Nat × Bytes) : Prop := x.1 < 2 ^ 64 ∧ p.dir.lookup (otlpName x.1) = some x.2

/-- The drain loop has got a 2xx for the entry. -/
def Delivers (p : Process) (x : Nat × Bytes) : Prop := ∃ world ∈ p.plane.service.spool, x ∈ world.delivered

/-- The entry waits for the drain loop, or in a directory that is not open. -/
def Keeps (p : Process) (x : Nat × Bytes) : Prop :=
  match p.plane.service.spool with
  | some world => world.Waits x
  | none => p.Finds x

end Process

namespace Deployment

def processes (n : Deployment) : List Process := n.past ++ [n.now]

def step (n : Deployment) : DeploymentEvent → Option Deployment
  | .call e => (n.now.plane.step n.now.app e).map fun plane => { n with now := { n.now with plane } }
  | .restart app workers io left maxBytes =>
    if Spool.Life.Leaves n.now.files left then
      (Process.start app workers io left maxBytes).map fun now => { past := n.processes, now }
    else none

def run (n : Deployment) (es : List DeploymentEvent) : Option Deployment := Transition.run step n es

def start (app : AppState) (workers : Nat) (io : OpenIo) (dir : Files) (maxBytes : Nat) : Option Deployment :=
  (Process.start app workers io dir maxBytes).map fun now => { now }

end Deployment

/-! ### One process -/

namespace Process
variable {app : AppState} {workers maxBytes : Nat} {io : OpenIo} {dir : Files} {p : Process} {x : Nat × Bytes}

theorem openSpool_some {world : World} (opens : openSpool app io dir maxBytes = some (some world)) : app.forwardEndpoint ≠ none ∧
    ∃ sp files, Spool.open io dir maxBytes = .ok (sp, files) ∧ world = .start sp files := by
  unfold openSpool at opens
  split at opens
  · cases opens
  · rename_i endpoint forwards
    split at opens
    · rename_i sp files opened
      cases opens
      exact ⟨by rw [forwards]; exact Option.some_ne_none _, sp, files, opened, rfl⟩
    all_goals cases opens

theorem openSpool_opened {spool : Option World} (opens : openSpool app io dir maxBytes = some spool) : Service.Opened spool := by
  rintro world rfl
  obtain ⟨-, sp, files, opened, rfl⟩ := openSpool_some opens
  exact ⟨io, dir, maxBytes, sp, files, opened, rfl⟩

structure Sound (p : Process) : Prop where
  closed : p.app.forwardEndpoint = none → p.plane.service.spool = none
  plane : p.app.forwardEndpoint ≠ none → ∃ backlog, p.plane.Sound p.app backlog ∧
    (p.plane.service.spool.isSome = true → ∀ x, p.Finds x → backlog x)

theorem start_sound (started : start app workers io dir maxBytes = some p) : p.Sound where
  closed none := by
    obtain ⟨spool, opens, rfl⟩ := Option.map_eq_some_iff.mp started
    cases spool with
    | none => rfl
    | some world => exact absurd none (openSpool_some opens).1
  plane _ := by
    obtain ⟨spool, opens, rfl⟩ := Option.map_eq_some_iff.mp started
    cases spool with
    | none => exact ⟨fun _ => False, DataPlane.start_sound_of nofun nofun, nofun⟩
    | some world =>
      have opens' := openSpool_opened opens
      obtain ⟨-, sp, files, opened, rfl⟩ := openSpool_some opens
      refine ⟨World.Backlog sp files, ?_, fun _ x found => ?_⟩
      · refine DataPlane.start_sound_of opens' fun l there => ?_
        cases there
        exact Spool.DrainLoop.start_sound opened
      · obtain ⟨-, swept, recovers⟩ := Spool.open_ok opened
        exact ⟨(recovers.pending _ _).mpr ⟨found.1, _, found.2, rfl⟩, (swept.otlp _).trans found.2⟩

theorem Sound.call {e : DataPlaneEvent} {plane : DataPlane} (sound : p.Sound) (one : p.plane.step p.app e = some plane) :
    Sound { p with plane } where
  closed none := by
    have before := sound.closed none
    cases DataPlane.step_cases one with
    | serve own step =>
      rcases Service.step_spool step own with same | ⟨world, -, -, spool, -⟩
      · exact same.trans before
      · rw [before] at spool
        cases spool
    | loop foreign here =>
      rw [DataPlane.loop, before] at here
      cases here
  plane forwards := by
    obtain ⟨backlog, inner, found⟩ := sound.plane forwards
    refine ⟨backlog, DataPlane.step_sound one forwards inner, fun isOpen => found ?_⟩
    cases DataPlane.step_cases one with
    | serve own step =>
      rcases Service.step_spool step own with same | ⟨world, -, -, spool, -⟩
      · rw [← same]
        exact isOpen
      · rw [spool]
        rfl
    | loop foreign here =>
      rw [(DataPlane.loop_some.mp here).1]
      rfl

theorem Sound.loop (sound : p.Sound) {world : World} (spool : p.plane.service.spool = some world) :
    ∃ backlog limit, world.Sole backlog ∧ Spool.World.Accounted limit world ∧ ∀ x, p.Finds x → backlog x := by
  have forwards : p.app.forwardEndpoint ≠ none := by
    intro none
    cases (sound.closed none).symm.trans spool
  obtain ⟨backlog, inner, found⟩ := sound.plane forwards
  obtain ⟨drainer, there⟩ := Option.isSome_iff_exists.mp (inner.drained (by rw [spool]; rfl))
  have loop := inner.loop { drainer with world } (DataPlane.loop_some.mpr ⟨spool, drainer, there, rfl⟩)
  obtain ⟨limit, books⟩ := loop.books
  exact ⟨backlog, limit, loop.sole, books, found (by rw [spool]; rfl)⟩

theorem Sound.found (sound : p.Sound) (found : p.Finds x) : p.Delivers x ∨ p.Keeps x := by
  cases spool : p.plane.service.spool with
  | none =>
    rw [Keeps, spool]
    exact .inr found
  | some world =>
    obtain ⟨backlog, limit, sole, -, backed⟩ := sound.loop spool
    rw [Keeps, spool]
    exact ((sole.conserved x).mp (.inl (backed x found))).imp_left fun sent => ⟨world, spool, sent⟩

theorem Sound.leaves (sound : p.Sound) (keeps : p.Keeps x) {q : Process} (leaves : Spool.Life.Leaves p.files q.dir) : q.Finds x := by
  rw [Finds, leaves.otlp]
  cases spool : p.plane.service.spool with
  | none =>
    rw [Keeps, spool] at keeps
    rw [files, spool]
    exact keeps
  | some world =>
    obtain ⟨backlog, limit, -, books, -⟩ := sound.loop spool
    rw [Keeps, spool] at keeps
    rw [files, spool]
    exact ⟨Nat.lt_trans (books.entryBelow _ _ keeps.1) books.range, keeps.2.1⟩

/-- What a process accepted it has sent, or its directory keeps it. -/
theorem Sound.accepted (sound : p.Sound) (forwards : p.app.forwardEndpoint ≠ none) {i : Nat} (accepts : i ∈ p.plane.service.accepts) :
    ∃ output, p.plane.service.Governs p.app i output ∧
      ((i, output) ∈ p.plane.sent ∨ ∃ seq, (i, seq) ∈ p.plane.spooled ∧ p.Keeps (seq, output)) := by
  obtain ⟨backlog, inner, -⟩ := sound.plane forwards
  have fates := inner.fates
  obtain ⟨output, leaves⟩ := (fates.accepted i).mp accepts
  refine ⟨output, inner.service.governed _ (fates.governed i output leaves), leaves.imp_right ?_⟩
  rintro ⟨world, spool, seq, lodged, waits⟩
  refine ⟨seq, lodged, ?_⟩
  rw [Keeps, Option.mem_def.mp spool]
  exact waits

end Process

/-! ### Every run -/

namespace Deployment
variable {n n' : Deployment} {e : DeploymentEvent}

/-- Each process began with what the one before it left. -/
structure Sound (n : Deployment) : Prop where
  each : ∀ p ∈ n.processes, p.Sound
  chain : n.processes.IsChain fun p q => Spool.Life.Leaves p.files q.dir

theorem step_sound (h : n.step e = some n') (sound : n.Sound) : n'.Sound := by
  cases e with
  | call e =>
    obtain ⟨plane, one, rfl⟩ := Option.map_eq_some_iff.mp h
    obtain ⟨before, -, next⟩ := List.isChain_append.mp sound.chain
    refine ⟨fun p member => ?_, List.isChain_append.mpr ⟨before, .singleton _, fun p last q first => ?_⟩⟩
    · rcases List.mem_append.mp member with old | new
      · exact sound.each p (List.mem_append_left _ old)
      · rw [List.mem_singleton.mp new]
        exact (sound.each n.now (List.mem_append_right _ (List.mem_singleton_self _))).call one
    · -- the directory it began with is the same
      cases first
      exact next p last n.now rfl
  | restart app workers io left maxBytes =>
    simp only [step] at h
    split at h
    · rename_i leaves
      obtain ⟨now, started, rfl⟩ := Option.map_eq_some_iff.mp h
      refine ⟨fun p member => ?_, List.isChain_append.mpr ⟨sound.chain, .singleton _, fun p last q first => ?_⟩⟩
      · rcases List.mem_append.mp member with old | new
        · exact sound.each p old
        · rw [List.mem_singleton.mp new]
          exact Process.start_sound started
      · cases first
        rw [processes, List.getLast?_concat] at last
        cases last
        obtain ⟨spool, -, rfl⟩ := Option.map_eq_some_iff.mp started
        exact leaves
    · cases h

/-- What a process keeps is sent by a later one that finds it, or the last keeps it. -/
theorem kept_along {p last : Process} {after : List Process} (each : ∀ q ∈ p :: after, q.Sound)
    (chain : (p :: after).IsChain fun p q => Spool.Life.Leaves p.files q.dir) (ends : (p :: after).getLast? = some last) {x : Nat × Bytes}
    (keeps : p.Keeps x) : (∃ q ∈ after, q.Finds x ∧ q.Delivers x) ∨ last.Keeps x := by
  induction after generalizing p with
  | nil =>
    cases ends
    exact .inr keeps
  | cons q after ih =>
    obtain ⟨leaves, chain⟩ := List.isChain_cons_cons.mp chain
    simp only [List.mem_cons, forall_eq_or_imp] at each
    have found := each.1.leaves keeps leaves
    rcases each.2.1.found found with sent | kept
    · exact .inl ⟨q, List.mem_cons_self, found, sent⟩
    · have rest : ∀ r ∈ q :: after, r.Sound := by
        simp only [List.mem_cons, forall_eq_or_imp]
        exact each.2
      rw [List.getLast?_cons_cons] at ends
      refine (ih rest chain ends kept).imp_left ?_
      rintro ⟨r, member, both⟩
      exact ⟨r, List.mem_cons_of_mem _ member, both⟩

/-- The entry has been sent by one of the processes, which had found it, or it waits now. -/
def Settles (n : Deployment) (later : List Process) (x : Nat × Bytes) : Prop :=
  (∃ q ∈ later, q.Finds x ∧ q.Delivers x) ∨ n.now.Keeps x

structure Lasting (n : Deployment) : Prop where
  answered : ∀ p ∈ n.processes, p.app.forwardEndpoint ≠ none → ∀ i r, p.plane.service.requests.lookup i = some r →
    r.answer = .returned .accepted → i ∈ p.plane.service.accepts
  accepted : ∀ before p after, n.processes = before ++ p :: after → p.app.forwardEndpoint ≠ none →
    ∀ i ∈ p.plane.service.accepts, ∃ output, p.plane.service.Governs p.app i output ∧
      ((i, output) ∈ p.plane.sent ∨ ∃ seq, (i, seq) ∈ p.plane.spooled ∧ n.Settles after (seq, output))
  found : ∀ before p after, n.processes = before ++ p :: after → ∀ x, p.Finds x → n.Settles (p :: after) x

theorem Sound.lasting (sound : n.Sound) : n.Lasting := by
  have along : ∀ before p after, n.processes = before ++ p :: after → p.Sound ∧ ∀ x, p.Keeps x → n.Settles after x := by
    intro before p after split
    have each : ∀ q ∈ p :: after, q.Sound := fun q member =>
      sound.each q (split ▸ List.mem_append_right _ member)
    have ends : (p :: after).getLast? = some n.now := by
      have whole := congrArg List.getLast? split
      rw [processes, List.getLast?_concat, List.getLast?_append_cons] at whole
      exact whole.symm
    exact ⟨each p List.mem_cons_self, fun x keeps => kept_along each (List.isChain_append.mp (split ▸ sound.chain)).2.1 ends keeps⟩
  refine ⟨fun p member forwards i r asked answer => ?_, fun before p after split forwards i accepts => ?_,
    fun before p after split x found => ?_⟩
  · obtain ⟨backlog, inner, -⟩ := (sound.each p member).plane forwards
    exact inner.fates.answered i r asked answer
  · obtain ⟨own, later⟩ := along before p after split
    obtain ⟨output, governs, sent | ⟨seq, lodged, keeps⟩⟩ := own.accepted forwards accepts
    · exact ⟨output, governs, .inl sent⟩
    · exact ⟨output, governs, .inr ⟨seq, lodged, later _ keeps⟩⟩
  · obtain ⟨own, later⟩ := along before p after split
    rcases own.found found with sent | keeps
    · exact .inl ⟨p, List.mem_cons_self, found, sent⟩
    · refine (later x keeps).imp_left ?_
      rintro ⟨q, member, both⟩
      exact ⟨q, List.mem_cons_of_mem _ member, both⟩

/-- However often the agent ends and starts again: no accepted request's data is lost. -/
theorem accepted_lasts {app : AppState} {workers maxBytes : Nat} {io : OpenIo} {dir : Files} {first : Deployment}
    (started : start app workers io dir maxBytes = some first) {es : List DeploymentEvent} (ran : first.run es = some n) :
    n.Lasting := by
  have sound : first.Sound := by
    obtain ⟨now, starts, rfl⟩ := Option.map_eq_some_iff.mp started
    refine ⟨fun p member => ?_, .singleton _⟩
    rw [List.mem_singleton.mp member]
    exact Process.start_sound starts
  exact (Transition.run_invariant Sound ran (fun _ _ _ _ one sound => step_sound one sound) sound).lasting

/-- A request is spooled and answered, the process ends, and the next one sends the file. -/
def restartedRun : List DeploymentEvent :=
  Service.spooledRun.map (fun e => .call (.serve e)) ++
    [.restart ⟨.literal, some [], 1⟩ 1 {} ((∅ : Files).insert (otlpName 0) [0x0A, 0]) 10, .call (.loop (.drain (.select 0) 0)),
      .call (.loop (.drain (.read 0) 0)), .call (.loop (.drain (.forward 0) 0))]

theorem accepted_lasts_restarted : ∃ first n, start ⟨.literal, some [], 1⟩ 1 {} ∅ 10 = some first ∧ first.run restartedRun = some n ∧
    n.processes.map (fun p => p.plane.service.accepts) = [[0], []] ∧ n.now.Delivers (0, [0x0A, 0]) ∧ n.Lasting := by
  obtain ⟨n, ran, told⟩ := Option.map_eq_some_iff.mp
    (show ((start ⟨.literal, some [], 1⟩ 1 {} ∅ 10).bind (·.run restartedRun)).map (fun n =>
        (n.processes.map (fun p => p.plane.service.accepts), n.now.plane.service.spool.map (·.delivered))) =
          some ([[0], []], some [(0, [0x0A, 0])]) by decide +kernel)
  obtain ⟨first, started, ran⟩ := Option.bind_eq_some_iff.mp ran
  obtain ⟨world, spool, sent⟩ := Option.map_eq_some_iff.mp (congrArg Prod.snd told)
  refine ⟨first, n, started, ran, congrArg Prod.fst told, ⟨world, spool, ?_⟩, accepted_lasts started ran⟩
  rw [sent]
  exact List.mem_singleton_self _

end Deployment

end ArchivAgent
