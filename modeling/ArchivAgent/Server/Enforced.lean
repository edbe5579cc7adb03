import ArchivAgent.Agent.Policy
import ArchivAgent.Server.DataPlane

/-!
# What leaves the agent

Every payload the destination has answered, and every one that waits in the spool for it, is what
the pipeline of a configuration in use made of a request, given that this holds of what stood in
the spool before and of what the other receiver pushes. Unless the run was counted as failed open,
the payload says what that configuration's policy makes of what the request says.
-/

namespace ArchivAgent
open Wire (Bytes)
open Spool (World)

/-- What an output is to the request: its records put through the policy in force or, when it could
not be assembled, the request itself. -/
def Enforces (crates : Crates) (config : AgentConfig) (raw output : Bytes) (stats : Stats) : Prop :=
  if stats.assembleBypassed then output = raw
  else requestContents output = (requestContents raw).filterMap ((stats.inForce config).governs crates)

theorem process_enforces {crates : Crates} (lawful : crates.regex.Lawful) (ascending : crates.regex.Ascending)
    {config : AgentConfig} {p : Pipeline} (built : Pipeline.fromConfig crates config = .ok p)
    (few : config.redaction.regexRules.length ≤ 2 ^ 32) {raw : Bytes} {breaker after : CircuitBreaker.Inner} {now : Nat}
    {fault : Option StageFault} {out : Processed} (processed : p.process crates breaker now fault raw = .ok (out, after))
    (parsed : out.stats.parseBypassed = false) (fits : out.output.contiguous.length < 2 ^ 64) :
    Enforces crates config raw out.output.contiguous out.stats := by
  unfold Enforces
  split
  · rename_i bypassed
    obtain ⟨rs, found⟩ := process_parsed processed parsed
    obtain ⟨g, governed, governs, -⟩ := (@govern_ok crates p) found breaker now fault
    have done := governs.process_ok (records_in found) lawful (Pipeline.fromConfig_wellFormed built) governed
    split at done
    · obtain ⟨payload, -, -, -, done⟩ := done
      rw [done] at processed
      cases processed
      rw [show g.stats.assembleBypassed = false from governs.assembleBypassed] at bypassed
      cases bypassed
    · rw [done.2] at processed
      cases processed
      simp [AssembledPayload.passthrough, AssembledPayload.contiguous]
  · rename_i assembled
    obtain ⟨-, -, same⟩ := process_applies_policy lawful ascending built few processed parsed
      (Bool.eq_false_iff.mpr assembled) fits
    exact same

/-! ### The pipelines in use -/

/-- A run of the pipeline of a configuration in use made the output of the request, with these counts. -/
def Made (crates : Crates) (inUse : AgentConfig → Prop) (raw output : Bytes) (config : AgentConfig) (stats : Stats) : Prop :=
  inUse config ∧ ∃ p breaker now fault out after, Pipeline.fromConfig crates config = .ok p ∧
    p.process crates breaker now fault raw = .ok (out, after) ∧ out.stats.parseBypassed = false ∧
    out.output.contiguous = output ∧ out.stats = stats

structure ByPolicy (crates : Crates) (inUse : AgentConfig → Prop) (raw output : Bytes) (config : AgentConfig) (stats : Stats) : Prop where
  made : Made crates inUse raw output config stats
  enforces : Enforces crates config raw output stats
  counted : stats.sample.failedOpen = false → requestContents output = (requestContents raw).filterMap (config.governs crates)

theorem Made.byPolicy {crates : Crates} {inUse : AgentConfig → Prop} {raw output : Bytes} {config : AgentConfig} {stats : Stats}
    (made : Made crates inUse raw output config stats) (lawful : crates.regex.Lawful) (ascending : crates.regex.Ascending)
    (few : ∀ config, inUse config → config.redaction.regexRules.length ≤ 2 ^ 32) (fits : output.length < 2 ^ 64) :
    ByPolicy crates inUse raw output config stats := by
  obtain ⟨use, p, breaker, now, fault, out, after, built, processed, parsed, rfl, rfl⟩ := id made
  have enforces := process_enforces lawful ascending built (few config use) processed parsed fits
  refine ⟨made, enforces, fun counted => ?_⟩
  obtain ⟨redacted, assembled⟩ := Bool.or_eq_false_iff.mp counted
  rw [Enforces, assembled, Stats.inForce, redacted] at enforces
  exact enforces

def ServiceEvent.pipeline : ServiceEvent → Option Pipeline
  | .process _ p _ _ _ => some p
  | _ => none

def DataPlaneEvent.pipeline : DataPlaneEvent → Option Pipeline
  | .serve e => e.pipeline
  | .loop _ => none

namespace Service

section Steps
variable {app : AppState} {inUse : AgentConfig → Prop} {s s' : Service} {e : ServiceEvent}

theorem kill_raw (s : Service) (w : Nat) (job : Option Job) (i : Nat) : (s.kill w job).raw i = s.raw i := by
  rw [kill]
  split
  · rename_i j r found
    obtain ⟨job, -, here⟩ := Option.bind_eq_some_iff.mp found
    obtain ⟨r', asked, same⟩ := Option.map_eq_some_iff.mp here
    cases same
    by_cases mine : i = job.request
    · subst mine
      rw [raw, raw, setRequest, AList.lookup_insert, asked]
      rfl
    · rw [raw, raw, setRequest, AList.lookup_insert_ne mine]
      rfl
  · rfl

theorem raw_update {r r' : Request} {i j : Nat} {bytes : Bytes} (found : s.requests.lookup i = some r) (same : r'.raw = r.raw)
    (asked : s.raw j = some bytes) : (s.setRequest i r').raw j = some bytes :=
  (grows_setRequest fun bytes here => same.trans (raw_same found bytes here)).raw j bytes asked

theorem step_raw (h : s.step app e = some s') {i : Nat} {bytes : Bytes} (asked : s.raw i = some bytes) :
    s'.raw i = some bytes := by
  cases step_cases h with
  | submit fresh | closed fresh => exact (grows_setRequest (raw_fresh fresh)).raw i bytes asked
  | panic | die | overflow =>
    rw [kill_raw]
    exact asked
  | respond _ found => exact raw_update found rfl asked
  | answer found | dropped found | hangUp found => exact raw_update found rfl asked
  | _ => exact asked

def Makes (crates : Crates) (inUse : AgentConfig → Prop) (s : Service) (i : Nat) (output : Bytes) : Prop :=
  ∃ raw config stats, s.raw i = some raw ∧ Made crates inUse raw output config stats

theorem step_made (h : s.step app e = some s') (sound : s.Sound app)
    (built : ∀ p ∈ e.pipeline, ∃ config, inUse config ∧ Pipeline.fromConfig app.crates config = .ok p)
    (made : ∀ x ∈ s.governed, s.Makes app.crates inUse x.1 x.2) : ∀ x ∈ s'.governed, s'.Makes app.crates inUse x.1 x.2 := by
  have kept : ∀ x ∈ s.governed, s'.Makes app.crates inUse x.1 x.2 := by
    intro x member
    obtain ⟨raw, config, stats, asked, made⟩ := made x member
    exact ⟨raw, config, stats, step_raw h asked, made⟩
  have asked := fun (w : Nat) (job : Job) (here : s.workers.lookup w = some (.got job)) =>
    step_raw h (sound.working w _ here : s.raw job.request = some job.raw)
  cases step_cases h with
  | @validated w p breaker now fault job out after here ran parsed | @governed w p breaker now fault job out after here ran parsed =>
    intro x member
    rcases List.mem_append.mp member with old | new
    · exact kept x old
    · rw [List.mem_singleton.mp new]
      obtain ⟨config, use, made⟩ := built p rfl
      exact ⟨job.raw, config, out.stats, asked w job here, use, p, breaker, now, fault, out, after, made, ran, parsed, rfl, rfl⟩
  | panic | die | overflow =>
    rw [kill_governed]
    exact kept
  | _ => exact kept

end Steps

end Service

/-! ### The payloads of a spool -/

/-- The payloads of the pushes, those that returned included. -/
structure Spool.World.Carries (Q : Bytes → Prop) (world : World) : Prop where
  pushes : ∀ id p, world.pushes.lookup id = some p → Q p.payload
  acked : ∀ x ∈ world.acked, Q x.2

section Carries
variable {Q : Bytes → Prop} {world after : World}

theorem Spool.World.step_carries {e : Spool.Event} (h : world.step e = some after)
    (given : ∀ id payload, e = .push id payload → Q payload) (carries : world.Carries Q) : after.Carries Q := by
  have moved : ∀ {id p phase}, world.pushes.lookup id = some p → ∀ i q,
      (world.pushes.insert id { p with phase }).lookup i = some q → Q q.payload := by
    intro id p phase here i q found
    rcases Table.lookup_of_insert found with ⟨-, rfl⟩ | ⟨-, old⟩
    · exact carries.pushes id p here
    · exact carries.pushes i q old
  cases World.step_cases h with
  | @reserve id payload seq state =>
    refine ⟨fun i q found => ?_, carries.acked⟩
    rcases Table.lookup_of_insert found with ⟨-, rfl⟩ | ⟨-, old⟩
    · exact given id payload rfl
    · exact carries.pushes i q old
  | create here | write here | sync here | rename here | fail here => exact ⟨moved here, carries.acked⟩
  | @publish id p here =>
    refine ⟨fun i q found => carries.pushes i q (Table.lookup_of_erase found).2, fun x member => ?_⟩
    rcases List.mem_append.mp member with old | new
    · exact carries.acked x old
    · rw [List.mem_singleton.mp new]
      exact carries.pushes id p here
  | release => exact ⟨fun i q found => carries.pushes i q (Table.lookup_of_erase found).2, carries.acked⟩
  | refuse | select | idle | read | unreadable | forward | retry | remove | removeFailed | settle => exact ⟨carries.pushes, carries.acked⟩

theorem Service.step_carries {app : AppState} {s s' : Service} {e : ServiceEvent} (h : s.step app e = some s')
    (own : e.isDrain = false) (sound : s.Sound app) (made : ∀ x ∈ s.governed, Q x.2)
    (carries : ∀ world ∈ s.spool, world.Carries Q) : ∀ world ∈ s'.spool, world.Carries Q := by
  have pushed : ∀ {w job output world after}, s.workers.lookup w = some (.down job output) → s.spool = some world →
      world.step (.push w output) = some after → after.Carries Q := by
    intro w job output world after here spool one
    refine Spool.World.step_carries one ?_ (carries world spool)
    rintro _ _ ⟨⟩
    exact made _ (sound.working w _ here).2
  cases step_cases h with
  | panic | die =>
    rw [kill_spool]
    exact carries
  | overflow here spool one =>
    rw [kill_spool]
    rintro _ ⟨⟩
    exact pushed here spool one
  | reserve here spool one | full here spool one =>
    rintro _ ⟨⟩
    exact pushed here spool one
  | @io w i world after spool isIo one =>
    rintro _ ⟨⟩
    refine Spool.World.step_carries one ?_ (carries world spool)
    rintro _ _ rfl
    cases isIo
  | publish _ spool one | release _ spool one =>
    rintro _ ⟨⟩
    exact Spool.World.step_carries one nofun (carries _ spool)
  | drain => cases own
  | _ => exact carries

theorem Spool.DrainLoop.step_carries {l l' : DrainLoop} {e : LoopEvent} (h : l.step e = some l')
    (given : ∀ id payload, e = .push (.push id payload) → Q payload) (carries : l.world.Carries Q) : l'.world.Carries Q := by
  cases step_cases h with
  | @push i world mine one => exact World.step_carries one (fun id payload same => given id payload (same ▸ rfl)) carries
  | @goes i _ world _ one goes =>
    refine World.step_carries one ?_ carries
    rintro _ _ rfl
    cases goes
  | @ends i n outcome world _ one ends =>
    rw [answered_world]
    refine World.step_carries one ?_ carries
    rintro _ _ rfl
    cases ends
  | wake | shutdown => exact carries

end Carries

namespace DataPlane

/-- A payload that the destination has answered with a 2xx, or that waits for it, whosever it is. -/
def Leaves (n : DataPlane) (payload : Bytes) : Prop :=
  (∃ i, (i, payload) ∈ n.service.forwarded) ∨
    ∃ world ∈ n.service.spool, ∃ seq, (seq, payload) ∈ world.delivered ∨ world.Waits (seq, payload)

section Runs
variable {app : AppState} {inUse : AgentConfig → Prop} {n n' : DataPlane} {e : DataPlaneEvent} {Q : Bytes → Prop}

theorem step_made (h : n.step app e = some n') (sound : n.service.Sound app)
    (built : ∀ p ∈ e.pipeline, ∃ config, inUse config ∧ Pipeline.fromConfig app.crates config = .ok p)
    (made : ∀ x ∈ n.service.governed, n.service.Makes app.crates inUse x.1 x.2) :
    ∀ x ∈ n'.service.governed, n'.service.Makes app.crates inUse x.1 x.2 := by
  cases step_cases h with
  | serve own one => exact Service.step_made one sound built made
  | loop => exact made

def Carries (Q : Bytes → Prop) (n : DataPlane) : Prop := ∀ world ∈ n.service.spool, world.Carries Q

theorem step_carries (h : n.step app e = some n') (sound : n.service.Sound app) (made : ∀ x ∈ n.service.governed, Q x.2)
    (given : ∀ id payload, e = .loop (.push (.push id payload)) → Q payload) (carries : n.Carries Q) : n'.Carries Q := by
  cases step_cases h with
  | serve own one => exact Service.step_carries one own sound made carries
  | @loop e l l' foreign here one =>
    obtain ⟨spool, -⟩ := loop_some.mp here
    rintro _ ⟨⟩
    exact Spool.DrainLoop.step_carries one (fun id payload same => given id payload (same ▸ rfl)) (carries l.world spool)

end Runs

theorem start_carries {workers : Nat} {spool : Option World} (opened : Service.Opened spool) {Q : Bytes → Prop} :
    (start workers spool).Carries Q := by
  intro world there
  obtain ⟨_, _, _, _, _, _, rfl⟩ := opened world there
  exact ⟨nofun, nofun⟩

theorem start_waits {app : AppState} {workers : Nat} {spool : Option World} (opened : Service.Opened spool) :
    ∃ backlog, (start workers spool).Sound app backlog ∧ ∀ x, backlog x → ∃ world ∈ spool, world.Waits x := by
  cases spool with
  | none => exact ⟨fun _ => False, start_sound_of opened nofun, nofun⟩
  | some world =>
    obtain ⟨backlog, sound⟩ := @start_sound app workers _ opened
    obtain ⟨_, _, _, _, _, _, same⟩ := opened world rfl
    have sole := (sound.loop { world } rfl).sole
    refine ⟨backlog, sound, fun x before => ⟨world, rfl, ?_⟩⟩
    rcases (sole.conserved x).mp (.inl before) with sent | waits
    · rw [same] at sent
      cases sent
    · exact waits

/-- Of what is this receiver's, and of everything if what else is pushed or stood there before is so. -/
theorem sends_governed {app : AppState} (forwards : app.forwardEndpoint ≠ none) (lawful : app.crates.regex.Lawful)
    (ascending : app.crates.regex.Ascending) {inUse : AgentConfig → Prop}
    (few : ∀ config, inUse config → config.redaction.regexRules.length ≤ 2 ^ 32) {workers : Nat} {spool : Option World}
    (opened : Service.Opened spool) {es : List DataPlaneEvent} {n : DataPlane} (ran : (start workers spool).run app es = some n)
    (built : ∀ e ∈ es, ∀ p ∈ e.pipeline, ∃ config, inUse config ∧ Pipeline.fromConfig app.crates config = .ok p) :
    (∀ i output, (i, output) ∈ n.sent ∨ n.Holds i output → output.length < 2 ^ 64 →
      ∃ raw config stats, n.service.raw i = some raw ∧ ByPolicy app.crates inUse raw output config stats) ∧
    ((∀ world ∈ spool, ∀ x, world.Waits x → ∃ raw config stats, Made app.crates inUse raw x.2 config stats) →
      (∀ id payload, .loop (.push (.push id payload)) ∈ es → ∃ raw config stats, Made app.crates inUse raw payload config stats) →
      ∀ payload, n.Leaves payload → payload.length < 2 ^ 64 →
        ∃ raw config stats, ByPolicy app.crates inUse raw payload config stats) := by
  obtain ⟨backlog, first, waited⟩ := @start_waits app workers _ opened
  have kept : ∀ e ∈ es, ∀ n n' : DataPlane, n.step app e = some n' →
      (n.Sound app backlog ∧ ∀ x ∈ n.service.governed, n.service.Makes app.crates inUse x.1 x.2) →
        n'.Sound app backlog ∧ ∀ x ∈ n'.service.governed, n'.service.Makes app.crates inUse x.1 x.2 :=
    fun e member _ _ one ⟨sound, made⟩ => ⟨step_sound one forwards sound, step_made one sound.service (built e member) made⟩
  have own := Transition.run_invariant _ ran kept ⟨first, List.forall_mem_nil _⟩
  refine ⟨fun i output leaves fits => ?_, fun before beside payload leaves fits => ?_⟩
  · obtain ⟨raw, config, stats, asked, made⟩ := own.2 _ (own.1.fates.governed i output leaves)
    exact ⟨raw, config, stats, asked, made.byPolicy lawful ascending few fits⟩
  · -- every payload in the spool was pushed by a worker, or beside the pool
    have carries := (Transition.run_invariant (fun n => (n.Sound app backlog ∧
        ∀ x ∈ n.service.governed, n.service.Makes app.crates inUse x.1 x.2) ∧
        n.Carries fun payload => ∃ raw config stats, Made app.crates inUse raw payload config stats) ran
      (fun e member n n' one ⟨here, carries⟩ => ⟨kept e member n n' one here,
        step_carries one here.1.service
          (fun x member => (here.2 x member).imp fun _ ⟨config, stats, _, made⟩ => ⟨config, stats, made⟩)
          (fun id payload same => beside id payload (same ▸ member)) carries⟩)
      ⟨⟨first, List.forall_mem_nil _⟩, start_carries opened⟩).2
    suffices ∃ raw config stats, Made app.crates inUse raw payload config stats by
      obtain ⟨raw, config, stats, made⟩ := this
      exact ⟨raw, config, stats, made.byPolicy lawful ascending few fits⟩
    rcases leaves with ⟨i, direct⟩ | ⟨world, spool', seq, leaves⟩
    · obtain ⟨raw, config, stats, -, made⟩ := own.2 _ (own.1.forwards _ direct)
      exact ⟨raw, config, stats, made⟩
    · obtain ⟨drainer, there⟩ := Option.isSome_iff_exists.mp (own.1.drained (by rw [spool']; rfl))
      have sole := (own.1.loop { drainer with world } (loop_some.mpr ⟨spool', drainer, there, rfl⟩)).sole
      rcases (sole.conserved (seq, payload)).mpr leaves with before' | acked
      · obtain ⟨world', there', waits⟩ := waited _ before'
        exact before world' there' _ waits
      · exact (carries world spool').acked _ acked

/-- A request is spooled and drained, and another forwarded, while the other receiver pushes what it made of a third. -/
def besideRun : List DataPlaneEvent := drainedRun.dropLast ++ [.loop (.push (.push 7 [0x0A, 0]))]

theorem sends_governed_beside : ∃ n, (start 1 (some (.start ⟨10, 0, 0, ∅⟩ ∅))).run ⟨.literal, some [], 1⟩ besideRun = some n ∧
    (∃ raw config stats, n.service.raw 0 = some raw ∧ ByPolicy .literal (· = { limits := ⟨100⟩ }) raw [0x0A, 0] config stats) ∧
    n.Leaves [0x0A, 0] ∧ ∃ raw config stats, ByPolicy .literal (· = { limits := ⟨100⟩ }) raw [0x0A, 0] config stats := by
  obtain ⟨n, ran, sent⟩ := Option.map_eq_some_iff.mp
    (show ((start 1 (some (.start ⟨10, 0, 0, ∅⟩ ∅))).run ⟨.literal, some [], 1⟩ besideRun).map (fun n => (n.sent, n.service.forwarded)) =
      some ([(1, [0x0A, 0]), (0, [0x0A, 0])], [(1, [0x0A, 0])]) by decide +kernel)
  obtain ⟨all, direct⟩ := Prod.mk.inj sent
  have leaves : n.Leaves [0x0A, 0] := .inl ⟨1, by rw [direct]; exact List.mem_singleton_self _⟩
  have governed := @sends_governed ⟨.literal, some [], 1⟩ (Option.some_ne_none _) RegexCrate.literal_lawful
    RegexCrate.literal_ascending (· = { limits := ⟨100⟩ }) (by rintro _ rfl; decide) 1 (some (.start ⟨10, 0, 0, ∅⟩ ∅))
    (by rintro world ⟨⟩; exact ⟨{}, ∅, 10, ⟨10, 0, 0, ∅⟩, ∅, rfl, rfl⟩) besideRun n ran (by
      intro e member p here
      simp only [besideRun, drainedRun, Service.spooledRun, List.map_cons, List.map_nil, List.cons_append, List.nil_append,
        List.dropLast_cons_cons, List.dropLast_singleton, List.mem_cons, List.not_mem_nil, or_false] at member
      rcases member with rfl | rfl | rfl | rfl | rfl | rfl | rfl | rfl | rfl | rfl | rfl | rfl | rfl | rfl | rfl | rfl | rfl | rfl |
        rfl | rfl <;> cases here <;> exact ⟨_, rfl, rfl⟩)
  refine ⟨n, ran, governed.1 0 [0x0A, 0] (.inl ?_) (by decide), leaves, governed.2 ?_ ?_ [0x0A, 0] leaves (by decide)⟩
  · rw [all]
    exact List.mem_cons_of_mem _ List.mem_cons_self
  · rintro world ⟨⟩ x ⟨entry, -⟩
    cases entry
  · intro id payload member
    obtain ⟨-, rfl⟩ : id = 7 ∧ payload = [0x0A, 0] := by
      simpa [besideRun, drainedRun, Service.spooledRun] using member
    exact ⟨[0x0A, 0], _, _, rfl, _, .closed, 0, none, _, _, rfl, rfl, rfl, rfl, rfl⟩

end DataPlane

end ArchivAgent
