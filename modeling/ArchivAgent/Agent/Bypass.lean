import ArchivAgent.Agent.Acceptance
import ArchivAgent.Export.Unmasked

/-!
# A stage that fails

The redaction stage, failing at any point or held back by its breaker, is as if the pipeline had
no redaction rules. What the parser fails on goes out as it came.
-/

namespace ArchivAgent
open Wire (Bytes)

def AgentConfig.unruled (config : AgentConfig) : AgentConfig := { config with redaction := {} }

def forwarded (raw : Bytes) : Run AssembleError AssembledPayload → AssembledPayload
  | .ok payload => payload
  | .error _ => .passthrough raw

section Stages
variable {crates : Crates} {p bare : Pipeline} {config : AgentConfig} {raw : Bytes}

theorem fromConfig_unruled (built : Pipeline.fromConfig crates config = .ok p)
    (unruled : Pipeline.fromConfig crates config.unruled = .ok bare) :
    bare = { p with redact := ⟨[], [], []⟩, masks := [] } := by
  unfold Pipeline.fromConfig at built unruled
  cases rules : config.sampling.rules.mapM Pipeline.compileRule with
  | error e => rw [rules] at built; cases built
  | ok compiled =>
    rw [rules] at built
    rw [show config.unruled.sampling.rules.mapM Pipeline.compileRule = _ from rules] at unruled
    simp only [bind, Except.bind] at built unruled
    have engine : ∀ e, RedactEngine.compile crates.regex [] {} = .ok e → e = ⟨[], [], []⟩ := by
      intro e found
      simp only [RedactEngine.compile, RedactEngine.checkSpecs, bind, Except.bind] at found
      split at found <;> cases found
      rfl
    split at built
    · cases built
    · split at built <;> cases built
      simp only [AgentConfig.unruled, RedactionConfig.intoRuleSpecs, List.mapM_nil, pure, Except.pure] at unruled
      split at unruled <;> cases unruled
      rename_i e compiledNone
      rw [engine e compiledNone]

/-- The guard takes back all that the stage had pushed, and nothing else. -/
theorem guarded_fault (regex : RegexCrate) (engine : RedactEngine) (fault : StageFault) (env : Envelope) :
    ∃ reason, guarded (redactStage regex engine (some fault)) env = .ok (.bypassed reason, { env with
      decisions := { env.decisions with
        redactions := env.decisions.redactions.filter (·.stage ≠ stageRedactRegex) } }) := by
  have cleared : ∀ pushes, (RedactStage.pushAll env.decisions pushes).clearStage stageRedactRegex = { env.decisions with
      redactions := env.decisions.redactions.filter (·.stage ≠ stageRedactRegex) } := by
    intro pushes
    rw [pushAll_eq, Decisions.clearStage, if_neg (by decide), List.filter_append]
    simp [List.filter_map, Function.comp_def]
  cases reason : fault.reason with
  | panic => exact ⟨.panic, by simp only [guarded, redactStage, RedactStage.apply, reason, cleared]⟩
  | error e => exact ⟨.error e, by simp only [guarded, redactStage, RedactStage.apply, reason, cleared]⟩

theorem spans_unruled (regex : RegexCrate) (raw : Bytes) (idx : Nat) (views : List RecordView) :
    RedactStage.spans regex ⟨[], [], []⟩ raw idx views = [] := by
  have field : ∀ bytes base key, RedactStage.redactField regex ⟨[], [], []⟩ bytes base key = [] := by
    intro bytes base key
    simp [RedactStage.redactField]
  induction views generalizing idx with
  | nil => rfl
  | cons v views ih =>
    rw [RedactStage.spans, ih, List.append_nil, List.map_eq_nil_iff, RedactStage.redactRecord, List.append_eq_nil_iff,
      List.flatMap_eq_nil_iff]
    refine ⟨?_, fun a _ => ?_⟩
    · split
      · exact field _ _ _
      · rfl
    · rw [RedactStage.redactAttr]
      split
      · exact field _ _ _
      · rfl

theorem govern_env (crates : Crates) (p : Pipeline) (raw : Bytes) (breaker : CircuitBreaker.Inner) (now : Nat)
    (fault : Option StageFault) : ∃ g, p.govern crates breaker now fault raw = .ok g ∧ g.env = {
      raw
      records := ((records raw).getD []).map Record.view
      decisions := {
        sampling := (((records raw).getD []).map Record.view).map (p.sampleVerdict crates · raw)
        redactions := if !p.redactRuns breaker now fault then [] else
          (RedactStage.spans crates.regex p.redact raw 0 (((records raw).getD []).map Record.view)).map
            fun s => ⟨stageRedactRegex, s.1, s.2⟩ } } ∧ g.stats.recordsIn = ((records raw).getD []).length := by
  obtain ⟨after, ran⟩ := (@redactGuarded_ok crates p raw) breaker now fault
    ((((records raw).getD []).map Record.view).map (p.sampleVerdict crates · raw)) (((records raw).getD []).map Record.view)
  unfold Pipeline.govern
  cases found : records raw with
  | some rs =>
    rw [found] at ran
    simp only [parse_ok found, bind, Except.bind, Decisions.setSampling, Option.getD_some] at ran ⊢
    rw [ran]
    exact ⟨_, rfl, rfl, List.length_map _⟩
  | none =>
    rw [found] at ran
    simp only [parse_failed found, bind, Except.bind, Decisions.setSampling, Option.getD_none, List.map_nil] at ran ⊢
    rw [ran]
    exact ⟨_, rfl, rfl, rfl⟩

theorem process_forwards {breaker : CircuitBreaker.Inner} {now : Nat} {fault : Option StageFault} {g : Governed}
    (governed : p.govern crates breaker now fault raw = .ok g) (ranged : g.env.decisions.Ranged) :
    ∃ out after, p.process crates breaker now fault raw = .ok (out, after) ∧
      out.output = forwarded g.env.raw (assemble g.env p.masks) ∧ out.stats.recordsIn = g.stats.recordsIn := by
  have met := (@assemble_meets g.env p.masks) ranged
  unfold Pipeline.process
  rw [governed]
  simp only [bind, Except.bind]
  cases written : assembleCells g.env p.masks with
  | some cells =>
    rw [written] at met
    obtain ⟨payload, same, -⟩ := met
    rw [same]
    exact ⟨_, _, rfl, rfl, rfl⟩
  | none =>
    rw [written] at met
    obtain ⟨e, failed⟩ := met
    rw [failed]
    exact ⟨_, _, rfl, rfl, rfl⟩

theorem ranged_clean {d : Decisions} (clean : d.redactions = []) : d.Ranged := by
  intro s member
  rw [clean] at member
  cases member

end Stages

/-- A faulty stage is as if it were absent. -/
structure FailsOpen (crates : Crates) (p bare : Pipeline) : Prop where
  /-- A fault anywhere in the stage leaves the envelope as it was before it. -/
  cleared : ∀ fault env, ∃ reason, guarded (redactStage crates.regex p.redact (some fault)) env = .ok (.bypassed reason, {
    env with decisions := { env.decisions with redactions := env.decisions.redactions.filter (·.stage ≠ stageRedactRegex) } })
  /-- With a fault, or the breaker open, the call does what it does without rules. -/
  absent : ∀ breaker now fault raw, p.redactRuns breaker now fault = false → ∀ breaker' now' fault', ∃ g out after g' out' after',
    p.govern crates breaker now fault raw = .ok g ∧ p.process crates breaker now fault raw = .ok (out, after) ∧
    bare.govern crates breaker' now' fault' raw = .ok g' ∧ bare.process crates breaker' now' fault' raw = .ok (out', after') ∧
    g.env = g'.env ∧ g.env.decisions.redactions = [] ∧ out.output = out'.output
  /-- What does not parse leaves no record and no decision, and goes out as it came. -/
  unread : ∀ raw stop, parseExportLogsRequest raw [] = .error stop → ∀ breaker now fault, ∃ g out after,
    p.govern crates breaker now fault raw = .ok g ∧ g.env = { raw } ∧
    p.process crates breaker now fault raw = .ok (out, after) ∧ out.output = .passthrough raw ∧ out.stats.recordsIn = 0

theorem faulty_stage_absent {crates : Crates} {config : AgentConfig} {p bare : Pipeline}
    (built : Pipeline.fromConfig crates config = .ok p) (unruled : Pipeline.fromConfig crates config.unruled = .ok bare) :
    FailsOpen crates p bare where
  cleared fault env := guarded_fault crates.regex p.redact fault env
  absent breaker now fault raw off breaker' now' fault' := by
    obtain rfl := fromConfig_unruled built unruled
    obtain ⟨g, governed, env, -⟩ := govern_env crates p raw breaker now fault
    obtain ⟨g', governed', env', -⟩ := govern_env crates { p with redact := ⟨[], [], []⟩, masks := [] } raw breaker' now' fault'
    have clean : g.env.decisions.redactions = [] := by
      rw [env]
      simp only [off, Bool.not_false, if_true]
    have same : g.env = g'.env := by
      rw [env, env', spans_unruled]
      simp only [off, Bool.not_false, if_true, List.map_nil, ite_self]
      rfl
    obtain ⟨out, after, processed, output, -⟩ := process_forwards governed (ranged_clean clean)
    obtain ⟨out', after', processed', output', -⟩ := process_forwards governed' (ranged_clean (same ▸ clean))
    refine ⟨g, out, after, g', out', after', governed, processed, governed', processed', same, clean, ?_⟩
    rw [output, output', ← same, assemble_clean clean p.masks []]
  unread raw stop failed breaker now fault := by
    have unread : records raw = none := by
      cases found : records raw with
      | none => rfl
      | some rs =>
        rw [parseExportLogsRequest_ok.mpr ⟨rs, found, rfl⟩] at failed
        cases failed
    obtain ⟨g, governed, env, counted⟩ := govern_env crates p raw breaker now fault
    rw [unread] at env counted
    have bare : g.env = { raw } := by
      rw [env]
      simp only [Option.getD_none, List.map_nil, RedactStage.spans, ite_self]
    obtain ⟨out, after, processed, output, records⟩ := process_forwards governed (ranged_clean (by rw [bare]))
    refine ⟨g, out, after, governed, bare, processed, ?_, records.trans counted⟩
    rw [output, bare]
    simp [assemble, Decisions.anyDropped, Decisions.redactionTotal, forwarded, AssembledPayload.passthrough, Wire.slice]

theorem faulty_stage_absent_ab : FailsOpen .literal maskAb { maskAb with redact := ⟨[], [], []⟩, masks := [] } :=
  @faulty_stage_absent .literal (.masking [([97, 98], [42])]) _ _ rfl rfl

end ArchivAgent
