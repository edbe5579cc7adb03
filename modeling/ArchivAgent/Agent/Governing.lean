import ArchivAgent.Agent.Pipeline
import ArchivAgent.Export.Agreement
import ArchivAgent.Redact.Literal
import ArchivAgent.Redact.Spans

/-!
# What the stages decide

`govern_ok` is the one description of the pipeline up to the assembly that later results use: the
records, a verdict for each, and either every span or, after a bypass, none.
-/

namespace ArchivAgent
open Wire

/-- What `from_config` guarantees. -/
structure Pipeline.WellFormed (p : Pipeline) : Prop where
  engine : p.redact.WellFormed
  masks : p.masks = p.redact.masks

theorem Pipeline.fromConfig_wellFormed {crates : Crates} {config : AgentConfig} {p : Pipeline}
    (h : Pipeline.fromConfig crates config = .ok p) : p.WellFormed := by
  unfold Pipeline.fromConfig at h
  cases compiledRules : config.sampling.rules.mapM Pipeline.compileRule with
  | error e => rw [compiledRules] at h; cases h
  | ok rules =>
    rw [compiledRules] at h
    simp only [bind, Except.bind] at h
    split at h
    · cases h
    · split at h
      · cases h
      · rename_i engine compiled
        cases h
        exact ⟨RedactEngine.compile_wellFormed compiled, rfl⟩

structure Governs (crates : Crates) (p : Pipeline) (raw : Bytes) (rs : List Record) (g : Governed) : Prop where
  request : g.env.raw = raw
  views : g.env.records = rs.map Record.view
  sampling : g.env.decisions.sampling = rs.map fun r => p.sampleVerdict crates r.view raw
  redactions : g.env.decisions.redactions = if g.stats.redactBypassed then [] else
    (RedactStage.spans crates.regex p.redact raw 0 (rs.map Record.view)).map
      fun s => ⟨stageRedactRegex, s.1, s.2⟩
  parsed : g.stats.parseBypassed = false
  recordsIn : g.stats.recordsIn = rs.length
  kept : g.stats.kept = g.env.decisions.sampling.count .keep
  dropped : g.stats.dropped = g.env.decisions.sampling.count .drop
  counted : g.stats.redactions = g.env.decisions.redactionTotal
  bytesIn : g.stats.bytesIn = raw.length
  assembleBypassed : g.stats.assembleBypassed = false

section Govern
variable {crates : Crates} {p : Pipeline} {raw : Bytes} {rs : List Record}

theorem pushAll_eq (d : Decisions) (pushes : List (Nat × Redaction)) :
    RedactStage.pushAll d pushes
      = { d with redactions := d.redactions ++ pushes.map fun s => ⟨stageRedactRegex, s.1, s.2⟩ } := by
  induction pushes generalizing d with
  | nil => simp [RedactStage.pushAll]
  | cons s pushes ih =>
    rw [RedactStage.pushAll, List.foldl_cons, ← RedactStage.pushAll, ih]
    simp [Decisions.pushRedaction]

/-- A stage that failed leaves no span, and no other stage's decision is lost. -/
theorem clearStage_pushAll (verdicts : List SampleVerdict) (pushes : List (Nat × Redaction)) :
    (RedactStage.pushAll { sampling := verdicts } pushes).clearStage stageRedactRegex = { sampling := verdicts } := by
  rw [pushAll_eq, Decisions.clearStage, if_neg (by decide)]
  simp [List.filter_map, Function.comp_def]

theorem parse_ok (parsed : records raw = some rs) :
    guarded parseStage (Envelope.new raw) = .ok (.applied, { raw, records := rs.map Record.view }) := by
  have read := parseExportLogsRequest_ok.mpr ⟨rs, parsed, rfl⟩
  simp only [guarded, parseStage, ParseStage.apply, Envelope.new, read]

theorem parse_failed (unread : records raw = none) : guarded parseStage (Envelope.new raw)
    = .ok (.bypassed (.error (.internal "malformed OTLP logs payload")), { raw }) := by
  have read := parseExportLogsRequest_meets raw
  rw [unread] at read
  obtain ⟨e, failed⟩ := read
  simp only [guarded, parseStage, ParseStage.apply, Envelope.new, failed]
  rfl

/-- The breaker lets the redaction stage run, and the stage does not fail. -/
def Pipeline.redactRuns (p : Pipeline) (breaker : CircuitBreaker.Inner) (now : Nat) (fault : Option StageFault) : Bool :=
  (p.redactBreaker.allowAt breaker now).1 && fault.isNone

theorem redactGuarded_ok (breaker : CircuitBreaker.Inner) (now : Nat) (fault : Option StageFault)
    (verdicts : List SampleVerdict) (views : List RecordView) :
    ∃ after, Pipeline.redactGuarded crates p breaker now fault
        { raw, records := views, decisions := { sampling := verdicts } }
      = .ok (!p.redactRuns breaker now fault, { raw, records := views, decisions :=
          { sampling := verdicts, redactions := if !p.redactRuns breaker now fault then [] else
            (RedactStage.spans crates.regex p.redact raw 0 views).map
              fun s => ⟨stageRedactRegex, s.1, s.2⟩ } }, after) := by
  unfold Pipeline.redactGuarded Pipeline.redactRuns
  obtain ⟨allowed, breaker'⟩ := p.redactBreaker.allowAt breaker now
  cases allowed with
  | false => exact ⟨breaker', rfl⟩
  | true =>
    simp only [↓reduceIte, Bool.true_and]
    cases fault with
    | none =>
      refine ⟨breaker', ?_⟩
      simp only [guarded, redactStage, RedactStage.apply, pushAll_eq]
      rfl
    | some f =>
      refine ⟨(p.redactBreaker.recordFaultAt breaker' now).2, ?_⟩
      cases hf : f.reason with
      | panic =>
        simp only [guarded, redactStage, RedactStage.apply, hf, clearStage_pushAll]
        rfl
      | error e =>
        simp only [guarded, redactStage, RedactStage.apply, hf, clearStage_pushAll]
        rfl

theorem govern_ok (parsed : records raw = some rs) (breaker : CircuitBreaker.Inner) (now : Nat)
    (fault : Option StageFault) :
    ∃ g, p.govern crates breaker now fault raw = .ok g ∧ Governs crates p raw rs g ∧
      g.stats.redactBypassed = !p.redactRuns breaker now fault := by
  have verdicts : (rs.map Record.view).map (p.sampleVerdict crates · raw)
      = rs.map fun r => p.sampleVerdict crates r.view raw := by simp [Function.comp_def]
  obtain ⟨after, redacted⟩ := (@redactGuarded_ok crates p raw) breaker now fault
    ((rs.map Record.view).map (p.sampleVerdict crates · raw)) (rs.map Record.view)
  refine ⟨_, by
    unfold Pipeline.govern
    rw [parse_ok parsed]
    simp only [bind, Except.bind, Decisions.setSampling, redacted]
    rfl, ?_⟩
  exact ⟨⟨rfl, rfl, verdicts, rfl, rfl, by simp, rfl, rfl, rfl, rfl, rfl⟩, rfl⟩

theorem process_parsed {breaker after : CircuitBreaker.Inner} {now : Nat} {fault : Option StageFault} {out : Processed}
    (processed : p.process crates breaker now fault raw = .ok (out, after)) (bypassed : out.stats.parseBypassed = false) :
    ∃ rs, records raw = some rs := by
  cases found : records raw with
  | some rs => exact ⟨rs, rfl⟩
  | none =>
    obtain ⟨after', ran⟩ := (@redactGuarded_ok crates p raw) breaker now fault [] []
    unfold Pipeline.process Pipeline.govern at processed
    rw [parse_failed found] at processed
    simp only [bind, Except.bind, Decisions.setSampling, List.map_nil, ran] at processed
    split at processed <;> cases processed <;> cases bypassed

end Govern

namespace Governs
variable {crates : Crates} {p : Pipeline} {raw : Bytes} {rs : List Record} {g : Governed}

theorem verdict (h : Governs crates p raw rs g) {i : Nat} {r : Record} (hr : rs[i]? = some r) :
    g.env.decisions.samplingVerdict i = p.sampleVerdict crates r.view raw := by
  rw [Decisions.samplingVerdict, h.sampling, List.getElem?_map, hr]
  rfl

theorem redactionsFor (h : Governs crates p raw rs g) (held : ∀ r ∈ rs, r.In raw) (i : Nat) :
    g.env.decisions.redactionsFor i = if g.stats.redactBypassed then [] else
      (rs[i]?.map (RedactStage.recordSpans crates.regex p.redact)).getD [] := by
  rw [Decisions.redactionsFor, h.redactions]
  split
  · rfl
  · have := (@RedactStage.spans_filter crates.regex p.redact) held 0 i
    rw [Nat.zero_add] at this
    rw [← this]
    simp [List.filter_map, Function.comp_def]

theorem span_inside (h : Governs crates p raw rs g) (held : ∀ r ∈ rs, r.In raw) (lawful : crates.regex.Lawful)
    (formed : p.WellFormed) {i : Nat} {s : Redaction} (hs : s ∈ g.env.decisions.redactionsFor i) :
    s.target.start ≤ s.target.stop ∧ s.mask < p.masks.length := by
  rw [h.redactionsFor held] at hs
  split at hs
  · cases hs
  · cases hr : rs[i]? with
    | none => rw [hr] at hs; cases hs
    | some r =>
      rw [hr] at hs
      simp only [Option.map_some, Option.getD_some, RedactStage.recordSpans, List.mem_append, List.mem_flatMap] at hs
      rw [formed.masks]
      rcases hs with body | ⟨a, -, attr⟩
      · obtain ⟨-, -, ordered, -, known⟩ := RedactStage.redactField_inside lawful formed.engine body
        exact ⟨ordered, known⟩
      · obtain ⟨-, -, ordered, -, known⟩ := RedactStage.redactField_inside lawful formed.engine attr
        exact ⟨ordered, known⟩

theorem ranged (h : Governs crates p raw rs g) (held : ∀ r ∈ rs, r.In raw) (lawful : crates.regex.Lawful)
    (formed : p.WellFormed) : g.env.decisions.Ranged := fun _ hs =>
  (h.span_inside held lawful formed (mem_redactionsFor.mpr ⟨_, hs, rfl, rfl⟩)).1

theorem known (h : Governs crates p raw rs g) (held : ∀ r ∈ rs, r.In raw) (lawful : crates.regex.Lawful)
    (formed : p.WellFormed) : g.env.decisions.Known p.masks := fun _ hs => by
  have inTable := (h.span_inside held lawful formed (mem_redactionsFor.mpr ⟨_, hs, rfl, rfl⟩)).2
  rw [MaskTable.bytes, List.getElem?_eq_getElem inTable]
  rfl

theorem assembled (h : Governs crates p raw rs g) (held : ∀ r ∈ rs, r.In raw) (lawful : crates.regex.Lawful)
    (formed : p.WellFormed) :
    Meets (fun cells out => out.contiguous = render raw p.masks cells ∧ out.len = out.contiguous.length)
      (assemble g.env p.masks) (assembleCells g.env p.masks) := by
  rw [← h.request]
  exact assemble_meets (h.ranged held lawful formed)

/-- The payload is what the assembly made of the governed records or, when it failed, the request. -/
theorem process_ok (h : Governs crates p raw rs g) (held : ∀ r ∈ rs, r.In raw) (lawful : crates.regex.Lawful)
    (formed : p.WellFormed) {breaker : CircuitBreaker.Inner} {now : Nat} {fault : Option StageFault}
    (governed : p.govern crates breaker now fault raw = .ok g) :
    match assembleCells g.env p.masks with
    | some cells => ∃ payload, assemble g.env p.masks = .ok payload ∧
        payload.contiguous = render raw p.masks cells ∧ payload.len = payload.contiguous.length ∧
        p.process crates breaker now fault raw = .ok (⟨payload, { g.stats with bytesOut := payload.len }⟩, g.breaker)
    | none => Fails (assemble g.env p.masks) ∧
        p.process crates breaker now fault raw = .ok (⟨.passthrough raw, { g.stats with
          bytesOut := raw.length, assembleBypassed := true }⟩, g.breaker) := by
  have met := h.assembled held lawful formed
  unfold Pipeline.process
  rw [governed]
  cases written : assembleCells g.env p.masks with
  | some cells =>
    rw [written] at met
    obtain ⟨payload, same, bytes, len⟩ := met
    refine ⟨payload, same, bytes, len, ?_⟩
    simp only [bind, Except.bind, same]
  | none =>
    rw [written] at met
    refine ⟨met, ?_⟩
    obtain ⟨e, failed⟩ := met
    simp only [bind, Except.bind, failed, h.request]
    rfl

theorem process_assembled (h : Governs crates p raw rs g) (held : ∀ r ∈ rs, r.In raw) (lawful : crates.regex.Lawful)
    (formed : p.WellFormed) {breaker after : CircuitBreaker.Inner} {now : Nat} {fault : Option StageFault}
    (governed : p.govern crates breaker now fault raw = .ok g) {out : Processed}
    (processed : p.process crates breaker now fault raw = .ok (out, after)) (assembled : out.stats.assembleBypassed = false) :
    ∃ cells payload, assembleCells g.env p.masks = some cells ∧ assemble g.env p.masks = .ok payload ∧
      payload.contiguous = render raw p.masks cells ∧ payload.len = payload.contiguous.length ∧
        out = ⟨payload, { g.stats with bytesOut := payload.len }⟩ := by
  have done := h.process_ok held lawful formed governed
  cases written : assembleCells g.env p.masks with
  | none =>
    rw [written] at done
    rw [done.2] at processed
    cases processed
    cases assembled
  | some cells =>
    rw [written] at done
    obtain ⟨payload, same, bytes, len, done⟩ := done
    rw [done] at processed
    cases processed
    exact ⟨cells, payload, rfl, same, bytes, len, rfl⟩

end Governs

/-! ### Pipelines that can be run -/

/-- The literal matcher, and a hash nothing depends on. -/
def Crates.literal : Crates := ⟨.literal, fun _ _ => 0⟩

def AgentConfig.masking (rules : List (Bytes × Bytes)) : AgentConfig where
  redaction := ⟨rules.map fun r => ⟨r.1, r.1, r.2, [bodySelector]⟩⟩

def CircuitBreaker.Inner.closed : CircuitBreaker.Inner := { windowStart := 0 }

end ArchivAgent
