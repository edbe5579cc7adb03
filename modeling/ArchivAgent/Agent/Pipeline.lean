import ArchivAgent.Agent.Breaker
import ArchivAgent.Config.Config
import ArchivAgent.Export.Assemble
import ArchivAgent.Sampling.Policy

/-!
# The pipeline

`src/pipeline.rs`: parse, sample, redact, assemble. `govern` is `process` up to the assembly.
What varies from call to call is an argument: the breaker's state, the clock, and the fault the
redaction stage meets, if any.
-/

namespace ArchivAgent
open Wire (Bytes)

structure Crates where
  regex : RegexCrate
  xxh64 : Xxh64

inductive BuildError where
  | config (e : ConfigError)
  | redact (e : CompileError)
  | unknownSeverity (name : Bytes)
  deriving DecidableEq, Repr

structure Stats where
  recordsIn : Nat := 0
  kept : Nat := 0
  dropped : Nat := 0
  redactions : Nat := 0
  bytesIn : Nat := 0
  bytesOut : Nat := 0
  parseBypassed : Bool := false
  redactBypassed : Bool := false
  assembleBypassed : Bool := false
  deriving DecidableEq, Repr

structure Processed where
  output : AssembledPayload
  stats : Stats
  deriving DecidableEq, Repr

structure Pipeline where
  redact : RedactEngine
  masks : MaskTable
  policy : SamplingPolicy
  maxBodyBytes : Nat
  redactBreaker : CircuitBreaker
  deriving DecidableEq, Repr

/-- What the stages leave for the assembly. -/
structure Governed where
  env : Envelope
  stats : Stats
  breaker : CircuitBreaker.Inner
  deriving DecidableEq, Repr

namespace Pipeline

def compileRule (r : SamplingRule) : Except BuildError Rule :=
  match r.selector.severityLte with
  | some name =>
    match severityBandMax name with
    | some n => .ok ⟨r.selector.namespaceName, some n, r.target % 256⟩
    | none => .error (.unknownSeverity name)
  | none => .ok ⟨r.selector.namespaceName, none, r.target % 256⟩

def fromConfig (crates : Crates) (config : AgentConfig) : Except BuildError Pipeline := do
  let rules ← config.sampling.rules.mapM compileRule
  match config.redaction.intoRuleSpecs with
  | .error e => .error (.config e)
  | .ok specs =>
    match RedactEngine.compile crates.regex specs {} with
    | .error e => .error (.redact e)
    | .ok engine => .ok {
        redact := engine
        masks := engine.masks
        policy := ⟨rules, config.sampling.defaultTarget % 256⟩
        maxBodyBytes := config.limits.maxBodyBytes
        redactBreaker := .withDefaults }

def sampleVerdict (crates : Crates) (p : Pipeline) (rec : RecordView) (raw : Bytes) : SampleVerdict :=
  let target := p.policy.resolve (rec.namespaceBytes raw) rec.severityNumber
  let keepIt := match rec.traceIdBytes raw with
    | some id => keep crates.xxh64 id target
    | none =>
      keepUntraced crates.xxh64 ((rec.serviceNameBytes raw).getD []) ((rec.body.get raw).getD []) target
  if keepIt then .keep else .drop

/-- Step 3: the redaction stage behind its breaker. -/
def redactGuarded (crates : Crates) (p : Pipeline) (breaker : CircuitBreaker.Inner) (now : Nat)
    (fault : Option StageFault) (env : Envelope) : Run Empty (Bool × Envelope × CircuitBreaker.Inner) :=
  let (allowed, breaker) := p.redactBreaker.allowAt breaker now
  if allowed then do
    match ← guarded (redactStage crates.regex p.redact fault) env with
    | (.applied, env) => .ok (false, env, breaker)
    | (.bypassed _, env) => .ok (true, env, (p.redactBreaker.recordFaultAt breaker now).2)
  else .ok (true, env, breaker)

def govern (crates : Crates) (p : Pipeline) (breaker : CircuitBreaker.Inner) (now : Nat)
    (fault : Option StageFault) (raw : Bytes) : Run Empty Governed := do
  let (parsed, env) ← guarded parseStage (Envelope.new raw)
  let verdicts := env.records.map (sampleVerdict crates p · env.raw)
  let sampled := { env with decisions := env.decisions.setSampling verdicts }
  let (redactBypassed, redacted, breaker) ← redactGuarded crates p breaker now fault sampled
  .ok {
    env := redacted
    breaker := breaker
    stats := {
      recordsIn := env.records.length
      kept := verdicts.count .keep
      dropped := verdicts.count .drop
      redactions := redacted.decisions.redactionTotal
      bytesIn := raw.length
      parseBypassed := decide (parsed ≠ .applied)
      redactBypassed := redactBypassed } }

def process (crates : Crates) (p : Pipeline) (breaker : CircuitBreaker.Inner) (now : Nat)
    (fault : Option StageFault) (raw : Bytes) : Run Empty (Processed × CircuitBreaker.Inner) := do
  let g ← govern crates p breaker now fault raw
  match assemble g.env p.masks with
  | .ok payload => .ok (⟨payload, { g.stats with bytesOut := payload.len }⟩, g.breaker)
  | .error (.err _) =>
    let payload := AssembledPayload.passthrough g.env.raw
    .ok (⟨payload, { g.stats with bytesOut := payload.len, assembleBypassed := true }⟩, g.breaker)
  | .error .panic => .error .panic
  | .error .diverge => .error .diverge

end Pipeline

end ArchivAgent
