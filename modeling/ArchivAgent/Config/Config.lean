import ArchivAgent.Redact.Engine

/-!
# Configuration

The loaded form of `archiv-config/src/lib.rs`. The policy's strings are their UTF-8 bytes, as the
matchers and the lint read them.
-/

namespace ArchivAgent
open Wire (Bytes)

structure IngestConfig where
  grpcEndpoint : String := "0.0.0.0:4317"
  httpEndpoint : String := "0.0.0.0:4318"
  channelCapacity : Nat := 8192
  deriving DecidableEq, Repr

structure SamplingMatch where
  namespaceName : Option Bytes := none
  severityLte : Option Bytes := none
  deriving DecidableEq, Repr

structure SamplingRule where
  selector : SamplingMatch
  target : Nat
  deriving DecidableEq, Repr

structure SamplingConfig where
  defaultTarget : Nat := 100
  rules : List SamplingRule := []
  deriving DecidableEq, Repr

structure RegexRuleConfig where
  name : Bytes
  pattern : Bytes
  mask : Bytes
  fields : List Bytes
  deriving DecidableEq, Repr

structure RedactionConfig where
  regexRules : List RegexRuleConfig := []
  deriving DecidableEq, Repr

structure ExportConfig where
  otlpEndpoint : Option String := none
  spoolDir : String := "/var/lib/archiv/spool"
  spoolMaxBytes : Nat := 512 * 1024 * 1024
  deriving DecidableEq, Repr

structure Limits where
  maxBodyBytes : Nat := 4 * 1024 * 1024
  deriving DecidableEq, Repr

structure AgentConfig where
  ingest : IngestConfig := {}
  sampling : SamplingConfig := {}
  redaction : RedactionConfig := {}
  «export» : ExportConfig := {}
  limits : Limits := {}
  deriving DecidableEq, Repr

inductive ConfigError where
  | targetOutOfRange (which : String) (target : Nat)
  | zeroChannelCapacity
  | zeroMaxBodyBytes
  | emptyFields (rule : Bytes)
  | invalidFieldSelector (rule : Bytes) (selector : Bytes)
  deriving DecidableEq, Repr

namespace RegexRuleConfig

def parseFields (rule : RegexRuleConfig) : List Bytes → Except ConfigError (List FieldSelector)
  | [] => .ok []
  | f :: fields =>
    match FieldSelector.parse f with
    | none => .error (.invalidFieldSelector rule.name f)
    | some sel => do
      let out ← parseFields rule fields
      .ok (sel :: out)

def parseSelectors (rule : RegexRuleConfig) : Except ConfigError (List FieldSelector) :=
  if rule.fields.isEmpty then .error (.emptyFields rule.name) else parseFields rule rule.fields

def intoRuleSpec (rule : RegexRuleConfig) : Except ConfigError RuleSpec := do
  let fields ← rule.parseSelectors
  .ok ⟨rule.name, rule.pattern, rule.mask, fields⟩

end RegexRuleConfig

def RedactionConfig.intoRuleSpecs (redaction : RedactionConfig) : Except ConfigError (List RuleSpec) :=
  redaction.regexRules.mapM RegexRuleConfig.intoRuleSpec

namespace AgentConfig

def validateTargets : Nat → List SamplingRule → Except ConfigError Unit
  | _, [] => .ok ()
  | i, rule :: rules =>
    if 100 < rule.target then .error (.targetOutOfRange ("rules[" ++ toString i ++ "]") rule.target)
    else validateTargets (i + 1) rules

def validateSelectors : List RegexRuleConfig → Except ConfigError Unit
  | [] => .ok ()
  | rule :: rules => do
    let _ ← rule.parseSelectors
    validateSelectors rules

def validate (cfg : AgentConfig) : Except ConfigError Unit := do
  if 100 < cfg.sampling.defaultTarget then
    .error (.targetOutOfRange "default" cfg.sampling.defaultTarget)
  validateTargets 0 cfg.sampling.rules
  if cfg.ingest.channelCapacity = 0 then .error .zeroChannelCapacity
  if cfg.limits.maxBodyBytes = 0 then .error .zeroMaxBodyBytes
  validateSelectors cfg.redaction.regexRules

end AgentConfig

end ArchivAgent
