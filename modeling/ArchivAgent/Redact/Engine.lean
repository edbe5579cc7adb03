import ArchivAgent.Pipeline.Guard
import ArchivAgent.Redact.Glob
import ArchivAgent.Redact.Lint

/-!
# The redaction engine

`archiv-redact/src/lib.rs`. Strings of the configuration are their UTF-8 bytes. The `regex` crate
is a parameter; `RegexCrate.Lawful` is what its documentation promises. The per-rule counters are
left out: the pipeline never reads them.
-/

namespace ArchivAgent
open Wire (Bytes Range)

structure RegexCrate where
  build : Bytes → Nat → Except Bytes Unit
  buildSet : List Bytes → Nat → Except Bytes Unit
  findIter : Bytes → Bytes → List Range
  setMatches : List Bytes → Bytes → List Nat

structure RegexCrate.Lawful (regex : RegexCrate) : Prop where
  in_bounds : ∀ pattern field, ∀ m ∈ regex.findIter pattern field, m.start ≤ m.stop ∧ m.stop ≤ field.length
  ordered : ∀ pattern field, (regex.findIter pattern field).Pairwise fun a b => a.stop ≤ b.start
  set_exact : ∀ patterns field i,
    i ∈ regex.setMatches patterns field ↔ ∃ p, patterns[i]? = some p ∧ regex.findIter p field ≠ []

inductive FieldSelector where
  | body
  | attrs (glob : Bytes)
  deriving DecidableEq, Repr

def bodySelector : Bytes := [98, 111, 100, 121]

def attributesPrefix : Bytes := [97, 116, 116, 114, 105, 98, 117, 116, 101, 115, 46]

def FieldSelector.parse (s : Bytes) : Option FieldSelector :=
  if s = bodySelector then some .body
  else if attributesPrefix.isPrefixOf s then
    let glob := s.drop attributesPrefix.length
    if glob.isEmpty then none else some (.attrs glob)
  else none

structure RuleSpec where
  name : Bytes
  pattern : Bytes
  mask : Bytes
  fields : List FieldSelector
  deriving DecidableEq, Repr

structure CompileLimits where
  sizeLimit : Nat := 1 <<< 20

inductive CompileError where
  | nestedRepetition (rule : Bytes) (detail : String)
  | regex (rule : Bytes) (source : Bytes)
  | selector (rule : Bytes) (selector : Bytes)
  | noFields (rule : Bytes)
  deriving DecidableEq, Repr

structure CompiledRule where
  name : Bytes
  regex : Bytes
  mask : MaskId
  fields : List FieldSelector
  deriving DecidableEq, Repr

namespace CompiledRule

def appliesToBody (rule : CompiledRule) : Bool := rule.fields.contains .body

def appliesToAttr (rule : CompiledRule) (key : Bytes) : Bool :=
  rule.fields.any fun
    | .body => false
    | .attrs g => globMatches g key

/-- A view without a key is the body. -/
def applies (rule : CompiledRule) : Option Bytes → Bool
  | none => rule.appliesToBody
  | some key => rule.appliesToAttr key

end CompiledRule

structure RedactEngine where
  prefilter : List Bytes
  rules : List CompiledRule
  masks : List Bytes
  deriving DecidableEq, Repr

namespace RedactEngine

def checkSpec (regex : RegexCrate) (limits : CompileLimits) (spec : RuleSpec) : Except CompileError Unit :=
  if spec.fields.isEmpty then .error (.noFields spec.name)
  else match checkNestedRepetition spec.pattern with
    | .error detail => .error (.nestedRepetition spec.name detail)
    | .ok () => match regex.build spec.pattern limits.sizeLimit with
      | .error source => .error (.regex spec.name source)
      | .ok () => .ok ()

def checkSpecs (regex : RegexCrate) (limits : CompileLimits) : List RuleSpec → Except CompileError Unit
  | [] => .ok ()
  | spec :: specs => do
    checkSpec regex limits spec
    checkSpecs regex limits specs

/-- `masks.iter().position(..)` or a new entry; the id is cut to a `u32`. -/
def maskFor (masks : List Bytes) (mask : Bytes) : MaskId × List Bytes :=
  match masks.findIdx? (· == mask) with
  | some i => (i % 2 ^ 32, masks)
  | none => (masks.length % 2 ^ 32, masks ++ [mask])

def addRules : List RuleSpec → List CompiledRule → List Bytes → List CompiledRule × List Bytes
  | [], rules, masks => (rules, masks)
  | spec :: specs, rules, masks =>
    let (mask, masks) := maskFor masks spec.mask
    addRules specs (rules ++ [⟨spec.name, spec.pattern, mask, spec.fields⟩]) masks

def setName : Bytes := [60, 115, 101, 116, 62]

def compile (regex : RegexCrate) (specs : List RuleSpec) (limits : CompileLimits) :
    Except CompileError RedactEngine := do
  checkSpecs regex limits specs
  let patterns := specs.map (·.pattern)
  match regex.buildSet patterns (min (limits.sizeLimit * max specs.length 1) (2 ^ 64 - 1)) with
  | .error source => .error (.regex setName source)
  | .ok () =>
    let (rules, masks) := addRules specs [] []
    .ok ⟨patterns, rules, masks⟩

end RedactEngine

def stageRedactRegex : StageId := ⟨"redact-regex"⟩

/-- A panic or an error inside the stage, with the number of spans it has pushed by then. -/
structure StageFault where
  after : Nat
  reason : BypassReason
  deriving DecidableEq, Repr

namespace RedactStage

/-- The spans one field adds, in the order they are pushed. -/
def redactField (regex : RegexCrate) (engine : RedactEngine) (field : Bytes) (base : Nat)
    (key : Option Bytes) : List Redaction :=
  if field.isEmpty then []
  else (regex.setMatches engine.prefilter field).flatMap fun ruleIdx =>
    match engine.rules[ruleIdx]? with
    | none => []
    | some rule =>
      if rule.applies key then
        (regex.findIter rule.regex field).map fun m => ⟨⟨base + m.start, base + m.stop⟩, rule.mask⟩
      else []

def redactAttr (regex : RegexCrate) (engine : RedactEngine) (raw : Bytes) (attr : AttrView) :
    List Redaction :=
  match attr.key.get raw, attr.value.get raw with
  | some key, some val => redactField regex engine val attr.value.start (some key)
  | _, _ => []

def redactRecord (regex : RegexCrate) (engine : RedactEngine) (raw : Bytes) (rec : RecordView) :
    List Redaction :=
  (match rec.body.get raw with
    | some body => redactField regex engine body rec.body.start none
    | none => [])
  ++ rec.attrs.flatMap (redactAttr regex engine raw)

def spans (regex : RegexCrate) (engine : RedactEngine) (raw : Bytes) :
    Nat → List RecordView → List (Nat × Redaction)
  | _, [] => []
  | idx, rec :: records =>
    (redactRecord regex engine raw rec).map (fun r => (idx, r)) ++ spans regex engine raw (idx + 1) records

def pushAll (d : Decisions) (pushes : List (Nat × Redaction)) : Decisions :=
  pushes.foldl (fun d push => d.pushRedaction stageRedactRegex push.1 push.2) d

def apply (regex : RegexCrate) (engine : RedactEngine) (fault : Option StageFault) (env : Envelope) :
    Run StageError Unit × Envelope :=
  let pushes := spans regex engine env.raw 0 env.records
  match fault with
  | none => (.ok (), { env with decisions := pushAll env.decisions pushes })
  | some f =>
    let env := { env with decisions := pushAll env.decisions (pushes.take f.after) }
    match f.reason with
    | .panic => (.error .panic, env)
    | .error e => (.error (.err e), env)

end RedactStage

def redactStage (regex : RegexCrate) (engine : RedactEngine) (fault : Option StageFault) : Stage :=
  ⟨stageRedactRegex, RedactStage.apply regex engine fault⟩

end ArchivAgent
