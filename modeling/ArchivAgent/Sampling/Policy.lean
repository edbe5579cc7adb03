import ArchivAgent.Redact.Glob

/-!
# Sampling

`archiv-sampling/src/lib.rs` and `policy.rs`. The hash is a parameter, a function of its input
bytes and the seed; streaming the parts of a key is hashing their concatenation.
-/

namespace ArchivAgent
open Wire (Bytes)

abbrev Xxh64 := Bytes → Nat → Nat

def seed : Nat := 0

def keep (xxh64 : Xxh64) (traceId : Bytes) (targetPct : Nat) : Bool :=
  decide (xxh64 traceId seed % 100 < targetPct)

def fallbackKey (xxh64 : Xxh64) (serviceName body : Bytes) : Nat :=
  xxh64 (serviceName ++ [0] ++ body) seed

def keepUntraced (xxh64 : Xxh64) (serviceName body : Bytes) (targetPct : Nat) : Bool :=
  decide (fallbackKey xxh64 serviceName body % 100 < targetPct)

structure Rule where
  namespaceGlob : Option Bytes
  severityLte : Option Int
  target : Nat
  deriving DecidableEq, Repr

/-- `glob_matches` of the sampling crate, the same loop as `glob::matches`. -/
def namespaceGlobMatches (pattern key : Bytes) : Bool := globMatches pattern key

def ruleMatches (rule : Rule) (namespaceName : Option Bytes) (severity : Option Int) : Bool :=
  (match rule.namespaceGlob with
    | none => true
    | some glob => match namespaceName with
      | some ns => namespaceGlobMatches glob ns
      | none => false)
  && (match rule.severityLte with
    | none => true
    | some threshold => match severity with
      | some sev => decide (sev ≤ threshold)
      | none => false)

structure SamplingPolicy where
  rules : List Rule
  defaultTarget : Nat
  deriving DecidableEq, Repr

def SamplingPolicy.resolve (policy : SamplingPolicy) (namespaceName : Option Bytes)
    (severity : Option Int) : Nat :=
  match policy.rules.find? (ruleMatches · namespaceName severity) with
  | some rule => rule.target
  | none => policy.defaultTarget

def toAsciiUppercase (name : Bytes) : Bytes :=
  name.map fun b => if 97 ≤ b ∧ b ≤ 122 then b - 32 else b

def severityBandMax (name : Bytes) : Option Int :=
  let upper := toAsciiUppercase name
  if upper = [84, 82, 65, 67, 69] then some 4 -- TRACE
  else if upper = [68, 69, 66, 85, 71] then some 8 -- DEBUG
  else if upper = [73, 78, 70, 79] then some 12 -- INFO
  else if upper = [87, 65, 82, 78] ∨ upper = [87, 65, 82, 78, 73, 78, 71] then some 16 -- WARN, WARNING
  else if upper = [69, 82, 82, 79, 82] then some 20 -- ERROR
  else if upper = [70, 65, 84, 65, 76] then some 24 -- FATAL
  else none

end ArchivAgent
