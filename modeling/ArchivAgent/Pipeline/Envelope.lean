import ArchivAgent.Wire.Window
import ArchivAgent.Outcome

/-!
# The unit of work

`archiv-pipeline/src/envelope.rs`: one request buffer, the record views into it, and the decisions
the stages add. `received_at` is left out; nothing reads it.
-/

namespace ArchivAgent
open Wire (Bytes Range slice)

structure StageId where
  label : String
  deriving DecidableEq, Repr

structure AttrView where
  key : Range
  value : Range
  deriving DecidableEq, Repr

structure RecordView where
  body : Range
  traceId : Option Range
  attrs : List AttrView
  severityNumber : Option Int
  namespaceName : Option Range
  serviceName : Option Range
  deriving DecidableEq, Repr

def nibble (b : UInt8) : Option UInt8 :=
  if 48 ≤ b ∧ b ≤ 57 then some (b - 48)
  else if 97 ≤ b ∧ b ≤ 102 then some (b - 97 + 10)
  else if 65 ≤ b ∧ b ≤ 70 then some (b - 65 + 10)
  else none

def decodeHexPairs : Bytes → Option Bytes
  | hi :: lo :: rest => do
    let high ← nibble hi
    let low ← nibble lo
    let tail ← decodeHexPairs rest
    return ((high <<< 4) ||| low) :: tail
  | _ => some []

def decodeHex16 (hex : Bytes) : Option Bytes :=
  if hex.length ≠ 32 then none else decodeHexPairs hex

namespace RecordView

def traceIdBytes (rec : RecordView) (raw : Bytes) : Option Bytes := do
  let range ← rec.traceId
  let src ← range.get raw
  if src.length = 16 then some src
  else if src.length = 32 then decodeHex16 src
  else none

def namespaceBytes (rec : RecordView) (raw : Bytes) : Option Bytes := do
  (← rec.namespaceName).get raw

def serviceNameBytes (rec : RecordView) (raw : Bytes) : Option Bytes := do
  (← rec.serviceName).get raw

end RecordView

abbrev MaskId := Nat

structure Redaction where
  target : Range
  mask : MaskId
  deriving DecidableEq, Repr

inductive SampleVerdict where
  | keep | drop
  deriving DecidableEq, Repr

structure StageRedaction where
  stage : StageId
  record : Nat
  redaction : Redaction
  deriving DecidableEq, Repr

structure Decisions where
  sampling : List SampleVerdict := []
  redactions : List StageRedaction := []
  deriving DecidableEq, Repr

def stageSample : StageId := ⟨"sample"⟩

namespace Decisions

def setSampling (d : Decisions) (verdicts : List SampleVerdict) : Decisions :=
  { d with sampling := verdicts }

/-- A record without a verdict is kept. -/
def samplingVerdict (d : Decisions) (idx : Nat) : SampleVerdict := d.sampling[idx]?.getD .keep

def pushRedaction (d : Decisions) (stage : StageId) (record : Nat) (redaction : Redaction) : Decisions :=
  { d with redactions := d.redactions ++ [⟨stage, record, redaction⟩] }

def redactionsFor (d : Decisions) (record : Nat) : List Redaction :=
  (d.redactions.filter (·.record == record)).map (·.redaction)

def anyDropped (d : Decisions) : Bool := d.sampling.contains .drop

def redactionTotal (d : Decisions) : Nat := d.redactions.length

def clearStage (d : Decisions) (id : StageId) : Decisions :=
  { sampling := if id = stageSample then [] else d.sampling
    redactions := d.redactions.filter (·.stage ≠ id) }

end Decisions

structure Envelope where
  raw : Bytes
  records : List RecordView := []
  decisions : Decisions := {}
  deriving DecidableEq, Repr

def Envelope.new (raw : Bytes) : Envelope := { raw }

end ArchivAgent
