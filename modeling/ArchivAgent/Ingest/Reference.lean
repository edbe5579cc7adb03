import ArchivAgent.Ingest.Inputs

/-!
# The request the destination has

The reference decoding of an ExportLogsServiceRequest, with every field of every message: an absent
scalar is its default, the messages under a singular field are one, and the last member of a oneof
is the value, where a list goes on when its member comes again.
-/

namespace ArchivAgent.Otlp
open Wire

inductive AnyValue where
  | unset
  | string (text : Bytes)
  | bool (b : Bool)
  | int (n : Int)
  | double (bits : Bytes)
  | array (values : List AnyValue)
  | kvlist (values : List (Bytes × Option AnyValue))
  | bytes (bs : Bytes)

abbrev KeyValue := Bytes × Option AnyValue

structure LogRecord where
  timeUnixNano : Bytes
  severityNumber : Int
  severityText : Bytes
  body : Option AnyValue
  attributes : List KeyValue
  droppedAttributesCount : Nat
  flags : Bytes
  traceId : Bytes
  spanId : Bytes
  observedTimeUnixNano : Bytes
  eventName : Bytes

structure Scope where
  name : Bytes
  version : Bytes
  attributes : List KeyValue
  droppedAttributesCount : Nat

structure ScopeLogs where
  scope : Option Scope
  logRecords : List LogRecord
  schemaUrl : Bytes

structure Resource where
  attributes : List KeyValue
  droppedAttributesCount : Nat

structure ResourceLogs where
  resource : Option Resource
  scopeLogs : List ScopeLogs
  schemaUrl : Bytes

/-! ### Fields -/

/-- The 64 bits of a varint field. -/
def number (f : Field) : Nat := ((varint f.body).map fun v => v.1 % 2 ^ 64).getD 0

def numberField (n : Nat) (fs : List Field) : Nat :=
  ((fs.filter fun f => f.number = n ∧ f.wire = 0).getLast?.map number).getD 0

def fixedField (n wire size : Nat) (fs : List Field) : Bytes :=
  ((fs.filter fun f => f.number = n ∧ f.wire = wire).getLast?.map Field.body).getD (List.replicate size 0)

/-- The messages under a singular field are read as one, when there are any. -/
def singular {β : Type} (n : Nat) (decode : List Field → Option β) (fs : List Field) : Option (Option β) :=
  if occurrences n fs = [] then some none else (embedded n fs).bind fun gs => (decode gs).map some

def repeated {β : Type} (n : Nat) (decode : List Field → Option β) (fs : List Field) : Option (List β) :=
  (occurrences n fs).mapM fun bs => (message bs).bind decode

/-! ### Messages -/

section Messages
variable (value : List Field → Option AnyValue)

def keyValue (fs : List Field) : Option KeyValue := (singular 2 value fs).map fun v => (stringField 1 fs, v)

def valueStep (v : AnyValue) (f : Field) : Option AnyValue :=
  match f.number, f.wire with
  | 1, 2 => some (.string f.body)
  | 2, 0 => some (.bool (decide (number f ≠ 0)))
  | 3, 0 => some (.int ((number f : Int).bmod (2 ^ 64)))
  | 4, 1 => some (.double f.body)
  | 5, 2 => ((message f.body).bind (repeated 1 value)).map fun values => match v with
    | .array before => .array (before ++ values)
    | _ => .array values
  | 6, 2 => ((message f.body).bind (repeated 1 (keyValue value))).map fun values => match v with
    | .kvlist before => .kvlist (before ++ values)
    | _ => .kvlist values
  | 7, 2 => some (.bytes f.body)
  | _, _ => some v

def logRecord (fs : List Field) : Option LogRecord :=
  (singular 5 value fs).bind fun body => (repeated 6 (keyValue value) fs).map fun attributes => {
    timeUnixNano := fixedField 1 1 8 fs
    severityNumber := asI32 (numberField 2 fs)
    severityText := stringField 3 fs
    body := body
    attributes := attributes
    droppedAttributesCount := numberField 7 fs % 2 ^ 32
    flags := fixedField 8 5 4 fs
    traceId := stringField 9 fs
    spanId := stringField 10 fs
    observedTimeUnixNano := fixedField 11 1 8 fs
    eventName := stringField 12 fs }

def scope (fs : List Field) : Option Scope :=
  (repeated 3 (keyValue value) fs).map fun attributes =>
    ⟨stringField 1 fs, stringField 2 fs, attributes, numberField 4 fs % 2 ^ 32⟩

def scopeLogs (fs : List Field) : Option ScopeLogs :=
  (singular 1 (scope value) fs).bind fun scope => (repeated 2 (logRecord value) fs).map fun logRecords =>
    ⟨scope, logRecords, stringField 3 fs⟩

def resource (fs : List Field) : Option Resource :=
  (repeated 1 (keyValue value) fs).map fun attributes => ⟨attributes, numberField 2 fs % 2 ^ 32⟩

def resourceLogs (fs : List Field) : Option ResourceLogs :=
  (singular 1 (resource value) fs).bind fun resource => (repeated 2 (scopeLogs value) fs).map fun scopeLogs =>
    ⟨resource, scopeLogs, stringField 3 fs⟩

end Messages

def anyValue : Nat → List Field → Option AnyValue
  | 0, _ => none
  | n + 1, fs => fs.foldlM (valueStep (anyValue n)) .unset

/-- A value in a value is shorter by its tag and its length, so the length is more than the depth. -/
def decodeRequest (raw : Bytes) : Option (List ResourceLogs) :=
  (message raw).bind (repeated 1 (resourceLogs (anyValue raw.length)))

end ArchivAgent.Otlp
