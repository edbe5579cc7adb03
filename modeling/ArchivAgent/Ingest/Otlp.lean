import ArchivAgent.Pipeline.Guard

/-!
# The OTLP walker

`archiv-ingest/src/otlp.rs` and `ParseStage`. Offsets are absolute offsets into the request
buffer. `whileFields` is the loop every walker has; its first argument converts the cursor's
errors into the walker's.
-/

namespace ArchivAgent
open Wire (Bytes Range)

inductive ParseError where
  | truncated (offset : Nat)
  | varintOverflow (offset : Nat)
  | unsupportedWire (wire offset : Nat)
  | lengthOverrun (offset : Nat)
  deriving DecidableEq, Repr

structure WireCursor where
  buf : Bytes
  pos : Nat
  stop : Nat
  deriving DecidableEq, Repr

namespace WireCursor

def new (buf : Bytes) (window : Range) : WireCursor := ⟨buf, window.start, window.stop⟩

def done (c : WireCursor) : Bool := decide (c.stop ≤ c.pos)

def byte (c : WireCursor) : Run ParseError (UInt8 × WireCursor) :=
  if c.stop ≤ c.pos then .error (.err (.truncated c.pos))
  else match c.buf[c.pos]? with
    | none => .error .panic
    | some b => .ok (b, { c with pos := c.pos + 1 })

/-- The accumulator is a `u64`: what a shift moves past bit 63 is lost. -/
def varintLoop (start : Nat) : Nat → Nat → Nat → WireCursor → Run ParseError (Nat × WireCursor)
  | 0, _, _, _ => .error .diverge
  | n + 1, v, shift, c => do
    let (b, c) ← c.byte
    if 64 ≤ shift then .error (.err (.varintOverflow start))
    else
      let v := v ||| (((b &&& 0x7F).toNat <<< shift) % 2 ^ 64)
      if b &&& 0x80 = 0 then .ok (v, c) else varintLoop start n v (shift + 7) c

/-- The eleventh round finds `shift` past 63 and returns, so eleven rounds are enough. -/
def varint (c : WireCursor) : Run ParseError (Nat × WireCursor) := varintLoop c.pos 11 0 0 c

/-- The field number is cut to a `u32`. -/
def tag (c : WireCursor) : Run ParseError ((Nat × Nat) × WireCursor) := do
  let (t, c) ← c.varint
  .ok (((t >>> 3) % 2 ^ 32, t &&& 7), c)

/-- `checked_add` fails only past `usize::MAX`, where the comparison with the end fails too. -/
def lenRange (c : WireCursor) : Run ParseError (Range × WireCursor) := do
  let (len, c') ← c.varint
  if c'.stop < c'.pos + len then .error (.err (.lengthOverrun c.pos))
  else .ok (⟨c'.pos, c'.pos + len⟩, { c' with pos := c'.pos + len })

def advance (c : WireCursor) (n : Nat) : Run ParseError WireCursor :=
  if c.stop < c.pos + n then .error (.err (.truncated c.pos))
  else .ok { c with pos := c.pos + n }

def skip (c : WireCursor) (wire : Nat) : Run ParseError WireCursor :=
  match wire with
  | 0 => do let (_, c) ← c.varint; .ok c
  | 1 => c.advance 8
  | 2 => do let (_, c) ← c.lenRange; .ok c
  | 5 => c.advance 4
  | w => .error (.err (.unsupportedWire w c.pos))

/-- `while !cur.done() { let tag_start = cur.pos(); let (field, wire) = cur.tag()?; .. }`. Each
round reads a tag, so there are at most as many rounds as the window has bytes. -/
def whileFields {ε σ : Type} (wrap : ParseError → ε)
    (body : Nat → Nat → Nat → σ → WireCursor → Run ε (σ × WireCursor)) :
    Nat → σ → WireCursor → Run ε σ
  | 0, s, c => if c.done then .ok s else .error .diverge
  | n + 1, s, c =>
    if c.done then .ok s
    else do
      let ((field, wire), c') ← c.tag.mapErr wrap
      let (s, c') ← body c.pos field wire s c'
      whileFields wrap body n s c'

def walk {ε σ : Type} (wrap : ParseError → ε)
    (body : Nat → Nat → Nat → σ → WireCursor → Run ε (σ × WireCursor))
    (buf : Bytes) (window : Range) (s : σ) : Run ε σ :=
  whileFields wrap body (window.stop - window.start) s (WireCursor.new buf window)

end WireCursor

open WireCursor

def anyValueLoop : Nat → WireCursor → Run ParseError (Option Range)
  | 0, c => if c.done then .ok none else .error .diverge
  | n + 1, c =>
    if c.done then .ok none
    else do
      let ((field, wire), c) ← c.tag
      if field = 1 ∧ wire = 2 then
        let (r, _) ← c.lenRange
        .ok (some r)
      else
        let c ← c.skip wire
        anyValueLoop n c

def anyValueString (buf : Bytes) (window : Range) : Run ParseError (Option Range) :=
  anyValueLoop (window.stop - window.start) (WireCursor.new buf window)

def parseKeyValueField (buf : Bytes) (_tagStart field wire : Nat) (s : Option Range × Option Range)
    (c : WireCursor) : Run ParseError ((Option Range × Option Range) × WireCursor) :=
  if field = 1 ∧ wire = 2 then do
    let (key, c) ← c.lenRange
    .ok ((some key, s.2), c)
  else if field = 2 ∧ wire = 2 then do
    let (av, c) ← c.lenRange
    let value ← anyValueString buf av
    .ok ((s.1, value), c)
  else do
    let c ← c.skip wire
    .ok (s, c)

def parseKeyValue (buf : Bytes) (window : Range) : Run ParseError (Option AttrView) := do
  match ← walk id (parseKeyValueField buf) buf window (none, none) with
  | (some key, some value) => .ok (some ⟨key, value⟩)
  | _ => .ok none

structure ResourceAttrs where
  namespaceName : Option Range := none
  serviceName : Option Range := none
  deriving DecidableEq, Repr

def k8sNamespaceName : Bytes :=
  [107, 56, 115, 46, 110, 97, 109, 101, 115, 112, 97, 99, 101, 46, 110, 97, 109, 101]

def serviceNameKey : Bytes := [115, 101, 114, 118, 105, 99, 101, 46, 110, 97, 109, 101]

def parseResourceAttrsField (buf : Bytes) (_tagStart field wire : Nat) (s : ResourceAttrs)
    (c : WireCursor) : Run ParseError (ResourceAttrs × WireCursor) :=
  if field = 1 ∧ wire = 2 then do
    let (kv, c) ← c.lenRange
    match ← parseKeyValue buf kv with
    | some attr =>
      if attr.key.get buf = some k8sNamespaceName then .ok ({ s with namespaceName := some attr.value }, c)
      else if attr.key.get buf = some serviceNameKey then .ok ({ s with serviceName := some attr.value }, c)
      else .ok (s, c)
    | none => .ok (s, c)
  else do
    let c ← c.skip wire
    .ok (s, c)

def parseResourceAttrs (buf : Bytes) (window : Range) : Run ParseError ResourceAttrs :=
  walk id (parseResourceAttrsField buf) buf window {}

/-- `u64 as i32` -/
def asI32 (v : Nat) : Int := (v : Int).bmod (2 ^ 32)

structure LogRecordState where
  body : Range
  traceId : Option Range := none
  severityNumber : Option Int := none
  attrs : List AttrView := []

def parseLogRecordField (buf : Bytes) (_tagStart field wire : Nat) (s : LogRecordState)
    (c : WireCursor) : Run ParseError (LogRecordState × WireCursor) :=
  if field = 2 ∧ wire = 0 then do
    let (v, c) ← c.varint
    .ok ({ s with severityNumber := some (asI32 v) }, c)
  else if field = 5 ∧ wire = 2 then do
    let (av, c) ← c.lenRange
    match ← anyValueString buf av with
    | some text => .ok ({ s with body := text }, c)
    | none => .ok (s, c)
  else if field = 6 ∧ wire = 2 then do
    let (kv, c) ← c.lenRange
    match ← parseKeyValue buf kv with
    | some attr => .ok ({ s with attrs := s.attrs ++ [attr] }, c)
    | none => .ok (s, c)
  else if field = 9 ∧ wire = 2 then do
    let (r, c) ← c.lenRange
    if r.len = 16 ∨ r.len = 32 then .ok ({ s with traceId := some r }, c) else .ok (s, c)
  else do
    let c ← c.skip wire
    .ok (s, c)

def parseLogRecord (buf : Bytes) (window : Range) (resource : ResourceAttrs) :
    Run ParseError RecordView := do
  -- The empty range at the window's start stands for no string body.
  let s ← walk id (parseLogRecordField buf) buf window { body := ⟨window.start, window.start⟩ }
  .ok {
    body := s.body
    traceId := s.traceId
    attrs := s.attrs
    severityNumber := s.severityNumber
    namespaceName := resource.namespaceName
    serviceName := resource.serviceName }

def parseScopeLogsField (buf : Bytes) (resource : ResourceAttrs) (_tagStart field wire : Nat)
    (out : List RecordView) (c : WireCursor) : Run ParseError (List RecordView × WireCursor) :=
  if field = 2 ∧ wire = 2 then do
    let (lr, c) ← c.lenRange
    let view ← parseLogRecord buf lr resource
    .ok (out ++ [view], c)
  else do
    let c ← c.skip wire
    .ok (out, c)

def parseScopeLogs (buf : Bytes) (window : Range) (resource : ResourceAttrs) (out : List RecordView) :
    Run ParseError (List RecordView) :=
  walk id (parseScopeLogsField buf resource) buf window out

/-- A later resource message replaces what an earlier one gave. -/
def parseResourceLogsField (buf : Bytes) (_tagStart field wire : Nat) (s : ResourceAttrs × List Range)
    (c : WireCursor) : Run ParseError ((ResourceAttrs × List Range) × WireCursor) :=
  if field = 1 ∧ wire = 2 then do
    let (r, c) ← c.lenRange
    let attrs ← parseResourceAttrs buf r
    .ok ((attrs, s.2), c)
  else if field = 2 ∧ wire = 2 then do
    let (sl, c) ← c.lenRange
    .ok ((s.1, s.2 ++ [sl]), c)
  else do
    let c ← c.skip wire
    .ok (s, c)

def parseScopes (buf : Bytes) (resource : ResourceAttrs) :
    List Range → List RecordView → Run ParseError (List RecordView)
  | [], out => .ok out
  | sl :: scopes, out => do
    let out ← parseScopeLogs buf sl resource out
    parseScopes buf resource scopes out

def parseResourceLogs (buf : Bytes) (window : Range) (out : List RecordView) :
    Run ParseError (List RecordView) := do
  let (resource, scopes) ← walk id (parseResourceLogsField buf) buf window ({}, [])
  parseScopes buf resource scopes out

def parseRequestField (buf : Bytes) (_tagStart field wire : Nat) (out : List RecordView)
    (c : WireCursor) : Run ParseError (List RecordView × WireCursor) :=
  if field = 1 ∧ wire = 2 then do
    let (rl, c) ← c.lenRange
    let out ← parseResourceLogs buf rl out
    .ok (out, c)
  else do
    let c ← c.skip wire
    .ok (out, c)

def parseExportLogsRequest (buf : Bytes) (out : List RecordView) : Run ParseError (List RecordView) :=
  walk id (parseRequestField buf) buf ⟨0, buf.length⟩ out

def stageParse : StageId := ⟨"parse"⟩

def ParseStage.apply (env : Envelope) : Run StageError Unit × Envelope :=
  match parseExportLogsRequest env.raw [] with
  | .ok records => (.ok (), { env with records })
  | .error (.err _) => (.error (.err (.internal "malformed OTLP logs payload")), env)
  | .error .panic => (.error .panic, env)
  | .error .diverge => (.error .diverge, env)

def parseStage : Stage := ⟨stageParse, ParseStage.apply⟩

end ArchivAgent
