import Mathlib.Data.List.Sort
import ArchivAgent.Ingest.Otlp

/-!
# Vectored export assembly

`archiv-export/src/lib.rs`. Sizes are `usize` in the source and natural numbers here; a payload's
length always fits. `build_container` calls itself one level down; the three levels are the three
child builders below.
-/

namespace ArchivAgent
open Wire (Bytes Range slice)

inductive AssembleError where
  | wire (e : ParseError)
  | recordCountMismatch (parsed walked : Nat)
  | unknownMask (id : MaskId)
  deriving DecidableEq, Repr

abbrev MaskTable := List Bytes

def MaskTable.bytes (masks : MaskTable) (id : MaskId) : Option Bytes := masks[id]?

structure AssembledPayload where
  chunks : List Bytes
  len : Nat
  deriving DecidableEq, Repr

def AssembledPayload.passthrough (raw : Bytes) : AssembledPayload := ⟨[raw], raw.length⟩

def AssembledPayload.contiguous (p : AssembledPayload) : Bytes := p.chunks.flatten

inductive Part where
  | raw (r : Range)
  | mask (m : MaskId)
  deriving DecidableEq, Repr

inductive Seg where
  | verbatim (r : Range)
  | nested (field size : Nat) (segs : List Seg)
  | scalar (field size : Nat) (parts : List Part)
  deriving Repr

/-- `64 - leading_zeros` is the bit length, the logarithm plus one. -/
def varintLen (v : Nat) : Nat := (Nat.log2 (v ||| 1) + 1 + 6) / 7

def headerLen (field size : Nat) : Nat := varintLen (field <<< 3 ||| 2) + varintLen size

def segEncodedLen : Seg → Nat
  | .verbatim r => r.len
  | .nested field size _ => headerLen field size + size
  | .scalar field size _ => headerLen field size + size

def segsEncodedLen (segs : List Seg) : Nat := (segs.map segEncodedLen).sum

inductive Child where
  | unchanged
  | dropped
  | rebuilt (segs : List Seg)
  deriving Repr

/-- The sort key `(start, end)`. -/
def SpanLe (a b : Redaction) : Prop :=
  a.target.start < b.target.start ∨ a.target.start = b.target.start ∧ a.target.stop ≤ b.target.stop

instance : DecidableRel SpanLe := fun _ _ => inferInstanceAs (Decidable (_ ∨ _))

/-- A span that starts before the last kept one ends is skipped: first match wins. -/
def resolveSpans : Nat → List Redaction → List Redaction
  | _, [] => []
  | cursor, r :: spans =>
    if r.target.start < cursor then resolveSpans cursor spans
    else r :: resolveSpans r.target.stop spans

def effectiveSpans (env : Envelope) (idx : Nat) (window : Range) : List Redaction :=
  let spans := (env.decisions.redactionsFor idx).filter fun r =>
    window.start ≤ r.target.start ∧ r.target.stop ≤ window.stop
  -- `sort_by_key` is stable.
  resolveSpans window.start (spans.insertionSort SpanLe)

structure ScalarState where
  cursor : Nat
  size : Nat := 0
  parts : List Part := []

def spliceSpans (masks : MaskTable) : List Redaction → ScalarState → Run AssembleError ScalarState
  | [], s => .ok s
  | r :: spans, s =>
    let s := if s.cursor < r.target.start then
        { s with size := s.size + (r.target.start - s.cursor), parts := s.parts ++ [.raw ⟨s.cursor, r.target.start⟩] }
      else s
    match masks.bytes r.mask with
    | none => .error (.err (.unknownMask r.mask))
    | some m => spliceSpans masks spans
        { cursor := r.target.stop, size := s.size + m.length, parts := s.parts ++ [.mask r.mask] }

def buildScalar (field : Nat) (window : Range) (idx : Nat) (env : Envelope) (masks : MaskTable) :
    Run AssembleError (Option Seg) :=
  let spans := effectiveSpans env idx window
  if spans.isEmpty then .ok none
  else do
    let s ← spliceSpans masks spans { cursor := window.start }
    if s.cursor < window.stop then
      .ok (some (.scalar field (s.size + (window.stop - s.cursor))
        (s.parts ++ [.raw ⟨s.cursor, window.stop⟩])))
    else .ok (some (.scalar field s.size s.parts))

/-- What every builder keeps while it walks: `segs`, the start of the verbatim `run`, `changed`. -/
structure Rebuild where
  segs : List Seg := []
  run : Nat
  changed : Bool := false

namespace Rebuild

def flush (s : Rebuild) (stop : Nat) : List Seg :=
  if s.run < stop then s.segs ++ [.verbatim ⟨s.run, stop⟩] else s.segs

def put (s : Rebuild) (tagStart : Nat) (seg : Seg) (pos : Nat) : Rebuild :=
  { segs := s.flush tagStart ++ [seg], run := pos, changed := true }

def cut (s : Rebuild) (tagStart pos : Nat) : Rebuild :=
  { segs := s.flush tagStart, run := pos, changed := true }

def finish (s : Rebuild) (stop : Nat) : Child :=
  if !s.changed then .unchanged else .rebuilt (s.flush stop)

end Rebuild

def buildAnyValueField (idx : Nat) (env : Envelope) (masks : MaskTable) (tagStart field wire : Nat)
    (s : Rebuild) (c : WireCursor) : Run AssembleError (Rebuild × WireCursor) :=
  if field = 1 ∧ wire = 2 then do
    let (r, c) ← c.lenRange.mapErr .wire
    match ← buildScalar 1 r idx env masks with
    | some scalar => .ok (s.put tagStart scalar c.pos, c)
    | none => .ok (s, c)
  else do
    let c ← (c.skip wire).mapErr .wire
    .ok (s, c)

def buildAnyValue (buf : Bytes) (window : Range) (idx : Nat) (env : Envelope) (masks : MaskTable) :
    Run AssembleError Child := do
  let s ← WireCursor.walk .wire (buildAnyValueField idx env masks) buf window { run := window.start }
  .ok (s.finish window.stop)

def buildKeyValueField (buf : Bytes) (idx : Nat) (env : Envelope) (masks : MaskTable)
    (tagStart field wire : Nat) (s : Rebuild) (c : WireCursor) :
    Run AssembleError (Rebuild × WireCursor) :=
  if field = 2 ∧ wire = 2 then do
    let (av, c) ← c.lenRange.mapErr .wire
    match ← buildAnyValue buf av idx env masks with
    | .rebuilt inner => .ok (s.put tagStart (.nested 2 (segsEncodedLen inner) inner) c.pos, c)
    | _ => .ok (s, c)
  else do
    let c ← (c.skip wire).mapErr .wire
    .ok (s, c)

def buildKeyValue (buf : Bytes) (window : Range) (idx : Nat) (env : Envelope) (masks : MaskTable) :
    Run AssembleError Child := do
  let s ← WireCursor.walk .wire (buildKeyValueField buf idx env masks) buf window { run := window.start }
  .ok (s.finish window.stop)

def buildRecordField (buf : Bytes) (idx : Nat) (env : Envelope) (masks : MaskTable)
    (tagStart field wire : Nat) (s : Rebuild) (c : WireCursor) :
    Run AssembleError (Rebuild × WireCursor) := do
  let (child, c) ←
    if (field = 5 ∨ field = 6) ∧ wire = 2 then do
      let (w, c) ← c.lenRange.mapErr .wire
      let child ← (if field = 5 then buildAnyValue else buildKeyValue) buf w idx env masks
      .ok (child, c)
    else do
      let c ← (c.skip wire).mapErr .wire
      .ok (Child.unchanged, c)
  match child with
  | .rebuilt inner => .ok (s.put tagStart (.nested field (segsEncodedLen inner) inner) c.pos, c)
  | _ => .ok (s, c)

def buildRecord (buf : Bytes) (window : Range) (idx : Nat) (env : Envelope) (masks : MaskTable) :
    Run AssembleError Child :=
  if env.decisions.samplingVerdict idx = .drop then .ok .dropped
  else do
    let s ← WireCursor.walk .wire (buildRecordField buf idx env masks) buf window { run := window.start }
    .ok (s.finish window.stop)

/-- Builds the child in a window; the number is the record index. -/
abbrev ChildBuilder := Range → Nat → Run AssembleError (Child × Nat)

def buildContainerField (childField : Nat) (build : ChildBuilder) (tagStart field wire : Nat)
    (s : Rebuild × Nat) (c : WireCursor) : Run AssembleError ((Rebuild × Nat) × WireCursor) :=
  if field = childField ∧ wire = 2 then do
    let (w, c) ← c.lenRange.mapErr .wire
    let (child, recIdx) ← build w s.2
    match child with
    | .unchanged => .ok ((s.1, recIdx), c)
    | .dropped => .ok ((s.1.cut tagStart c.pos, recIdx), c)
    | .rebuilt inner =>
      .ok ((s.1.put tagStart (.nested childField (segsEncodedLen inner) inner) c.pos, recIdx), c)
  else do
    let c ← (c.skip wire).mapErr .wire
    .ok (s, c)

def buildContainer (buf : Bytes) (window : Range) (childField : Nat) (build : ChildBuilder)
    (recIdx : Nat) : Run AssembleError (Child × Nat) := do
  let (s, recIdx) ← WireCursor.walk .wire (buildContainerField childField build) buf window
    ({ run := window.start }, recIdx)
  .ok (s.finish window.stop, recIdx)

def scopeChild (buf : Bytes) (env : Envelope) (masks : MaskTable) : ChildBuilder := fun w recIdx => do
  let child ← buildRecord buf w recIdx env masks
  .ok (child, recIdx + 1)

def resourceChild (buf : Bytes) (env : Envelope) (masks : MaskTable) : ChildBuilder := fun w recIdx =>
  buildContainer buf w 2 (scopeChild buf env masks) recIdx

def requestChild (buf : Bytes) (env : Envelope) (masks : MaskTable) : ChildBuilder := fun w recIdx =>
  buildContainer buf w 2 (resourceChild buf env masks) recIdx

def buildRequest (buf : Bytes) (env : Envelope) (masks : MaskTable) (recIdx : Nat) :
    Run AssembleError (List Seg × Nat) := do
  match ← buildContainer buf ⟨0, buf.length⟩ 1 (requestChild buf env masks) recIdx with
  | (.rebuilt segs, recIdx) => .ok (segs, recIdx)
  | (_, recIdx) => .ok ([.verbatim ⟨0, buf.length⟩], recIdx)

structure Assembler where
  raw : Bytes
  chunks : List Bytes := []
  scratch : Bytes := []
  len : Nat := 0

def putVarintLoop : Nat → Nat → Bytes
  | 0, _ => []
  | n + 1, v =>
    let b := UInt8.ofNat (v &&& 0x7F)
    let v := v >>> 7
    if v = 0 then [b] else (b ||| 0x80) :: putVarintLoop n v

/-- Each round shifts at least one bit out, so `v + 1` rounds are enough. -/
def putVarint (v : Nat) : Bytes := putVarintLoop (v + 1) v

namespace Assembler

def flushScratch (a : Assembler) : Assembler :=
  if a.scratch.isEmpty then a else { a with chunks := a.chunks ++ [a.scratch], scratch := [] }

/-- `Bytes::slice` panics on a range outside the buffer. -/
def pushRaw (a : Assembler) (r : Range) : Run AssembleError Assembler :=
  if r.stop ≤ r.start then .ok a
  else if a.raw.length < r.stop then .error .panic
  else
    let a := { a with len := a.len + r.len }.flushScratch
    .ok { a with chunks := a.chunks ++ [slice a.raw r.start r.stop] }

def pushHeader (a : Assembler) (field size : Nat) : Assembler :=
  { a with
    scratch := a.scratch ++ putVarint (field <<< 3 ||| 2) ++ putVarint size
    len := a.len + headerLen field size }

def pushMask (a : Assembler) (mask : Bytes) : Assembler :=
  let a := { a with len := a.len + mask.length }.flushScratch
  { a with chunks := a.chunks ++ [mask] }

def finish (a : Assembler) : AssembledPayload :=
  let a := a.flushScratch
  ⟨a.chunks, a.len⟩

end Assembler

def emitParts (masks : MaskTable) : List Part → Assembler → Run AssembleError Assembler
  | [], a => .ok a
  | .raw r :: parts, a => do
    let a ← a.pushRaw r
    emitParts masks parts a
  | .mask m :: parts, a =>
    match masks.bytes m with
    | none => .error (.err (.unknownMask m))
    | some mask => emitParts masks parts (a.pushMask mask)

mutual

def emitSeg (masks : MaskTable) : Seg → Assembler → Run AssembleError Assembler
  | .verbatim r, a => a.pushRaw r
  | .nested field size segs, a => emitSegs masks segs (a.pushHeader field size)
  | .scalar field size parts, a => emitParts masks parts (a.pushHeader field size)

def emitSegs (masks : MaskTable) : List Seg → Assembler → Run AssembleError Assembler
  | [], a => .ok a
  | seg :: segs, a => do
    let a ← emitSeg masks seg a
    emitSegs masks segs a

end

def assemble (env : Envelope) (masks : MaskTable) : Run AssembleError AssembledPayload :=
  if !env.decisions.anyDropped && env.decisions.redactionTotal == 0 then
    .ok ⟨[slice env.raw 0 env.raw.length], env.raw.length⟩
  else do
    let (segs, recIdx) ← buildRequest env.raw env masks 0
    if recIdx ≠ env.records.length then
      .error (.err (.recordCountMismatch env.records.length recIdx))
    else
      let a ← emitSegs masks segs { raw := env.raw }
      .ok a.finish

end ArchivAgent
