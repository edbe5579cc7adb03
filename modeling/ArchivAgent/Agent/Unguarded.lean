import ArchivAgent.Agent.Bypass
import ArchivAgent.Export.Bounds
import ArchivAgent.Pipeline.Hex

/-!
# The code outside the guard

Sampling and assembly run outside `catch_unwind`, so nothing they do may panic. No index, slice or
subtraction on the way of a request leaves its bounds and no loop runs on, whatever the bytes, the
policy and the rules are; of the regex crate only the bounds of its matches are used.
-/

namespace ArchivAgent
open Wire WireCursor

/-! ### Trace ids -/

/-- The digit's byte is subtracted from without wrapping, and what is left is a digit. -/
theorem nibble_bounds {b n : UInt8} (h : nibble b = some n) : n.toNat < 16 ∧
    (48 ≤ b.toNat ∧ n.toNat = b.toNat - 48 ∨ 97 ≤ b.toNat ∧ n.toNat = b.toNat - 97 + 10 ∨
      65 ≤ b.toNat ∧ n.toNat = b.toNat - 65 + 10) := by
  have value := nibble_cases h
  omega

theorem decodeHexPairs_length (n : Nat) {hex id : Bytes} (long : hex.length = 2 * n)
    (decoded : decodeHexPairs hex = some id) : id.length = n := by
  induction n generalizing hex id with
  | zero =>
    obtain rfl := List.length_eq_zero_iff.mp long
    cases decoded
    rfl
  | succ n ih =>
    match hex, long with
    | hi :: lo :: rest, long =>
      unfold decodeHexPairs at decoded
      obtain ⟨high, -, decoded⟩ := Option.bind_eq_some_iff.mp decoded
      obtain ⟨low, -, decoded⟩ := Option.bind_eq_some_iff.mp decoded
      obtain ⟨tail, more, decoded⟩ := Option.bind_eq_some_iff.mp decoded
      cases decoded
      rw [List.length_cons, ih _ more]
      simp only [List.length_cons] at long
      omega

theorem traceIdBytes_length {v : RecordView} {raw id : Bytes} (h : v.traceIdBytes raw = some id) : id.length = 16 := by
  unfold RecordView.traceIdBytes at h
  obtain ⟨range, -, h⟩ := Option.bind_eq_some_iff.mp h
  obtain ⟨src, -, h⟩ := Option.bind_eq_some_iff.mp h
  split at h
  · rename_i sixteen
    cases h
    exact sixteen
  split at h
  · rename_i long
    unfold decodeHex16 at h
    rw [if_neg (not_not_intro long)] at h
    exact decodeHexPairs_length 16 long h
  · cases h

/-! ### The spans of the redaction stage -/

section Spans
variable {regex : RegexCrate}
  (reported : ∀ pattern field, ∀ m ∈ regex.findIter pattern field, m.start ≤ m.stop ∧ m.stop ≤ field.length)
include reported

theorem redactField_within {engine : RedactEngine} {field : Bytes} {base : Nat} {key : Option Bytes} {s : Redaction}
    (h : s ∈ RedactStage.redactField regex engine field base key) : s.target.Within ⟨base, base + field.length⟩ := by
  unfold RedactStage.redactField at h
  split at h
  · cases h
  obtain ⟨idx, -, h⟩ := List.mem_flatMap.mp h
  split at h
  · cases h
  split at h
  · obtain ⟨m, found, rfl⟩ := List.mem_map.mp h
    obtain ⟨ordered, inside⟩ := reported _ _ m found
    unfold Range.Within
    simp only
    omega
  · cases h

omit reported in
theorem get_within {w : Range} {raw bytes : Bytes} (read : w.get raw = some bytes) {r : Range}
    (h : r.Within ⟨w.start, w.start + bytes.length⟩) : r.Within w := by
  unfold Range.get at read
  split at read
  · rename_i inside
    cases read
    rw [length_slice inside.2] at h
    unfold Range.Within at *
    simp only at h
    omega
  · cases read

theorem redactRecord_within {engine : RedactEngine} {raw : Bytes} {v : RecordView} {s : Redaction}
    (h : s ∈ RedactStage.redactRecord regex engine raw v) :
    ∃ w ∈ v.body :: v.attrs.map (·.value), s.target.Within w := by
  unfold RedactStage.redactRecord at h
  rcases List.mem_append.mp h with body | attr
  · split at body
    · rename_i read
      exact ⟨v.body, List.mem_cons_self, get_within read (redactField_within reported body)⟩
    · cases body
  · obtain ⟨a, member, attr⟩ := List.mem_flatMap.mp attr
    unfold RedactStage.redactAttr at attr
    split at attr
    · rename_i read
      exact ⟨a.value, List.mem_cons_of_mem _ (List.mem_map_of_mem member),
        get_within read (redactField_within reported attr)⟩
    · cases attr

theorem spans_within {engine : RedactEngine} {raw : Bytes} {views : List RecordView} (start : Nat) :
    ∀ push ∈ RedactStage.spans regex engine raw start views, start ≤ push.1 ∧
      ∃ v ∈ views[push.1 - start]?, ∃ w ∈ v.body :: v.attrs.map (·.value), push.2.target.Within w := by
  induction views generalizing start with
  | nil => simp [RedactStage.spans]
  | cons v views ih =>
    unfold RedactStage.spans
    intro push member
    rcases List.mem_append.mp member with here | later
    · obtain ⟨s, pushed, rfl⟩ := List.mem_map.mp here
      refine ⟨Nat.le_refl _, v, ?_, redactRecord_within reported pushed⟩
      simp
    · obtain ⟨after, v', found, rest⟩ := ih (start + 1) push later
      refine ⟨by omega, v', ?_, rest⟩
      rw [show push.1 - start = push.1 - (start + 1) + 1 by omega, List.getElem?_cons_succ]
      exact found

end Spans

/-! ### Everything on the way of a request -/

/-- The operations of a cursor over a window. -/
structure CursorBound (buf : Bytes) (w : Range) (c : WireCursor) : Prop where
  byte : Ends (fun r => Past buf w c.pos r.2) c.byte
  varint : Ends (fun r => Past buf w c.pos r.2) c.varint
  tag : Ends (fun r => Past buf w c.pos r.2) c.tag
  lenRange : Ends (fun r => Past buf w c.pos r.2 ∧ r.1.Within w ∧ c.pos < r.1.start ∧ r.1.stop = r.2.pos) c.lenRange
  advance : ∀ n, 0 < n → Ends (fun c' => Past buf w c.pos c') (c.advance n)
  skip : ∀ wire, Ends (fun c' => Past buf w c.pos c') (c.skip wire)

structure ParserBound (buf : Bytes) (w : Range) : Prop where
  anyValue : Ends (fun o => ∀ r ∈ o, r.Within w) (anyValueString buf w)
  keyValue : Walks buf w (fun _ s => (∀ r ∈ s.1, r.Within w) ∧ ∀ r ∈ s.2, r.Within w) (parseKeyValueField buf)
  resource : Walks buf w (fun _ s => s.Within w) (parseResourceAttrsField buf)
  record : Walks buf w (fun _ s => s.Within w) (parseLogRecordField buf)
  scopeLogs : ∀ res : ResourceAttrs, res.Within ⟨0, buf.length⟩ →
    Walks buf w (fun _ out => Found buf out) (parseScopeLogsField buf res)
  resourceLogs : Walks buf w (fun _ s => s.1.Within w ∧ ∀ sl ∈ s.2, sl.Within w) (parseResourceLogsField buf)
  request : Walks buf w (fun _ out => Found buf out) (parseRequestField buf)

structure BuilderBound (env : Envelope) (masks : MaskTable) (w : Range) : Prop where
  swept : ∀ idx, Swept w.start w.stop (effectiveSpans env idx w)
  scalar : ∀ field idx, Ends (fun o => ∀ seg ∈ o, seg.Within w) (buildScalar field w idx env masks)
  anyValue : ∀ idx, Walks env.raw w (fun p s => s.Within w p) (buildAnyValueField idx env masks)
  keyValue : ∀ idx, Walks env.raw w (fun p s => s.Within w p) (buildKeyValueField env.raw idx env masks)
  record : ∀ idx, Walks env.raw w (fun p s => s.Within w p) (buildRecordField env.raw idx env masks)
  scope : Walks env.raw w (fun p s => s.1.Within w p) (buildContainerField 2 (scopeChild env.raw env masks))
  resource : Walks env.raw w (fun p s => s.1.Within w p) (buildContainerField 2 (resourceChild env.raw env masks))
  request : Walks env.raw w (fun p s => s.1.Within w p) (buildContainerField 1 (requestChild env.raw env masks))

/-- Nothing on the way of a request panics or runs on. -/
structure Bounded (crates : Crates) (p : Pipeline) : Prop where
  /-- A cursor in its window stays in it, and so do the ranges it gives. -/
  cursor : ∀ buf w c, w.Within ⟨0, buf.length⟩ → c.Reads buf w → CursorBound buf w c
  parser : ∀ buf w, w.Within ⟨0, buf.length⟩ → ParserBound buf w
  parsed : ∀ buf, Ends (Found buf) (parseExportLogsRequest buf [])
  traceId : ∀ (v : RecordView) raw id, v.traceIdBytes raw = some id → id.length = 16
  digit : ∀ b n, nibble b = some n → n.toNat < 16 ∧ (48 ≤ b.toNat ∧ n.toNat = b.toNat - 48 ∨
    97 ≤ b.toNat ∧ n.toNat = b.toNat - 97 + 10 ∨ 65 ≤ b.toNat ∧ n.toNat = b.toNat - 65 + 10)
  verdict : ∀ glob ns, ∃ same, Glob.run glob ns = .ok same
  /-- A span lies in one of the strings of its record. -/
  spans : ∀ raw views, ∀ push ∈ RedactStage.spans crates.regex p.redact raw 0 views,
    ∃ v ∈ views[push.1]?, ∃ w ∈ v.body :: v.attrs.map (·.value), push.2.target.Within w
  builder : ∀ env : Envelope, env.decisions.Ranged → ∀ masks w, w.Within ⟨0, env.raw.length⟩ → BuilderBound env masks w
  built : ∀ env : Envelope, env.decisions.Ranged → ∀ masks recIdx,
    Ends (fun r => SegsWithin ⟨0, env.raw.length⟩ r.1) (buildRequest env.raw env masks recIdx)
  emitted : ∀ masks raw segs, SegsWithin ⟨0, raw.length⟩ segs →
    Ends (fun a => a.raw = raw) (emitSegs masks segs { raw := raw })
  assembled : ∀ env : Envelope, env.decisions.Ranged → ∀ masks, Ends (fun _ => True) (assemble env masks)
  processed : ∀ breaker now fault raw, ∃ out after, p.process crates breaker now fault raw = .ok (out, after)

theorem process_bounded (crates : Crates) (p : Pipeline)
    (reported : ∀ pattern field, ∀ m ∈ crates.regex.findIter pattern field, m.start ≤ m.stop ∧ m.stop ≤ field.length) :
    Bounded crates p where
  cursor buf w c inside reads := {
    byte := byte_ends inside.2.2 reads
    varint := varint_ends inside.2.2 reads
    tag := tag_ends inside.2.2 reads
    lenRange := lenRange_ends inside.2.2 reads
    advance := fun _ positive => advance_ends reads positive
    skip := skip_ends inside.2.2 reads }
  parser buf w inside := {
    anyValue := anyValueString_ends inside
    keyValue := parseKeyValueField_walks inside
    resource := parseResourceAttrsField_walks inside
    record := parseLogRecordField_walks inside
    scopeLogs := fun _ resource => parseScopeLogsField_walks inside resource
    resourceLogs := parseResourceLogsField_walks inside
    request := parseRequestField_walks inside }
  parsed := parseExportLogsRequest_ends
  traceId _ _ _ h := traceIdBytes_length h
  digit _ _ h := nibble_bounds h
  verdict := Glob.run_ok
  spans raw views push member := (spans_within reported 0 push member).2
  builder env ranged masks w inside := {
    swept := fun idx => effectiveSpans_swept ranged idx inside.2.1
    scalar := fun field idx => buildScalar_ends ranged masks field idx inside.2.1
    anyValue := fun idx => buildAnyValueField_walks ranged masks idx inside
    keyValue := fun idx => buildKeyValueField_walks ranged masks idx inside
    record := fun idx => buildRecordField_walks ranged masks idx inside
    scope := buildContainerField_walks (scopeChild_within ranged masks) 2 inside
    resource := buildContainerField_walks (resourceChild_within ranged masks) 2 inside
    request := buildContainerField_walks (requestChild_within ranged masks) 1 inside }
  built env ranged masks recIdx := buildRequest_ends ranged masks recIdx
  emitted masks raw segs within := emitSegs_ends masks rfl within
  assembled env ranged masks := assemble_ends ranged masks
  processed breaker now fault raw := by
    obtain ⟨g, governed, env, -⟩ := govern_env crates p raw breaker now fault
    have ranged : g.env.decisions.Ranged := by
      rw [env]
      intro s member
      simp only at member
      split at member
      · cases member
      · obtain ⟨push, pushed, rfl⟩ := List.mem_map.mp member
        obtain ⟨-, v, -, w, -, within⟩ := spans_within reported 0 push pushed
        exact within.2.1
    obtain ⟨out, after, processed, -⟩ := process_forwards governed ranged
    exact ⟨out, after, processed⟩

theorem process_bounded_ab : Bounded .literal maskAb :=
  process_bounded .literal maskAb RegexCrate.literal_lawful.in_bounds

end ArchivAgent
