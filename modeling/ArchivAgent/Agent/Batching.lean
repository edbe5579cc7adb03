import ArchivAgent.Agent.Acceptance
import ArchivAgent.Agent.Replay
import ArchivAgent.Export.Mirror
import ArchivAgent.Ingest.Shift

/-!
# Batches

Two requests behind one another are governed as each of them is by itself: the payload is the two
payloads, and the numbers are the sums.
-/

namespace ArchivAgent
open Wire

/-- One call in place of two. -/
structure Batches (out front back : Processed) : Prop where
  output : out.output.contiguous = front.output.contiguous ++ back.output.contiguous
  recordsIn : out.stats.recordsIn = front.stats.recordsIn + back.stats.recordsIn
  kept : out.stats.kept = front.stats.kept + back.stats.kept
  dropped : out.stats.dropped = front.stats.dropped + back.stats.dropped
  redactions : out.stats.redactions = front.stats.redactions + back.stats.redactions
  bytesIn : out.stats.bytesIn = front.stats.bytesIn + back.stats.bytesIn
  bytesOut : out.stats.bytesOut = front.stats.bytesOut + back.stats.bytesOut

/-! ### A record further on -/

section Shift
variable {d : Nat}

theorem Record.shift_zero (r : Record) : r.shift 0 = r := by
  have text : ∀ t : Text, t.shift 0 = t := fun _ => rfl
  have option : ∀ o : Option Text, o.map (Text.shift 0) = o := fun o => by cases o <;> rfl
  have attrs : r.attrs.map (Attr.shift 0) = r.attrs := by
    rw [show Attr.shift 0 = id from rfl, List.map_id]
  simp only [Record.shift, Resource.shift, text, option, attrs]

theorem content_shift (r : Record) : (r.shift d).content = r.content := by
  have option : ∀ o : Option Text, (o.map (Text.shift d)).map Text.bytes = o.map Text.bytes := fun o => by
    cases o <;> rfl
  simp only [Record.content, Record.shift, Resource.shift, option, List.map_map]
  rfl

theorem redactField_shift (regex : RegexCrate) (engine : RedactEngine) (field : Bytes) (base : Nat) (key : Option Bytes) :
    RedactStage.redactField regex engine field (base + d) key
      = (RedactStage.redactField regex engine field base key).map (Redaction.shift d) := by
  unfold RedactStage.redactField
  split
  · rfl
  · rw [List.map_flatMap]
    refine congrArg (List.flatMap · _) (funext fun ruleIdx => ?_)
    cases engine.rules[ruleIdx]? with
    | none => rfl
    | some rule =>
      simp only
      split
      · simp only [List.map_map, Function.comp_def, Redaction.shift, Range.shift, Nat.add_right_comm]
      · rfl

theorem recordSpans_shift (regex : RegexCrate) (engine : RedactEngine) (r : Record) :
    RedactStage.recordSpans regex engine (r.shift d)
      = (RedactStage.recordSpans regex engine r).map (Redaction.shift d) := by
  unfold RedactStage.recordSpans
  rw [List.map_append, List.map_flatMap]
  simp only [Record.shift, List.flatMap_map, Attr.shift, Text.shift, redactField_shift]

end Shift

/-! ### A request in a longer one -/

section Parts
variable {crates : Crates} {p : Pipeline} {raw buf : Bytes} {rs ws : List Record} {g gp : Governed}

theorem Governs.redactions_length (h : Governs crates p raw rs g) (held : ∀ r ∈ rs, r.In raw)
    (ran : g.stats.redactBypassed = false) : g.env.decisions.redactions.length
      = (rs.map fun r => (RedactStage.recordSpans crates.regex p.redact r).length).sum := by
  rw [h.redactions, ran, if_neg Bool.false_ne_true, List.length_map, spans_length held]

theorem Governs.partOf (whole : Governs crates p raw ws g) (part : Governs crates p buf rs gp)
    (lawful : crates.regex.Lawful) (formed : p.WellFormed) (held : ∀ r ∈ ws, r.In raw) (heldPart : ∀ r ∈ rs, r.In buf)
    (ran : g.stats.redactBypassed = false) (ranPart : gp.stats.redactBypassed = false) {d n : Nat} (stands : At raw d buf)
    (here : ∀ i < rs.length, ws[i + n]? = rs[i]?.map (Record.shift d)) : PartOf d n rs.length gp.env g.env where
  stands := by
    rw [whole.request, part.request]
    exact stands
  ranged := part.ranged heldPart lawful formed
  verdict i below := by
    have found := here i below
    unfold Decisions.samplingVerdict
    rw [whole.verdicts held, part.verdicts heldPart, List.getElem?_map, List.getElem?_map, found, Option.map_map]
    simp only [Function.comp_def, content_shift]
  spans i below := by
    have found := here i below
    rw [whole.redactionsFor held, part.redactionsFor heldPart, ran, ranPart, found, List.getElem?_eq_getElem below]
    simp only [Bool.false_eq_true, if_false, Option.map_some, Option.getD_some]
    exact recordSpans_shift _ _ _

end Parts

theorem process_batches {crates : Crates} (lawful : crates.regex.Lawful) {config : AgentConfig} {p : Pipeline}
    (built : Pipeline.fromConfig crates config = .ok p) {as bs : Bytes} {views views' : List RecordView}
    (parsed : parseExportLogsRequest as [] = .ok views) (parsed' : parseExportLogsRequest bs [] = .ok views')
    {breaker breakerFront breakerBack : CircuitBreaker.Inner} {now nowFront nowBack : Nat}
    (closed : (p.redactBreaker.allowAt breaker now).1 = true)
    (closedFront : (p.redactBreaker.allowAt breakerFront nowFront).1 = true)
    (closedBack : (p.redactBreaker.allowAt breakerBack nowBack).1 = true) {out : Processed} {after : CircuitBreaker.Inner}
    (processed : p.process crates breaker now none (as ++ bs) = .ok (out, after))
    (assembled : out.stats.assembleBypassed = false) : ∃ front afterFront back afterBack,
      p.process crates breakerFront nowFront none as = .ok (front, afterFront) ∧
      p.process crates breakerBack nowBack none bs = .ok (back, afterBack) ∧ Batches out front back := by
  obtain ⟨rs, found, -⟩ := parseExportLogsRequest_ok.mp parsed
  obtain ⟨ss, found', -⟩ := parseExportLogsRequest_ok.mp parsed'
  have both := records_append found found'
  have formed := Pipeline.fromConfig_wellFormed built
  have held := records_in both
  have heldFront := records_in found
  have heldBack := records_in found'
  obtain ⟨g, governed, governs, bypassed⟩ := (@govern_ok crates p) both breaker now none
  obtain ⟨gf, governedFront, front, bypassedFront⟩ := (@govern_ok crates p) found breakerFront nowFront none
  obtain ⟨gb, governedBack, back, bypassedBack⟩ := (@govern_ok crates p) found' breakerBack nowBack none
  have ran : g.stats.redactBypassed = false := by rw [bypassed, Pipeline.redactRuns, closed]; rfl
  have ranFront : gf.stats.redactBypassed = false := by rw [bypassedFront, Pipeline.redactRuns, closedFront]; rfl
  have ranBack : gb.stats.redactBypassed = false := by rw [bypassedBack, Pipeline.redactRuns, closedBack]; rfl
  have first : PartOf 0 0 rs.length gf.env g.env := by
    apply governs.partOf front lawful formed held heldFront ran ranFront (at_self (as ++ bs)).left
    intro i below
    rw [Nat.add_zero, List.getElem?_append_left below, List.getElem?_eq_getElem below, Option.map_some, Record.shift_zero]
  have second : PartOf as.length rs.length ss.length gb.env g.env := by
    have stands := (at_self (as ++ bs)).right
    rw [Nat.zero_add] at stands
    apply governs.partOf back lawful formed held heldBack ran ranBack stands
    intro i below
    rw [List.getElem?_append_right (Nat.le_add_left _ _), Nat.add_sub_cancel, List.getElem?_map]
  have verdicts : g.env.decisions.sampling = gf.env.decisions.sampling ++ gb.env.decisions.sampling := by
    rw [governs.verdicts held, front.verdicts heldFront, back.verdicts heldBack, List.map_append, List.map_map]
    simp only [Function.comp_def, content_shift]
  have spans : g.env.decisions.redactions.length
      = gf.env.decisions.redactions.length + gb.env.decisions.redactions.length := by
    rw [governs.redactions_length held ran, front.redactions_length heldFront ranFront,
      back.redactions_length heldBack ranBack, List.map_append, List.sum_append, List.map_map]
    simp only [Function.comp_def, recordSpans_shift, List.length_map]
  have idle : g.env.decisions.Idle → gf.env.decisions.Idle ∧ gb.env.decisions.Idle := by
    rintro ⟨kept, clean⟩
    have none := congrArg List.length clean
    rw [spans, List.length_nil] at none
    have split : g.env.decisions.anyDropped = (gf.env.decisions.anyDropped || gb.env.decisions.anyDropped) := by
      unfold Decisions.anyDropped
      rw [verdicts, List.contains_append]
    rw [split, Bool.or_eq_false_iff] at kept
    exact ⟨⟨kept.1, List.length_eq_zero_iff.mp (by omega)⟩, kept.2, List.length_eq_zero_iff.mp (by omega)⟩
  obtain ⟨cells, payload, written, -, bytes, len, rfl⟩ := governs.process_assembled held lawful formed governed processed assembled
  obtain ⟨cellsFront, cellsBack, writtenFront, writtenBack, same⟩ := assembleCells_append
    (by rw [governs.request, front.request, back.request]) (front.request ▸ found) (back.request ▸ found') first
    (by rw [front.request]; exact second) (by rw [governs.views, List.length_map, List.length_append, List.length_map])
    (by rw [front.views, List.length_map]) (by rw [back.views, List.length_map]) idle written
  have doneFront := front.process_ok heldFront lawful formed governedFront
  have doneBack := back.process_ok heldBack lawful formed governedBack
  rw [writtenFront] at doneFront
  rw [writtenBack] at doneBack
  obtain ⟨payloadFront, -, bytesFront, lenFront, doneFront⟩ := doneFront
  obtain ⟨payloadBack, -, bytesBack, lenBack, doneBack⟩ := doneBack
  rw [governs.request, front.request, back.request] at same
  have output : payload.contiguous = payloadFront.contiguous ++ payloadBack.contiguous := by
    rw [bytes, bytesFront, bytesBack, same]
  refine ⟨_, _, _, _, doneFront, doneBack, output, ?_, ?_, ?_, ?_, ?_, ?_⟩
  · simp only [governs.recordsIn, front.recordsIn, back.recordsIn, List.length_append, List.length_map]
  · simp only [governs.kept, front.kept, back.kept, verdicts, List.count_append]
  · simp only [governs.dropped, front.dropped, back.dropped, verdicts, List.count_append]
  · simp only [governs.counted, front.counted, back.counted, Decisions.redactionTotal, spans]
  · simp only [governs.bytesIn, front.bytesIn, back.bytesIn, List.length_append]
  · simp only [len, lenFront, lenBack, output, List.length_append]

def batchedOut : Processed where
  output := ⟨[[0x0A, 10, 0x12, 8, 0x12, 6, 0x2A, 4, 0x0A, 2], [42], [99], [0x0A, 12, 0x12, 10], [0x12, 0],
    [0x12, 6, 0x2A, 4, 0x0A, 2], [42], [99]], 26⟩
  stats := { recordsIn := 3, kept := 3, redactions := 2, bytesIn := 28, bytesOut := 26 }

theorem process_batches_ab : ∃ front afterFront back afterBack,
    maskAb.process .literal .closed 0 none alphabet = .ok (front, afterFront) ∧
    maskAb.process .literal .closed 0 none paired = .ok (back, afterBack) ∧ Batches batchedOut front back :=
  @process_batches .literal RegexCrate.literal_lawful (.masking [([97, 98], [42])]) maskAb rfl alphabet paired
    [⟨⟨10, 13⟩, none, [], none, none, none⟩] pairedViews rfl rfl .closed .closed .closed 0 0 0 rfl rfl rfl batchedOut
    .closed (by decide +kernel) rfl

end ArchivAgent
