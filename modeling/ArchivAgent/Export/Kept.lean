import ArchivAgent.Export.Reparse

/-!
# What the destination parses

The payload the assembler writes parses to the kept records, in their order, each with its spans
spliced and the rest as it was.
-/

namespace ArchivAgent
open Wire

/-- The record under an index after governance: the spans are spliced, the rest stays. -/
def RecordView.governed (env : Envelope) (masks : MaskTable) (i : Nat) (v : RecordView) : Content :=
  { v.content env.raw with
    body := governText env masks i v.body
    attrs := v.attrs.map fun a => ((a.key.get env.raw).getD [], governText env masks i a.value) }

def keptContents (env : Envelope) (masks : MaskTable) : Nat → List RecordView → List Content
  | _, [] => []
  | i, v :: views =>
    if env.decisions.samplingVerdict i = .drop then keptContents env masks (i + 1) views
    else v.governed env masks i :: keptContents env masks (i + 1) views

/-- A span of a record stands in one of its strings, and that string is not empty. -/
def RecordView.Holds (v : RecordView) (s : Redaction) : Prop :=
  ∃ w ∈ v.body :: v.attrs.map (·.value), w.start < w.stop ∧
    w.start ≤ s.target.start ∧ s.target.start ≤ s.target.stop ∧ s.target.stop ≤ w.stop

def Decisions.Placed (d : Decisions) (views : List RecordView) : Prop :=
  ∀ s ∈ d.redactions, ∃ v ∈ views[s.record]?, v.Holds s.redaction

instance (v : RecordView) (s : Redaction) : Decidable (v.Holds s) := inferInstanceAs (Decidable (∃ _ ∈ _, _))

instance (d : Decisions) (views : List RecordView) : Decidable (d.Placed views) :=
  inferInstanceAs (Decidable (∀ _ ∈ _, _))

section Views
variable {raw : Bytes} {r : Record}

theorem view_governed {env : Envelope} {masks : MaskTable} (held : r.In env.raw) (i : Nat) :
    r.view.governed env masks i = r.governed env masks i := by
  have attrs : (r.view.attrs.map fun a => ((a.key.get env.raw).getD [], governText env masks i a.value))
      = r.attrs.map fun a => (a.key.bytes, governText env masks i a.value.range) := by
    simp only [Record.view, List.map_map, Function.comp_def, Attr.view]
    exact List.map_congr_left fun a member => by rw [(held.attrs a member).key.get]; rfl
  rw [RecordView.governed, Record.governed, view_content held, attrs]
  rfl

theorem keptContents_eq {env : Envelope} {masks : MaskTable} {rs : List Record} (held : ∀ r ∈ rs, r.In env.raw)
    (i : Nat) : keptContents env masks i (rs.map Record.view) = survivors env masks i rs := by
  induction rs generalizing i with
  | nil => rfl
  | cons r rs ih =>
    simp only [List.mem_cons, forall_eq_or_imp] at held
    rw [List.map_cons, keptContents, survivors, view_governed held.1, ih held.2]

/-- A string that is not empty starts after the record that holds it. -/
theorem Viewed.string_under (viewed : Viewed r.text r) {w : Range}
    (member : w ∈ r.view.body :: r.view.attrs.map (·.value)) (nonempty : w.start < w.stop) :
    r.text.pos < w.start := by
  rcases List.mem_cons.mp member with rfl | value
  · have some : r.body.bytes ≠ [] := by
      intro none
      simp only [Record.view, Text.range, none, List.length_nil] at nonempty
      omega
    exact (windows_under _ (viewed.body_window some)).1
  · obtain ⟨_, view, rfl⟩ := List.mem_map.mp value
    obtain ⟨a, attr, rfl⟩ := List.mem_map.mp view
    exact (windows_under _ (viewed.attr_window attr)).1

/-- Spans in strings leave the place before the first field of a record alone. -/
theorem placed_clear {env : Envelope} {rs : List Record} (parsed : records env.raw = some rs)
    (placed : env.decisions.Placed (rs.map Record.view)) : Each (Clear env) 0 rs := by
  refine each_iff.mpr fun k r found => ?_
  rw [Nat.zero_add, Clear, List.eq_nil_iff_forall_not_mem]
  intro s member
  obtain ⟨ofRecord, first, last⟩ := mem_spansWithin.mp member
  obtain ⟨s, pushed, rfl, rfl⟩ := mem_redactionsFor.mp ofRecord
  obtain ⟨v, view, w, string, nonempty, low, ordered, -⟩ := placed s pushed
  rw [List.getElem?_map, found] at view
  cases view
  have := (records_viewed parsed (List.mem_of_getElem? found)).string_under string nonempty
  simp only at first last
  omega

end Views

/-- The payload parses to the kept records, one for one. -/
theorem assemble_reparses {raw : Bytes} {views : List RecordView} {d : Decisions} {masks : MaskTable}
    {out : AssembledPayload} (parsed : parseExportLogsRequest raw [] = .ok views) (placed : d.Placed views)
    (assembled : assemble ⟨raw, views, d⟩ masks = .ok out) (fits : out.contiguous.length < 2 ^ 64) :
    ∃ views', parseExportLogsRequest out.contiguous [] = .ok views' ∧
      views'.map (·.content out.contiguous) = keptContents ⟨raw, views, d⟩ masks 0 views := by
  obtain ⟨rs, found, rfl⟩ := parseExportLogsRequest_ok.mp parsed
  have held := records_in found
  have ranged : d.Ranged := fun s pushed => by
    obtain ⟨_, -, _, -, -, -, ordered, -⟩ := placed s pushed
    exact ordered
  obtain ⟨cells, written, bytes, -⟩ :=
    ((@assemble_meets ⟨raw, rs.map Record.view, d⟩ masks) ranged).of_ok assembled
  rw [bytes] at fits ⊢
  obtain ⟨rs', read, -, same⟩ := (@assembleCells_reread ⟨raw, rs.map Record.view, d⟩) found written fits
  refine ⟨rs'.map Record.view, parseExportLogsRequest_ok.mpr ⟨rs', read, rfl⟩, ?_⟩
  rw [keptContents_eq held, ← same (placed_clear found placed), List.map_map]
  exact List.map_congr_left fun r member => view_content (records_in read r member)

/-- A record to drop, and one with the body `abc`. -/
def paired : Bytes := [0x0A, 13, 0x12, 11, 0x12, 0, 0x12, 7, 0x2A, 5, 0x0A, 3, 97, 98, 99]

def pairedDecisions : Decisions where
  sampling := [.drop, .keep]
  redactions := [⟨stageSample, 1, ⟨⟨13, 14⟩, 0⟩⟩]

def pairedViews : List RecordView :=
  [⟨⟨6, 6⟩, none, [], none, none, none⟩, ⟨⟨12, 15⟩, none, [], none, none, none⟩]

def pairedOut : AssembledPayload :=
  ⟨[[0x0A, 12, 0x12, 10, 0x12, 8, 0x2A, 6, 0x0A, 4], [97], [42, 42], [99]], 14⟩

theorem assemble_reparses_paired : ∃ views', parseExportLogsRequest pairedOut.contiguous [] = .ok views' ∧
    views'.map (·.content pairedOut.contiguous)
      = keptContents ⟨paired, pairedViews, pairedDecisions⟩ [[42, 42]] 0 pairedViews :=
  (@assemble_reparses _ _ _ _ pairedOut) rfl (by decide) (by decide +kernel) (by decide)

end ArchivAgent
