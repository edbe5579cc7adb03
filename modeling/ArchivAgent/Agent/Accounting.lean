import ArchivAgent.Metrics.Metrics
import ArchivAgent.Agent.Leak
import ArchivAgent.Interval.Buckets

/-!
# What the numbers say

The statistics of a request against the bytes that were sent: they agree exactly when the assembly
succeeds, no rule matches in a dropped record, and no two matches in a kept record overlap.
-/

namespace ArchivAgent
open Wire

/-- `server::run` folds the statistics into a sample. -/
def Stats.sample (s : Stats) : Sample where
  eventsIn := s.recordsIn
  eventsSampledOut := s.dropped
  eventsExported := s.kept
  bytesIn := s.bytesIn
  bytesExported := s.bytesOut
  redactionCount := s.redactions
  failedOpen := s.redactBypassed || s.assembleBypassed

/-- The masks in the payload; a request that is forwarded as it came has none. -/
def insertions (env : Envelope) (masks : MaskTable) : Nat :=
  match assemble env masks with
  | .ok _ => masksWritten env masks
  | .error _ => 0

/-- The numbers are those of the bytes that were sent. -/
structure Describes (raw : Bytes) (g : Governed) (masks : MaskTable) (out : Processed) : Prop where
  recordsIn : out.stats.recordsIn = out.stats.kept + out.stats.dropped
  redactions : insertions g.env masks = out.stats.redactions
  bytesOut : out.stats.bytesOut = out.output.contiguous.length
  kept : ∃ sent, parseExportLogsRequest out.output.contiguous [] = .ok sent ∧ sent.length = out.stats.kept ∧
    out.stats.sample = {
      eventsIn := g.env.records.length
      eventsSampledOut := g.env.records.length - sent.length
      eventsExported := sent.length
      bytesIn := raw.length
      bytesExported := out.output.contiguous.length
      redactionCount := insertions g.env masks
      failedOpen := out.stats.redactBypassed || out.stats.assembleBypassed }

/-! ### The kept records -/

section Kept
variable {crates : Crates} {p : Pipeline} {rs : List Record} {g : Governed} {env : Envelope} {masks : MaskTable}

theorem count_verdicts (verdicts : List SampleVerdict) :
    verdicts.length = verdicts.count .keep + verdicts.count .drop := by
  induction verdicts with
  | nil => rfl
  | cons v verdicts ih => cases v <;> simp [ih] <;> omega

theorem survivors_length {verdict : Record → SampleVerdict} {i : Nat}
    (given : ∀ k r, rs[k]? = some r → env.decisions.samplingVerdict (i + k) = verdict r) :
    (survivors env masks i rs).length = (rs.map verdict).count .keep := by
  induction rs generalizing i with
  | nil => rfl
  | cons r rs ih =>
    have here := given 0 r rfl
    have rest := ih (i := i + 1) fun k r' found => by
      have := given (k + 1) r' (by simpa using found)
      rwa [show i + (k + 1) = i + 1 + k by omega] at this
    rw [survivors, List.map_cons, ← here, Nat.add_zero]
    cases kept : env.decisions.samplingVerdict i with
    | drop => simpa using rest
    | keep => simpa using rest

end Kept

/-! ### The masks of a record -/

section Masks
variable {crates : Crates} {p : Pipeline} {rs : List Record} {g : Governed} {i : Nat} {r : Record}

def within (w : Text) (s : Redaction) : Bool := decide (w.range.start ≤ s.target.start ∧ s.target.stop ≤ w.range.stop)

variable {regex : RegexCrate} {engine : RedactEngine}

/-- Each span of a record lies in one of its strings. -/
theorem recordSpans_sorts (lawful : regex.Lawful) (formed : engine.WellFormed) (viewed : Viewed r.text r) :
    Interval.Sorts within (windows r.text) (RedactStage.recordSpans regex engine r) := by
  have inside : ∀ s ∈ RedactStage.recordSpans regex engine r, ∃ w ∈ windows r.text,
      w.range.start ≤ s.target.start ∧ s.target.start ≤ s.target.stop ∧ s.target.stop ≤ w.range.stop := by
    intro s pushed
    obtain ⟨key, w, string, pushed⟩ := mem_recordSpans.mp pushed
    obtain ⟨nonempty, low, ordered, high⟩ := redactField_range lawful formed pushed
    exact ⟨w, string.window viewed nonempty, low, ordered, high⟩
  refine ⟨fun s pushed => ?_, windows_separate.imp fun separate s pushed here there => ?_⟩
  · obtain ⟨w, string, low, -, high⟩ := inside s pushed
    exact ⟨w, string, decide_eq_true ⟨low, high⟩⟩
  · obtain ⟨-, -, -, ordered, -⟩ := inside s pushed
    have first := of_decide_eq_true here
    have second := of_decide_eq_true there
    unfold Separate at separate
    omega

theorem spansWithin_filter {env : Envelope} {w : Text} :
    spansWithin env i w.range = (env.decisions.redactionsFor i).filter (within w) := rfl

theorem windows_apart (spans : List Redaction) : (windows r.text).Pairwise fun w w' => ∀ s ∈ spans, ∀ s' ∈ spans,
    within w s → within w' s' → Interval.Apart spanStart spanStop s s' :=
  windows_separate.imp fun separate s _ s' _ here there => by
    have first := of_decide_eq_true here
    have second := of_decide_eq_true there
    unfold Separate at separate
    simp only [Interval.Apart, spanStart, spanStop]
    omega

/-- The masks of a kept record are at most its spans, and as many when no two of them overlap. -/
theorem kept_masks {env : Envelope} (ranged : env.decisions.Ranged)
    (sorts : Interval.Sorts within (windows r.text) (env.decisions.redactionsFor i)) :
    ((windows r.text).map fun w => (keptSpans env i w.range).length).sum ≤ (env.decisions.redactionsFor i).length ∧
      (((windows r.text).map fun w => (keptSpans env i w.range).length).sum = (env.decisions.redactionsFor i).length ↔
        (env.decisions.redactionsFor i).Pairwise (Interval.Apart spanStart spanStop)) := by
  have sums := (@Interval.sum_eq_iff _ (windows r.text) (fun w => (keptSpans env i w.range).length)
    (fun w => (spansWithin env i w.range).length)) fun w _ => keptSpans_length_le
  simp only [(@spansWithin_filter _ env), sorts.sum_length] at sums
  refine ⟨sums.1, sums.2.trans ?_⟩
  rw [sorts.pairwise_iff (windows_apart _)]
  refine forall₂_congr fun w _ => ?_
  exact keptSpans_length_eq (w := w.range) ranged

end Masks

/-! ### The masks of a request -/

section Requests
variable {crates : Crates} {p : Pipeline} {raw : Bytes} {rs : List Record} {g : Governed}

/-- No rule matches in the record when it is dropped, and no two matches overlap when it is kept. -/
def Record.Countable (crates : Crates) (p : Pipeline) (raw : Bytes) (r : Record) : Prop :=
  match p.sampleVerdict crates r.view raw with
  | .drop => RedactStage.recordSpans crates.regex p.redact r = []
  | .keep => (RedactStage.recordSpans crates.regex p.redact r).Pairwise (Interval.Apart spanStart spanStop)

/-- The assembly succeeds, and every span it is given becomes a mask. -/
def Accountable (crates : Crates) (p : Pipeline) (raw : Bytes) (runs : Bool) (rs : List Record) : Prop :=
  ((∀ r ∈ rs, p.sampleVerdict crates r.view raw = .keep ∧
        (runs = true → RedactStage.recordSpans crates.regex p.redact r = [])) ∨
      ∀ r ∈ rs, p.sampleVerdict crates r.view raw = .keep → r.Complete) ∧
    (runs = true → ∀ r ∈ rs, r.Countable crates p raw)

theorem spans_length {regex : RegexCrate} {engine : RedactEngine} (held : ∀ r ∈ rs, r.In raw) (start : Nat) :
    (RedactStage.spans regex engine raw start (rs.map Record.view)).length
      = (rs.map fun r => (RedactStage.recordSpans regex engine r).length).sum := by
  induction rs generalizing start with
  | nil => rfl
  | cons r rs ih =>
    simp only [List.mem_cons, forall_eq_or_imp] at held
    simp only [List.map_cons, RedactStage.spans, List.length_append, List.length_map, List.sum_cons, ih held.2,
      RedactStage.redactRecord_eq held.1]

theorem keptTotal_spans {env : Envelope} (ranged : env.decisions.Ranged) {i : Nat}
    (given : ∀ k r, rs[k]? = some r → env.decisions.samplingVerdict (i + k) = p.sampleVerdict crates r.view raw ∧
      env.decisions.redactionsFor (i + k) = RedactStage.recordSpans crates.regex p.redact r)
    (sorts : ∀ r ∈ rs, Interval.Sorts within (windows r.text) (RedactStage.recordSpans crates.regex p.redact r)) :
    keptTotal env i rs ≤ (rs.map fun r => (RedactStage.recordSpans crates.regex p.redact r).length).sum ∧
      (keptTotal env i rs = (rs.map fun r => (RedactStage.recordSpans crates.regex p.redact r).length).sum ↔
        ∀ r ∈ rs, r.Countable crates p raw) := by
  induction rs generalizing i with
  | nil => simp [keptTotal]
  | cons r rs ih =>
    simp only [List.mem_cons, forall_eq_or_imp] at sorts ⊢
    obtain ⟨verdict, spans⟩ := given 0 r rfl
    obtain ⟨below, same⟩ := ih (i := i + 1) (fun k r' found => by
      have := given (k + 1) r' (by simpa using found)
      rwa [show i + (k + 1) = i + 1 + k by omega] at this) sorts.2
    rw [Nat.add_zero] at verdict spans
    rw [keptTotal, List.map_cons, List.sum_cons, ← same, Record.Countable, ← verdict]
    cases kept : env.decisions.samplingVerdict i with
    | drop =>
      simp only [↓reduceIte, ← List.length_eq_zero_iff]
      omega
    | keep =>
      obtain ⟨fewer, all⟩ := kept_masks (i := i) ranged (r := r) (spans ▸ sorts.1)
      rw [spans] at fewer all
      simp only [reduceCtorEq, ↓reduceIte, ← all]
      omega

theorem assembles_iff (governs : Governs crates p raw rs g) (held : ∀ r ∈ rs, r.In raw)
    (parsed : records raw = some rs) (lawful : crates.regex.Lawful) (formed : p.WellFormed) {runs : Bool}
    (bypassed : g.stats.redactBypassed = !runs) : (assembleCells g.env p.masks).isSome ↔
      (∀ r ∈ rs, p.sampleVerdict crates r.view raw = .keep ∧
        (runs = true → RedactStage.recordSpans crates.regex p.redact r = [])) ∨
      ∀ r ∈ rs, p.sampleVerdict crates r.view raw = .keep → r.Complete := by
  have undropped : g.env.decisions.anyDropped = false ↔ ∀ r ∈ rs, p.sampleVerdict crates r.view raw = .keep := by
    rw [Decisions.anyDropped, governs.sampling, ← Bool.not_eq_true, List.contains_iff_mem, List.mem_map]
    refine ⟨fun none r member => ?_, fun all dropped => ?_⟩
    · cases verdict : p.sampleVerdict crates r.view raw with
      | keep => rfl
      | drop => exact absurd ⟨r, member, verdict⟩ none
    · obtain ⟨r, member, drop⟩ := dropped
      rw [all r member] at drop
      cases drop
  have clean : g.env.decisions.redactions = [] ↔
      (runs = true → ∀ r ∈ rs, RedactStage.recordSpans crates.regex p.redact r = []) := by
    rw [governs.redactions, bypassed]
    cases runs with
    | false => simp
    | true =>
      simp only [Bool.not_true, Bool.false_eq_true, ↓reduceIte, List.map_eq_nil_iff, true_implies]
      rw [← List.length_eq_zero_iff, spans_length held]
      simp [List.sum_eq_zero_iff_forall_eq_nat]
  have complete : (∀ i r, rs[i]? = some r → g.env.decisions.samplingVerdict i = .keep → r.Complete) ↔
      ∀ r ∈ rs, p.sampleVerdict crates r.view raw = .keep → r.Complete := by
    refine ⟨fun each r member keep => ?_, fun each i r found keep => ?_⟩
    · obtain ⟨i, found⟩ := List.getElem?_of_mem member
      exact each i r found (by rw [governs.verdict found]; exact keep)
    · exact each r (List.mem_of_getElem? found) (by rw [← governs.verdict found]; exact keep)
  have whole := (@assembleCells_isSome g.env) (governs.known held lawful formed) (governs.request.symm ▸ parsed)
    (by rw [governs.views, List.length_map])
  rw [whole, undropped, clean, complete]
  refine or_congr ⟨fun idle r member => ⟨idle.1 r member, fun ran => idle.2 ran r member⟩, fun all => ?_⟩ Iff.rfl
  exact ⟨fun r member => (all r member).1, fun ran r member => (all r member).2 ran⟩

/-- Every counted span becomes a mask exactly when the matches of every record can be counted. -/
theorem redactions_counted (governs : Governs crates p raw rs g) (held : ∀ r ∈ rs, r.In raw)
    (parsed : records raw = some rs) (lawful : crates.regex.Lawful) (formed : p.WellFormed) {runs : Bool}
    (bypassed : g.stats.redactBypassed = !runs) : keptTotal g.env 0 rs = g.stats.redactions ↔
      (runs = true → ∀ r ∈ rs, r.Countable crates p raw) := by
  rw [governs.counted, Decisions.redactionTotal]
  cases runs with
  | false =>
    have clean : g.env.decisions.redactions = [] := by rw [governs.redactions, bypassed]; rfl
    simp [keptTotal_clean clean, clean]
  | true =>
    have total : g.env.decisions.redactions.length
        = (rs.map fun r => (RedactStage.recordSpans crates.regex p.redact r).length).sum := by
      rw [governs.redactions, bypassed]
      simp only [Bool.not_true, Bool.false_eq_true, ↓reduceIte, List.length_map]
      exact spans_length held 0
    have ranged := governs.ranged held lawful formed
    rw [total]
    simp only [true_implies]
    refine (keptTotal_spans ranged (fun k r here => ?_) fun r member => ?_).2
    · rw [Nat.zero_add, governs.redactionsFor held, bypassed, here]
      exact ⟨governs.verdict here, rfl⟩
    · exact recordSpans_sorts lawful formed.engine (records_viewed parsed member)

/-- When the assembly fails there was something to drop or to mask, and the request went out with it. -/
theorem passthrough_undescribed (governs : Governs crates p raw rs g) (held : ∀ r ∈ rs, r.In raw)
    (parsed : records raw = some rs) (lawful : crates.regex.Lawful) (formed : p.WellFormed)
    (unwritten : assembleCells g.env p.masks = none) {stats : Stats} (kept : stats.kept = g.stats.kept)
    (counted : stats.redactions = g.stats.redactions) : ¬ Describes raw g p.masks ⟨.passthrough raw, stats⟩ := by
  have met := governs.assembled held lawful formed
  rw [unwritten] at met
  obtain ⟨e, failed⟩ := met
  rintro ⟨-, masked, -, sent, read, sentKept, -⟩
  have whole : (AssembledPayload.passthrough raw).contiguous = raw := by
    simp [AssembledPayload.passthrough, AssembledPayload.contiguous]
  have same : sent.length = rs.length := by
    rw [whole, parseExportLogsRequest_ok.mpr ⟨rs, parsed, rfl⟩] at read
    cases read
    exact List.length_map _
  have clean : g.env.decisions.redactions = [] := by
    simp only [insertions, failed, counted, governs.counted, Decisions.redactionTotal] at masked
    exact List.length_eq_zero_iff.mp masked.symm
  have undropped : g.env.decisions.anyDropped = false := by
    have none : g.env.decisions.sampling.count .drop = 0 := by
      rw [← governs.dropped]
      have := governs.recordsIn
      simp only [kept] at sentKept
      have all := count_verdicts g.env.decisions.sampling
      rw [← governs.kept, ← governs.dropped, governs.sampling, List.length_map] at all
      omega
    rw [Decisions.anyDropped, ← Bool.not_eq_true, List.contains_iff_mem]
    exact List.count_eq_zero.mp none
  rw [assembleCells, if_pos (nothing_iff.mpr ⟨undropped, clean⟩)] at unwritten
  cases unwritten

end Requests

/-- The numbers of a request describe what was sent exactly when every span became a mask. -/
theorem process_describes_iff {crates : Crates} (lawful : crates.regex.Lawful) {config : AgentConfig} {p : Pipeline}
    (built : Pipeline.fromConfig crates config = .ok p) {raw : Bytes} {views : List RecordView}
    (parsed : parseExportLogsRequest raw [] = .ok views) {breaker after : CircuitBreaker.Inner} {now : Nat}
    {fault : Option StageFault} {out : Processed} (processed : p.process crates breaker now fault raw = .ok (out, after))
    (fits : out.output.contiguous.length < 2 ^ 64) :
    ∃ rs g, records raw = some rs ∧ views = rs.map Record.view ∧ p.govern crates breaker now fault raw = .ok g ∧
      (Describes raw g p.masks out ↔ Accountable crates p raw (p.redactRuns breaker now fault) rs) := by
  obtain ⟨rs, found, rfl⟩ := parseExportLogsRequest_ok.mp parsed
  have held := records_in found
  have formed := Pipeline.fromConfig_wellFormed built
  obtain ⟨g, governed, governs, bypassed⟩ := (@govern_ok crates p) found breaker now fault
  refine ⟨rs, g, found, rfl, governed, ?_⟩
  have assembles := assembles_iff governs held found lawful formed bypassed
  have done := governs.process_ok held lawful formed governed
  have counted : g.stats.recordsIn = g.stats.kept + g.stats.dropped := by
    have := count_verdicts g.env.decisions.sampling
    rw [governs.sampling, List.length_map] at this
    rw [governs.recordsIn, governs.kept, governs.dropped, governs.sampling]
    exact this
  have viewed : g.env.records.length = rs.length := by rw [governs.views, List.length_map]
  rw [Accountable, ← assembles]
  cases written : assembleCells g.env p.masks with
  | none =>
    rw [written] at done
    rw [done.2] at processed
    cases processed
    simp only [Option.isSome_none, Bool.false_eq_true, false_and, iff_false]
    exact passthrough_undescribed governs held found lawful formed written rfl rfl
  | some cells =>
    rw [written] at done
    obtain ⟨payload, assembled, bytes, len, done⟩ := done
    rw [done] at processed
    cases processed
    simp only [Option.isSome_some, true_and]
    have ranged := governs.ranged held lawful formed
    obtain rfl := governs.request
    have masked : insertions g.env p.masks = keptTotal g.env 0 rs := by
      rw [insertions, assembled]
      exact (written_cells ranged written).2.trans (assembleCells_masks ranged found written)
    simp only at fits
    rw [bytes] at fits
    obtain ⟨rs', read, count, -⟩ := assembleCells_reread found written fits
    have kept : rs'.length = g.stats.kept := by
      rw [count, governs.kept, governs.sampling]
      exact survivors_length fun k r here => by rw [Nat.zero_add]; exact governs.verdict here
    have all := redactions_counted governs held found lawful formed bypassed
    rw [← all, ← masked]
    constructor
    · exact fun describes => describes.redactions
    · intro same
      refine ⟨counted, same, len, rs'.map Record.view, ?_, by rw [List.length_map]; exact kept, ?_⟩
      · exact parseExportLogsRequest_ok.mpr ⟨rs', by simp only [bytes]; exact read, rfl⟩
      · have dropped : g.stats.dropped = rs.length - rs'.length := by
          have := governs.recordsIn
          omega
        simp only [Stats.sample, governs.recordsIn, viewed, List.length_map, governs.bytesIn, same, dropped, ← kept, len]

theorem process_describes_iff_alphabet : ∃ rs g, records alphabet = some rs ∧
    [RecordView.mk ⟨10, 13⟩ none [] none none none] = rs.map Record.view ∧
    maskAbBc.govern .literal .closed 0 none alphabet = .ok g ∧
    (Describes alphabet g maskAbBc.masks alphabetOut ↔
      Accountable .literal maskAbBc alphabet (maskAbBc.redactRuns .closed 0 none) rs) :=
  @process_describes_iff .literal RegexCrate.literal_lawful (.masking [([97, 98], [42]), ([98, 99], [42])]) _ rfl _ _ rfl
    _ .closed _ _ _ (by decide +kernel) (by decide)

/-- Two matches are counted, and one mask is sent. -/
theorem process_describes_not : ¬ ∀ (crates : Crates), crates.regex.Lawful → ∀ config p,
    Pipeline.fromConfig crates config = .ok p → ∀ raw views, parseExportLogsRequest raw [] = .ok views →
    ∀ breaker now fault out after, p.process crates breaker now fault raw = .ok (out, after) →
    out.output.contiguous.length < 2 ^ 64 → ∀ g, p.govern crates breaker now fault raw = .ok g →
      Describes raw g p.masks out := by
  intro describes
  have described := describes .literal RegexCrate.literal_lawful (.masking [([97, 98], [42]), ([98, 99], [42])])
    maskAbBc rfl alphabet _ rfl .closed 0 none alphabetOut .closed (by decide +kernel) (by decide) _ rfl
  exact absurd described.redactions (by decide +kernel)

end ArchivAgent
