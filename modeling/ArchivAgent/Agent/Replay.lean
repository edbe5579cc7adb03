import ArchivAgent.Agent.Accounting
import ArchivAgent.Export.Kept

/-!
# Replaying the policy

The verdict on a record is a function of what the record says. Governance leaves all of it as it
was but the strings, and of these the verdict reads the body, when the record has no trace id.
-/

namespace ArchivAgent
open Wire

/-- The id as the hash reads it, from either of its two spellings. -/
def traceBytes (src : Bytes) : Option Bytes :=
  if src.length = 16 then some src else if src.length = 32 then decodeHex16 src else none

def Pipeline.contentVerdict (crates : Crates) (p : Pipeline) (c : Content) : SampleVerdict :=
  let target := p.policy.resolve c.namespaceName c.severityNumber
  let keepIt := match c.traceId.bind traceBytes with
    | some id => keep crates.xxh64 id target
    | none => keepUntraced crates.xxh64 (c.serviceName.getD []) c.body target
  if keepIt then .keep else .drop

theorem traceIdBytes_content (v : RecordView) (raw : Bytes) :
    v.traceIdBytes raw = (v.content raw).traceId.bind traceBytes := by
  unfold RecordView.traceIdBytes RecordView.content traceBytes
  cases v.traceId with
  | none => rfl
  | some range => rfl

theorem sampleVerdict_content (crates : Crates) (p : Pipeline) (v : RecordView) (raw : Bytes) :
    p.sampleVerdict crates v raw = p.contentVerdict crates (v.content raw) := by
  unfold Pipeline.sampleVerdict Pipeline.contentVerdict
  rw [traceIdBytes_content]
  rfl

/-! ### One record -/

/-- A request of which only one record has spans. -/
def soleEnvelope (raw : Bytes) (spans : List Redaction) : Envelope where
  raw := raw
  decisions := { redactions := spans.map fun s => ⟨stageRedactRegex, 0, s⟩ }

def maskedBody (crates : Crates) (p : Pipeline) (raw : Bytes) (v : RecordView) : Bytes :=
  governText (soleEnvelope raw (RedactStage.redactRecord crates.regex p.redact raw v)) p.masks 0 v.body

/-- Without a trace id, the masked body falls in a bucket the policy keeps. -/
def Replayable (crates : Crates) (p : Pipeline) (raw : Bytes) (v : RecordView) : Prop :=
  v.traceIdBytes raw = none → keepUntraced crates.xxh64 ((v.serviceNameBytes raw).getD []) (maskedBody crates p raw v)
    (p.policy.resolve (v.namespaceBytes raw) v.severityNumber) = true

instance (crates : Crates) (p : Pipeline) (raw : Bytes) (v : RecordView) : Decidable (Replayable crates p raw v) :=
  inferInstanceAs (Decidable (_ → _))

section Record
variable {crates : Crates} {p : Pipeline} {raw : Bytes} {rs : List Record} {g : Governed} {r : Record} {i : Nat}

theorem redactionsFor_sole (raw : Bytes) (spans : List Redaction) :
    (soleEnvelope raw spans).decisions.redactionsFor 0 = spans := by
  simp [soleEnvelope, Decisions.redactionsFor, List.filter_map, Function.comp_def]

theorem governText_congr {env env' : Envelope} {masks : MaskTable} {i j : Nat} (same : env.raw = env'.raw)
    (spans : env.decisions.redactionsFor i = env'.decisions.redactionsFor j) (w : Range) :
    governText env masks i w = governText env' masks j w := by
  unfold governText keptSpans spansWithin
  rw [same, spans]

theorem Governs.body_masked (h : Governs crates p raw rs g) (held : ∀ r ∈ rs, r.In raw)
    (ran : g.stats.redactBypassed = false) (found : rs[i]? = some r) :
    governText g.env p.masks i r.body.range = maskedBody crates p raw r.view := by
  apply governText_congr
  · exact h.request
  · rw [redactionsFor_sole, RedactStage.redactRecord_eq (held r (List.mem_of_getElem? found)),
      h.redactionsFor held, ran, found]
    rfl

/-- Of a kept record the verdict reads the body again, and only without a trace id. -/
theorem Governs.verdict_again (h : Governs crates p raw rs g) (held : ∀ r ∈ rs, r.In raw)
    (ran : g.stats.redactBypassed = false) (found : rs[i]? = some r)
    (kept : p.sampleVerdict crates r.view raw = .keep) :
    p.contentVerdict crates (r.governed g.env p.masks i) = .keep ↔ Replayable crates p raw r.view := by
  have said := view_content (held r (List.mem_of_getElem? found))
  have ns : r.view.namespaceBytes raw = r.content.namespaceName := by rw [← said]; rfl
  have service : r.view.serviceNameBytes raw = r.content.serviceName := by rw [← said]; rfl
  have body : (r.governed g.env p.masks i).body = maskedBody crates p raw r.view := h.body_masked held ran found
  rw [sampleVerdict_content, said] at kept
  unfold Replayable
  rw [traceIdBytes_content, said, ns, service, show r.view.severityNumber = r.content.severityNumber from rfl, ← body]
  unfold Pipeline.contentVerdict at kept ⊢
  cases traced : r.content.traceId.bind traceBytes with
  | some id =>
    rw [traced] at kept
    simp only [Record.governed, traced]
    simpa using kept
  | none =>
    simp only [Record.governed, traced, true_implies]
    split
    · rename_i keepIt
      simpa using keepIt
    · rename_i keepIt
      simpa using keepIt

/-! ### The kept records of a request -/

theorem mem_survivors {env : Envelope} {masks : MaskTable} {c : Content} {start : Nat} :
    c ∈ survivors env masks start rs ↔ ∃ k r, rs[k]? = some r ∧ env.decisions.samplingVerdict (start + k) ≠ .drop ∧
      c = r.governed env masks (start + k) := by
  induction rs generalizing start with
  | nil => simp [survivors]
  | cons r rs ih =>
    have later : c ∈ survivors env masks (start + 1) rs ↔ ∃ k r', (r :: rs)[k + 1]? = some r' ∧
        env.decisions.samplingVerdict (start + (k + 1)) ≠ .drop ∧ c = r'.governed env masks (start + (k + 1)) := by
      rw [ih]
      refine exists_congr fun k => ?_
      rw [show start + (k + 1) = start + 1 + k by omega, List.getElem?_cons_succ]
    rw [survivors]
    constructor
    · intro member
      split at member
      · obtain ⟨k, rest⟩ := later.mp member
        exact ⟨k + 1, rest⟩
      · rename_i kept
        rcases List.mem_cons.mp member with rfl | member
        · exact ⟨0, r, rfl, kept, rfl⟩
        · obtain ⟨k, rest⟩ := later.mp member
          exact ⟨k + 1, rest⟩
    · rintro ⟨k, r', found, kept, rfl⟩
      cases k with
      | zero =>
        cases found
        rw [Nat.add_zero] at kept ⊢
        rw [if_neg kept]
        exact List.mem_cons_self
      | succ k =>
        have member := later.mpr ⟨k, r', found, kept, rfl⟩
        split
        · exact member
        · exact List.mem_cons_of_mem _ member

theorem Governs.placed (h : Governs crates p raw rs g) (parsed : records raw = some rs) (lawful : crates.regex.Lawful)
    (formed : p.WellFormed) : g.env.decisions.Placed (rs.map Record.view) := by
  have held := records_in parsed
  intro s pushed
  have mine := mem_redactionsFor.mpr ⟨s, pushed, rfl, rfl⟩
  rw [h.redactionsFor held] at mine
  split at mine
  · cases mine
  · cases found : rs[s.record]? with
    | none => rw [found] at mine; cases mine
    | some r =>
      rw [found] at mine
      obtain ⟨key, w, string, field⟩ := mem_recordSpans.mp mine
      obtain ⟨nonempty, low, ordered, high⟩ := redactField_range lawful formed.engine field
      refine ⟨r.view, by rw [List.getElem?_map, found]; rfl, w.range, ?_, ?_, low, ordered, high⟩
      · cases string with
        | body => exact List.mem_cons_self
        | attr member =>
          exact List.mem_cons_of_mem _ (List.mem_map_of_mem (List.mem_map_of_mem member))
      · have := List.length_pos_iff.mpr nonempty
        simp only [Text.range]
        omega

theorem Governs.verdicts (h : Governs crates p raw rs g) (held : ∀ r ∈ rs, r.In raw) :
    g.env.decisions.sampling = rs.map fun r => p.contentVerdict crates r.content := by
  rw [h.sampling]
  refine List.map_congr_left fun r member => ?_
  rw [sampleVerdict_content, view_content (held r member)]

/-- Whatever becomes of the payload, the records are counted by their verdicts. -/
theorem process_counts (parsed : records raw = some rs) (lawful : crates.regex.Lawful) (formed : p.WellFormed)
    {breaker after : CircuitBreaker.Inner} {now : Nat} {fault : Option StageFault} {out : Processed}
    (processed : p.process crates breaker now fault raw = .ok (out, after)) :
    out.stats.kept = (rs.map fun r => p.contentVerdict crates r.content).count .keep ∧
      out.stats.dropped = (rs.map fun r => p.contentVerdict crates r.content).count .drop := by
  have held := records_in parsed
  obtain ⟨g, governed, governs, -⟩ := (@govern_ok crates p) parsed breaker now fault
  rw [← governs.verdicts held, ← governs.kept, ← governs.dropped]
  have done := governs.process_ok held lawful formed governed
  split at done
  · obtain ⟨payload, -, -, -, done⟩ := done
    rw [done] at processed
    cases processed
    exact ⟨rfl, rfl⟩
  · rw [done.2] at processed
    cases processed
    exact ⟨rfl, rfl⟩

end Record

/-- What was governed is kept as a whole when it is governed again exactly when the masked body of
every kept record without a trace id is. -/
theorem process_replays_iff {crates : Crates} (lawful : crates.regex.Lawful) {config : AgentConfig} {p : Pipeline}
    (built : Pipeline.fromConfig crates config = .ok p) {raw : Bytes} {breaker after : CircuitBreaker.Inner} {now : Nat}
    {fault : Option StageFault} {out : Processed} (processed : p.process crates breaker now fault raw = .ok (out, after))
    (parsed : out.stats.parseBypassed = false) (redacted : out.stats.redactBypassed = false)
    (assembled : out.stats.assembleBypassed = false) (fits : out.output.contiguous.length < 2 ^ 64)
    {breaker' after' : CircuitBreaker.Inner} {now' : Nat} {fault' : Option StageFault} {out' : Processed}
    (again : p.process crates breaker' now' fault' out.output.contiguous = .ok (out', after')) :
    ∃ views, parseExportLogsRequest raw [] = .ok views ∧
      ((out'.stats.dropped = 0 ∧ out'.stats.kept = out.stats.kept) ↔
        ∀ v ∈ views, p.sampleVerdict crates v raw = .keep → Replayable crates p raw v) := by
  obtain ⟨rs, found⟩ := process_parsed processed parsed
  have held := records_in found
  have formed := Pipeline.fromConfig_wellFormed built
  obtain ⟨g, governed, governs, -⟩ := (@govern_ok crates p) found breaker now fault
  refine ⟨rs.map Record.view, parseExportLogsRequest_ok.mpr ⟨rs, found, rfl⟩, ?_⟩
  obtain ⟨cells, payload, written, -, bytes, -, rfl⟩ := governs.process_assembled held lawful formed governed processed assembled
  obtain rfl := governs.request
  simp only at redacted fits again
  rw [bytes] at fits again
  obtain ⟨rs', read, -, same⟩ := assembleCells_reread found written fits
  have survived := same (placed_clear found (governs.placed found lawful formed))
  obtain ⟨kept, dropped⟩ := process_counts read lawful formed again
  have said : (rs'.map fun r => p.contentVerdict crates r.content)
      = (survivors g.env p.masks 0 rs).map (p.contentVerdict crates) := by
    rw [← survived, List.map_map]
    rfl
  have first : g.stats.kept = (survivors g.env p.masks 0 rs).length := by
    rw [governs.kept, governs.sampling]
    refine (survivors_length fun k r here => ?_).symm
    rw [Nat.zero_add]
    exact governs.verdict here
  have total := count_verdicts ((survivors g.env p.masks 0 rs).map (p.contentVerdict crates))
  rw [List.length_map] at total
  rw [kept, dropped, said, first]
  have all : ((survivors g.env p.masks 0 rs).map (p.contentVerdict crates)).count .drop = 0 ↔
      ∀ c ∈ survivors g.env p.masks 0 rs, p.contentVerdict crates c = .keep := by
    rw [List.count_eq_zero, List.mem_map]
    refine ⟨fun none c member => ?_, fun each ⟨c, member, drop⟩ => ?_⟩
    · cases verdict : p.contentVerdict crates c with
      | keep => rfl
      | drop => exact absurd ⟨c, member, verdict⟩ none
    · rw [each c member] at drop
      cases drop
  have counted : (((survivors g.env p.masks 0 rs).map (p.contentVerdict crates)).count .drop = 0 ∧
      ((survivors g.env p.masks 0 rs).map (p.contentVerdict crates)).count .keep
        = (survivors g.env p.masks 0 rs).length) ↔
      ((survivors g.env p.masks 0 rs).map (p.contentVerdict crates)).count .drop = 0 := by omega
  rw [counted, all]
  constructor
  · intro each v member keep
    obtain ⟨r, here, rfl⟩ := List.mem_map.mp member
    obtain ⟨i, here⟩ := List.getElem?_of_mem here
    apply (governs.verdict_again held redacted here keep).mp
    refine each _ (mem_survivors.mpr ⟨i, r, here, ?_, by rw [Nat.zero_add]⟩)
    rw [Nat.zero_add, governs.verdict here, keep]
    decide
  · intro each c member
    obtain ⟨i, r, here, kept, rfl⟩ := mem_survivors.mp member
    rw [Nat.zero_add] at kept ⊢
    have keep : p.sampleVerdict crates r.view g.env.raw = .keep := by
      rw [governs.verdict here] at kept
      cases verdict : p.sampleVerdict crates r.view g.env.raw with
      | keep => rfl
      | drop => exact absurd verdict kept
    apply (governs.verdict_again held redacted here keep).mpr
    exact each _ (List.mem_map_of_mem (List.mem_of_getElem? here)) keep

/-- The values XXH64 gives the fallback keys of the bodies `abc` and `#c`: buckets 49 and 53. -/
def Crates.keyed : Crates where
  regex := .literal
  xxh64 key _ := if key = [0, 97, 98, 99] then 15170758521716597349
    else if key = [0, 35, 99] then 14787614219731382753 else 0

def AgentConfig.halving : AgentConfig where
  sampling := ⟨50, []⟩
  redaction := ⟨[⟨[97, 98], [97, 98], [35], [bodySelector]⟩]⟩

def halve : Pipeline where
  redact := ⟨[[97, 98]], [⟨[97, 98], [97, 98], 0, [.body]⟩], [[35]]⟩
  masks := [[35]]
  policy := ⟨[], 50⟩
  maxBodyBytes := 4 * 1024 * 1024
  redactBreaker := .withDefaults

def halvedOut : Processed where
  output := ⟨[[0x0A, 10, 0x12, 8, 0x12, 6, 0x2A, 4, 0x0A, 2], [35], [99]], 12⟩
  stats := { recordsIn := 1, kept := 1, redactions := 1, bytesIn := 13, bytesOut := 12 }

/-- What `halve` makes of that: the record falls in another bucket. -/
def halvedAgain : Processed where
  output := ⟨[[0x0A, 2, 0x12, 0]], 4⟩
  stats := { recordsIn := 1, dropped := 1, bytesIn := 12, bytesOut := 4 }

theorem process_replays_iff_halved : ∃ views, parseExportLogsRequest alphabet [] = .ok views ∧
    ((halvedAgain.stats.dropped = 0 ∧ halvedAgain.stats.kept = halvedOut.stats.kept) ↔
      ∀ v ∈ views, halve.sampleVerdict .keyed v alphabet = .keep → Replayable .keyed halve alphabet v) :=
  @process_replays_iff .keyed RegexCrate.literal_lawful .halving halve rfl alphabet .closed .closed 0 none halvedOut
    (by decide +kernel) rfl rfl rfl (by decide) .closed .closed 0 none halvedAgain (by decide +kernel)

/-- The untraced record is kept under its body, and dropped under what the rule makes of it. -/
theorem process_replays_not : ¬ ∀ (crates : Crates), crates.regex.Lawful → ∀ config p,
    Pipeline.fromConfig crates config = .ok p → ∀ raw breaker now fault out after,
    p.process crates breaker now fault raw = .ok (out, after) → out.stats.parseBypassed = false →
    out.stats.redactBypassed = false → out.stats.assembleBypassed = false → ∀ out' after',
    p.process crates after now fault out.output.contiguous = .ok (out', after') →
      out'.stats.dropped = 0 ∧ out'.stats.kept = out.stats.kept := by
  intro replays
  have replayed := replays .keyed RegexCrate.literal_lawful .halving halve rfl alphabet .closed 0 none halvedOut .closed
    (by decide +kernel) rfl rfl rfl halvedAgain .closed (by decide +kernel)
  exact absurd replayed.1 (by decide)

end ArchivAgent
