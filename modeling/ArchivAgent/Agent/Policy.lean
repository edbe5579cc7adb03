import ArchivAgent.Agent.Bypass
import ArchivAgent.Agent.Fingerprint
import ArchivAgent.Agent.Replay
import ArchivAgent.Redact.Declared

/-!
# The pipeline does what the policy says

The policy as a function on what a record says: the record goes, or it stays with every match in
its strings masked. What the destination reads in the output is what it reads in the request, each
record put through that function.
-/

namespace ArchivAgent
open Wire

namespace AgentConfig

def keeps (crates : Crates) (cfg : AgentConfig) (c : Content) : Bool :=
  match cfg.resolve c.namespaceName c.severityNumber with
  | none => true
  | some target => match c.traceId.bind traceBytes with
    | some id => keep crates.xxh64 id target
    | none => keepUntraced crates.xxh64 (c.serviceName.getD []) c.body target

def governs (crates : Crates) (cfg : AgentConfig) (c : Content) : Option Content :=
  if cfg.keeps crates c then some { c with
    body := cfg.redaction.redacted crates.regex none c.body
    attrs := c.attrs.map fun a => (a.1, cfg.redaction.redacted crates.regex (some a.1) a.2) }
  else none

end AgentConfig

/-- The configuration in force: when its redaction stage is bypassed, the one without redaction rules. -/
def Stats.inForce (s : Stats) (config : AgentConfig) : AgentConfig := if s.redactBypassed then config.unruled else config

/-! ### What is built from a configuration -/

section Built
variable {crates : Crates} {config : AgentConfig} {p : Pipeline}

theorem fromConfig_resolves (built : Pipeline.fromConfig crates config = .ok p) (ns : Option Bytes) (severity : Option Int) :
    config.resolve ns severity = some (p.policy.resolve ns severity) := by
  unfold Pipeline.fromConfig at built
  unfold AgentConfig.resolve
  cases compiled : config.sampling.rules.mapM Pipeline.compileRule with
  | error e =>
    rw [compiled] at built
    cases built
  | ok rules =>
    rw [compiled] at built
    simp only [bind, Except.bind] at built
    split at built
    · cases built
    · split at built
      · cases built
      · cases built
        rfl

theorem contentVerdict_keeps (built : Pipeline.fromConfig crates config = .ok p) (c : Content) :
    p.contentVerdict crates c = if config.keeps crates c then .keep else .drop := by
  unfold Pipeline.contentVerdict AgentConfig.keeps
  cases c.traceId.bind traceBytes with
  | none => simp only [fromConfig_resolves built]
  | some id => simp only [fromConfig_resolves built]

theorem fromConfig_compiled (built : Pipeline.fromConfig crates config = .ok p)
    (few : config.redaction.regexRules.length ≤ 2 ^ 32) :
    List.Forall₂ (RegexRuleConfig.Compiled p.redact.masks) config.redaction.regexRules p.redact.rules := by
  unfold Pipeline.fromConfig at built
  cases compiled : config.sampling.rules.mapM Pipeline.compileRule with
  | error e =>
    rw [compiled] at built
    cases built
  | ok rules =>
    rw [compiled] at built
    simp only [bind, Except.bind] at built
    split at built
    · cases built
    · rename_i specs made
      split at built
      · cases built
      · rename_i engine one
        cases built
        exact RedactEngine.compile_compiled one (intoRuleSpecs_ok made) few

end Built

/-! ### The spans of one string -/

def Record.strings (r : Record) : List (Option Bytes × Text) :=
  (none, r.body) :: r.attrs.map fun a => (some a.key.bytes, a.value)

theorem attrOf_under {u : Text} {a : Attr} (read : attrOf u = some a) : Under a.value u := by
  unfold attrOf at read
  cases key : (children 1 u).getLast? with
  | none =>
    rw [key] at read
    cases read
  | some k =>
    rw [key] at read
    cases value : (children 2 u).getLast? with
    | none =>
      rw [value] at read
      cases read
    | some v =>
      rw [value, Option.bind_some] at read
      cases string : (children 1 v).head? with
      | none =>
        rw [string] at read
        cases read
      | some w =>
        rw [string] at read
        cases read
        exact (children_under (List.mem_of_mem_head? string)).trans (children_under (List.mem_of_getLast? value))

/-- No two strings of a record touch, absent and empty ones included. -/
theorem strings_separate {r : Record} (read : r.Read) : r.strings.Pairwise fun s s' => Separate s.2 s'.2 := by
  have viewed : Viewed r.text r := record_viewed read
  refine List.pairwise_cons.mpr ⟨fun s member => ?_, ?_⟩
  · obtain ⟨a, attr, rfl⟩ := List.mem_map.mp member
    by_cases nonempty : r.body.bytes = []
    · rcases viewed.body with absent | ⟨u, child, body⟩
      · rw [absent]
        have under := windows_under _ (viewed.attr_window attr)
        exact .inl (by simpa only [Text.range, List.length_nil, Nat.add_zero] using under.1)
      · obtain ⟨kv, child', value⟩ := viewed.attrs a attr
        refine (children_apart (by decide) child child').under (children_under (anyValueText_window body)) ?_
        exact attrOf_under (keyValue_attrOf value).symm
    · exact viewed.body_attr nonempty attr
  · rw [List.pairwise_map, record_attrs read, List.pairwise_filterMap]
    refine children_separate.imp fun separate a first b second => ?_
    exact separate.under (attrOf_under first) (attrOf_under second)

/-- Of lists that are told apart by a test, the test picks out the one it is for. -/
theorem filter_flatMap_one {α β : Type} {test : β → Bool} {f : α → List β} {as : List α} {a : α} (member : a ∈ as)
    (own : ∀ b ∈ f a, test b = true) (apart : as.Pairwise fun x y => (x = a → ∀ b ∈ f y, test b = false) ∧
      (y = a → ∀ b ∈ f x, test b = false)) : (as.flatMap f).filter test = f a := by
  obtain ⟨front, back, rfl⟩ := List.append_of_mem member
  obtain ⟨-, rest, across⟩ := List.pairwise_append.mp apart
  have none : ∀ xs : List α, (∀ x ∈ xs, ∀ b ∈ f x, test b = false) → (xs.flatMap f).filter test = [] := by
    intro xs foreign
    rw [List.filter_eq_nil_iff]
    intro b produced
    obtain ⟨x, mine, produced⟩ := List.mem_flatMap.mp produced
    rw [foreign x mine b produced]
    exact Bool.false_ne_true
  rw [List.flatMap_append, List.filter_append, none front fun x mine => (across x mine a List.mem_cons_self).2 rfl,
    List.flatMap_cons, List.filter_append, none back fun x mine => ((List.pairwise_cons.mp rest).1 x mine).1 rfl,
    List.filter_eq_self.mpr own, List.nil_append, List.append_nil]

section Spans
variable {crates : Crates} {p : Pipeline} {raw : Bytes} {rs : List Record} {g : Governed} {i : Nat} {r : Record}
  {regex : RegexCrate} {engine : RedactEngine} {key : Option Bytes} {w : Text}

theorem recordSpans_strings (r : Record) : RedactStage.recordSpans regex engine r =
    r.strings.flatMap fun s => RedactStage.redactField regex engine s.2.bytes s.2.pos s.1 := by
  rw [RedactStage.recordSpans, Record.strings, List.flatMap_cons, List.flatMap_map]

theorem recordSpans_within (lawful : regex.Lawful) (formed : engine.WellFormed) (read : r.Read)
    (member : (key, w) ∈ r.strings) : (RedactStage.recordSpans regex engine r).filter (within w) =
      RedactStage.redactField regex engine w.bytes w.pos key := by
  have foreign : ∀ s : Option Bytes × Text, Separate w s.2 →
      ∀ b ∈ RedactStage.redactField regex engine s.2.bytes s.2.pos s.1, within w b = false := by
    intro s separate b pushed
    obtain ⟨-, low, ordered, high⟩ := redactField_range lawful formed pushed
    refine decide_eq_false fun inside => ?_
    unfold Separate at separate
    omega
  rw [recordSpans_strings]
  refine (@filter_flatMap_one _ _ (within w) (fun s => RedactStage.redactField regex engine s.2.bytes s.2.pos s.1)
    _ (key, w) member) (fun b pushed => ?_) ?_
  · obtain ⟨-, low, -, high⟩ := redactField_range lawful formed pushed
    exact decide_eq_true ⟨low, high⟩
  · refine (strings_separate read).imp fun {s s'} separate => ⟨?_, ?_⟩
    · rintro rfl
      exact foreign s' separate
    · rintro rfl
      exact foreign s (Or.symm separate)

/-- With its spans replaced by their masks, a string reads as the findings in it say. -/
theorem spliceBytes_substitute {masks : MaskTable} (stands : w.In raw) {spans : List Redaction} {fs : List (Range × Bytes)}
    (found : List.Forall₂ (FoundAt masks w.pos) spans fs) (inside : ∀ f ∈ fs, f.1.stop ≤ w.bytes.length)
    (ordered : ∀ f ∈ fs, f.1.start ≤ f.1.stop) (start : Nat) :
    spliceBytes raw masks (w.pos + start) w.range.stop spans = substitute w.bytes start fs := by
  have piece : ∀ a b, b ≤ w.bytes.length → slice raw (w.pos + a) (w.pos + b) = slice w.bytes a b := by
    intro a b low
    rw [Nat.add_comm w.pos a, Nat.add_comm w.pos b]
    exact At.slice_shift stands a low
  induction found generalizing start with
  | nil => exact piece start _ (Nat.le_refl _)
  | @cons s f spans fs here _ ih =>
    simp only [List.mem_cons, forall_eq_or_imp] at inside ordered
    have known : (masks.bytes s.mask).getD [] = f.2 := by rw [MaskTable.bytes, here.2, Option.getD_some]
    rw [spliceBytes, substitute, known, here.1, ih inside.2 ordered.2, piece _ _ (Nat.le_trans ordered.1 inside.1)]

theorem governText_redacted {env : Envelope} {masks : MaskTable} {redaction : RedactionConfig} (lawful : regex.Lawful)
    (stands : w.In env.raw)
    (found : List.Forall₂ (FoundAt masks w.pos) (spansWithin env i w.range) (redaction.findings regex key w.bytes)) :
    governText env masks i w.range = redaction.redacted regex key w.bytes := by
  have orders : ∀ s s' f f', FoundAt masks w.pos s f → FoundAt masks w.pos s' f' → (SpanLe s s' ↔ FindingLe f f') := by
    intro s s' f f' here there
    unfold SpanLe FindingLe
    rw [here.1, there.1]
    simp only
    omega
  have early : ∀ s f, FoundAt masks w.pos s f → (spanStart s < w.range.start ↔ f.1.start < 0) := by
    intro s f here
    rw [spanStart, here.1]
    simp only [Text.range]
    omega
  have meets : ∀ s s' f f', FoundAt masks w.pos s f → FoundAt masks w.pos s' f' →
      (spanStart s' < spanStop s ↔ f'.1.start < f.1.stop) := by
    intro s s' f f' here there
    rw [spanStart, spanStop, here.1, there.1]
    simp only
    omega
  have swept := Interval.firstWins_related (Interval.insertionSort_related orders found) early meets
  have kept : ∀ f ∈ Interval.firstWins (fun f : Range × Bytes => f.1.start) (fun f => f.1.stop) 0
      ((redaction.findings regex key w.bytes).insertionSort FindingLe), f.1.start ≤ f.1.stop ∧ f.1.stop ≤ w.bytes.length :=
    fun f member => findings_inside lawful
      ((List.perm_insertionSort FindingLe _).mem_iff.mp ((Interval.firstWins_sublist _ _).subset member))
  exact spliceBytes_substitute stands swept (fun f member => (kept f member).2) (fun f member => (kept f member).1) 0

end Spans

/-! ### The records of a request -/

section Requests
variable {crates : Crates} {config : AgentConfig} {p : Pipeline} {raw : Bytes} {rs : List Record} {g : Governed} {i : Nat}
  {r : Record}

theorem unruled_findings (regex : RegexCrate) (key : Option Bytes) (text : Bytes) :
    config.unruled.redaction.findings regex key text = [] := by
  unfold RedactionConfig.findings
  exact ite_self []

theorem Governs.string_redacted (h : Governs crates p raw rs g) (parsed : records raw = some rs) (lawful : crates.regex.Lawful)
    (ascending : crates.regex.Ascending) (built : Pipeline.fromConfig crates config = .ok p)
    (few : config.redaction.regexRules.length ≤ 2 ^ 32) (found : rs[i]? = some r) {key : Option Bytes} {w : Text}
    (member : (key, w) ∈ r.strings) :
    governText g.env p.masks i w.range = (g.stats.inForce config).redaction.redacted crates.regex key w.bytes := by
  have formed := Pipeline.fromConfig_wellFormed built
  have held := records_in parsed
  have mine := List.mem_of_getElem? found
  have stands : w.In g.env.raw := by
    rw [h.request]
    rcases List.mem_cons.mp member with same | attr
    · cases same
      exact (held r mine).body
    · obtain ⟨a, listed, same⟩ := List.mem_map.mp attr
      cases same
      exact ((held r mine).attrs a listed).value
  refine governText_redacted lawful stands ?_
  rw [spansWithin_filter, h.redactionsFor held, Stats.inForce]
  split
  · rw [unruled_findings]
    exact .nil
  · rw [found, Option.map_some, Option.getD_some, recordSpans_within lawful formed.engine (records_read parsed r mine) member,
      formed.masks]
    exact redactField_findings lawful ascending formed.engine (fromConfig_compiled built few) _ _ _

theorem Governs.record_governed (h : Governs crates p raw rs g) (parsed : records raw = some rs) (lawful : crates.regex.Lawful)
    (ascending : crates.regex.Ascending) (built : Pipeline.fromConfig crates config = .ok p)
    (few : config.redaction.regexRules.length ≤ 2 ^ 32) (found : rs[i]? = some r) :
    (g.stats.inForce config).governs crates r.content =
      if g.env.decisions.samplingVerdict i = .drop then none else some (r.governed g.env p.masks i) := by
  have held := records_in parsed
  have string := fun key w => (h.string_redacted parsed lawful ascending built few found : (key, w) ∈ r.strings → _)
  have body := string none r.body List.mem_cons_self
  have attrs : (r.content.attrs.map fun a => (a.1, (g.stats.inForce config).redaction.redacted crates.regex (some a.1) a.2)) =
      r.attrs.map fun a => (a.key.bytes, governText g.env p.masks i a.value.range) := by
    rw [Record.content, List.map_map]
    refine List.map_congr_left fun a member => ?_
    rw [string (some a.key.bytes) a.value (List.mem_cons_of_mem _ (List.mem_map_of_mem member))]
    rfl
  have keeps : (g.stats.inForce config).keeps crates r.content = config.keeps crates r.content := by
    unfold Stats.inForce
    split <;> rfl
  rw [h.verdict found, sampleVerdict_content, view_content (held r (List.mem_of_getElem? found)), contentVerdict_keeps built,
    AgentConfig.governs, keeps, attrs]
  cases config.keeps crates r.content with
  | false => rfl
  | true =>
    rw [if_pos rfl, if_pos rfl, if_neg (by decide), Record.governed, body]
    rfl

theorem survivors_filterMap {env : Envelope} {masks : MaskTable} {f : Content → Option Content} {start : Nat}
    (each : ∀ k r, rs[k]? = some r → f r.content =
      if env.decisions.samplingVerdict (start + k) = .drop then none else some (r.governed env masks (start + k))) :
    survivors env masks start rs = (rs.map Record.content).filterMap f := by
  induction rs generalizing start with
  | nil => rfl
  | cons r rs ih =>
    have here := each 0 r rfl
    rw [Nat.add_zero] at here
    rw [survivors, List.map_cons, List.filterMap_cons, here, ih fun k r' found => by
      rw [show start + 1 + k = start + (k + 1) by omega]
      exact each (k + 1) r' found]
    split <;> rfl

end Requests

/-- Unless the parser or the assembler is bypassed, the output says what the policy in force makes
of what the request says. -/
theorem process_applies_policy {crates : Crates} (lawful : crates.regex.Lawful) (ascending : crates.regex.Ascending)
    {config : AgentConfig} {p : Pipeline} (built : Pipeline.fromConfig crates config = .ok p)
    (few : config.redaction.regexRules.length ≤ 2 ^ 32) {raw : Bytes} {breaker after : CircuitBreaker.Inner} {now : Nat}
    {fault : Option StageFault} {out : Processed} (processed : p.process crates breaker now fault raw = .ok (out, after))
    (parsed : out.stats.parseBypassed = false) (assembled : out.stats.assembleBypassed = false)
    (fits : out.output.contiguous.length < 2 ^ 64) :
    ∃ views, parseExportLogsRequest out.output.contiguous [] = .ok views ∧
      requestContents out.output.contiguous = (requestContents raw).filterMap ((out.stats.inForce config).governs crates) := by
  obtain ⟨rs, found⟩ := process_parsed processed parsed
  have held := records_in found
  have formed := Pipeline.fromConfig_wellFormed built
  obtain ⟨g, governed, governs, -⟩ := (@govern_ok crates p) found breaker now fault
  obtain ⟨cells, payload, written, -, bytes, -, rfl⟩ :=
    governs.process_assembled held lawful formed governed processed assembled
  obtain rfl := governs.request
  simp only at fits
  rw [bytes] at fits ⊢
  obtain ⟨rs', read, -, same⟩ := assembleCells_reread found written fits
  refine ⟨rs'.map Record.view, parseExportLogsRequest_ok.mpr ⟨rs', read, rfl⟩, ?_⟩
  rw [← records_contents read, same (placed_clear found (governs.placed found lawful formed)), ← records_contents found]
  refine survivors_filterMap fun k r here => ?_
  rw [Nat.zero_add]
  exact governs.record_governed found lawful ascending built few here

theorem RegexCrate.literal_ascending : RegexCrate.literal.Ascending := fun _ _ => List.pairwise_lt_range.filter _

theorem process_applies_policy_alphabet : ∃ views, parseExportLogsRequest alphabetOut.output.contiguous [] = .ok views ∧
    requestContents alphabetOut.output.contiguous = (requestContents alphabet).filterMap
      ((alphabetOut.stats.inForce (.masking [([97, 98], [42]), ([98, 99], [42])])).governs .literal) :=
  @process_applies_policy .literal RegexCrate.literal_lawful RegexCrate.literal_ascending
    (.masking [([97, 98], [42]), ([98, 99], [42])]) _ rfl (by decide) alphabet .closed .closed 0 none alphabetOut (by decide +kernel) rfl rfl
    (by decide)

end ArchivAgent
