import ArchivAgent.Agent.Governing
import ArchivAgent.Export.Emission

/-!
# What leaks

Of a kept record no matched byte goes out exactly when the matches of each string can be tiled:
every matched byte lies in one of a set of matches that do not overlap, each the shortest that
starts where it starts. A match that overlaps an earlier one is left out as a whole, and so the
rest of it goes out.
-/

namespace ArchivAgent
open Wire

def RecordView.strings (raw : Bytes) (v : RecordView) : List (Option Bytes × Range) :=
  (none, v.body) :: v.attrs.map fun a => (some ((a.key.get raw).getD []), a.value)

/-- What the rules that select a string match in it, as ranges of the buffer. -/
def matchesIn (regex : RegexCrate) (engine : RedactEngine) (raw : Bytes) (s : Option Bytes × Range) : List Range :=
  (engine.rules.filter (·.applies s.1)).flatMap fun rule =>
    (regex.findIter rule.regex (slice raw s.2.start s.2.stop)).map fun m => ⟨s.2.start + m.start, s.2.start + m.stop⟩

section Hidden
variable (regex : RegexCrate) (engine : RedactEngine) (env : Envelope)

/-- No byte of a match in a string of a kept record is written. -/
def Hides (masks : MaskTable) : Prop :=
  ∀ i v, env.records[i]? = some v → env.decisions.samplingVerdict i = .keep → ∀ s ∈ v.strings env.raw,
    ∀ m ∈ matchesIn regex engine env.raw s, ∀ x, m.start ≤ x → x < m.stop → ¬ Emits env masks x

def Tileable : Prop :=
  ∀ i v, env.records[i]? = some v → env.decisions.samplingVerdict i = .keep → ∀ s ∈ v.strings env.raw,
    Interval.Tiled Range.start Range.stop (matchesIn regex engine env.raw s)

end Hidden

/-! ### The spans of a string are its matches -/

/-- A string of a record, with the key that selects its rules. -/
inductive StringOf (r : Record) : Option Bytes → Text → Prop where
  | body : StringOf r none r.body
  | attr {a : Attr} : a ∈ r.attrs → StringOf r (some a.key.bytes) a.value

section Strings
variable {raw : Bytes} {r : Record} {key : Option Bytes} {w : Text} {regex : RegexCrate} {engine : RedactEngine}

theorem StringOf.in (h : StringOf r key w) (held : r.In raw) : w.In raw := by
  cases h with
  | body => exact held.body
  | attr member => exact (held.attrs _ member).value

theorem StringOf.window (h : StringOf r key w) (viewed : Viewed r.text r) (nonempty : w.bytes ≠ []) :
    w ∈ windows r.text := by
  cases h with
  | body => exact viewed.body_window nonempty
  | attr member => exact viewed.attr_window member

theorem mem_strings (held : r.In raw) {s : Option Bytes × Range} :
    s ∈ r.view.strings raw ↔ ∃ w, StringOf r s.1 w ∧ s.2 = w.range := by
  have attrs : (r.view.attrs.map fun a => (some ((a.key.get raw).getD []), a.value))
      = r.attrs.map fun a => (some a.key.bytes, a.value.range) := by
    simp only [Record.view, List.map_map, Function.comp_def, Attr.view]
    exact List.map_congr_left fun a member => by rw [(held.attrs a member).key.get]; rfl
  simp only [RecordView.strings, attrs, List.mem_cons, List.mem_map]
  constructor
  · rintro (rfl | ⟨a, member, rfl⟩)
    · exact ⟨r.body, .body, rfl⟩
    · exact ⟨a.value, .attr member, rfl⟩
  · rintro ⟨w, string, same⟩
    obtain ⟨key, range⟩ := s
    simp only at string same
    subst same
    cases string with
    | body => exact .inl rfl
    | attr member => exact .inr ⟨_, member, rfl⟩

theorem mem_recordSpans {s : Redaction} : s ∈ RedactStage.recordSpans regex engine r ↔
    ∃ key w, StringOf r key w ∧ s ∈ RedactStage.redactField regex engine w.bytes w.pos key := by
  simp only [RedactStage.recordSpans, List.mem_append, List.mem_flatMap]
  constructor
  · rintro (body | ⟨a, member, value⟩)
    · exact ⟨none, r.body, .body, body⟩
    · exact ⟨_, a.value, .attr member, value⟩
  · rintro ⟨key, w, string, pushed⟩
    cases string with
    | body => exact .inl pushed
    | attr member => exact .inr ⟨_, member, pushed⟩

/-- Two strings that are not empty are one, with one key, or they do not touch. -/
theorem StringOf.same_or_separate {key' : Option Bytes} {w' : Text} (h : StringOf r key w) (h' : StringOf r key' w')
    (viewed : Viewed r.text r) (nonempty : w.bytes ≠ []) (nonempty' : w'.bytes ≠ []) :
    (key = key' ∧ w = w') ∨ Separate w w' := by
  cases h with
  | body =>
    cases h' with
    | body => exact .inl ⟨rfl, rfl⟩
    | attr member => exact .inr (viewed.body_attr nonempty member)
  | attr member =>
    cases h' with
    | body => exact .inr (viewed.body_attr nonempty' member).symm
    | attr member' =>
      rcases viewed.attr_attr member member' with rfl | separate
      · exact .inl ⟨rfl, rfl⟩
      · exact .inr separate

variable (lawful : regex.Lawful) (formed : engine.WellFormed)
include lawful formed

theorem redactField_range {s : Redaction} (h : s ∈ RedactStage.redactField regex engine w.bytes w.pos key) :
    w.bytes ≠ [] ∧ w.range.start ≤ s.target.start ∧ s.target.start ≤ s.target.stop ∧ s.target.stop ≤ w.range.stop := by
  obtain ⟨nonempty, low, ordered, high, -⟩ := RedactStage.redactField_inside lawful formed h
  exact ⟨nonempty, low, ordered, high⟩

theorem span_of_string (viewed : Viewed r.text r) (string : StringOf r key w) (nonempty : w.bytes ≠ []) {s : Redaction} :
    (s ∈ RedactStage.recordSpans regex engine r ∧ w.range.start ≤ s.target.start ∧ s.target.stop ≤ w.range.stop) ↔
      s ∈ RedactStage.redactField regex engine w.bytes w.pos key := by
  constructor
  · rintro ⟨pushed, low, high⟩
    obtain ⟨key', w', string', pushed⟩ := mem_recordSpans.mp pushed
    obtain ⟨nonempty', low', ordered, high'⟩ := redactField_range lawful formed pushed
    rcases string.same_or_separate string' viewed nonempty nonempty' with ⟨rfl, rfl⟩ | separate
    · exact pushed
    · unfold Separate at separate
      omega
  · intro pushed
    obtain ⟨-, low, -, high⟩ := redactField_range lawful formed pushed
    exact ⟨mem_recordSpans.mpr ⟨key, w, string, pushed⟩, low, high⟩

theorem mem_matchesIn (held : w.In raw) (nonempty : w.bytes ≠ []) {m : Range} :
    m ∈ matchesIn regex engine raw (key, w.range) ↔
      ∃ s ∈ RedactStage.redactField regex engine w.bytes w.pos key, s.target = m := by
  have text : slice raw w.range.start w.range.stop = w.bytes := At.slice held
  simp only [matchesIn, text, List.mem_flatMap, List.mem_filter, List.mem_map]
  constructor
  · rintro ⟨rule, ⟨member, selects⟩, found, reported, rfl⟩
    exact ⟨spanOf w.pos rule.mask found, (RedactStage.mem_redactField lawful formed).mpr
      ⟨nonempty, rule, member, selects, found, reported, rfl⟩, rfl⟩
  · rintro ⟨s, pushed, rfl⟩
    obtain ⟨-, rule, member, selects, found, reported, rfl⟩ := (RedactStage.mem_redactField lawful formed).mp pushed
    exact ⟨rule, ⟨member, selects⟩, found, reported, rfl⟩

end Strings

/-! ### One string -/

section String
variable {crates : Crates} {p : Pipeline} {rs : List Record} {g : Governed} {i : Nat} {r : Record}
  {key : Option Bytes} {w : Text}

/-- Where no match of a string is written, its matches can be tiled, and the other way round. -/
theorem hides_iff_tiled (governs : Governs crates p g.env.raw rs g) (parsed : records g.env.raw = some rs)
    (lawful : crates.regex.Lawful) (formed : p.WellFormed) (ran : g.stats.redactBypassed = false)
    {cells : List Cell} (written : assembleCells g.env p.masks = some cells) (found : rs[i]? = some r)
    (keep : g.env.decisions.samplingVerdict i = .keep) (string : StringOf r key w) :
    (∀ m ∈ matchesIn crates.regex p.redact g.env.raw (key, w.range), ∀ x, m.start ≤ x → x < m.stop →
        ¬ Emits g.env p.masks x) ↔
      Interval.Tiled Range.start Range.stop (matchesIn crates.regex p.redact g.env.raw (key, w.range)) := by
  have held := records_in parsed
  have stands := string.in (held r (List.mem_of_getElem? found))
  have viewed := records_viewed parsed (List.mem_of_getElem? found)
  have ranged := governs.ranged held lawful formed
  by_cases empty : w.bytes = []
  · have none : ∀ m ∈ matchesIn crates.regex p.redact g.env.raw (key, w.range), m.stop ≤ m.start := by
      intro m member
      obtain ⟨rule, -, ranges⟩ := List.mem_flatMap.mp member
      obtain ⟨n, reported, rfl⟩ := List.mem_map.mp ranges
      have text : slice g.env.raw w.range.start w.range.stop = w.bytes := At.slice stands
      obtain ⟨-, inside⟩ := lawful.in_bounds _ _ n reported
      simp only [text, empty, List.length_nil] at inside
      simp only
      omega
    constructor
    · exact fun _ => Interval.tiled_of_uncovered fun x ⟨m, member, low, high⟩ => by have := none m member; omega
    · intro _ m member x low high
      have := none m member
      omega
  have spans : ∀ s, s ∈ spansWithin g.env i w.range ↔
      s ∈ RedactStage.redactField crates.regex p.redact w.bytes w.pos key := by
    intro s
    rw [mem_spansWithin, governs.redactionsFor held, ran, if_neg (by decide), found]
    exact span_of_string lawful formed.engine viewed string empty
  have same : ∀ m, m ∈ matchesIn crates.regex p.redact g.env.raw (key, w.range) ↔
      m ∈ (spansWithin g.env i w.range).map (·.target) := by
    intro m
    rw [mem_matchesIn lawful formed.engine stands empty, List.mem_map]
    simp only [spans]
  have tiles := (@keptSpans_cover_iff g.env i w.range) ranged
  rw [Interval.tiled_congr same, Interval.tiled_map]
  refine Iff.trans ?_ tiles
  have emits : ∀ x, w.range.start ≤ x → x < w.range.stop →
      (¬ Emits g.env p.masks x ↔ Interval.Covers spanStart spanStop (keptSpans g.env i w.range) x) := by
    intro x first last
    rw [(written_cells ranged written).1 x, assembleCells_string ranged parsed written found (by rw [keep]; decide)
      (string.window viewed empty) stands x first last, not_not]
  constructor
  · rintro hidden x ⟨s, member, (low : s.target.start ≤ x), (high : x < s.target.stop)⟩
    obtain ⟨-, first, -, last⟩ := redactField_range lawful formed.engine ((spans s).mp member)
    exact (emits x (by omega) (by omega)).mp
      (hidden s.target ((same _).mpr (List.mem_map_of_mem member)) x low high)
  · intro covered m member x low high
    obtain ⟨s, within, rfl⟩ := List.mem_map.mp ((same m).mp member)
    obtain ⟨-, first, -, last⟩ := redactField_range lawful formed.engine ((spans s).mp within)
    exact (emits x (by omega) (by omega)).mpr (covered x ⟨s, within, low, high⟩)

end String

/-- With no stage bypassed, what is redacted stays hidden exactly when the matches can be tiled. -/
theorem process_hides_iff {crates : Crates} (lawful : crates.regex.Lawful) {config : AgentConfig} {p : Pipeline}
    (built : Pipeline.fromConfig crates config = .ok p) {raw : Bytes} {breaker after : CircuitBreaker.Inner} {now : Nat}
    {fault : Option StageFault} {out : Processed} (processed : p.process crates breaker now fault raw = .ok (out, after))
    (parsed : out.stats.parseBypassed = false) (redacted : out.stats.redactBypassed = false)
    (assembled : out.stats.assembleBypassed = false) :
    ∃ g, p.govern crates breaker now fault raw = .ok g ∧ assemble g.env p.masks = .ok out.output ∧
      (Hides crates.regex p.redact g.env p.masks ↔ Tileable crates.regex p.redact g.env) := by
  obtain ⟨rs, found⟩ := process_parsed processed parsed
  have held := records_in found
  have formed := Pipeline.fromConfig_wellFormed built
  obtain ⟨g, governed, governs, -⟩ := (@govern_ok crates p) found breaker now fault
  obtain ⟨cells, payload, written, same, -, -, rfl⟩ := governs.process_assembled held lawful formed governed processed assembled
  refine ⟨g, governed, same, ?_⟩
  obtain rfl := governs.request
  have each : ∀ {i : Nat} {v : RecordView}, g.env.records[i]? = some v → ∃ r, rs[i]? = some r ∧ v = r.view := by
    intro i v view
    rw [governs.views, List.getElem?_map] at view
    obtain ⟨r, found, rfl⟩ := Option.map_eq_some_iff.mp view
    exact ⟨r, found, rfl⟩
  constructor
  · intro hides i v view keep s member
    obtain ⟨r, here, rfl⟩ := each view
    obtain ⟨w, string, range⟩ := (mem_strings (held r (List.mem_of_getElem? here))).mp member
    obtain ⟨key, _⟩ := s
    subst range
    exact (hides_iff_tiled governs found lawful formed redacted written here keep string).mp
      (hides i _ view keep _ member)
  · intro tileable i v view keep s member
    obtain ⟨r, here, rfl⟩ := each view
    obtain ⟨w, string, range⟩ := (mem_strings (held r (List.mem_of_getElem? here))).mp member
    obtain ⟨key, _⟩ := s
    subst range
    exact (hides_iff_tiled governs found lawful formed redacted written here keep string).mpr
      (tileable i _ view keep _ member)

def alphabet : Bytes := [0x0A, 11, 0x12, 9, 0x12, 7, 0x2A, 5, 0x0A, 3, 97, 98, 99]

def maskAbBc : Pipeline where
  redact := ⟨[[97, 98], [98, 99]], [⟨[97, 98], [97, 98], 0, [.body]⟩, ⟨[98, 99], [98, 99], 0, [.body]⟩], [[42]]⟩
  masks := [[42]]
  policy := ⟨[], 100⟩
  maxBodyBytes := 4 * 1024 * 1024
  redactBreaker := .withDefaults

def alphabetOut : Processed where
  output := ⟨[[0x0A, 10, 0x12, 8, 0x12, 6, 0x2A, 4, 0x0A, 2], [42], [99]], 12⟩
  stats := { recordsIn := 1, kept := 1, redactions := 2, bytesIn := 13, bytesOut := 12 }

theorem process_hides_iff_alphabet : ∃ g, maskAbBc.govern .literal .closed 0 none alphabet = .ok g ∧
    assemble g.env maskAbBc.masks = .ok alphabetOut.output ∧
    (Hides .literal maskAbBc.redact g.env maskAbBc.masks ↔ Tileable .literal maskAbBc.redact g.env) :=
  @process_hides_iff .literal RegexCrate.literal_lawful (.masking [([97, 98], [42]), ([98, 99], [42])]) _ rfl _ _
    .closed _ _ alphabetOut (by decide +kernel) rfl rfl rfl

/-- The match of `bc` overlaps that of `ab`, and its `c` goes out. -/
theorem process_hides_not : ¬ ∀ (crates : Crates), crates.regex.Lawful → ∀ config p,
    Pipeline.fromConfig crates config = .ok p → ∀ raw breaker now fault out after,
    p.process crates breaker now fault raw = .ok (out, after) → out.stats.parseBypassed = false →
    out.stats.redactBypassed = false → out.stats.assembleBypassed = false →
    ∀ g, p.govern crates breaker now fault raw = .ok g → Hides crates.regex p.redact g.env p.masks := by
  intro hides
  have hidden := hides .literal RegexCrate.literal_lawful (.masking [([97, 98], [42]), ([98, 99], [42])]) maskAbBc rfl
    alphabet .closed 0 none alphabetOut .closed (by decide +kernel) rfl rfl rfl _ rfl
  have matched : (⟨11, 13⟩ : Range) ∈ matchesIn .literal maskAbBc.redact alphabet (none, ⟨10, 13⟩) := by decide +kernel
  apply hidden 0 _ rfl rfl (none, ⟨10, 13⟩) (List.mem_cons_self) _ matched 12 (by decide) (by decide)
  exact ⟨⟨12, 13⟩, by decide +kernel, by decide⟩

end ArchivAgent
