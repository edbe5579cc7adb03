import ArchivAgent.Agent.Replay
import ArchivAgent.Ingest.Plain

/-!
# Encodings of one request

The verdict is a function of what the walker finds at a record. In plain encodings that is the
event, but for the severity: whether a 0 is written down, some policies can tell.
-/

namespace ArchivAgent
open Wire

/-- Two encodings of an event with the same verdict under every policy, but for the severity. Of a
record with a trace id the service and the body are not read. -/
structure Otlp.Event.Alike (x : Otlp.Event) (e e' : Entry) : Prop where
  namespaceName : SameNamed k8sNamespaceName e e'
  traceId : SameTraceId e.record e'.record
  serviceName : traceBytes x.record.traceId = none → SameNamed serviceNameKey e e'
  body : traceBytes x.record.traceId = none → SameBody e.record e'.record x.record.body

section Verdicts
variable {n n' : Nat} {x : Otlp.Event} {e e' : Entry}

theorem traceBytes_usable {id bytes : Bytes} (read : traceBytes id = some bytes) : Usable id := by
  unfold traceBytes at read
  split at read
  · rename_i sixteen
    exact .inl sixteen
  · split at read
    · rename_i hex
      exact .inr hex
    · cases read

theorem Otlp.Event.Alike.contentVerdict (alike : x.Alike e e') (severity : SpellsZero e.record x.record ↔ SpellsZero e'.record x.record)
    (decodes : e.Decodes n x) (decodes' : e'.Decodes n' x) (crates : Crates) (p : Pipeline) :
    p.contentVerdict crates e.content = p.contentVerdict crates e'.content := by
  have namespaceName : e.content.namespaceName = e'.content.namespaceName := alike.namespaceName.walked decodes decodes'
  have severityNumber := (severity_alike decodes decodes').mpr severity
  unfold Pipeline.contentVerdict
  rw [namespaceName, severityNumber]
  cases traced : traceBytes x.record.traceId with
  | some id =>
    have usable := traceBytes_usable traced
    rw [decodes.traceId (.inl usable), decodes'.traceId (.inl usable), if_pos usable, Option.bind_some, traced]
  | none =>
    have serviceName : e.content.serviceName = e'.content.serviceName := (alike.serviceName traced).walked decodes decodes'
    rw [alike.traceId.walked decodes decodes', serviceName, (alike.body traced).walked decodes decodes']

/-- Records up to TRACE are dropped, all others kept. -/
def AgentConfig.quiet : AgentConfig where
  sampling := ⟨100, [⟨⟨none, some [84, 82, 65, 67, 69]⟩, 0⟩]⟩

def quiet : Pipeline where
  redact := ⟨[], [], []⟩
  masks := []
  policy := ⟨[⟨none, some 4, 0⟩], 100⟩
  maxBodyBytes := 4 * 1024 * 1024
  redactBreaker := .withDefaults

theorem quiet_drops (crates : Crates) (c : Content) :
    quiet.contentVerdict crates c = .drop ↔ ∃ severity ∈ c.severityNumber, severity ≤ 4 := by
  have target : quiet.policy.resolve c.namespaceName c.severityNumber
      = if ∃ severity ∈ c.severityNumber, severity ≤ 4 then 0 else 100 := by
    unfold SamplingPolicy.resolve quiet
    simp only [List.find?_singleton, ruleMatches, Bool.true_and]
    cases c.severityNumber with
    | none => rfl
    | some severity => by_cases low : severity ≤ 4 <;> simp [low]
  have small : ∀ bytes, crates.xxh64 bytes seed % 100 < 100 := fun _ => Nat.mod_lt _ (by decide)
  unfold Pipeline.contentVerdict
  rw [target]
  by_cases low : ∃ severity ∈ c.severityNumber, severity ≤ 4
  · rw [if_pos low]
    refine iff_of_true ?_ low
    cases c.traceId.bind traceBytes <;> simp [keep, keepUntraced]
  · rw [if_neg low]
    refine iff_of_false ?_ low
    cases c.traceId.bind traceBytes <;> simp [keep, keepUntraced, fallbackKey, small]

/-- Two encodings of an event that get one verdict under that policy write its severity down alike. -/
theorem severity_tells (decodes : e.Decodes n x) (decodes' : e'.Decodes n' x)
    (same : quiet.contentVerdict .literal e.content = quiet.contentVerdict .literal e'.content) :
    SpellsZero e.record x.record ↔ SpellsZero e'.record x.record := by
  by_cases zero : x.record.severityNumber = 0
  · have dropped : ∀ {n} {e : Entry}, e.Decodes n x → (SpellsZero e.record x.record ↔ quiet.contentVerdict .literal e.content = .drop) := by
      intro n e decodes
      rw [quiet_drops, decodes.severityNumber, SpellsZero, zero]
      by_cases absent : bodies 2 0 e.record = [] <;> simp [absent]
    rw [dropped decodes, dropped decodes', same]
  · exact iff_of_false (fun spelled => zero spelled.1) fun spelled => zero spelled.1

end Verdicts

/-- Two encodings of one request have a record for each of its events. The two of an event get the
same verdict under every policy only if they write its severity down alike, and if they do and are
alike. -/
theorem verdicts_agree {raw raw' : Bytes} {views views' : List RecordView} (parsed : parseExportLogsRequest raw [] = .ok views)
    (parsed' : parseExportLogsRequest raw' [] = .ok views') {request : List Otlp.ResourceLogs}
    (decoded : Otlp.decodeRequest raw = some request) (decoded' : Otlp.decodeRequest raw' = some request) :
    views.length = views'.length ∧ ∀ (i : Nat) v v', views[i]? = some v → views'[i]? = some v' →
      ∃ x e e', (Otlp.events request)[i]? = some x ∧ (entries raw)[i]? = some e ∧ (entries raw')[i]? = some e' ∧
        ((∀ crates config p, Pipeline.fromConfig crates config = .ok p →
            p.sampleVerdict crates v raw = p.sampleVerdict crates v' raw') →
          (SpellsZero e.record x.record ↔ SpellsZero e'.record x.record)) ∧
        (x.Alike e e' → (SpellsZero e.record x.record ↔ SpellsZero e'.record x.record) → ∀ crates (p : Pipeline),
          p.sampleVerdict crates v raw = p.sampleVerdict crates v' raw') := by
  obtain ⟨length, each⟩ := List.forall₂_iff_get.mp (entries_events decoded)
  obtain ⟨length', each'⟩ := List.forall₂_iff_get.mp (entries_events decoded')
  have count := entries_length parsed
  have count' := entries_length parsed'
  refine ⟨by omega, fun i v v' here here' => ?_⟩
  obtain ⟨inside, -⟩ := List.getElem?_eq_some_iff.mp here
  have stands := List.getElem?_eq_getElem (l := entries raw) (by omega : i < _)
  have stands' := List.getElem?_eq_getElem (l := entries raw') (by omega : i < _)
  have decodes := each i (by omega) (by omega)
  have decodes' := each' i (by omega) (by omega)
  refine ⟨_, _, _, List.getElem?_eq_getElem (by omega), stands, stands', ?_⟩
  have verdict : ∀ crates (p : Pipeline), p.sampleVerdict crates v raw = p.contentVerdict crates (entries raw)[i].content := by
    intro crates p
    rw [sampleVerdict_content, content_entry parsed here stands]
  have verdict' : ∀ crates (p : Pipeline), p.sampleVerdict crates v' raw' = p.contentVerdict crates (entries raw')[i].content := by
    intro crates p
    rw [sampleVerdict_content, content_entry parsed' here' stands']
  constructor
  · intro same
    refine severity_tells decodes decodes' ?_
    rw [← verdict, ← verdict']
    exact same .literal .quiet quiet rfl
  · intro alike severity crates p
    rw [verdict, verdict']
    exact alike.contentVerdict severity decodes decodes' crates p

def explicitSeverity : Bytes := [0x0A, 6, 0x12, 4, 0x12, 2, 0x10, 0]

/-- One record with no field. -/
def implicitSeverity : Bytes := [0x0A, 4, 0x12, 2, 0x12, 0]

/-- Its trace id is written down, and empty. -/
def explicitTraceId : Bytes := [0x0A, 6, 0x12, 4, 0x12, 2, 0x4A, 0]

def Otlp.LogRecord.blank : Otlp.LogRecord where
  timeUnixNano := List.replicate 8 0
  severityNumber := 0
  severityText := []
  body := none
  attributes := []
  droppedAttributesCount := 0
  flags := List.replicate 4 0
  traceId := []
  spanId := []
  observedTimeUnixNano := List.replicate 8 0
  eventName := []

def blankRequest : List Otlp.ResourceLogs := [⟨none, [⟨none, [.blank], []⟩], []⟩]

theorem repeated_single {β : Type} {n : Nat} {decode : List Field → Option β} {f : Field} {gs : List Field} {d : β}
    (field : f.number = n ∧ f.wire = 2) (read : message f.body = some gs) (decoded : decode gs = some d) :
    Otlp.repeated n decode [f] = some [d] := by
  have one : occurrences n [f] = [f.body] := by simp [occurrences, field]
  unfold Otlp.repeated
  rw [one, List.mapM_cons, read, Option.bind_some, decoded]
  rfl

/-- A request of one group with one scope and one record, and nothing else. -/
theorem decodeRequest_single {raw : Bytes} {request group scope : Field} {fs : List Field} {l : Otlp.LogRecord}
    (first : message raw = some [request]) (second : message request.body = some [group])
    (third : message group.body = some [scope]) (last : message scope.body = some fs)
    (isRequest : request.number = 1 ∧ request.wire = 2) (isGroup : group.number = 2 ∧ group.wire = 2)
    (isScope : scope.number = 2 ∧ scope.wire = 2) (decoded : Otlp.logRecord (Otlp.anyValue raw.length) fs = some l) :
    Otlp.decodeRequest raw = some [⟨none, [⟨none, [l], []⟩], []⟩] := by
  have noField : ∀ (n : Nat) (f : Field), f.number = 2 ∧ f.wire = 2 → n ≠ 2 → occurrences n [f] = [] := by
    rintro n f ⟨number, -⟩ other
    simp [occurrences, number, other.symm]
  unfold Otlp.decodeRequest
  rw [first, Option.bind_some]
  apply repeated_single isRequest second
  unfold Otlp.resourceLogs
  rw [Otlp.singular, if_pos (noField 1 group isGroup (by decide)), Option.bind_some, stringField,
    noField 3 group isGroup (by decide)]
  refine Option.map_eq_some_iff.mpr ⟨_, repeated_single isGroup third ?_, rfl⟩
  unfold Otlp.scopeLogs
  rw [Otlp.singular, if_pos (noField 1 scope isScope (by decide)), Option.bind_some, stringField,
    noField 3 scope isScope (by decide), repeated_single isScope last decoded]
  rfl

theorem blank_decodes (value : List Field → Option Otlp.AnyValue) {f : Field}
    (default : f = ⟨16, [0x10], [], [0]⟩ ∨ f = ⟨74, [0x4A], [0], []⟩) : Otlp.logRecord value [f] = some .blank := by
  have none : occurrences 5 [f] = [] ∧ occurrences 6 [f] = [] := by rcases default with rfl | rfl <;> decide
  unfold Otlp.logRecord Otlp.repeated
  rw [Otlp.singular, if_pos none.1, none.2, Option.bind_some]
  show some _ = some _
  rw [Otlp.LogRecord.blank, Option.some.injEq, Otlp.LogRecord.mk.injEq]
  rcases default with rfl | rfl <;> refine ⟨?_, ?_, ?_, rfl, rfl, ?_, ?_, ?_, ?_, ?_, ?_⟩ <;> decide +kernel

theorem explicitSeverity_decodes : Otlp.decodeRequest explicitSeverity = some blankRequest :=
  @decodeRequest_single explicitSeverity ⟨10, [0x0A], [6], [0x12, 4, 0x12, 2, 0x10, 0]⟩ ⟨18, [0x12], [4], [0x12, 2, 0x10, 0]⟩
    ⟨18, [0x12], [2], [0x10, 0]⟩ [⟨16, [0x10], [], [0]⟩] .blank (by decide +kernel) (by decide +kernel) (by decide +kernel)
    (by decide +kernel) (by decide) (by decide) (by decide) (blank_decodes _ (.inl rfl))

theorem implicitSeverity_decodes : Otlp.decodeRequest implicitSeverity = some blankRequest :=
  @decodeRequest_single implicitSeverity ⟨10, [0x0A], [4], [0x12, 2, 0x12, 0]⟩ ⟨18, [0x12], [2], [0x12, 0]⟩
    ⟨18, [0x12], [0], []⟩ [] .blank (by decide +kernel) (by decide +kernel) (by decide +kernel)
    (by decide +kernel) (by decide) (by decide) (by decide) rfl

theorem explicitTraceId_decodes : Otlp.decodeRequest explicitTraceId = some blankRequest :=
  @decodeRequest_single explicitTraceId ⟨10, [0x0A], [6], [0x12, 4, 0x12, 2, 0x4A, 0]⟩ ⟨18, [0x12], [4], [0x12, 2, 0x4A, 0]⟩
    ⟨18, [0x12], [2], [0x4A, 0]⟩ [⟨74, [0x4A], [0], []⟩] .blank (by decide +kernel) (by decide +kernel) (by decide +kernel)
    (by decide +kernel) (by decide) (by decide) (by decide) (blank_decodes _ (.inr rfl))

def severityView (severityNumber : Option Int) : RecordView := ⟨⟨6, 6⟩, none, [], severityNumber, none, none⟩

/-- An empty trace id that is written down changes no verdict, a severity of 0 some. -/
theorem verdicts_agree_blank :
    (∀ crates (p : Pipeline), p.sampleVerdict crates (severityView none) implicitSeverity
      = p.sampleVerdict crates (severityView none) explicitTraceId) ∧
    ¬ ∀ crates config p, Pipeline.fromConfig crates config = .ok p →
      p.sampleVerdict crates (severityView (some 0)) explicitSeverity = p.sampleVerdict crates (severityView none) implicitSeverity := by
  constructor
  · obtain ⟨-, each⟩ := @verdicts_agree implicitSeverity explicitTraceId [severityView none] [severityView none]
      (by decide +kernel) (by decide +kernel) blankRequest implicitSeverity_decodes explicitTraceId_decodes
    obtain ⟨x, e, e', event, stands, stands', -, enough⟩ := each 0 (severityView none) (severityView none) rfl rfl
    obtain rfl := Option.some.inj event
    obtain rfl := Option.some.inj (stands.symm.trans (show _ = some ⟨[], []⟩ by decide +kernel))
    obtain rfl := Option.some.inj (stands'.symm.trans (show _ = some ⟨[], [0x4A, 0]⟩ by decide +kernel))
    have plain : ∀ bs, bs = [] ∨ bs = [0x4A, 0] → PlainTraceId bs := by
      rintro bs known ⟨id, member, usable⟩
      have empty : id = [] := by
        rcases known with rfl | rfl
        · cases member
        · exact List.mem_singleton.mp (show id ∈ [[]] from (show bodies 9 2 [0x4A, 0] = [[]] by decide +kernel) ▸ member)
      subst empty
      exact absurd usable (by decide)
    refine enough ⟨.inl rfl, .inr ⟨plain _ (.inl rfl), plain _ (.inr rfl)⟩, fun _ => .inl rfl, fun _ => .inl ?_⟩ ?_
    · decide +kernel
    · exact iff_of_false (fun spelled => spelled.2 (by decide +kernel)) fun spelled => spelled.2 (by decide +kernel)
  · intro same
    obtain ⟨-, each⟩ := @verdicts_agree explicitSeverity implicitSeverity [severityView (some 0)] [severityView none]
      (by decide +kernel) (by decide +kernel) blankRequest explicitSeverity_decodes implicitSeverity_decodes
    obtain ⟨x, e, e', event, stands, stands', necessary, -⟩ := each 0 (severityView (some 0)) (severityView none) rfl rfl
    obtain rfl := Option.some.inj event
    obtain rfl := Option.some.inj (stands.symm.trans (show _ = some ⟨[], [0x10, 0]⟩ by decide +kernel))
    obtain rfl := Option.some.inj (stands'.symm.trans (show _ = some ⟨[], []⟩ by decide +kernel))
    exact ((necessary same).mp ⟨rfl, by decide +kernel⟩).2 (by decide +kernel)

/-- The record whose severity is spelled out is dropped, the other one is kept. -/
theorem verdicts_agree_not : ¬ ∀ (crates : Crates) config p, Pipeline.fromConfig crates config = .ok p →
    ∀ raw raw' views views', parseExportLogsRequest raw [] = .ok views → parseExportLogsRequest raw' [] = .ok views' →
      ∀ request, Otlp.decodeRequest raw = some request → Otlp.decodeRequest raw' = some request →
        ∀ (i : Nat) v v', views[i]? = some v → views'[i]? = some v' →
          p.sampleVerdict crates v raw = p.sampleVerdict crates v' raw' := by
  intro agree
  have same := agree .literal .quiet quiet rfl explicitSeverity implicitSeverity [severityView (some 0)] [severityView none]
    (by decide +kernel) (by decide +kernel) blankRequest explicitSeverity_decodes implicitSeverity_decodes 0
    (severityView (some 0)) (severityView none) rfl rfl
  exact absurd same (by decide +kernel)

end ArchivAgent
