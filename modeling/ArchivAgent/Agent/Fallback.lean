import ArchivAgent.Agent.Replay
import ArchivAgent.Ingest.Plain

/-!
# The key of an untraced record

The key is the hash of two strings, the service and the body. A body that is not a string is no
part of it.
-/

namespace ArchivAgent
open Wire
open Otlp (AnyValue)

/-- The bytes the key of a record without a trace id is the hash of. -/
def RecordView.fallbackStream (v : RecordView) (raw : Bytes) : Bytes :=
  (v.serviceNameBytes raw).getD [] ++ [0] ++ (v.body.get raw).getD []

theorem sampleVerdict_untraced (crates : Crates) (p : Pipeline) {v : RecordView} {raw : Bytes}
    (untraced : v.traceIdBytes raw = none) : p.sampleVerdict crates v raw =
      if crates.xxh64 (v.fallbackStream raw) seed % 100 < p.policy.resolve (v.namespaceBytes raw) v.severityNumber
        then .keep else .drop := by
  unfold Pipeline.sampleVerdict
  rw [untraced]
  exact if_congr decide_eq_true_iff rfl rfl

def bodyOf (n : Nat) (bs : Bytes) : Option (Option AnyValue) := (message bs).bind (Otlp.singular 5 (Otlp.anyValue n))

/-- The last body message that has a string starts with this one. -/
def Leads (bs s : Bytes) : Prop := ∃ strings, bodyStrings bs = some strings ∧ strings.head? = some s

/-- The body is a string, and not the empty one. -/
def Worded (body : Option AnyValue) : Prop := ∃ s ≠ [], body = some (.string s)

section Streams
variable {raw : Bytes} {views : List RecordView} {v v' : RecordView} {n : Nat} {bs : Bytes} {body body' : Option AnyValue}

theorem fallbackStream_eq_iff (service : v.serviceNameBytes raw = v'.serviceNameBytes raw) :
    v.fallbackStream raw = v'.fallbackStream raw ↔ (v.content raw).body = (v'.content raw).body := by
  unfold RecordView.fallbackStream
  rw [service]
  exact List.append_right_inj _

theorem leads_iff (decoded : bodyOf n bs = some body) {s : Bytes} (some : s ≠ []) :
    Leads bs s ↔ ((bodies 5 2 bs).filterMap stringOf).getLast?.getD [] = s := by
  obtain ⟨fs, read, single⟩ := Option.bind_eq_some_iff.mp decoded
  obtain ⟨gss, found, -⟩ := singular_embedded single
  rw [bodies_strings read found, Leads, ← Option.bind_eq_some_iff]
  cases (bodyStrings bs).bind List.head? with
  | none => exact iff_of_false nofun some.symm
  | some t => exact Option.some.injEq t s ▸ Iff.rfl

/-- Different texts are told apart by a string that only one of them is. -/
theorem ne_iff_told {t t' : Bytes} : t ≠ t' ↔ ∃ s ≠ [], ¬ (t = s ↔ t' = s) := by
  constructor
  · intro differ
    by_cases empty : t = []
    · exact ⟨t', fun empty' => differ (empty.trans empty'.symm), fun same => differ (same.mpr rfl)⟩
    · exact ⟨t, empty, fun same => differ (same.mp rfl).symm⟩
  · rintro ⟨s, -, told⟩ rfl
    exact told Iff.rfl

theorem text_string {s : Bytes} (same : (Otlp.text body).getD [] = s) (some : s ≠ []) : body = Option.some (.string s) := by
  unfold Otlp.text at same
  split at same
  · exact congrArg _ (congrArg _ same)
  · exact absurd same.symm some

theorem worded_iff : Worded body ↔ (Otlp.text body).getD [] ≠ [] := by
  constructor
  · rintro ⟨s, some, rfl⟩
    exact some
  · intro some
    exact ⟨_, some, text_string rfl some⟩

theorem text_eq_iff (differ : body ≠ body') :
    (Otlp.text body).getD [] = (Otlp.text body').getD [] ↔ ¬ (Worded body ∨ Worded body') := by
  rw [worded_iff, worded_iff]
  constructor
  · rintro same (some | some)
    · exact differ ((text_string rfl some).trans (text_string same.symm some).symm)
    · exact differ ((text_string same some).trans (text_string rfl some).symm)
  · intro neither
    rw [not_or, not_ne_iff, not_ne_iff] at neither
    rw [neither.1, neither.2]

/-- Under one service, different bodies have different keys exactly when a string leads one of them
and not the other. In plain fields, one of them has to be a string. -/
theorem fallbackStream_separates_iff (parsed : parseExportLogsRequest raw [] = .ok views) {i j : Nat} (here : views[i]? = some v)
    (here' : views[j]? = some v') {e e' : Entry} (stands : (entries raw)[i]? = some e) (stands' : (entries raw)[j]? = some e')
    (service : v.serviceNameBytes raw = v'.serviceNameBytes raw) (decoded : bodyOf raw.length e.record = some body)
    (decoded' : bodyOf raw.length e'.record = some body') (differ : body ≠ body') :
    (v.fallbackStream raw ≠ v'.fallbackStream raw ↔ ∃ s ≠ [], ¬ (Leads e.record s ↔ Leads e'.record s)) ∧
      (PlainBody e.record body → PlainBody e'.record body' →
        (v.fallbackStream raw ≠ v'.fallbackStream raw ↔ Worded body ∨ Worded body')) := by
  have content : (v.content raw).body = ((bodies 5 2 e.record).filterMap stringOf).getLast?.getD [] := by
    rw [content_entry parsed here stands]
    rfl
  have content' : (v'.content raw).body = ((bodies 5 2 e'.record).filterMap stringOf).getLast?.getD [] := by
    rw [content_entry parsed here' stands']
    rfl
  rw [ne_eq, fallbackStream_eq_iff service, content, content']
  constructor
  · rw [← ne_eq, ne_iff_told]
    refine exists_congr fun s => and_congr_right fun some => not_congr ?_
    rw [leads_iff decoded some, leads_iff decoded' some]
  · intro plain plain'
    obtain ⟨fs, read, single⟩ := Option.bind_eq_some_iff.mp decoded
    obtain ⟨fs', read', single'⟩ := Option.bind_eq_some_iff.mp decoded'
    rw [plain.walked read single, plain'.walked read' single', text_eq_iff differ, not_not]

end Streams

/-- Two records of the service `s`, whose bodies are the numbers 1 and 2. -/
def numbered : Bytes :=
  [0x0A, 37, 0x0A, 21, 0x0A, 19, 0x0A, 12, 115, 101, 114, 118, 105, 99, 101, 46, 110, 97, 109, 101, 0x12, 3, 0x0A, 1, 115,
    0x12, 12, 0x12, 4, 0x2A, 2, 0x18, 1, 0x12, 4, 0x2A, 2, 0x18, 2]

def numberedView (p : Nat) : RecordView := ⟨⟨p, p⟩, none, [], none, none, some ⟨24, 25⟩⟩

def numberedEntry (n : UInt8) : Entry where
  resources := [[0x0A, 19, 0x0A, 12, 115, 101, 114, 118, 105, 99, 101, 46, 110, 97, 109, 101, 0x12, 3, 0x0A, 1, 115]]
  record := [0x2A, 2, 0x18, n]

theorem numbered_bodyOf {n : UInt8} (digit : n = 1 ∨ n = 2) :
    bodyOf numbered.length [0x2A, 2, 0x18, n] = some (some (.int n.toNat)) := by
  have outer : message [0x2A, 2, 0x18, n] = some [⟨42, [0x2A], [2], [0x18, n]⟩] := by
    rcases digit with rfl | rfl <;> decide +kernel
  have inner : embedded 5 [⟨42, [0x2A], [2], [0x18, n]⟩] = some [⟨24, [0x18], [], [n]⟩] := by
    rcases digit with rfl | rfl <;> decide +kernel
  have number : ((Otlp.number ⟨24, [0x18], [], [n]⟩ : Nat) : Int).bmod (2 ^ 64) = n.toNat := by
    rcases digit with rfl | rfl <;> decide +kernel
  have step : ∀ value, Otlp.valueStep value .unset ⟨24, [0x18], [], [n]⟩ = some (.int n.toNat) := by
    intro value
    unfold Otlp.valueStep
    simp only [Field.number, Field.wire, Nat.reduceDiv, Nat.reduceMod, number]
  unfold bodyOf
  rw [outer, Option.bind_some, Otlp.singular, if_neg (by simp [occurrences, Field.number, Field.wire]), inner, Option.bind_some]
  show ((Otlp.anyValue 39) _).map some = _
  rw [Otlp.anyValue, List.foldlM_cons, step]
  rfl

theorem numbers_differ : (some (AnyValue.int ((1 : UInt8).toNat : Int)) : Option AnyValue) ≠ some (.int ((2 : UInt8).toNat : Int)) := by
  intro same
  cases same

theorem fallbackStream_separates_iff_numbered :
    ((numberedView 29).fallbackStream numbered ≠ (numberedView 35).fallbackStream numbered ↔
        ∃ s ≠ [], ¬ (Leads (numberedEntry 1).record s ↔ Leads (numberedEntry 2).record s)) ∧
      ((numberedView 29).fallbackStream numbered ≠ (numberedView 35).fallbackStream numbered ↔
        Worded (some (.int 1)) ∨ Worded (some (.int 2))) := by
  have plain : ∀ n body, n = 1 ∨ n = 2 → PlainBody (numberedEntry n).record body := by
    intro n body digit strings found
    have none : bodyStrings (numberedEntry n).record = none := by rcases digit with rfl | rfl <;> decide +kernel
    rw [none] at found
    cases found
  obtain ⟨led, worded⟩ := @fallbackStream_separates_iff numbered [numberedView 29, numberedView 35] _ _ _ _ rfl 0 1 rfl rfl
    (numberedEntry 1) (numberedEntry 2) (by decide +kernel) (by decide +kernel) rfl (numbered_bodyOf (.inl rfl))
    (numbered_bodyOf (.inr rfl)) numbers_differ
  exact ⟨led, worded (plain 1 _ (.inl rfl)) (plain 2 _ (.inr rfl))⟩

/-- The numbers 1 and 2 have one key. -/
theorem fallbackStream_separates_not : ¬ ∀ raw views, parseExportLogsRequest raw [] = .ok views →
    ∀ (i j : Nat) v v' e e', views[i]? = some v → views[j]? = some v' → (entries raw)[i]? = some e → (entries raw)[j]? = some e' →
      v.traceIdBytes raw = none → v'.traceIdBytes raw = none → ∀ service, 0 ∉ service →
        v.serviceNameBytes raw = some service → v'.serviceNameBytes raw = some service →
          ∀ body body', bodyOf raw.length e.record = some body → bodyOf raw.length e'.record = some body' → body ≠ body' →
            v.fallbackStream raw ≠ v'.fallbackStream raw := by
  intro separates
  exact separates numbered [numberedView 29, numberedView 35] rfl 0 1 _ _ (numberedEntry 1) (numberedEntry 2) rfl rfl
    (by decide +kernel) (by decide +kernel) rfl rfl [115] (by decide) rfl rfl _ _ (numbered_bodyOf (.inl rfl))
    (numbered_bodyOf (.inr rfl)) numbers_differ rfl

end ArchivAgent
