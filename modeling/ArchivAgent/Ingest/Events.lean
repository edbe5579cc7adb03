import Mathlib.Data.List.Forall2
import ArchivAgent.Ingest.Contents
import ArchivAgent.Ingest.Reference

/-!
# Events and their encodings

A decoded request as a list of events, a record with its resource each, and the messages that
spell them.
-/

namespace ArchivAgent
open Wire

namespace Otlp

structure Event where
  resource : Option Resource
  record : LogRecord

def ResourceLogs.events (g : ResourceLogs) : List Event :=
  (g.scopeLogs.flatMap ScopeLogs.logRecords).map (Event.mk g.resource)

def events (request : List ResourceLogs) : List Event := request.flatMap ResourceLogs.events

def text : Option AnyValue → Option Bytes
  | some (.string s) => some s
  | _ => none

def named (name : Bytes) (attributes : List KeyValue) : Option Bytes :=
  (attributes.filterMap fun a => if a.1 = name then text a.2 else none).getLast?

def Event.named (name : Bytes) (x : Event) : Option Bytes := x.resource.bind fun r => Otlp.named name r.attributes

end Otlp

/-- A record message, with the resource messages of its group. -/
structure Entry where
  resources : List Bytes
  record : Bytes
  deriving DecidableEq, Repr

def groupEntries (bs : Bytes) : List Entry := ((bodies 2 2 bs).flatMap (bodies 2 2)).map (Entry.mk (bodies 1 2 bs))

def entries (raw : Bytes) : List Entry := (bodies 1 2 raw).flatMap groupEntries

/-! ### Entries and contents -/

def Entry.content (e : Entry) : Content := recordContent e.resources.getLast? e.record

theorem entries_contents (raw : Bytes) : (entries raw).map Entry.content = requestContents raw := by
  rw [entries, List.map_flatMap, requestContents]
  refine congrArg (List.flatMap · _) (funext fun g => ?_)
  rw [groupEntries, List.map_map, groupContents]
  rfl

theorem content_entry {raw : Bytes} {views : List RecordView} (parsed : parseExportLogsRequest raw [] = .ok views) {i : Nat}
    {v : RecordView} {e : Entry} (here : views[i]? = some v) (stands : (entries raw)[i]? = some e) : v.content raw = e.content := by
  have same := congrArg (·[i]?) ((parse_contents parsed).trans (entries_contents raw).symm)
  simp only [List.getElem?_map, here, stands, Option.map_some, Option.some.injEq] at same
  exact same

theorem entries_length {raw : Bytes} {views : List RecordView} (parsed : parseExportLogsRequest raw [] = .ok views) :
    (entries raw).length = views.length := by
  have same := congrArg List.length ((parse_contents parsed).trans (entries_contents raw).symm)
  rw [List.length_map, List.length_map] at same
  exact same.symm

/-! ### Fields of a message -/

section Fields
variable {bs : Bytes} {fs : List Field}

theorem bodies_of_message (read : message bs = some fs) (n w : Nat) :
    bodies n w bs = (fs.filter fun f => f.number = n ∧ f.wire = w).map Field.body := by
  obtain ⟨whole, small⟩ := message_fields read
  rw [bodies, scan_of_fields whole]
  refine congrArg (List.map _) (List.filter_congr fun f member => ?_)
  have := small f member
  rw [Nat.mod_eq_of_lt (show f.number < 2 ^ 32 by omega)]

theorem bodies_occurrences (read : message bs = some fs) (n : Nat) : bodies n 2 bs = occurrences n fs :=
  bodies_of_message read n 2

theorem stringOf_stringsOf (whole : (message bs).isSome) : stringOf bs = (stringsOf bs).head? := by
  obtain ⟨fs, read⟩ := Option.isSome_iff_exists.mp whole
  rw [stringOf, stringsOf, read, bodies_occurrences read]
  rfl

end Fields

theorem mapM_some_forall₂ {α β : Type} {f : α → Option β} {as : List α} {bs : List β} (h : as.mapM f = some bs) :
    List.Forall₂ (fun a b => f a = some b) as bs := by
  induction as generalizing bs with
  | nil =>
    cases h
    exact .nil
  | cons a as ih =>
    obtain ⟨b, bs', first, rest, rfl⟩ := mapM_some_cons h
    exact .cons first (ih rest)

/-! ### Decoded entries -/

/-- An entry reads as an event, its values at most so deep. -/
structure Entry.Decodes (n : Nat) (e : Entry) (x : Otlp.Event) : Prop where
  resource : ∃ fs, occurrences 1 fs = e.resources ∧ Otlp.singular 1 (Otlp.resource (Otlp.anyValue n)) fs = some x.resource
  record : (message e.record).bind (Otlp.logRecord (Otlp.anyValue n)) = some x.record

section Decoding
variable {n : Nat}

theorem scopeLogs_records {bs : Bytes} {s : Otlp.ScopeLogs} (decoded : (message bs).bind (Otlp.scopeLogs (Otlp.anyValue n)) = some s) :
    List.Forall₂ (fun r l => (message r).bind (Otlp.logRecord (Otlp.anyValue n)) = some l) (bodies 2 2 bs) s.logRecords := by
  obtain ⟨fs, read, decoded⟩ := Option.bind_eq_some_iff.mp decoded
  obtain ⟨scope, -, decoded⟩ := Option.bind_eq_some_iff.mp decoded
  obtain ⟨records, found, rfl⟩ := Option.map_eq_some_iff.mp decoded
  rw [bodies_occurrences read]
  exact mapM_some_forall₂ found

theorem groupEntries_events {bs : Bytes} {g : Otlp.ResourceLogs}
    (decoded : (message bs).bind (Otlp.resourceLogs (Otlp.anyValue n)) = some g) :
    List.Forall₂ (Entry.Decodes n) (groupEntries bs) g.events := by
  obtain ⟨fs, read, decoded⟩ := Option.bind_eq_some_iff.mp decoded
  obtain ⟨res, resource, decoded⟩ := Option.bind_eq_some_iff.mp decoded
  obtain ⟨scopes, found, rfl⟩ := Option.map_eq_some_iff.mp decoded
  have records := List.rel_flatMap (mapM_some_forall₂ found) fun _ _ one => scopeLogs_records one
  rw [groupEntries, bodies_occurrences read, bodies_occurrences read, Otlp.ResourceLogs.events, List.forall₂_map_left_iff,
    List.forall₂_map_right_iff]
  exact records.imp fun r l one => ⟨⟨fs, rfl, resource⟩, one⟩

/-- The entries of a request are its events, one for one. -/
theorem entries_events {raw : Bytes} {request : List Otlp.ResourceLogs} (decoded : Otlp.decodeRequest raw = some request) :
    List.Forall₂ (Entry.Decodes raw.length) (entries raw) (Otlp.events request) := by
  obtain ⟨fs, read, found⟩ := Option.bind_eq_some_iff.mp decoded
  rw [entries, bodies_occurrences read]
  exact List.rel_flatMap (mapM_some_forall₂ found) fun _ _ one => groupEntries_events one

end Decoding

section Values
variable {n : Nat} {v : Otlp.AnyValue}

/-- The last member of the oneof decides whether a value is a string. -/
theorem valueStep_member {value : List Field → Option Otlp.AnyValue} {before : Otlp.AnyValue} {f : Field}
    (one : Otlp.valueStep value before f = some v) (t : Bytes) : Otlp.text (some v) = some t ↔
      valueMember f = some (.string t) ∨ valueMember f = none ∧ Otlp.text (some before) = some t := by
  unfold Otlp.valueStep at one
  unfold valueMember
  split at one
  · rename_i number wire
    cases one
    simp [number, wire, Otlp.text]
  · rename_i number wire
    cases one
    simp [number, wire, Otlp.text]
  · rename_i number wire
    cases one
    simp [number, wire, Otlp.text]
  · rename_i number wire
    cases one
    simp [number, wire, Otlp.text]
  · rename_i number wire
    obtain ⟨values, -, rfl⟩ := Option.map_eq_some_iff.mp one
    cases before <;> simp [number, wire, Otlp.text]
  · rename_i number wire
    obtain ⟨values, -, rfl⟩ := Option.map_eq_some_iff.mp one
    cases before <;> simp [number, wire, Otlp.text]
  · rename_i number wire
    cases one
    simp [number, wire, Otlp.text]
  · rename_i string bool int double array kvlist bytes
    cases one
    have unknown : ¬ (f.number, f.wire) ∈ [(2, 0), (3, 0), (4, 1), (5, 2), (6, 2), (7, 2)] := by
      simp only [List.mem_cons, Prod.mk.injEq, List.not_mem_nil, or_false]
      rintro (⟨a, b⟩ | ⟨a, b⟩ | ⟨a, b⟩ | ⟨a, b⟩ | ⟨a, b⟩ | ⟨a, b⟩)
      exacts [bool a b, int a b, double a b, array a b, kvlist a b, bytes a b]
    rw [if_neg fun is => string is.1 is.2, if_neg unknown]
    simp

theorem anyValue_text {fs : List Field} (decoded : Otlp.anyValue n fs = some v) (t : Bytes) :
    Otlp.text (some v) = some t ↔ decodeAnyValue fs = some (.string t) := by
  cases n with
  | zero => cases decoded
  | succ n =>
    rw [Otlp.anyValue] at decoded
    induction fs using List.reverseRecOn generalizing v with
    | nil =>
      cases decoded
      exact iff_of_false nofun nofun
    | append_singleton fs f ih =>
      rw [List.foldlM_append] at decoded
      obtain ⟨mid, front, one⟩ := Option.bind_eq_some_iff.mp decoded
      have one : Otlp.valueStep (Otlp.anyValue n) mid f = some v := by simpa using one
      have single : oneof valueMember [f] = valueMember f := by
        rw [oneof, List.filterMap_cons]
        cases valueMember f <;> rfl
      rw [valueStep_member one t, ih front, decodeAnyValue, decodeAnyValue, oneof_append, single]
      cases valueMember f <;> simp

theorem singular_text {k : Nat} {fs gs : List Field} {body : Option Otlp.AnyValue} (read : embedded k fs = some gs)
    (decoded : Otlp.singular k (Otlp.anyValue n) fs = some body) (t : Bytes) :
    Otlp.text body = some t ↔ decodeAnyValue gs = some (.string t) := by
  unfold Otlp.singular at decoded
  split at decoded
  · rename_i none
    cases decoded
    rw [embedded, none] at read
    cases read
    exact iff_of_false nofun nofun
  · rw [read, Option.bind_some] at decoded
    obtain ⟨v, value, rfl⟩ := Option.map_eq_some_iff.mp decoded
    exact anyValue_text value t

theorem singular_embedded {β : Type} {decode : List Field → Option β} {k : Nat} {fs : List Field} {body : Option β}
    (decoded : Otlp.singular k decode fs = some body) : ∃ gss, (occurrences k fs).mapM message = some gss ∧
      embedded k fs = some gss.flatten := by
  unfold Otlp.singular at decoded
  split at decoded
  · rename_i none
    exact ⟨[], by rw [none]; rfl, by rw [embedded, none]; rfl⟩
  · obtain ⟨gs, whole, -⟩ := Option.bind_eq_some_iff.mp decoded
    obtain ⟨gss, found, rfl⟩ := Option.map_eq_some_iff.mp whole
    exact ⟨gss, found, whole⟩

end Values

end ArchivAgent
