import ArchivAgent.Ingest.Events

/-!
# Plain encodings

proto3 lets an encoder split a message, repeat a field, or write a default out. An entry is plain
where what stands in the places the walker looks at is what all of it comes to: the walker then
reads the event.
-/

namespace ArchivAgent
open Wire

/-- The attribute starts its last value with the string that it has under the name, if it has one. -/
def PlainAttribute (name bs : Bytes) : Prop :=
  ∀ text, Spells bs name text ↔ decodeKeyValue bs = some (name, some (.string text))

def SpelledIn (name resource : Bytes) : Prop := ∃ kv ∈ bodies 1 2 resource, ∃ text, Spells kv name text

/-- The last resource message of the group has the name, if any of them has it. -/
structure Entry.Gathered (e : Entry) (name : Bytes) : Prop where
  attributes : ∀ resource ∈ e.resources, ∀ kv ∈ bodies 1 2 resource, PlainAttribute name kv
  last : (∃ resource ∈ e.resources, SpelledIn name resource) → ∃ resource ∈ e.resources.getLast?, SpelledIn name resource

/-- A trace id has 16 bytes, or 32 in hex. -/
def Usable (id : Bytes) : Prop := id.length = 16 ∨ id.length = 32

instance (id : Bytes) : Decidable (Usable id) := inferInstanceAs (Decidable (_ ∨ _))

def bodyStrings (bs : Bytes) : Option (List Bytes) := ((bodies 5 2 bs).map stringsOf).reverse.find? (· ≠ [])

/-- The last body message with a string starts with it, and the body is that string. -/
def PlainBody (bs : Bytes) (body : Option Otlp.AnyValue) : Prop :=
  ∀ strings, bodyStrings bs = some strings → strings.head? = some ((Otlp.text body).getD [])

/-- No trace id that could be used stands before one that cannot. -/
def PlainTraceId (bs : Bytes) : Prop := (∃ id ∈ bodies 9 2 bs, Usable id) → ∃ id ∈ (bodies 9 2 bs).getLast?, Usable id

/-- The severity is written down though it is 0. -/
def SpellsZero (bs : Bytes) (l : Otlp.LogRecord) : Prop := l.severityNumber = 0 ∧ bodies 2 0 bs ≠ []

/-- The last resource has the same attributes, or both have the name gathered there. -/
def SameNamed (name : Bytes) (e e' : Entry) : Prop :=
  e.resources.getLast?.map (bodies 1 2) = e'.resources.getLast?.map (bodies 1 2) ∨ e.Gathered name ∧ e'.Gathered name

def SameTraceId (bs bs' : Bytes) : Prop := bodies 9 2 bs = bodies 9 2 bs' ∨ PlainTraceId bs ∧ PlainTraceId bs'

def SameBody (bs bs' : Bytes) (body : Option Otlp.AnyValue) : Prop :=
  bodies 5 2 bs = bodies 5 2 bs' ∨ PlainBody bs body ∧ PlainBody bs' body

/-! ### The record -/

section Record
variable {n : Nat} {bs : Bytes} {fs : List Field}

/-- The first string of the last body message that has one is what the walker takes. -/
theorem bodies_strings {gss : List (List Field)} (read : message bs = some fs) (found : (occurrences 5 fs).mapM message = some gss) :
    ((bodies 5 2 bs).filterMap stringOf).getLast? = (bodyStrings bs).bind List.head? := by
  rw [bodyStrings, ← first_of_last, List.filterMap_map]
  refine congrArg List.getLast? (List.filterMap_congr fun b member => stringOf_stringsOf ?_)
  rw [bodies_occurrences read] at member
  obtain ⟨gs, -, whole⟩ := mapM_some_mem found b member
  rw [whole]
  rfl

theorem text_bodyStrings {body : Option Otlp.AnyValue} (read : message bs = some fs)
    (decoded : Otlp.singular 5 (Otlp.anyValue n) fs = some body) {t : Bytes} (string : Otlp.text body = some t) :
    ∃ strings, bodyStrings bs = some strings := by
  obtain ⟨gss, found, whole⟩ := singular_embedded decoded
  obtain ⟨strings, last, -⟩ := merged_string ((singular_text whole decoded t).mp string)
  have each : (bodies 5 2 bs).map stringsOf = gss.map (occurrences 1) := by
    rw [bodies_occurrences read]
    have related := mapM_some_forall₂ found
    refine List.forall₂_eq_eq_eq ▸ List.forall₂_map_left_iff.mpr (List.forall₂_map_right_iff.mpr (related.imp fun b gs one => ?_))
    rw [stringsOf, one]
    rfl
  exact ⟨strings, by rw [bodyStrings, each, last]⟩

theorem PlainBody.walked {body : Option Otlp.AnyValue} (plain : PlainBody bs body) (read : message bs = some fs)
    (decoded : Otlp.singular 5 (Otlp.anyValue n) fs = some body) :
    ((bodies 5 2 bs).filterMap stringOf).getLast?.getD [] = (Otlp.text body).getD [] := by
  obtain ⟨gss, found, -⟩ := singular_embedded decoded
  rw [bodies_strings read found]
  cases strings : bodyStrings bs with
  | some strings' => rw [Option.bind_some, plain strings' strings]; rfl
  | none =>
    cases string : Otlp.text body with
    | none => rfl
    | some t =>
      obtain ⟨_, some⟩ := text_bodyStrings read decoded string
      rw [strings] at some
      cases some

theorem logRecord_severity {value : List Field → Option Otlp.AnyValue} {l : Otlp.LogRecord}
    (decoded : Otlp.logRecord value fs = some l) : l.severityNumber = asI32 (Otlp.numberField 2 fs) := by
  obtain ⟨body, -, decoded⟩ := Option.bind_eq_some_iff.mp decoded
  obtain ⟨attributes, -, rfl⟩ := Option.map_eq_some_iff.mp decoded
  simp only

theorem severity_absent {value : List Field → Option Otlp.AnyValue} {l : Otlp.LogRecord} (read : message bs = some fs)
    (decoded : Otlp.logRecord value fs = some l) (absent : bodies 2 0 bs = []) : l.severityNumber = 0 := by
  rw [bodies_of_message read, List.map_eq_nil_iff] at absent
  rw [logRecord_severity decoded, Otlp.numberField, absent]
  rfl

/-- The walker finds a severity when one is written down, and then the event's. -/
theorem severity_walked (resource : Option Bytes) {value : List Field → Option Otlp.AnyValue} {l : Otlp.LogRecord}
    (read : message bs = some fs) (decoded : Otlp.logRecord value fs = some l) :
    (recordContent resource bs).severityNumber = if bodies 2 0 bs = [] then none else some l.severityNumber := by
  rw [logRecord_severity decoded, recordContent]
  simp only
  rw [bodies_of_message read, Otlp.numberField, List.getLast?_map, List.getLast?_map, Option.map_map]
  cases last : (fs.filter fun f => f.number = 2 ∧ f.wire = 0).getLast? with
  | none =>
    rw [List.getLast?_eq_none_iff.mp last, if_pos (List.map_nil ..)]
    rfl
  | some f =>
    have member := List.mem_filter.mp (List.mem_of_getLast? last)
    have formed : f.WellFormed := by
      have := scan_wellFormed bs
      rw [scan_of_fields (message_fields read).1] at this
      exact this f member.1
    obtain ⟨-, v, number⟩ := formed.number (of_decide_eq_true member.2).2
    have some : (fs.filter fun f => f.number = 2 ∧ f.wire = 0) ≠ [] := fun none => by rw [none] at last; cases last
    rw [if_neg (by simpa using some)]
    simp [Otlp.number, number]

theorem traceId_walked (resource : Option Bytes) {value : List Field → Option Otlp.AnyValue} {l : Otlp.LogRecord}
    (read : message bs = some fs) (decoded : Otlp.logRecord value fs = some l) (last : Usable l.traceId ∨ PlainTraceId bs) :
    (recordContent resource bs).traceId = if Usable l.traceId then some l.traceId else none := by
  have id : l.traceId = (bodies 9 2 bs).getLast?.getD [] := by
    obtain ⟨body, -, decoded⟩ := Option.bind_eq_some_iff.mp decoded
    obtain ⟨attributes, -, rfl⟩ := Option.map_eq_some_iff.mp decoded
    rw [bodies_occurrences read]
    rfl
  show ((bodies 9 2 bs).filter fun b => decide (Usable b)).getLast? = _
  unfold PlainTraceId at last
  rw [id] at last ⊢
  generalize bodies 9 2 bs = ids at last ⊢
  induction ids using List.reverseRecOn with
  | nil => rfl
  | append_singleton ids b _ =>
    rw [List.getLast?_concat] at last ⊢
    rw [List.filter_append, List.filter_singleton, Option.getD_some]
    by_cases is : Usable b
    · rw [if_pos is, decide_eq_true is]
      exact List.getLast?_concat
    · have none : ids.filter (fun b => decide (Usable b)) = [] := by
        refine List.filter_eq_nil_iff.mpr fun c member found => is ?_
        obtain ⟨c, final, done⟩ := last.resolve_left is ⟨c, List.mem_append_left _ member, of_decide_eq_true found⟩
        rwa [Option.mem_some_iff.mp final]
      rw [if_neg is, none, decide_eq_false is]
      rfl

end Record

/-! ### The resource -/

section Resource
variable {n : Nat} {name kv : Bytes} {a : Otlp.KeyValue}

def walkedText (name kv : Bytes) : Option Bytes := (pairOf kv).bind fun a => if a.1 = name then some a.2 else none

theorem valueNamed_walked (name bs : Bytes) : valueNamed name bs = ((bodies 1 2 bs).filterMap (walkedText name)).getLast? := by
  rw [valueNamed, ← List.getLast?_map]
  refine congrArg List.getLast? ?_
  induction bodies 1 2 bs with
  | nil => rfl
  | cons kv kvs ih =>
    rw [List.filterMap_cons, List.filterMap_cons, walkedText]
    cases pairOf kv with
    | none => exact ih
    | some a =>
      by_cases named : a.1 = name
      · simp [named, ih]
      · simp [named, ih]

theorem walkedText_spells {fs : List Field} (read : message kv = some fs) {v : Option Otlp.AnyValue}
    (decoded : Otlp.singular 2 (Otlp.anyValue n) fs = some v) (text : Bytes) : walkedText name kv = some text ↔ Spells kv name text := by
  obtain ⟨gss, found, -⟩ := singular_embedded decoded
  have values : ∀ v ∈ children 2 ⟨0, kv⟩, (message v.bytes).isSome := by
    intro v child
    obtain ⟨_, -, image⟩ := mapM_some_mem found v.bytes (children_occurrences (t := ⟨0, kv⟩) read 2 ▸ List.mem_map_of_mem child)
    rw [image]
    rfl
  rw [← attrOf_spells (u := ⟨0, kv⟩) read values, walkedText, show pairOf kv = _ from (attrOf_pairOf ⟨0, kv⟩).symm]
  simp [Option.bind_eq_some_iff]

theorem PlainAttribute.walked (plain : PlainAttribute name kv)
    (decoded : (message kv).bind (Otlp.keyValue (Otlp.anyValue n)) = some a) :
    walkedText name kv = if a.1 = name then Otlp.text a.2 else none := by
  obtain ⟨fs, read, decoded⟩ := Option.bind_eq_some_iff.mp decoded
  obtain ⟨v, value, rfl⟩ := Option.map_eq_some_iff.mp decoded
  obtain ⟨gss, -, whole⟩ := singular_embedded value
  refine Option.ext fun text => ?_
  rw [walkedText_spells read value text, plain text, decodeKeyValue, read, Option.bind_some, whole,
    Option.map_some, Option.some.injEq, Prod.mk.injEq]
  by_cases named : stringField 1 fs = name
  · rw [if_pos named, singular_text whole value text]
    simp [named]
  · rw [if_neg named]
    simp [named]

theorem getLast?_flatMap_last {α β : Type} {f : α → List β} {l : List α}
    (last : (∃ a ∈ l, f a ≠ []) → ∃ a ∈ l.getLast?, f a ≠ []) : (l.flatMap f).getLast? = l.getLast?.bind fun a => (f a).getLast? := by
  induction l using List.reverseRecOn with
  | nil => rfl
  | append_singleton l b _ =>
    rw [List.getLast?_concat] at last ⊢
    rw [List.flatMap_append, List.flatMap_singleton, List.getLast?_append, Option.bind_some]
    cases here : (f b).getLast? with
    | some c => rfl
    | none =>
      have none : l.flatMap f = [] := by
        refine List.flatMap_eq_nil_iff.mpr fun a member => by_contra fun some => ?_
        obtain ⟨c, is, found⟩ := last ⟨a, List.mem_append_left _ member, some⟩
        rw [← Option.mem_some_iff.mp is, List.getLast?_eq_none_iff.mp here] at found
        exact found rfl
      rw [none]
      rfl

theorem occurrences_flatten {bss : List Bytes} {gss : List (List Field)} (found : bss.mapM message = some gss) (k : Nat) :
    occurrences k gss.flatten = bss.flatMap (bodies k 2) := by
  induction bss generalizing gss with
  | nil =>
    cases found
    rfl
  | cons bs bss ih =>
    obtain ⟨gs, gss', first, rest, rfl⟩ := mapM_some_cons found
    rw [List.flatten_cons, occurrences_append, ih rest, List.flatMap_cons, bodies_occurrences first]

theorem filterMap_forall₂ {α β γ : Type} {f : α → Option γ} {g : β → Option γ} {as : List α} {bs : List β}
    (h : List.Forall₂ (fun a b => f a = g b) as bs) : as.filterMap f = bs.filterMap g := by
  induction h with
  | nil => rfl
  | cons same _ ih => rw [List.filterMap_cons, List.filterMap_cons, same, ih]

/-- A resource message has the name when the walker finds a string under it. -/
theorem spelledIn_iff {resource : Bytes}
    (decoded : ∀ kv ∈ bodies 1 2 resource, ∃ a, (message kv).bind (Otlp.keyValue (Otlp.anyValue n)) = some a) :
    SpelledIn name resource ↔ (bodies 1 2 resource).filterMap (walkedText name) ≠ [] := by
  rw [ne_eq, List.filterMap_eq_nil_iff, not_forall]
  refine exists_congr fun kv => ?_
  rw [Classical.not_imp]
  refine and_congr_right fun inside => ?_
  obtain ⟨a, image⟩ := decoded kv inside
  obtain ⟨fs, read, image⟩ := Option.bind_eq_some_iff.mp image
  obtain ⟨v, value, -⟩ := Option.map_eq_some_iff.mp image
  rw [← ne_eq, Option.ne_none_iff_exists']
  exact exists_congr fun text => (walkedText_spells read value text).symm

theorem walkedText_named {kvs : List Bytes} {attributes : List Otlp.KeyValue} (plain : ∀ kv ∈ kvs, PlainAttribute name kv)
    (each : kvs.mapM (fun kv => (message kv).bind (Otlp.keyValue (Otlp.anyValue n))) = some attributes) :
    kvs.filterMap (walkedText name) = attributes.filterMap fun a => if a.1 = name then Otlp.text a.2 else none := by
  refine filterMap_forall₂ ?_
  exact ((List.forall₂_and_left _ _).mpr ⟨plain, mapM_some_forall₂ each⟩).imp fun kv a one => one.1.walked one.2

/-- What a group of resource messages says under a name that it has gathered is what the event has. -/
theorem Entry.Gathered.walked {e : Entry} (gathered : e.Gathered name) {x : Otlp.Event} (decodes : e.Decodes n x) :
    e.resources.getLast?.bind (valueNamed name) = x.named name := by
  obtain ⟨fs, same, decoded⟩ := decodes.resource
  unfold Otlp.singular at decoded
  split at decoded
  · rename_i none
    rw [← same, none, Otlp.Event.named, ← Option.some.inj decoded]
    rfl
  obtain ⟨gs, whole, decoded⟩ := Option.bind_eq_some_iff.mp decoded
  obtain ⟨r, once, resource⟩ := Option.map_eq_some_iff.mp decoded
  obtain ⟨attributes, each, rfl⟩ := Option.map_eq_some_iff.mp once
  obtain ⟨gss, found, rfl⟩ := Option.map_eq_some_iff.mp whole
  rw [same] at found
  rw [Otlp.repeated, occurrences_flatten found] at each
  have spelled : ∀ resource ∈ e.resources, SpelledIn name resource ↔ (bodies 1 2 resource).filterMap (walkedText name) ≠ [] := by
    intro resource member
    refine @spelledIn_iff n name resource fun kv inside => ?_
    obtain ⟨a, -, image⟩ := mapM_some_mem each kv (List.mem_flatMap.mpr ⟨resource, member, inside⟩)
    exact ⟨a, image⟩
  have plain : ∀ kv ∈ e.resources.flatMap (bodies 1 2), PlainAttribute name kv := by
    intro kv inside
    obtain ⟨resource, member, inside⟩ := List.mem_flatMap.mp inside
    exact gathered.attributes resource member kv inside
  rw [Otlp.Event.named, ← resource, Option.bind_some, Otlp.named, ← walkedText_named plain each, List.filterMap_flatMap,
    getLast?_flatMap_last]
  · exact congrArg (Option.bind _) (funext fun resource => valueNamed_walked name resource)
  · rintro ⟨resource, member, some⟩
    obtain ⟨resource, last, some⟩ := gathered.last ⟨resource, member, (spelled resource member).mpr some⟩
    exact ⟨resource, last, (spelled resource (List.mem_of_getLast? last)).mp some⟩

end Resource

/-! ### The entry -/

section Alike
variable {n n' : Nat} {x : Otlp.Event} {e e' : Entry}

theorem Entry.Decodes.traceId (decodes : e.Decodes n x) (last : Usable x.record.traceId ∨ PlainTraceId e.record) :
    e.content.traceId = if Usable x.record.traceId then some x.record.traceId else none := by
  obtain ⟨fs, read, record⟩ := Option.bind_eq_some_iff.mp decodes.record
  exact traceId_walked _ read record last

theorem Entry.Decodes.body (decodes : e.Decodes n x) (plain : PlainBody e.record x.record.body) :
    e.content.body = (Otlp.text x.record.body).getD [] := by
  obtain ⟨fs, read, record⟩ := Option.bind_eq_some_iff.mp decodes.record
  obtain ⟨body, single, rest⟩ := Option.bind_eq_some_iff.mp record
  obtain ⟨attributes, -, same⟩ := Option.map_eq_some_iff.mp rest
  have kept : x.record.body = body := by rw [← same]
  exact plain.walked read (kept ▸ single)

theorem SameNamed.walked {name : Bytes} (same : SameNamed name e e') (decodes : e.Decodes n x) (decodes' : e'.Decodes n' x) :
    e.resources.getLast?.bind (valueNamed name) = e'.resources.getLast?.bind (valueNamed name) := by
  rcases same with same | ⟨gathered, gathered'⟩
  · have each : ∀ last : Option Bytes, last.bind (valueNamed name)
        = (last.map (bodies 1 2)).bind fun kvs => (kvs.filterMap (walkedText name)).getLast? := by
      intro last
      rw [Option.bind_map]
      exact congrArg _ (funext fun bs => valueNamed_walked name bs)
    rw [each, same, each]
  · rw [gathered.walked decodes, gathered'.walked decodes']

theorem SameTraceId.walked (same : SameTraceId e.record e'.record) (decodes : e.Decodes n x) (decodes' : e'.Decodes n' x) :
    e.content.traceId = e'.content.traceId := by
  rcases same with same | ⟨plain, plain'⟩
  · simp only [Entry.content, recordContent, same]
  · rw [decodes.traceId (.inr plain), decodes'.traceId (.inr plain')]

theorem SameBody.walked (same : SameBody e.record e'.record x.record.body) (decodes : e.Decodes n x) (decodes' : e'.Decodes n' x) :
    e.content.body = e'.content.body := by
  rcases same with same | ⟨plain, plain'⟩
  · simp only [Entry.content, recordContent, same]
  · rw [decodes.body plain, decodes'.body plain']

theorem Entry.Decodes.severityNumber (decodes : e.Decodes n x) :
    e.content.severityNumber = if bodies 2 0 e.record = [] then none else some x.record.severityNumber := by
  obtain ⟨fs, read, record⟩ := Option.bind_eq_some_iff.mp decodes.record
  exact severity_walked _ read record

theorem Entry.Decodes.severity_absent (decodes : e.Decodes n x) (absent : bodies 2 0 e.record = []) : x.record.severityNumber = 0 := by
  obtain ⟨fs, read, record⟩ := Option.bind_eq_some_iff.mp decodes.record
  exact ArchivAgent.severity_absent read record absent

/-- Of the severity the walker sees whether it is written down, which only a 0 need not be. -/
theorem severity_alike (decodes : e.Decodes n x) (decodes' : e'.Decodes n' x) :
    e.content.severityNumber = e'.content.severityNumber ↔ (SpellsZero e.record x.record ↔ SpellsZero e'.record x.record) := by
  rw [decodes.severityNumber, decodes'.severityNumber]
  unfold SpellsZero
  by_cases none : bodies 2 0 e.record = [] <;> by_cases none' : bodies 2 0 e'.record = []
  · simp [none, none']
  · simp [none, none', decodes.severity_absent none]
  · simp [none, none', decodes'.severity_absent none']
  · simp [none, none']

end Alike

end ArchivAgent
