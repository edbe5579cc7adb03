import Mathlib.Data.List.Basic
import Mathlib.Data.List.Induction
import ArchivAgent.Ingest.Windows
import ArchivAgent.Wire.Proto3

/-!
# What the destination decodes

The reference decoding of the strings of a request, and what the walker sees of them. The walker
takes the first string of a value where proto3 takes the last member, only the last message of a
value where proto3 merges them, and no attribute without a key of its own.
-/

namespace ArchivAgent
open Wire Transition

/-! ### The reference decoding -/

/-- An AnyValue that is a string, or that is something else. -/
inductive DecodedValue where
  | string (text : Bytes)
  | other
  deriving DecidableEq, Repr

structure DecodedRecord where
  body : Option DecodedValue
  attributes : List (Bytes × Option DecodedValue)
  deriving DecidableEq, Repr

/-- The members of the oneof: a string, a boolean, two numbers, two lists and bytes. -/
def valueMember (f : Field) : Option DecodedValue :=
  if f.number = 1 ∧ f.wire = 2 then some (.string f.body)
  else if (f.number, f.wire) ∈ [(2, 0), (3, 0), (4, 1), (5, 2), (6, 2), (7, 2)] then some .other
  else none

def decodeAnyValue (fs : List Field) : Option DecodedValue := oneof valueMember fs

def decodeKeyValue (bs : Bytes) : Option (Bytes × Option DecodedValue) :=
  (message bs).bind fun fs => (embedded 2 fs).map fun value => (stringField 1 fs, decodeAnyValue value)

def decodeRecord (bs : Bytes) : Option DecodedRecord :=
  (message bs).bind fun fs => (embedded 5 fs).bind fun body =>
    ((occurrences 6 fs).mapM decodeKeyValue).map fun attributes => ⟨decodeAnyValue body, attributes⟩

def submessages (n : Nat) (bs : Bytes) : Option (List Bytes) := (message bs).map (occurrences n)

def logRecords (bs : Bytes) : Option (List Bytes) :=
  (submessages 1 bs).bind fun resources => (resources.mapM (submessages 2)).bind fun scopes =>
    (scopes.flatten.mapM (submessages 2)).map List.flatten

/-! ### What the walker has to see -/

/-- Every decoded string is in the view. -/
structure SeesRecord (raw : Bytes) (v : RecordView) (l : DecodedRecord) : Prop where
  body : ∀ text, l.body = some (.string text) → v.body.get raw = some text
  attributes : ∀ key text, (key, some (.string text)) ∈ l.attributes →
    ∃ a ∈ v.attrs, a.key.get raw = some key ∧ a.value.get raw = some text

def stringsOf (bs : Bytes) : List Bytes := ((message bs).map (occurrences 1)).getD []

/-- A KeyValue has the key in a field of its own, and its last value message starts with the text. -/
def Spells (bs key text : Bytes) : Prop :=
  ∃ fs, message bs = some fs ∧ (occurrences 1 fs).getLast? = some key ∧
    ∃ value, (occurrences 2 fs).getLast? = some value ∧ (stringsOf value).head? = some text

/-- A record whose strings are where the walker looks for them. -/
structure PlainRecord (bs : Bytes) (l : DecodedRecord) : Prop where
  /-- The last body message with a string has the same string first and last. -/
  body : ∀ text, l.body = some (.string text) → ∀ fs, message bs = some fs →
    ∀ strings, ((occurrences 5 fs).map stringsOf).reverse.find? (· ≠ []) = some strings →
      strings.head? = strings.getLast?
  attributes : ∀ key text, (key, some (.string text)) ∈ l.attributes →
    ∃ fs, message bs = some fs ∧ ∃ attr ∈ occurrences 6 fs, Spells attr key text

/-! ### The walker's strings -/

section Walker
variable {t u v : Text}

theorem filterMap_children {β : Type} (n : Nat) (t : Text) (f : Text → Option β) :
    (locate t.pos (scan t.bytes).1).filterMap (fun q => if IsField n 2 q then f (payload q) else none)
      = (children n t).filterMap f := by
  rw [children]
  induction locate t.pos (scan t.bytes).1 with
  | nil => rfl
  | cons q qs ih =>
    by_cases child : IsField n 2 q
    · rw [List.filter_cons_of_pos (by exact decide_eq_true child), List.map_cons, List.filterMap_cons, List.filterMap_cons, ih,
        if_pos child]
    · rw [List.filter_cons_of_neg (by exact fun h => child (of_decide_eq_true h)), List.filterMap_cons, if_neg child, ih]

theorem anyValueText_head {o : Option Text} (read : anyValueText v = some o) : o = (children 1 v).head? := by
  unfold anyValueText at read
  rw [children, List.head?_map, List.head?_filter]
  split at read
  · rename_i q found
    cases read
    rw [found]
    rfl
  · rename_i none
    split at read <;> cases read
    rw [none]
    rfl

/-- What the walker makes of a KeyValue. -/
def attrOf (u : Text) : Option Attr :=
  pairUp ((children 1 u).getLast?, (children 2 u).getLast?.bind fun v => (children 1 v).head?)

theorem keyValue_attrOf {o : Option Attr} (read : keyValue u = some o) : o = attrOf u := by
  obtain ⟨s, folded, rfl⟩ := Option.map_eq_some_iff.mp read
  obtain ⟨fs, whole, folded⟩ := Option.bind_eq_some_iff.mp folded
  have key : s.1 = (children 1 u).getLast? := by
    have last := run_last (fun s => s.1) (fun q => if IsField 1 2 q then some (some (payload q)) else none)
      folded fun q _ s s' one => by
        unfold keyValueStep at one
        by_cases isKey : IsField 1 2 q
        · rw [if_pos isKey] at one ⊢
          cases one
          rfl
        rw [if_neg isKey] at one ⊢
        split at one
        · obtain ⟨o, -, rfl⟩ := Option.map_eq_some_iff.mp one
          rfl
        · cases one
          rfl
    have same := filterMap_children 1 u fun v => some (some v)
    rw [scan_of_fields whole] at same
    rw [last, same, List.filterMap_eq_map', List.getLast?_map]
    cases (children 1 u).getLast? <;> rfl
  have value : s.2 = (children 2 u).getLast?.bind fun v => (children 1 v).head? := by
    have last := run_last (fun s => s.2) (fun q => if IsField 2 2 q then some ((children 1 (payload q)).head?) else none)
      folded fun q _ s s' one => by
        unfold keyValueStep at one
        by_cases isKey : IsField 1 2 q
        · rw [if_pos isKey] at one
          cases one
          rw [if_neg (isKey.other (by decide))]
          rfl
        rw [if_neg isKey] at one
        by_cases isValue : IsField 2 2 q
        · rw [if_pos isValue] at one ⊢
          obtain ⟨o, read, rfl⟩ := Option.map_eq_some_iff.mp one
          exact anyValueText_head read
        · rw [if_neg isValue] at one ⊢
          cases one
          rfl
    have same := filterMap_children 2 u fun v => some ((children 1 v).head?)
    rw [scan_of_fields whole] at same
    rw [last, same, List.filterMap_eq_map', List.getLast?_map]
    cases (children 2 u).getLast? <;> rfl
  obtain ⟨k, w⟩ := s
  simp only at key value
  rw [key, value]
  rfl

theorem record_body {res : Resource} {r : Record} (read : record t res = some r) :
    r.body = (((children 5 t).filterMap fun u => (children 1 u).head?).getLast?).getD ⟨t.pos, []⟩ := by
  obtain ⟨fs, whole, folded⟩ := Option.bind_eq_some_iff.mp read
  have last := run_last Record.body (fun q => if IsField 5 2 q then (children 1 (payload q)).head? else none) folded
    fun q _ s s' one => by
      rcases recordStep_cases one with ⟨is, _, _, -, rfl⟩ | ⟨is, o, read, rfl⟩ | ⟨is, _, -, rfl⟩ | ⟨is, rfl⟩ |
        ⟨-, notBody, -, -, rfl⟩
      · rw [if_neg (is.other (by decide))]
        rfl
      · rw [if_pos is, anyValueText_head read]
      · rw [if_neg (is.other (by decide))]
        rfl
      · rw [if_neg (is.other (by decide))]
        split <;> rfl
      · rw [if_neg notBody]
        rfl
  rw [last, ← filterMap_children, scan_of_fields whole]

theorem record_attrs {res : Resource} {r : Record} (read : record t res = some r) :
    r.attrs = (children 6 t).filterMap attrOf := by
  obtain ⟨fs, whole, folded⟩ := Option.bind_eq_some_iff.mp read
  have all := run_collected Record.attrs (fun q => (if IsField 6 2 q then attrOf (payload q) else none).toList) folded
    fun q _ s s' one => by
      rcases recordStep_cases one with ⟨is, _, _, -, rfl⟩ | ⟨is, o, read, rfl⟩ | ⟨is, o, read, rfl⟩ | ⟨is, rfl⟩ |
        ⟨-, -, notAttr, -, rfl⟩
      · rw [if_neg (is.other (by decide))]
        simp
      · rw [if_neg (is.other (by decide))]
        simp
      · rw [if_pos is, keyValue_attrOf read]
      · rw [if_neg (is.other (by decide))]
        split <;> simp
      · rw [if_neg notAttr]
        simp
  rw [all, ← filterMap_children, scan_of_fields whole, List.nil_append]
  exact (List.filterMap_eq_flatMap_toList _ _).symm

/-! ### The records of a request -/

theorem children_flatMap {β : Type} (n : Nat) (t : Text) (f : Text → List β) :
    (locate t.pos (scan t.bytes).1).flatMap (fun q => if IsField n 2 q then f (payload q) else [])
      = (children n t).flatMap f := by
  rw [children]
  induction locate t.pos (scan t.bytes).1 with
  | nil => rfl
  | cons q qs ih =>
    rw [List.flatMap_cons, ih]
    by_cases child : IsField n 2 q
    · rw [if_pos child, List.filter_cons_of_pos (by exact decide_eq_true child), List.map_cons, List.flatMap_cons]
    · rw [if_neg child, List.filter_cons_of_neg (by exact fun h => child (of_decide_eq_true h)), List.nil_append]

theorem scopeLogs_texts {res : Resource} {out out' : List Record} (read : scopeLogs res out t = some out') :
    out'.map Record.text = out.map Record.text ++ children 2 t := by
  obtain ⟨fs, whole, folded⟩ := Option.bind_eq_some_iff.mp read
  have all := run_collected (List.map Record.text) (fun q => if IsField 2 2 q then [payload q] else []) folded fun q _ s s' one => by
      unfold scopeStep at one
      by_cases child : IsField 2 2 q
      · rw [if_pos child] at one ⊢
        obtain ⟨r, read, rfl⟩ := Option.map_eq_some_iff.mp one
        rw [List.map_append, List.map_singleton, (record_frame read).1]
      · rw [if_neg child] at one ⊢
        cases one
        exact (List.append_nil _).symm
  have same := children_flatMap 2 t fun u => [u]
  rw [scan_of_fields whole, List.flatMap_singleton'] at same
  rw [all, same]

theorem resourceLogs_children {s : Resource × List Text} (read : readFields resourceLogsStep t ({}, []) = some s) :
    s.2 = children 2 t := by
  obtain ⟨fs, whole, folded⟩ := Option.bind_eq_some_iff.mp read
  have scopes := run_collected (fun s => s.2) (fun q => if IsField 2 2 q then [payload q] else [])
    folded fun q _ s s' one => by
      unfold resourceLogsStep at one
      by_cases isRes : IsField 1 2 q
      · rw [if_pos isRes] at one
        obtain ⟨_, -, rfl⟩ := Option.map_eq_some_iff.mp one
        rw [if_neg (isRes.other (by decide)), List.append_nil]
      rw [if_neg isRes] at one
      by_cases scope : IsField 2 2 q
      · rw [if_pos scope] at one ⊢
        cases one
        rfl
      · rw [if_neg scope] at one ⊢
        cases one
        exact (List.append_nil _).symm
  have same := children_flatMap 2 t fun u => [u]
  rw [scan_of_fields whole, List.flatMap_singleton'] at same
  rw [scopes, same, List.nil_append]

theorem resourceLogs_texts {out out' : List Record} (read : resourceLogs out t = some out') :
    out'.map Record.text = out.map Record.text ++ (children 2 t).flatMap (children 2) := by
  obtain ⟨s, collected, visited⟩ := Option.bind_eq_some_iff.mp read
  rw [resourceLogs_children collected] at visited
  exact run_collected (List.map Record.text) (children 2) visited fun _ _ _ _ one => scopeLogs_texts one

theorem records_texts {buf : Bytes} {rs : List Record} (read : records buf = some rs) :
    rs.map Record.text = ((children 1 ⟨0, buf⟩).flatMap (children 2)).flatMap (children 2) := by
  obtain ⟨fs, whole, folded⟩ := Option.bind_eq_some_iff.mp read
  have all := run_collected (List.map Record.text)
    (fun q => if IsField 1 2 q then (children 2 (payload q)).flatMap (children 2) else []) folded fun q _ s s' one => by
      unfold requestStep at one
      by_cases child : IsField 1 2 q
      · rw [if_pos child] at one ⊢
        exact resourceLogs_texts one
      · rw [if_neg child] at one ⊢
        cases one
        exact (List.append_nil _).symm
  have same := children_flatMap 1 ⟨0, buf⟩ fun u => (children 2 u).flatMap (children 2)
  rw [scan_of_fields whole] at same
  rw [all, same, List.flatMap_assoc]
  rfl

end Walker

/-! ### Children and occurrences -/

section Occurrences
variable {t u v : Text}

theorem children_occurrences {fs : List Field} (read : message t.bytes = some fs) (n : Nat) :
    (children n t).map Text.bytes = occurrences n fs := by
  obtain ⟨whole, small⟩ := message_fields read
  rw [children_bodies, bodies, occurrences, scan_of_fields whole]
  refine congrArg (List.map _) (List.filter_congr fun f member => ?_)
  have := small f member
  rw [Nat.mod_eq_of_lt (show f.number < 2 ^ 32 by omega)]

theorem submessages_children {n : Nat} {bs : List Bytes} (read : submessages n t.bytes = some bs) :
    (children n t).map Text.bytes = bs := by
  obtain ⟨fs, whole, rfl⟩ := Option.map_eq_some_iff.mp read
  exact children_occurrences whole n

theorem mapM_submessages {n : Nat} {ts : List Text} {bss : List (List Bytes)}
    (read : (ts.map Text.bytes).mapM (submessages n) = some bss) :
    (ts.flatMap (children n)).map Text.bytes = bss.flatten := by
  induction ts generalizing bss with
  | nil => cases read; rfl
  | cons t ts ih =>
    obtain ⟨bs, bss', first, rest, rfl⟩ := mapM_some_cons read
    rw [List.flatMap_cons, List.map_append, submessages_children first, ih rest, List.flatten_cons]

theorem records_messages {buf : Bytes} {rs : List Record} (read : records buf = some rs) {messages : List Bytes}
    (decoded : logRecords buf = some messages) : rs.map (fun r => r.text.bytes) = messages := by
  obtain ⟨resources, first, decoded⟩ := Option.bind_eq_some_iff.mp decoded
  obtain ⟨scopes, second, decoded⟩ := Option.bind_eq_some_iff.mp decoded
  obtain ⟨records, third, rfl⟩ := Option.map_eq_some_iff.mp decoded
  rw [← submessages_children (t := ⟨0, buf⟩) first] at second
  rw [← mapM_submessages second] at third
  rw [← mapM_submessages third, ← records_texts read, List.map_map]
  rfl

theorem stringsOf_children (read : (message v.bytes).isSome) : (children 1 v).map Text.bytes = stringsOf v.bytes := by
  obtain ⟨fs, whole⟩ := Option.isSome_iff_exists.mp read
  rw [children_occurrences whole, stringsOf, whole]
  rfl

theorem attrOf_spells {fs : List Field} (read : message u.bytes = some fs)
    (values : ∀ v ∈ children 2 u, (message v.bytes).isSome) {key text : Bytes} :
    (∃ a, attrOf u = some a ∧ a.key.bytes = key ∧ a.value.bytes = text) ↔ Spells u.bytes key text := by
  have keys := congrArg List.getLast? (children_occurrences read 1)
  have lasts := congrArg List.getLast? (children_occurrences read 2)
  rw [List.getLast?_map] at keys lasts
  constructor
  · rintro ⟨a, paired, rfl, rfl⟩
    unfold attrOf at paired
    cases lastKey : (children 1 u).getLast? with
    | none => rw [lastKey] at paired; cases paired
    | some k =>
      cases lastValue : (children 2 u).getLast? with
      | none => rw [lastKey, lastValue] at paired; cases paired
      | some v =>
        have strings := congrArg List.head? (stringsOf_children (values v (List.mem_of_getLast? lastValue)))
        rw [List.head?_map] at strings
        rw [lastKey, lastValue, Option.bind_some] at paired
        cases first : (children 1 v).head? with
        | none => rw [first] at paired; cases paired
        | some w =>
          rw [first] at paired strings
          cases paired
          rw [lastKey] at keys
          rw [lastValue] at lasts
          exact ⟨fs, read, keys.symm, v.bytes, lasts.symm, strings.symm⟩
  · rintro ⟨fs', read', lastKey, value, lastValue, first⟩
    rw [read] at read'
    cases read'
    rw [lastKey] at keys
    rw [lastValue] at lasts
    obtain ⟨k, keyText, rfl⟩ := Option.map_eq_some_iff.mp keys
    obtain ⟨v, valueText, rfl⟩ := Option.map_eq_some_iff.mp lasts
    have strings := congrArg List.head? (stringsOf_children (values v (List.mem_of_getLast? valueText)))
    rw [List.head?_map, first] at strings
    obtain ⟨w, firstText, rfl⟩ := Option.map_eq_some_iff.mp strings
    exact ⟨⟨k, w⟩, by rw [attrOf, keyText, valueText, Option.bind_some, firstText]; rfl, rfl, rfl⟩

end Occurrences

/-! ### The last string -/

theorem oneof_string {fs : List Field} {text : Bytes} (last : decodeAnyValue fs = some (.string text)) :
    (occurrences 1 fs).getLast? = some text := by
  induction fs using List.reverseRecOn with
  | nil => cases last
  | append_singleton fs f ih =>
    rw [occurrences_append, List.getLast?_append]
    rw [decodeAnyValue, oneof_append] at last
    by_cases string : f.number = 1 ∧ f.wire = 2
    · have here : valueMember f = some (.string f.body) := if_pos string
      simp only [oneof, List.filterMap_cons_some here, List.filterMap_nil, List.getLast?_singleton, Option.some_or,
        Option.some.injEq, DecodedValue.string.injEq] at last
      simp [occurrences, string, last]
    · have none : occurrences 1 [f] = [] := by simp [occurrences, string]
      have other : valueMember f = Option.none := by
        cases here : valueMember f with
        | none => rfl
        | some m =>
          rw [valueMember, if_neg string] at here
          split at here
          · rename_i known
            cases here
            have member : valueMember f = some .other := by rw [valueMember, if_neg string, if_pos known]
            rw [oneof, List.filterMap_cons_some member] at last
            cases last
          · cases here
      rw [none]
      rw [oneof, List.filterMap_cons_none other] at last
      exact ih last

/-- When the merged value is a string, it is the last string of the last message that has one. -/
theorem merged_string {gss : List (List Field)} {text : Bytes} (last : decodeAnyValue gss.flatten = some (.string text)) :
    ∃ strings, (gss.map (occurrences 1)).reverse.find? (· ≠ []) = some strings ∧ strings.getLast? = some text := by
  induction gss using List.reverseRecOn with
  | nil => cases last
  | append_singleton gss gs ih =>
    rw [List.flatten_append, List.flatten_singleton, decodeAnyValue, oneof_append] at last
    rw [List.map_append, List.map_singleton, List.reverse_append, List.reverse_singleton, List.singleton_append]
    cases here : oneof valueMember gs with
    | some m =>
      rw [here, Option.some_or] at last
      have string := oneof_string (here.trans last)
      refine ⟨occurrences 1 gs, List.find?_cons_of_pos ?_, string⟩
      simpa using fun none => by rw [none] at string; cases string
    | none =>
      have none : occurrences 1 gs = [] := by
        by_contra some
        obtain ⟨s, member⟩ := List.exists_mem_of_ne_nil _ some
        obtain ⟨f, member, -⟩ := List.mem_map.mp member
        obtain ⟨member, string⟩ := List.mem_filter.mp member
        have value : valueMember f = Option.some (.string f.body) := if_pos (by simpa using string)
        have : DecodedValue.string f.body ∈ gs.filterMap valueMember := List.mem_filterMap.mpr ⟨f, member, value⟩
        rw [oneof, List.getLast?_eq_none_iff] at here
        rw [here] at this
        cases this
      rw [here, Option.none_or] at last
      rw [List.find?_cons_of_neg (by simp [none])]
      exact ih last

theorem first_of_last {α : Type} (ls : List (List α)) :
    (ls.filterMap List.head?).getLast? = (ls.reverse.find? (· ≠ [])).bind List.head? := by
  induction ls using List.reverseRecOn with
  | nil => rfl
  | append_singleton ls l ih =>
    rw [List.filterMap_append, List.getLast?_append, List.reverse_append, List.reverse_singleton, List.singleton_append]
    cases l with
    | nil => simpa using ih
    | cons a l => simp

/-! ### What the walker sees -/

theorem record_sees_iff {raw : Bytes} {r : Record} (read : r.Read) (held : r.In raw) {l : DecodedRecord}
    (decoded : decodeRecord r.text.bytes = some l) : SeesRecord raw r.view l ↔ PlainRecord r.text.bytes l := by
  obtain ⟨fs, whole, afterFields⟩ := Option.bind_eq_some_iff.mp decoded
  obtain ⟨body, bodies, afterBody⟩ := Option.bind_eq_some_iff.mp afterFields
  obtain ⟨attributes, attrs, rfl⟩ := Option.map_eq_some_iff.mp afterBody
  obtain ⟨gss, messages, rfl⟩ := Option.map_eq_some_iff.mp bodies
  clear decoded afterFields afterBody bodies
  have body : (∀ text, decodeAnyValue gss.flatten = some (.string text) → r.view.body.get raw = some text) ↔
      ∀ text, decodeAnyValue gss.flatten = some (.string text) → ∀ fs, message r.text.bytes = some fs →
        ∀ strings, ((occurrences 5 fs).map stringsOf).reverse.find? (· ≠ []) = some strings →
          strings.head? = strings.getLast? := by
    refine forall₂_congr fun text last => ?_
    have each : (occurrences 5 fs).map stringsOf = gss.map (occurrences 1) := by
      clear last
      generalize occurrences 5 fs = bs at messages
      induction bs generalizing gss with
      | nil => cases messages; rfl
      | cons b bs ih =>
        obtain ⟨gs, gss', first, rest, rfl⟩ := mapM_some_cons messages
        rw [List.map_cons, List.map_cons, ih gss' rest, stringsOf, first]
        rfl
    obtain ⟨strings, bearing, final⟩ := merged_string last
    have seen : r.body.bytes = (strings.head?).getD [] := by
      have texts : (children 5 r.text).map (fun u => (children 1 u).map Text.bytes) = (occurrences 5 fs).map stringsOf := by
        rw [← children_occurrences whole, List.map_map]
        refine List.map_congr_left fun u child => ?_
        obtain ⟨_, -, image⟩ := mapM_some_mem messages u.bytes
          (children_occurrences whole 5 ▸ List.mem_map_of_mem child)
        exact stringsOf_children (by rw [image]; rfl)
      have head := first_of_last ((children 5 r.text).map fun u => (children 1 u).map Text.bytes)
      rw [texts, each, bearing, Option.bind_some, ← each, ← texts, List.filterMap_map] at head
      have inner : (children 5 r.text).filterMap (List.head? ∘ fun u => (children 1 u).map Text.bytes)
          = ((children 5 r.text).filterMap fun u => (children 1 u).head?).map Text.bytes := by
        rw [List.map_filterMap]
        exact congrArg (List.filterMap · _) (funext fun u => List.head?_map)
      rw [inner, List.getLast?_map] at head
      rw [record_body read, ← head]
      cases ((children 5 r.text).filterMap fun u => (children 1 u).head?).getLast? <;> rfl
    have view : r.view.body.get raw = some r.body.bytes := held.body.get
    rw [view, seen]
    constructor
    · intro same fs' whole' strings' bearing'
      rw [whole] at whole'
      cases whole'
      rw [each, bearing] at bearing'
      cases bearing'
      rw [final]
      cases strings with
      | nil => cases final
      | cons s strings => simpa using same
    · intro plain
      have first := plain fs whole strings (by rw [each, bearing])
      rw [final] at first
      rw [first]
      rfl
  have attributes : (∀ key text, (key, some (.string text)) ∈ attributes →
        ∃ a ∈ r.view.attrs, a.key.get raw = some key ∧ a.value.get raw = some text) ↔
      ∀ key text, (key, some (.string text)) ∈ attributes →
        ∃ fs, message r.text.bytes = some fs ∧ ∃ attr ∈ occurrences 6 fs, Spells attr key text := by
    refine forall₃_congr fun key text _ => ?_
    have spelled : ∀ u ∈ children 6 r.text,
        ((∃ a, attrOf u = some a ∧ a.key.bytes = key ∧ a.value.bytes = text) ↔ Spells u.bytes key text) := by
      intro u child
      obtain ⟨_, -, image⟩ := mapM_some_mem attrs u.bytes (children_occurrences whole 6 ▸ List.mem_map_of_mem child)
      obtain ⟨gs, whole', image⟩ := Option.bind_eq_some_iff.mp image
      obtain ⟨vs, values, -⟩ := Option.map_eq_some_iff.mp image
      obtain ⟨hss, values, -⟩ := Option.map_eq_some_iff.mp values
      refine attrOf_spells whole' fun v value => ?_
      obtain ⟨_, -, image⟩ := mapM_some_mem values v.bytes
        (children_occurrences whole' 2 ▸ List.mem_map_of_mem value)
      rw [image]
      rfl
    constructor
    · rintro ⟨av, view, key', value'⟩
      obtain ⟨a, member, rfl⟩ := List.mem_map.mp view
      rw [show a.view.key.get raw = some a.key.bytes from (held.attrs a member).key.get, Option.some.injEq] at key'
      rw [show a.view.value.get raw = some a.value.bytes from (held.attrs a member).value.get, Option.some.injEq] at value'
      rw [record_attrs read] at member
      obtain ⟨u, child, same⟩ := List.mem_filterMap.mp member
      refine ⟨fs, whole, u.bytes, children_occurrences whole 6 ▸ List.mem_map_of_mem child, ?_⟩
      exact (spelled u child).mp ⟨a, same, key', value'⟩
    · rintro ⟨fs', whole', attr, member, spells⟩
      rw [whole] at whole'
      cases whole'
      rw [← children_occurrences whole] at member
      obtain ⟨u, child, rfl⟩ := List.mem_map.mp member
      obtain ⟨a, same, rfl, rfl⟩ := (spelled u child).mpr spells
      have member : a ∈ r.attrs := record_attrs read ▸ List.mem_filterMap.mpr ⟨u, child, same⟩
      exact ⟨a.view, List.mem_map_of_mem member, (held.attrs a member).key.get, (held.attrs a member).value.get⟩
  exact ⟨fun h => ⟨body.mp h.body, attributes.mp h.attributes⟩, fun h => ⟨body.mpr h.body, attributes.mpr h.attributes⟩⟩

/-- The walker has a view for each record, and it sees every decoded string exactly when the
record's strings are where it looks. -/
theorem parse_sees_iff {raw : Bytes} {views : List RecordView} (parsed : parseExportLogsRequest raw [] = .ok views)
    {messages : List Bytes} (decoded : logRecords raw = some messages) :
    views.length = messages.length ∧ ∀ (i : Nat) v bs l, views[i]? = some v → messages[i]? = some bs →
      decodeRecord bs = some l → (SeesRecord raw v l ↔ PlainRecord bs l) := by
  obtain ⟨rs, found, rfl⟩ := parseExportLogsRequest_ok.mp parsed
  obtain rfl := records_messages found decoded
  refine ⟨by simp, fun i v bs l view message decoded => ?_⟩
  rw [List.getElem?_map] at view message
  obtain ⟨r, here, rfl⟩ := Option.map_eq_some_iff.mp view
  rw [here] at message
  cases message
  have member := List.mem_of_getElem? here
  exact record_sees_iff (records_read found r member) (records_in found r member) decoded

/-- One record whose body is the string `a` and then the string `b`. -/
def doubled : Bytes := [0x0A, 12, 0x12, 10, 0x12, 8, 0x2A, 6, 0x0A, 1, 97, 0x0A, 1, 98]

def doubledRecord : Bytes := [0x2A, 6, 0x0A, 1, 97, 0x0A, 1, 98]

theorem parse_sees_iff_doubled : [RecordView.mk ⟨10, 11⟩ none [] none none none].length = [doubledRecord].length ∧
    ∀ (i : Nat) v bs l, [RecordView.mk ⟨10, 11⟩ none [] none none none][i]? = some v → [doubledRecord][i]? = some bs →
      decodeRecord bs = some l → (SeesRecord doubled v l ↔ PlainRecord bs l) :=
  parse_sees_iff rfl (by decide +kernel)

/-- The destination reads the last string, the walker the first. -/
theorem parse_sees_not : ¬ ∀ raw views, parseExportLogsRequest raw [] = .ok views →
    ∀ messages, logRecords raw = some messages → ∀ (i : Nat) v bs l, views[i]? = some v → messages[i]? = some bs →
      decodeRecord bs = some l → SeesRecord raw v l := by
  intro sees
  have seen := sees doubled _ rfl [doubledRecord] (by decide +kernel) 0 _ _ ⟨some (.string [98]), []⟩ rfl rfl
    (by decide +kernel)
  exact absurd (seen.body [98] rfl) (by decide +kernel)

end ArchivAgent
