import ArchivAgent.Ingest.Cursor

/-!
# What the walker reads

The walker without its cursor: each message is a fold over its located fields, and a view is the
text that stands in its range. `parseExportLogsRequest_meets` ties the two together.
-/

namespace ArchivAgent
open Wire

/-- The walkers cut a field number to 32 bits before they compare it. -/
abbrev IsField (n w : Nat) (q : Nat × Field) : Prop := q.2.number % 2 ^ 32 = n ∧ q.2.wire = w

theorem IsField.other {m n w w' : Nat} {q : Nat × Field} (h : IsField m w q) (differ : m ≠ n) :
    ¬ IsField n w' q := fun h' => differ (h.1.symm.trans h'.1)

structure Attr where
  key : Text
  value : Text
  deriving DecidableEq, Repr

structure Resource where
  namespaceName : Option Text := none
  serviceName : Option Text := none
  deriving DecidableEq, Repr

/-- A record with its message `text` and the resource it belongs to. -/
structure Record where
  text : Text
  body : Text
  traceId : Option Text := none
  severityNumber : Option Int := none
  attrs : List Attr := []
  resource : Resource := {}
  deriving DecidableEq, Repr

/-- The first string stops the reading, and what follows it is not looked at. -/
def anyValueText (t : Text) : Option (Option Text) :=
  match (locate t.pos (scan t.bytes).1).find? (IsField 1 2) with
  | some q => some (some (payload q))
  | none => if (scan t.bytes).2 then some none else none

def keyValueStep (s : Option Text × Option Text) (q : Nat × Field) : Option (Option Text × Option Text) :=
  if IsField 1 2 q then some (some (payload q), s.2)
  else if IsField 2 2 q then (anyValueText (payload q)).map fun value => (s.1, value)
  else some s

def pairUp : Option Text × Option Text → Option Attr
  | (some key, some value) => some ⟨key, value⟩
  | _ => none

def keyValue (t : Text) : Option (Option Attr) := (readFields keyValueStep t (none, none)).map pairUp

def Resource.add (s : Resource) : Option Attr → Resource
  | none => s
  | some attr =>
    if attr.key.bytes = k8sNamespaceName then { s with namespaceName := some attr.value }
    else if attr.key.bytes = serviceNameKey then { s with serviceName := some attr.value }
    else s

def resourceStep (s : Resource) (q : Nat × Field) : Option Resource :=
  if IsField 1 2 q then (keyValue (payload q)).map s.add else some s

def resource (t : Text) : Option Resource := readFields resourceStep t {}

def recordStep (s : Record) (q : Nat × Field) : Option Record :=
  if IsField 2 0 q then
    (Wire.varint q.2.body).map fun v => { s with severityNumber := some (asI32 (v.1 % 2 ^ 64)) }
  else if IsField 5 2 q then
    (anyValueText (payload q)).map fun
      | some text => { s with body := text }
      | none => s
  else if IsField 6 2 q then (keyValue (payload q)).map fun attr => { s with attrs := s.attrs ++ attr.toList }
  else if IsField 9 2 q then
    some (if (payload q).bytes.length = 16 ∨ (payload q).bytes.length = 32 then
      { s with traceId := some (payload q) } else s)
  else some s

def record (t : Text) (res : Resource) : Option Record :=
  readFields recordStep t { text := t, body := ⟨t.pos, []⟩, resource := res }

def scopeStep (res : Resource) (out : List Record) (q : Nat × Field) : Option (List Record) :=
  if IsField 2 2 q then (record (payload q) res).map fun r => out ++ [r] else some out

def scopeLogs (res : Resource) (out : List Record) (t : Text) : Option (List Record) :=
  readFields (scopeStep res) t out

def resourceLogsStep (s : Resource × List Text) (q : Nat × Field) : Option (Resource × List Text) :=
  if IsField 1 2 q then (resource (payload q)).map fun res => (res, s.2)
  else if IsField 2 2 q then some (s.1, s.2 ++ [payload q])
  else some s

def resourceLogs (out : List Record) (t : Text) : Option (List Record) :=
  (readFields resourceLogsStep t ({}, [])).bind fun s => s.2.foldlM (scopeLogs s.1) out

def requestStep (out : List Record) (q : Nat × Field) : Option (List Record) :=
  if IsField 1 2 q then resourceLogs out (payload q) else some out

/-- The records of a request, in the order the walker visits them. -/
def records (bs : Bytes) : Option (List Record) := readFields requestStep ⟨0, bs⟩ []

/-! ### The fields of a record -/

section Record
variable {s s' : Record} {q : Nat × Field}

theorem recordStep_severity (is : IsField 2 0 q) : recordStep s q =
    (Wire.varint q.2.body).map fun v => { s with severityNumber := some (asI32 (v.1 % 2 ^ 64)) } := if_pos is

theorem recordStep_body (is : IsField 5 2 q) : recordStep s q =
    (anyValueText (payload q)).map fun | some text => { s with body := text } | none => s := by
  rw [recordStep, if_neg (is.other (by decide)), if_pos is]

theorem recordStep_attr (is : IsField 6 2 q) : recordStep s q =
    (keyValue (payload q)).map fun attr => { s with attrs := s.attrs ++ attr.toList } := by
  rw [recordStep, if_neg (is.other (by decide)), if_neg (is.other (by decide)), if_pos is]

theorem recordStep_trace (is : IsField 9 2 q) : recordStep s q =
    some (if (payload q).bytes.length = 16 ∨ (payload q).bytes.length = 32 then
      { s with traceId := some (payload q) } else s) := by
  rw [recordStep, if_neg (is.other (by decide)), if_neg (is.other (by decide)), if_neg (is.other (by decide)),
    if_pos is]

theorem recordStep_other (severity : ¬ IsField 2 0 q) (body : ¬ IsField 5 2 q) (attr : ¬ IsField 6 2 q)
    (trace : ¬ IsField 9 2 q) : recordStep s q = some s := by
  rw [recordStep, if_neg severity, if_neg body, if_neg attr, if_neg trace]

theorem recordStep_cases (h : recordStep s q = some s') :
    (IsField 2 0 q ∧ ∃ v n, Wire.varint q.2.body = some (v, n) ∧
      s' = { s with severityNumber := some (asI32 (v % 2 ^ 64)) }) ∨
    (IsField 5 2 q ∧ ∃ text, anyValueText (payload q) = some text ∧ s' = { s with body := text.getD s.body }) ∨
    (IsField 6 2 q ∧ ∃ attr, keyValue (payload q) = some attr ∧ s' = { s with attrs := s.attrs ++ attr.toList }) ∨
    (IsField 9 2 q ∧ s' = if (payload q).bytes.length = 16 ∨ (payload q).bytes.length = 32 then
      { s with traceId := some (payload q) } else s) ∨
    (¬ IsField 2 0 q ∧ ¬ IsField 5 2 q ∧ ¬ IsField 6 2 q ∧ ¬ IsField 9 2 q ∧ s' = s) := by
  by_cases severity : IsField 2 0 q
  · rw [recordStep_severity severity] at h
    obtain ⟨⟨v, n⟩, read, rfl⟩ := Option.map_eq_some_iff.mp h
    exact .inl ⟨severity, v, n, read, rfl⟩
  by_cases body : IsField 5 2 q
  · rw [recordStep_body body] at h
    obtain ⟨text, read, rfl⟩ := Option.map_eq_some_iff.mp h
    refine .inr (.inl ⟨body, text, read, ?_⟩)
    cases text <;> rfl
  by_cases attr : IsField 6 2 q
  · rw [recordStep_attr attr] at h
    obtain ⟨a, read, rfl⟩ := Option.map_eq_some_iff.mp h
    exact .inr (.inr (.inl ⟨attr, a, read, rfl⟩))
  by_cases trace : IsField 9 2 q
  · rw [recordStep_trace trace] at h
    exact .inr (.inr (.inr (.inl ⟨trace, (Option.some.inj h).symm⟩)))
  · rw [recordStep_other severity body attr trace] at h
    exact .inr (.inr (.inr (.inr ⟨severity, body, attr, trace, (Option.some.inj h).symm⟩)))

theorem recordStep_frame (h : recordStep s q = some s') : s'.text = s.text ∧ s'.resource = s.resource := by
  rcases recordStep_cases h with ⟨-, _, _, -, rfl⟩ | ⟨-, _, -, rfl⟩ | ⟨-, _, -, rfl⟩ | ⟨-, rfl⟩ |
    ⟨-, -, -, -, rfl⟩
  · exact ⟨rfl, rfl⟩
  · exact ⟨rfl, rfl⟩
  · exact ⟨rfl, rfl⟩
  · split <;> exact ⟨rfl, rfl⟩
  · exact ⟨rfl, rfl⟩

theorem record_frame {t : Text} {res : Resource} {r : Record} (h : record t res = some r) :
    r.text = t ∧ r.resource = res :=
  readFields_invariant (fun s => s.text = t ∧ s.resource = res) h
    (fun _ _ _ _ _ _ step kept => by rw [(recordStep_frame step).1, (recordStep_frame step).2]; exact kept) ⟨rfl, rfl⟩

end Record

/-! ### Views -/

def Attr.view (a : Attr) : AttrView := ⟨a.key.range, a.value.range⟩

def Resource.view (r : Resource) : ResourceAttrs :=
  ⟨r.namespaceName.map Text.range, r.serviceName.map Text.range⟩

def Record.view (r : Record) : RecordView where
  body := r.body.range
  traceId := r.traceId.map Text.range
  attrs := r.attrs.map Attr.view
  severityNumber := r.severityNumber
  namespaceName := r.resource.view.namespaceName
  serviceName := r.resource.view.serviceName

structure Attr.In (buf : Bytes) (a : Attr) : Prop where
  key : a.key.In buf
  value : a.value.In buf

structure Resource.In (buf : Bytes) (r : Resource) : Prop where
  namespaceName : ∀ t ∈ r.namespaceName, t.In buf
  serviceName : ∀ t ∈ r.serviceName, t.In buf

structure Record.In (buf : Bytes) (r : Record) : Prop where
  body : r.body.In buf
  traceId : ∀ t ∈ r.traceId, t.In buf
  attrs : ∀ a ∈ r.attrs, a.In buf
  resource : r.resource.In buf

theorem Resource.In.empty (buf : Bytes) : Resource.In buf {} := ⟨by simp, by simp⟩

theorem Resource.In.add {buf : Bytes} {r : Resource} (h : r.In buf) {o : Option Attr}
    (ho : ∀ a ∈ o, a.In buf) : (r.add o).In buf := by
  cases o with
  | none => exact h
  | some a =>
    have value := (ho a rfl).value
    simp only [Resource.add]
    split
    · exact ⟨by simpa using value, h.serviceName⟩
    · split
      · exact ⟨h.namespaceName, by simpa using value⟩
      · exact h

/-! ### Strings -/

section Loops
variable {buf : Bytes} {t : Text}

abbrev Views (buf : Bytes) (o : Option Text) (r : Option Range) : Prop :=
  r = o.map Text.range ∧ ∀ u ∈ o, u.In buf

theorem anyValueText_skip {f : Field} {rest : Bytes} (hx : next t.bytes = some (f, rest))
    (other : ¬ IsField 1 2 (t.pos, f)) : anyValueText t = anyValueText ⟨t.pos + f.size, rest⟩ := by
  simp only [anyValueText, scan_some hx, locate, List.find?_cons, decide_eq_false other]

theorem anyValueText_string {f : Field} {rest : Bytes} (hx : next t.bytes = some (f, rest))
    (string : IsField 1 2 (t.pos, f)) : anyValueText t = some (some (payload (t.pos, f))) := by
  simp only [anyValueText, scan_some hx, locate, List.find?_cons, decide_eq_true string]

theorem anyValueLoop_meets (n : Nat) (bs : Bytes) (hn : bs.length ≤ n) {c : WireCursor}
    (sees : Sees c bs) : Meets (Views c.buf) (anyValueLoop n c) (anyValueText ⟨c.pos, bs⟩) := by
  induction bs using scan_induction generalizing n c with
  | nil =>
    have ends : anyValueLoop n c = .ok none := by
      cases n <;> simp only [anyValueLoop, WireCursor.done_eq sees, List.isEmpty_nil, ↓reduceIte]
    rw [ends]
    exact meets_ok (b := none) ⟨rfl, by simp⟩
  | stop bs nonempty stuck =>
    have long := List.length_pos_iff.mpr nonempty
    obtain ⟨n, rfl⟩ : ∃ k, n = k + 1 := ⟨n - 1, by omega⟩
    have shut : anyValueText ⟨c.pos, bs⟩ = none := by
      simp [anyValueText, scan_none nonempty stuck, locate]
    rw [shut]
    simp only [anyValueLoop, WireCursor.done_eq sees, List.isEmpty_iff, nonempty, ↓reduceIte]
    rcases WireCursor.tag_stuck sees stuck with failed | ⟨m, w, c', _, read, after, missing⟩
    · exact Fails.bind failed _
    · rw [read]
      exact Fails.ite (fun string => (WireCursor.lenRange_fails after missing string.2).bind _)
        ((WireCursor.skip_fails after missing).bind _)
  | step bs f rest hx ih =>
    have nonempty : bs ≠ [] := List.length_pos_iff.mp (by have := next_shorter hx; omega)
    obtain ⟨n, rfl⟩ : ∃ k, n = k + 1 := ⟨n - 1, by have := next_shorter hx; omega⟩
    obtain ⟨read, inside, after⟩ := WireCursor.tag_field sees hx
    simp only [anyValueLoop, WireCursor.done_eq sees, List.isEmpty_iff, nonempty, ↓reduceIte, read]
    show Meets _ (if f.number % 2 ^ 32 = 1 ∧ f.wire = 2 then _ else _) _
    by_cases string : IsField 1 2 (c.pos, f)
    · rw [if_pos string, anyValueText_string hx string, inside.lenRange string.2]
      exact meets_ok ⟨rfl, by simpa using inside.payload⟩
    · rw [if_neg string, anyValueText_skip hx string, inside.skip]
      exact ih n (by have := next_shorter hx; omega) after

theorem anyValueString_meets (stands : t.In buf) :
    Meets (Views buf) (anyValueString buf t.range) (anyValueText t) :=
  anyValueLoop_meets _ t.bytes (by simp [Text.range]) (c := WireCursor.new buf t.range) ⟨stands, rfl⟩

theorem parseKeyValueField_follows (buf : Bytes) :
    WireCursor.Follows (fun _ (b : Option Text × Option Text) s => Views buf b.1 s.1 ∧ Views buf b.2 s.2) buf
      (parseKeyValueField buf) keyValueStep where
  field := by
    intro p f rest c b s same inside related
    unfold parseKeyValueField keyValueStep
    by_cases key : IsField 1 2 (p, f)
    · rw [if_pos key, if_pos key, inside.lenRange key.2]
      exact meets_ok ⟨⟨⟨rfl, by simpa [same] using inside.payload⟩, related.2⟩, rfl⟩
    rw [if_neg key, if_neg key]
    by_cases value : IsField 2 2 (p, f)
    · rw [if_pos value, if_pos value, inside.lenRange value.2]
      refine (anyValueString_meets (same ▸ inside.payload)).map fun o r _ views => ?_
      exact ⟨_, rfl, ⟨related.1, views⟩, rfl⟩
    · rw [if_neg value, if_neg value, inside.skip]
      exact meets_ok ⟨related, rfl⟩
  stuck := by
    intro p n w bs c s sees missing
    exact Fails.ite (fun key => (WireCursor.lenRange_fails sees missing key.2).bind _)
      (Fails.ite (fun value => (WireCursor.lenRange_fails sees missing value.2).bind _)
        ((WireCursor.skip_fails sees missing).bind _))

theorem parseKeyValue_meets (stands : t.In buf) :
    Meets (fun (o : Option Attr) r => r = o.map Attr.view ∧ ∀ a ∈ o, a.In buf) (parseKeyValue buf t.range)
      (keyValue t) := by
  refine (WireCursor.walk_meets id (parseKeyValueField_follows buf) stands
    (b := (none, none)) ⟨⟨rfl, by simp⟩, ⟨rfl, by simp⟩⟩).map fun b s _ related => ?_
  obtain ⟨key, value⟩ := b
  obtain ⟨⟨key', keyIn⟩, ⟨value', valueIn⟩⟩ := related
  obtain ⟨k, v⟩ := s
  simp only at key' value'
  subst key' value'
  cases key with
  | none => exact ⟨_, rfl, rfl, by simp [pairUp]⟩
  | some key =>
    cases value with
    | none => exact ⟨_, rfl, rfl, by simp [pairUp]⟩
    | some value => exact ⟨_, rfl, rfl, by simpa [pairUp] using ⟨keyIn key rfl, valueIn value rfl⟩⟩

/-! ### Resources and records -/

theorem parseResourceAttrsField_follows (buf : Bytes) :
    WireCursor.Follows (fun _ (b : Resource) s => s = b.view ∧ b.In buf) buf
      (parseResourceAttrsField buf) resourceStep where
  field := by
    intro p f rest c b s same inside related
    obtain ⟨rfl, held⟩ := related
    unfold parseResourceAttrsField resourceStep
    by_cases attr : IsField 1 2 (p, f)
    · rw [if_pos attr, if_pos attr, inside.lenRange attr.2]
      refine (parseKeyValue_meets (same ▸ inside.payload)).map fun o r _ read => ?_
      obtain ⟨rfl, views⟩ := read
      cases o with
      | none => exact ⟨_, rfl, ⟨rfl, held⟩, rfl⟩
      | some a =>
        have key : a.view.key.get buf = some a.key.bytes := (views a rfl).key.get
        have added := held.add (o := some a) views
        simp only [Option.map_some, key, Option.some.injEq]
        simp only [Resource.add] at added ⊢
        split <;> rename_i isNamespace
        · exact ⟨_, rfl, ⟨rfl, by simpa only [isNamespace, ↓reduceIte] using added⟩, rfl⟩
        rw [if_neg isNamespace] at added
        split <;> rename_i isService
        · exact ⟨_, rfl, ⟨rfl, by rwa [if_pos isService] at added⟩, rfl⟩
        · exact ⟨_, rfl, ⟨rfl, held⟩, rfl⟩
    · rw [if_neg attr, if_neg attr, inside.skip]
      exact meets_ok ⟨⟨rfl, held⟩, rfl⟩
  stuck := by
    intro p n w bs c s sees missing
    exact Fails.ite (fun attr => (WireCursor.lenRange_fails sees missing attr.2).bind _)
      ((WireCursor.skip_fails sees missing).bind _)

theorem parseResourceAttrs_meets (stands : t.In buf) :
    Meets (fun (b : Resource) s => s = b.view ∧ b.In buf) (parseResourceAttrs buf t.range) (resource t) :=
  WireCursor.walk_meets id (parseResourceAttrsField_follows buf) stands ⟨rfl, Resource.In.empty buf⟩

/-- The walker's state in a record, and the resource the record belongs to. -/
def RecordState (buf : Bytes) (res : Resource) (b : Record) (s : LogRecordState) : Prop :=
  s = ⟨b.body.range, b.traceId.map Text.range, b.severityNumber, b.attrs.map Attr.view⟩ ∧ b.In buf ∧
    b.resource = res

theorem parseLogRecordField_follows (buf : Bytes) (res : Resource) :
    WireCursor.Follows (fun _ b s => RecordState buf res b s) buf (parseLogRecordField buf) recordStep where
  field := by
    intro p f rest c b s same inside related
    obtain ⟨rfl, held, of⟩ := related
    unfold parseLogRecordField recordStep
    by_cases severity : IsField 2 0 (p, f)
    · rw [if_pos severity, if_pos severity]
      obtain ⟨v, n, hv, read⟩ := inside.varint severity.2
      rw [read, hv]
      exact meets_ok ⟨⟨rfl, ⟨held.body, held.traceId, held.attrs, held.resource⟩, of⟩, rfl⟩
    rw [if_neg severity, if_neg severity]
    by_cases body : IsField 5 2 (p, f)
    · rw [if_pos body, if_pos body, inside.lenRange body.2]
      refine (anyValueString_meets (same ▸ inside.payload)).map fun o r _ views => ?_
      obtain ⟨rfl, views⟩ := views
      cases o with
      | none => exact ⟨_, rfl, ⟨rfl, held, of⟩, rfl⟩
      | some text =>
        exact ⟨_, rfl, ⟨rfl, ⟨views text rfl, held.traceId, held.attrs, held.resource⟩, of⟩, rfl⟩
    rw [if_neg body, if_neg body]
    by_cases attr : IsField 6 2 (p, f)
    · rw [if_pos attr, if_pos attr, inside.lenRange attr.2]
      refine (parseKeyValue_meets (same ▸ inside.payload)).map fun o r _ read => ?_
      obtain ⟨rfl, views⟩ := read
      cases o with
      | none => exact ⟨_, rfl, ⟨by simp, ⟨held.body, held.traceId, by simpa using held.attrs, held.resource⟩, of⟩, rfl⟩
      | some a =>
        refine ⟨_, rfl, ⟨by simp, ⟨held.body, held.traceId, ?_, held.resource⟩, of⟩, rfl⟩
        simp only [Option.toList_some, List.mem_append, List.mem_singleton]
        rintro a' (old | rfl)
        · exact held.attrs a' old
        · exact views a' rfl
    rw [if_neg attr, if_neg attr]
    by_cases trace : IsField 9 2 (p, f)
    · rw [if_pos trace, if_pos trace, inside.lenRange trace.2]
      simp only [bind, Except.bind, Text.len_range]
      by_cases sized : (payload (p, f)).bytes.length = 16 ∨ (payload (p, f)).bytes.length = 32
      · rw [if_pos sized, if_pos sized]
        refine meets_ok ⟨⟨rfl, ⟨held.body, ?_, held.attrs, held.resource⟩, of⟩, rfl⟩
        simpa [same] using inside.payload
      · rw [if_neg sized, if_neg sized]
        exact meets_ok ⟨⟨rfl, held, of⟩, rfl⟩
    · rw [if_neg trace, if_neg trace, inside.skip]
      exact meets_ok ⟨⟨rfl, held, of⟩, rfl⟩
  stuck := by
    intro p n w bs c s sees missing
    exact Fails.ite (fun severity => (WireCursor.varint_fails sees missing severity.2).bind _)
      (Fails.ite (fun body => (WireCursor.lenRange_fails sees missing body.2).bind _)
        (Fails.ite (fun attr => (WireCursor.lenRange_fails sees missing attr.2).bind _)
          (Fails.ite (fun trace => (WireCursor.lenRange_fails sees missing trace.2).bind _)
            ((WireCursor.skip_fails sees missing).bind _))))

theorem parseLogRecord_meets (stands : t.In buf) {res : Resource} (held : res.In buf) :
    Meets (fun (b : Record) s => s = b.view ∧ b.In buf) (parseLogRecord buf t.range res.view) (record t res) := by
  have start : RecordState buf res { text := t, body := ⟨t.pos, []⟩, resource := res }
      { body := ⟨t.pos, t.pos⟩ } :=
    ⟨rfl, ⟨(@At.left _ [] t.bytes) stands, by simp, by simp, held⟩, rfl⟩
  refine (WireCursor.walk_meets id (parseLogRecordField_follows buf res) stands start).andThen
    fun b s _ related => ?_
  obtain ⟨rfl, held', rfl⟩ := related
  exact ⟨_, rfl, rfl, held'⟩

/-! ### Containers -/

abbrev RecordViews (buf : Bytes) (b : List Record) (s : List RecordView) : Prop :=
  s = b.map Record.view ∧ ∀ r ∈ b, r.In buf

theorem RecordViews.snoc {b : List Record} {s : List RecordView} (h : RecordViews buf b s) {r : Record}
    (held : r.In buf) : RecordViews buf (b ++ [r]) (s ++ [r.view]) := by
  refine ⟨by simp [h.1], ?_⟩
  simp only [List.mem_append, List.mem_singleton]
  rintro r' (old | rfl)
  · exact h.2 r' old
  · exact held

theorem parseScopeLogsField_follows {res : Resource} (held : res.In buf) :
    WireCursor.Follows (fun _ b s => RecordViews buf b s) buf (parseScopeLogsField buf res.view)
      (scopeStep res) where
  field := by
    intro p f rest c b s same inside related
    unfold parseScopeLogsField scopeStep
    by_cases rec : IsField 2 2 (p, f)
    · rw [if_pos rec, if_pos rec, inside.lenRange rec.2]
      refine (parseLogRecord_meets (same ▸ inside.payload) held).map fun r view _ read => ?_
      obtain ⟨rfl, inBuf⟩ := read
      exact ⟨_, rfl, related.snoc inBuf, rfl⟩
    · rw [if_neg rec, if_neg rec, inside.skip]
      exact meets_ok ⟨related, rfl⟩
  stuck := by
    intro p n w bs c s sees missing
    exact Fails.ite (fun rec => (WireCursor.lenRange_fails sees missing rec.2).bind _)
      ((WireCursor.skip_fails sees missing).bind _)

theorem parseScopes_meets {res : Resource} (held : res.In buf) {scopes : List Text}
    (stands : ∀ t ∈ scopes, t.In buf) {out : List Record} {views : List RecordView}
    (related : RecordViews buf out views) :
    Meets (RecordViews buf) (parseScopes buf res.view (scopes.map Text.range) views)
      (scopes.foldlM (scopeLogs res) out) := by
  induction scopes generalizing out views with
  | nil => exact meets_ok related
  | cons t scopes ih =>
    simp only [List.mem_cons, forall_eq_or_imp] at stands
    rw [List.foldlM_cons]
    refine (WireCursor.walk_meets id (parseScopeLogsField_follows held) stands.1 related).bind
      fun out' views' _ related' => ?_
    exact ih stands.2 related'

theorem parseResourceLogsField_follows (buf : Bytes) :
    WireCursor.Follows (fun _ (b : Resource × List Text) s =>
        s = (b.1.view, b.2.map Text.range) ∧ b.1.In buf ∧ ∀ t ∈ b.2, t.In buf) buf
      (parseResourceLogsField buf) resourceLogsStep where
  field := by
    intro p f rest c b s same inside related
    obtain ⟨rfl, held, stands⟩ := related
    unfold parseResourceLogsField resourceLogsStep
    by_cases res : IsField 1 2 (p, f)
    · rw [if_pos res, if_pos res, inside.lenRange res.2]
      refine (parseResourceAttrs_meets (same ▸ inside.payload)).map fun r view _ read => ?_
      obtain ⟨rfl, inBuf⟩ := read
      exact ⟨_, rfl, ⟨rfl, inBuf, stands⟩, rfl⟩
    rw [if_neg res, if_neg res]
    by_cases scope : IsField 2 2 (p, f)
    · rw [if_pos scope, if_pos scope, inside.lenRange scope.2]
      refine meets_ok ⟨⟨by simp, held, ?_⟩, rfl⟩
      simp only [List.mem_append, List.mem_singleton]
      rintro t (old | rfl)
      · exact stands t old
      · exact same ▸ inside.payload
    · rw [if_neg scope, if_neg scope, inside.skip]
      exact meets_ok ⟨⟨rfl, held, stands⟩, rfl⟩
  stuck := by
    intro p n w bs c s sees missing
    exact Fails.ite (fun res => (WireCursor.lenRange_fails sees missing res.2).bind _)
      (Fails.ite (fun scope => (WireCursor.lenRange_fails sees missing scope.2).bind _)
        ((WireCursor.skip_fails sees missing).bind _))

theorem parseResourceLogs_meets (stands : t.In buf) {out : List Record} {views : List RecordView}
    (related : RecordViews buf out views) :
    Meets (RecordViews buf) (parseResourceLogs buf t.range views) (resourceLogs out t) := by
  refine (WireCursor.walk_meets id (parseResourceLogsField_follows buf) stands (b := ({}, []))
    ⟨rfl, Resource.In.empty buf, by simp⟩).bind fun b s _ read => ?_
  obtain ⟨rfl, held, scopes⟩ := read
  exact parseScopes_meets held scopes related

theorem parseRequestField_follows (buf : Bytes) :
    WireCursor.Follows (fun _ b s => RecordViews buf b s) buf (parseRequestField buf) requestStep where
  field := by
    intro p f rest c b s same inside related
    unfold parseRequestField requestStep
    by_cases res : IsField 1 2 (p, f)
    · rw [if_pos res, if_pos res, inside.lenRange res.2]
      refine (parseResourceLogs_meets (same ▸ inside.payload) related).andThen fun out views _ read => ?_
      exact ⟨_, rfl, read, rfl⟩
    · rw [if_neg res, if_neg res, inside.skip]
      exact meets_ok ⟨related, rfl⟩
  stuck := by
    intro p n w bs c s sees missing
    exact Fails.ite (fun res => (WireCursor.lenRange_fails sees missing res.2).bind _)
      ((WireCursor.skip_fails sees missing).bind _)

end Loops

/-- The parser returns the views of the records that stand in the buffer, or an error: it never
panics, and it always ends. -/
theorem parseExportLogsRequest_meets (buf : Bytes) :
    Meets (RecordViews buf) (parseExportLogsRequest buf []) (records buf) := by
  have whole := WireCursor.walk_meets id (parseRequestField_follows buf) (t := ⟨0, buf⟩) (at_self buf)
    (b := []) (s := []) ⟨rfl, by simp⟩
  unfold parseExportLogsRequest records
  simpa only [Text.range, Nat.zero_add] using whole

theorem parseExportLogsRequest_ok {buf : Bytes} {views : List RecordView} :
    parseExportLogsRequest buf [] = .ok views ↔ ∃ rs, records buf = some rs ∧ views = rs.map Record.view := by
  have read := parseExportLogsRequest_meets buf
  constructor
  · intro parsed
    obtain ⟨rs, found, rfl, -⟩ := read.of_ok parsed
    exact ⟨rs, found, rfl⟩
  · rintro ⟨rs, found, rfl⟩
    rw [found] at read
    obtain ⟨views, parsed, rfl, -⟩ := read
    exact parsed

theorem records_in {buf : Bytes} {rs : List Record} (found : records buf = some rs) : ∀ r ∈ rs, r.In buf := by
  have read := parseExportLogsRequest_meets buf
  rw [found] at read
  obtain ⟨views, -, -, held⟩ := read
  exact held

end ArchivAgent
