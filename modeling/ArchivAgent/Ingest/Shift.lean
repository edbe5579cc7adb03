import ArchivAgent.Ingest.Reading

/-!
# Reading further on

A message that stands further on in a buffer reads to the same texts, further on by as much. Two
requests behind one another read to the records of the first and, further on, those of the second.
-/

namespace ArchivAgent
open Wire

def Attr.shift (d : Nat) (a : Attr) : Attr := ⟨a.key.shift d, a.value.shift d⟩

def Resource.shift (d : Nat) (r : Resource) : Resource :=
  ⟨r.namespaceName.map (Text.shift d), r.serviceName.map (Text.shift d)⟩

def Record.shift (d : Nat) (r : Record) : Record where
  text := r.text.shift d
  body := r.body.shift d
  traceId := r.traceId.map (Text.shift d)
  severityNumber := r.severityNumber
  attrs := r.attrs.map (Attr.shift d)
  resource := r.resource.shift d

section Shift
variable (d : Nat)

theorem anyValueText_shift (t : Text) : anyValueText (t.shift d) = (anyValueText t).map (Option.map (Text.shift d)) := by
  unfold anyValueText
  rw [Text.shift_bytes, show (t.shift d).pos = t.pos + d from rfl, locate_shift, List.find?_map]
  have same : (fun q : Nat × Field => decide (IsField 1 2 q)) ∘ (fun q => (q.1 + d, q.2))
      = fun q => decide (IsField 1 2 q) := rfl
  rw [same]
  cases (locate t.pos (scan t.bytes).1).find? (IsField 1 2) with
  | none =>
    simp only [Option.map_none]
    split <;> rfl
  | some q => simp only [Option.map_some, payload_shift]

theorem keyValueStep_shift (s : Option Text × Option Text) (q : Nat × Field) :
    keyValueStep (s.1.map (Text.shift d), s.2.map (Text.shift d)) (q.1 + d, q.2)
      = (keyValueStep s q).map fun s => (s.1.map (Text.shift d), s.2.map (Text.shift d)) := by
  unfold keyValueStep
  by_cases key : IsField 1 2 q
  · rw [if_pos key, if_pos (show IsField 1 2 (q.1 + d, q.2) from key), payload_shift]
    rfl
  rw [if_neg key, if_neg (show ¬ IsField 1 2 (q.1 + d, q.2) from key)]
  by_cases value : IsField 2 2 q
  · rw [if_pos value, if_pos (show IsField 2 2 (q.1 + d, q.2) from value), payload_shift, anyValueText_shift,
      Option.map_map, Option.map_map]
    rfl
  · rw [if_neg value, if_neg (show ¬ IsField 2 2 (q.1 + d, q.2) from value)]
    rfl

theorem keyValue_shift (t : Text) : keyValue (t.shift d) = (keyValue t).map (Option.map (Attr.shift d)) := by
  unfold keyValue
  have read := readFields_shift (keyValueStep_shift d) t (none, none)
  simp only [Option.map_none] at read
  rw [read, Option.map_map, Option.map_map]
  congr 1
  funext s
  obtain ⟨key, value⟩ := s
  cases key <;> cases value <;> rfl

theorem Resource.add_shift (r : Resource) (o : Option Attr) :
    (r.shift d).add (o.map (Attr.shift d)) = (r.add o).shift d := by
  cases o with
  | none => rfl
  | some a =>
    have key : (a.shift d).key.bytes = a.key.bytes := rfl
    simp only [Option.map_some, Resource.add, key]
    by_cases ns : a.key.bytes = k8sNamespaceName
    · rw [if_pos ns, if_pos ns]
      rfl
    rw [if_neg ns, if_neg ns]
    by_cases svc : a.key.bytes = serviceNameKey
    · rw [if_pos svc, if_pos svc]
      rfl
    · rw [if_neg svc, if_neg svc]

theorem resource_shift (t : Text) : resource (t.shift d) = (resource t).map (Resource.shift d) := by
  refine readFields_shift (σ := Resource.shift d) (fun r q => ?_) t {}
  unfold resourceStep
  by_cases attr : IsField 1 2 q
  · rw [if_pos attr, if_pos (show IsField 1 2 (q.1 + d, q.2) from attr), payload_shift, keyValue_shift, Option.map_map,
      Option.map_map]
    congr 1
    funext o
    exact r.add_shift d o
  · rw [if_neg attr, if_neg (show ¬ IsField 1 2 (q.1 + d, q.2) from attr)]
    rfl

theorem recordStep_shift (r : Record) (q : Nat × Field) :
    recordStep (r.shift d) (q.1 + d, q.2) = (recordStep r q).map (Record.shift d) := by
  by_cases severity : IsField 2 0 q
  · rw [recordStep_severity severity, recordStep_severity (q := (q.1 + d, q.2)) severity, Option.map_map]
    rfl
  by_cases body : IsField 5 2 q
  · rw [recordStep_body body, recordStep_body (q := (q.1 + d, q.2)) body, payload_shift, anyValueText_shift,
      Option.map_map, Option.map_map]
    congr 1
    funext o
    cases o <;> rfl
  by_cases attr : IsField 6 2 q
  · rw [recordStep_attr attr, recordStep_attr (q := (q.1 + d, q.2)) attr, payload_shift, keyValue_shift,
      Option.map_map, Option.map_map]
    congr 1
    funext o
    cases o <;> simp [Record.shift]
  by_cases trace : IsField 9 2 q
  · rw [recordStep_trace trace, recordStep_trace (q := (q.1 + d, q.2)) trace, payload_shift, Text.shift_bytes]
    split <;> rfl
  · rw [recordStep_other severity body attr trace, recordStep_other (q := (q.1 + d, q.2)) severity body attr trace]
    rfl

theorem record_shift (t : Text) (res : Resource) :
    record (t.shift d) (res.shift d) = (record t res).map (Record.shift d) :=
  readFields_shift (σ := Record.shift d) (recordStep_shift d) t { text := t, body := ⟨t.pos, []⟩, resource := res }

/-! ### Records behind records -/

/-- The records found before, and those of the message further on. -/
def behind (pre out : List Record) : List Record := pre ++ out.map (Record.shift d)

theorem scopeLogs_shift (pre out : List Record) (res : Resource) (t : Text) :
    scopeLogs (res.shift d) (behind d pre out) (t.shift d) = (scopeLogs res out t).map (behind d pre) := by
  refine readFields_shift (σ := behind d pre) (fun out q => ?_) t out
  unfold scopeStep
  by_cases rec : IsField 2 2 q
  · rw [if_pos rec, if_pos (show IsField 2 2 (q.1 + d, q.2) from rec), payload_shift, record_shift, Option.map_map,
      Option.map_map]
    congr 1
    funext r
    simp [behind]
  · rw [if_neg rec, if_neg (show ¬ IsField 2 2 (q.1 + d, q.2) from rec)]
    rfl

theorem resourceLogsStep_shift (s : Resource × List Text) (q : Nat × Field) :
    resourceLogsStep (s.1.shift d, s.2.map (Text.shift d)) (q.1 + d, q.2)
      = (resourceLogsStep s q).map fun s => (s.1.shift d, s.2.map (Text.shift d)) := by
  unfold resourceLogsStep
  by_cases res : IsField 1 2 q
  · rw [if_pos res, if_pos (show IsField 1 2 (q.1 + d, q.2) from res), payload_shift, resource_shift, Option.map_map,
      Option.map_map]
    rfl
  rw [if_neg res, if_neg (show ¬ IsField 1 2 (q.1 + d, q.2) from res)]
  by_cases scope : IsField 2 2 q
  · rw [if_pos scope, if_pos (show IsField 2 2 (q.1 + d, q.2) from scope), payload_shift]
    simp
  · rw [if_neg scope, if_neg (show ¬ IsField 2 2 (q.1 + d, q.2) from scope)]
    rfl

theorem resourceLogs_shift (pre out : List Record) (t : Text) :
    resourceLogs (behind d pre out) (t.shift d) = (resourceLogs out t).map (behind d pre) := by
  unfold resourceLogs
  have collected : readFields resourceLogsStep (t.shift d) ({}, [])
      = (readFields resourceLogsStep t ({}, [])).map fun s => (s.1.shift d, s.2.map (Text.shift d)) :=
    readFields_shift (resourceLogsStep_shift d) t ({}, [])
  have visited : ∀ (res : Resource) (scopes : List Text) (out : List Record),
      (scopes.map (Text.shift d)).foldlM (scopeLogs (res.shift d)) (behind d pre out)
        = (scopes.foldlM (scopeLogs res) out).map (behind d pre) := by
    intro res scopes
    induction scopes with
    | nil => exact fun out => rfl
    | cons sl scopes ih =>
      intro out
      rw [List.map_cons, List.foldlM_cons, List.foldlM_cons, scopeLogs_shift]
      cases scopeLogs res out sl with
      | none => rfl
      | some out => exact ih out
  rw [collected]
  cases readFields resourceLogsStep t ({}, []) with
  | none => rfl
  | some s => exact visited s.1 s.2 out

end Shift

theorem records_append {as bs : Bytes} {rs ss : List Record} (front : records as = some rs) (back : records bs = some ss) :
    records (as ++ bs) = some (rs ++ ss.map (Record.shift as.length)) := by
  unfold records at front back ⊢
  obtain ⟨fs, readA, -⟩ := readFields_member front
  obtain ⟨gs, readB, -⟩ := readFields_member back
  have further := (@readFields_shift _ requestStep _ requestStep (behind as.length rs) as.length) (fun out q => by
    unfold requestStep
    by_cases res : IsField 1 2 q
    · rw [if_pos res, if_pos (show IsField 1 2 (q.1 + as.length, q.2) from res), payload_shift, resourceLogs_shift]
    · rw [if_neg res, if_neg (show ¬ IsField 1 2 (q.1 + as.length, q.2) from res)]
      rfl) ⟨0, bs⟩ []
  rw [readFields_append readA readB, front, Option.bind_some]
  simp only [behind, List.map_nil, List.append_nil, back, Option.map_some] at further
  exact further

end ArchivAgent
