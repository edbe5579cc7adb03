import ArchivAgent.Ingest.Inputs

/-!
# What a request says

The records of a request and what each of them says, as functions of the bytes alone: where a
message stands plays no part, and of a message only the bodies of its fields do, kind by kind.
-/

namespace ArchivAgent
open Wire

/-- What a record says, wherever it stands. -/
structure Content where
  body : Bytes
  traceId : Option Bytes
  severityNumber : Option Int
  attrs : List (Bytes × Bytes)
  namespaceName : Option Bytes
  serviceName : Option Bytes
  deriving DecidableEq, Repr

def Record.content (r : Record) : Content where
  body := r.body.bytes
  traceId := r.traceId.map Text.bytes
  severityNumber := r.severityNumber
  attrs := r.attrs.map fun a => (a.key.bytes, a.value.bytes)
  namespaceName := r.resource.namespaceName.map Text.bytes
  serviceName := r.resource.serviceName.map Text.bytes

/-- What a view says of the buffer it points into. -/
def RecordView.content (v : RecordView) (raw : Bytes) : Content where
  body := (v.body.get raw).getD []
  traceId := v.traceId.bind (·.get raw)
  severityNumber := v.severityNumber
  attrs := v.attrs.map fun a => ((a.key.get raw).getD [], (a.value.get raw).getD [])
  namespaceName := v.namespaceBytes raw
  serviceName := v.serviceNameBytes raw

theorem view_content {raw : Bytes} {r : Record} (held : r.In raw) : r.view.content raw = r.content := by
  have attrs : (r.attrs.map fun a => ((a.key.range.get raw).getD [], (a.value.range.get raw).getD []))
      = r.attrs.map fun a => (a.key.bytes, a.value.bytes) :=
    List.map_congr_left fun a member => by
      rw [(held.attrs a member).key.get, (held.attrs a member).value.get]; rfl
  have body : r.body.range.get raw = some r.body.bytes := held.body.get
  simp only [RecordView.content, Record.content, Record.view, body, Option.getD_some, List.map_map,
    Function.comp_def, Attr.view, attrs, Text.get_optional held.traceId, Content.mk.injEq, true_and]
  exact ⟨Text.get_optional held.resource.namespaceName, Text.get_optional held.resource.serviceName⟩

theorem pairUp_map {γ δ : Type} (f : Text → γ) (g : Text → δ) (s : Option Text × Option Text) :
    (pairUp s).map (fun a => (f a.key, g a.value))
      = (s.1.map f).bind fun key => (s.2.map g).map fun value => (key, value) := by
  obtain ⟨k, v⟩ := s
  cases k <;> cases v <;> rfl

/-! ### Off the bytes -/

def stringOf (bs : Bytes) : Option Bytes := (bodies 1 2 bs).head?

/-- The last key and the string of the last value. -/
def pairOf (bs : Bytes) : Option (Bytes × Bytes) :=
  (bodies 1 2 bs).getLast?.bind fun key => ((bodies 2 2 bs).getLast?.bind stringOf).map fun value => (key, value)

def valueNamed (name bs : Bytes) : Option Bytes :=
  (((bodies 1 2 bs).filterMap pairOf).filter fun a => a.1 = name).getLast?.map (·.2)

/-- What a record says under a resource, if any. -/
def recordContent (resource : Option Bytes) (bs : Bytes) : Content where
  body := ((bodies 5 2 bs).filterMap stringOf).getLast?.getD []
  traceId := ((bodies 9 2 bs).filter fun b => b.length = 16 ∨ b.length = 32).getLast?
  severityNumber := ((bodies 2 0 bs).map fun b => (Wire.varint b).map fun v => asI32 (v.1 % 2 ^ 64)).getLast?.join
  attrs := (bodies 6 2 bs).filterMap pairOf
  namespaceName := resource.bind (valueNamed k8sNamespaceName)
  serviceName := resource.bind (valueNamed serviceNameKey)

/-- What the records of a group say: the last resource is that of all of them. -/
def groupContents (bs : Bytes) : List Content :=
  ((bodies 2 2 bs).flatMap (bodies 2 2)).map (recordContent (bodies 1 2 bs).getLast?)

def requestContents (raw : Bytes) : List Content := (bodies 1 2 raw).flatMap groupContents

section Bytes
variable {t u : Text}

theorem filterMap_bodies {β γ : Type} (read : Text → Option β) (f : β → γ) {g : Bytes → Option γ}
    (same : ∀ u, (read u).map f = g u.bytes) (n : Nat) (t : Text) :
    ((children n t).filterMap read).map f = (bodies n 2 t.bytes).filterMap g := by
  rw [← children_bodies, List.filterMap_map, List.map_filterMap]
  exact congrArg (List.filterMap · _) (funext same)

theorem head_stringOf (u : Text) : (children 1 u).head?.map Text.bytes = stringOf u.bytes := by
  rw [← List.head?_map, children_bodies, stringOf]

theorem attrOf_pairOf (u : Text) : (attrOf u).map (fun a => (a.key.bytes, a.value.bytes)) = pairOf u.bytes := by
  have value : ((children 2 u).getLast?.bind fun v => (children 1 v).head?).map Text.bytes
      = (bodies 2 2 u.bytes).getLast?.bind stringOf := by
    rw [← children_bodies, List.getLast?_map, Option.map_bind, Option.bind_map]
    exact congrArg _ (funext head_stringOf)
  rw [attrOf, pairUp_map Text.bytes Text.bytes, value, ← List.getLast?_map, children_bodies, pairOf]

theorem attrNamed_valueNamed (name : Bytes) (t : Text) :
    (attrNamed name t).map Text.bytes = valueNamed name t.bytes := by
  rw [attrNamed, valueNamed, ← filterMap_bodies attrOf _ attrOf_pairOf, List.filter_map, List.getLast?_map,
    Option.map_map, Option.map_map]
  rfl

theorem bodyText_stringOf (t : Text) :
    (bodyText t).map Text.bytes = ((bodies 5 2 t.bytes).filterMap stringOf).getLast? := by
  rw [bodyText, ← List.getLast?_map, filterMap_bodies _ Text.bytes head_stringOf]

theorem traceIds_bodies (t : Text) :
    (traceIds t).map Text.bytes = (bodies 9 2 t.bytes).filter fun b => b.length = 16 ∨ b.length = 32 := by
  rw [← children_bodies, List.filter_map]
  rfl

theorem severities_bodies (t : Text) :
    severities t = (bodies 2 0 t.bytes).map fun b => (Wire.varint b).map fun v => asI32 (v.1 % 2 ^ 64) := by
  rw [severities, bodies, List.map_map]
  rfl

def Inputs.content (i : Inputs) : Content where
  body := i.body.bytes
  traceId := i.traceId.map Text.bytes
  severityNumber := i.severityNumber
  attrs := (bodies 6 2 i.text.bytes).filterMap pairOf
  namespaceName := i.namespaceName.map Text.bytes
  serviceName := i.serviceName.map Text.bytes

theorem record_content {r : Record} (read : r.Read) : r.content = r.inputs.content := by
  rw [Record.content, record_attrs read, filterMap_bodies attrOf _ attrOf_pairOf]
  rfl

theorem site_content (s : Site) : s.inputs.content = recordContent (s.resource.map Text.bytes) s.text.bytes := by
  have named : ∀ name, (s.resource.bind (attrNamed name)).map Text.bytes
      = (s.resource.map Text.bytes).bind (valueNamed name) := by
    intro name
    rw [Option.map_bind, Option.bind_map]
    exact congrArg _ (funext (attrNamed_valueNamed name))
  have body : ((bodyText s.text).getD ⟨s.text.pos, []⟩).bytes
      = ((bodies 5 2 s.text.bytes).filterMap stringOf).getLast?.getD [] := by
    rw [← bodyText_stringOf]
    cases bodyText s.text <;> rfl
  simp only [Inputs.content, Site.inputs, recordContent, body, named, ← List.getLast?_map, traceIds_bodies,
    severities_bodies]

theorem records_contents {raw : Bytes} {rs : List Record} (found : records raw = some rs) :
    rs.map Record.content = requestContents raw := by
  have scopes : ∀ u : Text, ((children 2 u).flatMap (children 2)).map Text.bytes
      = (bodies 2 2 u.bytes).flatMap (bodies 2 2) := by
    intro u
    rw [List.map_flatMap, ← children_bodies, List.flatMap_map]
    exact congrArg (List.flatMap · _) (funext (children_bodies 2))
  have group : ∀ u : Text, (groupSites u).map (fun s => recordContent (s.resource.map Text.bytes) s.text.bytes)
      = groupContents u.bytes := by
    intro u
    rw [groupContents, ← scopes, ← children_bodies, List.getLast?_map, groupSites, List.map_map, List.map_map]
    rfl
  have each : rs.map Record.content = (rs.map Record.inputs).map Inputs.content := by
    rw [List.map_map]
    exact List.map_congr_left fun r member => record_content (records_read found r member)
  rw [each, records_inputs found, List.map_map, requestContents, sites, List.map_flatMap]
  have top := children_bodies 1 ⟨0, raw⟩
  simp only at top
  rw [← top, List.flatMap_map]
  refine congrArg (List.flatMap · _) (funext fun u => ?_)
  rw [← group]
  exact List.map_congr_left fun s _ => site_content s

end Bytes

theorem parse_contents {raw : Bytes} {views : List RecordView} (parsed : parseExportLogsRequest raw [] = .ok views) :
    views.map (·.content raw) = requestContents raw := by
  obtain ⟨rs, found, rfl⟩ := parseExportLogsRequest_ok.mp parsed
  rw [← records_contents found, List.map_map]
  exact List.map_congr_left fun r member => view_content (records_in found r member)

end ArchivAgent
