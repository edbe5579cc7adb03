import ArchivAgent.Ingest.Destination

/-!
# What the verdict reads of a record

Namespace, service, severity, trace id and body of each record, read off the messages of the
request: the resource is the last one of its group, and an attribute, a severity, a trace id and a
body are the last of their kind.
-/

namespace ArchivAgent
open Wire Transition

/-- A record message, and the resource message it stands under, if any. -/
structure Site where
  resource : Option Text
  text : Text
  deriving DecidableEq, Repr

def groupSites (u : Text) : List Site :=
  ((children 2 u).flatMap (children 2)).map fun t => ⟨(children 1 u).getLast?, t⟩

/-- Where the records of a request stand, in the order the walker visits them. -/
def sites (raw : Bytes) : List Site := (children 1 ⟨0, raw⟩).flatMap groupSites

/-- The last value an attribute has among the attributes of a resource. -/
def attrNamed (name : Bytes) (t : Text) : Option Text :=
  (((children 1 t).filterMap attrOf).filter fun a => a.key.bytes = name).getLast?.map Attr.value

structure Inputs where
  text : Text
  namespaceName : Option Text
  serviceName : Option Text
  severityNumber : Option Int
  traceId : Option Text
  body : Text
  deriving DecidableEq, Repr

def severities (t : Text) : List (Option Int) :=
  ((scan t.bytes).1.filter fun f => f.number % 2 ^ 32 = 2 ∧ f.wire = 0).map fun f =>
    (Wire.varint f.body).map fun v => asI32 (v.1 % 2 ^ 64)

def traceIds (t : Text) : List Text :=
  (children 9 t).filter fun u => u.bytes.length = 16 ∨ u.bytes.length = 32

/-- The first string of the last body that has one. -/
def bodyText (t : Text) : Option Text := ((children 5 t).filterMap fun u => (children 1 u).head?).getLast?

def Site.inputs (s : Site) : Inputs where
  text := s.text
  namespaceName := s.resource.bind (attrNamed k8sNamespaceName)
  serviceName := s.resource.bind (attrNamed serviceNameKey)
  severityNumber := (severities s.text).getLast?.join
  traceId := (traceIds s.text).getLast?
  body := (bodyText s.text).getD ⟨s.text.pos, []⟩

/-! ### Records -/

theorem filterMap_ite {α β : Type} (as : List α) (P : α → Prop) [DecidablePred P] (g : α → β) :
    as.filterMap (fun a => if P a then some (g a) else none) = (as.filter P).map g := by
  induction as with
  | nil => rfl
  | cons a as ih =>
    rw [List.filterMap_cons]
    by_cases here : P a
    · rw [if_pos here, List.filter_cons_of_pos (by exact decide_eq_true here), List.map_cons]
      exact congrArg _ ih
    · rw [if_neg here, List.filter_cons_of_neg (by exact fun h => here (of_decide_eq_true h))]
      exact ih

section Records
variable {t u : Text}

theorem record_severity {res : Resource} {r : Record} (read : record t res = some r) :
    r.severityNumber = (severities t).getLast?.join := by
  obtain ⟨fs, whole, folded⟩ := Option.bind_eq_some_iff.mp read
  have last := run_last Record.severityNumber
    (fun q => if IsField 2 0 q then some ((Wire.varint q.2.body).map fun v => asI32 (v.1 % 2 ^ 64)) else none) folded
    fun q _ s s' one => by
      rcases recordStep_cases one with ⟨is, v, n, read, rfl⟩ | ⟨is, o, -, rfl⟩ | ⟨is, _, -, rfl⟩ | ⟨is, rfl⟩ |
        ⟨notSeverity, -, -, -, rfl⟩
      · rw [if_pos is, read]
        rfl
      · rw [if_neg (is.other (by decide))]
        rfl
      · rw [if_neg (is.other (by decide))]
        rfl
      · rw [if_neg (is.other (by decide))]
        split <;> rfl
      · rw [if_neg notSeverity]
        rfl
  have same : (locate t.pos fs).filterMap (fun q => if IsField 2 0 q then
      some ((Wire.varint q.2.body).map fun v => asI32 (v.1 % 2 ^ 64)) else none) = severities t := by
    rw [severities, scan_of_fields whole, ← filterMap_ite]
    refine Eq.trans ?_ (congrArg (List.filterMap _) (locate_map_snd t.pos fs))
    rw [List.filterMap_map]
    rfl
  rw [last, same]
  cases (severities t).getLast? <;> rfl

theorem record_traceId {res : Resource} {r : Record} (read : record t res = some r) :
    r.traceId = (traceIds t).getLast? := by
  obtain ⟨fs, whole, folded⟩ := Option.bind_eq_some_iff.mp read
  have last := run_last Record.traceId (fun q => if IsField 9 2 q then
      (if (payload q).bytes.length = 16 ∨ (payload q).bytes.length = 32 then some (some (payload q)) else none) else none) folded
    fun q _ s s' one => by
      rcases recordStep_cases one with ⟨is, v, n, read, rfl⟩ | ⟨is, o, -, rfl⟩ | ⟨is, _, -, rfl⟩ | ⟨is, rfl⟩ |
        ⟨-, -, -, notTrace, rfl⟩
      · rw [if_neg (is.other (by decide))]
        rfl
      · rw [if_neg (is.other (by decide))]
        rfl
      · rw [if_neg (is.other (by decide))]
        rfl
      · rw [if_pos is]
        split <;> rfl
      · rw [if_neg notTrace]
        rfl
  have same := filterMap_children 9 t fun u =>
    if u.bytes.length = 16 ∨ u.bytes.length = 32 then some (some u) else none
  rw [scan_of_fields whole] at same
  rw [filterMap_ite, ← traceIds] at same
  rw [last, same, List.getLast?_map]
  cases (traceIds t).getLast? <;> rfl

def resourceOf (t : Text) : Resource := ⟨attrNamed k8sNamespaceName t, attrNamed serviceNameKey t⟩

theorem resource_attrs {res : Resource} (read : resource t = some res) : res = resourceOf t := by
  obtain ⟨fs, whole, folded⟩ := Option.bind_eq_some_iff.mp read
  have named : ∀ (proj : Resource → Option Text) (name : Bytes), proj {} = none →
      (∀ (s : Resource) a, proj (s.add (some a)) = if a.key.bytes = name then some a.value else proj s) →
      proj res = attrNamed name t := by
    intro proj name empty added
    have last := run_last proj (fun q => if IsField 1 2 q then
        ((attrOf (payload q)).filter fun a => a.key.bytes = name).map fun a => some a.value else none) folded
      fun q _ s s' one => by
        unfold resourceStep at one
        by_cases child : IsField 1 2 q
        · rw [if_pos child] at one ⊢
          obtain ⟨o, read, rfl⟩ := Option.map_eq_some_iff.mp one
          rw [← keyValue_attrOf read]
          cases o with
          | none => rfl
          | some a =>
            rw [added]
            by_cases mine : a.key.bytes = name <;> simp [Option.filter, mine]
        · rw [if_neg child] at one ⊢
          cases one
          rfl
    have same := filterMap_children 1 t fun u => ((attrOf u).filter fun a => a.key.bytes = name).map fun a => some a.value
    rw [scan_of_fields whole] at same
    have split : (children 1 t).filterMap (fun u => ((attrOf u).filter fun a => a.key.bytes = name).map fun a => some a.value)
        = (((children 1 t).filterMap attrOf).filter fun a => a.key.bytes = name).map fun a => some a.value := by
      rw [← List.filterMap_eq_map', ← List.filterMap_eq_filter, List.filterMap_filterMap, List.filterMap_filterMap]
      refine congrArg (List.filterMap · _) (funext fun u => ?_)
      cases attrOf u with
      | none => rfl
      | some a => by_cases mine : a.key.bytes = name <;> simp [mine, Option.guard]
    rw [last, same, split, List.getLast?_map, empty, attrNamed]
    cases (((children 1 t).filterMap attrOf).filter fun a => a.key.bytes = name).getLast? <;> rfl
  have differ : serviceNameKey ≠ k8sNamespaceName := by decide
  have ns := named Resource.namespaceName k8sNamespaceName rfl fun s a => by
    unfold Resource.add
    simp only
    split <;> [rfl; (split <;> rfl)]
  have service := named Resource.serviceName serviceNameKey rfl fun s a => by
    unfold Resource.add
    simp only
    by_cases mine : a.key.bytes = serviceNameKey
    · rw [if_neg (by rw [mine]; exact differ), if_pos mine, if_pos mine]
    · rw [if_neg mine, if_neg mine]
      split <;> rfl
  exact Resource.mk.injEq .. ▸ ⟨ns, service⟩

/-- What the verdict reads of a record, and where its message stands. -/
def Record.inputs (r : Record) : Inputs where
  text := r.text
  namespaceName := r.resource.namespaceName
  serviceName := r.resource.serviceName
  severityNumber := r.severityNumber
  traceId := r.traceId
  body := r.body

theorem record_inputs {res : Option Text} {r : Record} (read : record t ((res.map resourceOf).getD {}) = some r) :
    r.inputs = Site.inputs ⟨res, t⟩ := by
  obtain ⟨text, resource⟩ := record_frame read
  have ns : ((res.map resourceOf).getD {}).namespaceName = res.bind (attrNamed k8sNamespaceName) := by cases res <;> rfl
  have service : ((res.map resourceOf).getD {}).serviceName = res.bind (attrNamed serviceNameKey) := by cases res <;> rfl
  rw [Record.inputs, text, resource, ns, service, record_severity read, record_traceId read, record_body read]
  rfl

/-! ### Requests -/

theorem scopeLogs_inputs {res : Option Text} {out out' : List Record}
    (read : scopeLogs ((res.map resourceOf).getD {}) out t = some out') :
    out'.map Record.inputs = out.map Record.inputs ++ (children 2 t).map fun u => Site.inputs ⟨res, u⟩ := by
  obtain ⟨fs, whole, folded⟩ := Option.bind_eq_some_iff.mp read
  have all := run_collected (List.map Record.inputs)
    (fun q => if IsField 2 2 q then [Site.inputs ⟨res, payload q⟩] else []) folded fun q _ s s' one => by
      unfold scopeStep at one
      by_cases child : IsField 2 2 q
      · rw [if_pos child] at one ⊢
        obtain ⟨r, read, rfl⟩ := Option.map_eq_some_iff.mp one
        rw [List.map_append, List.map_singleton, record_inputs read]
      · rw [if_neg child] at one ⊢
        cases one
        exact (List.append_nil _).symm
  have same := children_flatMap 2 t fun u => [Site.inputs ⟨res, u⟩]
  rw [scan_of_fields whole, ← List.map_eq_flatMap] at same
  rw [all, same]

theorem resourceLogs_inputs {out out' : List Record} (read : resourceLogs out t = some out') :
    out'.map Record.inputs = out.map Record.inputs ++ (groupSites t).map Site.inputs := by
  obtain ⟨s, collected, visited⟩ := Option.bind_eq_some_iff.mp read
  obtain ⟨fs, whole, folded⟩ := Option.bind_eq_some_iff.mp collected
  have scopes := resourceLogs_children collected
  have res := run_last (fun s : Resource × List Text => s.1)
    (fun q => if IsField 1 2 q then some (resourceOf (payload q)) else none) folded fun q _ s s' one => by
      unfold resourceLogsStep at one
      by_cases isRes : IsField 1 2 q
      · rw [if_pos isRes] at one ⊢
        obtain ⟨r, read, rfl⟩ := Option.map_eq_some_iff.mp one
        exact resource_attrs read
      rw [if_neg isRes] at one ⊢
      split at one <;> cases one <;> rfl
  have same := filterMap_children 1 t fun u => some (resourceOf u)
  rw [scan_of_fields whole, List.filterMap_eq_map'] at same
  rw [same, List.getLast?_map] at res
  rw [scopes, res] at visited
  have all := run_collected (List.map Record.inputs)
    (fun v => (children 2 v).map fun u => Site.inputs ⟨(children 1 t).getLast?, u⟩) visited
    fun v _ _ _ one => scopeLogs_inputs one
  rw [all, groupSites, List.map_map, List.map_flatMap]
  rfl

/-- The records the walker reads are those that stand in the request, with the inputs that stand there. -/
theorem records_inputs {raw : Bytes} {rs : List Record} (read : records raw = some rs) :
    rs.map Record.inputs = (sites raw).map Site.inputs := by
  obtain ⟨fs, whole, folded⟩ := Option.bind_eq_some_iff.mp read
  have all := run_collected (List.map Record.inputs)
    (fun q => if IsField 1 2 q then (groupSites (payload q)).map Site.inputs else []) folded fun q _ s s' one => by
      unfold requestStep at one
      by_cases child : IsField 1 2 q
      · rw [if_pos child] at one ⊢
        exact resourceLogs_inputs one
      · rw [if_neg child] at one ⊢
        cases one
        exact (List.append_nil _).symm
  have same := children_flatMap 1 ⟨0, raw⟩ fun u => (groupSites u).map Site.inputs
  rw [scan_of_fields whole] at same
  rw [all, same, sites, List.map_flatMap]
  rfl

theorem records_site {raw : Bytes} {rs : List Record} (read : records raw = some rs) {i : Nat} {r : Record}
    (here : rs[i]? = some r) : ∃ s, (sites raw)[i]? = some s ∧ r.inputs = s.inputs := by
  have found : (rs.map Record.inputs)[i]? = some r.inputs := by rw [List.getElem?_map, here]; rfl
  rw [records_inputs read, List.getElem?_map] at found
  obtain ⟨s, stands, same⟩ := Option.map_eq_some_iff.mp found
  exact ⟨s, stands, same.symm⟩

structure ViewOf (raw : Bytes) (v : RecordView) (s : Site) : Prop where
  namespaceName : v.namespaceBytes raw = s.inputs.namespaceName.map Text.bytes
  serviceName : v.serviceNameBytes raw = s.inputs.serviceName.map Text.bytes
  severityNumber : v.severityNumber = s.inputs.severityNumber
  traceId : v.traceId.bind (·.get raw) = s.inputs.traceId.map Text.bytes
  body : (v.body.get raw).getD [] = s.inputs.body.bytes

theorem view_site {raw : Bytes} {r : Record} (held : r.In raw) {s : Site} (same : r.inputs = s.inputs) :
    ViewOf raw r.view s := by
  have body : r.view.body.get raw = some r.body.bytes := held.body.get
  constructor <;> rw [← same]
  · exact Text.get_optional held.resource.namespaceName
  · exact Text.get_optional held.resource.serviceName
  · rfl
  · exact Text.get_optional held.traceId
  · rw [body]
    rfl

theorem parse_sites {raw : Bytes} {views : List RecordView} (parsed : parseExportLogsRequest raw [] = .ok views) :
    views.length = (sites raw).length ∧
      ∀ (i : Nat) v s, views[i]? = some v → (sites raw)[i]? = some s → ViewOf raw v s := by
  obtain ⟨rs, found, rfl⟩ := parseExportLogsRequest_ok.mp parsed
  constructor
  · have same := congrArg List.length (records_inputs found)
    rwa [List.length_map, List.length_map, ← List.length_map Record.view] at same
  · intro i v s view stands
    rw [List.getElem?_map] at view
    obtain ⟨r, here, rfl⟩ := Option.map_eq_some_iff.mp view
    obtain ⟨s', stands', same⟩ := records_site found here
    cases stands.symm.trans stands'
    exact view_site (records_in found r (List.mem_of_getElem? here)) same

end Records

end ArchivAgent
