import ArchivAgent.Ingest.Contents
import ArchivAgent.Ingest.Trees

/-!
# Requests the parser takes

A request down to what the parser looks into: groups of a resource and scopes, with the attributes
of the resource and the records of the scopes. The encoding of such a tree is read to its end.
-/

namespace ArchivAgent
open Wire

abbrev ResourceAttrsTree := List (Node [1] KeyValueTree)

abbrev ResourceLogsTree := List (Node [1, 2] (ResourceAttrsTree ⊕ ScopeTree))

abbrev LogsTree := List (Node [1] ResourceLogsTree)

def attributeCoding : Coding KeyValueTree := ⟨fun _ => 1, encodeNodes anyValueCoding⟩

def groupPartCoding : Coding (ResourceAttrsTree ⊕ ScopeTree) where
  number := fun | .inl _ => 1 | .inr _ => 2
  encode := fun | .inl attrs => encodeNodes attributeCoding attrs | .inr scope => scopeCoding.encode scope

def groupCoding : Coding ResourceLogsTree := ⟨fun _ => 1, encodeNodes groupPartCoding⟩

def encodeLogs (t : LogsTree) : Bytes := encodeNodes groupCoding t

theorem groupPart_small (part : ResourceAttrsTree ⊕ ScopeTree) : groupPartCoding.number part < 2 ^ 29 := by
  cases part with
  | inl _ => exact show 1 < 2 ^ 29 by decide
  | inr _ => exact show 2 < 2 ^ 29 by decide

/-! ### Children -/

section Nodes
variable {α β : Type} {governed : List Nat} {c : Coding α} {nodes : List (Node governed α)} {n p : Nat}

/-- The parser compares numbers cut to 32 bits, and those of a node are not cut. -/
theorem node_number (small : ∀ a, c.number a < 2 ^ 29) (node : Node governed α) :
    (node.field c).number % 2 ^ 32 = (node.field c).number := by
  apply Nat.mod_eq_of_lt
  cases node with
  | plain o => exact Nat.lt_trans o.small (by decide)
  | child a =>
    rw [Node.field, number_delimited]
    exact Nat.lt_trans (small a) (by decide)

theorem located_node {q : Nat × Field} (member : q ∈ locate p (nodes.map (Node.field c))) :
    ∃ node ∈ nodes, q.2 = node.field c := by
  have inFields := List.mem_map_of_mem (f := fun q : Nat × Field => q.2) member
  rw [locate_map_snd] at inFields
  obtain ⟨node, within, same⟩ := List.mem_map.mp inFields
  exact ⟨node, within, same.symm⟩

theorem located_child (small : ∀ a, c.number a < 2 ^ 29) (short : (encodeNodes c nodes).length < 2 ^ 64)
    {q : Nat × Field} (member : q ∈ locate p (nodes.map (Node.field c))) (is : IsField n 2 q) (own : n ∈ governed) :
    ∃ a, c.number a = n ∧ (payload q).bytes = c.encode a ∧ (c.encode a).length < 2 ^ 64 := by
  obtain ⟨node, within, same⟩ := located_node member
  have number := node_number small node
  obtain ⟨isNumber, isWire⟩ := is
  rw [same, number] at isNumber
  rw [same] at isWire
  cases node with
  | plain o => exact absurd isWire (o.other (isNumber ▸ own))
  | child a =>
    refine ⟨a, ?_, by rw [payload, same]; rfl, child_short within short⟩
    rw [← isNumber, Node.field, number_delimited]

theorem children_node (small : ∀ a, c.number a < 2 ^ 29) (short : (encodeNodes c nodes).length < 2 ^ 64) {t u : Text}
    (same : t.bytes = encodeNodes c nodes) (own : n ∈ governed) (child : u ∈ children n t) :
    ∃ a, c.number a = n ∧ u.bytes = c.encode a ∧ (c.encode a).length < 2 ^ 64 := by
  obtain ⟨q, member, is, rfl⟩ := (mem_children (same ▸ encodeNodes_fields small short)).mp child
  exact located_child small short member is own

theorem foldlM_isSome {γ : Type} {step : β → γ → Option β} {qs : List γ} (each : ∀ q ∈ qs, ∀ s, (step s q).isSome) (s : β) :
    (qs.foldlM step s).isSome := by
  induction qs generalizing s with
  | nil => rfl
  | cons q qs ih =>
    simp only [List.mem_cons, forall_eq_or_imp] at each
    obtain ⟨s', one⟩ := Option.isSome_iff_exists.mp (each.1 s)
    rw [List.foldlM_cons, one]
    exact ih each.2 s'

theorem nodes_read {step : β → Nat × Field → Option β} (small : ∀ a, c.number a < 2 ^ 29)
    (short : (encodeNodes c nodes).length < 2 ^ 64) {t : Text} (same : t.bytes = encodeNodes c nodes)
    (each : ∀ q ∈ locate t.pos (nodes.map (Node.field c)), ∀ s, (step s q).isSome) (s : β) :
    (readFields step t s).isSome := by
  rw [readFields, same, encodeNodes_fields small short]
  exact foldlM_isSome each s

end Nodes

/-! ### Every encoding is read -/

section Reads
variable {t : Text}

theorem anyValue_encoded {v : AnyValueTree} (same : t.bytes = encodeNodes stringCoding v)
    (short : (encodeNodes stringCoding v).length < 2 ^ 64) : (anyValueText t).isSome := by
  have whole := encodeNodes_fields (fun _ => by exact show 1 < 2 ^ 29 by decide) short
  rw [anyValueText_fields (same ▸ whole)]
  rfl

theorem keyValue_encoded {a : KeyValueTree} (same : t.bytes = encodeNodes anyValueCoding a)
    (short : (encodeNodes anyValueCoding a).length < 2 ^ 64) : (keyValue t).isSome := by
  have small : ∀ v, anyValueCoding.number v < 2 ^ 29 := fun _ => show 2 < 2 ^ 29 by decide
  rw [keyValue, Option.isSome_map]
  refine nodes_read small short same (fun q member s => ?_) _
  unfold keyValueStep
  by_cases isKey : IsField 1 2 q
  · rw [if_pos isKey]
    rfl
  rw [if_neg isKey]
  by_cases isValue : IsField 2 2 q
  · obtain ⟨v, -, bytes, within⟩ := located_child small short member isValue (by simp)
    rw [if_pos isValue, Option.isSome_map]
    exact anyValue_encoded bytes within
  · rw [if_neg isValue]
    rfl

theorem resource_encoded {r : ResourceAttrsTree} (same : t.bytes = encodeNodes attributeCoding r)
    (short : (encodeNodes attributeCoding r).length < 2 ^ 64) : (resource t).isSome := by
  have small : ∀ a, attributeCoding.number a < 2 ^ 29 := fun _ => show 1 < 2 ^ 29 by decide
  refine nodes_read small short same (fun q member s => ?_) _
  unfold resourceStep
  by_cases isAttr : IsField 1 2 q
  · obtain ⟨a, -, bytes, within⟩ := located_child small short member isAttr (by simp)
    rw [if_pos isAttr, Option.isSome_map]
    exact keyValue_encoded bytes within
  · rw [if_neg isAttr]
    rfl

theorem record_encoded {r : RecordTree} (same : t.bytes = encodeNodes recordPartCoding r)
    (short : (encodeNodes recordPartCoding r).length < 2 ^ 64) (res : Resource) : (record t res).isSome := by
  refine nodes_read recordPart_small short same (fun q member s => ?_) _
  unfold recordStep
  by_cases severity : IsField 2 0 q
  · obtain ⟨node, within, field⟩ := located_node member
    have good := node_wellFormed recordPart_small node (node_short within short)
    rw [← field] at good
    obtain ⟨-, v, read⟩ := good.number severity.2
    rw [if_pos severity, read]
    rfl
  rw [if_neg severity]
  by_cases body : IsField 5 2 q
  · obtain ⟨part, number, bytes, within⟩ := located_child recordPart_small short member body (by simp)
    rw [if_pos body, Option.isSome_map]
    cases part with
    | inl v => exact anyValue_encoded bytes within
    | inr a => cases number
  rw [if_neg body]
  by_cases attr : IsField 6 2 q
  · obtain ⟨part, number, bytes, within⟩ := located_child recordPart_small short member attr (by simp)
    rw [if_pos attr, Option.isSome_map]
    cases part with
    | inl v => cases number
    | inr a => exact keyValue_encoded bytes within
  rw [if_neg attr]
  split <;> rfl

theorem scopeLogs_encoded {s : ScopeTree} (same : t.bytes = encodeNodes recordCoding s)
    (short : (encodeNodes recordCoding s).length < 2 ^ 64) (res : Resource) (out : List Record) :
    (scopeLogs res out t).isSome := by
  have small : ∀ r, recordCoding.number r < 2 ^ 29 := fun _ => show 2 < 2 ^ 29 by decide
  refine nodes_read small short same (fun q member s => ?_) _
  unfold scopeStep
  by_cases isRecord : IsField 2 2 q
  · obtain ⟨r, -, bytes, within⟩ := located_child small short member isRecord (by simp)
    rw [if_pos isRecord, Option.isSome_map]
    exact record_encoded bytes within res
  · rw [if_neg isRecord]
    rfl

theorem resourceLogs_encoded {g : ResourceLogsTree} (same : t.bytes = encodeNodes groupPartCoding g)
    (short : (encodeNodes groupPartCoding g).length < 2 ^ 64) (out : List Record) : (resourceLogs out t).isSome := by
  have collected : (readFields resourceLogsStep t ({}, [])).isSome := by
    refine nodes_read groupPart_small short same (fun q member s => ?_) _
    unfold resourceLogsStep
    by_cases isResource : IsField 1 2 q
    · obtain ⟨part, number, bytes, within⟩ := located_child groupPart_small short member isResource (by simp)
      rw [if_pos isResource, Option.isSome_map]
      cases part with
      | inl r => exact resource_encoded bytes within
      | inr s => cases number
    rw [if_neg isResource]
    split <;> rfl
  obtain ⟨s, read⟩ := Option.isSome_iff_exists.mp collected
  rw [resourceLogs, read, Option.bind_some, resourceLogs_children read]
  refine foldlM_isSome (fun u child out => ?_) out
  obtain ⟨part, number, bytes, within⟩ := children_node groupPart_small short same (by simp) child
  cases part with
  | inl r => cases number
  | inr s => exact scopeLogs_encoded bytes within _ out

theorem records_encoded {l : LogsTree} (short : (encodeLogs l).length < 2 ^ 64) : (records (encodeLogs l)).isSome := by
  have small : ∀ g, groupCoding.number g < 2 ^ 29 := fun _ => show 1 < 2 ^ 29 by decide
  refine nodes_read small short rfl (fun q member s => ?_) _
  unfold requestStep
  by_cases isGroup : IsField 1 2 q
  · obtain ⟨g, -, bytes, within⟩ := located_child small short member isGroup (by simp)
    rw [if_pos isGroup]
    exact resourceLogs_encoded bytes within s
  · rw [if_neg isGroup]
    rfl

end Reads

/-- Every request is parsed, and its views say what stands in it. -/
theorem encodeLogs_parses (l : LogsTree) (short : (encodeLogs l).length < 2 ^ 64) :
    ∃ views, parseExportLogsRequest (encodeLogs l) [] = .ok views ∧
      views.map (·.content (encodeLogs l)) = requestContents (encodeLogs l) := by
  obtain ⟨rs, found⟩ := Option.isSome_iff_exists.mp (records_encoded short)
  have parsed := parseExportLogsRequest_ok.mpr ⟨rs, found, rfl⟩
  exact ⟨_, parsed, parse_contents parsed⟩

end ArchivAgent
