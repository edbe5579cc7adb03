import ArchivAgent.Ingest.Requests
import ArchivAgent.Stable.Reordering

/-!
# Fields in another order

The fields of any messages of a request change places, those of one number and one wire type stay
in their order, and the parser reads the same. What it skips may even be something else.
-/

namespace ArchivAgent
open Wire

/-! ### Shuffled trees -/

section Shuffled
variable {α : Type} {governed : List Nat}

/-- Two children that are related, or two plain fields of one kind: with the same in them where the
kind is read, and with anything where it is skipped. -/
inductive Node.Like (R : α → α → Prop) (reads : List (Nat × Nat)) : Node governed α → Node governed α → Prop where
  | child {a a' : α} (related : R a a') : Like R reads (.child a) (.child a')
  | plain {o o' : Plain governed} (kind : o.field.kind = o'.field.kind)
      (body : o.field.kind ∈ reads → o.field.body = o'.field.body) : Like R reads (.plain o) (.plain o')

/-- The fields of a message are replaced by their like and change places, each kind in its order. -/
def Shuffled (c : Coding α) (R : α → α → Prop) (reads : List (Nat × Nat)) (t t' : List (Node governed α)) : Prop :=
  Stable.Matched (Node.Like R reads) (fun node => (node.field c).kind) t t'

end Shuffled

def ShuffledAnyValue : AnyValueTree → AnyValueTree → Prop := Shuffled stringCoding Eq []

def ShuffledKeyValue : KeyValueTree → KeyValueTree → Prop := Shuffled anyValueCoding ShuffledAnyValue [(1, 2)]

/-- The severity number and the trace id are read. -/
def ShuffledRecord : RecordTree → RecordTree → Prop :=
  Shuffled recordPartCoding (Sum.LiftRel ShuffledAnyValue ShuffledKeyValue) [(2, 0), (9, 2)]

def ShuffledScope : ScopeTree → ScopeTree → Prop := Shuffled recordCoding ShuffledRecord []

def ShuffledResource : ResourceAttrsTree → ResourceAttrsTree → Prop := Shuffled attributeCoding ShuffledKeyValue []

def ShuffledGroup : ResourceLogsTree → ResourceLogsTree → Prop :=
  Shuffled groupPartCoding (Sum.LiftRel ShuffledResource ShuffledScope) []

def ShuffledLogs : LogsTree → LogsTree → Prop := Shuffled groupCoding ShuffledGroup []

/-! ### One message -/

section Message
variable {α β : Type} {governed : List Nat} {c : Coding α} {R : α → α → Prop} {reads : List (Nat × Nat)}
variable {nodes t t' : List (Node governed α)}

theorem bodies_nodes (small : ∀ a, c.number a < 2 ^ 29) (short : (encodeNodes c nodes).length < 2 ^ 64) (n w : Nat) :
    bodies n w (encodeNodes c nodes)
      = nodes.filterMap fun node => if (node.field c).kind = (n, w) then some (node.field c).body else none := by
  rw [filterMap_ite, bodies, scan_of_fields (encodeNodes_fields small short), List.filter_map, List.map_map]
  refine congrArg (List.map _) (List.filter_congr fun node _ => ?_)
  simp only [Function.comp, node_number small, Field.kind, Prod.mk.injEq]

/-- What is read of the fields of a kind is the same after a shuffle, when it is the same of
related children and the plain fields of the kind, if any, are read. -/
theorem shuffled_bodies (f : Bytes → β) (n w : Nat) (h : Shuffled c R reads t t') (small : ∀ a, c.number a < 2 ^ 29)
    (short : (encodeNodes c t).length < 2 ^ 64) (short' : (encodeNodes c t').length < 2 ^ 64)
    (number : ∀ a a', R a a' → c.number a = c.number a')
    (child : ∀ a a', R a a' → c.number a = n → w = 2 → (c.encode a).length < 2 ^ 64 → (c.encode a').length < 2 ^ 64 →
      f (c.encode a) = f (c.encode a'))
    (plain : (n, w) ∈ reads ∨ n ∈ governed ∧ w = 2) :
    (bodies n w (encodeNodes c t)).map f = (bodies n w (encodeNodes c t')).map f := by
  rw [bodies_nodes small short, bodies_nodes small short', List.map_filterMap, List.map_filterMap]
  refine h.filterMap (k := (n, w)) (fun node member node' member' like => ?_) fun node some => ?_
  · cases like with
    | @child a a' related =>
      simp only [Node.field, Field.kind, number_delimited, wire_delimited, body_delimited, ← number a a' related]
      by_cases here : (c.number a, 2) = (n, w)
      · obtain ⟨isNumber, isWire⟩ := Prod.mk.inj here
        rw [if_pos here, if_pos here, Option.map_some, Option.map_some,
          child a a' related isNumber isWire.symm (child_short member short) (child_short member' short')]
      · rw [if_neg here, if_neg here]
    | @plain o o' kind body =>
      show Option.map f (if o.field.kind = (n, w) then some o.field.body else none)
        = Option.map f (if o'.field.kind = (n, w) then some o'.field.body else none)
      rw [← kind]
      by_cases here : o.field.kind = (n, w)
      · rcases plain with read | ⟨own, two⟩
        · rw [if_pos here, if_pos here, body (here ▸ read)]
        · obtain ⟨isNumber, isWire⟩ := Prod.mk.inj here
          exact absurd (isWire.trans two) (o.other (isNumber ▸ own))
      · rw [if_neg here, if_neg here]
  · by_contra other
    rw [if_neg other] at some
    exact absurd some (by simp)

end Message

/-! ### Every message -/

theorem filterMap_of_map {β γ : Type} {f : β → Option γ} {l l' : List β} (same : l.map f = l'.map f) :
    l.filterMap f = l'.filterMap f := by
  have := congrArg (List.filterMap id) same
  rwa [List.filterMap_map, List.filterMap_map] at this

theorem getLast?_bind_of_map {β γ : Type} {f : β → Option γ} {l l' : List β} (same : l.map f = l'.map f) :
    l.getLast?.bind f = l'.getLast?.bind f := by
  have := congrArg (fun l => l.getLast?.bind id) same
  simp only [List.getLast?_map, Option.bind_map] at this
  exact this

theorem anyValue_shuffled {v v' : AnyValueTree} (h : ShuffledAnyValue v v')
    (short : (encodeNodes stringCoding v).length < 2 ^ 64) (short' : (encodeNodes stringCoding v').length < 2 ^ 64) :
    stringOf (encodeNodes stringCoding v) = stringOf (encodeNodes stringCoding v') := by
  have strings := shuffled_bodies id 1 2 h (fun _ => by exact show 1 < 2 ^ 29 by decide) short short'
    (fun _ _ _ => rfl) (fun s s' same _ _ _ _ => by rw [same]) (.inr ⟨by simp, rfl⟩)
  rw [List.map_id, List.map_id] at strings
  rw [stringOf, stringOf, strings]

theorem keyValue_shuffled {a a' : KeyValueTree} (h : ShuffledKeyValue a a')
    (short : (encodeNodes anyValueCoding a).length < 2 ^ 64) (short' : (encodeNodes anyValueCoding a').length < 2 ^ 64) :
    pairOf (encodeNodes anyValueCoding a) = pairOf (encodeNodes anyValueCoding a') := by
  have small : ∀ v, anyValueCoding.number v < 2 ^ 29 := fun _ => show 2 < 2 ^ 29 by decide
  have keys := shuffled_bodies id 1 2 h small short short' (fun _ _ _ => rfl)
    (fun _ _ _ two => by cases two) (.inl (by simp))
  have values := shuffled_bodies stringOf 2 2 h small short short' (fun _ _ _ => rfl)
    (fun _ _ related _ _ => anyValue_shuffled related) (.inr ⟨by simp, rfl⟩)
  rw [List.map_id, List.map_id] at keys
  rw [pairOf, pairOf, keys, getLast?_bind_of_map values]

theorem resource_shuffled {r r' : ResourceAttrsTree} (h : ShuffledResource r r')
    (short : (encodeNodes attributeCoding r).length < 2 ^ 64) (short' : (encodeNodes attributeCoding r').length < 2 ^ 64)
    (name : Bytes) : valueNamed name (encodeNodes attributeCoding r) = valueNamed name (encodeNodes attributeCoding r') := by
  have attrs := shuffled_bodies pairOf 1 2 h (fun _ => by exact show 1 < 2 ^ 29 by decide) short short'
    (fun _ _ _ => rfl) (fun _ _ related _ _ => keyValue_shuffled related) (.inr ⟨by simp, rfl⟩)
  rw [valueNamed, valueNamed, filterMap_of_map attrs]

theorem record_shuffled {r r' : RecordTree} (h : ShuffledRecord r r')
    (short : (encodeNodes recordPartCoding r).length < 2 ^ 64) (short' : (encodeNodes recordPartCoding r').length < 2 ^ 64)
    (resource : Option Bytes) :
    recordContent resource (encodeNodes recordPartCoding r) = recordContent resource (encodeNodes recordPartCoding r') := by
  have number : ∀ part part', Sum.LiftRel ShuffledAnyValue ShuffledKeyValue part part' →
      recordPartCoding.number part = recordPartCoding.number part' := by
    intro part part' related
    cases related <;> rfl
  have severities := shuffled_bodies id 2 0 h recordPart_small short short' number
    (fun _ _ _ _ zero => absurd zero (by decide)) (.inl (by simp))
  have bodyTexts := shuffled_bodies stringOf 5 2 h recordPart_small short short' number
    (fun _ _ related five _ => by
      cases related with
      | inl body => exact anyValue_shuffled body
      | inr attr => cases five) (.inr ⟨by simp, rfl⟩)
  have attrs := shuffled_bodies pairOf 6 2 h recordPart_small short short' number
    (fun _ _ related six _ => by
      cases related with
      | inl body => cases six
      | inr attr => exact keyValue_shuffled attr) (.inr ⟨by simp, rfl⟩)
  have traceIds := shuffled_bodies id 9 2 h recordPart_small short short' number
    (fun _ _ related nine _ => by cases related <;> cases nine) (.inl (by simp))
  rw [List.map_id, List.map_id] at severities traceIds
  rw [recordContent, recordContent, severities, filterMap_of_map bodyTexts, filterMap_of_map attrs, traceIds]

theorem scope_shuffled {s s' : ScopeTree} (h : ShuffledScope s s')
    (short : (encodeNodes recordCoding s).length < 2 ^ 64) (short' : (encodeNodes recordCoding s').length < 2 ^ 64)
    (resource : Option Bytes) :
    (bodies 2 2 (encodeNodes recordCoding s)).map (recordContent resource)
      = (bodies 2 2 (encodeNodes recordCoding s')).map (recordContent resource) :=
  shuffled_bodies (recordContent resource) 2 2 h (fun _ => by exact show 2 < 2 ^ 29 by decide) short short' (fun _ _ _ => rfl)
    (fun _ _ related _ _ first last => record_shuffled related first last resource) (.inr ⟨by simp, rfl⟩)

theorem group_shuffled {g g' : ResourceLogsTree} (h : ShuffledGroup g g')
    (short : (encodeNodes groupPartCoding g).length < 2 ^ 64) (short' : (encodeNodes groupPartCoding g').length < 2 ^ 64) :
    groupContents (encodeNodes groupPartCoding g) = groupContents (encodeNodes groupPartCoding g') := by
  have number : ∀ part part', Sum.LiftRel ShuffledResource ShuffledScope part part' →
      groupPartCoding.number part = groupPartCoding.number part' := by
    intro part part' related
    cases related <;> rfl
  have named : ∀ name, (bodies 1 2 (encodeNodes groupPartCoding g)).getLast?.bind (valueNamed name)
      = (bodies 1 2 (encodeNodes groupPartCoding g')).getLast?.bind (valueNamed name) := by
    intro name
    refine getLast?_bind_of_map (shuffled_bodies (valueNamed name) 1 2 h groupPart_small short short' number
      (fun _ _ related one _ first last => ?_) (.inr ⟨by simp, rfl⟩))
    cases related with
    | inl resource => exact resource_shuffled resource first last name
    | inr scope => cases one
  have resource : recordContent (bodies 1 2 (encodeNodes groupPartCoding g)).getLast?
      = recordContent (bodies 1 2 (encodeNodes groupPartCoding g')).getLast? := by
    funext bs
    rw [recordContent, recordContent, named, named]
  have scopes := shuffled_bodies
    (fun bs => (bodies 2 2 bs).map (recordContent (bodies 1 2 (encodeNodes groupPartCoding g')).getLast?)) 2 2
    h groupPart_small short short' number
    (fun _ _ related two _ first last => by
      cases related with
      | inl resource => cases two
      | inr scope => exact scope_shuffled scope first last _) (.inr ⟨by simp, rfl⟩)
  rw [groupContents, groupContents, resource, List.map_flatMap, List.map_flatMap, List.flatMap_def, List.flatMap_def,
    scopes]

theorem logs_shuffled {l l' : LogsTree} (h : ShuffledLogs l l') (short : (encodeLogs l).length < 2 ^ 64)
    (short' : (encodeLogs l').length < 2 ^ 64) : requestContents (encodeLogs l) = requestContents (encodeLogs l') := by
  have groups := shuffled_bodies groupContents 1 2 h (fun _ => by exact show 1 < 2 ^ 29 by decide)
    short short' (fun _ _ _ => rfl) (fun _ _ related _ _ => group_shuffled related) (.inr ⟨by simp, rfl⟩)
  rw [requestContents, requestContents, List.flatMap_def, List.flatMap_def]
  exact congrArg List.flatten groups

/-- Requests that differ in the order of their fields parse to the same records. -/
theorem parse_shuffled {l l' : LogsTree} (shuffled : ShuffledLogs l l') (short : (encodeLogs l).length < 2 ^ 64)
    (short' : (encodeLogs l').length < 2 ^ 64) :
    ∃ views views', parseExportLogsRequest (encodeLogs l) [] = .ok views ∧
      parseExportLogsRequest (encodeLogs l') [] = .ok views' ∧ views.length = views'.length ∧
      views.map (·.content (encodeLogs l)) = views'.map (·.content (encodeLogs l')) := by
  obtain ⟨views, parsed, contents⟩ := encodeLogs_parses l short
  obtain ⟨views', parsed', contents'⟩ := encodeLogs_parses l' short'
  have same := contents.trans ((logs_shuffled shuffled short short').trans contents'.symm)
  have count := congrArg List.length same
  rw [List.length_map, List.length_map] at count
  exact ⟨views, views', parsed, parsed', count, same⟩

def serviceKey : Plain [2] := ⟨.delimited 1 serviceNameKey, by decide, by decide, by decide⟩

def warning : Plain [5, 6] := ⟨⟨0x10, [0x10], [], [13]⟩, by decide, by decide, by decide⟩

/-- A resource with the service `s`, and under it a record with a severity and the body `a`. -/
def ordered : LogsTree := [.child [
  .child (.inl [.child [.plain serviceKey, .child [.child [115]]]]),
  .child (.inr [.child [.plain warning, .child (.inl [.child [97]])]])]]

/-- The scope comes before the resource, the body before the severity and the value before the key. -/
def disordered : LogsTree := [.child [
  .child (.inr [.child [.child (.inl [.child [97]]), .plain warning]]),
  .child (.inl [.child [.child [.child [115]], .plain serviceKey]])]]

theorem ordered_shuffled : ShuffledLogs ordered disordered := by
  have value : ∀ s : Bytes, ShuffledAnyValue [.child s] [.child s] := fun s =>
    .same _ (.cons (.child rfl) .nil)
  have resource : ShuffledResource [.child [.plain serviceKey, .child [.child [115]]]]
      [.child [.child [.child [115]], .plain serviceKey]] :=
    .same _ (.cons (.child (.swap (.plain rfl fun _ => rfl) (.child (value _)) (by decide) .nil)) .nil)
  have scope : ShuffledScope [.child [.plain warning, .child (.inl [.child [97]])]]
      [.child [.child (.inl [.child [97]]), .plain warning]] :=
    .same _ (.cons (.child (.swap (.plain rfl fun _ => rfl) (.child (.inl (value _))) (by decide) .nil)) .nil)
  exact .same _ (.cons (.child (.swap (.child (.inl resource)) (.child (.inr scope)) (by decide) .nil)) .nil)

theorem parse_shuffled_disordered : ∃ views views', parseExportLogsRequest (encodeLogs ordered) [] = .ok views ∧
    parseExportLogsRequest (encodeLogs disordered) [] = .ok views' ∧ views.length = views'.length ∧
    views.map (·.content (encodeLogs ordered)) = views'.map (·.content (encodeLogs disordered)) :=
  parse_shuffled ordered_shuffled (by decide) (by decide)

end ArchivAgent
