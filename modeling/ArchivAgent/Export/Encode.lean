import ArchivAgent.Export.Reparse
import ArchivAgent.Ingest.Trees

/-!
# A request as a tree

A request whose governed children are in shortest form is a tree: a field is a child, encoded from
what is under it, or plain and copied. Governing the tree drops records and replaces spans, and
the assembler writes what encoding the governed tree gives.
-/

namespace ArchivAgent
open Wire

abbrev ResourceTree := List (Node [2] ScopeTree)

abbrev RequestTree := List (Node [1] ResourceTree)

def resourceCoding : Coding ResourceTree := ⟨fun _ => 1, encodeNodes scopeCoding⟩

def encodeRequest (t : RequestTree) : Bytes := encodeNodes resourceCoding t

/-! ### The governed tree -/

/-- Where what is governed stands and the index of its next record, to what is left of it and the
index after it. -/
abbrev Governor (α : Type) := Nat → Nat → α → Option α × Nat

def governNodes {α : Type} {governed : List Nat} (c : Coding α) (g : Governor α) :
    Nat → Nat → List (Node governed α) → List (Node governed α) × Nat
  | _, i, [] => ([], i)
  | p, i, .plain o :: nodes =>
    let rest := governNodes c g (p + o.field.size) i nodes
    (.plain o :: rest.1, rest.2)
  | p, i, .child a :: nodes =>
    let f := Field.delimited (c.number a) (c.encode a)
    let left := g (bodyPos (p, f)) i a
    let rest := governNodes c g (p + f.size) left.2 nodes
    ((left.1.map .child).toList ++ rest.1, rest.2)

/-- Text from `p` on with each span replaced by its mask. -/
def replaceSpans (masks : MaskTable) : Nat → Bytes → List Redaction → Bytes
  | _, bs, [] => bs
  | p, bs, r :: spans =>
    bs.take (r.target.start - p) ++ (masks.bytes r.mask).getD []
      ++ replaceSpans masks r.target.stop (bs.drop (r.target.stop - p)) spans

section Govern
variable (d : Decisions) (masks : MaskTable)

/-- The spans of a record that lie in a string, by start, by end, and as they were added. -/
def stringSpans (i : Nat) (w : Range) : List Redaction :=
  ((d.redactionsFor i).filter fun r => w.start ≤ r.target.start ∧ r.target.stop ≤ w.stop).insertionSort SpanLe

def governString : Governor Bytes := fun p i s =>
  (some (replaceSpans masks p s (stringSpans d i ⟨p, p + s.length⟩)), i)

/-- What a governor leaves of a message that is never dropped. -/
def governMessage {α : Type} {governed : List Nat} (c : Coding α) (g : Governor α) :
    Governor (List (Node governed α)) := fun p i t =>
  (some (governNodes c g p i t).1, (governNodes c g p i t).2)

def governAnyValue : Governor AnyValueTree := governMessage stringCoding (governString d masks)

def governKeyValue : Governor KeyValueTree := governMessage anyValueCoding (governAnyValue d masks)

def governRecordPart : Governor (AnyValueTree ⊕ KeyValueTree) := fun p i part =>
  match part with
  | .inl body => (governAnyValue d masks p i body).map (·.map .inl) id
  | .inr attr => (governKeyValue d masks p i attr).map (·.map .inr) id

def governRecord : Governor RecordTree := fun p i t =>
  if d.samplingVerdict i = .drop then (none, i + 1)
  else (some (governNodes recordPartCoding (governRecordPart d masks) p i t).1, i + 1)

def governScope : Governor ScopeTree := governMessage recordCoding (governRecord d masks)

def governResource : Governor ResourceTree := governMessage scopeCoding (governScope d masks)

def governRequest (t : RequestTree) : RequestTree :=
  (governNodes resourceCoding (governResource d masks) 0 0 t).1

end Govern

/-! ### Spans replaced -/

section Spans
variable {raw : Bytes} {masks : MaskTable}

theorem spliceBytes_replace {p : Nat} {bs : Bytes} (here : At raw p bs) {spans : List Redaction}
    (ordered : spans.Pairwise fun a b => a.target.stop ≤ b.target.start)
    (inside : ∀ r ∈ spans, p ≤ r.target.start ∧ r.target.start ≤ r.target.stop ∧ r.target.stop ≤ p + bs.length) :
    spliceBytes raw masks p (p + bs.length) spans = replaceSpans masks p bs spans := by
  induction spans generalizing p bs with
  | nil => exact here.slice
  | cons r spans ih =>
    obtain ⟨after, ordered⟩ := List.pairwise_cons.mp ordered
    simp only [List.mem_cons, forall_eq_or_imp] at inside
    obtain ⟨⟨low, ranged, high⟩, inside⟩ := inside
    have front := (here.take (r.target.start - p)).slice
    rw [List.length_take, Nat.min_eq_left (by omega), Nat.add_sub_cancel' low] at front
    have back := here.drop (n := r.target.stop - p) (by omega)
    rw [Nat.add_sub_cancel' (by omega)] at back
    have rest := ih back ordered fun s member => by
      have := inside s member
      have := after s member
      simp only [List.length_drop]
      omega
    have long : r.target.stop + (bs.drop (r.target.stop - p)).length = p + bs.length := by
      simp only [List.length_drop]
      omega
    rw [long] at rest
    rw [spliceBytes, replaceSpans, front, rest]

theorem keptSpans_apart {env : Envelope} {i : Nat} {w : Range} (ranged : env.decisions.Ranged)
    (apart : (env.decisions.redactionsFor i).Pairwise (Interval.Apart spanStart spanStop)) :
    keptSpans env i w = stringSpans env.decisions i w := by
  have kept := (keptSpans_length_eq (w := w) ranged).mpr (apart.filter _)
  rw [← (List.perm_insertionSort SpanLe (spansWithin env i w)).length_eq] at kept
  exact (Interval.firstWins_sublist _ _).eq_of_length kept

theorem governText_replace {env : Envelope} {i p : Nat} {s : Bytes} (here : At env.raw p s)
    (ranged : env.decisions.Ranged)
    (apart : (env.decisions.redactionsFor i).Pairwise (Interval.Apart spanStart spanStop)) :
    governText env masks i ⟨p, p + s.length⟩
      = replaceSpans masks p s (stringSpans env.decisions i ⟨p, p + s.length⟩) := by
  have ordered := keptSpans_ordered (i := i) (w := ⟨p, p + s.length⟩) ranged
  have inside : ∀ r ∈ keptSpans env i ⟨p, p + s.length⟩,
      p ≤ r.target.start ∧ r.target.start ≤ r.target.stop ∧ r.target.stop ≤ p + s.length := fun r member =>
    have within := mem_keptSpans member
    ⟨(mem_spansWithin.mp within).2.1, spansWithin_ranged ranged within, (mem_spansWithin.mp within).2.2⟩
  rw [keptSpans_apart ranged apart] at ordered inside
  rw [governText, keptSpans_apart ranged apart]
  exact spliceBytes_replace here ordered inside

end Spans

/-! ### Editing an encoding -/

/-- The editor turns what was encoded into the encoding of what the governor leaves. -/
def Codes (env : Envelope) (masks : MaskTable) {α : Type} (c : Coding α) (g : Governor α) (editor : α → Editor) : Prop :=
  ∀ a p i, At env.raw p (c.encode a) → (c.encode a).length < 2 ^ 64 →
    ∃ change, editor a ⟨p, c.encode a⟩ i = some (change, (g p i a).2) ∧
      match (g p i a).1 with
      | none => change = .dropped
      | some a' => change ≠ .dropped ∧ render env.raw masks (change.cells ⟨p, c.encode a⟩) = c.encode a' ∧
          c.number a' = c.number a

structure Edits {α : Type} (governed : List Nat) (c : Coding α) (editor : α → Editor) (level : Level) : Prop where
  child : ∀ a, level (c.number a) = some (editor a)
  small : ∀ a, c.number a < 2 ^ 29
  other : ∀ n, n ∉ governed → level n = none

theorem only_edits {α : Type} {n : Nat} {c : Coding α} {editor : Editor} (number : ∀ a, c.number a = n)
    (small : n < 2 ^ 29) : Edits [n] c (fun _ => editor) (only n editor) where
  child a := if_pos (number a)
  small a := number a ▸ small
  other m other := if_neg fun same => other (by simp [same])

section Nodes
variable {env : Envelope} {masks : MaskTable} {α : Type} {governed : List Nat} {c : Coding α} {g : Governor α}
  {editor : α → Editor} {level : Level}

theorem editNode_plain (edits : Edits governed c editor level) (o : Plain governed) (p i : Nat) :
    editOne level (p, o.field) i = some (.keep (p, o.field), i) := by
  refine editOne_kept fun two => edits.other _ fun member => ?_
  rw [Nat.mod_eq_of_lt (Nat.lt_trans o.small (by decide))] at member
  exact o.other member two

/-- What the edits of a node list write is the encoding of the governed list. -/
theorem editNodes (edits : Edits governed c editor level) (codes : Codes env masks c g editor)
    (nodes : List (Node governed α)) (p i : Nat) (here : At env.raw p (encodeNodes c nodes))
    (short : (encodeNodes c nodes).length < 2 ^ 64) :
    ∃ es, editFields level (locate p (nodes.map (Node.field c))) i = some (es, (governNodes c g p i nodes).2) ∧
      render env.raw masks (es.flatMap (Edit.cells env.raw masks)) = encodeNodes c (governNodes c g p i nodes).1 := by
  induction nodes generalizing p i with
  | nil => exact ⟨[], rfl, rfl⟩
  | cons node nodes ih =>
    rw [encodeNodes_cons] at here short
    rw [List.length_append] at short
    have next := here.right
    cases node with
    | plain o =>
      obtain ⟨es, edited, rendered⟩ := ih (p + o.field.size) i next (by omega)
      refine ⟨.keep (p, o.field) :: es, ?_, ?_⟩
      · simp only [List.map_cons, Node.field, locate, editFields, editNode_plain edits, Option.bind_some, edited,
          Option.map_some, governNodes]
      · rw [List.flatMap_cons, render_append, rendered, Edit.cells, render_rawCells]
        have same : slice env.raw p (p + o.field.size) = o.field.bytes := here.left.slice
        rw [same]
        rfl
    | child a =>
      simp only [Node.field] at here short next
      obtain ⟨f, hf⟩ : ∃ f, Field.delimited (c.number a) (c.encode a) = f := ⟨_, rfl⟩
      have body : At env.raw (bodyPos (p, f)) (c.encode a) := by
        have := here.left
        rw [Field.bytes] at this
        subst hf
        exact this.right
      have inner : (c.encode a).length < 2 ^ 64 := by
        simp only [Field.bytes, List.length_append, body_delimited] at short
        omega
      obtain ⟨change, changed, left⟩ := codes a (bodyPos (p, f)) i body inner
      obtain ⟨es, edited, rendered⟩ := ih (p + f.size) (g (bodyPos (p, f)) i a).2 (hf ▸ next) (by omega)
      have is : IsField (c.number a) 2 (p, f) := by
        subst hf
        exact ⟨by rw [number_delimited, Nat.mod_eq_of_lt (Nat.lt_trans (edits.small a) (by decide))],
          wire_delimited _ _⟩
      have payload : payload (p, f) = ⟨bodyPos (p, f), c.encode a⟩ := by subst hf; rfl
      have one : editOne level (p, f) i
          = some (change.edit (c.number a) (p, f), (g (bodyPos (p, f)) i a).2) := by
        rw [editOne_edited (edits.child a) is, payload, changed]
        rfl
      refine ⟨change.edit (c.number a) (p, f) :: es, ?_, ?_⟩
      · simp only [List.map_cons, Node.field, hf, locate, editFields, one, Option.bind_some, edited,
          Option.map_some, governNodes]
      · rw [List.flatMap_cons, render_append, rendered, governNodes, hf]
        cases gone : (g (bodyPos (p, f)) i a).1 with
        | none =>
          rw [gone] at left
          simp only at left
          subst left
          rfl
        | some a' =>
          rw [gone] at left
          obtain ⟨stays, written, number⟩ := left
          have field : render env.raw masks ((change.edit (c.number a) (p, f)).cells env.raw masks)
              = (Field.delimited (c.number a) (c.encode a')).bytes := by
            cases change with
            | dropped => exact absurd rfl stays
            | rebuilt cells =>
              simp only [Change.edit, Edit.cells, render_append, render_litCells]
              rw [Change.cells] at written
              rw [written]
              rfl
            | unchanged =>
              have same : c.encode a = c.encode a' := by
                rw [← written, Change.cells]
                exact (render_text (t := ⟨bodyPos (p, f), c.encode a⟩) body).symm
              simp only [Change.edit, Edit.cells, render_rawCells]
              rw [← same, hf]
              exact (hf ▸ here.left).slice
          rw [field]
          simp only [Option.map_some, Option.toList_some, List.singleton_append, encodeNodes_cons, Node.field, number]

theorem editMessage_codes (edits : Edits governed c editor level) (codes : Codes env masks c g editor)
    {nodes : List (Node governed α)} {p i : Nat} (here : At env.raw p (encodeNodes c nodes))
    (short : (encodeNodes c nodes).length < 2 ^ 64) :
    ∃ change, editMessage env.raw masks level ⟨p, encodeNodes c nodes⟩ i
        = some (change, (governNodes c g p i nodes).2) ∧ change ≠ .dropped ∧
      render env.raw masks (change.cells ⟨p, encodeNodes c nodes⟩) = encodeNodes c (governNodes c g p i nodes).1 := by
  obtain ⟨es, edited, rendered⟩ := editNodes edits codes nodes p i here short
  have read := encodeNodes_fields edits.small short
  refine ⟨settle env.raw masks es, ?_, settle_stays _ _ _, ?_⟩
  · simp only [editMessage, read, Option.bind_some, edited, Option.map_some]
  · rw [settle_cells (t := ⟨p, encodeNodes c nodes⟩) read edited, rendered]

theorem Codes.message (edits : Edits governed c editor level) (codes : Codes env masks c g editor) (n : Nat) :
    Codes env masks ⟨fun _ => n, encodeNodes c⟩ ((@governMessage _ governed) c g)
      fun _ => editMessage env.raw masks level := by
  intro nodes p i here short
  obtain ⟨change, edited, stays, rendered⟩ := editMessage_codes edits codes here short
  exact ⟨change, edited, stays, rendered, rfl⟩

end Nodes

/-! ### The levels of a request -/

section Levels
variable {env : Envelope} {masks : MaskTable} (ranged : env.decisions.Ranged) (known : env.decisions.Known masks)
  (apart : ∀ i, (env.decisions.redactionsFor i).Pairwise (Interval.Apart spanStart spanStop))
include ranged known apart

theorem string_codes :
    Codes env masks stringCoding (governString env.decisions masks) fun _ => scalarEditor env masks := by
  intro s p i here short
  obtain ⟨⟨change, j⟩, edited⟩ := Option.isSome_iff_exists.mp (scalarEditor_isSome known ⟨p, s⟩ i)
  obtain rfl : j = i := scalarEditor_steady _ _ _ edited
  obtain ⟨rendered, stays⟩ := scalarEditor_render edited
  exact ⟨change, edited, stays, rendered.trans (governText_replace here ranged (apart j)), rfl⟩

theorem anyValue_codes :
    Codes env masks anyValueCoding (governAnyValue env.decisions masks) fun _ => anyValueEditor env masks :=
  Codes.message (only_edits (fun _ => rfl) (by decide)) (string_codes ranged known apart) 2

theorem keyValue_codes :
    Codes env masks keyValueCoding (governKeyValue env.decisions masks) fun _ => keyValueEditor env masks :=
  Codes.message (only_edits (fun _ => rfl) (by decide)) (anyValue_codes ranged known apart) 6

def recordPartEditor (env : Envelope) (masks : MaskTable) : AnyValueTree ⊕ KeyValueTree → Editor
  | .inl _ => anyValueEditor env masks
  | .inr _ => keyValueEditor env masks

omit ranged known apart in
theorem recordPart_edits : Edits [5, 6] recordPartCoding (recordPartEditor env masks) (recordLevel env masks) where
  child part := by cases part <;> rfl
  small := recordPart_small
  other n other := by
    rw [recordLevel, if_neg fun five => other (by simp [five]), if_neg fun six => other (by simp [six])]

theorem recordPart_codes :
    Codes env masks recordPartCoding (governRecordPart env.decisions masks) (recordPartEditor env masks) := by
  intro part p i here short
  cases part with
  | inl body =>
    obtain ⟨change, edited, left⟩ := anyValue_codes ranged known apart body p i here short
    exact ⟨change, edited, left.1, left.2.1, rfl⟩
  | inr attr =>
    obtain ⟨change, edited, left⟩ := keyValue_codes ranged known apart attr p i here short
    exact ⟨change, edited, left.1, left.2.1, rfl⟩

theorem record_codes :
    Codes env masks recordCoding (governRecord env.decisions masks) fun _ => recordEditor env masks := by
  intro t p i here short
  unfold governRecord recordEditor
  beta_reduce
  by_cases drop : env.decisions.samplingVerdict i = .drop
  · rw [if_pos drop, if_pos drop]
    exact ⟨.dropped, rfl, rfl⟩
  · rw [if_neg drop, if_neg drop]
    obtain ⟨change, edited, stays, rendered⟩ :=
      editMessage_codes recordPart_edits (recordPart_codes ranged known apart) here short
    exact ⟨change, Option.map_eq_some_iff.mpr ⟨_, edited, rfl⟩, stays, rendered, rfl⟩

theorem scope_codes :
    Codes env masks scopeCoding (governScope env.decisions masks) fun _ => scopeEditor env masks :=
  Codes.message (only_edits (fun _ => rfl) (by decide)) (record_codes ranged known apart) 2

theorem resource_codes :
    Codes env masks resourceCoding (governResource env.decisions masks) fun _ => resourceEditor env masks :=
  Codes.message (only_edits (fun _ => rfl) (by decide)) (scope_codes ranged known apart) 1

theorem request_codes {t : RequestTree} (whole : env.raw = encodeRequest t) (short : (encodeRequest t).length < 2 ^ 64) :
    ∃ change j, requestEditor env masks ⟨0, encodeRequest t⟩ 0 = some (change, j) ∧
      render env.raw masks (change.cells ⟨0, encodeRequest t⟩) = encodeRequest (governRequest env.decisions masks t) := by
  have edits : Edits [1] resourceCoding (fun _ => resourceEditor env masks) (requestLevel env masks) :=
    only_edits (fun _ => rfl) (by decide)
  have here : At env.raw 0 (encodeRequest t) := whole ▸ at_self (encodeRequest t)
  obtain ⟨change, edited, -, rendered⟩ :=
    editMessage_codes edits (resource_codes ranged known apart) (i := 0) here short
  exact ⟨change, _, edited, rendered⟩

end Levels

/-! ### Nothing to do -/

def Idle {α : Type} (g : Governor α) : Prop := ∀ p i a, (g p i a).1 = some a

theorem Idle.nodes {α : Type} {governed : List Nat} {c : Coding α} {g : Governor α} (idle : Idle g) (p i : Nat)
    (nodes : List (Node governed α)) : (governNodes c g p i nodes).1 = nodes := by
  induction nodes generalizing p i with
  | nil => rfl
  | cons node nodes ih =>
    cases node with
    | plain o => simp only [governNodes, ih]
    | child a =>
      simp only [governNodes, ih]
      rw [idle _ i a]
      rfl

theorem Idle.message {α : Type} {governed : List Nat} {c : Coding α} {g : Governor α} (idle : Idle g) :
    Idle ((@governMessage _ governed) c g) := fun p i nodes => congrArg some (idle.nodes p i nodes)

theorem governRequest_idle {d : Decisions} (masks : MaskTable) (undropped : d.anyDropped = false)
    (clean : d.redactions = []) (t : RequestTree) : governRequest d masks t = t := by
  have string : Idle (governString d masks) := fun p i s => by
    simp [governString, stringSpans, Decisions.redactionsFor, clean, replaceSpans]
  have anyValue : Idle (governAnyValue d masks) := string.message
  have part : Idle (governRecordPart d masks) := fun p i part => by
    cases part with
    | inl body => exact congrArg (Option.map Sum.inl) (anyValue p i body)
    | inr attr => exact congrArg (Option.map Sum.inr) (anyValue.message p i attr)
  have record : Idle (governRecord d masks) := fun p i t => by
    have keep : d.samplingVerdict i ≠ .drop := by rw [samplingVerdict_kept undropped]; decide
    rw [governRecord, if_neg keep, part.nodes]
  exact record.message.message.nodes 0 0 t

/-- The payload is a fresh encoding of the governed request. -/
theorem assemble_encodes {t : RequestTree} {views : List RecordView} {d : Decisions} {masks : MaskTable}
    (parsed : parseExportLogsRequest (encodeRequest t) [] = .ok views) (ranged : d.Ranged) (known : d.Known masks)
    (apart : ∀ i, (d.redactionsFor i).Pairwise (Interval.Apart spanStart spanStop))
    (fits : (encodeRequest t).length < 2 ^ 64) :
    ∃ out, assemble ⟨encodeRequest t, views, d⟩ masks = .ok out ∧
      out.contiguous = encodeRequest (governRequest d masks t) ∧
      out.len = (encodeRequest (governRequest d masks t)).length := by
  obtain ⟨rs, found, rfl⟩ := parseExportLogsRequest_ok.mp parsed
  have met := (@assemble_meets ⟨encodeRequest t, rs.map Record.view, d⟩ masks) ranged
  have written : ∃ cells, assembleCells ⟨encodeRequest t, rs.map Record.view, d⟩ masks = some cells ∧
      render (encodeRequest t) masks cells = encodeRequest (governRequest d masks t) := by
    unfold assembleCells
    split
    · rename_i idle
      rw [nothing_iff] at idle
      refine ⟨_, rfl, ?_⟩
      rw [governRequest_idle masks idle.1 idle.2, render_rawCells]
      simp [slice]
    · obtain ⟨change, j, edited, rendered⟩ := (@request_codes ⟨encodeRequest t, rs.map Record.view, d⟩ masks) ranged known apart rfl fits
      rw [records_eq] at found
      obtain ⟨_, -, -, index⟩ := (@requestEditor_agrees ⟨encodeRequest t, rs.map Record.view, d⟩ masks) known _ _ _ found
      have counted : j = rs.length := index _ edited
      refine ⟨change.cells ⟨0, encodeRequest t⟩, ?_, rendered⟩
      simp only [edited, Option.bind_some, counted, List.length_map, ↓reduceIte]
  obtain ⟨cells, written, rendered⟩ := written
  rw [written] at met
  obtain ⟨out, assembled, bytes, len⟩ := met
  have whole := bytes.trans rendered
  exact ⟨out, assembled, whole, by rw [len, whole]⟩

def marker : Plain [2] := ⟨⟨120, [120], [], [7]⟩, by decide, by decide, by decide⟩

/-- A marker before a scope with an empty record and one with the body `abc`. -/
def grove : RequestTree :=
  [.child [.plain marker, .child [.child [], .child [.child (.inl [.child [97, 98, 99]])]]]]

def groveDecisions : Decisions where
  sampling := [.drop, .keep]
  redactions := [⟨stageSample, 1, ⟨⟨15, 16⟩, 0⟩⟩]

def groveViews : List RecordView :=
  [⟨⟨8, 8⟩, none, [], none, none, none⟩, ⟨⟨14, 17⟩, none, [], none, none, none⟩]

theorem assemble_encodes_grove : ∃ out, assemble ⟨encodeRequest grove, groveViews, groveDecisions⟩ [[42, 42]] = .ok out ∧
    out.contiguous = encodeRequest (governRequest groveDecisions [[42, 42]] grove) ∧
    out.len = (encodeRequest (governRequest groveDecisions [[42, 42]] grove)).length :=
  assemble_encodes (by decide +kernel) (by simp [Decisions.Ranged, groveDecisions])
    (by simp [Decisions.Known, groveDecisions, MaskTable.bytes])
    (fun i => by
      have one : (groveDecisions.redactionsFor i).Sublist (groveDecisions.redactions.map StageRedaction.redaction) :=
        List.filter_sublist.map StageRedaction.redaction
      exact (List.pairwise_singleton _ _).sublist one)
    (by decide +kernel)

end ArchivAgent
