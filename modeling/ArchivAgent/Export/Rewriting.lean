import ArchivAgent.Export.Cells
import ArchivAgent.Ingest.Reading

/-!
# What the builders build

The builders without their cursor. A message is rewritten field by field: a field is kept, dropped
or put again with new content, and a message whose fields are all kept is unchanged. A `Level` says
which fields have an editor; the number is the record index. `assemble_meets` ties the two together.
-/

namespace ArchivAgent
open Wire

inductive Change where
  | unchanged
  | dropped
  | rebuilt (cells : List Cell)
  deriving DecidableEq, Repr

inductive Edit where
  | keep (q : Nat × Field)
  | drop
  | put (number : Nat) (content : List Cell)
  deriving DecidableEq, Repr

def Change.edit (number : Nat) (q : Nat × Field) : Change → Edit
  | .unchanged => .keep q
  | .dropped => .drop
  | .rebuilt cells => .put number cells

def Edit.isKeep : Edit → Bool
  | .keep _ => true
  | _ => false

abbrev Editor := Text → Nat → Option (Change × Nat)

abbrev Level := Nat → Option Editor

def editOne (level : Level) (q : Nat × Field) (i : Nat) : Option (Edit × Nat) :=
  match if q.2.wire = 2 then level (q.2.number % 2 ^ 32) else none with
  | some editor => (editor (payload q) i).map fun c => (c.1.edit (q.2.number % 2 ^ 32) q, c.2)
  | none => some (.keep q, i)

def editFields (level : Level) : List (Nat × Field) → Nat → Option (List Edit × Nat)
  | [], i => some ([], i)
  | q :: qs, i =>
    (editOne level q i).bind fun e => (editFields level qs e.2).map fun es => (e.1 :: es.1, es.2)

theorem editOne_kept {level : Level} {q : Nat × Field} {i : Nat}
    (other : q.2.wire = 2 → level (q.2.number % 2 ^ 32) = none) : editOne level q i = some (.keep q, i) := by
  unfold editOne
  split
  · rename_i editor found
    split at found
    · rename_i two
      rw [other two] at found
      cases found
    · cases found
  · rfl

theorem editOne_edited {level : Level} {editor : Editor} {n : Nat} {q : Nat × Field} {i : Nat}
    (found : level n = some editor) (is : IsField n 2 q) :
    editOne level q i = (editor (payload q) i).map fun c => (c.1.edit n q, c.2) := by
  obtain ⟨rfl, two⟩ := is
  simp only [editOne, two, ↓reduceIte, found]

section Rewriting
variable (raw : Bytes) (masks : MaskTable)

def Edit.cells : Edit → List Cell
  | .keep q => rawCells q.1 (q.1 + q.2.size)
  | .drop => []
  | .put number content => litCells (header number (render raw masks content).length) ++ content

def settle (edits : List Edit) : Change :=
  if edits.all Edit.isKeep then .unchanged else .rebuilt (edits.flatMap (Edit.cells raw masks))

def editMessage (level : Level) : Editor := fun t i =>
  (fields t.bytes).bind fun fs =>
    (editFields level (locate t.pos fs) i).map fun es => (settle raw masks es.1, es.2)

end Rewriting

/-! ### The levels of a request -/

section Levels
variable (env : Envelope) (masks : MaskTable)

def spliceCells : Nat → Nat → List Redaction → List Cell
  | start, stop, [] => rawCells start stop
  | start, stop, r :: spans =>
    rawCells start r.target.start ++ .mask r.mask :: spliceCells r.target.stop stop spans

/-- A span whose mask is missing fails the whole payload. -/
def splice (start stop : Nat) (spans : List Redaction) : Option (List Cell) :=
  if spans.all fun r => (masks.bytes r.mask).isSome then some (spliceCells start stop spans) else none

def scalarEditor : Editor := fun t i =>
  let spans := effectiveSpans env i t.range
  if spans.isEmpty then some (.unchanged, i)
  else (splice masks t.range.start t.range.stop spans).map fun cells => (.rebuilt cells, i)

def anyValueLevel : Level := fun n => if n = 1 then some (scalarEditor env masks) else none

def anyValueEditor : Editor := editMessage env.raw masks (anyValueLevel env masks)

def keyValueLevel : Level := fun n => if n = 2 then some (anyValueEditor env masks) else none

def keyValueEditor : Editor := editMessage env.raw masks (keyValueLevel env masks)

def recordLevel : Level := fun n =>
  if n = 5 then some (anyValueEditor env masks) else if n = 6 then some (keyValueEditor env masks) else none

def recordEditor : Editor := fun t i =>
  if env.decisions.samplingVerdict i = .drop then some (.dropped, i + 1)
  else (editMessage env.raw masks (recordLevel env masks) t i).map fun c => (c.1, i + 1)

def scopeLevel : Level := fun n => if n = 2 then some (recordEditor env masks) else none

def scopeEditor : Editor := editMessage env.raw masks (scopeLevel env masks)

def resourceLevel : Level := fun n => if n = 2 then some (scopeEditor env masks) else none

def resourceEditor : Editor := editMessage env.raw masks (resourceLevel env masks)

def requestLevel : Level := fun n => if n = 1 then some (resourceEditor env masks) else none

def requestEditor : Editor := editMessage env.raw masks (requestLevel env masks)

end Levels

def Change.cells (t : Text) : Change → List Cell
  | .unchanged => rawCells t.range.start t.range.stop
  | .dropped => []
  | .rebuilt cells => cells

def assembleCells (env : Envelope) (masks : MaskTable) : Option (List Cell) :=
  if !env.decisions.anyDropped && env.decisions.redactionTotal == 0 then
    some (rawCells 0 env.raw.length)
  else (requestEditor env masks ⟨0, env.raw⟩ 0).bind fun c =>
    if c.2 = env.records.length then some (c.1.cells ⟨0, env.raw⟩) else none

theorem nothing_iff {d : Decisions} :
    (!d.anyDropped && d.redactionTotal == 0) = true ↔ d.anyDropped = false ∧ d.redactions = [] := by
  simp only [Decisions.redactionTotal, Bool.and_eq_true, Bool.not_eq_true', beq_iff_eq, List.length_eq_zero_iff]

/-- There was nothing to do, or the request was rewritten and every record was met. -/
theorem assembleCells_cases {env : Envelope} {masks : MaskTable} {cells : List Cell}
    (written : assembleCells env masks = some cells) :
    ((env.decisions.anyDropped = false ∧ env.decisions.redactions = []) ∧ cells = rawCells 0 env.raw.length) ∨
      ∃ c, requestEditor env masks ⟨0, env.raw⟩ 0 = some (c, env.records.length) ∧ cells = c.cells ⟨0, env.raw⟩ := by
  unfold assembleCells at written
  split at written
  · rename_i idle
    exact Or.inl ⟨nothing_iff.mp idle, (Option.some.inj written).symm⟩
  · obtain ⟨⟨c, n⟩, edited, counted⟩ := Option.bind_eq_some_iff.mp written
    simp only [Option.ite_none_right_eq_some, Option.some.injEq] at counted
    obtain ⟨rfl, rfl⟩ := counted
    exact Or.inr ⟨c, edited, rfl⟩

/-! ### The walk the builders share -/

def editStep (level : Level) (s : List Edit × Nat) (q : Nat × Field) : Option (List Edit × Nat) :=
  (editOne level q s.2).map fun e => (s.1 ++ [e.1], e.2)

theorem foldlM_editStep (level : Level) (qs : List (Nat × Field)) (s : List Edit × Nat) :
    qs.foldlM (editStep level) s = (editFields level qs s.2).map fun es => (s.1 ++ es.1, es.2) := by
  induction qs generalizing s with
  | nil => simp [editFields]
  | cons q qs ih =>
    simp only [List.foldlM_cons, editFields, editStep]
    cases editOne level q s.2 with
    | none => rfl
    | some e =>
      simp only [Option.map_some, Option.bind_some, Option.bind_eq_bind, ih, Option.map_map, Function.comp_def,
        List.append_assoc, List.singleton_append]

theorem readFields_editStep (level : Level) (t : Text) (i : Nat) :
    readFields (editStep level) t ([], i)
      = (fields t.bytes).bind fun fs => editFields level (locate t.pos fs) i := by
  simp [readFields, foldlM_editStep]

/-- The rebuilding state at offset `p`: what it has built, with the open run up to `p`, is what
the edits so far write. -/
structure Drafted (raw : Bytes) (masks : MaskTable) (p : Nat) (edits : List Edit) (s : Rebuild) : Prop where
  run : s.run ≤ p
  cells : segsCells s.segs ++ rawCells s.run p = edits.flatMap (Edit.cells raw masks)
  sound : SegsSound raw masks s.segs
  changed : s.changed = !edits.all Edit.isKeep

def Change.Matches (raw : Bytes) (masks : MaskTable) : Change → Child → Prop
  | .unchanged, .unchanged => True
  | .dropped, .dropped => True
  | .rebuilt cells, .rebuilt segs => segsCells segs = cells ∧ SegsSound raw masks segs
  | _, _ => False

section Drafted
variable {raw : Bytes} {masks : MaskTable} {p : Nat} {edits : List Edit} {s : Rebuild}

theorem Drafted.start (p : Nat) : Drafted raw masks p [] { run := p } :=
  ⟨Nat.le_refl p, by simp [segsCells, rawCells_empty], trivial, rfl⟩

theorem Drafted.flush_cells (h : Drafted raw masks p edits s) :
    segsCells (s.flush p) = edits.flatMap (Edit.cells raw masks) := by
  rw [← h.cells, Rebuild.flush]
  split
  · simp only [segsCells_eq, List.flatMap_append, List.flatMap_singleton, Seg.cells]
  · rw [rawCells_empty (by omega), List.append_nil]

theorem Drafted.flush_sound (h : Drafted raw masks p edits s) (inside : p ≤ raw.length) :
    SegsSound raw masks (s.flush p) := by
  rw [Rebuild.flush]
  split
  · exact segsSound_append.mpr ⟨h.sound, segsSound_singleton.mpr inside⟩
  · exact h.sound

theorem Drafted.keep (h : Drafted raw masks p edits s) (f : Field) :
    Drafted raw masks (p + f.size) (edits ++ [.keep (p, f)]) s := by
  refine ⟨Nat.le_trans h.run (Nat.le_add_right _ _), ?_, h.sound, by simp [h.changed, Edit.isKeep]⟩
  rw [List.flatMap_append, ← h.cells, List.append_assoc, List.flatMap_singleton]
  simp only [Edit.cells]
  rw [rawCells_append h.run (Nat.le_add_right _ _)]

theorem Drafted.put (h : Drafted raw masks p edits s) (inside : p ≤ raw.length) {seg : Seg} {n : Nat}
    {content : List Cell} (sound : seg.Sound raw masks)
    (same : seg.cells = (Edit.put n content).cells raw masks) (pos : Nat) :
    Drafted raw masks pos (edits ++ [.put n content]) (s.put p seg pos) := by
  refine ⟨Nat.le_refl _, ?_, segsSound_append.mpr ⟨h.flush_sound inside, segsSound_singleton.mpr sound⟩,
    by simp [Rebuild.put, Edit.isKeep]⟩
  simp only [Rebuild.put, rawCells_empty (Nat.le_refl pos), List.append_nil, List.flatMap_append,
    List.flatMap_singleton, ← same, ← h.flush_cells]
  simp only [segsCells_eq, List.flatMap_append, List.flatMap_singleton]

theorem Drafted.cut (h : Drafted raw masks p edits s) (inside : p ≤ raw.length) (pos : Nat) :
    Drafted raw masks pos (edits ++ [.drop]) (s.cut p pos) := by
  refine ⟨Nat.le_refl _, ?_, h.flush_sound inside, by simp [Rebuild.cut, Edit.isKeep]⟩
  simp only [Rebuild.cut, rawCells_empty (Nat.le_refl pos), List.append_nil, List.flatMap_append,
    List.flatMap_singleton, Edit.cells, h.flush_cells]

theorem Drafted.finish (h : Drafted raw masks p edits s) (inside : p ≤ raw.length) :
    (settle raw masks edits).Matches raw masks (s.finish p) := by
  rw [settle, Rebuild.finish, h.changed, Bool.not_not]
  split
  · trivial
  · exact ⟨h.flush_cells, h.flush_sound inside⟩

theorem Drafted.nested (h : Drafted raw masks p edits s) (inside : p ≤ raw.length) {inner : List Seg}
    {cells : List Cell} (same : segsCells inner = cells) (sound : SegsSound raw masks inner) (n pos : Nat) :
    Drafted raw masks pos (edits ++ [.put n cells]) (s.put p (.nested n (segsEncodedLen inner) inner) pos) := by
  refine (@Drafted.put _ _ _ _ _ h inside (.nested n (segsEncodedLen inner) inner)) ?_ ?_ pos
  · exact And.intro (segsEncodedLen_eq sound) sound
  · rw [Seg.cells, Edit.cells, segsEncodedLen_eq sound, same]

end Drafted

/-! ### Strings -/

def Decisions.Ranged (d : Decisions) : Prop := ∀ r ∈ d.redactions, r.redaction.target.start ≤ r.redaction.target.stop

theorem resolveSpans_sublist (cursor : Nat) (spans : List Redaction) :
    (resolveSpans cursor spans).Sublist spans := by
  induction spans generalizing cursor with
  | nil => exact .slnil
  | cons r spans ih =>
    rw [resolveSpans]
    split
    · exact (ih cursor).cons r
    · exact (ih r.target.stop).cons_cons r

theorem mem_effectiveSpans {env : Envelope} {i : Nat} {w : Range} {r : Redaction}
    (h : r ∈ effectiveSpans env i w) :
    r ∈ env.decisions.redactionsFor i ∧ w.start ≤ r.target.start ∧ r.target.stop ≤ w.stop := by
  have sorted := (resolveSpans_sublist _ _).subset h
  rw [(List.perm_insertionSort _ _).mem_iff, List.mem_filter] at sorted
  exact ⟨sorted.1, of_decide_eq_true sorted.2⟩

theorem mem_redactionsFor {d : Decisions} {i : Nat} {r : Redaction} :
    r ∈ d.redactionsFor i ↔ ∃ s ∈ d.redactions, s.record = i ∧ s.redaction = r := by
  simp only [Decisions.redactionsFor, List.mem_map, List.mem_filter, beq_iff_eq, and_assoc]

theorem effectiveSpans_ranged {env : Envelope} (ranged : env.decisions.Ranged) {i : Nat} {w : Range}
    {r : Redaction} (h : r ∈ effectiveSpans env i w) : r.target.start ≤ r.target.stop := by
  obtain ⟨s, pushed, -, rfl⟩ := mem_redactionsFor.mp (mem_effectiveSpans h).1
  exact ranged s pushed

/-- What `splice` has written so far: sound parts whose size it knows. -/
structure Spliced (raw : Bytes) (masks : MaskTable) (s : ScalarState) (cells : List Cell) : Prop where
  written : s.parts.flatMap Part.cells = cells
  size : s.size = (render raw masks cells).length
  sound : ∀ part ∈ s.parts, part.Sound raw masks

section Splice
variable {raw : Bytes} {masks : MaskTable} {s : ScalarState} {cells : List Cell}

theorem Spliced.snoc (h : Spliced raw masks s cells) {part : Part} (sound : part.Sound raw masks)
    {n : Nat} (size : n = (render raw masks part.cells).length) (cursor : Nat) :
    Spliced raw masks ⟨cursor, s.size + n, s.parts ++ [part]⟩ (cells ++ part.cells) := by
  refine ⟨by simp [h.written], by rw [h.size, size, render_append, List.length_append], ?_⟩
  simp only [List.mem_append, List.mem_singleton]
  rintro p (old | rfl)
  · exact h.sound p old
  · exact sound

theorem Spliced.upTo (h : Spliced raw masks s cells) {stop : Nat} (inside : stop ≤ raw.length) :
    Spliced raw masks
      (if s.cursor < stop then
        { s with size := s.size + (stop - s.cursor), parts := s.parts ++ [.raw ⟨s.cursor, stop⟩] } else s)
      (cells ++ rawCells s.cursor stop) := by
  split
  · exact (@Spliced.snoc _ _ _ _ h (.raw ⟨s.cursor, stop⟩)) inside
      (by rw [Part.cells, render_rawCells, length_slice inside]) s.cursor
  · rw [rawCells_empty (by omega), List.append_nil]
    exact h

theorem Spliced.scalar (h : Spliced raw masks s cells) (number : Nat) :
    (Seg.scalar number s.size s.parts).cells = (Edit.put number cells).cells raw masks ∧
      (Seg.scalar number s.size s.parts).Sound raw masks := by
  refine ⟨?_, ?_, h.sound⟩
  · rw [Seg.cells, Edit.cells, h.size, h.written]
  · rw [h.size, h.written]

theorem spliceSpans_meets (stop : Nat) {spans : List Redaction}
    (inside : ∀ r ∈ spans, r.target.start ≤ raw.length) (h : Spliced raw masks s cells) :
    Meets (fun written s' => ∃ before, Spliced raw masks s' before ∧
        before ++ rawCells s'.cursor stop = cells ++ written)
      (spliceSpans masks spans s) (splice masks s.cursor stop spans) := by
  induction spans generalizing s cells with
  | nil => exact meets_ok (b := rawCells s.cursor stop) ⟨cells, h, rfl⟩
  | cons r spans ih =>
    simp only [List.mem_cons, forall_eq_or_imp] at inside
    have before := h.upTo inside.1
    simp only [spliceSpans, splice, List.all_cons]
    rcases Option.eq_none_or_eq_some (masks.bytes r.mask) with known | ⟨m, known⟩
    · simp only [known, Option.isSome_none, Bool.false_and, Bool.false_eq_true, ↓reduceIte]
      exact ⟨_, rfl⟩
    · have next := (@Spliced.snoc _ _ _ _ before (.mask r.mask)) (by simp [Part.Sound, known]) (n := m.length)
        (by simp [Part.cells, render, Cell.bytes, known]) r.target.stop
      have rest := ih inside.2 next
      simp only [splice] at rest
      simp only [known, Option.isSome_some, Bool.true_and]
      by_cases all : (spans.all fun r => (masks.bytes r.mask).isSome) = true
      · rw [if_pos all] at rest ⊢
        obtain ⟨s', same, prior, holds, eq⟩ := rest
        refine ⟨s', same, prior, holds, ?_⟩
        rw [eq, spliceCells]
        simp only [Part.cells, List.append_assoc, List.singleton_append]
      · rw [if_neg all] at rest ⊢
        exact rest

end Splice

/-- The string field's segment for what becomes of its text. -/
def Change.MatchesScalar (raw : Bytes) (masks : MaskTable) (number : Nat) : Change → Option Seg → Prop
  | .unchanged, none => True
  | .rebuilt cells, some seg => seg.cells = (Edit.put number cells).cells raw masks ∧ seg.Sound raw masks
  | _, _ => False

section Builders
variable {env : Envelope} {masks : MaskTable} {t : Text} {i : Nat}

theorem buildScalar_meets (ranged : env.decisions.Ranged) (stands : t.In env.raw) (number : Nat) :
    Meets (fun c o => c.1.MatchesScalar env.raw masks number o ∧ c.2 = i) (buildScalar number t.range i env masks)
      (scalarEditor env masks t i) := by
  unfold buildScalar scalarEditor
  by_cases empty : (effectiveSpans env i t.range).isEmpty
  · simp only [empty, ↓reduceIte]
    exact meets_ok (b := (Change.unchanged, i)) ⟨trivial, rfl⟩
  · have inside : ∀ r ∈ effectiveSpans env i t.range, r.target.start ≤ env.raw.length := by
      intro r hr
      have := effectiveSpans_ranged ranged hr
      have := (mem_effectiveSpans hr).2.2
      have := stands.bound
      omega
    simp only [empty, Bool.false_eq_true, ↓reduceIte]
    refine (spliceSpans_meets t.range.stop inside
      (⟨rfl, rfl, by simp⟩ : Spliced env.raw masks { cursor := t.range.start } [])).map fun written s _ hs => ?_
    obtain ⟨before, h, same⟩ := hs
    rw [List.nil_append] at same
    have whole := h.upTo stands.bound
    rw [same] at whole
    by_cases more : s.cursor < t.range.stop
    · rw [if_pos more] at whole
      exact ⟨_, if_pos more, whole.scalar number, rfl⟩
    · rw [if_neg more] at whole
      exact ⟨_, if_neg more, whole.scalar number, rfl⟩

/-! ### The builders -/

/-- The state of a builder that stays with one record. -/
abbrev Within (env : Envelope) (masks : MaskTable) (i p : Nat) (b : List Edit × Nat) (s : Rebuild) : Prop :=
  Drafted env.raw masks p b.1 s ∧ b.2 = i

theorem Within.child {env : Envelope} {masks : MaskTable} {i p : Nat} {b : List Edit × Nat} {s : Rebuild}
    (h : Within env masks i p b s) (start : p ≤ env.raw.length) {change : Change} {child : Child}
    (same : change.Matches env.raw masks child) (stays : change ≠ .dropped) (n : Nat) (f : Field) :
    Within env masks i (p + f.size) (b.1 ++ [change.edit n (p, f)], i)
      (match child with
        | .rebuilt inner => s.put p (.nested n (segsEncodedLen inner) inner) (p + f.size)
        | _ => s) := by
  cases change <;> cases child <;> first | exact same.elim | exact absurd rfl stays | skip
  · exact ⟨h.1.keep f, rfl⟩
  · exact ⟨h.1.nested start same.1 same.2 n _, rfl⟩

theorem buildAnyValueField_follows (ranged : env.decisions.Ranged) (i : Nat) :
    WireCursor.Follows (Within env masks i) env.raw (buildAnyValueField i env masks)
      (editStep (anyValueLevel env masks)) where
  field := by
    intro p f rest c b s same inside related
    obtain ⟨drafted, rfl⟩ := related
    have start := same ▸ inside.start_le
    unfold buildAnyValueField editStep
    by_cases string : IsField 1 2 (p, f)
    · rw [if_pos string, inside.lenRange string.2, editOne_edited (if_pos rfl) string, Option.map_map]
      refine (buildScalar_meets ranged (same ▸ inside.payload) 1).map fun r o _ scalar => ?_
      obtain ⟨change, j⟩ := r
      obtain ⟨scalar, rfl⟩ := scalar
      cases change <;> cases o <;> first | exact scalar.elim | skip
      · exact ⟨_, rfl, ⟨drafted.keep f, rfl⟩, rfl⟩
      · exact ⟨_, rfl, ⟨drafted.put start scalar.2 scalar.1 _, rfl⟩, rfl⟩
    · rw [if_neg string, inside.skip, editOne_kept fun two => if_neg fun one => string ⟨one, two⟩]
      exact meets_ok ⟨⟨drafted.keep f, rfl⟩, rfl⟩
  stuck := by
    intro p n w bs c s sees missing
    exact Fails.ite (fun string => ((WireCursor.lenRange_fails sees missing string.2).mapErr _).bind _)
      (((WireCursor.skip_fails sees missing).mapErr _).bind _)

theorem editMessage_eq (raw : Bytes) (masks : MaskTable) (level : Level) (t : Text) (i : Nat) :
    editMessage raw masks level t i
      = ((fields t.bytes).bind fun fs => editFields level (locate t.pos fs) i).map
          fun es => (settle raw masks es.1, es.2) := by
  rw [editMessage, Option.map_bind]; rfl

theorem settle_stays (raw : Bytes) (masks : MaskTable) (edits : List Edit) : settle raw masks edits ≠ .dropped := by
  rw [settle]
  split <;> simp

theorem editMessage_stays {level : Level} {c : Change × Nat}
    (h : editMessage env.raw masks level t i = some c) : c.1 ≠ .dropped := by
  obtain ⟨fs, -, h⟩ := Option.bind_eq_some_iff.mp h
  obtain ⟨es, -, rfl⟩ := Option.map_eq_some_iff.mp h
  exact settle_stays _ _ _

/-- A builder is a walk that keeps its draft and then settles it. -/
theorem editMessage_meets {body : Nat → Nat → Nat → Rebuild → WireCursor → Run AssembleError (Rebuild × WireCursor)}
    {level : Level} (follows : WireCursor.Follows (Within env masks i) env.raw body (editStep level))
    (stands : t.In env.raw) :
    Meets (fun c child => c.1.Matches env.raw masks child ∧ c.2 = i)
      (do let s ← WireCursor.walk .wire body env.raw t.range { run := t.range.start }
          .ok (s.finish t.range.stop))
      (editMessage env.raw masks level t i) := by
  have walked := WireCursor.walk_meets .wire follows stands (b := ([], i)) ⟨Drafted.start _, rfl⟩
  rw [readFields_editStep] at walked
  rw [editMessage_eq]
  refine walked.map fun es s _ h => ?_
  exact ⟨_, rfl, h.1.finish stands.bound, h.2⟩

theorem buildAnyValue_meets (ranged : env.decisions.Ranged) (stands : t.In env.raw) :
    Meets (fun c child => c.1.Matches env.raw masks child ∧ c.2 = i) (buildAnyValue env.raw t.range i env masks)
      (anyValueEditor env masks t i) :=
  editMessage_meets (buildAnyValueField_follows ranged i) stands

theorem buildKeyValueField_follows (ranged : env.decisions.Ranged) (i : Nat) :
    WireCursor.Follows (Within env masks i) env.raw (buildKeyValueField env.raw i env masks)
      (editStep (keyValueLevel env masks)) where
  field := by
    intro p f rest c b s same inside related
    obtain ⟨drafted, rfl⟩ := related
    have start := same ▸ inside.start_le
    unfold buildKeyValueField editStep
    by_cases value : IsField 2 2 (p, f)
    · rw [if_pos value, inside.lenRange value.2, editOne_edited (if_pos rfl) value, Option.map_map]
      refine (buildAnyValue_meets ranged (same ▸ inside.payload)).map fun r child found matched => ?_
      obtain ⟨change, j⟩ := r
      obtain ⟨matched, rfl⟩ := matched
      refine ⟨(_, _), ?_, Within.child ⟨drafted, rfl⟩ start matched (editMessage_stays found) 2 f, rfl⟩
      cases child <;> rfl
    · rw [if_neg value, inside.skip, editOne_kept fun two => if_neg fun one => value ⟨one, two⟩]
      exact meets_ok ⟨⟨drafted.keep f, rfl⟩, rfl⟩
  stuck := by
    intro p n w bs c s sees missing
    exact Fails.ite (fun value => ((WireCursor.lenRange_fails sees missing value.2).mapErr _).bind _)
      (((WireCursor.skip_fails sees missing).mapErr _).bind _)

theorem buildKeyValue_meets (ranged : env.decisions.Ranged) (stands : t.In env.raw) :
    Meets (fun c child => c.1.Matches env.raw masks child ∧ c.2 = i) (buildKeyValue env.raw t.range i env masks)
      (keyValueEditor env masks t i) :=
  editMessage_meets (buildKeyValueField_follows ranged i) stands

theorem buildRecordField_follows (ranged : env.decisions.Ranged) (i : Nat) :
    WireCursor.Follows (Within env masks i) env.raw (buildRecordField env.raw i env masks)
      (editStep (recordLevel env masks)) where
  field := by
    intro p f rest c b s same inside related
    obtain ⟨drafted, rfl⟩ := related
    have start := same ▸ inside.start_le
    have stands : (payload (p, f)).In env.raw := same ▸ inside.payload
    unfold buildRecordField editStep
    by_cases governed : (f.number % 2 ^ 32 = 5 ∨ f.number % 2 ^ 32 = 6) ∧ f.wire = 2
    · rw [if_pos governed, inside.lenRange governed.2]
      rcases governed with ⟨body | attr, two⟩
      · rw [editOne_edited (if_pos rfl) ⟨body, two⟩, Option.map_map, if_pos body]
        simp only [body]
        refine (buildAnyValue_meets ranged stands).map fun r child found matched => ?_
        obtain ⟨change, j⟩ := r
        obtain ⟨matched, rfl⟩ := matched
        refine ⟨(_, _), ?_, Within.child ⟨drafted, rfl⟩ start matched (editMessage_stays found) 5 f, rfl⟩
        cases child <;> rfl
      · rw [editOne_edited (by rw [recordLevel, if_neg (by decide), if_pos rfl]) ⟨attr, two⟩, Option.map_map,
          if_neg (by rw [attr]; decide)]
        simp only [attr]
        refine (buildKeyValue_meets ranged stands).map fun r child found matched => ?_
        obtain ⟨change, j⟩ := r
        obtain ⟨matched, rfl⟩ := matched
        refine ⟨(_, _), ?_, Within.child ⟨drafted, rfl⟩ start matched (editMessage_stays found) 6 f, rfl⟩
        cases child <;> rfl
    · have other : ∀ two : f.wire = 2, recordLevel env masks (f.number % 2 ^ 32) = none := fun two => by
        rw [recordLevel, if_neg fun five => governed ⟨.inl five, two⟩, if_neg fun six => governed ⟨.inr six, two⟩]
      rw [if_neg governed, inside.skip, editOne_kept other]
      exact meets_ok ⟨⟨drafted.keep f, rfl⟩, rfl⟩
  stuck := by
    intro p n w bs c s sees missing
    exact Fails.ite (fun governed => ((WireCursor.lenRange_fails sees missing governed.2).mapErr _).bind _)
      (((WireCursor.skip_fails sees missing).mapErr _).bind _)

theorem buildRecord_meets (ranged : env.decisions.Ranged) (stands : t.In env.raw) :
    Meets (fun c child => c.1.Matches env.raw masks child ∧ c.2 = i + 1) (buildRecord env.raw t.range i env masks)
      (recordEditor env masks t i) := by
  unfold buildRecord recordEditor
  by_cases drop : env.decisions.samplingVerdict i = .drop
  · rw [if_pos drop, if_pos drop]
    exact meets_ok (b := (Change.dropped, i + 1)) ⟨trivial, rfl⟩
  · rw [if_neg drop, if_neg drop]
    have built := editMessage_meets ((@buildRecordField_follows _ masks) ranged i) stands
    cases edited : editMessage env.raw masks (recordLevel env masks) t i with
    | none => rw [edited] at built; exact built
    | some c =>
      rw [edited] at built
      obtain ⟨child, same, matched, rfl⟩ := built
      exact ⟨child, same, matched, rfl⟩

/-! ### Containers -/

def Builds (env : Envelope) (masks : MaskTable) (build : ChildBuilder) (editor : Editor) : Prop :=
  ∀ t i, t.In env.raw →
    Meets (fun c r => c.1.Matches env.raw masks r.1 ∧ c.2 = r.2) (build t.range i) (editor t i)

theorem buildContainerField_follows {build : ChildBuilder} {editor : Editor} (n : Nat)
    (builds : Builds env masks build editor) :
    WireCursor.Follows (fun p (b : List Edit × Nat) s => Drafted env.raw masks p b.1 s.1 ∧ b.2 = s.2) env.raw
      (buildContainerField n build) (editStep fun m => if m = n then some editor else none) where
  field := by
    intro p f rest c b s same inside related
    obtain ⟨edits, i⟩ := b
    obtain ⟨drafted, rfl⟩ := related
    have start := same ▸ inside.start_le
    unfold buildContainerField editStep
    by_cases child : IsField n 2 (p, f)
    · rw [if_pos child, inside.lenRange child.2, editOne_edited (if_pos rfl) child, Option.map_map]
      refine (builds _ s.2 (same ▸ inside.payload)).map fun r built _ matched => ?_
      obtain ⟨change, j⟩ := r
      obtain ⟨matched, rfl⟩ := matched
      obtain ⟨shape, j⟩ := built
      cases change <;> cases shape <;> first | exact matched.elim | skip
      · exact ⟨_, rfl, ⟨drafted.keep f, rfl⟩, rfl⟩
      · exact ⟨_, rfl, ⟨drafted.cut start _, rfl⟩, rfl⟩
      · exact ⟨_, rfl, ⟨drafted.nested start matched.1 matched.2 n _, rfl⟩, rfl⟩
    · rw [if_neg child, inside.skip, editOne_kept fun two => if_neg fun one => child ⟨one, two⟩]
      exact meets_ok ⟨⟨drafted.keep f, rfl⟩, rfl⟩
  stuck := by
    intro p m w bs c s sees missing
    exact Fails.ite (fun child => ((WireCursor.lenRange_fails sees missing child.2).mapErr _).bind _)
      (((WireCursor.skip_fails sees missing).mapErr _).bind _)

theorem buildContainer_builds {build : ChildBuilder} {editor : Editor} (n : Nat)
    (builds : Builds env masks build editor) :
    Builds env masks (fun w i => buildContainer env.raw w n build i)
      (editMessage env.raw masks fun m => if m = n then some editor else none) := by
  intro t i stands
  have walked := WireCursor.walk_meets .wire (buildContainerField_follows n builds) stands (b := ([], i))
    (s := ({ run := t.range.start }, i)) ⟨Drafted.start _, rfl⟩
  rw [readFields_editStep] at walked
  rw [editMessage_eq]
  refine walked.map fun es s _ h => ?_
  exact ⟨_, rfl, h.1.finish stands.bound, h.2⟩

theorem requestChild_builds (ranged : env.decisions.Ranged) :
    Builds env masks (requestChild env.raw env masks) (resourceEditor env masks) :=
  buildContainer_builds 2 (buildContainer_builds 2 fun _ i stands =>
    (buildRecord_meets ranged stands).andThen fun _ child _ h => ⟨(child, i + 1), rfl, h.1, h.2⟩)

/-! ### The whole payload -/

/-- What is written instead of the request: without a change, the request. -/
theorem buildRequest_meets (ranged : env.decisions.Ranged) (recIdx : Nat) :
    Meets (fun c r => segsCells r.1 = c.1.cells ⟨0, env.raw⟩ ∧ SegsSound env.raw masks r.1 ∧ c.2 = r.2)
      (buildRequest env.raw env masks recIdx) (requestEditor env masks ⟨0, env.raw⟩ recIdx) := by
  have whole : (Text.range ⟨0, env.raw⟩) = ⟨0, env.raw.length⟩ := by simp [Text.range]
  have built := buildContainer_builds 1 ((@requestChild_builds _ masks) ranged) ⟨0, env.raw⟩ recIdx (at_self env.raw)
  rw [whole] at built
  refine built.andThen fun c r found matched => ?_
  obtain ⟨change, i⟩ := c
  obtain ⟨child, j⟩ := r
  obtain ⟨matched, rfl⟩ := matched
  have stays := editMessage_stays found
  cases change <;> cases child <;> first | exact matched.elim | exact absurd rfl stays | skip
  · refine ⟨_, rfl, ?_, ⟨Nat.le_refl _, trivial⟩, rfl⟩
    simp only [segsCells, Seg.cells, List.append_nil, Change.cells, whole]
  · exact ⟨_, rfl, matched.1, matched.2, rfl⟩

theorem finish_wrote {raw bs : Bytes} {a : Assembler} (h : Wrote raw bs a) :
    a.finish.contiguous = bs ∧ a.finish.len = bs.length := by
  obtain ⟨⟨-, same, len⟩, empty⟩ := h.flushScratch
  rw [empty, List.append_nil] at same
  exact ⟨same, len⟩

/-- The assembler writes the cells or fails: it never panics, it always ends, and it counts what
it writes. -/
theorem assemble_meets (ranged : env.decisions.Ranged) :
    Meets (fun cells out => out.contiguous = render env.raw masks cells ∧ out.len = out.contiguous.length)
      (assemble env masks) (assembleCells env masks) := by
  unfold assemble assembleCells
  split
  · refine meets_ok ⟨?_, ?_⟩
    · rw [render_rawCells]; simp [AssembledPayload.contiguous]
    · simp [AssembledPayload.contiguous, slice]
  · refine (buildRequest_meets ranged 0).bind fun c r _ built => ?_
    obtain ⟨change, i⟩ := c
    obtain ⟨segs, j⟩ := r
    obtain ⟨same, sound, rfl⟩ := built
    simp only
    by_cases counted : i = env.records.length
    · rw [if_neg (not_not_intro counted), if_pos counted]
      obtain ⟨a, emitted, wrote⟩ := emitSegs_ok sound (⟨rfl, rfl, rfl⟩ : Wrote env.raw [] { raw := env.raw })
      rw [emitted]
      obtain ⟨bytes, len⟩ := finish_wrote wrote
      refine meets_ok ⟨?_, by rw [len, bytes]⟩
      rw [bytes, List.nil_append, same]
    · rw [if_pos counted, if_neg counted]
      exact ⟨_, rfl⟩

end Builders

end ArchivAgent
