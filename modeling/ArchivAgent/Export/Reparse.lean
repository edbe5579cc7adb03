import ArchivAgent.Export.Agreement
import ArchivAgent.Export.Splicing
import ArchivAgent.Ingest.Contents

/-!
# Reading what was written

A rewritten message is again a run of fields: the kept ones, and one in shortest form for each that
was put again. `reread` carries a reading of the old message over to the new one, field by field,
and the levels of a request are instances of it.
-/

namespace ArchivAgent
open Wire

def Edit.fields (raw : Bytes) (masks : MaskTable) : Edit → List Field
  | .keep q => [q.2]
  | .drop => []
  | .put n content => [Field.delimited n (render raw masks content)]

structure Stands (raw : Bytes) (q : Nat × Field) : Prop where
  wellFormed : q.2.WellFormed
  here : At raw q.1 q.2.bytes

theorem Stands.payload {raw : Bytes} {q : Nat × Field} (h : Stands raw q) : (payload q).In raw := h.here.right

theorem locate_stands {raw : Bytes} {t : Text} (stands : t.In raw) {fs : List Field}
    (read : fields t.bytes = some fs) : ∀ q ∈ locate t.pos fs, Stands raw q := by
  obtain ⟨same, good⟩ := fields_iff.mp read
  obtain ⟨p, bs⟩ := t
  simp only at same
  subst same
  clear read
  unfold Text.In at stands
  simp only at stands ⊢
  induction fs generalizing p with
  | nil => simp [locate]
  | cons f fs ih =>
    simp only [List.mem_cons, forall_eq_or_imp] at good
    rw [List.flatMap_cons] at stands
    simp only [locate, List.mem_cons, forall_eq_or_imp]
    exact ⟨⟨good.1, stands.left⟩, ih good.2 _ stands.right⟩

/-! ### The cells and the fields of a rewritten message -/

section Edits
variable {raw : Bytes} {masks : MaskTable} {level : Level} {i j : Nat}

theorem editOne_cases {q : Nat × Field} {e : Edit} (h : editOne level q i = some (e, j)) :
    (e = .keep q ∧ j = i ∧ (q.2.wire = 2 → level (q.2.number % 2 ^ 32) = none)) ∨
      ∃ editor c, q.2.wire = 2 ∧ level (q.2.number % 2 ^ 32) = some editor ∧
        editor (payload q) i = some (c, j) ∧ e = c.edit (q.2.number % 2 ^ 32) q := by
  unfold editOne at h
  split at h
  · rename_i editor found
    obtain ⟨⟨c, k⟩, changed, same⟩ := Option.map_eq_some_iff.mp h
    cases same
    split at found
    · rename_i two
      exact .inr ⟨editor, c, two, found, changed, rfl⟩
    · cases found
  · rename_i none
    cases h
    refine .inl ⟨rfl, rfl, fun two => ?_⟩
    rwa [if_pos two] at none

theorem editOne_keep {q q' : Nat × Field} (h : editOne level q i = some (.keep q', j)) : q' = q := by
  rcases editOne_cases h with ⟨same, -⟩ | ⟨_, c, -, -, -, same⟩
  · cases same; rfl
  · cases c <;> cases same
    rfl

theorem editFields_keep {qs : List (Nat × Field)} {es : List Edit} (h : editFields level qs i = some (es, j))
    (all : es.all Edit.isKeep = true) : es = qs.map .keep := by
  induction qs generalizing i es with
  | nil => cases h; rfl
  | cons q qs ih =>
    obtain ⟨⟨e, k⟩, one, rest⟩ := Option.bind_eq_some_iff.mp h
    obtain ⟨⟨es', j'⟩, more, same⟩ := Option.map_eq_some_iff.mp rest
    cases same
    simp only [List.all_cons, Bool.and_eq_true] at all
    rw [List.map_cons, ← ih more all.2]
    cases e with
    | keep q' => rw [editOne_keep one]
    | drop => cases all.1
    | put n content => cases all.1

theorem locate_cells (p : Nat) (fs : List Field) :
    (locate p fs).flatMap (fun q => rawCells q.1 (q.1 + q.2.size))
      = rawCells p (p + (fs.flatMap Field.bytes).length) := by
  induction fs generalizing p with
  | nil => simp [locate, rawCells_empty]
  | cons f fs ih =>
    have long : (f.bytes ++ fs.flatMap Field.bytes).length = f.size + (fs.flatMap Field.bytes).length := by
      rw [List.length_append]; rfl
    rw [locate, List.flatMap_cons, ih, List.flatMap_cons, long, ← Nat.add_assoc]
    exact rawCells_append (Nat.le_add_right _ _) (Nat.le_add_right _ _)

theorem settle_kept {t : Text} {fs : List Field} {es : List Edit} (read : fields t.bytes = some fs)
    (kept : es.all Edit.isKeep = true → es = (locate t.pos fs).map .keep) :
    (settle raw masks es).cells t = es.flatMap (Edit.cells raw masks) := by
  rw [settle]
  split
  · rename_i all
    rw [kept all, List.flatMap_map, Change.cells, Text.range]
    simp only [Edit.cells]
    rw [locate_cells, (fields_iff.mp read).1]
  · rfl

theorem settle_cells {t : Text} {fs : List Field} {es : List Edit} (read : fields t.bytes = some fs)
    (edited : editFields level (locate t.pos fs) i = some (es, j)) :
    (settle raw masks es).cells t = es.flatMap (Edit.cells raw masks) :=
  settle_kept read (editFields_keep edited)

/-- An edit whose fields can be read back. -/
def Edit.Legible (raw : Bytes) (masks : MaskTable) : Edit → Prop
  | .keep q => Stands raw q
  | .drop => True
  | .put n content => n < 2 ^ 32 ∧ (render raw masks content).length < 2 ^ 64

theorem Edit.Legible.render {e : Edit} (h : e.Legible raw masks) :
    ArchivAgent.render raw masks (e.cells raw masks) = (e.fields raw masks).flatMap Field.bytes := by
  cases e with
  | keep q =>
    simp only [Edit.cells, Edit.fields, List.flatMap_singleton, render_rawCells]
    exact (Stands.here h).slice
  | drop => rfl
  | put n content =>
    simp only [Edit.cells, Edit.fields, List.flatMap_singleton, render_append, render_litCells]
    rfl

theorem Edit.Legible.wellFormed {e : Edit} (h : e.Legible raw masks) :
    ∀ f ∈ e.fields raw masks, f.WellFormed := by
  cases e with
  | keep q => simpa [Edit.fields] using Stands.wellFormed h
  | drop => simp [Edit.fields]
  | put n content =>
    simp only [Edit.fields, List.mem_singleton, forall_eq]
    exact delimited_wellFormed (Nat.lt_trans h.1 (by decide)) h.2

theorem render_edits {es : List Edit} (legible : ∀ e ∈ es, e.Legible raw masks) :
    render raw masks (es.flatMap (Edit.cells raw masks)) = (es.flatMap (Edit.fields raw masks)).flatMap Field.bytes := by
  induction es with
  | nil => rfl
  | cons e es ih =>
    simp only [List.mem_cons, forall_eq_or_imp] at legible
    rw [List.flatMap_cons, render_append, legible.1.render, ih legible.2, List.flatMap_cons, List.flatMap_append]

theorem fields_edits {es : List Edit} (legible : ∀ e ∈ es, e.Legible raw masks) :
    fields (render raw masks (es.flatMap (Edit.cells raw masks))) = some (es.flatMap (Edit.fields raw masks)) := by
  rw [render_edits legible]
  refine fields_flatMap fun f member => ?_
  obtain ⟨e, he, hf⟩ := List.mem_flatMap.mp member
  exact (legible e he).wellFormed f hf

theorem editOne_legible {q : Nat × Field} {e : Edit} (stands : Stands raw q)
    (one : editOne level q i = some (e, j)) (short : (render raw masks (e.cells raw masks)).length < 2 ^ 64) :
    e.Legible raw masks := by
  rcases editOne_cases one with ⟨rfl, -⟩ | ⟨_, c, -, -, -, rfl⟩
  · exact stands
  · cases c with
    | unchanged => exact stands
    | dropped => trivial
    | rebuilt cells =>
      refine ⟨Nat.mod_lt _ (by decide), ?_⟩
      simp only [Change.edit, Edit.cells, render_append, List.length_append] at short
      omega

theorem editFields_legible {qs : List (Nat × Field)} {es : List Edit} (stands : ∀ q ∈ qs, Stands raw q)
    (edited : editFields level qs i = some (es, j))
    (short : (render raw masks (es.flatMap (Edit.cells raw masks))).length < 2 ^ 64) :
    ∀ e ∈ es, e.Legible raw masks := by
  induction qs generalizing i es with
  | nil => cases edited; simp
  | cons q qs ih =>
    obtain ⟨⟨e, k⟩, one, rest⟩ := Option.bind_eq_some_iff.mp edited
    obtain ⟨⟨es', j'⟩, more, same⟩ := Option.map_eq_some_iff.mp rest
    cases same
    simp only [List.mem_cons, forall_eq_or_imp] at stands ⊢
    simp only [List.flatMap_cons, render_append, List.length_append] at short
    exact ⟨editOne_legible stands.1 one (by omega), ih stands.2 more (by omega)⟩

/-! ### Carrying a reading over -/

section Reread
variable {β : Type} {step step' : β → Nat × Field → Option β} {Rel : Nat → β → β → Prop}

/-- One field: where the old reading takes the field, the new one takes what the edit leaves of it. -/
def Carries (raw : Bytes) (masks : MaskTable) (level : Level) (step step' : β → Nat × Field → Option β)
    (Rel : Nat → β → β → Prop) : Prop :=
  ∀ q i e j s s' s₁, Stands raw q → editOne level q i = some (e, j) →
    (render raw masks (e.cells raw masks)).length < 2 ^ 64 → step s q = some s₁ → Rel i s s' →
    ∀ p, ∃ s₁', (locate p (e.fields raw masks)).foldlM step' s' = some s₁' ∧ Rel j s₁ s₁'

theorem Carries.fields (carries : Carries raw masks level step step' Rel) {qs : List (Nat × Field)}
    {es : List Edit} {s s' s₁ : β} (stands : ∀ q ∈ qs, Stands raw q)
    (edited : editFields level qs i = some (es, j))
    (short : (render raw masks (es.flatMap (Edit.cells raw masks))).length < 2 ^ 64)
    (folded : qs.foldlM step s = some s₁) (related : Rel i s s') (p : Nat) :
    ∃ s₁', (locate p (es.flatMap (Edit.fields raw masks))).foldlM step' s' = some s₁' ∧ Rel j s₁ s₁' := by
  induction qs generalizing i es s s' p with
  | nil =>
    cases edited
    cases folded
    exact ⟨s', rfl, related⟩
  | cons q qs ih =>
    obtain ⟨⟨e, k⟩, one, rest⟩ := Option.bind_eq_some_iff.mp edited
    obtain ⟨⟨es', j'⟩, more, same⟩ := Option.map_eq_some_iff.mp rest
    cases same
    simp only [List.mem_cons, forall_eq_or_imp] at stands
    rw [List.foldlM_cons] at folded
    obtain ⟨mid, took, later⟩ := Option.bind_eq_some_iff.mp folded
    simp only [List.flatMap_cons, render_append, List.length_append] at short
    obtain ⟨mid', took', related'⟩ := carries q i e k s s' mid stands.1 one (by omega) took related p
    obtain ⟨s₁', later', related''⟩ := ih stands.2 more (by omega) later related'
      (p + ((e.fields raw masks).flatMap Field.bytes).length)
    refine ⟨s₁', ?_, related''⟩
    rw [List.flatMap_cons, locate_append, List.foldlM_append, took']
    exact later'

/-- A message read once and rewritten reads again, with what its fields carry over. -/
theorem reread (carries : Carries raw masks level step step' Rel) {t t' : Text} {c : Change} {s s₁ : β}
    (stands : t.In raw) (changed : editMessage raw masks level t i = some (c, j))
    (same : t'.bytes = render raw masks (c.cells t)) (short : t'.bytes.length < 2 ^ 64)
    (read : readFields step t s = some s₁) (s' : β) (related : Rel i s s') :
    ∃ s₁', readFields step' t' s' = some s₁' ∧ Rel j s₁ s₁' := by
  obtain ⟨fs, whole, settled⟩ := Option.bind_eq_some_iff.mp changed
  obtain ⟨⟨es, j'⟩, edited, eq⟩ := Option.map_eq_some_iff.mp settled
  cases eq
  simp only at same edited
  unfold readFields at read
  rw [whole, Option.bind_some] at read
  rw [settle_cells whole edited] at same
  rw [same] at short
  have old := locate_stands stands whole
  obtain ⟨s₁', folded, related'⟩ := carries.fields old edited short read related t'.pos
  refine ⟨s₁', ?_, related'⟩
  rw [readFields, same, fields_edits (editFields_legible old edited short), Option.bind_some, folded]

end Reread

theorem child_field {q : Nat × Field} {c : Change} {n : Nat} (stands : Stands raw q) (is : IsField n 2 q)
    (stays : c ≠ .dropped) (p : Nat) :
    ∃ f, (c.edit n q).fields raw masks = [f] ∧ IsField n 2 (p, f) ∧
      (payload (p, f)).bytes = render raw masks (c.cells (payload q)) ∧
      (payload (p, f)).bytes.length ≤ (render raw masks ((c.edit n q).cells raw masks)).length := by
  cases c with
  | unchanged =>
    refine ⟨q.2, rfl, is, ?_, ?_⟩
    · rw [Change.cells, render_text stands.payload]; rfl
    · simp only [Change.edit, Edit.cells]
      rw [render_rawCells, show q.1 + q.2.size = q.1 + q.2.bytes.length from rfl, stands.here.slice]
      simp [payload, Field.bytes]
  | dropped => exact absurd rfl stays
  | rebuilt cells =>
    have small : n < 2 ^ 32 := is.1 ▸ Nat.mod_lt _ (by decide)
    refine ⟨_, rfl, ⟨?_, wire_delimited _ _⟩, rfl, ?_⟩
    · rw [number_delimited, Nat.mod_eq_of_lt small]
    · simp only [Change.edit, Edit.cells, render_append, List.length_append, payload, body_delimited]
      omega

@[simp] theorem foldlM_locate_one {β : Type} (step : β → Nat × Field → Option β) (p : Nat) (f : Field) (s : β) :
    (locate p [f]).foldlM step s = step s (p, f) := by
  simp [locate]

end Edits

/-! ### Values -/

section Values
variable {env : Envelope} {masks : MaskTable} {i j : Nat} {u u' : Text} {c : Change}

theorem find_string {qs : List (Nat × Field)} {es : List Edit} (stands : ∀ q ∈ qs, Stands env.raw q)
    (edited : editFields (anyValueLevel env masks) qs i = some (es, j)) (p : Nat) :
    ((locate p (es.flatMap (Edit.fields env.raw masks))).find? (IsField 1 2)).map (fun q => (payload q).bytes)
      = (qs.find? (IsField 1 2)).map fun q => governText env masks i (payload q).range := by
  induction qs generalizing es p with
  | nil => cases edited; rfl
  | cons q qs ih =>
    obtain ⟨⟨e, k⟩, one, rest⟩ := Option.bind_eq_some_iff.mp edited
    obtain ⟨⟨es', j'⟩, more, same⟩ := Option.map_eq_some_iff.mp rest
    cases same
    simp only [List.mem_cons, forall_eq_or_imp] at stands
    obtain rfl : k = i := anyValueLevel_steady.one one
    by_cases string : IsField 1 2 q
    · rw [editOne_edited (if_pos rfl) string] at one
      obtain ⟨⟨ch, k'⟩, changed, same⟩ := Option.map_eq_some_iff.mp one
      cases same
      obtain ⟨spliced, stays⟩ := scalarEditor_render changed
      obtain ⟨f, left, is, carried, -⟩ := (@child_field _ masks) stands.1 string stays p
      rw [List.flatMap_cons, left, List.singleton_append, locate, List.find?_cons_of_pos (by exact decide_eq_true is),
        List.find?_cons_of_pos (by exact decide_eq_true string), Option.map_some, Option.map_some, carried, spliced]
    · have kept := (@editOne_kept (anyValueLevel env masks) q k)
        fun two => if_neg fun one => string ⟨one, two⟩
      rw [kept] at one
      cases one
      rw [List.flatMap_cons, Edit.fields, List.singleton_append, locate,
        List.find?_cons_of_neg (by exact fun h => string (of_decide_eq_true h)),
        List.find?_cons_of_neg (by exact fun h => string (of_decide_eq_true h))]
      exact ih stands.2 more _

theorem anyValueText_reread (stands : u.In env.raw) (changed : anyValueEditor env masks u i = some (c, j))
    (same : u'.bytes = render env.raw masks (c.cells u)) (short : u'.bytes.length < 2 ^ 64) {o : Option Text}
    (read : anyValueText u = some o) :
    ∃ o', anyValueText u' = some o' ∧ o'.map Text.bytes = o.map fun v => governText env masks i v.range := by
  obtain ⟨fs, whole, settled⟩ := Option.bind_eq_some_iff.mp changed
  obtain ⟨⟨es, j'⟩, edited, eq⟩ := Option.map_eq_some_iff.mp settled
  cases eq
  simp only at same edited
  rw [settle_cells whole edited] at same
  rw [same] at short
  have old := locate_stands stands whole
  have whole' := fields_edits (editFields_legible old edited short)
  rw [← same] at whole'
  rw [anyValueText_fields whole] at read
  cases read
  refine ⟨_, anyValueText_fields whole', ?_⟩
  have := find_string old edited u'.pos
  simpa only [Option.map_map, Function.comp_def] using this

def SamePair (env : Envelope) (masks : MaskTable) (i j : Nat) (s s' : Option Text × Option Text) : Prop :=
  j = i ∧ s'.1.map Text.bytes = s.1.map Text.bytes ∧
    s'.2.map Text.bytes = s.2.map fun v => governText env masks i v.range

theorem keyValue_carries (env : Envelope) (masks : MaskTable) (i : Nat) :
    Carries env.raw masks (keyValueLevel env masks) keyValueStep keyValueStep (SamePair env masks i) := by
  intro q k e j s s' s₁ stands one short took related p
  obtain ⟨rfl, key, value⟩ := related
  unfold keyValueStep at took
  by_cases isKey : IsField 1 2 q
  · rw [if_pos isKey] at took
    cases took
    rw [editOne_kept fun two => if_neg fun two' => isKey.other (by decide) ⟨two', two⟩] at one
    cases one
    simp only [Edit.fields, foldlM_locate_one, keyValueStep]
    exact ⟨_, if_pos isKey, rfl, rfl, value⟩
  rw [if_neg isKey] at took
  by_cases isValue : IsField 2 2 q
  · rw [if_pos isValue] at took
    obtain ⟨o, read, rfl⟩ := Option.map_eq_some_iff.mp took
    rw [editOne_edited (if_pos rfl) isValue] at one
    obtain ⟨⟨ch, k'⟩, changed, same⟩ := Option.map_eq_some_iff.mp one
    cases same
    obtain ⟨f, left, is, carried, small⟩ := (@child_field _ masks) stands isValue (editMessage_stays changed) p
    obtain ⟨o', read', sameText⟩ := anyValueText_reread stands.payload changed carried
      (Nat.lt_of_le_of_lt small short) read
    rw [left]
    simp only [foldlM_locate_one, keyValueStep]
    rw [if_neg (is.other (by decide)), if_pos is, read']
    exact ⟨_, rfl, anyValueLevel_steady.message changed, key, sameText⟩
  · rw [if_neg isValue] at took
    cases took
    rw [editOne_kept fun two => if_neg fun two' => isValue ⟨two', two⟩] at one
    cases one
    simp only [Edit.fields, foldlM_locate_one, keyValueStep]
    exact ⟨_, by rw [if_neg isKey, if_neg isValue], rfl, key, value⟩

theorem keyValue_reread (stands : u.In env.raw) (changed : keyValueEditor env masks u i = some (c, j))
    (same : u'.bytes = render env.raw masks (c.cells u)) (short : u'.bytes.length < 2 ^ 64) {o : Option Attr}
    (read : keyValue u = some o) :
    ∃ o', keyValue u' = some o' ∧ o'.map (fun a => (a.key.bytes, a.value.bytes))
      = o.map fun a => (a.key.bytes, governText env masks i a.value.range) := by
  obtain ⟨s, folded, rfl⟩ := Option.map_eq_some_iff.mp read
  obtain ⟨s', folded', -, key, value⟩ := reread (keyValue_carries env masks i) stands changed same short folded
    (none, none) ⟨rfl, rfl, rfl⟩
  refine ⟨pairUp s', by rw [keyValue, folded']; rfl, ?_⟩
  rw [pairUp_map Text.bytes Text.bytes, key, value]
  exact (pairUp_map Text.bytes (fun v => governText env masks i v.range) s).symm

end Values

/-! ### Records -/

/-- What the record under an index says after governance: the spans are spliced, the rest stays. -/
def Record.governed (env : Envelope) (masks : MaskTable) (i : Nat) (r : Record) : Content :=
  { r.content with
    body := governText env masks i r.body.range
    attrs := r.attrs.map fun a => (a.key.bytes, governText env masks i a.value.range) }

def survivors (env : Envelope) (masks : MaskTable) : Nat → List Record → List Content
  | _, [] => []
  | i, r :: rs =>
    if env.decisions.samplingVerdict i = .drop then survivors env masks (i + 1) rs
    else r.governed env masks i :: survivors env masks (i + 1) rs

def Resource.Same (r r' : Resource) : Prop :=
  r'.namespaceName.map Text.bytes = r.namespaceName.map Text.bytes ∧
    r'.serviceName.map Text.bytes = r.serviceName.map Text.bytes

theorem survivors_append (env : Envelope) (masks : MaskTable) (i : Nat) (as bs : List Record) :
    survivors env masks i (as ++ bs) = survivors env masks i as ++ survivors env masks (i + as.length) bs := by
  induction as generalizing i with
  | nil => rfl
  | cons a as ih =>
    simp only [List.cons_append, survivors, ih, List.length_cons]
    rw [show i + 1 + as.length = i + (as.length + 1) by omega]
    split <;> rfl

section Records
variable {env : Envelope} {masks : MaskTable} {i j : Nat} {t t' : Text} {c : Change}

/-- No span stands where a record without a string body has its empty view. -/
def Clear (env : Envelope) (i : Nat) (r : Record) : Prop := spansWithin env i ⟨r.text.pos, r.text.pos⟩ = []

/-- The records read alike, and where `P` holds they say the same. -/
def SameRecord (env : Envelope) (masks : MaskTable) (P : Prop) (i j : Nat) (s s' : Record) : Prop :=
  j = i ∧ (P → s'.content = s.governed env masks i)

theorem record_carries (env : Envelope) (masks : MaskTable) (P : Prop) (i : Nat) :
    Carries env.raw masks (recordLevel env masks) recordStep recordStep (SameRecord env masks P i) := by
  intro q k e j s s' s₁ stands one short took related p
  obtain ⟨rfl, same⟩ := related
  simp only [Record.content, Record.governed, Content.mk.injEq] at same
  have kept : ¬ IsField 5 2 q → ¬ IsField 6 2 q → e = .keep q ∧ j = k := by
    intro notBody notAttr
    rw [editOne_kept fun two => by
      rw [recordLevel, if_neg fun five => notBody ⟨five, two⟩, if_neg fun six => notAttr ⟨six, two⟩]] at one
    cases one
    exact ⟨rfl, rfl⟩
  rcases recordStep_cases took with ⟨is, v, n, read, rfl⟩ | ⟨is, o, read, rfl⟩ | ⟨is, o, read, rfl⟩ | ⟨is, rfl⟩ |
    ⟨notSeverity, notBody, notAttr, notTrace, rfl⟩
  · obtain ⟨rfl, rfl⟩ := kept (is.other (by decide)) (is.other (by decide))
    simp only [Edit.fields, foldlM_locate_one]
    rw [recordStep_severity (q := (p, q.2)) is, read]
    refine ⟨_, rfl, rfl, fun holds => ?_⟩
    simp [Record.content, Record.governed, same holds]
  · rw [editOne_edited (if_pos rfl) is] at one
    obtain ⟨⟨ch, k'⟩, changed, eq⟩ := Option.map_eq_some_iff.mp one
    cases eq
    obtain ⟨f, left, is', carried, small⟩ := (@child_field _ masks) stands is (editMessage_stays changed) p
    obtain ⟨o', read', text⟩ := anyValueText_reread stands.payload changed carried (Nat.lt_of_le_of_lt small short) read
    rw [left, foldlM_locate_one, recordStep_body is', read']
    refine ⟨_, rfl, anyValueLevel_steady.message changed, fun holds => ?_⟩
    cases o <;> cases o' <;> simp only [Option.map_none, Option.map_some, reduceCtorEq, Option.some.injEq] at text
    · simp [Record.content, Record.governed, same holds]
    · simp [Record.content, Record.governed, same holds, text]
  · rw [editOne_edited (show recordLevel env masks 6 = _ from rfl) is] at one
    obtain ⟨⟨ch, k'⟩, changed, eq⟩ := Option.map_eq_some_iff.mp one
    cases eq
    obtain ⟨f, left, is', carried, small⟩ := (@child_field _ masks) stands is (editMessage_stays changed) p
    obtain ⟨o', read', pair⟩ := keyValue_reread stands.payload changed carried (Nat.lt_of_le_of_lt small short) read
    rw [left, foldlM_locate_one, recordStep_attr is', read']
    refine ⟨_, rfl, keyValueLevel_steady.message changed, fun holds => ?_⟩
    cases o <;> cases o' <;> simp only [Option.map_none, Option.map_some, reduceCtorEq, Option.some.injEq] at pair
    · simp [Record.content, Record.governed, same holds]
    · simp [Record.content, Record.governed, same holds, pair]
  · obtain ⟨rfl, rfl⟩ := kept (is.other (by decide)) (is.other (by decide))
    simp only [Edit.fields, foldlM_locate_one]
    rw [recordStep_trace (q := (p, q.2)) is]
    refine ⟨_, rfl, rfl, fun holds => ?_⟩
    have carried : (payload (p, q.2)).bytes = (payload q).bytes := rfl
    simp only [carried]
    split
    · simp [Record.content, Record.governed, carried, same holds]
    · simp [Record.content, Record.governed, same holds]
  · obtain ⟨rfl, rfl⟩ := kept notBody notAttr
    simp only [Edit.fields, foldlM_locate_one]
    rw [recordStep_other (q := (p, q.2)) notSeverity notBody notAttr notTrace]
    refine ⟨_, rfl, rfl, fun holds => ?_⟩
    simp [Record.content, Record.governed, same holds]

theorem record_reread (stands : t.In env.raw) (changed : recordEditor env masks t i = some (c, j))
    (keep : env.decisions.samplingVerdict i ≠ .drop) (same : t'.bytes = render env.raw masks (c.cells t))
    (short : t'.bytes.length < 2 ^ 64) {res res' : Resource} (alike : res.Same res') {r : Record}
    (read : record t res = some r) :
    ∃ r', record t' res' = some r' ∧ (Clear env i r → r'.content = r.governed env masks i) := by
  unfold recordEditor at changed
  rw [if_neg keep] at changed
  obtain ⟨⟨c', k⟩, edited, eq⟩ := Option.map_eq_some_iff.mp changed
  cases eq
  have start : SameRecord env masks (Clear env i r) i i { text := t, body := ⟨t.pos, []⟩, resource := res }
      { text := t', body := ⟨t'.pos, []⟩, resource := res' } := by
    refine ⟨rfl, fun clear => ?_⟩
    rw [Clear, (record_frame read).1] at clear
    have empty : governText env masks i ⟨t.pos, t.pos⟩ = [] := by
      rw [governText, keptSpans, clear]
      simp [Interval.firstWins, spliceBytes, slice]
    have range : (Text.range ⟨t.pos, []⟩) = ⟨t.pos, t.pos⟩ := rfl
    simp only [Record.content, Record.governed, range, empty, alike.1, alike.2, List.map_nil, Option.map_none]
  obtain ⟨r', read', -, content⟩ := reread (record_carries env masks (Clear env i r) i) stands edited same short read
    _ start
  exact ⟨r', read', content⟩

end Records

/-! ### Resources are copied -/

section Moved
variable {t t' : Text}

theorem anyValueText_moved (same : t'.bytes = t.bytes) :
    (anyValueText t').map (Option.map Text.bytes) = (anyValueText t).map (Option.map Text.bytes) := by
  have found : ∀ p p' fs, ((locate p' fs).find? (IsField 1 2)).map (fun q => (payload q).bytes)
      = ((locate p fs).find? (IsField 1 2)).map fun q => (payload q).bytes := by
    intro p p' fs
    induction fs generalizing p p' with
    | nil => rfl
    | cons f fs ih =>
      by_cases string : IsField 1 2 (p, f)
      · rw [locate, locate, List.find?_cons_of_pos (by exact decide_eq_true string),
          List.find?_cons_of_pos (by exact decide_eq_true string)]
        rfl
      · rw [locate, locate, List.find?_cons_of_neg (by exact fun h => string (of_decide_eq_true h)),
          List.find?_cons_of_neg (by exact fun h => string (of_decide_eq_true h))]
        exact ih _ _
  have here := found t.pos t'.pos (scan t.bytes).1
  unfold anyValueText
  rw [same]
  cases old : (locate t.pos (scan t.bytes).1).find? (IsField 1 2) <;>
    cases new : (locate t'.pos (scan t.bytes).1).find? (IsField 1 2) <;>
      simp only [old, new, Option.map_none, Option.map_some, reduceCtorEq, Option.some.injEq] at here
  · split <;> rfl
  · simp [here]

theorem keyValue_moved (same : t'.bytes = t.bytes) {o : Option Attr} (read : keyValue t = some o) :
    ∃ o', keyValue t' = some o' ∧
      o'.map (fun a => (a.key.bytes, a.value.bytes)) = o.map fun a => (a.key.bytes, a.value.bytes) := by
  obtain ⟨s, folded, rfl⟩ := Option.map_eq_some_iff.mp read
  obtain ⟨s', folded', key, value⟩ := readFields_moved keyValueStep
    (fun s s' => s'.1.map Text.bytes = s.1.map Text.bytes ∧ s'.2.map Text.bytes = s.2.map Text.bytes)
    (fun f p p' s s' s₁ related one => by
      unfold keyValueStep at one ⊢
      by_cases isKey : IsField 1 2 (p, f)
      · rw [if_pos isKey] at one
        cases one
        exact ⟨_, if_pos isKey, rfl, related.2⟩
      rw [if_neg isKey] at one
      rw [if_neg (show ¬ IsField 1 2 (p', f) from isKey)]
      by_cases isValue : IsField 2 2 (p, f)
      · rw [if_pos isValue] at one
        rw [if_pos (show IsField 2 2 (p', f) from isValue)]
        obtain ⟨o, read, rfl⟩ := Option.map_eq_some_iff.mp one
        have moved := (@anyValueText_moved (payload (p, f)) (payload (p', f))) rfl
        rw [read] at moved
        obtain ⟨o', read', same⟩ := Option.map_eq_some_iff.mp moved
        exact ⟨(s'.1, o'), by rw [read']; rfl, related.1, same⟩
      · rw [if_neg isValue] at one
        cases one
        exact ⟨_, if_neg isValue, related⟩)
    same ⟨rfl, rfl⟩ folded
  refine ⟨pairUp s', by rw [keyValue, folded']; rfl, ?_⟩
  rw [pairUp_map Text.bytes Text.bytes, pairUp_map Text.bytes Text.bytes, key, value]

theorem Resource.Same.add {r r' : Resource} (h : r.Same r') {o o' : Option Attr}
    (same : o'.map (fun a => (a.key.bytes, a.value.bytes)) = o.map fun a => (a.key.bytes, a.value.bytes)) :
    (r.add o).Same (r'.add o') := by
  cases o <;> cases o' <;>
    simp only [Option.map_none, Option.map_some, reduceCtorEq, Option.some.injEq, Prod.mk.injEq] at same
  · exact h
  · simp only [Resource.add, same.1]
    split
    · exact ⟨by simp [same.2], h.2⟩
    · split
      · exact ⟨h.1, by simp [same.2]⟩
      · exact h

theorem resource_moved (same : t'.bytes = t.bytes) {r : Resource} (read : resource t = some r) :
    ∃ r', resource t' = some r' ∧ r.Same r' :=
  readFields_moved resourceStep Resource.Same
    (fun f p p' s s' s₁ related one => by
      unfold resourceStep at one ⊢
      by_cases attr : IsField 1 2 (p, f)
      · rw [if_pos attr] at one
        rw [if_pos (show IsField 1 2 (p', f) from attr)]
        obtain ⟨o, read, rfl⟩ := Option.map_eq_some_iff.mp one
        obtain ⟨o', read', same⟩ := (@keyValue_moved (payload (p, f)) (payload (p', f))) rfl read
        exact ⟨_, by rw [read']; rfl, related.add same⟩
      · rw [if_neg attr] at one
        cases one
        exact ⟨_, if_neg attr, related⟩)
    same ⟨rfl, rfl⟩ read

end Moved

/-! ### Containers -/

section Containers
variable {env : Envelope} {masks : MaskTable} {i j : Nat} {t t' : Text} {c : Change}

def Survive (env : Envelope) (masks : MaskTable) (i : Nat) (out out' : List Record) : Prop :=
  i = out.length ∧ out'.length = (survivors env masks 0 out).length ∧
    (Each (Clear env) 0 out → out'.map Record.content = survivors env masks 0 out)

theorem Survive.dropped {out out' : List Record} {r : Record} (h : Survive env masks i out out')
    (drop : env.decisions.samplingVerdict i = .drop) : Survive env masks (i + 1) (out ++ [r]) out' := by
  obtain ⟨rfl, count, same⟩ := h
  have gone : survivors env masks 0 (out ++ [r]) = survivors env masks 0 out := by
    rw [survivors_append, Nat.zero_add, survivors, if_pos drop, survivors, List.append_nil]
  refine ⟨by simp, by rw [gone]; exact count, fun clear => ?_⟩
  rw [gone]
  exact same (each_append.mp clear).1

theorem Survive.kept {out out' : List Record} {r r' : Record} (h : Survive env masks i out out')
    (keep : env.decisions.samplingVerdict i ≠ .drop) (content : Clear env i r → r'.content = r.governed env masks i) :
    Survive env masks (i + 1) (out ++ [r]) (out' ++ [r']) := by
  obtain ⟨rfl, count, same⟩ := h
  have one : survivors env masks 0 (out ++ [r])
      = survivors env masks 0 out ++ [r.governed env masks out.length] := by
    rw [survivors_append, Nat.zero_add, survivors, if_neg keep, survivors]
  refine ⟨by simp, by rw [one]; simp [count], fun clear => ?_⟩
  rw [each_append, Nat.zero_add] at clear
  rw [one, List.map_append, same clear.1, List.map_singleton, content clear.2.1]

/-- A reading of the old child gives a reading of what is left of it, wherever it stands. -/
def Rereads (env : Envelope) (masks : MaskTable) (editor : Editor) (read read' : Reader) : Prop :=
  ∀ t i c j out out' out₁, t.In env.raw → editor t i = some (c, j) → read out t = some out₁ →
    Survive env masks i out out' →
      (c = .dropped ∧ Survive env masks j out₁ out') ∨
      (c ≠ .dropped ∧ ∀ t', t'.bytes = render env.raw masks (c.cells t) → t'.bytes.length < 2 ^ 64 →
        ∃ out₁', read' out' t' = some out₁' ∧ Survive env masks j out₁ out₁')

theorem readRecord_rereads {res res' : Resource} (alike : res.Same res') :
    Rereads env masks (recordEditor env masks) (readRecord res) (readRecord res') := by
  intro t i c j out out' out₁ stands changed appended related
  obtain ⟨r, read, rfl⟩ := Option.map_eq_some_iff.mp appended
  obtain rfl := recordEditor_index changed
  by_cases drop : env.decisions.samplingVerdict i = .drop
  · have gone : c = .dropped := by
      rw [recordEditor, if_pos drop] at changed
      cases changed
      rfl
    exact .inl ⟨gone, related.dropped drop⟩
  · have stays : c ≠ .dropped := by
      rw [recordEditor, if_neg drop] at changed
      obtain ⟨c', edited, same⟩ := Option.map_eq_some_iff.mp changed
      cases same
      exact editMessage_stays edited
    refine .inr ⟨stays, fun t' same short => ?_⟩
    obtain ⟨r', read', content⟩ := record_reread stands changed drop same short alike read
    exact ⟨out' ++ [r'], by rw [readRecord, read']; rfl, related.kept drop content⟩

theorem childStep_carries {n : Nat} {editor : Editor} {read read' : Reader}
    (child : Rereads env masks editor read read') :
    Carries env.raw masks (only n editor) (childStep n read) (childStep n read') (Survive env masks) := by
  intro q i e j out out' out₁ stands one short took related p
  unfold childStep at took
  by_cases is : IsField n 2 q
  · rw [if_pos is] at took
    rw [editOne_only_child i is] at one
    obtain ⟨⟨c, k⟩, changed, same⟩ := Option.map_eq_some_iff.mp one
    cases same
    rcases child _ _ _ _ _ _ _ stands.payload changed took related with ⟨rfl, survive⟩ | ⟨stays, again⟩
    · exact ⟨out', rfl, survive⟩
    · obtain ⟨f, left, is', carried, small⟩ := (@child_field _ masks) stands is stays p
      obtain ⟨out₁', read', survive⟩ := again _ carried (Nat.lt_of_le_of_lt small short)
      rw [left, foldlM_locate_one, childStep, if_pos is']
      exact ⟨out₁', read', survive⟩
  · rw [if_neg is] at took
    cases took
    rw [editOne_only_other i is] at one
    cases one
    simp only [Edit.fields, foldlM_locate_one]
    exact ⟨out', if_neg is, related⟩

theorem Rereads.message {n : Nat} {editor : Editor} {read read' : Reader}
    (child : Rereads env masks editor read read') :
    Rereads env masks (editMessage env.raw masks (only n editor)) (readChildren n read) (readChildren n read') :=
  fun _ _ _ _ _ _ _ stands changed folded related =>
    .inr ⟨editMessage_stays changed, fun _ same short =>
      reread (childStep_carries child) stands changed same short folded _ related⟩

theorem resource_carries {raw : Bytes} {editor : Editor} (stays : ∀ t i c, editor t i = some c → c.1 ≠ .dropped) :
    Carries raw masks (only 2 editor) resourceLogsStep resourceLogsStep fun _ s s' => s.1.Same s'.1 := by
  intro q i e j s s' s₁ stands one short took related p
  unfold resourceLogsStep at took
  by_cases isRes : IsField 1 2 q
  · rw [if_pos isRes] at took
    obtain ⟨r, read, rfl⟩ := Option.map_eq_some_iff.mp took
    rw [editOne_only_other i (isRes.other (by decide))] at one
    cases one
    obtain ⟨r', read', same⟩ := (@resource_moved (payload q) (payload (p, q.2))) rfl read
    simp only [Edit.fields, foldlM_locate_one]
    rw [resourceLogsStep, if_pos (show IsField 1 2 (p, q.2) from isRes), read']
    exact ⟨_, rfl, same⟩
  rw [if_neg isRes] at took
  by_cases scope : IsField 2 2 q
  · rw [if_pos scope] at took
    cases took
    rw [editOne_only_child i scope] at one
    obtain ⟨⟨c, k⟩, changed, same⟩ := Option.map_eq_some_iff.mp one
    cases same
    obtain ⟨f, left, is', -, -⟩ := (@child_field _ masks) stands scope (stays _ _ _ changed) p
    rw [left, foldlM_locate_one, resourceLogsStep, if_neg (is'.other (by decide)), if_pos is']
    exact ⟨_, rfl, related⟩
  · rw [if_neg scope] at took
    cases took
    rw [editOne_only_other i scope] at one
    cases one
    simp only [Edit.fields, foldlM_locate_one]
    rw [resourceLogsStep, if_neg (show ¬ IsField 1 2 (p, q.2) from isRes),
      if_neg (show ¬ IsField 2 2 (p, q.2) from scope)]
    exact ⟨_, rfl, related⟩

theorem Rereads.resource {editor : Editor} (stays : ∀ t i c, editor t i = some c → c.1 ≠ .dropped)
    (scopes : ∀ res res', res.Same res' → Rereads env masks editor (scopeLogs res) (scopeLogs res')) :
    Rereads env masks (editMessage env.raw masks (only 2 editor)) resourceLogs resourceLogs := by
  intro t i c j out out' out₁ stands changed visited related
  obtain ⟨res, _, collected, folded⟩ := resourceLogs_scopes visited
  refine .inr ⟨editMessage_stays changed, fun t' same short => ?_⟩
  obtain ⟨⟨res', _⟩, collected', alike⟩ := reread (resource_carries stays) stands changed same short collected
    ({}, []) ⟨rfl, rfl⟩
  obtain ⟨out₁', folded', survive⟩ := reread (childStep_carries (scopes res res' alike)) stands changed same short
    folded _ related
  exact ⟨out₁', by rw [resourceLogs_eq, collected']; exact folded', survive⟩

theorem requestEditor_rereads :
    Rereads env masks (requestEditor env masks) (readChildren 1 resourceLogs) (readChildren 1 resourceLogs) := by
  rw [requestEditor_eq, resourceEditor_eq, scopeEditor_eq]
  refine Rereads.message (Rereads.resource (fun _ _ _ changed => editMessage_stays changed) fun res res' alike => ?_)
  rw [scopeLogs_eq, scopeLogs_eq]
  exact Rereads.message (readRecord_rereads alike)

theorem samplingVerdict_kept {d : Decisions} (undropped : d.anyDropped = false) (i : Nat) :
    d.samplingVerdict i = .keep := by
  rw [Decisions.samplingVerdict]
  cases h : d.sampling[i]? with
  | none => rfl
  | some v =>
    cases v with
    | keep => rfl
    | drop =>
      have := List.mem_of_getElem? h
      simp [Decisions.anyDropped, this] at undropped

theorem survivors_idle (idle : env.decisions.anyDropped = false) (clean : env.decisions.redactions = [])
    {rs : List Record} (held : ∀ r ∈ rs, r.In env.raw) (i : Nat) :
    survivors env masks i rs = rs.map Record.content := by
  have plain : ∀ t : Text, t.In env.raw → ∀ i, governText env masks i t.range = t.bytes := by
    intro t stands i
    have none : spansWithin env i t.range = [] := by simp [spansWithin, Decisions.redactionsFor, clean]
    rw [governText, keptSpans, none]
    exact At.slice stands
  induction rs generalizing i with
  | nil => rfl
  | cons r rs ih =>
    simp only [List.mem_cons, forall_eq_or_imp] at held
    have keep : env.decisions.samplingVerdict i ≠ .drop := by rw [samplingVerdict_kept idle]; decide
    have attrs : (r.attrs.map fun a => (a.key.bytes, governText env masks i a.value.range))
        = r.attrs.map fun a => (a.key.bytes, a.value.bytes) :=
      List.map_congr_left fun a member => by rw [plain _ (held.1.attrs a member).value]
    rw [survivors, if_neg keep, ih held.2, List.map_cons, Record.governed, plain _ held.1.body, attrs]
    rfl

/-- What `assemble` writes reads back as the kept records, one for one. -/
theorem assembleCells_reread {rs : List Record} (parsed : records env.raw = some rs) {cells : List Cell}
    (written : assembleCells env masks = some cells) (short : (render env.raw masks cells).length < 2 ^ 64) :
    ∃ rs', records (render env.raw masks cells) = some rs' ∧ rs'.length = (survivors env masks 0 rs).length ∧
      (Each (Clear env) 0 rs → rs'.map Record.content = survivors env masks 0 rs) := by
  rcases assembleCells_cases written with ⟨idle, rfl⟩ | ⟨c, changed, rfl⟩
  · have same : render env.raw masks (rawCells 0 env.raw.length) = env.raw := by
      rw [render_rawCells]; simp [slice]
    rw [same, survivors_idle idle.1 idle.2 (records_in parsed)]
    exact ⟨rs, parsed, by simp, fun _ => rfl⟩
  · rw [records_eq] at parsed ⊢
    have whole : (⟨0, env.raw⟩ : Text).In env.raw := at_self env.raw
    rcases requestEditor_rereads _ 0 c _ [] [] rs whole changed parsed ⟨rfl, rfl, fun _ => rfl⟩ with
      ⟨gone, -⟩ | ⟨-, again⟩
    · exact absurd gone (editMessage_stays changed)
    · obtain ⟨rs', read, -, count, content⟩ := again ⟨0, render env.raw masks (c.cells ⟨0, env.raw⟩)⟩ rfl short
      exact ⟨rs', read, count, content⟩

end Containers

end ArchivAgent
