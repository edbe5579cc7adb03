import ArchivAgent.Export.Traversal
import ArchivAgent.Ingest.Windows

/-!
# When the exporter gets through

The walker leaves a value at its first string; the exporter reads every value of a kept record to
its end. Where all of them can be read, and only there, the second walk succeeds.
-/

namespace ArchivAgent
open Wire

def Decisions.Known (d : Decisions) (masks : MaskTable) : Prop :=
  ∀ r ∈ d.redactions, (masks.bytes r.redaction.mask).isSome

/-! ### One record -/

/-- The editors of a level move the index along an order. -/
def Level.Moves (R : Nat → Nat → Prop) (level : Level) : Prop :=
  ∀ n editor, level n = some editor → ∀ t i c, editor t i = some c → R i c.2

theorem only_moves {R : Nat → Nat → Prop} {n : Nat} {editor : Editor} (moves : ∀ t i c, editor t i = some c → R i c.2) :
    (only n editor).Moves R := by
  intro m found h
  unfold only at h
  split at h
  · cases h
    exact moves
  · cases h

section Moves
variable {R : Nat → Nat → Prop} [Std.Refl R] [IsTrans Nat R] {raw : Bytes} {masks : MaskTable} {level : Level}

omit [IsTrans Nat R] in
theorem Level.Moves.one (moves : level.Moves R) {q : Nat × Field} {i : Nat} {e : Edit × Nat}
    (h : editOne level q i = some e) : R i e.2 := by
  unfold editOne at h
  split at h
  · rename_i editor found
    obtain ⟨c, changed, rfl⟩ := Option.map_eq_some_iff.mp h
    split at found
    · exact moves _ _ found _ _ _ changed
    · cases found
  · cases h
    exact refl i

theorem Level.Moves.fields (moves : level.Moves R) {qs : List (Nat × Field)} {i : Nat} {es : List Edit × Nat}
    (h : editFields level qs i = some es) : R i es.2 := by
  induction qs generalizing i es with
  | nil =>
    cases h
    exact refl i
  | cons q qs ih =>
    obtain ⟨e, one, rest⟩ := Option.bind_eq_some_iff.mp h
    obtain ⟨es', more, rfl⟩ := Option.map_eq_some_iff.mp rest
    exact Trans.trans (moves.one one) (@ih e.2 es' more)

theorem Level.Moves.message (moves : level.Moves R) {t : Text} {i : Nat} {c : Change × Nat}
    (h : editMessage raw masks level t i = some c) : R i c.2 := by
  obtain ⟨fs, -, settled⟩ := Option.bind_eq_some_iff.mp h
  obtain ⟨es, edited, rfl⟩ := Option.map_eq_some_iff.mp settled
  exact moves.fields edited

end Moves

def Level.Steady (level : Level) : Prop :=
  ∀ n editor, level n = some editor → ∀ t i c, editor t i = some c → c.2 = i

section Steady
variable {raw : Bytes} {masks : MaskTable} {level : Level}

theorem Level.Steady.moves (steady : level.Steady) : level.Moves Eq :=
  fun n editor found t i c changed => (steady n editor found t i c changed).symm

theorem Level.Steady.forward (steady : level.Steady) : level.Moves (· ≤ ·) :=
  fun n editor found t i c changed => Nat.le_of_eq (steady n editor found t i c changed).symm

theorem Level.Steady.one (steady : level.Steady) {q : Nat × Field} {i : Nat} {e : Edit × Nat}
    (h : editOne level q i = some e) : e.2 = i := (steady.moves.one h).symm

theorem Level.Steady.message (steady : level.Steady) {t : Text} {i : Nat} {c : Change × Nat}
    (h : editMessage raw masks level t i = some c) : c.2 = i := (steady.moves.message h).symm

theorem editFields_isSome (steady : level.Steady) (qs : List (Nat × Field)) (i : Nat) :
    (editFields level qs i).isSome ↔ ∀ q ∈ qs, (editOne level q i).isSome := by
  induction qs with
  | nil => simp [editFields]
  | cons q qs ih =>
    simp only [editFields, List.mem_cons, forall_eq_or_imp]
    cases one : editOne level q i with
    | none => simp
    | some e => rw [Option.bind_some, Option.isSome_map, steady.one one, ih]; simp

theorem editMessage_isSome (steady : level.Steady) (t : Text) (i : Nat) :
    (editMessage raw masks level t i).isSome ↔
      ∃ fs, fields t.bytes = some fs ∧ ∀ q ∈ locate t.pos fs, (editOne level q i).isSome := by
  unfold editMessage
  cases fields t.bytes with
  | none => simp
  | some fs => simp [editFields_isSome steady]

theorem editOne_only_isSome {n : Nat} {editor : Editor} (q : Nat × Field) (i : Nat) :
    (editOne (only n editor) q i).isSome ↔ (IsField n 2 q → (editor (payload q) i).isSome) := by
  by_cases child : IsField n 2 q
  · rw [editOne_only_child i child, Option.isSome_map]
    exact ⟨fun h _ => h, fun h => h child⟩
  · rw [editOne_only_other i child]
    simp [child]

theorem only_steady {n : Nat} {editor : Editor} (steady : ∀ t i c, editor t i = some c → c.2 = i) :
    (only n editor).Steady := by
  intro m found h t i c changed
  exact (only_moves (R := Eq) (fun t i c changed => (steady t i c changed).symm) m found h t i c changed).symm

end Steady

section Record
variable {env : Envelope} {masks : MaskTable}

theorem scalarEditor_steady (t : Text) (i : Nat) (c : Change × Nat) (h : scalarEditor env masks t i = some c) :
    c.2 = i := by
  unfold scalarEditor at h
  simp only at h
  split at h
  · cases h; rfl
  · obtain ⟨cells, -, rfl⟩ := Option.map_eq_some_iff.mp h
    rfl

theorem anyValueLevel_steady : (anyValueLevel env masks).Steady := only_steady scalarEditor_steady

theorem keyValueLevel_steady : (keyValueLevel env masks).Steady :=
  only_steady fun _ _ _ h => anyValueLevel_steady.message h

theorem recordLevel_steady : (recordLevel env masks).Steady := by
  intro n editor h
  unfold recordLevel at h
  split at h
  · cases h; exact fun _ _ _ h => anyValueLevel_steady.message h
  split at h
  · cases h; exact fun _ _ _ h => keyValueLevel_steady.message h
  · cases h

theorem scalarEditor_isSome (known : env.decisions.Known masks) (t : Text) (i : Nat) :
    (scalarEditor env masks t i).isSome := by
  unfold scalarEditor
  simp only
  split
  · rfl
  · have all : (effectiveSpans env i t.range).all (fun r => (masks.bytes r.mask).isSome) = true := by
      rw [List.all_eq_true]
      intro r h
      obtain ⟨s, pushed, -, rfl⟩ := mem_redactionsFor.mp (mem_effectiveSpans h).1
      exact known s pushed
    rw [splice, if_pos all]
    rfl

theorem anyValueEditor_isSome (known : env.decisions.Known masks) (u : Text) (i : Nat) :
    (anyValueEditor env masks u i).isSome ↔ (fields u.bytes).isSome := by
  rw [anyValueEditor, editMessage_isSome anyValueLevel_steady, Option.isSome_iff_exists]
  constructor
  · rintro ⟨fs, read, -⟩
    exact ⟨fs, read⟩
  · rintro ⟨fs, read⟩
    exact ⟨fs, read, fun q _ => (editOne_only_isSome q i).mpr fun _ => scalarEditor_isSome known _ i⟩

theorem keyValueEditor_isSome (known : env.decisions.Known masks) (u : Text) (i : Nat) :
    (keyValueEditor env masks u i).isSome ↔
      (fields u.bytes).isSome ∧ ∀ v ∈ children 2 u, (fields v.bytes).isSome := by
  rw [keyValueEditor, editMessage_isSome keyValueLevel_steady, Option.isSome_iff_exists]
  constructor
  · rintro ⟨fs, read, ok⟩
    refine ⟨⟨fs, read⟩, fun v hv => ?_⟩
    obtain ⟨q, member, child, rfl⟩ := (mem_children read).mp hv
    exact (anyValueEditor_isSome known _ i).mp ((editOne_only_isSome q i).mp (ok q member) child)
  · rintro ⟨⟨fs, read⟩, complete⟩
    refine ⟨fs, read, fun q member => (editOne_only_isSome q i).mpr fun child => ?_⟩
    exact (anyValueEditor_isSome known _ i).mpr (complete _ ((mem_children read).mpr ⟨q, member, child, rfl⟩))

theorem editOne_record_isSome (q : Nat × Field) (i : Nat) :
    (editOne (recordLevel env masks) q i).isSome ↔
      (IsField 5 2 q → (anyValueEditor env masks (payload q) i).isSome) ∧
      (IsField 6 2 q → (keyValueEditor env masks (payload q) i).isSome) := by
  by_cases body : IsField 5 2 q
  · have other : ¬ IsField 6 2 q := fun attr => absurd (body.1.symm.trans attr.1) (by decide)
    rw [editOne_edited (if_pos rfl) body, Option.isSome_map]
    exact ⟨fun found => ⟨fun _ => found, fun attr => absurd attr other⟩, fun h => h.1 body⟩
  by_cases attr : IsField 6 2 q
  · rw [editOne_edited (show recordLevel env masks 6 = _ from rfl) attr, Option.isSome_map]
    exact ⟨fun found => ⟨fun h => absurd h body, fun _ => found⟩, fun h => h.2 attr⟩
  · rw [editOne_kept fun two => by
      rw [recordLevel, if_neg fun five => body ⟨five, two⟩, if_neg fun six => attr ⟨six, two⟩]]
    simp [body, attr]

/-- A record the walker read is rewritten exactly when its values read to their end. -/
theorem recordEditor_isSome (known : env.decisions.Known masks) {t : Text} {res : Resource} {r : Record}
    (read : record t res = some r) (i : Nat) :
    (recordEditor env masks t i).isSome ↔
      (env.decisions.samplingVerdict i = .keep → ∀ u ∈ anyValues t, (fields u.bytes).isSome) := by
  unfold recordEditor
  by_cases drop : env.decisions.samplingVerdict i = .drop
  · rw [if_pos drop]
    simp [drop]
  have keep : env.decisions.samplingVerdict i = .keep := by
    cases h : env.decisions.samplingVerdict i with
    | keep => rfl
    | drop => exact absurd h drop
  obtain ⟨fs, whole, took⟩ := readFields_member read
  rw [if_neg drop, Option.isSome_map, editMessage_isSome recordLevel_steady]
  simp only [keep, true_implies]
  constructor
  · rintro ⟨fs', read', ok⟩ u hu
    rw [whole] at read'
    cases read'
    rcases List.mem_append.mp hu with body | value
    · obtain ⟨q, member, child, rfl⟩ := (mem_children whole).mp body
      exact (anyValueEditor_isSome known _ i).mp (((editOne_record_isSome q i).mp (ok q member)).1 child)
    · obtain ⟨kv, attr, value⟩ := List.mem_flatMap.mp value
      obtain ⟨q, member, child, rfl⟩ := (mem_children whole).mp attr
      exact ((keyValueEditor_isSome known _ i).mp (((editOne_record_isSome q i).mp (ok q member)).2 child)).2 u value
  · intro complete
    refine ⟨fs, whole, fun q member => (editOne_record_isSome q i).mpr ⟨fun body => ?_, fun attr => ?_⟩⟩
    · exact (anyValueEditor_isSome known _ i).mpr
        (complete _ (List.mem_append_left _ ((mem_children whole).mpr ⟨q, member, body, rfl⟩)))
    · refine (keyValueEditor_isSome known _ i).mpr ⟨?_, fun v hv => complete v (List.mem_append_right _ ?_)⟩
      · -- The walker read this attribute through.
        obtain ⟨s, some⟩ := took q member
        rw [recordStep_attr attr, Option.isSome_map, keyValue, Option.isSome_map] at some
        obtain ⟨kv, readKv⟩ := Option.isSome_iff_exists.mp some
        obtain ⟨_, whole', -⟩ := readFields_member readKv
        rw [whole']
        rfl
      · exact List.mem_flatMap.mpr ⟨payload q, (mem_children whole).mpr ⟨q, member, attr, rfl⟩, hv⟩

end Record

/-! ### The request -/

def Each (Q : Nat → Record → Prop) : Nat → List Record → Prop
  | _, [] => True
  | i, r :: rs => Q i r ∧ Each Q (i + 1) rs

theorem each_append {Q : Nat → Record → Prop} {i : Nat} {as bs : List Record} :
    Each Q i (as ++ bs) ↔ Each Q i as ∧ Each Q (i + as.length) bs := by
  induction as generalizing i with
  | nil => simp [Each]
  | cons a as ih =>
    simp only [List.cons_append, Each, ih, List.length_cons, and_assoc]
    rw [show i + 1 + as.length = i + (as.length + 1) by omega]

theorem each_iff {Q : Nat → Record → Prop} {i : Nat} {rs : List Record} :
    Each Q i rs ↔ ∀ k r, rs[k]? = some r → Q (i + k) r := by
  induction rs generalizing i with
  | nil => simp [Each]
  | cons r rs ih =>
    simp only [Each, ih]
    constructor
    · rintro ⟨first, rest⟩ k r' h
      cases k with
      | zero => simp only [List.getElem?_cons_zero, Option.some.injEq] at h; exact h ▸ first
      | succ k =>
        have := rest k r' (by simpa using h)
        rwa [show i + 1 + k = i + (k + 1) by omega] at this
    · intro h
      refine ⟨h 0 r rfl, fun k r' hk => ?_⟩
      have := h (k + 1) r' (by simpa using hk)
      rwa [show i + (k + 1) = i + 1 + k by omega] at this

section Request
variable {env : Envelope} {masks : MaskTable} {n : Nat} {editor : Editor} {read : Reader}

def Rewritable (env : Envelope) (i : Nat) (r : Record) : Prop :=
  env.decisions.samplingVerdict i = .keep → r.Complete

/-- Where the reader succeeds, the editor succeeds exactly when every record can be rewritten. -/
def Agrees (env : Envelope) (editor : Editor) (read : Reader) : Prop :=
  ∀ t out out', read out t = some out' → ∃ new, out' = out ++ new ∧
    ((editor t out.length).isSome ↔ Each (Rewritable env) out.length new) ∧
    ∀ c, editor t out.length = some c → c.2 = out'.length

theorem Agrees.walk (child : Agrees env editor read) {qs : List (Nat × Field)} {out out' : List Record}
    (folded : qs.foldlM (childStep n read) out = some out') : ∃ new, out' = out ++ new ∧
    ((editFields (only n editor) qs out.length).isSome ↔
      Each (Rewritable env) out.length new) ∧
    ∀ es, editFields (only n editor) qs out.length = some es → es.2 = out'.length := by
  induction qs generalizing out with
  | nil =>
    cases folded
    exact ⟨[], (List.append_nil _).symm, by simp [editFields, Each], fun es h => by cases h; rfl⟩
  | cons q qs ih =>
    rw [List.foldlM_cons] at folded
    obtain ⟨mid, step, later⟩ := Option.bind_eq_some_iff.mp folded
    unfold childStep at step
    by_cases is : IsField n 2 q
    · rw [if_pos is] at step
      obtain ⟨first, rfl, some, index⟩ := child _ _ _ step
      obtain ⟨last, rfl, someLast, indexLast⟩ := ih later
      refine ⟨first ++ last, List.append_assoc _ _ _, ?_⟩
      simp only [editFields, editOne_only_child _ is]
      rw [each_append, ← some]
      cases edited : editor (payload q) out.length with
      | none => simp
      | some c =>
        have here := index c edited
        rw [← List.length_append]
        simp only [Option.map_some, Option.bind_some, Option.isSome_map, here, Option.isSome_some, true_and]
        refine ⟨someLast, fun es h => ?_⟩
        obtain ⟨es', more, rfl⟩ := Option.map_eq_some_iff.mp h
        exact indexLast es' more
    · rw [if_neg is] at step
      cases step
      obtain ⟨last, rfl, someLast, indexLast⟩ := ih later
      refine ⟨last, rfl, ?_⟩
      simp only [editFields, editOne_only_other _ is, Option.bind_some, Option.isSome_map]
      refine ⟨someLast, fun es h => ?_⟩
      obtain ⟨es', more, rfl⟩ := Option.map_eq_some_iff.mp h
      exact indexLast es' more

theorem Agrees.message (child : Agrees env editor read) :
    Agrees env (editMessage env.raw masks (only n editor)) (readChildren n read) := by
  intro t out out' folded
  obtain ⟨fs, whole, folded⟩ := Option.bind_eq_some_iff.mp folded
  obtain ⟨new, grown, some, index⟩ := child.walk folded
  refine ⟨new, grown, ?_⟩
  simp only [editMessage, whole, Option.bind_some, Option.isSome_map]
  refine ⟨some, fun c h => ?_⟩
  obtain ⟨es, edited, rfl⟩ := Option.map_eq_some_iff.mp h
  exact index es edited

theorem Agrees.resource (scopes : ∀ res, Agrees env editor (scopeLogs res)) :
    Agrees env (editMessage env.raw masks (only 2 editor)) resourceLogs := by
  intro t out out' visited
  obtain ⟨res, -, -, folded⟩ := resourceLogs_scopes visited
  exact (scopes res).message t out out' folded

theorem readRecord_agrees (known : env.decisions.Known masks) (res : Resource) :
    Agrees env (recordEditor env masks) (readRecord res) := by
  intro t out out' appended
  obtain ⟨r, read, rfl⟩ := Option.map_eq_some_iff.mp appended
  refine ⟨[r], rfl, ?_, fun c h => ?_⟩
  · rw [recordEditor_isSome known read]
    simp [Each, Rewritable, Record.Complete, (record_frame read).1]
  rw [recordEditor_index (c := c.1) (j := c.2) h]
  simp

theorem requestEditor_agrees (known : env.decisions.Known masks) :
    Agrees env (requestEditor env masks) (readChildren 1 resourceLogs) := by
  rw [requestEditor_eq, resourceEditor_eq, scopeEditor_eq]
  refine Agrees.message (Agrees.resource fun res => ?_)
  rw [scopeLogs_eq]
  exact Agrees.message (readRecord_agrees known res)

/-- The second walk succeeds exactly when it has nothing to do or can read every value it must. -/
theorem assembleCells_isSome (known : env.decisions.Known masks) {rs : List Record}
    (parsed : records env.raw = some rs) (count : env.records.length = rs.length) :
    (assembleCells env masks).isSome ↔
      (env.decisions.anyDropped = false ∧ env.decisions.redactions = []) ∨
        ∀ i r, rs[i]? = some r → env.decisions.samplingVerdict i = .keep → r.Complete := by
  rw [records_eq] at parsed
  obtain ⟨new, same, some, index⟩ := requestEditor_agrees known _ _ _ parsed
  rw [List.nil_append] at same
  subst same
  rw [List.length_nil] at some index
  unfold assembleCells
  by_cases idle : (!env.decisions.anyDropped && env.decisions.redactionTotal == 0) = true
  · rw [if_pos idle]
    simp [nothing_iff.mp idle]
  · have busy := nothing_iff.not.mp idle
    rw [if_neg idle]
    simp only [busy, false_or]
    rw [each_iff] at some
    simp only [Nat.zero_add, Rewritable] at some
    rw [← some]
    cases edited : requestEditor env masks ⟨0, env.raw⟩ 0 with
    | none => simp
    | some c => simp [index c edited, count]

end Request

end ArchivAgent
