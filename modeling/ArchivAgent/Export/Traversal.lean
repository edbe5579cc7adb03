import ArchivAgent.Export.Rewriting

/-!
# The two walks side by side

The walker collects scopes and visits them later, the exporter goes through the request once. Both
reach the same records in the same order. `Walked` is one container seen by both, and
`requestEditor_tracks` lifts a property of records to the request.
-/

namespace ArchivAgent
open Wire

abbrev Reader := List Record → Text → Option (List Record)

/-- A container reads the children under one number and passes over its other fields. -/
def childStep (n : Nat) (read : Reader) (out : List Record) (q : Nat × Field) : Option (List Record) :=
  if IsField n 2 q then read out (payload q) else some out

def readChildren (n : Nat) (read : Reader) : Reader := fun out t => readFields (childStep n read) t out

def readRecord (res : Resource) : Reader := fun out t => (record t res).map fun r => out ++ [r]

theorem scopeLogs_eq (res : Resource) : scopeLogs res = readChildren 2 (readRecord res) := rfl

theorem records_eq (bs : Bytes) : records bs = readChildren 1 resourceLogs [] ⟨0, bs⟩ := rfl

/-! ### Visiting scopes late -/

theorem foldlM_collect {qs : List (Nat × Field)} {s : Resource × List Text} {res : Resource}
    {scopes : List Text} (h : qs.foldlM resourceLogsStep s = some (res, scopes)) :
    scopes = s.2 ++ (qs.filter (IsField 2 2)).map payload := by
  induction qs generalizing s with
  | nil => simp only [List.foldlM_nil, Option.pure_def, Option.some.injEq] at h; simp [h]
  | cons q qs ih =>
    rw [List.foldlM_cons] at h
    obtain ⟨s', step, rest⟩ := Option.bind_eq_some_iff.mp h
    have collected := ih rest
    unfold resourceLogsStep at step
    by_cases isRes : IsField 1 2 q
    · rw [if_pos isRes] at step
      obtain ⟨r, -, rfl⟩ := Option.map_eq_some_iff.mp step
      have other : ¬ IsField 2 2 q := fun scope => absurd (isRes.1.symm.trans scope.1) (by decide)
      rw [collected, List.filter_cons_of_neg (by exact fun h => other (of_decide_eq_true h))]
    rw [if_neg isRes] at step
    by_cases scope : IsField 2 2 q
    · rw [if_pos scope] at step
      cases step
      rw [collected, List.filter_cons_of_pos (by exact decide_eq_true scope), List.map_cons]
      simp only [List.append_assoc, List.singleton_append]
    · rw [if_neg scope] at step
      cases step
      rw [collected, List.filter_cons_of_neg (by exact fun h => scope (of_decide_eq_true h))]

theorem foldlM_childStep (n : Nat) (read : Reader) (qs : List (Nat × Field)) (out : List Record) :
    qs.foldlM (childStep n read) out = ((qs.filter (IsField n 2)).map payload).foldlM read out := by
  induction qs generalizing out with
  | nil => rfl
  | cons q qs ih =>
    rw [List.foldlM_cons, childStep]
    by_cases child : IsField n 2 q
    · rw [if_pos child, List.filter_cons_of_pos (by exact decide_eq_true child), List.map_cons, List.foldlM_cons]
      exact congrArg _ (funext ih)
    · rw [if_neg child, List.filter_cons_of_neg (by exact fun h => child (of_decide_eq_true h)), ← ih]
      rfl

/-- Collecting the scopes first and visiting them later reads what one pass would, with the
resource the whole message gives. -/
theorem resourceLogs_eq (out : List Record) (t : Text) :
    resourceLogs out t =
      (readFields resourceLogsStep t ({}, [])).bind fun s => readChildren 2 (scopeLogs s.1) out t := by
  unfold resourceLogs readChildren readFields
  cases fields t.bytes with
  | none => rfl
  | some fs =>
    simp only [Option.bind_some]
    cases folded : (locate t.pos fs).foldlM resourceLogsStep ({}, []) with
    | none => rfl
    | some s =>
      obtain ⟨res, scopes⟩ := s
      simp only [Option.bind_some]
      rw [foldlM_childStep, foldlM_collect folded, List.nil_append]

theorem resourceLogs_scopes {t : Text} {out out' : List Record} (h : resourceLogs out t = some out') :
    ∃ res scopes, readFields resourceLogsStep t ({}, []) = some (res, scopes) ∧
      readChildren 2 (scopeLogs res) out t = some out' := by
  rw [resourceLogs_eq] at h
  obtain ⟨⟨res, scopes⟩, collected, visited⟩ := Option.bind_eq_some_iff.mp h
  exact ⟨res, scopes, collected, visited⟩

/-! ### A container seen by both walks -/

/-- The edits of a container's fields, and the records under it. -/
inductive Walked (P : Text → Nat → Change → Nat → List Record → Prop) (n : Nat) :
    List (Nat × Field) → Nat → List Edit → Nat → List Record → Prop where
  | nil (i : Nat) : Walked P n [] i [] i []
  | keep {q : Nat × Field} {qs : List (Nat × Field)} {i j : Nat} {es : List Edit} {new : List Record} :
      ¬ IsField n 2 q → Walked P n qs i es j new → Walked P n (q :: qs) i (.keep q :: es) j new
  | child {q : Nat × Field} {qs : List (Nat × Field)} {i k j : Nat} {c : Change} {es : List Edit}
      {first rest : List Record} :
      IsField n 2 q → P (payload q) i c k first → Walked P n qs k es j rest →
        Walked P n (q :: qs) i (c.edit n q :: es) j (first ++ rest)

/-- Where the editor and the reader both succeed, `P` holds of what they made. -/
def Tracks (P : Text → Nat → Change → Nat → List Record → Prop) (editor : Editor) (read : Reader) : Prop :=
  ∀ t i c j out out', editor t i = some (c, j) → read out t = some out' →
    ∃ new, out' = out ++ new ∧ P t i c j new

def only (n : Nat) (editor : Editor) : Level := fun m => if m = n then some editor else none

section Walked
variable {P Q : Text → Nat → Change → Nat → List Record → Prop} {n : Nat} {editor : Editor} {read : Reader}

theorem editOne_only_child {q : Nat × Field} (i : Nat) (child : IsField n 2 q) :
    editOne (only n editor) q i = (editor (payload q) i).map fun c => (c.1.edit n q, c.2) :=
  editOne_edited (if_pos rfl) child

theorem editOne_only_other {q : Nat × Field} (i : Nat) (other : ¬ IsField n 2 q) :
    editOne (only n editor) q i = some (.keep q, i) :=
  editOne_kept fun two => if_neg fun one => other ⟨one, two⟩

theorem Tracks.walked (child : Tracks P editor read) {qs : List (Nat × Field)} {i j : Nat} {es : List Edit}
    {out out' : List Record} (edited : editFields (only n editor) qs i = some (es, j))
    (folded : qs.foldlM (childStep n read) out = some out') :
    ∃ new, out' = out ++ new ∧ Walked P n qs i es j new := by
  induction qs generalizing i es out with
  | nil =>
    cases edited
    cases folded
    exact ⟨[], (List.append_nil _).symm, .nil _⟩
  | cons q qs ih =>
    obtain ⟨⟨e, k⟩, one, rest⟩ := Option.bind_eq_some_iff.mp edited
    obtain ⟨⟨es', j'⟩, more, same⟩ := Option.map_eq_some_iff.mp rest
    cases same
    rw [List.foldlM_cons] at folded
    obtain ⟨mid, step, later⟩ := Option.bind_eq_some_iff.mp folded
    unfold childStep at step
    by_cases is : IsField n 2 q
    · rw [editOne_only_child i is] at one
      obtain ⟨⟨c, k'⟩, changed, same⟩ := Option.map_eq_some_iff.mp one
      cases same
      rw [if_pos is] at step
      obtain ⟨first, rfl, here⟩ := child _ _ _ _ _ _ changed step
      obtain ⟨last, rfl, there⟩ := ih more later
      exact ⟨first ++ last, (List.append_assoc _ _ _), .child is here there⟩
    · rw [editOne_only_other i is] at one
      cases one
      rw [if_neg is] at step
      cases step
      obtain ⟨last, rfl, there⟩ := ih more later
      exact ⟨last, rfl, .keep is there⟩

/-- What one container hands up. -/
def Lifts (raw : Bytes) (masks : MaskTable) (n : Nat) (P Q : Text → Nat → Change → Nat → List Record → Prop) : Prop :=
  ∀ t fs i es j new, fields t.bytes = some fs → Walked P n (locate t.pos fs) i es j new →
    Q t i (settle raw masks es) j new

theorem Tracks.message {raw : Bytes} {masks : MaskTable} (lifts : Lifts raw masks n P Q)
    (child : Tracks P editor read) : Tracks Q (editMessage raw masks (only n editor)) (readChildren n read) := by
  intro t i c j out out' changed folded
  obtain ⟨fs, read, settled⟩ := Option.bind_eq_some_iff.mp changed
  obtain ⟨⟨es, j'⟩, edited, same⟩ := Option.map_eq_some_iff.mp settled
  cases same
  unfold readChildren readFields at folded
  rw [read, Option.bind_some] at folded
  obtain ⟨new, grown, walked⟩ := child.walked edited folded
  exact ⟨new, grown, lifts t fs i es j' new read walked⟩

/-- The resource level: one pass over the scopes, whatever the resource turns out to be. -/
theorem Tracks.resource {raw : Bytes} {masks : MaskTable} (lifts : Lifts raw masks 2 P Q)
    (scopes : ∀ res, Tracks P editor (scopeLogs res)) :
    Tracks Q (editMessage raw masks (only 2 editor)) resourceLogs := by
  intro t i c j out out' changed visited
  obtain ⟨res, -, -, folded⟩ := resourceLogs_scopes visited
  exact Tracks.message lifts (scopes res) t i c j out out' changed folded

end Walked

section Request
variable {env : Envelope} {masks : MaskTable} {P : Text → Nat → Change → Nat → List Record → Prop}

theorem scopeEditor_eq : scopeEditor env masks = editMessage env.raw masks (only 2 (recordEditor env masks)) := rfl

theorem resourceEditor_eq : resourceEditor env masks = editMessage env.raw masks (only 2 (scopeEditor env masks)) := rfl

theorem requestEditor_eq : requestEditor env masks = editMessage env.raw masks (only 1 (resourceEditor env masks)) := rfl

theorem recordEditor_index {t : Text} {i j : Nat} {c : Change} (h : recordEditor env masks t i = some (c, j)) :
    j = i + 1 := by
  unfold recordEditor at h
  split at h
  · cases h; rfl
  · obtain ⟨d, -, same⟩ := Option.map_eq_some_iff.mp h
    cases same
    rfl

theorem readRecord_tracks (res : Resource)
    (base : ∀ t i c r, recordEditor env masks t i = some (c, i + 1) → record t res = some r → P t i c (i + 1) [r]) :
    Tracks P (recordEditor env masks) (readRecord res) := by
  intro t i c j out out' edited appended
  obtain rfl := recordEditor_index edited
  obtain ⟨r, read, rfl⟩ := Option.map_eq_some_iff.mp appended
  exact ⟨[r], rfl, base t i c r edited read⟩

/-- A property that holds of every record and goes up through containers holds of them all. -/
theorem resourceEditor_tracks (two : Lifts env.raw masks 2 P P)
    (base : ∀ res t i c r, recordEditor env masks t i = some (c, i + 1) → record t res = some r →
      P t i c (i + 1) [r]) :
    Tracks P (resourceEditor env masks) resourceLogs := by
  rw [resourceEditor_eq, scopeEditor_eq]
  refine Tracks.resource two fun res => ?_
  rw [scopeLogs_eq]
  exact Tracks.message two (readRecord_tracks res (base res))

theorem requestEditor_tracks (one : Lifts env.raw masks 1 P P) (two : Lifts env.raw masks 2 P P)
    (base : ∀ res t i c r, recordEditor env masks t i = some (c, i + 1) → record t res = some r →
      P t i c (i + 1) [r]) :
    Tracks P (requestEditor env masks) (readChildren 1 resourceLogs) := by
  rw [requestEditor_eq]
  exact Tracks.message one (resourceEditor_tracks two base)

/-! ### The exporter counts the walker's records -/

def Counted (_ : Text) (i : Nat) (_ : Change) (j : Nat) (new : List Record) : Prop := j = i + new.length

theorem Walked.counted {n : Nat} {qs : List (Nat × Field)} {i j : Nat} {es : List Edit} {new : List Record}
    (h : Walked Counted n qs i es j new) : j = i + new.length := by
  induction h with
  | nil => rfl
  | keep _ _ ih => exact ih
  | child _ first _ ih =>
    rw [Counted] at first
    rw [List.length_append]
    omega

theorem resourceEditor_counted : Tracks Counted (resourceEditor env masks) resourceLogs :=
  resourceEditor_tracks (fun _ _ _ _ _ _ _ h => h.counted) fun _ _ _ _ _ _ _ => rfl

end Request

end ArchivAgent
