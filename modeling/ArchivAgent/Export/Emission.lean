import Mathlib.Algebra.BigOperators.Group.List.Basic
import ArchivAgent.Export.Reparse

/-!
# What is written of a record

Which bytes of the request and how many masks the assembler writes. A message writes nothing of
its surroundings, so what is written of a string is decided by the spans of that string.
-/

namespace ArchivAgent
open Wire

mutual

def Seg.written : Seg → List Part
  | .verbatim r => [.raw r]
  | .nested _ _ segs => segsWritten segs
  | .scalar _ _ parts => parts

def segsWritten : List Seg → List Part
  | [] => []
  | seg :: segs => seg.written ++ segsWritten segs

end

section Written
variable (env : Envelope) (masks : MaskTable)

/-- The ranges of the request and the masks `assemble` writes, in order. -/
def writtenParts : List Part :=
  if !env.decisions.anyDropped && env.decisions.redactionTotal == 0 then [.raw ⟨0, env.raw.length⟩]
  else match buildRequest env.raw env masks 0 with
    | .ok (segs, _) => segsWritten segs
    | .error _ => []

/-- A byte of the request is in a range that is written. -/
def Emits (x : Nat) : Prop := ∃ r, .raw r ∈ writtenParts env masks ∧ r.start ≤ x ∧ x < r.stop

def Part.isMask : Part → Bool
  | .raw _ => false
  | .mask _ => true

def masksWritten : Nat := (writtenParts env masks).countP Part.isMask

end Written

/-! ### Parts and cells -/

theorem mem_partCells {x : Nat} {parts : List Part} :
    Cell.raw x ∈ parts.flatMap Part.cells ↔ ∃ r, .raw r ∈ parts ∧ r.start ≤ x ∧ x < r.stop := by
  rw [List.mem_flatMap]
  constructor
  · rintro ⟨part, member, here⟩
    cases part with
    | raw r => exact ⟨r, member, mem_rawCells.mp here⟩
    | mask m => simp [Part.cells] at here
  · rintro ⟨r, member, here⟩
    exact ⟨.raw r, member, mem_rawCells.mpr here⟩

theorem masks_partCells (parts : List Part) :
    (parts.flatMap Part.cells).countP Cell.isMask = parts.countP Part.isMask := by
  induction parts with
  | nil => rfl
  | cons part parts ih =>
    rw [List.flatMap_cons, List.countP_append, ih]
    cases part <;> simp [Part.cells, Part.isMask, Cell.isMask, List.countP_cons, Nat.add_comm]

theorem segsWritten_cells : ∀ segs : List Seg,
    (∀ x, Cell.raw x ∈ segsCells segs ↔ Cell.raw x ∈ (segsWritten segs).flatMap Part.cells) ∧
      (segsCells segs).countP Cell.isMask = ((segsWritten segs).flatMap Part.cells).countP Cell.isMask
  | [] => ⟨fun _ => Iff.rfl, rfl⟩
  | .verbatim r :: segs => by
    obtain ⟨rest, countRest⟩ := segsWritten_cells segs
    simp only [segsCells, segsWritten, Seg.cells, Seg.written, Part.cells, List.flatMap_append, List.flatMap_singleton,
      List.mem_append, List.countP_append, countRest, rest, implies_true, and_self]
  | .nested field size inner :: segs => by
    obtain ⟨same, count⟩ := segsWritten_cells inner
    obtain ⟨rest, countRest⟩ := segsWritten_cells segs
    simp only [segsCells, segsWritten, Seg.cells, Seg.written, List.flatMap_append, List.mem_append, raw_litCells, false_or,
      List.countP_append, masks_litCells, Nat.zero_add, same, count, rest, countRest, implies_true, and_self]
  | .scalar field size parts :: segs => by
    obtain ⟨rest, countRest⟩ := segsWritten_cells segs
    simp only [segsCells, segsWritten, Seg.cells, Seg.written, List.flatMap_append, List.mem_append, raw_litCells, false_or,
      List.countP_append, masks_litCells, Nat.zero_add, rest, countRest, implies_true, and_self]

theorem written_cells {env : Envelope} {masks : MaskTable} (ranged : env.decisions.Ranged) {cells : List Cell}
    (written : assembleCells env masks = some cells) :
    (∀ x, Emits env masks x ↔ Cell.raw x ∈ cells) ∧ masksWritten env masks = cells.countP Cell.isMask := by
  have parts : (∀ x, Cell.raw x ∈ cells ↔ Cell.raw x ∈ (writtenParts env masks).flatMap Part.cells) ∧
      cells.countP Cell.isMask = ((writtenParts env masks).flatMap Part.cells).countP Cell.isMask := by
    unfold assembleCells at written
    unfold writtenParts
    split at written
    · rename_i idle
      cases written
      rw [if_pos idle]
      simp [Part.cells]
    · rename_i busy
      obtain ⟨c, edited, counted⟩ := Option.bind_eq_some_iff.mp written
      simp only [Option.ite_none_right_eq_some, Option.some.injEq] at counted
      have built := (@buildRequest_meets _ masks) ranged 0
      rw [edited] at built
      obtain ⟨⟨segs, n⟩, same, flat, -, -⟩ := built
      rw [if_neg busy, same, ← counted.2, ← flat]
      exact segsWritten_cells segs
  refine ⟨fun x => ?_, ?_⟩
  · rw [parts.1 x, mem_partCells]
    rfl
  · rw [parts.2, masks_partCells]
    rfl

/-! ### A message writes nothing of its surroundings -/

theorem payload_extent (q : Nat × Field) :
    q.1 ≤ (payload q).range.start ∧ (payload q).range.stop = q.1 + q.2.size := by
  simp only [payload, Text.range, bodyPos, Wire.size_eq, Field.head, List.length_append]
  omega

def Change.Confined (t : Text) (c : Change) : Prop :=
  ∀ x, Cell.raw x ∈ c.cells t → t.range.start ≤ x ∧ x < t.range.stop

section Edit
variable {raw : Bytes} {masks : MaskTable} {q : Nat × Field} {n x : Nat} {c : Change}

theorem edit_confined (h : c.Confined (payload q)) (member : Cell.raw x ∈ (c.edit n q).cells raw masks) :
    q.1 ≤ x ∧ x < q.1 + q.2.size := by
  obtain ⟨low, high⟩ := payload_extent q
  cases c with
  | unchanged => exact mem_rawCells.mp member
  | dropped => cases member
  | rebuilt cells =>
    rcases List.mem_append.mp member with header | content
    · exact absurd header raw_litCells
    · have := h x content
      omega

theorem edit_payload (first : (payload q).range.start ≤ x) (last : x < (payload q).range.stop) :
    Cell.raw x ∈ (c.edit n q).cells raw masks ↔ Cell.raw x ∈ c.cells (payload q) := by
  obtain ⟨low, high⟩ := payload_extent q
  cases c with
  | unchanged =>
    simp only [Change.edit, Edit.cells, Change.cells, mem_rawCells]
    omega
  | dropped => exact Iff.rfl
  | rebuilt cells => simp only [Change.edit, Edit.cells, List.mem_append, raw_litCells, false_or, Change.cells]

theorem masks_edit (n : Nat) (q : Nat × Field) :
    ((c.edit n q).cells raw masks).countP Cell.isMask = (c.cells (payload q)).countP Cell.isMask := by
  cases c <;> simp [Change.edit, Edit.cells, Change.cells]

end Edit

def Confines (editor : Editor) : Prop := ∀ t i c, editor t i = some c → c.1.Confined t

def Level.Confines (level : Level) : Prop := ∀ n editor, level n = some editor → ArchivAgent.Confines editor

section Messages
variable {raw : Bytes} {masks : MaskTable} {level : Level} {i : Nat}

theorem editOne_confined (confines : level.Confines) {q : Nat × Field} {e : Edit × Nat}
    (one : editOne level q i = some e) {x : Nat} (member : Cell.raw x ∈ e.1.cells raw masks) :
    q.1 ≤ x ∧ x < q.1 + q.2.size := by
  rcases editOne_cases (e := e.1) (j := e.2) one with ⟨same, -, -⟩ | ⟨editor, c, -, found, changed, same⟩
  · rw [same] at member
    exact mem_rawCells.mp member
  · rw [same] at member
    exact edit_confined (confines _ _ found _ _ _ changed) member

theorem editFields_confined (confines : level.Confines) {qs : List (Nat × Field)} {es : List Edit × Nat}
    (edited : editFields level qs i = some es) {x : Nat} (member : Cell.raw x ∈ es.1.flatMap (Edit.cells raw masks)) :
    ∃ q ∈ qs, q.1 ≤ x ∧ x < q.1 + q.2.size := by
  induction qs generalizing i es with
  | nil => cases edited; cases member
  | cons q qs ih =>
    obtain ⟨e, one, rest⟩ := Option.bind_eq_some_iff.mp edited
    obtain ⟨es', more, rfl⟩ := Option.map_eq_some_iff.mp rest
    rw [List.flatMap_cons] at member
    rcases List.mem_append.mp member with first | later
    · exact ⟨q, List.mem_cons_self, editOne_confined confines one first⟩
    · obtain ⟨q', there, here⟩ := ih more later
      exact ⟨q', List.mem_cons_of_mem q there, here⟩

theorem Level.Confines.message (confines : level.Confines) : ArchivAgent.Confines (editMessage raw masks level) := by
  intro t i c changed x member
  obtain ⟨fs, read, settled⟩ := Option.bind_eq_some_iff.mp changed
  obtain ⟨es, edited, rfl⟩ := Option.map_eq_some_iff.mp settled
  rw [(@settle_cells _ _ _ _ es.2 _ _ es.1) read edited] at member
  obtain ⟨q, located, first, last⟩ := editFields_confined confines edited member
  obtain ⟨low, high⟩ := (locate_pairwise t.pos fs).1 q located
  rw [← (fields_iff.mp read).1] at high
  exact ⟨Nat.le_trans low first, Nat.lt_of_lt_of_le last high⟩

theorem editFields_child (steady : level.Steady) (confines : level.Confines) {n : Nat} {editor : Editor}
    (found : level n = some editor) {qs : List (Nat × Field)} (ordered : qs.Pairwise fun a b => a.1 + a.2.size ≤ b.1)
    {es : List Edit × Nat} (edited : editFields level qs i = some es) {q : Nat × Field} (member : q ∈ qs)
    (is : IsField n 2 q) : ∃ c, editor (payload q) i = some c ∧
      ∀ x, (payload q).range.start ≤ x → x < (payload q).range.stop →
        (Cell.raw x ∈ es.1.flatMap (Edit.cells raw masks) ↔ Cell.raw x ∈ c.1.cells (payload q)) := by
  induction qs generalizing es with
  | nil => cases member
  | cons a qs ih =>
    obtain ⟨after, ordered⟩ := List.pairwise_cons.mp ordered
    obtain ⟨e, one, rest⟩ := Option.bind_eq_some_iff.mp edited
    obtain ⟨es', more, rfl⟩ := Option.map_eq_some_iff.mp rest
    simp only [List.flatMap_cons, List.mem_append]
    obtain ⟨low, high⟩ := payload_extent q
    rcases List.mem_cons.mp member with rfl | later
    · rw [editOne_edited found is] at one
      obtain ⟨c, changed, rfl⟩ := Option.map_eq_some_iff.mp one
      refine ⟨c, changed, fun x first last => ?_⟩
      rw [edit_payload first last, or_iff_left]
      intro beyond
      obtain ⟨q', there, here⟩ := editFields_confined confines more beyond
      have := after q' there
      omega
    · rw [steady.one one] at more
      obtain ⟨c, changed, same⟩ := ih ordered more later
      refine ⟨c, changed, fun x first last => ?_⟩
      rw [same x first last, or_iff_right]
      intro before
      have := editOne_confined confines one before
      have := after q later
      omega

theorem editMessage_child (steady : level.Steady) (confines : level.Confines) {n : Nat} {editor : Editor}
    (found : level n = some editor) {t u : Text} {c : Change × Nat}
    (changed : editMessage raw masks level t i = some c) (child : u ∈ children n t) :
    ∃ c', editor u i = some c' ∧ ∀ x, u.range.start ≤ x → x < u.range.stop →
      (Cell.raw x ∈ c.1.cells t ↔ Cell.raw x ∈ c'.1.cells u) := by
  obtain ⟨fs, read, settled⟩ := Option.bind_eq_some_iff.mp changed
  obtain ⟨es, edited, rfl⟩ := Option.map_eq_some_iff.mp settled
  obtain ⟨q, located, is, rfl⟩ := (mem_children read).mp child
  rw [(@settle_cells _ _ _ _ es.2 _ _ es.1) read edited]
  exact editFields_child steady confines found (locate_pairwise t.pos fs).2 edited located is

/-- Each editor of the level writes `m n` masks for a child under the number `n`. -/
def Level.Masks (level : Level) (i : Nat) (m : Nat → Text → Nat) : Prop :=
  ∀ n, match level n with
    | some editor => ∀ u c, editor u i = some c → (c.1.cells u).countP Cell.isMask = m n u
    | none => ∀ u, m n u = 0

theorem editOne_masks {m : Nat → Text → Nat} (each : level.Masks i m) {q : Nat × Field} {e : Edit × Nat}
    (one : editOne level q i = some e) : (e.1.cells raw masks).countP Cell.isMask
      = if q.2.wire = 2 then m (q.2.number % 2 ^ 32) (payload q) else 0 := by
  have here := each (q.2.number % 2 ^ 32)
  rcases editOne_cases (e := e.1) (j := e.2) one with ⟨same, -, other⟩ | ⟨editor, c, two, found, changed, same⟩
  · rw [same, Edit.cells, masks_rawCells]
    by_cases two : q.2.wire = 2
    · rw [other two] at here
      rw [if_pos two, here]
    · rw [if_neg two]
  · rw [found] at here
    rw [same, masks_edit, if_pos two, here _ _ changed]

theorem editFields_masks (steady : level.Steady) {m : Nat → Text → Nat} (each : level.Masks i m)
    {qs : List (Nat × Field)} {es : List Edit × Nat} (edited : editFields level qs i = some es) :
    (es.1.flatMap (Edit.cells raw masks)).countP Cell.isMask
      = (qs.map fun q => if q.2.wire = 2 then m (q.2.number % 2 ^ 32) (payload q) else 0).sum := by
  induction qs generalizing es with
  | nil => cases edited; rfl
  | cons q qs ih =>
    obtain ⟨e, one, rest⟩ := Option.bind_eq_some_iff.mp edited
    obtain ⟨es', more, rfl⟩ := Option.map_eq_some_iff.mp rest
    rw [List.flatMap_cons, List.countP_append, editOne_masks each one, List.map_cons, List.sum_cons,
      ih (steady.one one ▸ more)]

theorem editMessage_masks (steady : level.Steady) {m : Nat → Text → Nat} (each : level.Masks i m) {t : Text}
    {c : Change × Nat} (changed : editMessage raw masks level t i = some c) :
    (c.1.cells t).countP Cell.isMask = ((locate t.pos (scan t.bytes).1).map fun q =>
      if q.2.wire = 2 then m (q.2.number % 2 ^ 32) (payload q) else 0).sum := by
  obtain ⟨fs, read, settled⟩ := Option.bind_eq_some_iff.mp changed
  obtain ⟨es, edited, rfl⟩ := Option.map_eq_some_iff.mp settled
  rw [(@settle_cells _ _ _ _ es.2 _ _ es.1) read edited, editFields_masks steady each edited, scan_of_fields read]

theorem sum_children (n : Nat) (t : Text) (m : Text → Nat) : ((children n t).map m).sum
    = ((locate t.pos (scan t.bytes).1).map fun q => if IsField n 2 q then m (payload q) else 0).sum := by
  rw [children]
  generalize locate t.pos (scan t.bytes).1 = qs
  induction qs with
  | nil => rfl
  | cons q qs ih =>
    by_cases child : IsField n 2 q
    · rw [List.filter_cons_of_pos (by exact decide_eq_true child), List.map_cons, List.map_cons, List.sum_cons, ih, List.map_cons,
        List.sum_cons, if_pos child]
    · rw [List.filter_cons_of_neg (by exact fun h => child (of_decide_eq_true h)), ih, List.map_cons, List.sum_cons,
        if_neg child, Nat.zero_add]

theorem only_masks {n : Nat} {editor : Editor} (steady : ∀ t i c, editor t i = some c → c.2 = i) {m : Text → Nat}
    (each : ∀ u c, editor u i = some c → (c.1.cells u).countP Cell.isMask = m u) {t : Text} {c : Change × Nat}
    (changed : editMessage raw masks (only n editor) t i = some c) :
    (c.1.cells t).countP Cell.isMask = ((children n t).map m).sum := by
  have level : (only n editor).Masks i fun k u => if k = n then m u else 0 := by
    intro k
    by_cases same : k = n
    · simp only [only, same, ↓reduceIte]
      exact each
    · simp only [only, same, ↓reduceIte, implies_true]
  rw [editMessage_masks (only_steady steady) level changed, sum_children]
  congr 1
  refine List.map_congr_left fun q _ => ?_
  by_cases two : q.2.wire = 2 <;> by_cases number : q.2.number % 2 ^ 32 = n <;>
    simp only [IsField, two, number, and_true, and_false, ↓reduceIte]

theorem sum_flatMap {α : Type} (ts : List α) (f : α → List Text) (m : Text → Nat) :
    ((ts.flatMap f).map m).sum = (ts.map fun t => ((f t).map m).sum).sum := by
  induction ts with
  | nil => rfl
  | cons t ts ih => simp [ih]

end Messages

/-! ### Strings -/

section Strings
variable {env : Envelope} {masks : MaskTable} {i : Nat} {t u w : Text} {c : Change × Nat}

theorem keptSpans_inside (ranged : env.decisions.Ranged) : ∀ r ∈ keptSpans env i t.range,
    r.target.start ≤ r.target.stop ∧ t.range.start ≤ r.target.start ∧ r.target.stop ≤ t.range.stop := fun _ member =>
  have within := mem_keptSpans member
  ⟨spansWithin_ranged ranged within, (mem_spansWithin.mp within).2⟩

/-- A string is written but for its kept spans, with a mask for each of them. -/
theorem scalarEditor_written (ranged : env.decisions.Ranged) (changed : scalarEditor env masks t i = some c) :
    (∀ x, Cell.raw x ∈ c.1.cells t ↔ (t.range.start ≤ x ∧ x < t.range.stop) ∧
        ¬ Interval.Covers spanStart spanStop (keptSpans env i t.range) x) ∧
      (c.1.cells t).countP Cell.isMask = (keptSpans env i t.range).length := by
  have spliced : c.1.cells t = spliceCells t.range.start t.range.stop (keptSpans env i t.range) := by
    unfold scalarEditor at changed
    simp only [effectiveSpans_eq] at changed
    split at changed
    · rename_i empty
      cases changed
      rw [List.isEmpty_iff.mp empty]
      rfl
    · obtain ⟨cells, spliced, rfl⟩ := Option.map_eq_some_iff.mp changed
      unfold splice at spliced
      split at spliced <;> cases spliced
      rfl
  rw [spliced]
  exact ⟨fun x => mem_spliceCells x (keptSpans_ordered ranged) (keptSpans_inside ranged), masks_spliceCells _ _ _⟩

theorem scalarEditor_confines (ranged : env.decisions.Ranged) : Confines (scalarEditor env masks) :=
  fun _ _ _ changed x member => (((scalarEditor_written ranged changed).1 x).mp member).1

theorem only_confines {n : Nat} {editor : Editor} (confines : Confines editor) : (only n editor).Confines := by
  intro m found h
  unfold only at h
  split at h
  · cases h; exact confines
  · cases h

variable (ranged : env.decisions.Ranged)
include ranged

theorem anyValueLevel_confines : (anyValueLevel env masks).Confines := only_confines (scalarEditor_confines ranged)

theorem keyValueLevel_confines : (keyValueLevel env masks).Confines :=
  only_confines (anyValueLevel_confines ranged).message

theorem recordLevel_confines : (recordLevel env masks).Confines := by
  intro n editor h
  unfold recordLevel at h
  split at h
  · cases h; exact (anyValueLevel_confines ranged).message
  split at h
  · cases h; exact (keyValueLevel_confines ranged).message
  · cases h

theorem recordEditor_confines : Confines (recordEditor env masks) := by
  intro t i c changed
  unfold recordEditor at changed
  split at changed
  · cases changed
    intro x member
    cases member
  · obtain ⟨d, edited, rfl⟩ := Option.map_eq_some_iff.mp changed
    exact (recordLevel_confines ranged).message t i d edited

theorem anyValueEditor_string (changed : anyValueEditor env masks u i = some c) (string : w ∈ children 1 u) (x : Nat)
    (first : w.range.start ≤ x) (last : x < w.range.stop) :
    Cell.raw x ∈ c.1.cells u ↔ ¬ Interval.Covers spanStart spanStop (keptSpans env i w.range) x := by
  obtain ⟨c', spliced, same⟩ := editMessage_child (n := 1) anyValueLevel_steady (anyValueLevel_confines ranged)
    (if_pos rfl) changed string
  rw [same x first last, (scalarEditor_written ranged spliced).1 x]
  simp only [first, last, and_self, true_and]

theorem recordEditor_string (changed : recordEditor env masks t i = some c)
    (keep : env.decisions.samplingVerdict i ≠ .drop) (string : w ∈ windows t) (x : Nat)
    (first : w.range.start ≤ x) (last : x < w.range.stop) :
    Cell.raw x ∈ c.1.cells t ↔ ¬ Interval.Covers spanStart spanStop (keptSpans env i w.range) x := by
  rw [recordEditor, if_neg keep] at changed
  obtain ⟨c', edited, rfl⟩ := Option.map_eq_some_iff.mp changed
  obtain ⟨u, value, string⟩ := List.mem_flatMap.mp string
  obtain ⟨low, high⟩ := children_under string
  rcases List.mem_append.mp value with body | attr
  · obtain ⟨d, changed, same⟩ := editMessage_child (n := 5) recordLevel_steady (recordLevel_confines ranged)
      (if_pos rfl) edited body
    rw [same x (by omega) (by omega)]
    exact anyValueEditor_string ranged changed string x first last
  · obtain ⟨kv, attr, value⟩ := List.mem_flatMap.mp attr
    obtain ⟨low', high'⟩ := children_under value
    obtain ⟨d, changed, same⟩ := editMessage_child (n := 6) recordLevel_steady (recordLevel_confines ranged)
      rfl edited attr
    obtain ⟨d', changed', same'⟩ := editMessage_child (n := 2) keyValueLevel_steady (keyValueLevel_confines ranged)
      (if_pos rfl) changed value
    rw [same x (by omega) (by omega), same' x (by omega) (by omega)]
    exact anyValueEditor_string ranged changed' string x first last

theorem recordEditor_masks (changed : recordEditor env masks t i = some c) : (c.1.cells t).countP Cell.isMask
    = if env.decisions.samplingVerdict i = .drop then 0
      else ((windows t).map fun w => (keptSpans env i w.range).length).sum := by
  have anyValue : ∀ u c, anyValueEditor env masks u i = some c → (c.1.cells u).countP Cell.isMask
      = ((children 1 u).map fun w => (keptSpans env i w.range).length).sum := fun _ _ changed =>
    only_masks scalarEditor_steady (fun _ _ spliced => (scalarEditor_written ranged spliced).2) changed
  have keyValue : ∀ u c, keyValueEditor env masks u i = some c → (c.1.cells u).countP Cell.isMask
      = ((children 2 u).map fun v => ((children 1 v).map fun w => (keptSpans env i w.range).length).sum).sum :=
    fun _ _ changed => only_masks (fun _ _ _ => anyValueLevel_steady.message) anyValue changed
  unfold recordEditor at changed
  split at changed
  · rename_i drop
    cases changed
    rw [if_pos drop]
    rfl
  · rename_i keep
    obtain ⟨d, edited, rfl⟩ := Option.map_eq_some_iff.mp changed
    rw [if_neg keep, windows, anyValues, sum_flatMap, List.map_append, List.sum_append, sum_flatMap, sum_children 5,
      sum_children 6, ← List.sum_map_add]
    have level : (recordLevel env masks).Masks i fun n u =>
        if n = 5 then ((children 1 u).map fun w => (keptSpans env i w.range).length).sum
        else if n = 6 then ((children 2 u).map fun v => ((children 1 v).map fun w => (keptSpans env i w.range).length).sum).sum
        else 0 := by
      intro n
      by_cases five : n = 5
      · simp only [recordLevel, five, ↓reduceIte]
        exact anyValue
      by_cases six : n = 6
      · simp only [recordLevel, six, ↓reduceIte]
        exact keyValue
      · simp only [recordLevel, five, six, ↓reduceIte, implies_true]
    rw [editMessage_masks recordLevel_steady level edited]
    congr 1
    refine List.map_congr_left fun q _ => ?_
    by_cases two : q.2.wire = 2
    · by_cases five : q.2.number % 2 ^ 32 = 5
      · simp only [IsField, two, five, and_true, ↓reduceIte]
        rfl
      · by_cases six : q.2.number % 2 ^ 32 = 6 <;>
          simp only [IsField, two, five, six, and_true, ↓reduceIte, Nat.zero_add, Nat.reduceEqDiff]
    · simp only [IsField, two, and_false, ↓reduceIte, Nat.zero_add]

end Strings

/-! ### The records of a request -/

section Containers
variable {env : Envelope} {masks : MaskTable}

def keptTotal (env : Envelope) : Nat → List Record → Nat
  | _, [] => 0
  | i, r :: rs =>
    (if env.decisions.samplingVerdict i = .drop then 0
      else ((windows r.text).map fun w => (keptSpans env i w.range).length).sum) + keptTotal env (i + 1) rs

theorem keptTotal_append (i : Nat) (as bs : List Record) :
    keptTotal env i (as ++ bs) = keptTotal env i as + keptTotal env (i + as.length) bs := by
  induction as generalizing i with
  | nil => simp [keptTotal]
  | cons a as ih =>
    simp only [List.cons_append, keptTotal, ih, List.length_cons, Nat.add_assoc]
    rw [show i + (1 + as.length) = i + (as.length + 1) by omega]

/-- What a container writes of its records is what each record's change writes. -/
structure Recorded (env : Envelope) (masks : MaskTable) (inside : Nat → Nat → Prop) (i : Nat) (cells : List Cell)
    (j : Nat) (new : List Record) : Prop where
  confined : ∀ x, Cell.raw x ∈ cells → inside x (x + 1)
  next : j = i + new.length
  masked : cells.countP Cell.isMask = keptTotal env i new
  record : ∀ k r, new[k]? = some r → inside r.text.range.start r.text.range.stop ∧
    ∃ c, recordEditor env masks r.text (i + k) = some c ∧ ∀ x, r.text.range.start ≤ x → x < r.text.range.stop →
      (Cell.raw x ∈ cells ↔ Cell.raw x ∈ c.1.cells r.text)

/-- The change of a text, seen from where it stands. -/
def RecordedIn (env : Envelope) (masks : MaskTable) (t : Text) (i : Nat) (c : Change) (j : Nat) (new : List Record) :
    Prop :=
  Recorded env masks (fun a b => t.range.start ≤ a ∧ b ≤ t.range.stop) i (c.cells t) j new

theorem Walked.recorded {raw : Bytes} {n : Nat} {qs : List (Nat × Field)} {i j : Nat} {es : List Edit}
    {new : List Record} (h : Walked (RecordedIn env masks) n qs i es j new)
    (ordered : qs.Pairwise fun a b => a.1 + a.2.size ≤ b.1) :
    Recorded env masks (fun a b => ∃ q ∈ qs, q.1 ≤ a ∧ b ≤ q.1 + q.2.size) i
      (es.flatMap (Edit.cells raw masks)) j new := by
  induction h with
  | nil i => exact ⟨by simp, rfl, rfl, by simp⟩
  | @keep q qs i j es new other _ ih =>
    obtain ⟨after, ordered⟩ := List.pairwise_cons.mp ordered
    have rest := ih ordered
    refine ⟨fun x member => ?_, rest.next, ?_, fun k r found => ?_⟩
    · rcases List.mem_append.mp (List.flatMap_cons ▸ member) with here | later
      · have := mem_rawCells.mp here
        exact ⟨q, List.mem_cons_self, this.1, this.2⟩
      · obtain ⟨q', there, inside⟩ := rest.confined x later
        exact ⟨q', List.mem_cons_of_mem q there, inside⟩
    · rw [List.flatMap_cons, List.countP_append, rest.masked, Edit.cells, masks_rawCells, Nat.zero_add]
    · obtain ⟨⟨q', there, inside⟩, c, edited, same⟩ := rest.record k r found
      refine ⟨⟨q', List.mem_cons_of_mem q there, inside⟩, c, edited, fun x first last => ?_⟩
      rw [List.flatMap_cons, List.mem_append, same x first last, or_iff_right]
      intro before
      have := mem_rawCells.mp before
      have := after q' there
      omega
  | @child q qs i k j c es first rest is here _ ih =>
    obtain ⟨after, ordered⟩ := List.pairwise_cons.mp ordered
    have later := ih ordered
    obtain ⟨low, high⟩ := payload_extent q
    have confined : c.Confined (payload q) := fun x member => here.confined x member
    refine ⟨fun x member => ?_, ?_, ?_, fun m r found => ?_⟩
    · rcases List.mem_append.mp (List.flatMap_cons ▸ member) with this | there
      · have := edit_confined confined this
        exact ⟨q, List.mem_cons_self, this.1, this.2⟩
      · obtain ⟨q', there, inside⟩ := later.confined x there
        exact ⟨q', List.mem_cons_of_mem q there, inside⟩
    · rw [later.next, here.next, List.length_append, Nat.add_assoc]
    · rw [List.flatMap_cons, List.countP_append, later.masked, masks_edit, here.masked, keptTotal_append, here.next]
    by_cases early : m < first.length
    · rw [List.getElem?_append_left early] at found
      obtain ⟨inside, c', edited, same⟩ := here.record m r found
      refine ⟨⟨q, List.mem_cons_self, by omega, by omega⟩, c', edited, fun x start stop => ?_⟩
      rw [List.flatMap_cons, List.mem_append, edit_payload (by omega) (by omega), same x start stop, or_iff_left]
      intro beyond
      obtain ⟨q', there, inside'⟩ := later.confined x beyond
      have := after q' there
      omega
    · rw [List.getElem?_append_right (Nat.le_of_not_lt early)] at found
      obtain ⟨⟨q', there, inside⟩, c', edited, same⟩ := later.record (m - first.length) r found
      rw [here.next, show i + first.length + (m - first.length) = i + m by omega] at edited
      refine ⟨⟨q', List.mem_cons_of_mem q there, inside⟩, c', edited, fun x start stop => ?_⟩
      rw [List.flatMap_cons, List.mem_append, same x start stop, or_iff_right]
      intro before
      have := edit_confined confined before
      have := after q' there
      omega

theorem Walked.keep_all {P : Text → Nat → Change → Nat → List Record → Prop} {n : Nat} {qs : List (Nat × Field)}
    {i j : Nat} {es : List Edit} {new : List Record} (h : Walked P n qs i es j new)
    (all : es.all Edit.isKeep = true) : es = qs.map .keep := by
  induction h with
  | nil => rfl
  | keep _ _ ih =>
    simp only [List.all_cons, Bool.and_eq_true] at all
    rw [List.map_cons, ← ih all.2]
  | @child q _ _ _ _ c _ _ _ _ _ _ ih =>
    simp only [List.all_cons, Bool.and_eq_true] at all
    rw [List.map_cons, ← ih all.2]
    cases c with
    | unchanged => rfl
    | dropped => cases all.1
    | rebuilt cells => cases all.1

theorem recorded_lifts (n : Nat) : Lifts env.raw masks n (RecordedIn env masks) (RecordedIn env masks) := by
  intro t fs i es j new read walked
  obtain ⟨inside, ordered⟩ := locate_pairwise t.pos fs
  rw [← (fields_iff.mp read).1] at inside
  have recorded := (@Walked.recorded _ _ env.raw) walked ordered
  have same : (settle env.raw masks es).cells t = es.flatMap (Edit.cells env.raw masks) :=
    settle_kept read walked.keep_all
  have widen : ∀ a b, (∃ q ∈ locate t.pos fs, q.1 ≤ a ∧ b ≤ q.1 + q.2.size) → t.range.start ≤ a ∧ b ≤ t.range.stop := by
    rintro a b ⟨q, located, low, high⟩
    have := inside q located
    simp only [Text.range]
    omega
  rw [RecordedIn, same]
  exact ⟨fun x member => widen _ _ (recorded.confined x member), recorded.next, recorded.masked,
    fun k r found => ⟨widen _ _ (recorded.record k r found).1, (recorded.record k r found).2⟩⟩

theorem requestEditor_recorded (ranged : env.decisions.Ranged) :
    Tracks (RecordedIn env masks) (requestEditor env masks) (readChildren 1 resourceLogs) := by
  refine requestEditor_tracks (recorded_lifts 1) (recorded_lifts 2) fun res t i c r edited read => ?_
  obtain rfl := (record_frame read).1
  refine ⟨recordEditor_confines ranged _ _ _ edited, rfl, ?_, fun k r' found => ?_⟩
  · rw [recordEditor_masks ranged edited, keptTotal, keptTotal, Nat.add_zero]
  · obtain ⟨rfl, rfl⟩ : k = 0 ∧ r' = r := by
      cases k with
      | zero => simpa using found.symm
      | succ k => simp at found
    exact ⟨⟨Nat.le_refl _, Nat.le_refl _⟩, _, edited, fun _ _ _ => Iff.rfl⟩

theorem keptSpans_clean (clean : env.decisions.redactions = []) (i : Nat) (w : Range) : keptSpans env i w = [] := by
  simp [keptSpans, spansWithin, Decisions.redactionsFor, clean, Interval.firstWins]

theorem keptTotal_clean (clean : env.decisions.redactions = []) (i : Nat) (rs : List Record) :
    keptTotal env i rs = 0 := by
  induction rs generalizing i with
  | nil => rfl
  | cons r rs ih => simp [keptTotal, ih, keptSpans_clean clean]

/-- Of a string of a kept record the payload has all but what the kept spans cover. -/
theorem assembleCells_string (ranged : env.decisions.Ranged) {rs : List Record} (parsed : records env.raw = some rs)
    {cells : List Cell} (written : assembleCells env masks = some cells) {i : Nat} {r : Record} (found : rs[i]? = some r)
    (keep : env.decisions.samplingVerdict i ≠ .drop) {w : Text} (string : w ∈ windows r.text) (stands : w.In env.raw)
    (x : Nat) (first : w.range.start ≤ x) (last : x < w.range.stop) :
    Cell.raw x ∈ cells ↔ ¬ Interval.Covers spanStart spanStop (keptSpans env i w.range) x := by
  rcases assembleCells_cases written with ⟨idle, rfl⟩ | ⟨c, edited, rfl⟩
  · have := stands.bound
    simp only [mem_rawCells, keptSpans_clean idle.2, Interval.Covers, List.not_mem_nil, false_and, exists_false,
      not_false_eq_true, iff_true]
    omega
  · rw [records_eq] at parsed
    obtain ⟨new, grown, recorded⟩ := requestEditor_recorded ranged _ _ _ _ _ _ edited parsed
    rw [List.nil_append] at grown
    subst grown
    obtain ⟨-, c', changed, same⟩ := recorded.record i r found
    obtain ⟨low, high⟩ := windows_under w string
    rw [Nat.zero_add] at changed
    rw [same x (by omega) (by omega)]
    exact recordEditor_string ranged changed keep string x first last

theorem assembleCells_masks (ranged : env.decisions.Ranged) {rs : List Record} (parsed : records env.raw = some rs)
    {cells : List Cell} (written : assembleCells env masks = some cells) :
    cells.countP Cell.isMask = keptTotal env 0 rs := by
  rcases assembleCells_cases written with ⟨idle, rfl⟩ | ⟨c, edited, rfl⟩
  · rw [masks_rawCells, keptTotal_clean idle.2]
  · rw [records_eq] at parsed
    obtain ⟨new, grown, recorded⟩ := requestEditor_recorded ranged _ _ _ _ _ _ edited parsed
    rw [List.nil_append] at grown
    subst grown
    exact recorded.masked

end Containers

end ArchivAgent
