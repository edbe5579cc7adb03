import ArchivAgent.Export.Agreement
import ArchivAgent.Export.Reparse
import ArchivAgent.Export.Splicing
import ArchivAgent.Export.Unmasked

/-!
# Part of a request

A request that stands in a longer one, its records and their spans further on, is rewritten there
to the same bytes. The assembly of two requests behind one another is the two assemblies.
-/

namespace ArchivAgent
open Wire

def Redaction.shift (d : Nat) (r : Redaction) : Redaction := ⟨r.target.shift d, r.mask⟩

/-- `part` stands at `d` in `whole`, where its first `m` records are those from the index `n` on. -/
structure PartOf (d n m : Nat) (part whole : Envelope) : Prop where
  stands : At whole.raw d part.raw
  ranged : part.decisions.Ranged
  verdict : ∀ i < m, whole.decisions.samplingVerdict (i + n) = part.decisions.samplingVerdict i
  spans : ∀ i < m, whole.decisions.redactionsFor (i + n) = (part.decisions.redactionsFor i).map (Redaction.shift d)

def Change.Alike (part whole : Bytes) (masks : MaskTable) : Change → Change → Prop
  | .unchanged, .unchanged => True
  | .dropped, .dropped => True
  | .rebuilt cells, .rebuilt cells' => render whole masks cells' = render part masks cells
  | _, _ => False

structure Edit.Alike (part whole : Bytes) (masks : MaskTable) (e e' : Edit) : Prop where
  isKeep : e'.isKeep = e.isKeep
  written : render whole masks (e'.cells whole masks) = render part masks (e.cells part masks)

/-- What `editor'` makes of a text of the whole, up to the record `b + n`, `editor` makes of the part's. -/
def Mirrors (d n b : Nat) (part whole : Bytes) (masks : MaskTable) (editor editor' : Editor) : Prop :=
  ∀ t i c' j', t.In part → editor' (t.shift d) (i + n) = some (c', j') → j' ≤ b + n →
    ∃ c j, editor t i = some (c, j) ∧ j' = j + n ∧ c.Alike part whole masks c'

def Level.Mirrors (d n b : Nat) (part whole : Bytes) (masks : MaskTable) (level level' : Level) : Prop :=
  ∀ k, Option.Rel (ArchivAgent.Mirrors d n b part whole masks) (level k) (level' k)

/-! ### Messages -/

section Messages
variable {d n b : Nat} {part whole : Bytes} {masks : MaskTable} {level level' : Level}

theorem edit_alike (stands : At whole d part) {q : Nat × Field} (here : Stands part q) {c c' : Change}
    (alike : c.Alike part whole masks c') (k : Nat) :
    (c.edit k q).Alike part whole masks (c'.edit k (q.1 + d, q.2)) := by
  cases c <;> cases c' <;> first | exact alike.elim | skip
  · refine ⟨rfl, ?_⟩
    have inside : q.1 + q.2.size ≤ part.length := here.here.length
    simp only [Change.edit, Edit.cells, render_rawCells]
    rw [show q.1 + d + q.2.size = q.1 + q.2.size + d by omega, stands.slice_shift q.1 inside]
  · exact ⟨rfl, rfl⟩
  · refine ⟨rfl, ?_⟩
    unfold Change.Alike at alike
    simp only [Change.edit, Edit.cells, render_append, render_litCells, alike]

theorem editOne_mirrors (stands : At whole d part) (mirrors : level.Mirrors d n b part whole masks level')
    {q : Nat × Field} (here : Stands part q) {i j' : Nat} {e' : Edit}
    (edited : editOne level' (q.1 + d, q.2) (i + n) = some (e', j')) (below : j' ≤ b + n) :
    ∃ e j, editOne level q i = some (e, j) ∧ j' = j + n ∧ e.Alike part whole masks e' := by
  have kept : (Edit.keep q).Alike part whole masks (.keep (q.1 + d, q.2)) :=
    @edit_alike _ _ _ masks stands _ here .unchanged .unchanged trivial 0
  rcases editOne_cases edited with ⟨rfl, rfl, none⟩ | ⟨editor', c', two, found, changed, rfl⟩
  · refine ⟨.keep q, i, editOne_kept fun two => ?_, rfl, kept⟩
    have same := mirrors (q.2.number % 2 ^ 32)
    rw [none two] at same
    cases found : level (q.2.number % 2 ^ 32) with
    | none => rfl
    | some editor =>
      rw [found] at same
      cases same
  · have same := mirrors (q.2.number % 2 ^ 32)
    simp only at found two
    rw [found] at same
    cases mine : level (q.2.number % 2 ^ 32) with
    | none =>
      rw [mine] at same
      cases same
    | some editor =>
      rw [mine] at same
      cases same with
      | some mirror =>
        rw [payload_shift] at changed
        obtain ⟨c, j, made, rfl, alike⟩ := mirror _ _ _ _ here.payload changed below
        refine ⟨c.edit _ q, j, ?_, rfl, edit_alike stands here alike _⟩
        rw [editOne_edited mine ⟨rfl, two⟩, made]
        rfl

theorem editFields_mirrors (stands : At whole d part) (mirrors : level.Mirrors d n b part whole masks level')
    (forward : level'.Moves (· ≤ ·)) {qs : List (Nat × Field)} (here : ∀ q ∈ qs, Stands part q) {i j' : Nat}
    {es' : List Edit} (edited : editFields level' (qs.map fun q => (q.1 + d, q.2)) (i + n) = some (es', j'))
    (below : j' ≤ b + n) : ∃ es j, editFields level qs i = some (es, j) ∧ j' = j + n ∧
      List.Forall₂ (Edit.Alike part whole masks) es es' := by
  induction qs generalizing i es' with
  | nil =>
    cases edited
    exact ⟨[], i, rfl, rfl, .nil⟩
  | cons q qs ih =>
    simp only [List.mem_cons, forall_eq_or_imp] at here
    obtain ⟨⟨e', k'⟩, one, rest⟩ := Option.bind_eq_some_iff.mp edited
    obtain ⟨⟨es'', j''⟩, more, same⟩ := Option.map_eq_some_iff.mp rest
    cases same
    have ahead := forward.fields more
    obtain ⟨e, k, first, rfl, alike⟩ := editOne_mirrors stands mirrors here.1 one (Nat.le_trans ahead below)
    obtain ⟨es, j, later, rfl, all⟩ := ih here.2 more
    exact ⟨e :: es, j, by simp only [editFields, first, later, Option.bind_some, Option.map_some], rfl, .cons alike all⟩

theorem alike_written {es es' : List Edit} (alike : List.Forall₂ (Edit.Alike part whole masks) es es') :
    render whole masks (es'.flatMap (Edit.cells whole masks)) = render part masks (es.flatMap (Edit.cells part masks)) := by
  induction alike with
  | nil => rfl
  | cons one _ ih => rw [List.flatMap_cons, List.flatMap_cons, render_append, render_append, one.written, ih]

theorem settle_alike {es es' : List Edit} (alike : List.Forall₂ (Edit.Alike part whole masks) es es') :
    (settle part masks es).Alike part whole masks (settle whole masks es') := by
  have same : es'.all Edit.isKeep = es.all Edit.isKeep := by
    induction alike with
    | nil => rfl
    | cons one _ ih => rw [List.all_cons, List.all_cons, one.isKeep, ih]
  unfold settle
  rw [same]
  split
  · trivial
  · exact alike_written alike

theorem Level.Mirrors.message (stands : At whole d part) (mirrors : level.Mirrors d n b part whole masks level')
    (forward : level'.Moves (· ≤ ·)) :
    ArchivAgent.Mirrors d n b part whole masks (editMessage part masks level) (editMessage whole masks level') := by
  intro t i c' j' inside changed below
  obtain ⟨fs, read, settled⟩ := Option.bind_eq_some_iff.mp changed
  obtain ⟨⟨es', k'⟩, edited, same⟩ := Option.map_eq_some_iff.mp settled
  cases same
  rw [show (t.shift d).pos = t.pos + d from rfl, locate_shift] at edited
  obtain ⟨es, j, mine, rfl, alike⟩ := editFields_mirrors stands mirrors forward (locate_stands inside read) edited below
  refine ⟨settle part masks es, j, ?_, rfl, settle_alike alike⟩
  rw [Text.shift_bytes] at read
  simp only [editMessage, read, mine, Option.bind_some, Option.map_some]

theorem only_mirrors {editor editor' : Editor} (k : Nat) (mirrors : Mirrors d n b part whole masks editor editor') :
    (only k editor).Mirrors d n b part whole masks (only k editor') := by
  intro m
  unfold only
  by_cases here : m = k
  · rw [if_pos here, if_pos here]
    exact .some mirrors
  · rw [if_neg here, if_neg here]
    exact .none

end Messages

/-! ### Strings -/

theorem resolveSpans_shift (d cursor : Nat) (spans : List Redaction) :
    resolveSpans (cursor + d) (spans.map (Redaction.shift d)) = (resolveSpans cursor spans).map (Redaction.shift d) := by
  induction spans generalizing cursor with
  | nil => rfl
  | cons r spans ih =>
    have start : (r.shift d).target.start = r.target.start + d := rfl
    have stop : (r.shift d).target.stop = r.target.stop + d := rfl
    rw [List.map_cons, resolveSpans, resolveSpans, start, stop]
    by_cases before : r.target.start < cursor
    · rw [if_pos before, if_pos (by omega), ih]
    · rw [if_neg before, if_neg (by omega), ih, List.map_cons]

theorem spliceCells_shift {outer buf : Bytes} {masks : MaskTable} {d : Nat} (stands : At outer d buf) {start stop : Nat}
    {spans : List Redaction} (each : ∀ r ∈ spans, r.target.start ≤ buf.length) (inside : stop ≤ buf.length) :
    render outer masks (spliceCells (start + d) (stop + d) (spans.map (Redaction.shift d)))
      = render buf masks (spliceCells start stop spans) := by
  rw [render_spliceCells, render_spliceCells]
  induction spans generalizing start with
  | nil => exact stands.slice_shift start inside
  | cons r spans ih =>
    simp only [List.mem_cons, forall_eq_or_imp] at each
    have front : slice outer (start + d) (r.shift d).target.start = slice buf start r.target.start :=
      stands.slice_shift start each.1
    have back := @ih r.target.stop each.2
    rw [List.map_cons, spliceBytes, spliceBytes, front, ← back]
    rfl

section Parts
variable {d n m b : Nat} {part whole : Envelope} {masks : MaskTable}

theorem effectiveSpans_shift (of : PartOf d n m part whole) {i : Nat} (below : i < m) (w : Range) :
    effectiveSpans whole (i + n) (w.shift d) = (effectiveSpans part i w).map (Redaction.shift d) := by
  unfold effectiveSpans
  simp only [of.spans i below, List.filter_map]
  have same : (fun r : Redaction => decide ((w.shift d).start ≤ r.target.start ∧ r.target.stop ≤ (w.shift d).stop))
      ∘ Redaction.shift d = fun r => decide (w.start ≤ r.target.start ∧ r.target.stop ≤ w.stop) := by
    funext r
    simp only [Function.comp_apply, Redaction.shift, Range.shift, Nat.add_le_add_iff_right]
  rw [same, ← List.map_insertionSort SpanLe SpanLe (Redaction.shift d)]
  · exact resolveSpans_shift d w.start _
  · intro r _ s _
    simp only [SpanLe, Redaction.shift, Range.shift]
    omega

theorem scalarEditor_mirrors (of : PartOf d n m part whole) (below : b < m) :
    Mirrors d n b part.raw whole.raw masks (scalarEditor part masks) (scalarEditor whole masks) := by
  intro t i c' j' inside changed bounded
  have steady := scalarEditor_steady _ _ _ changed
  simp only at steady
  subst steady
  unfold scalarEditor at changed ⊢
  rw [Text.range_shift, effectiveSpans_shift of (by omega)] at changed
  simp only [List.isEmpty_map] at changed ⊢
  by_cases empty : (effectiveSpans part i t.range).isEmpty = true
  · rw [if_pos empty] at changed ⊢
    cases changed
    exact ⟨.unchanged, i, rfl, rfl, trivial⟩
  · rw [if_neg empty] at changed ⊢
    obtain ⟨cells', spliced, same⟩ := Option.map_eq_some_iff.mp changed
    cases same
    unfold splice at spliced ⊢
    have known : ((effectiveSpans part i t.range).map (Redaction.shift d)).all (fun r => (masks.bytes r.mask).isSome)
        = (effectiveSpans part i t.range).all fun r => (masks.bytes r.mask).isSome := List.all_map
    rw [known] at spliced
    split at spliced
    · rename_i all
      cases spliced
      rw [if_pos all]
      refine ⟨_, i, rfl, rfl, spliceCells_shift of.stands (fun r member => ?_) inside.bound⟩
      have := effectiveSpans_ranged of.ranged member
      have := (mem_effectiveSpans member).2.2
      have := inside.bound
      omega
    · cases spliced

/-! ### The levels of a request -/

theorem anyValueEditor_mirrors (of : PartOf d n m part whole) (below : b < m) :
    Mirrors d n b part.raw whole.raw masks (anyValueEditor part masks) (anyValueEditor whole masks) :=
  (only_mirrors 1 (scalarEditor_mirrors of below)).message of.stands anyValueLevel_steady.forward

theorem keyValueEditor_mirrors (of : PartOf d n m part whole) (below : b < m) :
    Mirrors d n b part.raw whole.raw masks (keyValueEditor part masks) (keyValueEditor whole masks) :=
  (only_mirrors 2 (anyValueEditor_mirrors of below)).message of.stands keyValueLevel_steady.forward

theorem recordLevel_mirrors (of : PartOf d n m part whole) (below : b < m) :
    (recordLevel part masks).Mirrors d n b part.raw whole.raw masks (recordLevel whole masks) := by
  intro k
  unfold recordLevel
  by_cases body : k = 5
  · rw [if_pos body, if_pos body]
    exact .some (anyValueEditor_mirrors of below)
  rw [if_neg body, if_neg body]
  by_cases attr : k = 6
  · rw [if_pos attr, if_pos attr]
    exact .some (keyValueEditor_mirrors of below)
  · rw [if_neg attr, if_neg attr]
    exact .none

theorem recordEditor_mirrors (of : PartOf d n m part whole) :
    Mirrors d n m part.raw whole.raw masks (recordEditor part masks) (recordEditor whole masks) := by
  intro t i c' j' inside changed bounded
  obtain rfl := recordEditor_index changed
  have below : i < m := by omega
  unfold recordEditor at changed ⊢
  rw [of.verdict i below] at changed
  by_cases drop : part.decisions.samplingVerdict i = .drop
  · rw [if_pos drop] at changed ⊢
    cases changed
    exact ⟨.dropped, i + 1, rfl, by omega, trivial⟩
  · rw [if_neg drop] at changed ⊢
    obtain ⟨⟨c, k⟩, edited, same⟩ := Option.map_eq_some_iff.mp changed
    cases same
    obtain rfl : k = i + n := recordLevel_steady.message edited
    obtain ⟨c, j, mine, -, alike⟩ := (recordLevel_mirrors of below).message of.stands recordLevel_steady.forward
      t i _ _ inside edited (Nat.le_refl _)
    exact ⟨c, i + 1, by rw [mine]; rfl, by omega, alike⟩

theorem scopeLevel_forward (env : Envelope) (masks : MaskTable) : (only 2 (recordEditor env masks)).Moves (· ≤ ·) :=
  only_moves fun _ i c h => by
    rw [recordEditor_index (c := c.1) (j := c.2) h]
    exact Nat.le_succ i

theorem resourceLevel_forward (env : Envelope) (masks : MaskTable) : (only 2 (scopeEditor env masks)).Moves (· ≤ ·) :=
  only_moves fun _ _ _ h => (scopeLevel_forward env masks).message h

theorem requestLevel_forward (env : Envelope) (masks : MaskTable) : (only 1 (resourceEditor env masks)).Moves (· ≤ ·) :=
  only_moves fun _ _ _ h => (resourceLevel_forward env masks).message h

theorem requestLevel_mirrors (of : PartOf d n m part whole) :
    (only 1 (resourceEditor part masks)).Mirrors d n m part.raw whole.raw masks (only 1 (resourceEditor whole masks)) := by
  apply only_mirrors
  rw [resourceEditor_eq, resourceEditor_eq]
  apply (only_mirrors 2 _).message of.stands (resourceLevel_forward whole masks)
  rw [scopeEditor_eq, scopeEditor_eq]
  exact (only_mirrors 2 (recordEditor_mirrors of)).message of.stands (scopeLevel_forward whole masks)

end Parts

/-! ### Nothing to do -/

def Decisions.Idle (d : Decisions) : Prop := d.anyDropped = false ∧ d.redactions = []

theorem idle_iff {d : Decisions} : (!d.anyDropped && d.redactionTotal == 0) = true ↔ d.Idle := nothing_iff

def Editor.Quiet (editor : Editor) : Prop := ∀ t i c, editor t i = some c → c.1 = .unchanged

theorem editFields_quiet {level : Level} (quiet : ∀ n editor, level n = some editor → editor.Quiet)
    {qs : List (Nat × Field)} {i : Nat} {es : List Edit × Nat} (edited : editFields level qs i = some es) :
    es.1.all Edit.isKeep = true := by
  induction qs generalizing i es with
  | nil =>
    cases edited
    rfl
  | cons q qs ih =>
    obtain ⟨⟨e, k⟩, one, rest⟩ := Option.bind_eq_some_iff.mp edited
    obtain ⟨es', more, rfl⟩ := Option.map_eq_some_iff.mp rest
    rw [List.all_cons, @ih k es' more, Bool.and_true]
    rcases editOne_cases one with ⟨rfl, -, -⟩ | ⟨editor, c, -, found, changed, rfl⟩
    · rfl
    · have same : c = .unchanged := quiet _ _ found _ _ _ changed
      rw [same]
      rfl

theorem editMessage_quiet {raw : Bytes} {masks : MaskTable} {level : Level}
    (quiet : ∀ n editor, level n = some editor → editor.Quiet) : (editMessage raw masks level).Quiet := by
  intro t i c changed
  obtain ⟨fs, -, settled⟩ := Option.bind_eq_some_iff.mp changed
  obtain ⟨es, edited, rfl⟩ := Option.map_eq_some_iff.mp settled
  exact if_pos (editFields_quiet quiet edited)

theorem only_quiet {k : Nat} {editor : Editor} (quiet : editor.Quiet) :
    ∀ n found, only k editor n = some found → found.Quiet := by
  intro n found here
  unfold only at here
  split at here
  · cases here
    exact quiet
  · cases here

section Idle
variable {env : Envelope} (idle : env.decisions.Idle) (masks : MaskTable)
include idle

theorem anyValueEditor_quiet : (anyValueEditor env masks).Quiet := by
  refine editMessage_quiet (only_quiet fun t i c changed => ?_)
  unfold scalarEditor at changed
  simp only [effectiveSpans_clean idle.2, List.isEmpty_nil, if_true] at changed
  cases changed
  rfl

theorem recordEditor_quiet : (recordEditor env masks).Quiet := by
  intro t i c changed
  have kept : env.decisions.samplingVerdict i ≠ .drop := by
    intro dropped
    unfold Decisions.samplingVerdict at dropped
    cases said : env.decisions.sampling[i]? with
    | none =>
      rw [said] at dropped
      cases dropped
    | some v =>
      rw [said] at dropped
      cases dropped
      have none : env.decisions.sampling.contains .drop = false := idle.1
      have some := List.contains_iff_mem.mpr (List.mem_of_getElem? said)
      rw [none] at some
      cases some
  unfold recordEditor at changed
  rw [if_neg kept] at changed
  obtain ⟨c', edited, rfl⟩ := Option.map_eq_some_iff.mp changed
  refine editMessage_quiet (fun n editor found => ?_) t i c' edited
  unfold recordLevel at found
  split at found
  · cases found
    exact anyValueEditor_quiet idle masks
  split at found
  · cases found
    exact editMessage_quiet (only_quiet (anyValueEditor_quiet idle masks))
  · cases found

theorem requestEditor_quiet : (requestEditor env masks).Quiet :=
  editMessage_quiet (only_quiet (editMessage_quiet (only_quiet (editMessage_quiet (only_quiet
    (recordEditor_quiet idle masks))))))

end Idle

/-- With nothing to do the second walk would write the request as well. -/
theorem assembleCells_of_edited {env : Envelope} {masks : MaskTable} {c : Change}
    (edited : requestEditor env masks ⟨0, env.raw⟩ 0 = some (c, env.records.length)) :
    assembleCells env masks = some (c.cells ⟨0, env.raw⟩) := by
  unfold assembleCells
  by_cases idle : (!env.decisions.anyDropped && env.decisions.redactionTotal == 0) = true
  · have same : c = .unchanged := requestEditor_quiet (idle_iff.mp idle) masks _ _ _ edited
    rw [if_pos idle, same, Change.cells, Text.range, Nat.zero_add]
  · rw [if_neg idle, edited, Option.bind_some, if_pos rfl]

/-! ### Two requests behind one another -/

theorem editFields_append {level : Level} (qs rs : List (Nat × Field)) (i : Nat) :
    editFields level (qs ++ rs) i = (editFields level qs i).bind fun es =>
      (editFields level rs es.2).map fun fs => (es.1 ++ fs.1, fs.2) := by
  induction qs generalizing i with
  | nil => simp [editFields]
  | cons q qs ih =>
    simp only [List.cons_append, editFields, ih]
    cases editOne level q i with
    | none => rfl
    | some e =>
      simp only [Option.bind_some]
      cases editFields level qs e.2 with
      | none => rfl
      | some es => simp [Option.map_map, Function.comp_def]

theorem part_assembles {d n m : Nat} {part whole : Envelope} {masks : MaskTable} (of : PartOf d n m part whole)
    (counted : part.records.length = m) {fs : List Field} (read : fields part.raw = some fs) {es' : List Edit}
    (edited : editFields (only 1 (resourceEditor whole masks)) (locate d fs) n = some (es', m + n)) :
    ∃ cells, assembleCells part masks = some cells ∧
      render part.raw masks cells = render whole.raw masks (es'.flatMap (Edit.cells whole.raw masks)) := by
  have moved := locate_shift d 0 fs
  rw [Nat.zero_add] at moved
  rw [moved, show n = 0 + n by omega] at edited
  obtain ⟨es, j, mine, same, alike⟩ := editFields_mirrors of.stands (requestLevel_mirrors of)
    (requestLevel_forward whole masks) (locate_stands (t := ⟨0, part.raw⟩) (at_self part.raw) read) edited (by omega)
  obtain rfl : j = m := by omega
  have whole : requestEditor part masks ⟨0, part.raw⟩ 0 = some (settle part.raw masks es, part.records.length) := by
    rw [requestEditor_eq, editMessage, read, Option.bind_some, mine, counted]
    rfl
  refine ⟨_, assembleCells_of_edited whole, ?_⟩
  rw [settle_cells read mine, alike_written alike]

/-- What assembles as one assembles in two parts, to the same bytes. -/
theorem assembleCells_append {whole front back : Envelope} {masks : MaskTable} {rs ss : List Record}
    (raw : whole.raw = front.raw ++ back.raw) (parsedFront : records front.raw = some rs)
    (parsedBack : records back.raw = some ss) (first : PartOf 0 0 rs.length front whole)
    (second : PartOf front.raw.length rs.length ss.length back whole) (counted : whole.records.length = rs.length + ss.length)
    (countedFront : front.records.length = rs.length) (countedBack : back.records.length = ss.length)
    (idle : whole.decisions.Idle → front.decisions.Idle ∧ back.decisions.Idle) {cells : List Cell}
    (written : assembleCells whole masks = some cells) : ∃ cellsFront cellsBack,
      assembleCells front masks = some cellsFront ∧ assembleCells back masks = some cellsBack ∧
      render whole.raw masks cells = render front.raw masks cellsFront ++ render back.raw masks cellsBack := by
  rcases assembleCells_cases written with ⟨nothing, rfl⟩ | ⟨c, edited, rfl⟩
  · obtain ⟨idleFront, idleBack⟩ := idle nothing
    refine ⟨_, _, if_pos (idle_iff.mpr idleFront), if_pos (idle_iff.mpr idleBack), ?_⟩
    simp only [render_rawCells, slice, List.take_length, List.drop_zero]
    exact raw
  · rw [records_eq] at parsedFront parsedBack
    obtain ⟨fs, readFront, folded⟩ := Option.bind_eq_some_iff.mp parsedFront
    obtain ⟨gs, readBack, -⟩ := Option.bind_eq_some_iff.mp parsedBack
    have readWhole : fields whole.raw = some (fs ++ gs) := raw ▸ fields_append readFront readBack
    rw [requestEditor_eq, editMessage, readWhole, Option.bind_some] at edited
    obtain ⟨⟨es, k⟩, each, same⟩ := Option.map_eq_some_iff.mp edited
    cases same
    have long : (fs.flatMap Field.bytes).length = front.raw.length := congrArg List.length (fields_iff.mp readFront).1.symm
    have split := each
    rw [locate_append, editFields_append, long, Nat.zero_add] at split
    obtain ⟨⟨esFront, i⟩, editedFront, rest⟩ := Option.bind_eq_some_iff.mp split
    obtain ⟨⟨esBack, j⟩, editedBack, same⟩ := Option.map_eq_some_iff.mp rest
    cases same
    obtain ⟨new, grown, walked⟩ := resourceEditor_counted.walked editedFront folded
    have reached := walked.counted
    rw [List.nil_append] at grown
    rw [← grown, Nat.zero_add] at reached
    subst reached
    rw [counted, Nat.add_comm] at editedBack
    obtain ⟨cellsFront, assembledFront, sameFront⟩ := part_assembles first countedFront readFront editedFront
    obtain ⟨cellsBack, assembledBack, sameBack⟩ := part_assembles second countedBack readBack editedBack
    refine ⟨cellsFront, cellsBack, assembledFront, assembledBack, ?_⟩
    rw [settle_cells readWhole each, List.flatMap_append, render_append, sameFront, sameBack]

end ArchivAgent
