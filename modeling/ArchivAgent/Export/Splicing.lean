import ArchivAgent.Export.Rewriting
import ArchivAgent.Interval.FirstWins

/-!
# Spans in a text

The exporter's choice among the spans of a text is the first-match-wins sweep over the sorted
spans. Every byte of the text is written unless a kept span covers it, and each kept span is
written as one mask.
-/

namespace ArchivAgent
open Wire

abbrev spanStart (r : Redaction) : Nat := r.target.start

abbrev spanStop (r : Redaction) : Nat := r.target.stop

section Spans
variable (env : Envelope) (i : Nat) (w : Range)

def spansWithin : List Redaction :=
  (env.decisions.redactionsFor i).filter fun r => w.start ≤ r.target.start ∧ r.target.stop ≤ w.stop

/-- Sorted by start and end, a span is kept when it does not start before the end of the last kept one. -/
def keptSpans : List Redaction :=
  Interval.firstWins spanStart spanStop w.start ((spansWithin env i w).insertionSort SpanLe)

end Spans

theorem resolveSpans_eq (cursor : Nat) (spans : List Redaction) :
    resolveSpans cursor spans = Interval.firstWins spanStart spanStop cursor spans := by
  induction spans generalizing cursor with
  | nil => rfl
  | cons r spans ih => simp only [resolveSpans, Interval.firstWins, ih]

theorem effectiveSpans_eq (env : Envelope) (i : Nat) (w : Range) : effectiveSpans env i w = keptSpans env i w :=
  resolveSpans_eq _ _

instance : Std.Total SpanLe := ⟨fun a b => by unfold SpanLe; omega⟩

instance : IsTrans Redaction SpanLe := ⟨fun a b c => by unfold SpanLe; omega⟩

theorem sortSpans_sorted (spans : List Redaction) :
    Interval.Sorted spanStart spanStop (spans.insertionSort SpanLe) := List.pairwise_insertionSort SpanLe spans

theorem mem_sortSpans {spans : List Redaction} {r : Redaction} : r ∈ spans.insertionSort SpanLe ↔ r ∈ spans :=
  (List.perm_insertionSort SpanLe spans).mem_iff

section Sorted
variable {env : Envelope} {i : Nat} {w : Range}

theorem mem_spansWithin {r : Redaction} : r ∈ spansWithin env i w ↔
    r ∈ env.decisions.redactionsFor i ∧ w.start ≤ r.target.start ∧ r.target.stop ≤ w.stop := by
  rw [spansWithin, List.mem_filter, decide_eq_true_eq]

theorem spansWithin_ranged (ranged : env.decisions.Ranged) {r : Redaction} (h : r ∈ spansWithin env i w) :
    spanStart r ≤ spanStop r := by
  obtain ⟨s, pushed, -, rfl⟩ := mem_redactionsFor.mp (mem_spansWithin.mp h).1
  exact ranged s pushed

theorem keptSpans_ordered (ranged : env.decisions.Ranged) :
    (keptSpans env i w).Pairwise fun a b => a.target.stop ≤ b.target.start :=
  Interval.firstWins_ordered fun _ h => spansWithin_ranged ranged (mem_sortSpans.mp h)

theorem mem_keptSpans {r : Redaction} (h : r ∈ keptSpans env i w) : r ∈ spansWithin env i w :=
  mem_sortSpans.mp ((Interval.firstWins_sublist _ _).subset h)

/-- What a range's spans cover is covered by the kept ones exactly when it can be tiled. -/
theorem keptSpans_cover_iff (ranged : env.decisions.Ranged) :
    (∀ x, Interval.Covers spanStart spanStop (spansWithin env i w) x →
        Interval.Covers spanStart spanStop (keptSpans env i w) x) ↔
      Interval.Tiled spanStart spanStop (spansWithin env i w) := by
  have whole := Interval.firstWins_covers_iff (c := w.start)
    (fun r h => spansWithin_ranged ranged (mem_sortSpans.mp h)) (sortSpans_sorted (spansWithin env i w))
    (fun r h => (mem_spansWithin.mp (mem_sortSpans.mp h)).2.1)
  rw [(@Interval.tiled_congr _ _ _ _ _ _ (spansWithin env i w)) fun r => mem_sortSpans] at whole
  simp only [Interval.Covers, mem_sortSpans] at whole ⊢
  exact whole

theorem keptSpans_length_eq (ranged : env.decisions.Ranged) :
    (keptSpans env i w).length = (spansWithin env i w).length ↔
      (spansWithin env i w).Pairwise (Interval.Apart spanStart spanStop) := by
  have perm := List.perm_insertionSort SpanLe (spansWithin env i w)
  have whole := Interval.firstWins_eq_self (c := w.start)
    (fun r h => spansWithin_ranged ranged (mem_sortSpans.mp h)) (sortSpans_sorted (spansWithin env i w))
    (fun r h => (mem_spansWithin.mp (mem_sortSpans.mp h)).2.1)
  rw [perm.pairwise_iff (fun h => h.symm)] at whole
  rw [← whole, ← perm.length_eq]
  constructor
  · exact fun same => (Interval.firstWins_sublist _ _).eq_of_length same
  · exact fun same => congrArg List.length same

theorem keptSpans_length_le : (keptSpans env i w).length ≤ (spansWithin env i w).length := by
  rw [← (List.perm_insertionSort SpanLe (spansWithin env i w)).length_eq]
  exact (Interval.firstWins_sublist _ _).length_le

end Sorted

/-! ### What a spliced text reads -/

def spliceBytes (raw : Bytes) (masks : MaskTable) : Nat → Nat → List Redaction → Bytes
  | start, stop, [] => slice raw start stop
  | start, stop, r :: spans =>
    slice raw start r.target.start ++ (masks.bytes r.mask).getD [] ++ spliceBytes raw masks r.target.stop stop spans

theorem render_spliceCells (raw : Bytes) (masks : MaskTable) (start stop : Nat) (spans : List Redaction) :
    render raw masks (spliceCells start stop spans) = spliceBytes raw masks start stop spans := by
  induction spans generalizing start with
  | nil => exact render_rawCells start stop
  | cons r spans ih =>
    rw [spliceCells, List.append_cons, render_append, render_append, render_rawCells, ih, spliceBytes]
    simp [render, Cell.bytes]

def governText (env : Envelope) (masks : MaskTable) (i : Nat) (w : Range) : Bytes :=
  spliceBytes env.raw masks w.start w.stop (keptSpans env i w)

theorem scalarEditor_render {env : Envelope} {masks : MaskTable} {t : Text} {i : Nat} {c : Change × Nat}
    (h : scalarEditor env masks t i = some c) :
    render env.raw masks (c.1.cells t) = governText env masks i t.range ∧ c.1 ≠ .dropped := by
  unfold scalarEditor at h
  simp only [effectiveSpans_eq] at h
  split at h
  · rename_i empty
    cases h
    rw [governText, List.isEmpty_iff.mp empty]
    exact ⟨render_rawCells _ _, by simp⟩
  · obtain ⟨cells, spliced, rfl⟩ := Option.map_eq_some_iff.mp h
    unfold splice at spliced
    split at spliced
    · cases spliced
      exact ⟨render_spliceCells _ _ _ _ _, by simp⟩
    · cases spliced

/-! ### Which bytes of a spliced text are written -/

theorem mem_spliceCells {start stop : Nat} {spans : List Redaction} (x : Nat)
    (ordered : spans.Pairwise fun a b => a.target.stop ≤ b.target.start)
    (ranged : ∀ r ∈ spans, r.target.start ≤ r.target.stop ∧ start ≤ r.target.start ∧ r.target.stop ≤ stop) :
    Cell.raw x ∈ spliceCells start stop spans ↔
      (start ≤ x ∧ x < stop) ∧ ¬ Interval.Covers spanStart spanStop spans x := by
  induction spans generalizing start with
  | nil => simp [spliceCells, mem_rawCells, Interval.Covers]
  | cons r spans ih =>
    obtain ⟨after, ordered⟩ := List.pairwise_cons.mp ordered
    simp only [List.mem_cons, forall_eq_or_imp] at ranged
    have rest := @ih r.target.stop ordered fun s member =>
      ⟨(ranged.2 s member).1, after s member, (ranged.2 s member).2.2⟩
    have later : ∀ s ∈ spans, s.target.start ≤ x → r.target.stop ≤ x := fun s member here =>
      Nat.le_trans (after s member) here
    simp only [spliceCells, List.mem_append, mem_rawCells, List.mem_cons, reduceCtorEq, false_or, rest,
      Interval.Covers, spanStart, spanStop, exists_eq_or_imp, not_or, not_exists, not_and]
    constructor
    · rintro (⟨low, high⟩ | ⟨⟨low, high⟩, free⟩)
      · refine ⟨by omega, by omega, fun s member here => ?_⟩
        have := later s member here
        omega
      · exact ⟨by omega, by omega, free⟩
    · rintro ⟨here, first, free⟩
      by_cases before : x < r.target.start
      · exact .inl (by omega)
      · exact .inr ⟨by have := first (Nat.le_of_not_lt before); omega, free⟩

theorem masks_spliceCells (start stop : Nat) (spans : List Redaction) :
    (spliceCells start stop spans).countP Cell.isMask = spans.length := by
  induction spans generalizing start with
  | nil => exact masks_rawCells start stop
  | cons r spans ih => simp [spliceCells, List.countP_cons, Cell.isMask, ih]

end ArchivAgent
