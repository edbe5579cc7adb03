import ArchivAgent.Export.Rewriting
import ArchivAgent.Ingest.Bounds

/-!
# The assembler stays in its windows

Every range a builder produces lies in the window it walks, the spans of a string are swept from
its start to its end, and what is emitted is sliced from inside the request. The assembly ends
without a panic.
-/

namespace ArchivAgent
open Wire WireCursor

/-! ### The sweep over the spans of a string -/

/-- Each span starts no earlier than the cursor, and the last ends no later than the window. -/
def Swept : Nat → Nat → List Redaction → Prop
  | cursor, stop, [] => cursor ≤ stop
  | cursor, stop, r :: spans =>
    cursor ≤ r.target.start ∧ r.target.start ≤ r.target.stop ∧ Swept r.target.stop stop spans

theorem resolveSpans_swept {cursor stop : Nat} {spans : List Redaction} (here : cursor ≤ stop)
    (ranged : ∀ r ∈ spans, r.target.start ≤ r.target.stop ∧ r.target.stop ≤ stop) :
    Swept cursor stop (resolveSpans cursor spans) := by
  induction spans generalizing cursor with
  | nil => exact here
  | cons r spans ih =>
    simp only [List.mem_cons, forall_eq_or_imp] at ranged
    unfold resolveSpans
    split
    · exact ih here ranged.2
    · rename_i after
      exact ⟨Nat.le_of_not_lt after, ranged.1.1, ih ranged.1.2 ranged.2⟩

/-- What `build_scalar` subtracts is never negative. -/
theorem effectiveSpans_swept {env : Envelope} (ranged : env.decisions.Ranged) (idx : Nat) {w : Range}
    (h : w.start ≤ w.stop) : Swept w.start w.stop (effectiveSpans env idx w) := by
  unfold effectiveSpans
  apply resolveSpans_swept h
  intro r member
  rw [(List.perm_insertionSort _ _).mem_iff, List.mem_filter] at member
  obtain ⟨s, pushed, -, rfl⟩ := mem_redactionsFor.mp member.1
  exact ⟨ranged s pushed, (of_decide_eq_true member.2).2⟩

/-! ### Segments of a window -/

def Part.Within (w : Range) : Part → Prop
  | .raw r => r.Within w
  | .mask _ => True

mutual

def Seg.Within (w : Range) : Seg → Prop
  | .verbatim r => r.Within w
  | .nested _ _ segs => SegsWithin w segs
  | .scalar _ _ parts => ∀ part ∈ parts, part.Within w

def SegsWithin (w : Range) : List Seg → Prop
  | [] => True
  | seg :: segs => seg.Within w ∧ SegsWithin w segs

end

def Child.Within (w : Range) : Child → Prop
  | .rebuilt segs => SegsWithin w segs
  | _ => True

section Segments
variable {w outer : Range}

theorem segsWithin_append {as bs : List Seg} : SegsWithin w (as ++ bs) ↔ SegsWithin w as ∧ SegsWithin w bs := by
  induction as with
  | nil => simp [SegsWithin]
  | cons seg as ih => simp only [List.cons_append, SegsWithin, ih, and_assoc]

theorem segsWithin_singleton {seg : Seg} : SegsWithin w [seg] ↔ seg.Within w := by
  simp [SegsWithin]

mutual

theorem Seg.Within.trans {seg : Seg} (h : seg.Within w) (under : w.Within outer) : seg.Within outer := by
  cases seg with
  | verbatim r => exact Range.Within.trans h under
  | nested field size segs => exact SegsWithin.trans h under
  | scalar field size parts =>
    intro part member
    have here := h part member
    cases part with
    | raw r => exact Range.Within.trans here under
    | mask m => trivial

theorem SegsWithin.trans {segs : List Seg} (h : SegsWithin w segs) (under : w.Within outer) : SegsWithin outer segs := by
  cases segs with
  | nil => trivial
  | cons seg segs => exact ⟨h.1.trans under, SegsWithin.trans h.2 under⟩

end

theorem spliceSpans_ends (masks : MaskTable) {spans : List Redaction} {s : ScalarState} {stop : Nat}
    (swept : Swept s.cursor stop spans) (low : w.start ≤ s.cursor) (high : stop ≤ w.stop)
    (within : ∀ part ∈ s.parts, part.Within w) :
    Ends (fun s' => w.start ≤ s'.cursor ∧ s'.cursor ≤ stop ∧ ∀ part ∈ s'.parts, part.Within w)
      (spliceSpans masks spans s) := by
  have last : ∀ {cursor stop spans}, Swept cursor stop spans → cursor ≤ stop := by
    intro cursor stop spans
    induction spans generalizing cursor with
    | nil => exact id
    | cons r spans ih =>
      rintro ⟨before, ordered, rest⟩
      have := ih rest
      omega
  induction spans generalizing s with
  | nil => exact ⟨low, swept, within⟩
  | cons r spans ih =>
    obtain ⟨before, ordered, rest⟩ := swept
    have further := last rest
    unfold spliceSpans
    -- The bytes up to the span, when there are any.
    generalize upTo : (if s.cursor < r.target.start then
      { s with size := s.size + (r.target.start - s.cursor), parts := s.parts ++ [.raw ⟨s.cursor, r.target.start⟩] }
      else s) = s'
    have within' : ∀ part ∈ s'.parts, part.Within w := by
      subst upTo
      split
      · intro part member
        rcases List.mem_append.mp member with old | new
        · exact within part old
        · obtain rfl := List.mem_singleton.mp new
          refine ⟨low, before, ?_⟩
          simp only
          omega
      · exact within
    simp only
    cases masks.bytes r.mask with
    | none => trivial
    | some m =>
      apply ih rest
      · simp only
        omega
      · intro part member
        rcases List.mem_append.mp member with old | new
        · exact within' part old
        · obtain rfl := List.mem_singleton.mp new
          trivial

theorem buildScalar_ends {env : Envelope} (ranged : env.decisions.Ranged) (masks : MaskTable) (field idx : Nat)
    (h : w.start ≤ w.stop) : Ends (fun o => ∀ seg ∈ o, seg.Within w) (buildScalar field w idx env masks) := by
  unfold buildScalar
  apply Ends.ite
  · intro _
    simp [Ends]
  · intro _
    refine (spliceSpans_ends masks (effectiveSpans_swept ranged idx h) (Nat.le_refl _) (Nat.le_refl _) ?_).bind
      fun s spliced => ?_
    · simp
    · obtain ⟨low, high, within⟩ := spliced
      apply Ends.ite
      · intro more
        simp only [Ends, Option.mem_def, Option.some.injEq, forall_eq', Seg.Within]
        intro part member
        rcases List.mem_append.mp member with old | new
        · exact within part old
        · obtain rfl := List.mem_singleton.mp new
          exact ⟨low, high, Nat.le_refl _⟩
      · intro _
        simp only [Ends, Option.mem_def, Option.some.injEq, forall_eq', Seg.Within]
        exact within

end Segments

/-! ### The builders -/

/-- The open run starts in the window, no later than `p`, and what is built lies in the window. -/
structure Rebuild.Within (w : Range) (p : Nat) (s : Rebuild) : Prop where
  low : w.start ≤ s.run
  run : s.run ≤ p
  segs : SegsWithin w s.segs

namespace Rebuild.Within
variable {w : Range} {p : Nat} {s : Rebuild}

theorem start (w : Range) : Rebuild.Within w w.start { run := w.start } := ⟨Nat.le_refl _, Nat.le_refl _, trivial⟩

theorem forward (h : s.Within w p) {q : Nat} (further : p ≤ q) : s.Within w q :=
  ⟨h.low, Nat.le_trans h.run further, h.segs⟩

theorem flush (h : s.Within w p) (inside : p ≤ w.stop) : SegsWithin w (s.flush p) := by
  unfold Rebuild.flush
  split
  · exact segsWithin_append.mpr ⟨h.segs, segsWithin_singleton.mpr ⟨h.low, h.run, inside⟩⟩
  · exact h.segs

theorem put (h : s.Within w p) {pos : Nat} (further : p ≤ pos) (inside : pos ≤ w.stop) {seg : Seg} (within : seg.Within w) :
    (s.put p seg pos).Within w pos where
  low := Nat.le_trans h.low (Nat.le_trans h.run further)
  run := Nat.le_refl _
  segs := segsWithin_append.mpr ⟨h.flush (Nat.le_trans further inside), segsWithin_singleton.mpr within⟩

theorem cut (h : s.Within w p) {pos : Nat} (further : p ≤ pos) (inside : pos ≤ w.stop) : (s.cut p pos).Within w pos where
  low := Nat.le_trans h.low (Nat.le_trans h.run further)
  run := Nat.le_refl _
  segs := h.flush (Nat.le_trans further inside)

theorem finish (h : s.Within w w.stop) : (s.finish w.stop).Within w := by
  unfold Rebuild.finish
  split
  · trivial
  · exact h.flush (Nat.le_refl _)

end Rebuild.Within

section Builders
variable {buf : Bytes} {w : Range} {env : Envelope} (ranged : env.decisions.Ranged) (masks : MaskTable) (idx : Nat)

theorem skipped_ends {σ : Type} (inside : w.Within ⟨0, buf.length⟩) {c : WireCursor} (reads : c.Reads buf w) (wire : Nat)
    {s : σ} (Inv : Nat → σ → Prop) (kept : ∀ pos, c.pos < pos → Inv pos s) :
    Ends (fun r => r.2.Reads buf w ∧ c.pos ≤ r.2.pos ∧ Inv r.2.pos r.1) (do
      let c ← (c.skip wire).mapErr AssembleError.wire
      .ok (s, c)) := by
  refine ((skip_ends inside.2.2 reads wire).mapErr _).bind fun c' past => ?_
  exact ⟨past.1, Nat.le_of_lt past.2, kept c'.pos past.2⟩

theorem build_ends {body : Nat → Nat → Nat → Rebuild → WireCursor → Run AssembleError (Rebuild × WireCursor)}
    (walks : Walks buf w (fun p s => s.Within w p) body) (inside : w.Within ⟨0, buf.length⟩) :
    Ends (fun child => child.Within w) (do
      let s ← WireCursor.walk .wire body buf w { run := w.start }
      .ok (s.finish w.stop)) :=
  (walk_ends walks inside (Rebuild.Within.start w)).bind fun _ holds => holds.finish

/-- A child that was rebuilt in a window of the window goes back where it stood. -/
theorem Rebuild.Within.nested {s : Rebuild} {p pos : Nat} (h : s.Within w p) (further : p ≤ pos) (inside : pos ≤ w.stop)
    {child : Child} {inner : Range} (under : inner.Within w) (n : Nat) : child.Within inner →
    (match child with
      | .rebuilt segs => s.put p (.nested n (segsEncodedLen segs) segs) pos
      | _ => s).Within w pos := by
  intro built
  cases child with
  | rebuilt segs => exact h.put further inside (SegsWithin.trans built under)
  | unchanged => exact h.forward further
  | dropped => exact h.forward further

include ranged in
theorem buildAnyValueField_walks (inside : w.Within ⟨0, buf.length⟩) :
    Walks buf w (fun p s => s.Within w p) (buildAnyValueField idx env masks) := by
  intro tagStart field wire s c _ past holds
  obtain ⟨reads, after⟩ := past
  unfold buildAnyValueField
  apply Ends.ite
  · intro _
    refine ((lenRange_ends inside.2.2 reads).mapErr _).bind fun r found => ?_
    obtain ⟨r, c'⟩ := r
    obtain ⟨⟨reads', further⟩, within, -⟩ := found
    simp only at reads' further
    have tagged : tagStart ≤ c'.pos := by omega
    refine (buildScalar_ends ranged masks 1 idx within.2.1).bind fun o scalar => ?_
    cases o with
    | none => exact ⟨reads', Nat.le_of_lt further, holds.forward tagged⟩
    | some seg => exact ⟨reads', Nat.le_of_lt further, holds.put tagged reads'.high ((scalar seg rfl).trans within)⟩
  · intro _
    apply skipped_ends inside reads wire fun p (s : Rebuild) => s.Within w p
    intro pos further
    exact holds.forward (by omega)

include ranged in
theorem buildAnyValue_ends (inside : w.Within ⟨0, buf.length⟩) :
    Ends (fun child => child.Within w) (buildAnyValue buf w idx env masks) :=
  build_ends (buildAnyValueField_walks ranged masks idx inside) inside

include ranged in
theorem buildKeyValueField_walks (inside : w.Within ⟨0, buf.length⟩) :
    Walks buf w (fun p s => s.Within w p) (buildKeyValueField buf idx env masks) := by
  intro tagStart field wire s c _ past holds
  obtain ⟨reads, after⟩ := past
  unfold buildKeyValueField
  apply Ends.ite
  · intro _
    refine ((lenRange_ends inside.2.2 reads).mapErr _).bind fun r found => ?_
    obtain ⟨r, c'⟩ := r
    obtain ⟨⟨reads', further⟩, within, -⟩ := found
    simp only at reads' further within
    have tagged : tagStart ≤ c'.pos := by omega
    refine (buildAnyValue_ends ranged masks idx (within.trans inside)).bind fun child built => ?_
    have settled := holds.nested tagged reads'.high within 2 built
    cases child with
    | rebuilt segs => exact ⟨reads', Nat.le_of_lt further, settled⟩
    | unchanged => exact ⟨reads', Nat.le_of_lt further, settled⟩
    | dropped => exact ⟨reads', Nat.le_of_lt further, settled⟩
  · intro _
    apply skipped_ends inside reads wire fun p (s : Rebuild) => s.Within w p
    intro pos further
    exact holds.forward (by omega)

include ranged in
theorem buildKeyValue_ends (inside : w.Within ⟨0, buf.length⟩) :
    Ends (fun child => child.Within w) (buildKeyValue buf w idx env masks) :=
  build_ends (buildKeyValueField_walks ranged masks idx inside) inside

include ranged in
theorem buildRecordField_walks (inside : w.Within ⟨0, buf.length⟩) :
    Walks buf w (fun p s => s.Within w p) (buildRecordField buf idx env masks) := by
  intro tagStart field wire s c _ past holds
  obtain ⟨reads, after⟩ := past
  unfold buildRecordField
  -- The child lies in a window of the record, and the cursor stands behind it.
  have back : ∀ (child : Child) (c' : WireCursor) (inner : Range), Past buf w c.pos c' → child.Within inner →
      inner.Within w → Ends (fun r => r.2.Reads buf w ∧ c.pos ≤ r.2.pos ∧ r.1.Within w r.2.pos) (match child with
        | .rebuilt segs => .ok (s.put tagStart (.nested field (segsEncodedLen segs) segs) c'.pos, c')
        | _ => .ok (s, c') : Run AssembleError (Rebuild × WireCursor)) := by
    intro child c' inner past built under
    obtain ⟨reads', further⟩ := past
    have tagged : tagStart ≤ c'.pos := by omega
    have settled := holds.nested tagged reads'.high under field built
    cases child with
    | rebuilt segs => exact ⟨reads', Nat.le_of_lt further, settled⟩
    | unchanged => exact ⟨reads', Nat.le_of_lt further, settled⟩
    | dropped => exact ⟨reads', Nat.le_of_lt further, settled⟩
  apply Ends.ite
  · intro _
    refine ((lenRange_ends inside.2.2 reads).mapErr _).bind fun r found => ?_
    obtain ⟨past, within, -⟩ := found
    have built : Ends (fun child => child.Within r.1)
        ((if field = 5 then buildAnyValue else buildKeyValue) buf r.1 idx env masks) := by
      split
      · exact buildAnyValue_ends ranged masks idx (within.trans inside)
      · exact buildKeyValue_ends ranged masks idx (within.trans inside)
    exact built.bind fun child built => back child r.2 r.1 past built within
  · intro _
    refine ((skip_ends inside.2.2 reads wire).mapErr _).bind fun c' past => ?_
    exact back .unchanged c' w past trivial ⟨Nat.le_refl _, Nat.le_trans reads.low reads.high, Nat.le_refl _⟩

include ranged in
theorem buildRecord_ends (inside : w.Within ⟨0, buf.length⟩) :
    Ends (fun child => child.Within w) (buildRecord buf w idx env masks) := by
  unfold buildRecord
  apply Ends.ite
  · intro _
    trivial
  · intro _
    exact build_ends (buildRecordField_walks ranged masks idx inside) inside

/-! ### Containers -/

def BuildsWithin (buf : Bytes) (build : ChildBuilder) : Prop :=
  ∀ w idx, w.Within ⟨0, buf.length⟩ → Ends (fun r => r.1.Within w) (build w idx)

theorem buildContainerField_walks {build : ChildBuilder} (builds : BuildsWithin buf build) (childField : Nat)
    (inside : w.Within ⟨0, buf.length⟩) :
    Walks buf w (fun p s => s.1.Within w p) (buildContainerField childField build) := by
  intro tagStart field wire s c _ past holds
  obtain ⟨reads, after⟩ := past
  unfold buildContainerField
  apply Ends.ite
  · intro _
    refine ((lenRange_ends inside.2.2 reads).mapErr _).bind fun r found => ?_
    obtain ⟨r, c'⟩ := r
    obtain ⟨⟨reads', further⟩, within, -⟩ := found
    simp only at reads' further within
    have tagged : tagStart ≤ c'.pos := by omega
    refine (builds r s.2 (within.trans inside)).bind fun b built => ?_
    obtain ⟨child, recIdx⟩ := b
    cases child with
    | unchanged => exact ⟨reads', Nat.le_of_lt further, holds.forward tagged⟩
    | dropped => exact ⟨reads', Nat.le_of_lt further, holds.cut tagged reads'.high⟩
    | rebuilt segs =>
      exact ⟨reads', Nat.le_of_lt further, holds.put tagged reads'.high (SegsWithin.trans built within)⟩
  · intro _
    apply skipped_ends inside reads wire fun p (s : Rebuild × Nat) => s.1.Within w p
    intro pos further
    exact holds.forward (by omega)

theorem buildContainer_within {build : ChildBuilder} (builds : BuildsWithin buf build) (childField : Nat) :
    BuildsWithin buf fun w recIdx => buildContainer buf w childField build recIdx := by
  intro w recIdx inside
  unfold buildContainer
  refine (walk_ends (buildContainerField_walks builds childField inside) inside (Rebuild.Within.start w)).bind fun s holds => ?_
  exact holds.finish

include ranged in
theorem scopeChild_within : BuildsWithin buf (scopeChild buf env masks) := fun _ recIdx inside =>
  (buildRecord_ends ranged masks recIdx inside).bind fun _ built => built

include ranged in
theorem resourceChild_within : BuildsWithin buf (resourceChild buf env masks) :=
  buildContainer_within (scopeChild_within ranged masks) 2

include ranged in
theorem requestChild_within : BuildsWithin buf (requestChild buf env masks) :=
  buildContainer_within (resourceChild_within ranged masks) 2

include ranged in
theorem buildRequest_ends (recIdx : Nat) :
    Ends (fun r => SegsWithin ⟨0, buf.length⟩ r.1) (buildRequest buf env masks recIdx) := by
  have whole : Range.Within ⟨0, buf.length⟩ ⟨0, buf.length⟩ := ⟨Nat.le_refl _, Nat.zero_le _, Nat.le_refl _⟩
  unfold buildRequest
  refine (buildContainer_within (requestChild_within ranged masks) 1 _ recIdx whole).bind fun r built => ?_
  obtain ⟨child, recIdx⟩ := r
  cases child with
  | rebuilt segs => exact built
  | unchanged => exact ⟨whole, trivial⟩
  | dropped => exact ⟨whole, trivial⟩

/-! ### Emission -/

theorem pushRaw_ends {raw : Bytes} {a : Assembler} {r : Range} (same : a.raw = raw) (inside : r.stop ≤ raw.length) :
    Ends (fun a' => a'.raw = raw) (a.pushRaw r) := by
  unfold Assembler.pushRaw
  subst same
  apply Ends.ite
  · intro _
    rfl
  · intro _
    rw [if_neg (Nat.not_lt.mpr inside)]
    exact flushScratch_raw _

theorem emitParts_ends {raw : Bytes} {parts : List Part} {a : Assembler} (same : a.raw = raw)
    (within : ∀ part ∈ parts, part.Within ⟨0, raw.length⟩) : Ends (fun a' => a'.raw = raw) (emitParts masks parts a) := by
  induction parts generalizing a with
  | nil => exact same
  | cons part parts ih =>
    simp only [List.mem_cons, forall_eq_or_imp] at within
    cases part with
    | raw r =>
      unfold emitParts
      exact (pushRaw_ends same within.1.2.2).bind fun _ same => ih same within.2
    | mask m =>
      unfold emitParts
      cases masks.bytes m with
      | none => trivial
      | some mask =>
        apply ih _ within.2
        exact (flushScratch_raw _).trans same

mutual

theorem emitSeg_ends {raw : Bytes} {seg : Seg} {a : Assembler} (same : a.raw = raw) (within : seg.Within ⟨0, raw.length⟩) :
    Ends (fun a' => a'.raw = raw) (emitSeg masks seg a) := by
  cases seg with
  | verbatim r => exact pushRaw_ends same within.2.2
  | nested field size segs => exact emitSegs_ends same within
  | scalar field size parts => exact emitParts_ends masks same within

theorem emitSegs_ends {raw : Bytes} {segs : List Seg} {a : Assembler} (same : a.raw = raw)
    (within : SegsWithin ⟨0, raw.length⟩ segs) : Ends (fun a' => a'.raw = raw) (emitSegs masks segs a) := by
  cases segs with
  | nil => exact same
  | cons seg segs =>
    unfold emitSegs
    exact (emitSeg_ends same within.1).bind fun _ same => emitSegs_ends same within.2

end

include ranged in
theorem assemble_ends : Ends (fun _ => True) (assemble env masks) := by
  unfold assemble
  apply Ends.ite
  · intro _
    trivial
  · intro _
    refine (buildRequest_ends ranged masks 0).bind fun r within => ?_
    apply Ends.ite
    · intro _
      trivial
    · intro _
      exact (emitSegs_ends masks rfl within).bind fun _ _ => trivial

end Builders

end ArchivAgent
