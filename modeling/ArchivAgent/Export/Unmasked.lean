import ArchivAgent.Export.Building

/-!
# Without a span

An envelope without a span is assembled without a look at the masks.
-/

namespace ArchivAgent
open Wire (Bytes Range)

/-! ### The builders -/

section Builders
variable {env : Envelope} (clean : env.decisions.redactions = []) (masks masks' : MaskTable)
include clean

theorem effectiveSpans_clean (idx : Nat) (window : Range) : effectiveSpans env idx window = [] := by
  rw [effectiveSpans, Decisions.redactionsFor, clean]
  rfl

theorem buildScalar_clean (field : Nat) (window : Range) (idx : Nat) :
    buildScalar field window idx env masks = .ok none := by
  rw [buildScalar, effectiveSpans_clean clean]
  rfl

theorem buildAnyValue_clean (buf : Bytes) (window : Range) (idx : Nat) :
    buildAnyValue buf window idx env masks = buildAnyValue buf window idx env masks' := by
  have same : buildAnyValueField idx env masks = buildAnyValueField idx env masks' := by
    funext tagStart field wire s c
    simp only [buildAnyValueField, buildScalar_clean clean]
  rw [buildAnyValue, buildAnyValue, same]

theorem buildKeyValue_clean (buf : Bytes) (window : Range) (idx : Nat) :
    buildKeyValue buf window idx env masks = buildKeyValue buf window idx env masks' := by
  have same : buildKeyValueField buf idx env masks = buildKeyValueField buf idx env masks' := by
    funext tagStart field wire s c
    simp only [buildKeyValueField, buildAnyValue_clean clean masks masks']
  rw [buildKeyValue, buildKeyValue, same]

theorem buildRecord_clean (buf : Bytes) (window : Range) (idx : Nat) :
    buildRecord buf window idx env masks = buildRecord buf window idx env masks' := by
  have same : buildRecordField buf idx env masks = buildRecordField buf idx env masks' := by
    funext tagStart field wire s c
    have child : ∀ w, (if field = 5 then buildAnyValue else buildKeyValue) buf w idx env masks
        = (if field = 5 then buildAnyValue else buildKeyValue) buf w idx env masks' := by
      intro w
      split
      · exact buildAnyValue_clean clean masks masks' buf w idx
      · exact buildKeyValue_clean clean masks masks' buf w idx
    simp only [buildRecordField, child]
  rw [buildRecord, buildRecord, same]

theorem buildRequest_clean (buf : Bytes) (recIdx : Nat) :
    buildRequest buf env masks recIdx = buildRequest buf env masks' recIdx := by
  have scope : scopeChild buf env masks = scopeChild buf env masks' := by
    funext w recIdx
    rw [scopeChild, scopeChild, buildRecord_clean clean masks masks']
  have resource : resourceChild buf env masks = resourceChild buf env masks' := by
    funext w recIdx
    rw [resourceChild, resourceChild, scope]
  have request : requestChild buf env masks = requestChild buf env masks' := by
    funext w recIdx
    rw [requestChild, requestChild, resource]
  rw [buildRequest, buildRequest, request]

end Builders

/-! ### Trees without a mask -/

mutual

def Seg.Unmasked : Seg → Prop
  | .verbatim _ => True
  | .nested _ _ segs => SegsUnmasked segs
  | .scalar _ _ _ => False

def SegsUnmasked : List Seg → Prop
  | [] => True
  | seg :: segs => seg.Unmasked ∧ SegsUnmasked segs

end

mutual

theorem emitSeg_unmasked {seg : Seg} (unmasked : seg.Unmasked) (masks masks' : MaskTable) (a : Assembler) :
    emitSeg masks seg a = emitSeg masks' seg a := by
  cases seg with
  | verbatim r => rfl
  | nested field size segs => exact emitSegs_unmasked unmasked masks masks' _
  | scalar field size parts => cases unmasked

theorem emitSegs_unmasked {segs : List Seg} (unmasked : SegsUnmasked segs) (masks masks' : MaskTable) (a : Assembler) :
    emitSegs masks segs a = emitSegs masks' segs a := by
  cases segs with
  | nil => rfl
  | cons seg segs =>
    rw [emitSegs, emitSegs, emitSeg_unmasked unmasked.1 masks masks' a]
    exact bind_congr fun a => emitSegs_unmasked unmasked.2 masks masks' a

end

theorem segsUnmasked_iff {segs : List Seg} : SegsUnmasked segs ↔ ∀ seg ∈ segs, seg.Unmasked := by
  induction segs with
  | nil => simp [SegsUnmasked]
  | cons seg segs ih => simp only [SegsUnmasked, ih, List.mem_cons, forall_eq_or_imp]

section Builds
variable {env : Envelope} (clean : env.decisions.redactions = []) {masks : MaskTable} {buf : Bytes}
include clean

theorem built_unmasked : Built env masks Seg.Unmasked where
  verbatim _ := trivial
  nested _ _ bare := segsUnmasked_iff.mpr bare
  scalar field window idx seg string := by
    rw [buildScalar_clean clean] at string
    cases string

theorem buildRequest_unmasked {recIdx : Nat} {r : List Seg × Nat} (built : buildRequest buf env masks recIdx = .ok r) :
    SegsUnmasked r.1 :=
  segsUnmasked_iff.mpr (buildRequest_each (built_unmasked clean) built)

theorem assemble_clean (masks masks' : MaskTable) : assemble env masks = assemble env masks' := by
  rw [assemble, assemble, buildRequest_clean clean masks masks' env.raw 0]
  split
  · rfl
  · cases built : buildRequest env.raw env masks' 0 with
    | error stop => rfl
    | ok r =>
      have bare := buildRequest_unmasked clean built
      simp only [bind, Except.bind, emitSegs_unmasked bare masks masks']

end Builds

end ArchivAgent
