import ArchivAgent.Export.Assemble

/-!
# What the builders build

Verbatim runs, messages whose size is the length of their segments, and the strings `build_scalar`
makes. What holds of these three holds of every segment of a request.
-/

namespace ArchivAgent
open Wire (Bytes Range)

namespace WireCursor

theorem whileFields_invariant {ε σ : Type} {wrap : ParseError → ε}
    {body : Nat → Nat → Nat → σ → WireCursor → Run ε (σ × WireCursor)} (Inv : σ → Prop)
    (keeps : ∀ tagStart field wire s c r, body tagStart field wire s c = .ok r → Inv s → Inv r.1) {n : Nat} {s s' : σ}
    {c : WireCursor} (h : whileFields wrap body n s c = .ok s') (start : Inv s) : Inv s' := by
  induction n generalizing s c with
  | zero =>
    rw [whileFields] at h
    split at h <;> cases h
    exact start
  | succ n ih =>
    rw [whileFields] at h
    split at h
    · cases h
      exact start
    · cases tagged : c.tag.mapErr wrap with
      | error stop => rw [tagged] at h; cases h
      | ok t =>
        obtain ⟨⟨field, wire⟩, c'⟩ := t
        rw [tagged] at h
        simp only [bind, Except.bind] at h
        cases one : body c.pos field wire s c' with
        | error stop => rw [one] at h; cases h
        | ok r =>
          rw [one] at h
          exact ih h (keeps _ _ _ _ _ r one start)

end WireCursor

/-- A property of segments that the three constructions have. -/
structure Built (env : Envelope) (masks : MaskTable) (P : Seg → Prop) : Prop where
  verbatim : ∀ r, P (.verbatim r)
  nested : ∀ field inner, (∀ seg ∈ inner, P seg) → P (.nested field (segsEncodedLen inner) inner)
  scalar : ∀ field window idx seg, buildScalar field window idx env masks = .ok (some seg) → P seg

def Child.Each (P : Seg → Prop) : Child → Prop
  | .unchanged | .dropped => True
  | .rebuilt segs => ∀ seg ∈ segs, P seg

section Built
variable {env : Envelope} {masks : MaskTable} {P : Seg → Prop} {buf : Bytes} (built : Built env masks P)
include built

theorem Rebuild.flush_each {s : Rebuild} (each : ∀ seg ∈ s.segs, P seg) (stop : Nat) : ∀ seg ∈ s.flush stop, P seg := by
  unfold Rebuild.flush
  split
  · intro seg member
    rcases List.mem_append.mp member with before | last
    · exact each seg before
    · cases List.mem_singleton.mp last
      apply built.verbatim
  · exact each

theorem Rebuild.finish_each {s : Rebuild} (each : ∀ seg ∈ s.segs, P seg) (stop : Nat) : (s.finish stop).Each P := by
  unfold Rebuild.finish
  split
  · trivial
  · exact s.flush_each built each stop

theorem Rebuild.put_each {s : Rebuild} (each : ∀ seg ∈ s.segs, P seg) {added : Seg} (new : P added) (tagStart pos : Nat) :
    ∀ seg ∈ (s.put tagStart added pos).segs, P seg := by
  intro seg member
  rcases List.mem_append.mp member with before | last
  · exact s.flush_each built each tagStart seg before
  · cases List.mem_singleton.mp last
    exact new

theorem buildAnyValue_each {window : Range} {idx : Nat} {child : Child}
    (ran : buildAnyValue buf window idx env masks = .ok child) : child.Each P := by
  obtain ⟨s, walked, same⟩ := Run.bind_ok ran
  cases same
  refine Rebuild.finish_each built
    (WireCursor.whileFields_invariant (fun s : Rebuild => ∀ seg ∈ s.segs, P seg) ?_ walked (by simp)) _
  intro tagStart field wire s c r one each
  unfold buildAnyValueField at one
  split at one
  · obtain ⟨⟨w, c'⟩, -, one⟩ := Run.bind_ok one
    obtain ⟨spliced, string, one⟩ := Run.bind_ok one
    cases spliced with
    | none => cases one; exact each
    | some seg => cases one; exact s.put_each built each (built.scalar _ _ _ _ string) _ _
  · obtain ⟨c', -, one⟩ := Run.bind_ok one
    cases one
    exact each

theorem buildKeyValue_each {window : Range} {idx : Nat} {child : Child}
    (ran : buildKeyValue buf window idx env masks = .ok child) : child.Each P := by
  obtain ⟨s, walked, same⟩ := Run.bind_ok ran
  cases same
  refine Rebuild.finish_each built
    (WireCursor.whileFields_invariant (fun s : Rebuild => ∀ seg ∈ s.segs, P seg) ?_ walked (by simp)) _
  intro tagStart field wire s c r one each
  unfold buildKeyValueField at one
  split at one
  · obtain ⟨⟨w, c'⟩, -, one⟩ := Run.bind_ok one
    obtain ⟨value, inner, one⟩ := Run.bind_ok one
    have below := buildAnyValue_each built inner
    cases value <;> cases one
    · exact each
    · exact each
    · exact s.put_each built each (built.nested _ _ below) _ _
  · obtain ⟨c', -, one⟩ := Run.bind_ok one
    cases one
    exact each

theorem buildRecord_each {window : Range} {idx : Nat} {child : Child}
    (ran : buildRecord buf window idx env masks = .ok child) : child.Each P := by
  unfold buildRecord at ran
  split at ran
  · cases ran
    trivial
  · obtain ⟨s, walked, same⟩ := Run.bind_ok ran
    cases same
    refine Rebuild.finish_each built
      (WireCursor.whileFields_invariant (fun s : Rebuild => ∀ seg ∈ s.segs, P seg) ?_ walked (by simp)) _
    intro tagStart field wire s c r one each
    unfold buildRecordField at one
    split at one
    · obtain ⟨⟨w, c'⟩, -, one⟩ := Run.bind_ok one
      obtain ⟨value, inner, one⟩ := Run.bind_ok one
      have below : value.Each P := by
        split at inner
        · exact buildAnyValue_each built inner
        · exact buildKeyValue_each built inner
      cases value <;> cases one
      · exact each
      · exact each
      · exact s.put_each built each (built.nested _ _ below) _ _
    · obtain ⟨c', -, one⟩ := Run.bind_ok one
      cases one
      exact each

theorem buildContainer_each {build : ChildBuilder} (children : ∀ w i r, build w i = .ok r → r.1.Each P) {window : Range}
    {childField recIdx : Nat} {r : Child × Nat} (ran : buildContainer buf window childField build recIdx = .ok r) :
    r.1.Each P := by
  obtain ⟨⟨s, recIdx'⟩, walked, same⟩ := Run.bind_ok ran
  cases same
  refine Rebuild.finish_each built
    (WireCursor.whileFields_invariant (fun s : Rebuild × Nat => ∀ seg ∈ s.1.segs, P seg) ?_ walked (by simp)) _
  intro tagStart field wire s c r one each
  unfold buildContainerField at one
  split at one
  · obtain ⟨⟨w, c'⟩, -, one⟩ := Run.bind_ok one
    obtain ⟨⟨child, i⟩, inner, one⟩ := Run.bind_ok one
    have below := children _ _ _ inner
    cases child <;> cases one
    · exact each
    · exact s.1.flush_each built each _
    · exact s.1.put_each built each (built.nested _ _ below) _ _
  · obtain ⟨c', -, one⟩ := Run.bind_ok one
    cases one
    exact each

theorem buildRequest_each {recIdx : Nat} {r : List Seg × Nat} (ran : buildRequest buf env masks recIdx = .ok r) :
    ∀ seg ∈ r.1, P seg := by
  have scope : ∀ w i r, scopeChild buf env masks w i = .ok r → r.1.Each P := by
    intro w i r ran
    obtain ⟨child, inner, same⟩ := Run.bind_ok ran
    cases same
    exact buildRecord_each built inner
  have resource : ∀ w i r, resourceChild buf env masks w i = .ok r → r.1.Each P := fun _ _ _ ran =>
    buildContainer_each built scope ran
  have request : ∀ w i r, requestChild buf env masks w i = .ok r → r.1.Each P := fun _ _ _ ran =>
    buildContainer_each built resource ran
  obtain ⟨⟨child, i⟩, inner, same⟩ := Run.bind_ok ran
  have below := buildContainer_each built request inner
  cases child <;> cases same
  · simpa using built.verbatim _
  · simpa using built.verbatim _
  · exact below

end Built

end ArchivAgent
