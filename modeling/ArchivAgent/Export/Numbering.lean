import ArchivAgent.Export.Building
import ArchivAgent.Ingest.Numbers

/-!
# The numbers fields are written again under

A builder writes a changed field again under the number it read. That number was cut to a `u32`, so
a field whose own number is larger comes out as another one.
-/

namespace ArchivAgent
open Wire

def Seg.number : Seg → Option Nat
  | .verbatim _ => none
  | .nested field _ _ => some field
  | .scalar field _ _ => some field

/-- What a pass makes of the state of a builder: nothing, a gap, or a new segment for the field. -/
inductive Pass (tagStart field wire pos : Nat) (s : Rebuild) : Rebuild → Prop
  | keep : Pass tagStart field wire pos s s
  | cut : Pass tagStart field wire pos s (s.cut tagStart pos)
  | put {seg : Seg} (number : seg.number = some field) (two : wire = 2) : Pass tagStart field wire pos s (s.put tagStart seg pos)

def Leaves (wire : Nat) (c c' : WireCursor) : Prop :=
  wire = 2 ∧ (∃ r, c.lenRange = .ok (r, c')) ∨ c.skip wire = .ok c'

section Passes
variable {buf : Bytes} {env : Envelope} {masks : MaskTable} {tagStart field wire idx : Nat} {s s' : Rebuild}
  {c c' : WireCursor}

theorem buildScalar_number {window : Range} {seg : Seg} (built : buildScalar field window idx env masks = .ok (some seg)) :
    seg.number = some field := by
  unfold buildScalar at built
  simp only at built
  split at built
  · cases built
  obtain ⟨spliced, -, built⟩ := Run.bind_ok built
  split at built <;> cases built <;> rfl

theorem buildAnyValueField_pass (passed : buildAnyValueField idx env masks tagStart field wire s c = .ok (s', c')) :
    Pass tagStart field wire c'.pos s s' ∧ Leaves wire c c' := by
  unfold buildAnyValueField at passed
  split at passed
  · rename_i string
    obtain ⟨⟨w, c₁⟩, ranged, passed⟩ := Run.bind_ok passed
    obtain ⟨spliced, built, passed⟩ := Run.bind_ok passed
    have leaves : Leaves wire c c₁ := Or.inl ⟨string.2, w, Run.mapErr_ok ranged⟩
    cases spliced with
    | none => cases passed; exact ⟨.keep, leaves⟩
    | some seg => cases passed; exact ⟨.put (string.1 ▸ buildScalar_number built) string.2, leaves⟩
  · obtain ⟨c₁, skipped, passed⟩ := Run.bind_ok passed
    cases passed
    exact ⟨.keep, Or.inr (Run.mapErr_ok skipped)⟩

theorem buildKeyValueField_pass (passed : buildKeyValueField buf idx env masks tagStart field wire s c = .ok (s', c')) :
    Pass tagStart field wire c'.pos s s' ∧ Leaves wire c c' := by
  unfold buildKeyValueField at passed
  split at passed
  · rename_i value
    obtain ⟨⟨w, c₁⟩, ranged, passed⟩ := Run.bind_ok passed
    obtain ⟨child, built, passed⟩ := Run.bind_ok passed
    have leaves : Leaves wire c c₁ := Or.inl ⟨value.2, w, Run.mapErr_ok ranged⟩
    cases child <;> cases passed
    · exact ⟨.keep, leaves⟩
    · exact ⟨.keep, leaves⟩
    · exact ⟨.put (congrArg some value.1.symm) value.2, leaves⟩
  · obtain ⟨c₁, skipped, passed⟩ := Run.bind_ok passed
    cases passed
    exact ⟨.keep, Or.inr (Run.mapErr_ok skipped)⟩

theorem buildRecordField_pass (passed : buildRecordField buf idx env masks tagStart field wire s c = .ok (s', c')) :
    Pass tagStart field wire c'.pos s s' ∧ Leaves wire c c' := by
  unfold buildRecordField at passed
  split at passed
  · rename_i value
    obtain ⟨⟨w, c₁⟩, ranged, passed⟩ := Run.bind_ok passed
    obtain ⟨child, built, passed⟩ := Run.bind_ok passed
    have leaves : Leaves wire c c₁ := Or.inl ⟨value.2, w, Run.mapErr_ok ranged⟩
    cases child <;> cases passed
    · exact ⟨.keep, leaves⟩
    · exact ⟨.keep, leaves⟩
    · exact ⟨.put rfl value.2, leaves⟩
  · obtain ⟨c₁, skipped, passed⟩ := Run.bind_ok passed
    cases passed
    exact ⟨.keep, Or.inr (Run.mapErr_ok skipped)⟩

theorem buildContainerField_pass {childField i j : Nat} {build : ChildBuilder}
    (passed : buildContainerField childField build tagStart field wire (s, i) c = .ok ((s', j), c')) :
    Pass tagStart field wire c'.pos s s' ∧ Leaves wire c c' := by
  unfold buildContainerField at passed
  split at passed
  · rename_i is
    obtain ⟨⟨w, c₁⟩, ranged, passed⟩ := Run.bind_ok passed
    obtain ⟨⟨child, k⟩, built, passed⟩ := Run.bind_ok passed
    have leaves : Leaves wire c c₁ := Or.inl ⟨is.2, w, Run.mapErr_ok ranged⟩
    cases child <;> cases passed
    · exact ⟨.keep, leaves⟩
    · exact ⟨.cut, leaves⟩
    · exact ⟨.put (congrArg some is.1.symm) is.2, leaves⟩
  · obtain ⟨c₁, skipped, passed⟩ := Run.bind_ok passed
    cases passed
    exact ⟨.keep, Or.inr (Run.mapErr_ok skipped)⟩

/-- A new segment stands last, so a pass that puts one has put the one it was asked for. -/
theorem Pass.of_put {pos pos' : Nat} {seg : Seg} (pass : Pass tagStart field wire pos s (s.put tagStart seg pos')) :
    seg.number = some field ∧ wire = 2 := by
  generalize same : s.put tagStart seg pos' = s' at pass
  have long : (s.put tagStart seg pos').segs.length = (s.flush tagStart).length + 1 := by simp [Rebuild.put]
  have kept : s.segs.length ≤ (s.flush tagStart).length := by
    unfold Rebuild.flush
    split <;> simp
  rw [same] at long
  cases pass with
  | keep => omega
  | cut => simp [Rebuild.cut] at long
  | put number two =>
    have last := congrArg (fun s => s.segs.getLast?) same
    simp only [Rebuild.put, List.getLast?_append, List.getLast?_singleton, Option.some_or, Option.some.injEq] at last
    exact ⟨last ▸ number, two⟩

end Passes

/-- One pass of a builder's loop writes the field whose tag is at the cursor again, as `seg`. -/
inductive Reemits (env : Envelope) (masks : MaskTable) (c : WireCursor) : Seg → Prop
  | anyValue {idx field wire : Nat} {s : Rebuild} {seg : Seg} {c₁ c₂ : WireCursor} (tagged : c.tag = .ok ((field, wire), c₁))
    (passed : buildAnyValueField idx env masks c.pos field wire s c₁ = .ok (s.put c.pos seg c₂.pos, c₂)) :
    Reemits env masks c seg
  | keyValue {idx field wire : Nat} {s : Rebuild} {seg : Seg} {c₁ c₂ : WireCursor} (tagged : c.tag = .ok ((field, wire), c₁))
    (passed : buildKeyValueField c.buf idx env masks c.pos field wire s c₁ = .ok (s.put c.pos seg c₂.pos, c₂)) :
    Reemits env masks c seg
  | record {idx field wire : Nat} {s : Rebuild} {seg : Seg} {c₁ c₂ : WireCursor} (tagged : c.tag = .ok ((field, wire), c₁))
    (passed : buildRecordField c.buf idx env masks c.pos field wire s c₁ = .ok (s.put c.pos seg c₂.pos, c₂)) :
    Reemits env masks c seg
  | container {childField i j field wire : Nat} {build : ChildBuilder} {s : Rebuild} {seg : Seg} {c₁ c₂ : WireCursor}
    (tagged : c.tag = .ok ((field, wire), c₁))
    (passed : buildContainerField childField build c.pos field wire (s, i) c₁ = .ok ((s.put c.pos seg c₂.pos, j), c₂)) :
    Reemits env masks c seg

def NumberKept (bs : Bytes) (seg : Seg) : Prop := ∃ n k, seg.number = some n ∧ numeral bs = some (8 * n + 2, k)

section Numbers
variable {env : Envelope} {masks : MaskTable} {c : WireCursor} {bs : Bytes} {seg : Seg}

theorem Reemits.number (again : Reemits env masks c seg) :
    ∃ field c₁, c.tag = .ok ((field, 2), c₁) ∧ seg.number = some field := by
  cases again with
  | anyValue tagged passed =>
    obtain ⟨number, rfl⟩ := (buildAnyValueField_pass passed).1.of_put
    exact ⟨_, _, tagged, number⟩
  | keyValue tagged passed =>
    obtain ⟨number, rfl⟩ := (buildKeyValueField_pass passed).1.of_put
    exact ⟨_, _, tagged, number⟩
  | record tagged passed =>
    obtain ⟨number, rfl⟩ := (buildRecordField_pass passed).1.of_put
    exact ⟨_, _, tagged, number⟩
  | container tagged passed =>
    obtain ⟨number, rfl⟩ := (buildContainerField_pass passed).1.of_put
    exact ⟨_, _, tagged, number⟩

theorem numberKept_iff (sees : Sees c bs) (again : Reemits env masks c seg) :
    NumberKept bs seg ↔ Below (2 ^ 35) bs := by
  obtain ⟨field, c₁, tagged, number⟩ := again.number
  rw [WireCursor.below_iff]
  obtain ⟨⟨v, k⟩, read, same⟩ := (WireCursor.tag_meets sees).of_ok tagged
  obtain ⟨whole, room⟩ := groups_iff.mp read
  simp only [Prod.mk.injEq] at same
  obtain ⟨⟨rfl, two⟩, -⟩ := same
  simp only [read, Option.mem_def, Option.some.injEq, forall_eq']
  have cut := Nat.mod_lt (v / 8) (show 0 < 2 ^ 32 by decide)
  constructor
  · rintro ⟨n, k', written, same⟩
    cases number.symm.trans written
    have := congrArg Prod.fst (Option.some.inj (whole.symm.trans same))
    simp only at this
    omega
  · intro fits
    refine ⟨_, k, number, ?_⟩
    rw [whole, Nat.mod_eq_of_lt (by omega), two, Nat.div_add_mod]

end Numbers

/-! ### A whole message -/

theorem Rebuild.flush_numbers (s : Rebuild) (stop : Nat) :
    (s.flush stop).filterMap Seg.number = s.segs.filterMap Seg.number := by
  unfold Rebuild.flush
  split
  · simp [Seg.number]
  · rfl

theorem Pass.numbers {tagStart field wire pos : Nat} {s s' : Rebuild} (pass : Pass tagStart field wire pos s s') :
    ∃ again, s'.segs.filterMap Seg.number = s.segs.filterMap Seg.number ++ again ∧ again.Sublist [field] := by
  cases pass with
  | keep => exact ⟨[], by simp, by simp⟩
  | cut => exact ⟨[], by simp [Rebuild.cut, Rebuild.flush_numbers], by simp⟩
  | put number two => exact ⟨[field], by simp [Rebuild.put, Rebuild.flush_numbers, number], List.Sublist.refl _⟩

theorem Leaves.ends {c c' : WireCursor} {p : Nat} {f : Field} {rest : Bytes} (inside : WireCursor.Inside c p f rest)
    (leaves : Leaves f.wire c c') : c' = { c with pos := p + f.size } := by
  obtain ⟨two, r, ranged⟩ | skipped := leaves
  · cases ranged.symm.trans (inside.lenRange two)
    rfl
  · exact Except.ok.inj (skipped.symm.trans inside.skip)

theorem Leaves.extent {c c' : WireCursor} {wire : Nat} {bs : Bytes} (sees : Sees c bs) (leaves : Leaves wire c c') :
    Wire.extent wire bs ≠ none := by
  intro stuck
  obtain ⟨two, r, ranged⟩ | skipped := leaves
  · obtain ⟨e, failed⟩ := WireCursor.lenRange_fails sees stuck two
    cases failed.symm.trans ranged
  · obtain ⟨e, failed⟩ := WireCursor.skip_fails sees stuck
    cases failed.symm.trans skipped

section Walks
variable {ε σ : Type} {wrap : ParseError → ε} {body : Nat → Nat → Nat → σ → WireCursor → Run ε (σ × WireCursor)}
  (proj : σ → Rebuild)
  (passes : ∀ p f w s c s' c', body p f w s c = .ok (s', c') → Pass p f w c'.pos (proj s) (proj s') ∧ Leaves w c c')
include passes

/-- The numbers of the new segments are numbers of the fields, as the cursor reads them, in their order. -/
theorem whileFields_numbers (n : Nat) {s s' : σ} {c : WireCursor} {bs : Bytes} (sees : Sees c bs)
    (ran : WireCursor.whileFields wrap body n s c = .ok s') :
    ∃ fs again, fields bs = some fs ∧
      (proj s').segs.filterMap Seg.number = (proj s).segs.filterMap Seg.number ++ again ∧
      again.Sublist (fs.map fun f => f.number % 2 ^ 32) := by
  induction bs using scan_induction generalizing n s c with
  | nil =>
    have ends : WireCursor.whileFields wrap body n s c = .ok s := by
      cases n <;> simp only [WireCursor.whileFields, WireCursor.done_eq sees, List.isEmpty_nil, ↓reduceIte]
    cases ends.symm.trans ran
    exact ⟨[], [], rfl, by simp, by simp⟩
  | stop bs nonempty stuck =>
    exfalso
    cases n with
    | zero => simp [WireCursor.whileFields, WireCursor.done_eq sees, nonempty] at ran
    | succ n =>
      simp only [WireCursor.whileFields, WireCursor.done_eq sees, List.isEmpty_iff, nonempty, ↓reduceIte] at ran
      obtain ⟨⟨⟨field, wire⟩, c₁⟩, tagged, ran⟩ := Run.bind_ok ran
      obtain ⟨⟨s₁, c₂⟩, passed, ran⟩ := Run.bind_ok ran
      rcases WireCursor.tag_stuck sees stuck with ⟨e, failed⟩ | ⟨_, _, _, _, read, after, missing⟩
      · cases failed.symm.trans (Run.mapErr_ok tagged)
      · cases read.symm.trans (Run.mapErr_ok tagged)
        exact (passes _ _ _ _ _ _ _ passed).2.extent after missing
  | step bs f rest found ih =>
    obtain ⟨read, inside, after⟩ := WireCursor.tag_field sees found
    have nonempty : bs ≠ [] := List.length_pos_iff.mp (by have := next_shorter found; omega)
    cases n with
    | zero => simp [WireCursor.whileFields, WireCursor.done_eq sees, nonempty] at ran
    | succ n =>
      simp only [WireCursor.whileFields, WireCursor.done_eq sees, List.isEmpty_iff, nonempty, ↓reduceIte] at ran
      obtain ⟨⟨⟨field, wire⟩, c₁⟩, tagged, ran⟩ := Run.bind_ok ran
      cases read.symm.trans (Run.mapErr_ok tagged)
      obtain ⟨⟨s₁, c₂⟩, passed, ran⟩ := Run.bind_ok ran
      obtain ⟨pass, leaves⟩ := passes _ _ _ _ _ _ _ passed
      obtain ⟨one, grown, here⟩ := pass.numbers
      rw [leaves.ends inside] at ran
      obtain ⟨fs, again, whole, more, below⟩ := ih n after ran
      refine ⟨f :: fs, one ++ again, ?_, ?_, ?_⟩
      · rw [fields_some found, whole]
        rfl
      · rw [more, grown, List.append_assoc]
      · exact here.append below

theorem walk_numbers {t : Text} {buf : Bytes} (stands : t.In buf) {s s' : σ}
    (ran : WireCursor.walk wrap body buf t.range s = .ok s') (bare : (proj s).segs = []) :
    ∃ fs, fields t.bytes = some fs ∧
      ((proj s').segs.filterMap Seg.number).Sublist (fs.map fun f => f.number % 2 ^ 32) := by
  have sees : Sees (WireCursor.new buf t.range) t.bytes := ⟨stands, rfl⟩
  obtain ⟨fs, again, whole, grown, below⟩ := whileFields_numbers proj passes _ sees ran
  refine ⟨fs, whole, ?_⟩
  rw [grown, bare, List.filterMap_nil, List.nil_append]
  exact below

end Walks

inductive Rebuilds (env : Envelope) (masks : MaskTable) (t : Text) : List Seg → Prop
  | anyValue {idx : Nat} {segs : List Seg} (built : buildAnyValue env.raw t.range idx env masks = .ok (.rebuilt segs)) :
    Rebuilds env masks t segs
  | keyValue {idx : Nat} {segs : List Seg} (built : buildKeyValue env.raw t.range idx env masks = .ok (.rebuilt segs)) :
    Rebuilds env masks t segs
  | record {idx : Nat} {segs : List Seg} (built : buildRecord env.raw t.range idx env masks = .ok (.rebuilt segs)) :
    Rebuilds env masks t segs
  | container {childField i j : Nat} {build : ChildBuilder} {segs : List Seg}
    (built : buildContainer env.raw t.range childField build i = .ok (.rebuilt segs, j)) : Rebuilds env masks t segs

section Messages
variable {env : Envelope} {masks : MaskTable} {t : Text} {segs : List Seg}

theorem Rebuild.finish_numbers {s : Rebuild} {stop : Nat} (built : s.finish stop = .rebuilt segs) :
    segs.filterMap Seg.number = s.segs.filterMap Seg.number := by
  unfold Rebuild.finish at built
  split at built <;> cases built
  exact s.flush_numbers stop

theorem Rebuilds.numbers (stands : t.In env.raw) (built : Rebuilds env masks t segs) :
    ∃ fs, fields t.bytes = some fs ∧ (segs.filterMap Seg.number).Sublist (fs.map fun f => f.number % 2 ^ 32) := by
  cases built with
  | anyValue built =>
    obtain ⟨s, walked, same⟩ := Run.bind_ok built
    rw [Rebuild.finish_numbers (Except.ok.inj same)]
    exact walk_numbers id (fun _ _ _ _ _ _ _ => buildAnyValueField_pass) stands walked rfl
  | keyValue built =>
    obtain ⟨s, walked, same⟩ := Run.bind_ok built
    rw [Rebuild.finish_numbers (Except.ok.inj same)]
    exact walk_numbers id (fun _ _ _ _ _ _ _ => buildKeyValueField_pass) stands walked rfl
  | record built =>
    unfold buildRecord at built
    split at built
    · cases built
    obtain ⟨s, walked, same⟩ := Run.bind_ok built
    rw [Rebuild.finish_numbers (Except.ok.inj same)]
    exact walk_numbers id (fun _ _ _ _ _ _ _ => buildRecordField_pass) stands walked rfl
  | container built =>
    obtain ⟨⟨s, j⟩, walked, same⟩ := Run.bind_ok built
    rw [Rebuild.finish_numbers (congrArg Prod.fst (Except.ok.inj same))]
    exact walk_numbers Prod.fst (fun _ _ _ _ _ _ _ => buildContainerField_pass) stands walked rfl

theorem Rebuilds.numbers_kept (stands : t.In env.raw) (built : Rebuilds env masks t segs) :
    ∃ fs, fields t.bytes = some fs ∧
      ((∀ f ∈ fs, f.tag < 2 ^ 35) → (segs.filterMap Seg.number).Sublist (fs.map Field.number)) := by
  obtain ⟨fs, whole, below⟩ := built.numbers stands
  refine ⟨fs, whole, fun small => ?_⟩
  have same : (fs.map fun f => f.number % 2 ^ 32) = fs.map Field.number := by
    refine List.map_congr_left fun f member => Nat.mod_eq_of_lt ?_
    have := small f member
    simp only [Field.number]
    omega
  rwa [same] at below

end Messages

/-! ### The code against the encoding -/

/-- A cursor at `bs`, in a buffer that goes on. -/
def WireCursor.amid (before bs after : Bytes) : WireCursor :=
  ⟨before ++ bs ++ after, before.length, before.length + bs.length⟩

theorem amid_sees (before bs after : Bytes) : Sees (.amid before bs after) bs := ⟨⟨before, after, rfl, rfl⟩, rfl⟩

/-- When the cursor's numbers are the encoded ones, and when a field keeps its number. -/
theorem wire_numbers_exact_iff (before bs after : Bytes) (env : Envelope) (masks : MaskTable) :
    (WireCursor.VarintExact (.amid before bs after) bs ↔ Below (2 ^ 64) bs) ∧
    (WireCursor.TagExact (.amid before bs after) bs ↔ Below (2 ^ 35) bs) ∧
    (WireCursor.LengthExact (.amid before bs after) bs ↔
      ∀ r ∈ numeral bs, r.2 ≤ 10 → r.2 + r.1 % 2 ^ 64 ≤ bs.length → r.1 < 2 ^ 64) ∧
    (∀ seg, Reemits env masks (.amid before bs after) seg → (NumberKept bs seg ↔ Below (2 ^ 35) bs)) ∧
    ∀ (t : Text) (segs : List Seg), t.In env.raw → Rebuilds env masks t segs → ∃ fs, fields t.bytes = some fs ∧
      ((∀ f ∈ fs, f.tag < 2 ^ 35) → (segs.filterMap Seg.number).Sublist (fs.map Field.number)) := by
  have sees := amid_sees before bs after
  refine ⟨WireCursor.varintExact_iff sees, WireCursor.tagExact_iff sees, WireCursor.lengthExact_iff sees, ?_, ?_⟩
  · intro seg again
    exact numberKept_iff sees again
  · intro t segs stands built
    exact built.numbers_kept stands

/-- Nine empty groups and a tenth with the bit 2^64. -/
def overlong : Bytes := [128, 128, 128, 128, 128, 128, 128, 128, 128, 2]

/-- The tag of a delimited field with the number 5 + 2^32, its length and a body of `a`. -/
def farBody : Bytes := [0xAA, 128, 128, 128, 128, 1, 3, 0x0A, 1, 97]

def farRequest (body : Bytes) : Bytes :=
  let message (number : Nat) (content : Bytes) : Bytes := (Field.delimited number content).bytes
  message 1 (message 2 (message 2 body))

/-- Two numbers are read as smaller ones, and masking the body of a record moves it to field 5. -/
theorem wire_numbers_exact_not :
    ¬ WireCursor.VarintExact (.amid [] overlong []) overlong ∧
    ¬ WireCursor.TagExact (.amid [] farBody []) farBody ∧
    (assemble ⟨farRequest farBody, [⟨⟨6, 16⟩, none, [], none, none, none⟩], { redactions := [⟨stageSample, 0, ⟨⟨15, 16⟩, 0⟩⟩] }⟩
        [[42, 42]]).map AssembledPayload.contiguous
      = .ok (farRequest (Field.delimited 5 [0x0A, 2, 42, 42]).bytes) := by
  refine ⟨?_, ?_, by decide +kernel⟩
  · rw [WireCursor.varintExact_iff (amid_sees [] overlong [])]
    decide
  · rw [WireCursor.tagExact_iff (amid_sees [] farBody [])]
    decide

end ArchivAgent
