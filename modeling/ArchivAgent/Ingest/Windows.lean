import Mathlib.Data.List.Pairwise
import ArchivAgent.Ingest.Reading

/-!
# Where the strings of a record stand

The values of a record, and the strings of its values, each behind the tag and the length of its
field: no two strings touch, and none starts where its record starts. Every view that is not empty
is one of these strings.
-/

namespace ArchivAgent
open Wire Transition

/-- The messages under one field number, as far as the message can be read. -/
def children (n : Nat) (t : Text) : List Text :=
  ((locate t.pos (scan t.bytes).1).filter (IsField n 2)).map payload

/-- What the fields under a number and a wire type hold, as far as the message can be read. -/
def bodies (n w : Nat) (bs : Bytes) : List Bytes :=
  ((scan bs).1.filter fun f => f.number % 2 ^ 32 = n ∧ f.wire = w).map Field.body

def anyValues (t : Text) : List Text := children 5 t ++ (children 6 t).flatMap (children 2)

def windows (t : Text) : List Text := (anyValues t).flatMap (children 1)

def Record.Complete (r : Record) : Prop := ∀ u ∈ anyValues r.text, (fields u.bytes).isSome

instance (r : Record) : Decidable r.Complete := inferInstanceAs (Decidable (∀ u ∈ _, _))

theorem scan_of_fields {bs : Bytes} {fs : List Field} (read : fields bs = some fs) : scan bs = (fs, true) := by
  unfold fields at read
  split at read
  · rename_i ends
    cases read
    rw [← ends]
  · cases read

theorem anyValueText_fields {t : Text} {fs : List Field} (read : fields t.bytes = some fs) :
    anyValueText t = some (((locate t.pos fs).find? (IsField 1 2)).map payload) := by
  simp only [anyValueText, scan_of_fields read, ↓reduceIte]
  cases (locate t.pos fs).find? (IsField 1 2) <;> rfl

theorem children_bodies (n : Nat) (t : Text) : (children n t).map Text.bytes = bodies n 2 t.bytes := by
  rw [children, bodies, List.map_map]
  have snd := congrArg (fun fs => (fs.filter fun f => decide (f.number % 2 ^ 32 = n ∧ f.wire = 2)).map Field.body)
    (locate_map_snd t.pos (scan t.bytes).1)
  simp only [List.filter_map, List.map_map] at snd
  exact snd

theorem mem_children {n : Nat} {t u : Text} {fs : List Field} (read : fields t.bytes = some fs) :
    u ∈ children n t ↔ ∃ q ∈ locate t.pos fs, IsField n 2 q ∧ payload q = u := by
  simp only [children, scan_of_fields read, List.mem_map, List.mem_filter, decide_eq_true_eq, and_assoc]

/-! ### Texts that do not touch -/

/-- One text ends before the other starts, with something in between. -/
def Separate (a b : Text) : Prop := a.range.stop < b.range.start ∨ b.range.stop < a.range.start

/-- One text stands in another, not at its start. -/
def Under (a b : Text) : Prop := b.range.start < a.range.start ∧ a.range.stop ≤ b.range.stop

theorem Separate.under {a b c d : Text} (h : Separate a b) (hc : Under c a) (hd : Under d b) : Separate c d := by
  unfold Separate Under at *
  omega

theorem Under.trans {a b c : Text} (h : Under a b) (h' : Under b c) : Under a c := by
  unfold Under at *
  omega

/-- A delimited field has at least two bytes before its payload. -/
theorem payload_bounds {q : Nat × Field} (good : q.2.WellFormed) (two : q.2.wire = 2) :
    q.1 + 2 ≤ (payload q).range.start ∧ (payload q).range.stop = q.1 + q.2.size := by
  have tag := good.tag_pos
  have extent := good.2
  rw [two] at extent
  obtain ⟨⟨v, k⟩, read, fits⟩ := Option.bind_eq_some_iff.mp extent
  have long := varint_length read
  split at fits
  · simp only [Option.some.injEq, Prod.mk.injEq] at fits
    simp only [payload, Text.range, bodyPos, Wire.size_eq, Field.head, List.length_append]
    omega
  · cases fits

section Children
variable {n m : Nat} {t : Text}

theorem located_wellFormed {q : Nat × Field} (h : q ∈ locate t.pos (scan t.bytes).1) : q.2.WellFormed := by
  have inScan : q.2 ∈ (locate t.pos (scan t.bytes).1).map (·.2) := List.mem_map_of_mem h
  rw [locate_map_snd] at inScan
  exact scan_wellFormed _ _ inScan

theorem mem_children_iff {u : Text} :
    u ∈ children n t ↔ ∃ q ∈ locate t.pos (scan t.bytes).1, IsField n 2 q ∧ payload q = u := by
  simp only [children, List.mem_map, List.mem_filter, decide_eq_true_eq, and_assoc]

theorem children_under {u : Text} (h : u ∈ children n t) : Under u t := by
  obtain ⟨q, located, is, rfl⟩ := mem_children_iff.mp h
  obtain ⟨low, high⟩ := (locate_pairwise t.pos (scan t.bytes).1).1 q located
  obtain ⟨first, last⟩ := payload_bounds (located_wellFormed located) is.2
  obtain ⟨rest, whole⟩ := scan_prefix t.bytes
  have long := congrArg List.length whole
  rw [List.length_append] at long
  refine ⟨?_, ?_⟩
  · simp only [Text.range] at first ⊢; omega
  · rw [last]; simp only [Text.range]; omega

instance : Std.Symm Separate := ⟨fun _ _ => Or.symm⟩

def Beside (a b : Nat × Field) : Prop := a.2.wire = 2 → b.2.wire = 2 → Separate (payload a) (payload b)

instance : Std.Symm Beside := ⟨fun _ _ h two two' => (h two' two).symm⟩

theorem located_beside (t : Text) : (locate t.pos (scan t.bytes).1).Pairwise Beside := by
  refine (locate_pairwise t.pos (scan t.bytes).1).2.imp_of_mem fun {a b} ha hb ordered twoA twoB => ?_
  obtain ⟨-, last⟩ := payload_bounds (located_wellFormed ha) twoA
  obtain ⟨first, -⟩ := payload_bounds (located_wellFormed hb) twoB
  exact .inl (by omega)

theorem children_separate : (children n t).Pairwise Separate := by
  rw [children, List.pairwise_map]
  refine ((located_beside t).filter _).imp_of_mem fun {a b} ha hb beside => ?_
  exact beside (of_decide_eq_true (List.mem_filter.mp ha).2).2 (of_decide_eq_true (List.mem_filter.mp hb).2).2

theorem children_apart (differ : n ≠ m) {u v : Text} (hu : u ∈ children n t) (hv : v ∈ children m t) :
    Separate u v := by
  obtain ⟨q, located, is, rfl⟩ := mem_children_iff.mp hu
  obtain ⟨q', located', is', rfl⟩ := mem_children_iff.mp hv
  exact (located_beside t).forall located located' (fun same => differ (by rw [← is.1, ← is'.1, same])) is.2 is'.2

theorem flatMap_children_separate {ts : List Text} (apart : ts.Pairwise Separate) :
    (ts.flatMap (children n)).Pairwise Separate := by
  rw [List.pairwise_flatMap]
  refine ⟨fun t _ => children_separate, apart.imp fun {a b} separate u hu v hv => ?_⟩
  exact separate.under (children_under hu) (children_under hv)

theorem flatMap_children_under {ts : List Text} (inside : ∀ u ∈ ts, Under u t) :
    ∀ v ∈ ts.flatMap (children n), Under v t := by
  intro v hv
  obtain ⟨u, hu, hv⟩ := List.mem_flatMap.mp hv
  exact (children_under hv).trans (inside u hu)

theorem anyValues_under : ∀ u ∈ anyValues t, Under u t := by
  intro u hu
  rcases List.mem_append.mp hu with body | value
  · exact children_under body
  · exact flatMap_children_under (fun v hv => children_under hv) u value

theorem windows_under : ∀ u ∈ windows t, Under u t := flatMap_children_under anyValues_under

theorem windows_separate : (windows t).Pairwise Separate := by
  refine flatMap_children_separate (List.pairwise_append.mpr
    ⟨children_separate, flatMap_children_separate children_separate, fun u hu v hv => ?_⟩)
  obtain ⟨kv, hkv, hv⟩ := List.mem_flatMap.mp hv
  have beside := children_apart (by decide) hu hkv
  have inside := children_under hv
  unfold Separate Under at *
  omega

end Children

/-! ### Views are strings -/

theorem anyValueText_window {u v : Text} (read : anyValueText u = some (some v)) : v ∈ children 1 u := by
  unfold anyValueText at read
  split at read
  · rename_i q found
    cases read
    refine mem_children_iff.mpr ⟨q, List.mem_of_find?_eq_some found, ?_, rfl⟩
    have is := List.find?_some found
    exact of_decide_eq_true is
  · split at read <;> cases read

theorem keyValue_window {u : Text} {a : Attr} (read : keyValue u = some (some a)) :
    a.value ∈ (children 2 u).flatMap (children 1) := by
  obtain ⟨s, folded, paired⟩ := Option.map_eq_some_iff.mp read
  have kept : ∀ v ∈ s.2, v ∈ (children 2 u).flatMap (children 1) := by
    refine readFields_invariant (fun s => ∀ v ∈ s.2, v ∈ (children 2 u).flatMap (children 1)) folded ?_ (by simp)
    intro fs whole q member s s' one old
    unfold keyValueStep at one
    by_cases isKey : IsField 1 2 q
    · rw [if_pos isKey] at one
      cases one
      exact old
    rw [if_neg isKey] at one
    by_cases isValue : IsField 2 2 q
    · rw [if_pos isValue] at one
      obtain ⟨o, read, rfl⟩ := Option.map_eq_some_iff.mp one
      intro v hv
      have : o = some v := hv
      subst this
      exact List.mem_flatMap.mpr ⟨payload q, (mem_children whole).mpr ⟨q, member, isValue, rfl⟩,
        anyValueText_window read⟩
    · rw [if_neg isValue] at one
      cases one
      exact old
  obtain ⟨k, v⟩ := s
  cases k <;> cases v <;> cases paired
  exact kept _ rfl

structure Viewed (t : Text) (r : Record) : Prop where
  body : r.body = ⟨t.pos, []⟩ ∨ ∃ u ∈ children 5 t, anyValueText u = some (some r.body)
  attrs : ∀ a ∈ r.attrs, ∃ u ∈ children 6 t, keyValue u = some (some a)

theorem record_viewed {t : Text} {res : Resource} {r : Record} (read : record t res = some r) : Viewed t r := by
  refine readFields_invariant (Viewed t) read ?_ ⟨.inl rfl, by simp⟩
  intro fs whole q member s s' one old
  rcases recordStep_cases one with ⟨-, _, _, -, rfl⟩ | ⟨is, o, read, rfl⟩ | ⟨is, o, read, rfl⟩ | ⟨-, rfl⟩ |
    ⟨-, -, -, -, rfl⟩
  · exact ⟨old.body, old.attrs⟩
  · refine ⟨?_, old.attrs⟩
    cases o with
    | none => exact old.body
    | some text => exact .inr ⟨payload q, (mem_children whole).mpr ⟨q, member, is, rfl⟩, read⟩
  · refine ⟨old.body, fun a ha => ?_⟩
    rcases List.mem_append.mp ha with earlier | this
    · exact old.attrs a earlier
    · obtain rfl : o = some a := by simpa using this
      exact ⟨payload q, (mem_children whole).mpr ⟨q, member, is, rfl⟩, read⟩
  · split <;> exact ⟨old.body, old.attrs⟩
  · exact old

namespace Viewed
variable {t : Text} {r : Record} (h : Viewed t r)
include h

theorem body_window (nonempty : r.body.bytes ≠ []) : r.body ∈ windows t := by
  rcases h.body with none | ⟨u, child, read⟩
  · exact absurd (by rw [none]) nonempty
  · exact List.mem_flatMap.mpr ⟨u, List.mem_append_left _ child, anyValueText_window read⟩

theorem attr_window {a : Attr} (member : a ∈ r.attrs) : a.value ∈ windows t := by
  obtain ⟨u, child, read⟩ := h.attrs a member
  obtain ⟨v, value, string⟩ := List.mem_flatMap.mp (keyValue_window read)
  exact List.mem_flatMap.mpr ⟨v, List.mem_append_right _ (List.mem_flatMap.mpr ⟨u, child, value⟩), string⟩

theorem body_attr {a : Attr} (nonempty : r.body.bytes ≠ []) (member : a ∈ r.attrs) : Separate r.body a.value := by
  rcases h.body with none | ⟨u, child, read⟩
  · exact absurd (by rw [none]) nonempty
  obtain ⟨kv, child', read'⟩ := h.attrs a member
  obtain ⟨v, value, string⟩ := List.mem_flatMap.mp (keyValue_window read')
  exact (children_apart (by decide) child child').under (children_under (anyValueText_window read))
    ((children_under string).trans (children_under value))

/-- Two attributes with values that are not separate are one. -/
theorem attr_attr {a b : Attr} (ha : a ∈ r.attrs) (hb : b ∈ r.attrs) : a = b ∨ Separate a.value b.value := by
  obtain ⟨u, child, read⟩ := h.attrs a ha
  obtain ⟨u', child', read'⟩ := h.attrs b hb
  obtain ⟨v, value, string⟩ := List.mem_flatMap.mp (keyValue_window read)
  obtain ⟨v', value', string'⟩ := List.mem_flatMap.mp (keyValue_window read')
  by_cases same : u = u'
  · subst same
    rw [read] at read'
    cases read'
    exact .inl rfl
  · exact .inr ((children_separate.forall child child' same).under
      ((children_under string).trans (children_under value))
      ((children_under string').trans (children_under value')))

end Viewed

/-! ### Every record was read from its message -/

def Record.Read (r : Record) : Prop := record r.text r.resource = some r

theorem scopeLogs_read {res : Resource} {out out' : List Record} {t : Text} (h : scopeLogs res out t = some out')
    (old : ∀ r ∈ out, r.Read) : ∀ r ∈ out', r.Read := by
  refine readFields_invariant (fun out => ∀ r ∈ out, r.Read) h ?_ old
  intro fs whole q member s s' one kept
  unfold scopeStep at one
  split at one
  · obtain ⟨new, read, rfl⟩ := Option.map_eq_some_iff.mp one
    intro r hr
    rcases List.mem_append.mp hr with earlier | this
    · exact kept r earlier
    · obtain rfl := List.mem_singleton.mp this
      rw [Record.Read, (record_frame read).1, (record_frame read).2]
      exact read
  · cases one
    exact kept

theorem resourceLogs_read {out out' : List Record} {t : Text} (h : resourceLogs out t = some out')
    (old : ∀ r ∈ out, r.Read) : ∀ r ∈ out', r.Read := by
  obtain ⟨s, -, visited⟩ := Option.bind_eq_some_iff.mp h
  exact run_invariant (fun out => ∀ r ∈ out, r.Read) visited
    (fun _ _ _ _ scope kept => scopeLogs_read scope kept) old

theorem records_read {buf : Bytes} {rs : List Record} (found : records buf = some rs) : ∀ r ∈ rs, r.Read := by
  refine readFields_invariant (fun out => ∀ r ∈ out, r.Read) found ?_ (by simp)
  intro fs whole q member s s' one kept
  unfold requestStep at one
  split at one
  · exact resourceLogs_read one kept
  · cases one
    exact kept

theorem records_viewed {buf : Bytes} {rs : List Record} (found : records buf = some rs) {r : Record}
    (member : r ∈ rs) : Viewed r.text r := record_viewed (records_read found r member)

end ArchivAgent
