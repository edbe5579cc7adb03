import ArchivAgent.Transition.Run
import ArchivAgent.Wire.Window

/-!
# Messages as field lists

A message is a run of fields: a tag, for delimited fields a length, and a body. `scan` reads
the fields at the front of the bytes and says whether it reached the end. `fields_iff` says that
a message has one decomposition, so two field lists with the same bytes are the same list.
-/

namespace Wire
open Transition

structure Field where
  tag : Nat
  tagBytes : Bytes
  lenBytes : Bytes
  body : Bytes
  deriving DecidableEq, Repr

namespace Field

def head (f : Field) : Bytes := f.tagBytes ++ f.lenBytes

def bytes (f : Field) : Bytes := f.head ++ f.body

def size (f : Field) : Nat := f.bytes.length

def number (f : Field) : Nat := f.tag / 8

def wire (f : Field) : Nat := f.tag % 8

def kind (f : Field) : Nat × Nat := (f.number, f.wire)

/-- A delimited field in its shortest form. -/
def delimited (number : Nat) (body : Bytes) : Field :=
  ⟨8 * number + 2, put (8 * number + 2), put body.length, body⟩

end Field

/-- How long the length prefix and the body of a field are. Lengths are 64-bit. -/
def extent (wire : Nat) (bs : Bytes) : Option (Nat × Nat) :=
  match wire with
  | 0 => (varint bs).map fun r => (0, r.2)
  | 1 => if 8 ≤ bs.length then some (0, 8) else none
  | 2 => (varint bs).bind fun r =>
      if r.2 + r.1 % 2 ^ 64 ≤ bs.length then some (r.2, r.1 % 2 ^ 64) else none
  | 5 => if 4 ≤ bs.length then some (0, 4) else none
  | _ => none

/-- The field at the front of the bytes and what follows it. -/
def next (bs : Bytes) : Option (Field × Bytes) :=
  (varint bs).bind fun t =>
    (extent (t.1 % 8) (bs.drop t.2)).map fun e =>
      (⟨t.1, bs.take t.2, (bs.drop t.2).take e.1, ((bs.drop t.2).drop e.1).take e.2⟩,
        ((bs.drop t.2).drop e.1).drop e.2)

def scanWithin : Nat → Bytes → List Field × Bool
  | 0, bs => ([], bs.isEmpty)
  | n + 1, bs =>
    if bs.isEmpty then ([], true)
    else match next bs with
      | none => ([], false)
      | some (f, rest) => (f :: (scanWithin n rest).1, (scanWithin n rest).2)

/-- The fields read before the bytes end or stop making sense, and which of the two it was. -/
def scan (bs : Bytes) : List Field × Bool := scanWithin bs.length bs

def fields (bs : Bytes) : Option (List Field) :=
  if (scan bs).2 then some (scan bs).1 else none

/-- The tag bytes are one number, and the rest is what the wire type asks for. -/
def Field.WellFormed (f : Field) : Prop :=
  varint f.tagBytes = some (f.tag, f.tagBytes.length) ∧
    extent f.wire (f.lenBytes ++ f.body) = some (f.lenBytes.length, f.body.length)

instance (f : Field) : Decidable f.WellFormed := inferInstanceAs (Decidable (_ ∧ _))

theorem extent_length {w k n : Nat} {bs : Bytes} (h : extent w bs = some (k, n)) : k + n ≤ bs.length := by
  unfold extent at h
  split at h
  · obtain ⟨r, hr, he⟩ := Option.map_eq_some_iff.mp h
    cases he
    have := (varint_length hr).2
    omega
  · split at h <;> cases h; omega
  · obtain ⟨r, hr, he⟩ := Option.bind_eq_some_iff.mp h
    split at he <;> cases he
    assumption
  · split at h <;> cases h; omega
  · cases h

theorem extent_append {w k n : Nat} {bs : Bytes} (h : extent w bs = some (k, n)) (rest : Bytes) :
    extent w (bs.take (k + n) ++ rest) = some (k, n) := by
  have short := extent_length h
  unfold extent at h ⊢
  split at h
  · obtain ⟨⟨v, j⟩, hr, he⟩ := Option.map_eq_some_iff.mp h
    cases he
    simp only [Nat.zero_add, varint_append hr, Option.map_some]
  · split at h <;> cases h
    simp; omega
  · obtain ⟨⟨v, j⟩, hr, he⟩ := Option.bind_eq_some_iff.mp h
    split at he <;> cases he
    have split : bs.take (j + v % 2 ^ 64) = bs.take j ++ (bs.drop j).take (v % 2 ^ 64) := List.take_add
    simp only [split, List.append_assoc, varint_append hr, Option.bind_some]
    rw [if_pos]
    simp only [List.length_append, List.length_take, List.length_drop]
    omega
  · split at h <;> cases h
    simp; omega
  · cases h

theorem next_bytes {bs rest : Bytes} {f : Field} (h : next bs = some (f, rest)) :
    bs = f.bytes ++ rest := by
  obtain ⟨t, ht, he⟩ := Option.bind_eq_some_iff.mp h
  obtain ⟨e, he, hf⟩ := Option.map_eq_some_iff.mp he
  cases hf
  simp only [Field.bytes, Field.head, List.append_assoc, List.take_append_drop]

theorem next_wellFormed {bs rest : Bytes} {f : Field} (h : next bs = some (f, rest)) : f.WellFormed := by
  obtain ⟨⟨v, j⟩, ht, hr⟩ := Option.bind_eq_some_iff.mp h
  obtain ⟨⟨k, n⟩, he, hf⟩ := Option.map_eq_some_iff.mp hr
  cases hf
  simp only at ht he ⊢
  have tagLength := varint_length ht
  have bodyLength := extent_length he
  generalize hd : bs.drop j = ds at *
  have tag : (bs.take j).length = j := by rw [List.length_take]; omega
  have len : (ds.take k).length = k := by rw [List.length_take]; omega
  have body : ((ds.drop k).take n).length = n := by rw [List.length_take, List.length_drop]; omega
  constructor
  · have := varint_append ht []
    simpa only [List.append_nil, tag] using this
  · have := extent_append he []
    simp only [len, body, Field.wire]
    simpa only [List.append_nil, List.take_add] using this

namespace Field.WellFormed
variable {f : Field}

theorem varint (h : f.WellFormed) (rest : Bytes) :
    Wire.varint (f.tagBytes ++ rest) = some (f.tag, f.tagBytes.length) := by
  have := varint_append h.1 rest
  rwa [List.take_length] at this

theorem extent (h : f.WellFormed) (rest : Bytes) :
    Wire.extent f.wire (f.lenBytes ++ f.body ++ rest) = some (f.lenBytes.length, f.body.length) := by
  have := extent_append h.2 rest
  rwa [← List.length_append, List.take_length] at this

/-- A number field has no length, and its body is the number. -/
theorem number (h : f.WellFormed) (zero : f.wire = 0) :
    f.lenBytes = [] ∧ ∃ v, Wire.varint f.body = some (v, f.body.length) := by
  have extent := h.2
  rw [zero] at extent
  obtain ⟨⟨v, n⟩, read, same⟩ := Option.map_eq_some_iff.mp extent
  simp only [Prod.mk.injEq] at same
  obtain ⟨none, rfl⟩ := same
  have bare : f.lenBytes = [] := List.length_eq_zero_iff.mp none.symm
  rw [bare, List.nil_append] at read
  exact ⟨bare, v, read⟩

theorem next (h : f.WellFormed) (rest : Bytes) : Wire.next (f.bytes ++ rest) = some (f, rest) := by
  have shape : f.bytes ++ rest = f.tagBytes ++ (f.lenBytes ++ f.body ++ rest) := by
    simp only [Field.bytes, Field.head, List.append_assoc]
  have payload := h.extent rest
  rw [List.append_assoc] at payload
  rw [shape, Wire.next, h.varint]
  simp only [Option.bind_some, List.drop_left, List.take_left, List.append_assoc]
  rw [show f.tag % 8 = f.wire from rfl, payload]
  simp only [Option.map_some, List.drop_left, List.take_left]

theorem tag_pos (h : f.WellFormed) : 0 < f.tagBytes.length := (varint_length h.1).1

theorem size_pos (h : f.WellFormed) : 0 < f.size := by
  have := h.tag_pos
  simp only [Field.size, Field.bytes, Field.head, List.length_append]
  omega

end Field.WellFormed

theorem next_shorter {bs rest : Bytes} {f : Field} (h : next bs = some (f, rest)) :
    rest.length < bs.length := by
  have positive := (next_wellFormed h).size_pos
  have same := congrArg List.length (next_bytes h)
  simp only [List.length_append] at same
  simp only [Field.size] at positive
  omega

theorem scanWithin_enough {n m : Nat} {bs : Bytes} (hn : bs.length ≤ n) (hm : bs.length ≤ m) :
    scanWithin n bs = scanWithin m bs := by
  induction n generalizing m bs with
  | zero =>
    have : bs = [] := List.length_eq_zero_iff.mp (by omega)
    subst this
    cases m <;> simp [scanWithin]
  | succ n ih =>
    cases bs with
    | nil => cases m <;> simp [scanWithin]
    | cons b bs =>
      obtain ⟨m, rfl⟩ : ∃ k, m = k + 1 := ⟨m - 1, by simp only [List.length_cons] at hm; omega⟩
      simp only [scanWithin]
      split
      · rfl
      · cases hx : Wire.next (b :: bs) with
        | none => rfl
        | some r =>
          obtain ⟨f, rest⟩ := r
          have := next_shorter hx
          simp only [List.length_cons] at hn hm this
          simp only
          rw [ih (m := m) (by omega) (by omega)]

theorem scan_nil : scan [] = ([], true) := rfl

theorem scan_none {bs : Bytes} (h : bs ≠ []) (hx : next bs = none) : scan bs = ([], false) := by
  cases bs with
  | nil => exact absurd rfl h
  | cons b bs => simp [scan, scanWithin, hx]

theorem scan_some {bs rest : Bytes} {f : Field} (hx : next bs = some (f, rest)) :
    scan bs = (f :: (scan rest).1, (scan rest).2) := by
  have shorter := next_shorter hx
  cases bs with
  | nil => simp at shorter
  | cons b bs =>
    simp only [List.length_cons] at shorter
    simp only [scan, List.length_cons, scanWithin, List.isEmpty_cons, Bool.false_eq_true, ↓reduceIte, hx]
    rw [scanWithin_enough (m := rest.length) (by omega) (Nat.le_refl _)]

/-- Reading follows the shape of the bytes: nothing left, no field, or a field and the rest. -/
theorem scan_induction {P : Bytes → Prop} (nil : P [])
    (stop : ∀ bs, bs ≠ [] → next bs = none → P bs)
    (step : ∀ bs f rest, next bs = some (f, rest) → P rest → P bs) (bs : Bytes) : P bs := by
  induction hn : bs.length using Nat.strongRecOn generalizing bs with
  | ind n ih =>
    by_cases h0 : bs = []
    · exact h0 ▸ nil
    · cases hx : next bs with
      | none => exact stop bs h0 hx
      | some r =>
        obtain ⟨f, rest⟩ := r
        exact step bs f rest hx (ih rest.length (hn ▸ next_shorter hx) rest rfl)

theorem fields_nil : fields [] = some [] := rfl

theorem fields_some {bs rest : Bytes} {f : Field} (hx : next bs = some (f, rest)) :
    fields bs = (fields rest).map (f :: ·) := by
  simp only [fields, scan_some hx]
  split <;> rfl

theorem fields_none {bs : Bytes} (h : bs ≠ []) (hx : next bs = none) : fields bs = none := by
  simp [fields, scan_none h hx]

theorem scan_wellFormed (bs : Bytes) : ∀ f ∈ (scan bs).1, f.WellFormed := by
  induction bs using scan_induction with
  | nil => simp [scan_nil]
  | stop bs h hx => simp [scan_none h hx]
  | step bs f rest hx ih =>
    simp only [scan_some hx, List.mem_cons, forall_eq_or_imp]
    exact ⟨next_wellFormed hx, ih⟩

theorem scan_prefix (bs : Bytes) : ∃ rest, bs = (scan bs).1.flatMap Field.bytes ++ rest := by
  induction bs using scan_induction with
  | nil => exact ⟨[], rfl⟩
  | stop bs h hx => exact ⟨bs, by simp [scan_none h hx]⟩
  | step bs f rest hx ih =>
    obtain ⟨tail, ht⟩ := ih
    refine ⟨tail, ?_⟩
    rw [scan_some hx, List.flatMap_cons, List.append_assoc, ← ht]
    exact next_bytes hx

/-- A message reads to its end exactly when it is a run of well-formed fields, and those are its fields. -/
theorem fields_iff {bs : Bytes} {fs : List Field} :
    fields bs = some fs ↔ bs = fs.flatMap Field.bytes ∧ ∀ f ∈ fs, f.WellFormed := by
  constructor
  · induction bs using scan_induction generalizing fs with
    | nil =>
      intro h
      rw [fields_nil] at h
      cases h
      simp
    | stop bs h0 hx => intro h; rw [fields_none h0 hx] at h; cases h
    | step bs f rest hx ih =>
      intro h
      rw [fields_some hx] at h
      obtain ⟨tail, ht, rfl⟩ := Option.map_eq_some_iff.mp h
      obtain ⟨same, good⟩ := ih ht
      refine ⟨by rw [List.flatMap_cons, ← same]; exact next_bytes hx, ?_⟩
      simp only [List.mem_cons, forall_eq_or_imp]
      exact ⟨next_wellFormed hx, good⟩
  · rintro ⟨rfl, good⟩
    induction fs with
    | nil => rfl
    | cons f fs ih =>
      simp only [List.mem_cons, forall_eq_or_imp] at good
      rw [List.flatMap_cons, fields_some (good.1.next _), ih good.2]
      rfl

theorem fields_append {as bs : Bytes} {fs gs : List Field} (ha : fields as = some fs)
    (hb : fields bs = some gs) : fields (as ++ bs) = some (fs ++ gs) := by
  obtain ⟨rfl, goodA⟩ := fields_iff.mp ha
  obtain ⟨rfl, goodB⟩ := fields_iff.mp hb
  refine fields_iff.mpr ⟨by simp, fun f hf => ?_⟩
  rcases List.mem_append.mp hf with h | h
  · exact goodA f h
  · exact goodB f h

theorem fields_flatMap {fs : List Field} (good : ∀ f ∈ fs, f.WellFormed) :
    fields (fs.flatMap Field.bytes) = some fs :=
  fields_iff.mpr ⟨rfl, good⟩

@[simp] theorem number_delimited (n : Nat) (body : Bytes) : (Field.delimited n body).number = n := by
  simp only [Field.number, Field.delimited]; omega

@[simp] theorem wire_delimited (n : Nat) (body : Bytes) : (Field.delimited n body).wire = 2 := by
  simp only [Field.wire, Field.delimited]; omega

@[simp] theorem body_delimited (n : Nat) (body : Bytes) : (Field.delimited n body).body = body := rfl

theorem delimited_wellFormed {n : Nat} {body : Bytes} (hn : n < 2 ^ 64) (hb : body.length < 2 ^ 64) :
    (Field.delimited n body).WellFormed := by
  have tag := varint_put (8 * n + 2) [] (by omega)
  have len := varint_put body.length body (by omega)
  rw [List.append_nil] at tag
  refine ⟨tag, ?_⟩
  rw [wire_delimited]
  simp only [Field.delimited, extent, len, Option.bind_some, Nat.mod_eq_of_lt hb, List.length_append,
    Nat.le_refl, ↓reduceIte]

/-! ### Where the fields of a message stand -/

/-- The fields with the offset each starts at, the first one at `p`. -/
def locate : Nat → List Field → List (Nat × Field)
  | _, [] => []
  | p, f :: fs => (p, f) :: locate (p + f.size) fs

def bodyPos (q : Nat × Field) : Nat := q.1 + q.2.head.length

def payload (q : Nat × Field) : Text := ⟨bodyPos q, q.2.body⟩

theorem size_eq (f : Field) : f.size = f.tagBytes.length + f.lenBytes.length + f.body.length := by
  simp only [Field.size, Field.bytes, Field.head, List.length_append]

@[simp] theorem locate_map_snd (p : Nat) (fs : List Field) : (locate p fs).map (·.2) = fs := by
  induction fs generalizing p with
  | nil => rfl
  | cons f fs ih => simp [locate, ih]

theorem locate_shift (d p : Nat) (fs : List Field) : locate (p + d) fs = (locate p fs).map fun q => (q.1 + d, q.2) := by
  induction fs generalizing p with
  | nil => rfl
  | cons f fs ih =>
    rw [locate, locate, List.map_cons, ← ih, show p + d + f.size = p + f.size + d by omega]

theorem payload_shift (d : Nat) (q : Nat × Field) : payload (q.1 + d, q.2) = (payload q).shift d := by
  simp only [payload, bodyPos, Text.shift, Text.mk.injEq, and_true]
  omega

theorem locate_append (p : Nat) (fs gs : List Field) :
    locate p (fs ++ gs) = locate p fs ++ locate (p + (fs.flatMap Field.bytes).length) gs := by
  induction fs generalizing p with
  | nil => simp [locate]
  | cons f fs ih =>
    simp only [List.cons_append, locate, ih, List.flatMap_cons, List.length_append, Nat.add_assoc]
    rfl

/-- A later field starts where an earlier one has ended. -/
theorem locate_pairwise (p : Nat) (fs : List Field) :
    (∀ q ∈ locate p fs, p ≤ q.1 ∧ q.1 + q.2.size ≤ p + (fs.flatMap Field.bytes).length) ∧
      (locate p fs).Pairwise fun a b => a.1 + a.2.size ≤ b.1 := by
  induction fs generalizing p with
  | nil => simp [locate]
  | cons f fs ih =>
    obtain ⟨inside, ordered⟩ := ih (p + f.size)
    have long : (f.bytes ++ fs.flatMap Field.bytes).length = f.size + (fs.flatMap Field.bytes).length := by
      rw [List.length_append]; rfl
    rw [locate, List.flatMap_cons, long]
    refine ⟨fun q member => ?_, List.pairwise_cons.mpr ⟨fun q member => (inside q member).1, ordered⟩⟩
    rcases List.mem_cons.mp member with rfl | later
    · exact ⟨Nat.le_refl _, by simp only; omega⟩
    · have := inside q later
      omega

/-! ### One message read field by field -/

section Folds
variable {β : Type} {step : β → Nat × Field → Option β}

def readFields (step : β → Nat × Field → Option β) (t : Text) (b : β) : Option β :=
  (fields t.bytes).bind fun fs => (locate t.pos fs).foldlM step b

theorem readFields_none {t : Text} {b : β}
    (nonempty : t.bytes ≠ []) (hx : next t.bytes = none) : readFields step t b = none := by
  rw [readFields, fields_none nonempty hx, Option.bind_none]

theorem readFields_some {t : Text} {b : β}
    {f : Field} {rest : Bytes} (hx : next t.bytes = some (f, rest)) :
    readFields step t b = (step b (t.pos, f)).bind (readFields step ⟨t.pos + f.size, rest⟩) := by
  have unfolded : readFields step ⟨t.pos + f.size, rest⟩
      = fun b => (fields rest).bind fun fs => (locate (t.pos + f.size) fs).foldlM step b := rfl
  rw [readFields, fields_some hx, unfolded]
  cases fields rest with
  | none => simp
  | some fs => simp [locate, List.foldlM_cons]

theorem readFields_invariant (Inv : β → Prop) {t : Text} {b b' : β} (h : readFields step t b = some b')
    (keeps : ∀ fs, fields t.bytes = some fs → ∀ q ∈ locate t.pos fs, ∀ s s', step s q = some s' → Inv s → Inv s')
    (start : Inv b) : Inv b' := by
  obtain ⟨fs, read, folded⟩ := Option.bind_eq_some_iff.mp h
  exact run_invariant Inv folded (keeps fs read) start

theorem readFields_moved {γ : Type} (step' : γ → Nat × Field → Option γ) (Rel : β → γ → Prop)
    (each : ∀ f p p' s s' s₁, Rel s s' → step s (p, f) = some s₁ → ∃ s₁', step' s' (p', f) = some s₁' ∧ Rel s₁ s₁')
    {t t' : Text} (same : t'.bytes = t.bytes) {b b₁ : β} {c : γ} (related : Rel b c)
    (h : readFields step t b = some b₁) : ∃ c₁, readFields step' t' c = some c₁ ∧ Rel b₁ c₁ := by
  obtain ⟨fs, read, folded⟩ := Option.bind_eq_some_iff.mp h
  rw [readFields, same, read, Option.bind_some]
  clear h read same
  generalize t.pos = p at folded
  generalize t'.pos = p'
  induction fs generalizing p p' b c with
  | nil => cases folded; exact ⟨c, rfl, related⟩
  | cons f fs ih =>
    rw [locate, List.foldlM_cons] at folded
    obtain ⟨mid, one, rest⟩ := Option.bind_eq_some_iff.mp folded
    obtain ⟨mid', one', related'⟩ := each f p p' b c mid related one
    rw [locate, List.foldlM_cons, one']
    exact ih related' _ rest _

theorem readFields_shift {γ : Type} {step' : γ → Nat × Field → Option γ} {σ : β → γ} {d : Nat}
    (each : ∀ b q, step' (σ b) (q.1 + d, q.2) = (step b q).map σ) (t : Text) (b : β) :
    readFields step' (t.shift d) (σ b) = (readFields step t b).map σ := by
  have folded : ∀ (qs : List (Nat × Field)) (b : β),
      (qs.map fun q => (q.1 + d, q.2)).foldlM step' (σ b) = (qs.foldlM step b).map σ := by
    intro qs
    induction qs with
    | nil => exact fun b => rfl
    | cons q qs ih =>
      intro b
      rw [List.map_cons, List.foldlM_cons, List.foldlM_cons, each]
      cases step b q with
      | none => rfl
      | some b' => exact ih b'
  unfold readFields
  rw [Text.shift_bytes, show (t.shift d).pos = t.pos + d from rfl]
  cases fields t.bytes with
  | none => rfl
  | some fs =>
    rw [Option.bind_some, Option.bind_some, locate_shift]
    exact folded _ b

theorem readFields_append {as bs : Bytes} {p : Nat} {fs : List Field} (front : fields as = some fs)
    {gs : List Field} (back : fields bs = some gs) (b : β) :
    readFields step ⟨p, as ++ bs⟩ b = (readFields step ⟨p, as⟩ b).bind (readFields step ⟨p + as.length, bs⟩) := by
  have length : as.length = (fs.flatMap Field.bytes).length := congrArg List.length (fields_iff.mp front).1
  unfold readFields
  simp only [fields_append front back, front, back, Option.bind_some]
  rw [locate_append, List.foldlM_append, length]
  rfl

/-- A message a fold has read is a run of fields, and the fold took each of them. -/
theorem readFields_member {t : Text} {b b' : β} (h : readFields step t b = some b') :
    ∃ fs, fields t.bytes = some fs ∧ ∀ q ∈ locate t.pos fs, ∃ s, (step s q).isSome := by
  obtain ⟨fs, read, folded⟩ := Option.bind_eq_some_iff.mp h
  refine ⟨fs, read, ?_⟩
  clear h read
  generalize locate t.pos fs = qs at folded
  induction qs generalizing b with
  | nil => simp
  | cons q qs ih =>
    rw [List.foldlM_cons] at folded
    obtain ⟨s, one, rest⟩ := Option.bind_eq_some_iff.mp folded
    simp only [List.mem_cons, forall_eq_or_imp]
    exact ⟨⟨b, by rw [one]; rfl⟩, ih rest⟩

end Folds

end Wire
