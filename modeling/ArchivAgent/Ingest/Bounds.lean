import ArchivAgent.Ingest.Otlp

/-!
# The parser stays in its windows

A cursor over a window of the buffer reads inside it and only moves forward. So every walker ends
without a panic, and what it returns lies in its window, whatever the bytes are.
-/

namespace ArchivAgent
open Wire (Bytes Range)

namespace WireCursor

structure Reads (c : WireCursor) (buf : Bytes) (w : Range) : Prop where
  buf : c.buf = buf
  stop : c.stop = w.stop
  low : w.start ≤ c.pos
  high : c.pos ≤ w.stop

/-- The cursor stands in the window, further on than `p`. -/
def Past (buf : Bytes) (w : Range) (p : Nat) (c : WireCursor) : Prop := c.Reads buf w ∧ p < c.pos

section Reads
variable {c : WireCursor} {buf : Bytes} {w : Range}

theorem Reads.new (inside : w.Within ⟨0, buf.length⟩) : (WireCursor.new buf w).Reads buf w :=
  ⟨rfl, rfl, Nat.le_refl _, inside.2.1⟩

theorem Reads.forward (h : c.Reads buf w) {n : Nat} (positive : 0 < n) (fits : c.pos + n ≤ w.stop) :
    Past buf w c.pos { c with pos := c.pos + n } := by
  refine ⟨⟨h.buf, h.stop, ?_, fits⟩, ?_⟩
  · exact Nat.le_trans h.low (Nat.le_add_right _ _)
  · exact Nat.lt_add_of_pos_right positive

variable (inside : w.stop ≤ buf.length)
include inside

theorem byte_ends (h : c.Reads buf w) : Ends (fun r => Past buf w c.pos r.2) c.byte := by
  unfold byte
  have stop := h.stop
  by_cases shut : c.stop ≤ c.pos
  · rw [if_pos shut]
    trivial
  · have here : c.pos < c.buf.length := by rw [h.buf]; omega
    rw [if_neg shut, List.getElem?_eq_getElem here]
    apply h.forward
    · decide
    · omega

theorem varintLoop_ends (start n v shift : Nat) (enough : 64 ≤ shift + 7 * n) (h : c.Reads buf w) :
    Ends (fun r => Past buf w c.pos r.2) (varintLoop start (n + 1) v shift c) := by
  induction n generalizing v shift c with
  | zero =>
    unfold varintLoop
    refine (byte_ends inside h).bind fun r _ => ?_
    apply Ends.ite
    · exact fun _ => trivial
    · intro room
      omega
  | succ n ih =>
    unfold varintLoop
    refine (byte_ends inside h).bind fun r past => ?_
    apply Ends.ite
    · exact fun _ => trivial
    · intro _
      apply Ends.ite
      · exact fun _ => past
      · intro _
        refine (ih _ (shift + 7) (by omega) past.1).imp fun r' past' => ?_
        exact ⟨past'.1, Nat.lt_trans past.2 past'.2⟩

theorem varint_ends (h : c.Reads buf w) : Ends (fun r => Past buf w c.pos r.2) c.varint :=
  varintLoop_ends inside _ 10 0 0 (by decide) h

theorem tag_ends (h : c.Reads buf w) : Ends (fun r => Past buf w c.pos r.2) c.tag := by
  unfold tag
  exact (varint_ends inside h).bind fun _ past => past

theorem lenRange_ends (h : c.Reads buf w) :
    Ends (fun r => Past buf w c.pos r.2 ∧ r.1.Within w ∧ c.pos < r.1.start ∧ r.1.stop = r.2.pos) c.lenRange := by
  unfold lenRange
  refine (varint_ends inside h).bind fun r past => ?_
  obtain ⟨len, c'⟩ := r
  obtain ⟨reads, further⟩ := past
  have stop := reads.stop
  have low := reads.low
  simp only at stop low further ⊢
  apply Ends.ite
  · exact fun _ => trivial
  · intro fits
    refine ⟨⟨⟨reads.buf, reads.stop, ?_, ?_⟩, ?_⟩, ⟨low, ?_, ?_⟩, further, rfl⟩ <;> simp only <;> omega

omit inside in
theorem advance_ends (h : c.Reads buf w) {n : Nat} (positive : 0 < n) :
    Ends (fun c' => Past buf w c.pos c') (c.advance n) := by
  unfold advance
  have stop := h.stop
  apply Ends.ite
  · exact fun _ => trivial
  · intro fits
    apply h.forward positive
    omega

theorem skip_ends (h : c.Reads buf w) (wire : Nat) : Ends (fun c' => Past buf w c.pos c') (c.skip wire) := by
  unfold skip
  split
  · exact (varint_ends inside h).bind fun _ past => past
  · exact advance_ends h (by decide)
  · exact (lenRange_ends inside h).bind fun _ past => past.1
  · exact advance_ends h (by decide)
  · trivial

end Reads

/-! ### The loop -/

/-- From wherever in the window the cursor stands past the tag, the body of the walker ends, leaves
the cursor in the window and no less far, and keeps what is said of the state. -/
def Walks {ε σ : Type} (buf : Bytes) (w : Range) (Inv : Nat → σ → Prop)
    (body : Nat → Nat → Nat → σ → WireCursor → Run ε (σ × WireCursor)) : Prop :=
  ∀ tagStart field wire s c, w.start ≤ tagStart → Past buf w tagStart c → Inv tagStart s →
    Ends (fun r => r.2.Reads buf w ∧ c.pos ≤ r.2.pos ∧ Inv r.2.pos r.1) (body tagStart field wire s c)

section Loop
variable {ε σ : Type} {buf : Bytes} {w : Range} {Inv : Nat → σ → Prop} {wrap : ParseError → ε}
  {body : Nat → Nat → Nat → σ → WireCursor → Run ε (σ × WireCursor)}

theorem whileFields_ends (walks : Walks buf w Inv body) (inside : w.stop ≤ buf.length) (n : Nat) {c : WireCursor} {s : σ}
    (reads : c.Reads buf w) (enough : w.stop - c.pos ≤ n) (holds : Inv c.pos s) :
    Ends (Inv w.stop) (whileFields wrap body n s c) := by
  have stop := reads.stop
  have high := reads.high
  have ending : c.done = true → Inv w.stop s := by
    intro finished
    have := of_decide_eq_true finished
    rw [show w.stop = c.pos by omega]
    exact holds
  induction n generalizing c s with
  | zero =>
    have finished : c.done = true := decide_eq_true (by omega)
    unfold whileFields
    rw [if_pos finished]
    exact ending finished
  | succ n ih =>
    unfold whileFields
    apply Ends.ite
    · exact ending
    · intro _
      refine ((tag_ends inside reads).mapErr wrap).bind fun t past => ?_
      obtain ⟨⟨field, wire⟩, c'⟩ := t
      refine (walks c.pos field wire s c' reads.low past holds).bind fun r kept => ?_
      obtain ⟨reads', further, holds'⟩ := kept
      have moved : c.pos < r.2.pos := Nat.lt_of_lt_of_le past.2 further
      refine ih reads' (by omega) holds' reads'.stop reads'.high fun finished => ?_
      have := of_decide_eq_true finished
      have := reads'.stop
      have := reads'.high
      rw [show w.stop = r.2.pos by omega]
      exact holds'

theorem walk_ends (walks : Walks buf w Inv body) (inside : w.Within ⟨0, buf.length⟩) {s : σ} (holds : Inv w.start s) :
    Ends (Inv w.stop) (walk wrap body buf w s) :=
  whileFields_ends walks inside.2.2 _ (Reads.new inside) (Nat.le_refl _) holds

end Loop

end WireCursor

open WireCursor

/-! ### What the walkers return -/

def AttrView.Within (a : AttrView) (w : Range) : Prop := a.key.Within w ∧ a.value.Within w

structure ResourceAttrs.Within (r : ResourceAttrs) (w : Range) : Prop where
  namespaceName : ∀ v ∈ r.namespaceName, v.Within w
  serviceName : ∀ v ∈ r.serviceName, v.Within w

structure LogRecordState.Within (s : LogRecordState) (w : Range) : Prop where
  body : s.body.Within w
  traceId : ∀ v ∈ s.traceId, v.Within w
  attrs : ∀ a ∈ s.attrs, a.Within w

structure RecordView.Within (v : RecordView) (w : Range) : Prop where
  body : v.body.Within w
  traceId : ∀ r ∈ v.traceId, r.Within w
  attrs : ∀ a ∈ v.attrs, a.Within w
  namespaceName : ∀ r ∈ v.namespaceName, r.Within w
  serviceName : ∀ r ∈ v.serviceName, r.Within w

theorem LogRecordState.Within.view {s : LogRecordState} {w outer : Range} (h : s.Within w) (under : w.Within outer)
    {res : ResourceAttrs} (resource : res.Within outer) :
    RecordView.Within ⟨s.body, s.traceId, s.attrs, s.severityNumber, res.namespaceName, res.serviceName⟩ outer where
  body := h.body.trans under
  traceId r member := (h.traceId r member).trans under
  attrs a member := ⟨(h.attrs a member).1.trans under, (h.attrs a member).2.trans under⟩
  namespaceName := resource.namespaceName
  serviceName := resource.serviceName

section Walkers
variable {buf : Bytes} {w : Range}

theorem anyValueLoop_ends (inside : w.stop ≤ buf.length) (n : Nat) {c : WireCursor} (reads : c.Reads buf w)
    (enough : w.stop - c.pos ≤ n) : Ends (fun o => ∀ r ∈ o, r.Within w) (anyValueLoop n c) := by
  have stop := reads.stop
  induction n generalizing c with
  | zero =>
    unfold anyValueLoop
    rw [if_pos (show c.done = true from decide_eq_true (by omega))]
    simp [Ends]
  | succ n ih =>
    unfold anyValueLoop
    apply Ends.ite
    · simp [Ends]
    · intro _
      refine (tag_ends inside reads).bind fun t past => ?_
      obtain ⟨⟨field, wire⟩, c'⟩ := t
      obtain ⟨reads', further⟩ := past
      apply Ends.ite
      · intro _
        refine (lenRange_ends inside reads').bind fun r found => ?_
        obtain ⟨-, within, -⟩ := found
        simpa [Ends] using within
      · intro _
        refine (skip_ends inside reads' wire).bind fun c₂ past => ?_
        obtain ⟨reads₂, further₂⟩ := past
        simp only at further further₂
        apply ih reads₂
        · omega
        · exact reads₂.stop

theorem anyValueString_ends (inside : w.Within ⟨0, buf.length⟩) :
    Ends (fun o => ∀ r ∈ o, r.Within w) (anyValueString buf w) :=
  anyValueLoop_ends inside.2.2 _ (Reads.new inside) (Nat.le_refl _)

theorem parseKeyValueField_walks (inside : w.Within ⟨0, buf.length⟩) :
    Walks buf w (fun _ s => (∀ r ∈ s.1, r.Within w) ∧ ∀ r ∈ s.2, r.Within w) (parseKeyValueField buf) := by
  intro tagStart field wire s c _ past holds
  obtain ⟨reads, -⟩ := past
  unfold parseKeyValueField
  apply Ends.ite
  · intro _
    refine (lenRange_ends inside.2.2 reads).bind fun r found => ?_
    obtain ⟨past, within, -⟩ := found
    refine ⟨past.1, Nat.le_of_lt past.2, ?_, holds.2⟩
    simpa using within
  · intro _
    apply Ends.ite
    · intro _
      refine (lenRange_ends inside.2.2 reads).bind fun r found => ?_
      obtain ⟨past, within, -⟩ := found
      refine (anyValueString_ends (within.trans inside)).bind fun o views => ?_
      exact ⟨past.1, Nat.le_of_lt past.2, holds.1, fun v member => (views v member).trans within⟩
    · intro _
      refine (skip_ends inside.2.2 reads wire).bind fun _ past => ?_
      exact ⟨past.1, Nat.le_of_lt past.2, holds⟩

theorem parseKeyValue_ends (inside : w.Within ⟨0, buf.length⟩) :
    Ends (fun o => ∀ a ∈ o, a.Within w) (parseKeyValue buf w) := by
  unfold parseKeyValue
  refine (walk_ends (parseKeyValueField_walks inside) inside ?_).bind fun s views => ?_
  · simp
  · obtain ⟨key, value⟩ := s
    cases key with
    | none => simp [Ends]
    | some key =>
      cases value with
      | none => simp [Ends]
      | some value => simpa [Ends, AttrView.Within] using views

theorem parseResourceAttrsField_walks (inside : w.Within ⟨0, buf.length⟩) :
    Walks buf w (fun _ s => s.Within w) (parseResourceAttrsField buf) := by
  intro tagStart field wire s c _ past holds
  obtain ⟨reads, -⟩ := past
  unfold parseResourceAttrsField
  apply Ends.ite
  · intro _
    refine (lenRange_ends inside.2.2 reads).bind fun r found => ?_
    obtain ⟨past, within, -⟩ := found
    refine (parseKeyValue_ends (within.trans inside)).bind fun o views => ?_
    cases o with
    | none => exact ⟨past.1, Nat.le_of_lt past.2, holds⟩
    | some attr =>
      have value : attr.value.Within w := (views attr rfl).2.trans within
      apply Ends.ite
      · intro _
        exact ⟨past.1, Nat.le_of_lt past.2, by simpa using value, holds.serviceName⟩
      · intro _
        apply Ends.ite
        · intro _
          exact ⟨past.1, Nat.le_of_lt past.2, holds.namespaceName, by simpa using value⟩
        · intro _
          exact ⟨past.1, Nat.le_of_lt past.2, holds⟩
  · intro _
    refine (skip_ends inside.2.2 reads wire).bind fun _ past => ?_
    exact ⟨past.1, Nat.le_of_lt past.2, holds⟩

theorem parseResourceAttrs_ends (inside : w.Within ⟨0, buf.length⟩) :
    Ends (fun r => r.Within w) (parseResourceAttrs buf w) :=
  walk_ends (parseResourceAttrsField_walks inside) inside ⟨by simp, by simp⟩

theorem parseLogRecordField_walks (inside : w.Within ⟨0, buf.length⟩) :
    Walks buf w (fun _ s => s.Within w) (parseLogRecordField buf) := by
  intro tagStart field wire s c _ past holds
  obtain ⟨reads, -⟩ := past
  unfold parseLogRecordField
  apply Ends.ite
  · -- The severity.
    intro _
    refine (varint_ends inside.2.2 reads).bind fun r past => ?_
    exact ⟨past.1, Nat.le_of_lt past.2, holds.body, holds.traceId, holds.attrs⟩
  intro _
  apply Ends.ite
  · -- The body.
    intro _
    refine (lenRange_ends inside.2.2 reads).bind fun r found => ?_
    obtain ⟨past, within, -⟩ := found
    refine (anyValueString_ends (within.trans inside)).bind fun o views => ?_
    cases o with
    | none => exact ⟨past.1, Nat.le_of_lt past.2, holds⟩
    | some text => exact ⟨past.1, Nat.le_of_lt past.2, (views text rfl).trans within, holds.traceId, holds.attrs⟩
  intro _
  apply Ends.ite
  · -- An attribute.
    intro _
    refine (lenRange_ends inside.2.2 reads).bind fun r found => ?_
    obtain ⟨past, within, -⟩ := found
    refine (parseKeyValue_ends (within.trans inside)).bind fun o views => ?_
    cases o with
    | none => exact ⟨past.1, Nat.le_of_lt past.2, holds⟩
    | some attr =>
      refine ⟨past.1, Nat.le_of_lt past.2, holds.body, holds.traceId, fun a member => ?_⟩
      rcases List.mem_append.mp member with old | new
      · exact holds.attrs a old
      · obtain rfl := List.mem_singleton.mp new
        exact ⟨(views a rfl).1.trans within, (views a rfl).2.trans within⟩
  intro _
  apply Ends.ite
  · -- The trace id.
    intro _
    refine (lenRange_ends inside.2.2 reads).bind fun r found => ?_
    obtain ⟨past, within, -⟩ := found
    apply Ends.ite
    · intro _
      exact ⟨past.1, Nat.le_of_lt past.2, holds.body, by simpa using within, holds.attrs⟩
    · intro _
      exact ⟨past.1, Nat.le_of_lt past.2, holds⟩
  · intro _
    refine (skip_ends inside.2.2 reads wire).bind fun _ past => ?_
    exact ⟨past.1, Nat.le_of_lt past.2, holds⟩

theorem parseLogRecord_ends (inside : w.Within ⟨0, buf.length⟩) {outer : Range} (under : w.Within outer)
    {res : ResourceAttrs} (resource : res.Within outer) :
    Ends (fun v => v.Within outer) (parseLogRecord buf w res) := by
  unfold parseLogRecord
  refine (walk_ends (parseLogRecordField_walks inside) inside ?_).bind fun s holds => ?_
  · exact ⟨⟨Nat.le_refl _, Nat.le_refl _, inside.2.1⟩, by simp, by simp⟩
  · exact holds.view under resource

/-! ### The records of a request -/

def Found (buf : Bytes) (out : List RecordView) : Prop := ∀ v ∈ out, v.Within ⟨0, buf.length⟩

theorem parseScopeLogsField_walks (inside : w.Within ⟨0, buf.length⟩) {res : ResourceAttrs}
    (resource : res.Within ⟨0, buf.length⟩) : Walks buf w (fun _ out => Found buf out) (parseScopeLogsField buf res) := by
  intro tagStart field wire out c _ past holds
  obtain ⟨reads, -⟩ := past
  unfold parseScopeLogsField
  apply Ends.ite
  · intro _
    refine (lenRange_ends inside.2.2 reads).bind fun r found => ?_
    obtain ⟨past, within, -⟩ := found
    have under := within.trans inside
    refine (parseLogRecord_ends under under resource).bind fun view here => ?_
    refine ⟨past.1, Nat.le_of_lt past.2, fun v member => ?_⟩
    rcases List.mem_append.mp member with old | new
    · exact holds v old
    · obtain rfl := List.mem_singleton.mp new
      exact here
  · intro _
    refine (skip_ends inside.2.2 reads wire).bind fun _ past => ?_
    exact ⟨past.1, Nat.le_of_lt past.2, holds⟩

theorem parseScopeLogs_ends (inside : w.Within ⟨0, buf.length⟩) {res : ResourceAttrs}
    (resource : res.Within ⟨0, buf.length⟩) {out : List RecordView} (holds : Found buf out) :
    Ends (Found buf) (parseScopeLogs buf w res out) :=
  walk_ends (parseScopeLogsField_walks inside resource) inside holds

theorem parseResourceLogsField_walks (inside : w.Within ⟨0, buf.length⟩) :
    Walks buf w (fun _ s => s.1.Within w ∧ ∀ sl ∈ s.2, sl.Within w) (parseResourceLogsField buf) := by
  intro tagStart field wire s c _ past holds
  obtain ⟨reads, -⟩ := past
  unfold parseResourceLogsField
  apply Ends.ite
  · intro _
    refine (lenRange_ends inside.2.2 reads).bind fun r found => ?_
    obtain ⟨past, within, -⟩ := found
    refine (parseResourceAttrs_ends (within.trans inside)).bind fun attrs views => ?_
    refine ⟨past.1, Nat.le_of_lt past.2, ⟨fun v member => ?_, fun v member => ?_⟩, holds.2⟩
    · exact (views.namespaceName v member).trans within
    · exact (views.serviceName v member).trans within
  · intro _
    apply Ends.ite
    · intro _
      refine (lenRange_ends inside.2.2 reads).bind fun r found => ?_
      obtain ⟨past, within, -⟩ := found
      refine ⟨past.1, Nat.le_of_lt past.2, holds.1, fun sl member => ?_⟩
      rcases List.mem_append.mp member with old | new
      · exact holds.2 sl old
      · obtain rfl := List.mem_singleton.mp new
        exact within
    · intro _
      refine (skip_ends inside.2.2 reads wire).bind fun _ past => ?_
      exact ⟨past.1, Nat.le_of_lt past.2, holds⟩

theorem parseScopes_ends {res : ResourceAttrs} (resource : res.Within ⟨0, buf.length⟩) {scopes : List Range}
    (inside : ∀ sl ∈ scopes, sl.Within ⟨0, buf.length⟩) {out : List RecordView} (holds : Found buf out) :
    Ends (Found buf) (parseScopes buf res scopes out) := by
  induction scopes generalizing out with
  | nil => exact holds
  | cons sl scopes ih =>
    simp only [List.mem_cons, forall_eq_or_imp] at inside
    unfold parseScopes
    exact (parseScopeLogs_ends inside.1 resource holds).bind fun _ holds => ih inside.2 holds

theorem parseResourceLogs_ends (inside : w.Within ⟨0, buf.length⟩) {out : List RecordView} (holds : Found buf out) :
    Ends (Found buf) (parseResourceLogs buf w out) := by
  unfold parseResourceLogs
  refine (walk_ends (parseResourceLogsField_walks inside) inside ?_).bind fun s found => ?_
  · exact ⟨⟨by simp, by simp⟩, by simp⟩
  · obtain ⟨attrs, scopes⟩ := found
    refine parseScopes_ends ⟨fun v member => ?_, fun v member => ?_⟩ (fun sl member => (scopes sl member).trans inside) holds
    · exact (attrs.namespaceName v member).trans inside
    · exact (attrs.serviceName v member).trans inside

theorem parseRequestField_walks (inside : w.Within ⟨0, buf.length⟩) :
    Walks buf w (fun _ out => Found buf out) (parseRequestField buf) := by
  intro tagStart field wire out c _ past holds
  obtain ⟨reads, -⟩ := past
  unfold parseRequestField
  apply Ends.ite
  · intro _
    refine (lenRange_ends inside.2.2 reads).bind fun r found => ?_
    obtain ⟨past, within, -⟩ := found
    refine (parseResourceLogs_ends (within.trans inside) holds).bind fun out holds => ?_
    exact ⟨past.1, Nat.le_of_lt past.2, holds⟩
  · intro _
    refine (skip_ends inside.2.2 reads wire).bind fun _ past => ?_
    exact ⟨past.1, Nat.le_of_lt past.2, holds⟩

/-- The parser ends on every buffer, and its views lie in it. -/
theorem parseExportLogsRequest_ends (buf : Bytes) : Ends (Found buf) (parseExportLogsRequest buf []) := by
  have inside : Range.Within ⟨0, buf.length⟩ ⟨0, buf.length⟩ := ⟨Nat.le_refl _, Nat.zero_le _, Nat.le_refl _⟩
  exact walk_ends (parseRequestField_walks inside) inside (by simp [Found])

end Walkers

end ArchivAgent
