import ArchivAgent.Wire.Varint

/-!
# Ranges of a buffer

`At buf p bs` says that `bs` stands in `buf` at offset `p`. It splits along `++`, which is how
offsets into a buffer are traded for lists of bytes.
-/

namespace Wire

structure Range where
  start : Nat
  stop : Nat
  deriving DecidableEq, Repr

def Range.len (r : Range) : Nat := r.stop - r.start

def slice (buf : Bytes) (start stop : Nat) : Bytes := (buf.take stop).drop start

/-- The bytes of a range that lies in the buffer. -/
def Range.get (r : Range) (buf : Bytes) : Option Bytes :=
  if r.start ≤ r.stop ∧ r.stop ≤ buf.length then some (slice buf r.start r.stop) else none

def Range.shift (d : Nat) (r : Range) : Range := ⟨r.start + d, r.stop + d⟩

def Range.Within (r w : Range) : Prop := w.start ≤ r.start ∧ r.start ≤ r.stop ∧ r.stop ≤ w.stop

instance (r w : Range) : Decidable (r.Within w) := inferInstanceAs (Decidable (_ ∧ _))

theorem Range.Within.trans {r w v : Range} (h : r.Within w) (hw : w.Within v) : r.Within v := by
  unfold Range.Within at *
  omega

def At (buf : Bytes) (p : Nat) (bs : Bytes) : Prop :=
  ∃ pre post, buf = pre ++ bs ++ post ∧ pre.length = p

theorem at_self (buf : Bytes) : At buf 0 buf := ⟨[], [], by simp, rfl⟩

theorem At.length {buf bs : Bytes} {p : Nat} (h : At buf p bs) : p + bs.length ≤ buf.length := by
  obtain ⟨pre, post, rfl, rfl⟩ := h
  simp only [List.length_append]
  omega

theorem At.left {buf as bs : Bytes} {p : Nat} (h : At buf p (as ++ bs)) : At buf p as := by
  obtain ⟨pre, post, rfl, rfl⟩ := h
  exact ⟨pre, bs ++ post, by simp, rfl⟩

theorem At.right {buf as bs : Bytes} {p : Nat} (h : At buf p (as ++ bs)) : At buf (p + as.length) bs := by
  obtain ⟨pre, post, rfl, rfl⟩ := h
  exact ⟨pre ++ as, post, by simp, by simp⟩

theorem At.slice {buf bs : Bytes} {p : Nat} (h : At buf p bs) : slice buf p (p + bs.length) = bs := by
  obtain ⟨pre, post, rfl, rfl⟩ := h
  rw [Wire.slice, ← List.length_append, List.take_left' rfl, List.drop_left' rfl]

theorem At.get {buf bs : Bytes} {p : Nat} (h : At buf p bs) : Range.get ⟨p, p + bs.length⟩ buf = some bs := by
  rw [Range.get, if_pos ⟨Nat.le_add_right _ _, h.length⟩, h.slice]

theorem At.head {buf bs : Bytes} {p : Nat} {b : UInt8} (h : At buf p (b :: bs)) : buf[p]? = some b := by
  obtain ⟨pre, post, rfl, rfl⟩ := h
  simp

theorem At.drop {buf bs : Bytes} {p : Nat} (h : At buf p bs) {n : Nat} (hn : n ≤ bs.length) :
    At buf (p + n) (bs.drop n) := by
  have split := (@At.right _ (bs.take n) (bs.drop n)) (by rwa [List.take_append_drop])
  rwa [List.length_take, Nat.min_eq_left hn] at split

theorem At.take {buf bs : Bytes} {p : Nat} (h : At buf p bs) (n : Nat) : At buf p (bs.take n) :=
  (@At.left _ _ (bs.drop n)) (by rwa [List.take_append_drop])

theorem At.slice_shift {outer buf : Bytes} {d : Nat} (h : At outer d buf) (a : Nat) {b : Nat} (inside : b ≤ buf.length) :
    Wire.slice outer (a + d) (b + d) = Wire.slice buf a b := by
  obtain ⟨pre, post, rfl, rfl⟩ := h
  have front : (pre ++ buf ++ post).take (b + pre.length) = pre ++ buf.take b := by
    rw [List.append_assoc, Nat.add_comm, List.take_length_add_append, List.take_append_of_le_length inside]
  rw [Wire.slice, Wire.slice, front, Nat.add_comm, List.drop_length_add_append]

/-- A stretch of a buffer: where it starts and what it holds. -/
structure Text where
  pos : Nat
  bytes : Bytes
  deriving DecidableEq, Repr

namespace Text

def range (t : Text) : Range := ⟨t.pos, t.pos + t.bytes.length⟩

def In (buf : Bytes) (t : Text) : Prop := At buf t.pos t.bytes

theorem In.get {buf : Bytes} {t : Text} (h : t.In buf) : t.range.get buf = some t.bytes := At.get h

theorem get_optional {buf : Bytes} {o : Option Text} (stands : ∀ t ∈ o, t.In buf) :
    (o.map range).bind (·.get buf) = o.map bytes := by
  cases o with
  | none => rfl
  | some t => exact (stands t rfl).get

theorem In.bound {buf : Bytes} {t : Text} (h : t.In buf) : t.range.stop ≤ buf.length := At.length h

@[simp] theorem len_range (t : Text) : t.range.len = t.bytes.length := by
  simp only [Range.len, range]; omega

def shift (d : Nat) (t : Text) : Text := ⟨t.pos + d, t.bytes⟩

@[simp] theorem shift_bytes (d : Nat) (t : Text) : (t.shift d).bytes = t.bytes := rfl

theorem range_shift (d : Nat) (t : Text) : (t.shift d).range = t.range.shift d := by
  simp only [range, shift, Range.shift, Range.mk.injEq, true_and]
  omega

end Text

end Wire
