import ArchivAgent.Ingest.Otlp
import ArchivAgent.Wire.Field

/-!
# What the cursor reads

Each operation of `WireCursor` is described by what stands in the buffer at its position, and
`walk_meets` turns any walker's loop into a fold over the fields of its window. None of them
panics or runs on: `Meets` excludes both.
-/

namespace ArchivAgent
open Wire

/-- The cursor's window, from its position on, holds `bs`. -/
structure Sees (c : WireCursor) (bs : Bytes) : Prop where
  here : At c.buf c.pos bs
  stop : c.stop = c.pos + bs.length

theorem Sees.drop {c : WireCursor} {bs : Bytes} (h : Sees c bs) {n : Nat} (hn : n ≤ bs.length) :
    Sees { c with pos := c.pos + n } (bs.drop n) := by
  refine ⟨h.here.drop hn, ?_⟩
  have := h.stop
  simp only [List.length_drop]
  omega

namespace WireCursor
variable {c : WireCursor} {bs : Bytes}

theorem byte_cons {b : UInt8} (h : Sees c (b :: bs)) :
    c.byte = .ok (b, { c with pos := c.pos + 1 }) := by
  have open' : ¬ c.stop ≤ c.pos := by rw [h.stop, List.length_cons]; omega
  simp only [byte, if_neg open', h.here.head]

theorem byte_nil (h : Sees c []) : c.byte = .error (.err (.truncated c.pos)) := by
  have shut : c.stop ≤ c.pos := by rw [h.stop]; simp
  simp only [byte, if_pos shut]

theorem low_seven (b : UInt8) : (b &&& 0x7F).toNat = b.toNat % 128 := by
  rw [UInt8.toNat_and]
  exact Nat.and_two_pow_sub_one_eq_mod b.toNat 7

theorem last_group (b : UInt8) : b &&& 0x80 = 0 ↔ b.toNat < 128 := by
  rw [← UInt8.toNat_inj, UInt8.toNat_and]
  have table : ∀ i : Fin 256, i.val &&& 128 = 0 ↔ i.val < 128 := by decide +kernel
  exact table ⟨b.toNat, b.toNat_lt⟩

/-- Or-ing a group in at its place adds it, whatever falls off the top. -/
theorem or_group (v g shift : Nat) (hv : v < 2 ^ shift) (hs : shift < 64) :
    v ||| (g <<< shift % 2 ^ 64) = (v + g * 2 ^ shift) % 2 ^ 64 := by
  have split : g <<< shift % 2 ^ 64 = 2 ^ shift * (g % 2 ^ (64 - shift)) := by
    rw [Nat.shiftLeft_eq, Nat.mul_comm, show (2 : Nat) ^ 64 = 2 ^ shift * 2 ^ (64 - shift) by
      rw [← Nat.pow_add]; congr 1; omega, Nat.mul_mod_mul_left]
  have fits : 2 ^ shift * (g % 2 ^ (64 - shift)) + v < 2 ^ 64 := by
    have small : g % 2 ^ (64 - shift) < 2 ^ (64 - shift) := Nat.mod_lt _ (Nat.two_pow_pos _)
    have : 2 ^ shift * (g % 2 ^ (64 - shift) + 1) ≤ 2 ^ shift * 2 ^ (64 - shift) :=
      Nat.mul_le_mul_left _ small
    rw [← Nat.pow_add, show shift + (64 - shift) = 64 by omega] at this
    rw [Nat.mul_add] at this
    omega
  rw [Nat.or_comm, split, ← Nat.two_pow_add_eq_or_of_lt hv]
  rw [← Nat.mod_eq_of_lt fits, ← split]
  rw [Nat.mod_add_mod, Nat.shiftLeft_eq, Nat.add_comm]

theorem varintLoop_meets (start n v shift : Nat) (hv : v < 2 ^ shift) (hn : shift + 7 * n = 70)
    (h : Sees c bs) :
    Meets (fun (r : Nat × Nat) a => a = ((v + r.1 * 2 ^ shift) % 2 ^ 64, { c with pos := c.pos + r.2 }))
      (varintLoop start (n + 1) v shift c) (Wire.groups n bs) := by
  induction n generalizing v shift c bs with
  | zero =>
    rw [varintLoop]
    cases bs with
    | nil => exact Fails.bind ⟨_, byte_nil h⟩ _
    | cons b bs =>
      rw [byte_cons h]
      exact ⟨_, if_pos (by omega)⟩
  | succ n ih =>
    rw [varintLoop]
    cases bs with
    | nil => exact Fails.bind ⟨_, byte_nil h⟩ _
    | cons b bs =>
      have room : ¬ 64 ≤ shift := by omega
      have group : v ||| ((b &&& 0x7F).toNat <<< shift % 2 ^ 64) = (v + b.toNat % 128 * 2 ^ shift) % 2 ^ 64 := by
        rw [low_seven, or_group _ _ _ hv (by omega)]
      rw [byte_cons h, Wire.groups]
      show Meets _ (if 64 ≤ shift then _ else _) _
      simp only [room, ↓reduceIte, group, last_group]
      split
      · rename_i last
        exact meets_ok (by rw [Nat.mod_eq_of_lt last])
      · have bound : (v + b.toNat % 128 * 2 ^ shift) % 2 ^ 64 < 2 ^ (shift + 7) := by
          have : b.toNat % 128 * 2 ^ shift ≤ 127 * 2 ^ shift := Nat.mul_le_mul_right _ (by omega)
          have := Nat.mod_le (v + b.toNat % 128 * 2 ^ shift) (2 ^ 64)
          rw [Nat.pow_add]
          omega
        have rest := ih ((v + b.toNat % 128 * 2 ^ shift) % 2 ^ 64) (shift + 7) bound (by omega)
          (h.drop (n := 1) (by simp))
        rw [List.drop_one, List.tail_cons] at rest
        cases hg : Wire.groups n bs with
        | none => rw [hg] at rest; exact rest
        | some r =>
          rw [hg] at rest
          obtain ⟨a, same, rfl⟩ := rest
          refine ⟨_, same, ?_⟩
          simp only [Prod.mk.injEq, WireCursor.mk.injEq, true_and, and_true]
          refine ⟨?_, by omega⟩
          rw [Nat.mod_add_mod, Nat.pow_add]
          congr 1
          rw [Nat.add_mul, ← Nat.add_assoc]
          congr 1
          rw [Nat.mul_comm 128, Nat.mul_assoc, Nat.mul_comm (2 ^ shift)]

theorem varint_meets (h : Sees c bs) :
    Meets (fun (r : Nat × Nat) a => a = (r.1 % 2 ^ 64, { c with pos := c.pos + r.2 })) c.varint
      (Wire.varint bs) := by
  have := varintLoop_meets c.pos 10 0 0 (by decide) (by decide) h
  unfold varint Wire.varint
  simpa only [Nat.zero_add, Nat.pow_zero, Nat.mul_one] using this

theorem tag_meets (h : Sees c bs) :
    Meets (fun (r : Nat × Nat) a => a = ((r.1 / 8 % 2 ^ 32, r.1 % 8), { c with pos := c.pos + r.2 })) c.tag
      (Wire.varint bs) := by
  have read := varint_meets h
  cases hv : Wire.varint bs with
  | none => rw [hv] at read; exact Fails.bind read _
  | some r =>
    rw [hv] at read
    obtain ⟨a, same, rfl⟩ := read
    refine ⟨_, by rw [tag, same]; rfl, ?_⟩
    have low : (r.1 % 2 ^ 64) &&& 7 = r.1 % 8 := by
      rw [show (7 : Nat) = 2 ^ 3 - 1 by decide, Nat.and_two_pow_sub_one_eq_mod]; omega
    rw [low, Nat.shiftRight_eq_div_pow]
    simp only [Prod.mk.injEq, and_true]
    omega

theorem lenRange_meets (h : Sees c bs) :
    Meets (fun (e : Nat × Nat) a =>
        a = (⟨c.pos + e.1, c.pos + e.1 + e.2⟩, { c with pos := c.pos + (e.1 + e.2) })) c.lenRange
      (Wire.extent 2 bs) := by
  have read := varint_meets h
  simp only [lenRange, Wire.extent]
  refine read.bind fun r a _ ha => ?_
  subst ha
  have room : c.stop < c.pos + r.2 + r.1 % 2 ^ 64 ↔ ¬ r.2 + r.1 % 2 ^ 64 ≤ bs.length := by
    rw [h.stop]; omega
  simp only [room]
  by_cases fits : r.2 + r.1 % 2 ^ 64 ≤ bs.length
  · rw [if_neg (not_not_intro fits), if_pos fits]
    exact meets_ok (by simp only [Nat.add_assoc])
  · rw [if_pos fits, if_neg fits]
    exact ⟨_, rfl⟩

theorem advance_meets (n : Nat) (h : Sees c bs) :
    Meets (fun (e : Nat × Nat) a => a = { c with pos := c.pos + (e.1 + e.2) }) (c.advance n)
      (if n ≤ bs.length then some (0, n) else none) := by
  have stop := h.stop
  rw [advance]
  by_cases fits : n ≤ bs.length
  · rw [if_neg (by omega), if_pos fits]
    exact meets_ok (by rw [Nat.zero_add])
  · rw [if_pos (by omega), if_neg fits]
    exact ⟨_, rfl⟩

theorem skip_meets (w : Nat) (h : Sees c bs) :
    Meets (fun (e : Nat × Nat) a => a = { c with pos := c.pos + (e.1 + e.2) }) (c.skip w)
      (Wire.extent w bs) := by
  unfold skip
  split
  · refine (varint_meets h).map fun r a _ ha => ?_
    subst ha
    exact ⟨_, rfl, by simp⟩
  · exact advance_meets 8 h
  · have := lenRange_meets h
    cases he : Wire.extent 2 bs with
    | none => rw [he] at this; exact Fails.bind this _
    | some e =>
      rw [he] at this
      obtain ⟨a, same, rfl⟩ := this
      exact ⟨_, by rw [same]; rfl, rfl⟩
  · exact advance_meets 4 h
  · rename_i h0 h1 h2 h5
    have : Wire.extent w bs = none := by unfold Wire.extent; split <;> simp_all
    rw [this]
    exact ⟨_, rfl⟩

/-! ### Inside one field -/

/-- The cursor has read the tag of `f`, a field that starts at `p`. -/
structure Inside (c : WireCursor) (p : Nat) (f : Field) (rest : Bytes) : Prop where
  wellFormed : f.WellFormed
  pos : c.pos = p + f.tagBytes.length
  sees : Sees c (f.lenBytes ++ f.body ++ rest)

variable {p : Nat} {f : Field} {rest : Bytes}

theorem Inside.payload (h : Inside c p f rest) : (payload (p, f)).In c.buf := by
  have := h.sees.here.left.right
  rwa [h.pos, Nat.add_assoc, ← List.length_append] at this

theorem Inside.start_le (h : Inside c p f rest) : p ≤ c.buf.length := by
  have := h.sees.here.length
  have := h.pos
  omega

theorem Inside.ends (h : Inside c p f rest) :
    c.pos + (f.lenBytes.length + f.body.length) = p + f.size := by
  rw [h.pos, Wire.size_eq]
  omega

theorem Inside.lenRange (h : Inside c p f rest) (two : f.wire = 2) :
    c.lenRange = .ok ((Wire.payload (p, f)).range, { c with pos := p + f.size }) := by
  have read := lenRange_meets h.sees
  have extent := h.wellFormed.extent rest
  rw [two] at extent
  rw [extent] at read
  obtain ⟨a, same, rfl⟩ := read
  rw [same, h.ends, h.pos, Text.range, Wire.payload, bodyPos, Field.head, List.length_append]
  simp only [Nat.add_assoc]

theorem Inside.skip (h : Inside c p f rest) : c.skip f.wire = .ok { c with pos := p + f.size } := by
  have read := skip_meets f.wire h.sees
  rw [h.wellFormed.extent rest] at read
  obtain ⟨a, same, rfl⟩ := read
  rw [same, h.ends]

theorem Inside.varint (h : Inside c p f rest) (zero : f.wire = 0) :
    ∃ v n, Wire.varint f.body = some (v, n) ∧ c.varint = .ok (v % 2 ^ 64, { c with pos := p + f.size }) := by
  obtain ⟨bare, v, hv⟩ := h.wellFormed.number zero
  have sees := h.sees
  rw [bare, List.nil_append] at sees
  have read := varint_meets sees
  have whole := varint_append hv rest
  rw [List.take_length] at whole
  rw [whole] at read
  obtain ⟨a, same, rfl⟩ := read
  refine ⟨v, _, hv, ?_⟩
  rw [same, ← h.ends, bare]
  simp only [List.length_nil, Nat.zero_add]

theorem skip_fails {w : Nat} (h : Sees c bs) (none : Wire.extent w bs = none) : Fails (c.skip w) := by
  have := skip_meets w h
  rwa [none] at this

theorem lenRange_fails {w : Nat} (h : Sees c bs) (none : Wire.extent w bs = none) (two : w = 2) :
    Fails c.lenRange := by
  subst two
  have := lenRange_meets h
  rwa [none] at this

theorem varint_fails {w : Nat} (h : Sees c bs) (none : Wire.extent w bs = none) (zero : w = 0) :
    Fails c.varint := by
  subst zero
  have := varint_meets h
  rwa [Option.map_eq_none_iff.mp none] at this

theorem done_eq (h : Sees c bs) : c.done = bs.isEmpty := by
  rw [done, h.stop]
  cases bs with
  | nil => simp
  | cons b bs => simp

theorem tag_field (h : Sees c bs) (hx : next bs = some (f, rest)) :
    c.tag = .ok ((f.number % 2 ^ 32, f.wire), { c with pos := c.pos + f.tagBytes.length }) ∧
      Inside { c with pos := c.pos + f.tagBytes.length } c.pos f rest ∧
      Sees { c with pos := c.pos + f.size } rest := by
  have shape := next_bytes hx
  have good := next_wellFormed hx
  have layout : bs = f.tagBytes ++ (f.lenBytes ++ f.body ++ rest) := by
    rw [shape]; simp only [Field.bytes, Field.head, List.append_assoc]
  have read := tag_meets h
  rw [show Wire.varint bs = some (f.tag, f.tagBytes.length) by rw [layout]; exact good.varint _] at read
  obtain ⟨a, same, rfl⟩ := read
  refine ⟨same, ⟨good, rfl, ?_⟩, ?_⟩
  · have := h.drop (n := f.tagBytes.length) (by rw [layout]; simp)
    rwa [layout, List.drop_left] at this
  · have := h.drop (n := f.size) (by rw [shape, List.length_append]; exact Nat.le_add_right _ _)
    rwa [shape, Field.size, List.drop_left] at this

/-- Where no field stands, the tag or what it asks for is missing. -/
theorem tag_stuck (h : Sees c bs) (hx : next bs = none) :
    Fails c.tag ∨ ∃ n w c' bs', c.tag = .ok ((n, w), c') ∧ Sees c' bs' ∧ Wire.extent w bs' = none := by
  have read := tag_meets h
  rw [next] at hx
  cases hv : Wire.varint bs with
  | none => rw [hv] at read; exact .inl read
  | some t =>
    rw [hv] at read hx
    obtain ⟨a, same, rfl⟩ := read
    simp only [Option.bind_some, Option.map_eq_none_iff] at hx
    exact .inr ⟨_, _, _, _, same, h.drop (varint_length hv).2, hx⟩

/-! ### The loop -/

/-- A walker's body follows `step` on fields and fails where there is no field. -/
structure Follows {ε σ β : Type} (R : Nat → β → σ → Prop) (buf : Bytes)
    (body : Nat → Nat → Nat → σ → WireCursor → Run ε (σ × WireCursor))
    (step : β → Nat × Field → Option β) : Prop where
  field : ∀ {p f rest c b s}, c.buf = buf → Inside c p f rest → R p b s →
    Meets (fun b' r => R (p + f.size) b' r.1 ∧ r.2 = { c with pos := p + f.size })
      (body p (f.number % 2 ^ 32) f.wire s c) (step b (p, f))
  stuck : ∀ {p n w bs c s}, Sees c bs → Wire.extent w bs = none → Fails (body p n w s c)

theorem whileFields_meets {ε σ β : Type} {R : Nat → β → σ → Prop} {buf : Bytes} (wrap : ParseError → ε)
    {body : Nat → Nat → Nat → σ → WireCursor → Run ε (σ × WireCursor)}
    {step : β → Nat × Field → Option β} (follows : Follows R buf body step)
    (n : Nat) (bs : Bytes) (hn : bs.length ≤ n) {c : WireCursor} {b : β} {s : σ}
    (same : c.buf = buf) (sees : Sees c bs) (related : R c.pos b s) :
    Meets (fun b' s' => R (c.pos + bs.length) b' s') (whileFields wrap body n s c)
      (readFields step ⟨c.pos, bs⟩ b) := by
  induction bs using scan_induction generalizing n c b s with
  | nil =>
    have ends : whileFields wrap body n s c = .ok s := by
      cases n <;> simp only [whileFields, done_eq sees, List.isEmpty_nil, ↓reduceIte]
    rw [ends]
    exact meets_ok related
  | stop bs nonempty stuck =>
    have long := List.length_pos_iff.mpr nonempty
    obtain ⟨n, rfl⟩ : ∃ k, n = k + 1 := ⟨n - 1, by omega⟩
    rw [readFields_none nonempty stuck]
    simp only [whileFields, done_eq sees, List.isEmpty_iff, nonempty, ↓reduceIte]
    rcases tag_stuck sees stuck with failed | ⟨_, _, _, _, read, after, missing⟩
    · exact Fails.bind (failed.mapErr wrap) _
    · rw [read]
      exact Fails.bind (follows.stuck after missing) _
  | step bs f rest hx ih =>
    have long : bs.length = f.size + rest.length := by rw [next_bytes hx, List.length_append]; rfl
    have nonempty : bs ≠ [] := List.length_pos_iff.mp (by have := next_shorter hx; omega)
    obtain ⟨n, rfl⟩ : ∃ k, n = k + 1 := ⟨n - 1, by have := next_shorter hx; omega⟩
    obtain ⟨read, inside, after⟩ := tag_field sees hx
    rw [readFields_some hx]
    simp only [whileFields, done_eq sees, List.isEmpty_iff, nonempty, ↓reduceIte, read]
    refine (follows.field (c := { c with pos := c.pos + f.tagBytes.length }) same inside related).bind
      fun b' r _ hr => ?_
    obtain ⟨related', here⟩ := hr
    have := ih n (by have := next_shorter hx; omega) (c := { c with pos := c.pos + f.size }) same after related'
    rw [long, ← Nat.add_assoc, here]
    exact this

theorem walk_meets {ε σ β : Type} {R : Nat → β → σ → Prop} {buf : Bytes} (wrap : ParseError → ε)
    {body : Nat → Nat → Nat → σ → WireCursor → Run ε (σ × WireCursor)}
    {step : β → Nat × Field → Option β} (follows : Follows R buf body step)
    {t : Text} (stands : t.In buf) {b : β} {s : σ} (related : R t.pos b s) :
    Meets (fun b' s' => R t.range.stop b' s') (walk wrap body buf t.range s) (readFields step t b) :=
  whileFields_meets wrap follows _ t.bytes (by simp [Text.range]) (c := WireCursor.new buf t.range) rfl
    ⟨stands, rfl⟩ related

end WireCursor

end ArchivAgent
