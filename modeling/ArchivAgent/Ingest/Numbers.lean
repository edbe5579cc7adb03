import ArchivAgent.Ingest.Cursor

/-!
# Numbers the cursor cuts

The tenth group of a number has one bit of a `u64`, and a field number is cut to a `u32`. What the
bytes encode is measured on the bytes themselves, over as many groups as the number takes.
-/

namespace ArchivAgent
open Wire

/-- The number at the front of the bytes is below the bound, if it ends within ten bytes. -/
def Below (bound : Nat) (bs : Bytes) : Prop := ∀ r ∈ numeral bs, r.2 ≤ 10 → r.1 < bound

instance (bound : Nat) (bs : Bytes) : Decidable (Below bound bs) := inferInstanceAs (Decidable (∀ r ∈ _, _ → _))

namespace WireCursor

/-- `varint` returns the number at the cursor, and an error where it is no `u64`. -/
def VarintExact (c : WireCursor) (bs : Bytes) : Prop :=
  (∀ v c', c.varint = .ok (v, c') → v < 2 ^ 64 ∧ ∃ k, numeral bs = some (v, k) ∧ c' = { c with pos := c.pos + k }) ∧
    ∀ v k, numeral bs = some (v, k) → 2 ^ 64 ≤ v → Fails c.varint

/-- `tag` returns the two parts of the number at the cursor. -/
def TagExact (c : WireCursor) (bs : Bytes) : Prop :=
  ∀ field wire c', c.tag = .ok ((field, wire), c') →
    ∃ k, numeral bs = some (8 * field + wire, k) ∧ c' = { c with pos := c.pos + k }

/-- `len_range` returns as many bytes as the number at the cursor says. -/
def LengthExact (c : WireCursor) (bs : Bytes) : Prop :=
  ∀ r c', c.lenRange = .ok (r, c') →
    ∃ k, numeral bs = some (r.len, k) ∧ r.start = c.pos + k ∧ c' = { c with pos := r.stop }

variable {c : WireCursor} {bs : Bytes}

theorem below_iff {bound : Nat} : Below bound bs ↔ ∀ r ∈ Wire.varint bs, r.1 < bound := by
  constructor
  · intro below r read
    obtain ⟨whole, room⟩ := groups_iff.mp read
    exact below r whole room
  · intro below r whole room
    exact below r (groups_iff.mpr ⟨whole, room⟩)

theorem meets_number {β : Type} {R : Nat × Nat → β → Prop} {x : Run ParseError β} (read : Meets R x (Wire.varint bs)) :
    (Fails x ∧ ∀ bound, Below bound bs) ∨
      ∃ v k a, x = .ok a ∧ R (v, k) a ∧ numeral bs = some (v, k) ∧ ∀ bound, Below bound bs ↔ v < bound := by
  cases number : Wire.varint bs with
  | none =>
    rw [number] at read
    exact .inl ⟨read, fun bound => below_iff.mpr (by simp [number])⟩
  | some r =>
    obtain ⟨v, k⟩ := r
    rw [number] at read
    obtain ⟨a, ran, related⟩ := read
    exact .inr ⟨v, k, a, ran, related, (groups_iff.mp number).1, fun bound => below_iff.trans (by simp [number])⟩

theorem varintExact_iff (sees : Sees c bs) : VarintExact c bs ↔ Below (2 ^ 64) bs := by
  rcases meets_number (varint_meets sees) with ⟨⟨e, failed⟩, below⟩ | ⟨v, k, _, ran, rfl, whole, below⟩
  · refine iff_of_true ⟨fun v c' ran => ?_, fun _ _ _ _ => ⟨e, failed⟩⟩ (below _)
    cases failed.symm.trans ran
  · rw [below]
    constructor
    · rintro ⟨exact, -⟩
      obtain ⟨fits, k', same, -⟩ := exact _ _ ran
      have := congrArg Prod.fst (Option.some.inj (whole.symm.trans same))
      simp only at this
      omega
    · intro fits
      rw [Nat.mod_eq_of_lt fits] at ran
      refine ⟨fun v' c' ran' => ?_, fun v' k' same large => ?_⟩
      · cases ran.symm.trans ran'
        exact ⟨fits, k, whole, rfl⟩
      · cases whole.symm.trans same
        omega

theorem tagExact_iff (sees : Sees c bs) : TagExact c bs ↔ Below (2 ^ 35) bs := by
  rcases meets_number (tag_meets sees) with ⟨⟨e, failed⟩, below⟩ | ⟨v, k, _, ran, rfl, whole, below⟩
  · refine iff_of_true (fun field wire c' ran => ?_) (below _)
    cases failed.symm.trans ran
  · rw [below]
    constructor
    · intro exact
      obtain ⟨k', same, -⟩ := exact _ _ _ ran
      have cut := Nat.mod_lt (v / 8) (show 0 < 2 ^ 32 by decide)
      have := congrArg Prod.fst (Option.some.inj (whole.symm.trans same))
      simp only at this
      omega
    · intro fits field wire c' ran'
      cases ran.symm.trans ran'
      refine ⟨k, ?_, rfl⟩
      rw [whole, Nat.mod_eq_of_lt (by omega), Nat.div_add_mod]

/-- A length that is cut is still refused where what is left of it does not fit. -/
theorem lengthExact_iff (sees : Sees c bs) : LengthExact c bs ↔
    ∀ r ∈ numeral bs, r.2 ≤ 10 → r.2 + r.1 % 2 ^ 64 ≤ bs.length → r.1 < 2 ^ 64 := by
  have read := lenRange_meets sees
  rw [extent] at read
  constructor
  · rintro exact ⟨v, k⟩ whole room inside
    rw [show Wire.varint bs = some (v, k) from groups_iff.mpr ⟨whole, room⟩, Option.bind_some, if_pos inside] at read
    obtain ⟨_, ran, rfl⟩ := read
    obtain ⟨k', same, -⟩ := exact _ _ ran
    have cut := Nat.mod_lt v (show 0 < 2 ^ 64 by decide)
    have := congrArg Prod.fst (Option.some.inj (whole.symm.trans same))
    simp only [Range.len] at this
    omega
  · intro fits r c' ran
    obtain ⟨⟨k, n⟩, taken, same⟩ := read.of_ok ran
    obtain ⟨⟨v, k'⟩, number, taken⟩ := Option.bind_eq_some_iff.mp taken
    split at taken
    · rename_i inside
      cases taken
      obtain ⟨whole, room⟩ := groups_iff.mp number
      have small := fits _ whole room inside
      cases same
      simp only at small
      refine ⟨k', ?_, rfl, by simp only [Nat.add_assoc]⟩
      simp only [Range.len]
      rw [whole, Nat.mod_eq_of_lt small, Nat.add_sub_cancel_left]
    · cases taken

end WireCursor

end ArchivAgent
