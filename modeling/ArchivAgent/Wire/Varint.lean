import Mathlib.Algebra.Order.Ring.Nat

/-!
# Base-128 numbers

Seven bits to a byte, the least significant group first, with the top bit set on every byte
but the last. Reading keeps the exact value of the groups; `put` writes the shortest form.
-/

namespace Wire

abbrev Bytes := List UInt8

/-- The number at the front of the bytes and how many bytes it takes, within `n` bytes. -/
def groups : Nat → Bytes → Option (Nat × Nat)
  | 0, _ => none
  | _ + 1, [] => none
  | n + 1, b :: bs =>
    if b.toNat < 128 then some (b.toNat, 1)
    else (groups n bs).map fun r => (b.toNat % 128 + 128 * r.1, r.2 + 1)

/-- Ten groups cover a 64-bit number. -/
def varint (bs : Bytes) : Option (Nat × Nat) := groups 10 bs

def putGroups : Nat → Nat → Bytes
  | 0, _ => []
  | n + 1, v =>
    if v < 128 then [UInt8.ofNat v] else UInt8.ofNat (v % 128 + 128) :: putGroups n (v / 128)

/-- The shortest form. A number has fewer groups than its own value, so `v + 1` rounds do. -/
def put (v : Nat) : Bytes := putGroups (v + 1) v

theorem putGroups_enough (n m v : Nat) (hn : v < n) (hm : v < m) : putGroups n v = putGroups m v := by
  induction n generalizing m v with
  | zero => omega
  | succ n ih =>
    obtain ⟨m, rfl⟩ : ∃ k, m = k + 1 := ⟨m - 1, by omega⟩
    simp only [putGroups]
    split
    · rfl
    · rw [ih m (v / 128) (by omega) (by omega)]

theorem put_lt {v : Nat} (h : v < 128) : put v = [UInt8.ofNat v] := by
  simp [put, putGroups, h]

theorem put_ge {v : Nat} (h : 128 ≤ v) : put v = UInt8.ofNat (v % 128 + 128) :: put (v / 128) := by
  rw [put, putGroups, if_neg (by omega), put,
    putGroups_enough v (v / 128 + 1) (v / 128) (by omega) (by omega)]

theorem group_induction {P : Nat → Prop} (small : ∀ v, v < 128 → P v)
    (large : ∀ v, 128 ≤ v → P (v / 128) → P v) (v : Nat) : P v := by
  induction v using Nat.strongRecOn with
  | ind v ih =>
    by_cases h : v < 128
    · exact small v h
    · exact large v (by omega) (ih (v / 128) (by omega))

theorem toNat_low {v : Nat} (h : v < 128) : (UInt8.ofNat v).toNat = v := by
  rw [UInt8.toNat_ofNat']; omega

theorem toNat_more (v : Nat) : (UInt8.ofNat (v % 128 + 128)).toNat = v % 128 + 128 := by
  rw [UInt8.toNat_ofNat']; omega

theorem groups_put (n v : Nat) (rest : Bytes) (h : v < 128 ^ (n + 1)) :
    groups (n + 1) (put v ++ rest) = some (v, (put v).length) := by
  induction v using group_induction generalizing n with
  | small v hv => simp [put_lt hv, groups, toNat_low hv, hv]
  | large v hv ih =>
    obtain ⟨n, rfl⟩ : ∃ k, n = k + 1 := ⟨n - 1, by
      have : n ≠ 0 := by rintro rfl; simp at h; omega
      omega⟩
    have smaller : v / 128 < 128 ^ (n + 1) := by
      rw [Nat.div_lt_iff_lt_mul (by decide), ← Nat.pow_succ]; exact h
    rw [put_ge hv, List.cons_append, groups, toNat_more, if_neg (by omega), ih n smaller]
    simp only [Option.map_some, List.length_cons, Option.some.injEq, Prod.mk.injEq, and_true]
    omega

/-- Ten groups hold seventy bits. -/
theorem varint_put (v : Nat) (rest : Bytes) (h : v < 2 ^ 70) :
    varint (put v ++ rest) = some (v, (put v).length) :=
  groups_put 9 v rest (by simpa using h)

theorem put_length (v : Nat) : (put v).length = Nat.log2 v / 7 + 1 := by
  induction v using group_induction with
  | small v hv =>
    have : Nat.log2 v < 7 := by
      by_cases h0 : v = 0
      · subst h0; decide
      · exact (Nat.log2_lt h0).mpr hv
    simp only [put_lt hv, List.length_singleton]
    omega
  | large v hv ih =>
    have shift : Nat.log2 v = Nat.log2 (v / 128) + 7 := by
      have h0 : v / 128 ≠ 0 := by omega
      have low : Nat.log2 (v / 128) + 7 ≤ Nat.log2 v := by
        have := (Nat.le_log2 h0).mp (Nat.le_refl (Nat.log2 (v / 128)))
        rw [Nat.le_log2 (by omega), Nat.pow_add]
        omega
      have high : Nat.log2 v < Nat.log2 (v / 128) + 8 := by
        have := (Nat.log2_lt h0).mp (Nat.lt_succ_self (Nat.log2 (v / 128)))
        rw [Nat.log2_lt (by omega), show Nat.log2 (v / 128) + 8 = (Nat.log2 (v / 128)).succ + 7 by omega, Nat.pow_add]
        omega
      omega
    rw [put_ge hv, List.length_cons, ih, shift]
    omega

theorem groups_length {n k v : Nat} {bs : Bytes} (h : groups n bs = some (v, k)) :
    0 < k ∧ k ≤ bs.length := by
  induction n generalizing bs v k with
  | zero => simp [groups] at h
  | succ n ih =>
    cases bs with
    | nil => simp [groups] at h
    | cons b bs =>
      rw [groups] at h
      split at h
      · cases h; simp
      · obtain ⟨⟨w, j⟩, hr, he⟩ := Option.map_eq_some_iff.mp h
        cases he
        have := ih hr
        simp only [List.length_cons]
        omega

theorem groups_append {n k v : Nat} {bs : Bytes} (h : groups n bs = some (v, k)) (rest : Bytes) :
    groups n (bs.take k ++ rest) = some (v, k) := by
  induction n generalizing bs v k with
  | zero => simp [groups] at h
  | succ n ih =>
    cases bs with
    | nil => simp [groups] at h
    | cons b bs =>
      rw [groups] at h
      split at h
      · rename_i hb
        cases h; simp [groups, hb]
      · rename_i hb
        obtain ⟨⟨w, j⟩, hr, he⟩ := Option.map_eq_some_iff.mp h
        cases he
        simp [groups, hb, ih hr]

theorem groups_lt {n k v : Nat} {bs : Bytes} (h : groups n bs = some (v, k)) : v < 128 ^ k := by
  induction n generalizing bs v k with
  | zero => simp [groups] at h
  | succ n ih =>
    cases bs with
    | nil => simp [groups] at h
    | cons b bs =>
      rw [groups] at h
      split at h
      · rename_i single
        cases h
        simpa using single
      · obtain ⟨⟨w, j⟩, more, same⟩ := Option.map_eq_some_iff.mp h
        cases same
        have := ih more
        have := Nat.mod_lt b.toNat (by decide : 128 > 0)
        simp only [Nat.pow_succ]
        omega

theorem put_length_le {k v : Nat} (positive : 0 < k) (below : v < 128 ^ k) : (put v).length ≤ k := by
  rw [put_length]
  rcases Nat.eq_zero_or_pos v with rfl | some
  · exact positive
  · have bits : v < 2 ^ (7 * k) := by rwa [Nat.pow_mul]
    have := (Nat.log2_lt (by omega)).mpr bits
    omega

theorem put_mono {v w : Nat} (h : v ≤ w) : (put v).length ≤ (put w).length := by
  rw [put_length w]
  refine put_length_le (Nat.succ_pos _) (Nat.lt_of_le_of_lt h ?_)
  have bits := Nat.lt_log2_self (n := w)
  refine Nat.lt_of_lt_of_le bits ?_
  rw [show (128 : Nat) = 2 ^ 7 by rfl, ← Nat.pow_mul]
  exact Nat.pow_le_pow_right (by decide) (by omega)

theorem varint_length {k v : Nat} {bs : Bytes} (h : varint bs = some (v, k)) : 0 < k ∧ k ≤ bs.length :=
  groups_length h

/-- No form of a number is shorter than the one that is written. -/
theorem put_shortest {k v : Nat} {bs : Bytes} (h : varint bs = some (v, k)) : (put v).length ≤ k :=
  put_length_le (varint_length h).1 (groups_lt h)

theorem varint_append {k v : Nat} {bs : Bytes} (h : varint bs = some (v, k)) (rest : Bytes) :
    varint (bs.take k ++ rest) = some (v, k) :=
  groups_append h rest

/-! ### Numbers of any length -/

/-- The number at the front of the bytes, over as many groups as it takes. -/
def numeral (bs : Bytes) : Option (Nat × Nat) := groups bs.length bs

theorem groups_bound {n k v : Nat} {bs : Bytes} (h : groups n bs = some (v, k)) : k ≤ n := by
  induction n generalizing bs v k with
  | zero => simp [groups] at h
  | succ n ih =>
    cases bs with
    | nil => simp [groups] at h
    | cons b bs =>
      rw [groups] at h
      split at h
      · cases h; omega
      · obtain ⟨⟨w, j⟩, read, same⟩ := Option.map_eq_some_iff.mp h
        cases same
        have := ih read
        omega

theorem groups_within {n m k v : Nat} {bs : Bytes} (h : groups n bs = some (v, k)) (room : k ≤ m) :
    groups m bs = some (v, k) := by
  induction n generalizing m bs v k with
  | zero => simp [groups] at h
  | succ n ih =>
    cases bs with
    | nil => simp [groups] at h
    | cons b bs =>
      rw [groups] at h
      split at h
      · rename_i last
        cases h
        obtain ⟨m, rfl⟩ : ∃ j, m = j + 1 := ⟨m - 1, by omega⟩
        rw [groups, if_pos last]
      · rename_i more
        obtain ⟨⟨w, j⟩, read, same⟩ := Option.map_eq_some_iff.mp h
        cases same
        obtain ⟨m, rfl⟩ : ∃ j, m = j + 1 := ⟨m - 1, by omega⟩
        rw [groups, if_neg more, ih read (by omega)]
        rfl

/-- What is read within `n` bytes is the number, where it ends within `n` bytes. -/
theorem groups_iff {n k v : Nat} {bs : Bytes} : groups n bs = some (v, k) ↔ numeral bs = some (v, k) ∧ k ≤ n :=
  ⟨fun read => ⟨groups_within read (groups_length read).2, groups_bound read⟩,
    fun ⟨whole, room⟩ => groups_within whole room⟩

end Wire
