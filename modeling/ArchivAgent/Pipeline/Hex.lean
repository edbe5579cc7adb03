import ArchivAgent.Pipeline.Envelope

/-!
# Trace ids in hex

Two digits to a byte, of either case. Reading needs nothing but digits, and writing what was read
gives the digits back in lower case.
-/

namespace ArchivAgent
open Wire (Bytes)

/-- `0` to `9`, `a` to `f`, `A` to `F` -/
def HexDigit (b : UInt8) : Prop := 48 ≤ b ∧ b ≤ 57 ∨ 97 ≤ b ∧ b ≤ 102 ∨ 65 ≤ b ∧ b ≤ 70

instance (b : UInt8) : Decidable (HexDigit b) := inferInstanceAs (Decidable (_ ∨ _))

def hexChar (v : UInt8) : UInt8 := if v < 10 then 48 + v else 87 + v

def encodeHex (bs : Bytes) : Bytes := bs.flatMap fun b : UInt8 => [hexChar (b >>> 4), hexChar (b &&& 15)]

def toAsciiLowercase (b : UInt8) : UInt8 := if 65 ≤ b ∧ b ≤ 90 then b + 32 else b

/-! ### Digits -/

theorem nibble_isSome (b : UInt8) : (nibble b).isSome ↔ HexDigit b := by
  unfold nibble HexDigit
  split
  · simp_all
  split
  · simp_all
  split
  · simp_all
  · simp_all

theorem nibble_cases {b v : UInt8} (read : nibble b = some v) :
    48 ≤ b.toNat ∧ b.toNat ≤ 57 ∧ v.toNat = b.toNat - 48 ∨ 97 ≤ b.toNat ∧ b.toNat ≤ 102 ∧ v.toNat = b.toNat - 97 + 10 ∨
      65 ≤ b.toNat ∧ b.toNat ≤ 70 ∧ v.toNat = b.toNat - 65 + 10 := by
  unfold nibble at read
  simp only [UInt8.le_iff_toNat_le, UInt8.reduceToNat] at read
  have bound := b.toNat_lt
  split at read
  · cases read
    rw [UInt8.toNat_sub]
    simp only [UInt8.reduceToNat]
    omega
  split at read
  · cases read
    rw [UInt8.toNat_add, UInt8.toNat_sub]
    simp only [UInt8.reduceToNat]
    omega
  split at read
  · cases read
    rw [UInt8.toNat_add, UInt8.toNat_sub]
    simp only [UInt8.reduceToNat]
    omega
  · cases read

theorem nibble_value (b : UInt8) : ∀ v ∈ nibble b, hexChar v = toAsciiLowercase b ∧ v < 16 := by
  intro v read
  have value := nibble_cases read
  unfold hexChar toAsciiLowercase
  apply And.imp_left UInt8.toNat_inj.mp
  simp only [UInt8.le_iff_toNat_le, UInt8.lt_iff_toNat_lt, UInt8.reduceToNat, apply_ite UInt8.toNat, UInt8.toNat_add]
  split <;> split <;> omega

theorem hexDigit_lowercase (b : UInt8) : HexDigit (toAsciiLowercase b) ↔ HexDigit b := by
  unfold HexDigit toAsciiLowercase
  simp only [UInt8.le_iff_toNat_le, UInt8.reduceToNat, apply_ite UInt8.toNat, UInt8.toNat_add]
  split <;> omega

theorem hexDigit_hexChar {v : UInt8} (small : v < 16) : HexDigit (hexChar v) := by
  unfold HexDigit hexChar
  simp only [UInt8.le_iff_toNat_le, UInt8.lt_iff_toNat_lt, UInt8.reduceToNat, apply_ite UInt8.toNat, UInt8.toNat_add] at small ⊢
  split <;> omega

theorem nibble_hexChar {v : UInt8} (small : v < 16) : nibble (hexChar v) = some v := by
  have each : ∀ n : Fin 16, nibble (hexChar (UInt8.ofNat n)) = some (UInt8.ofNat n) := by decide
  simpa using each ⟨v.toNat, small⟩

/-! ### Halves of a byte -/

theorem toNat_high (b : UInt8) : (b >>> 4).toNat = b.toNat / 16 := by
  rw [UInt8.toNat_shiftRight]
  exact Nat.shiftRight_eq_div_pow _ 4

theorem toNat_low (b : UInt8) : (b &&& 15).toNat = b.toNat % 16 := by
  rw [UInt8.toNat_and]
  exact Nat.and_two_pow_sub_one_eq_mod _ 4

theorem toNat_joined {high low : UInt8} (smallHigh : high < 16) (smallLow : low < 16) :
    ((high <<< 4) ||| low).toNat = 16 * high.toNat + low.toNat := by
  rw [UInt8.lt_iff_toNat_lt] at smallHigh smallLow
  have shifted : (high <<< 4).toNat = high.toNat <<< 4 := by
    rw [UInt8.toNat_shiftLeft]
    show high.toNat <<< 4 % 2 ^ 8 = _
    rw [Nat.shiftLeft_eq]
    simp only [UInt8.reduceToNat] at smallHigh
    omega
  rw [UInt8.toNat_or, shifted, ← Nat.shiftLeft_add_eq_or_of_lt (by simpa using smallLow), Nat.shiftLeft_eq]
  omega

theorem high_lt (b : UInt8) : b >>> 4 < 16 := by
  have bound := b.toNat_lt
  rw [UInt8.lt_iff_toNat_lt, toNat_high]
  simp only [UInt8.reduceToNat]
  omega

theorem low_lt (b : UInt8) : b &&& 15 < 16 := by
  rw [UInt8.lt_iff_toNat_lt, toNat_low]
  exact Nat.mod_lt _ (by decide)

theorem joined_halves (b : UInt8) : ((b >>> 4) <<< 4) ||| (b &&& 15) = b := by
  apply UInt8.toNat_inj.mp
  rw [toNat_joined (high_lt b) (low_lt b), toNat_high, toNat_low]
  omega

theorem halves_nibbles {high low : UInt8} (smallHigh : high < 16) (smallLow : low < 16) :
    ((high <<< 4) ||| low) >>> 4 = high ∧ ((high <<< 4) ||| low) &&& 15 = low := by
  have bound : low.toNat < 16 := UInt8.lt_iff_toNat_lt.mp smallLow
  constructor
  · apply UInt8.toNat_inj.mp
    rw [toNat_high, toNat_joined smallHigh smallLow]
    omega
  · apply UInt8.toNat_inj.mp
    rw [toNat_low, toNat_joined smallHigh smallLow]
    omega

/-! ### Ids -/

theorem encodeHex_cons (b : UInt8) (bs : Bytes) : encodeHex (b :: bs) = hexChar (b >>> 4) :: hexChar (b &&& 15) :: encodeHex bs := rfl

theorem encodeHex_length (bs : Bytes) : (encodeHex bs).length = 2 * bs.length := by
  induction bs with
  | nil => rfl
  | cons b bs ih =>
    rw [encodeHex_cons, List.length_cons, List.length_cons, List.length_cons, ih]
    omega

theorem encodeHex_digits (bs : Bytes) : ∀ b ∈ encodeHex bs, HexDigit b := by
  intro c member
  obtain ⟨b, -, member⟩ := List.mem_flatMap.mp member
  simp only [List.mem_cons, List.not_mem_nil, or_false] at member
  rcases member with rfl | rfl
  · exact hexDigit_hexChar (high_lt b)
  · exact hexDigit_hexChar (low_lt b)

theorem decodeHexPairs_encodeHex (bs : Bytes) : decodeHexPairs (encodeHex bs) = some bs := by
  induction bs with
  | nil => rfl
  | cons b bs ih =>
    rw [encodeHex_cons, decodeHexPairs, nibble_hexChar (high_lt b), nibble_hexChar (low_lt b), ih]
    exact congrArg (fun c => some (c :: bs)) (joined_halves b)

theorem encodeHex_injective {bs bs' : Bytes} (same : encodeHex bs = encodeHex bs') : bs = bs' := by
  have read := decodeHexPairs_encodeHex bs
  rw [same, decodeHexPairs_encodeHex] at read
  exact (Option.some.inj read).symm

theorem decodeHexPairs_isSome {hex : Bytes} (even : hex.length % 2 = 0) :
    (decodeHexPairs hex).isSome ↔ ∀ b ∈ hex, HexDigit b := by
  induction hex using decodeHexPairs.induct with
  | case1 hi lo rest ih =>
    rw [List.length_cons, List.length_cons] at even
    have ih := ih (by omega)
    have high := nibble_isSome hi
    have low := nibble_isSome lo
    rw [decodeHexPairs]
    simp only [List.mem_cons, forall_eq_or_imp, ← ih, ← high, ← low]
    cases nibble hi <;> cases nibble lo <;> cases decodeHexPairs rest <;> simp
  | case2 hex short =>
    match hex with
    | [] => simp [decodeHexPairs]
    | [_] => simp at even
    | hi :: lo :: rest => exact absurd rfl (short hi lo rest)

/-- What is read is written back in lower case. -/
theorem decodeHexPairs_encodes {hex id : Bytes} (even : hex.length % 2 = 0) (read : decodeHexPairs hex = some id) :
    encodeHex id = hex.map toAsciiLowercase := by
  induction hex using decodeHexPairs.induct generalizing id with
  | case1 hi lo rest ih =>
    rw [List.length_cons, List.length_cons] at even
    rw [decodeHexPairs] at read
    obtain ⟨high, first, read⟩ := Option.bind_eq_some_iff.mp read
    obtain ⟨low, second, read⟩ := Option.bind_eq_some_iff.mp read
    obtain ⟨tail, later, read⟩ := Option.bind_eq_some_iff.mp read
    cases read
    obtain ⟨writtenHigh, smallHigh⟩ := nibble_value hi high first
    obtain ⟨writtenLow, smallLow⟩ := nibble_value lo low second
    obtain ⟨upper, lower⟩ := halves_nibbles smallHigh smallLow
    rw [encodeHex_cons, upper, lower, writtenHigh, writtenLow, ih (by omega) later]
    rfl
  | case2 hex short =>
    match hex with
    | [] => cases read; rfl
    | [_] => simp at even
    | hi :: lo :: rest => exact absurd rfl (short hi lo rest)

/-- The bytes of a trace id field that stand for an id: the id itself, or its digits in any case. -/
def Denotes (src id : Bytes) : Prop := id.length = 16 ∧ (src = id ∨ src.map toAsciiLowercase = encodeHex id)

theorem decodeHex16_denotes {src id : Bytes} (sixteen : id.length = 16) (hex : src.map toAsciiLowercase = encodeHex id) :
    src.length = 32 ∧ decodeHex16 src = some id := by
  have length := congrArg List.length hex
  rw [List.length_map, encodeHex_length, sixteen] at length
  refine ⟨length, ?_⟩
  have digits : ∀ b ∈ src, HexDigit b := by
    intro b member
    rw [← hexDigit_lowercase]
    exact encodeHex_digits id _ (hex ▸ List.mem_map_of_mem member)
  obtain ⟨read, decoded⟩ := Option.isSome_iff_exists.mp ((decodeHexPairs_isSome (by omega)).mpr digits)
  have same := decodeHexPairs_encodes (by omega) decoded
  rw [hex] at same
  rw [decodeHex16, if_neg (not_not_intro length), decoded, encodeHex_injective same]

end ArchivAgent
