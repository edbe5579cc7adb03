import Mathlib.Data.Nat.Digits.Defs
import ArchivAgent.Wire.Varint

/-!
# File names of the spool

`src/spool.rs`. A published payload is `<20 digits>.otlp`, one being written has `.tmp` after
that. `parseSeq` takes exactly the names of published payloads apart.
-/

namespace ArchivAgent
open Wire (Bytes)

/-- The last `width` decimal digits, the lowest first. -/
def lowDigits : Nat → Nat → List Nat
  | 0, _ => []
  | width + 1, n => n % 10 :: lowDigits width (n / 10)

theorem lowDigits_length (width n : Nat) : (lowDigits width n).length = width := by
  induction width generalizing n with
  | zero => rfl
  | succ width ih => rw [lowDigits, List.length_cons, ih]

theorem lowDigits_lt (width n : Nat) : ∀ d ∈ lowDigits width n, d < 10 := by
  induction width generalizing n with
  | zero => simp [lowDigits]
  | succ width ih =>
    simp only [lowDigits, List.mem_cons, forall_eq_or_imp]
    exact ⟨Nat.mod_lt n (by decide), ih (n / 10)⟩

theorem ofDigits_lowDigits (width n : Nat) : Nat.ofDigits 10 (lowDigits width n) = n % 10 ^ width := by
  induction width generalizing n with
  | zero => simp [lowDigits, Nat.mod_one]
  | succ width ih =>
    rw [lowDigits, Nat.ofDigits_cons, ih, Nat.pow_succ', Nat.mod_mul]

theorem lowDigits_ofDigits {ds : List Nat} (small : ∀ d ∈ ds, d < 10) :
    lowDigits ds.length (Nat.ofDigits 10 ds) = ds := by
  induction ds with
  | nil => rfl
  | cons d ds ih =>
    simp only [List.mem_cons, forall_eq_or_imp] at small
    rw [List.length_cons, lowDigits, Nat.ofDigits_cons]
    have low : ((d : Nat) + 10 * Nat.ofDigits 10 ds) % 10 = d := by omega
    have high : ((d : Nat) + 10 * Nat.ofDigits 10 ds) / 10 = Nat.ofDigits 10 ds := by omega
    simp only [low, high, ih small.2]

def digit (d : Nat) : UInt8 := UInt8.ofNat (48 + d)

def isDigit (b : UInt8) : Bool := 48 ≤ b.toNat && b.toNat ≤ 57

theorem digit_toNat {d : Nat} (small : d < 10) : (digit d).toNat = 48 + d := by
  rw [digit, UInt8.toNat_ofNat']
  omega

theorem digit_of_isDigit {b : UInt8} (h : isDigit b = true) : digit (b.toNat - 48) = b := by
  simp only [isDigit, Bool.and_eq_true, decide_eq_true_eq] at h
  apply UInt8.toNat_inj.mp
  rw [digit_toNat (by omega)]
  omega

namespace Spool

/-- `{seq:020}` -/
def seqDigits (seq : Nat) : Bytes := ((lowDigits 20 seq).map digit).reverse

def otlpSuffix : Bytes := [46, 111, 116, 108, 112]

def tmpSuffix : Bytes := [46, 116, 109, 112]

def otlpName (seq : Nat) : Bytes := seqDigits seq ++ otlpSuffix

def tmpName (seq : Nat) : Bytes := otlpName seq ++ tmpSuffix

/-- `str::parse::<u64>` on decimal digits. -/
def parseDigits (stem : Bytes) : Option Nat :=
  let n := Nat.ofDigits 10 (stem.reverse.map fun b => b.toNat - 48)
  if n < 2 ^ 64 then some n else none

def parseSeq (name : Bytes) : Option Nat :=
  if otlpSuffix <:+ name then
    let stem := name.take (name.length - otlpSuffix.length)
    if stem.length = 20 ∧ stem.all isDigit then parseDigits stem else none
  else none

theorem seqDigits_length (seq : Nat) : (seqDigits seq).length = 20 := by
  rw [seqDigits, List.length_reverse, List.length_map, lowDigits_length]

theorem seqDigits_all (seq : Nat) : (seqDigits seq).all isDigit = true := by
  simp only [seqDigits, List.all_reverse, List.all_map, List.all_eq_true, Function.comp_apply]
  intro d member
  have small := lowDigits_lt 20 seq d member
  simp only [isDigit, digit_toNat small, Bool.and_eq_true, decide_eq_true_eq]
  omega

theorem seqDigits_value {seq : Nat} (small : seq < 2 ^ 64) : parseDigits (seqDigits seq) = some seq := by
  have values : ((lowDigits 20 seq).map digit).map (fun b => b.toNat - 48) = lowDigits 20 seq := by
    rw [List.map_map]
    refine (List.map_congr_left fun d member => ?_).trans (List.map_id _)
    simp only [Function.comp_apply, digit_toNat (lowDigits_lt 20 seq d member), id]
    omega
  have whole : seq % 10 ^ 20 = seq := Nat.mod_eq_of_lt (by omega)
  simp only [parseDigits, seqDigits, List.reverse_reverse, values, ofDigits_lowDigits, whole, if_pos small]

/-- A name parses as a sequence number exactly when it is the name of that number's file. -/
theorem parseSeq_iff {name : Bytes} {seq : Nat} : parseSeq name = some seq ↔ seq < 2 ^ 64 ∧ name = otlpName seq := by
  constructor
  · intro parsed
    rw [parseSeq] at parsed
    split at parsed
    · rename_i suffixed
      obtain ⟨stem, rfl⟩ := suffixed
      have cut : (stem ++ otlpSuffix).take ((stem ++ otlpSuffix).length - otlpSuffix.length) = stem := by
        rw [List.length_append, Nat.add_sub_cancel, List.take_left]
      simp only [cut] at parsed
      split at parsed
      · rename_i good
        obtain ⟨long, digits⟩ := good
        rw [parseDigits] at parsed
        split at parsed <;> cases parsed
        rename_i small
        refine ⟨small, ?_⟩
        rw [otlpName, seqDigits]
        rw [List.all_eq_true] at digits
        have values : ∀ d ∈ stem.reverse.map (fun b => b.toNat - 48), d < 10 := by
          intro d member
          obtain ⟨b, inside, rfl⟩ := List.mem_map.mp member
          have := digits b (List.mem_reverse.mp inside)
          simp only [isDigit, Bool.and_eq_true, decide_eq_true_eq] at this
          omega
        have back := lowDigits_ofDigits values
        rw [List.length_map, List.length_reverse, long] at back
        have bytes : (stem.reverse.map fun b => b.toNat - 48).map digit = stem.reverse := by
          rw [List.map_map]
          refine (List.map_congr_left fun b member => ?_).trans (List.map_id _)
          exact digit_of_isDigit (digits b (List.mem_reverse.mp member))
        rw [back, bytes, List.reverse_reverse]
      · cases parsed
    · cases parsed
  · rintro ⟨small, rfl⟩
    have cut : (otlpName seq).take ((otlpName seq).length - otlpSuffix.length) = seqDigits seq := by
      rw [otlpName, List.length_append, Nat.add_sub_cancel, List.take_left]
    rw [parseSeq, if_pos ⟨_, rfl⟩]
    simp only [cut]
    rw [if_pos ⟨seqDigits_length seq, seqDigits_all seq⟩, seqDigits_value small]

theorem otlpName_injective {m n : Nat} (hm : m < 2 ^ 64) (hn : n < 2 ^ 64) (same : otlpName m = otlpName n) : m = n := by
  have := parseSeq_iff.mpr ⟨hm, rfl⟩
  rw [same, parseSeq_iff.mpr ⟨hn, rfl⟩] at this
  exact (Option.some.inj this).symm

theorem tmpName_injective {m n : Nat} (hm : m < 2 ^ 64) (hn : n < 2 ^ 64) (same : tmpName m = tmpName n) : m = n :=
  otlpName_injective hm hn (List.append_cancel_right same)

theorem tmpName_suffix (seq : Nat) : tmpSuffix <:+ tmpName seq := ⟨_, rfl⟩

theorem otlpName_not_tmp (seq : Nat) : ¬ tmpSuffix <:+ otlpName seq := by
  intro suffixed
  have otlp : otlpSuffix <:+ otlpName seq := ⟨_, rfl⟩
  have inside := List.suffix_of_suffix_length_le suffixed otlp (by decide)
  revert inside
  decide

theorem tmpName_ne_otlpName (m n : Nat) : tmpName m ≠ otlpName n :=
  fun same => otlpName_not_tmp n (same ▸ tmpName_suffix m)

end Spool

end ArchivAgent
