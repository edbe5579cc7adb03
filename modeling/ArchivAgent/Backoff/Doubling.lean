import Mathlib.Algebra.Order.Ring.Nat
import Mathlib.Tactic.Ring

/-!
# Doubling delays

A delay that doubles at every try until it reaches its cap. However many tries there are, their
delays fall short of the cap by no more than the first few do.
-/

namespace Backoff

variable {base cap k n : Nat}

def delay (base cap k : Nat) : Nat := min (base * 2 ^ k) cap

theorem delay_zero (small : base ≤ cap) : delay base cap 0 = base := by
  rw [delay, Nat.pow_zero, Nat.mul_one]
  exact Nat.min_eq_left small

theorem delay_le : delay base cap k ≤ cap := Nat.min_le_right _ _

theorem delay_succ : delay base cap (k + 1) = min (delay base cap k * 2) cap := by
  have doubled : base * 2 ^ (k + 1) = base * 2 ^ k * 2 := by ring
  rw [delay, delay, doubled]
  omega

theorem delay_capped (reached : cap ≤ base * 2 ^ n) (later : n ≤ k) : delay base cap k = cap :=
  Nat.min_eq_right (Nat.le_trans reached (Nat.mul_le_mul_left _ (Nat.pow_le_pow_right (by decide) later)))

/-- What the first delays fall short of the cap. -/
def shortfall (base cap : Nat) : Nat → Nat
  | 0 => 0
  | k + 1 => shortfall base cap k + (cap - delay base cap k)

theorem shortfall_succ : shortfall base cap (k + 1) + delay base cap k = shortfall base cap k + cap := by
  have small : delay base cap k ≤ cap := delay_le
  rw [shortfall]
  omega

theorem shortfall_mono (less : k ≤ n) : shortfall base cap k ≤ shortfall base cap n := by
  induction less with
  | refl => exact Nat.le_refl _
  | step _ ih => exact Nat.le_trans ih (Nat.le_add_right _ _)

theorem shortfall_le (reached : cap ≤ base * 2 ^ n) : shortfall base cap k ≤ shortfall base cap n := by
  induction k with
  | zero => exact Nat.zero_le _
  | succ k ih =>
    by_cases later : n ≤ k
    · rw [shortfall, delay_capped reached later, Nat.sub_self]
      exact ih
    · exact shortfall_mono (by omega)

end Backoff
