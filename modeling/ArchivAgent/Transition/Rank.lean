import Mathlib.Algebra.Order.Ring.Nat
import ArchivAgent.Transition.Run

/-!
# Ranks and potentials

How long a run can put a goal off, and how fast it can go: a rank that the counted steps lower
until the goal is there, and a potential that every step raises by its weight.
-/

namespace Transition

variable {σ ε : Type} {step : σ → ε → Option σ} {s s' : σ} {es : List ε}

/-- A run with more counted steps than the rank it starts with has reached the goal. -/
theorem run_reaches (Inv Goal : σ → Prop) (rank : σ → Nat) (counts : ε → Bool) (h : run step s es = some s')
    (stays : ∀ s e s', step s e = some s' → Goal s → Goal s')
    (each : ∀ e ∈ es, ∀ s s', step s e = some s' → Inv s → ¬ Goal s →
      Goal s' ∨ (Inv s' ∧ rank s' + (if counts e then 1 else 0) ≤ rank s))
    (start : Inv s) (enough : rank s < es.countP counts) : Goal s' := by
  induction es generalizing s with
  | nil => cases enough
  | cons e es ih =>
    obtain ⟨mid, one, rest⟩ := run_cons_some.mp h
    have later : Goal mid → Goal s' := fun goal =>
      run_invariant Goal rest (fun e _ s s' one held => stays s e s' one held) goal
    simp only [List.mem_cons, forall_eq_or_imp] at each
    by_cases goal : Goal s
    · exact later (stays s e mid one goal)
    · rcases each.1 s mid one start goal with reached | ⟨inv, lower⟩
      · exact later reached
      · refine ih rest each.2 inv ?_
        rw [List.countP_cons] at enough
        omega

/-- A potential that every counted step raises by a unit, and none lowers, has gained all of them. -/
theorem run_gains (Inv : σ → Prop) (potential : σ → Nat) (counts : ε → Bool) (unit : Nat) (h : run step s es = some s')
    (each : ∀ e ∈ es, ∀ s s', step s e = some s' → Inv s →
      Inv s' ∧ potential s + (if counts e then unit else 0) ≤ potential s')
    (start : Inv s) : potential s + unit * es.countP counts ≤ potential s' := by
  induction es generalizing s with
  | nil => cases h; exact Nat.le_refl _
  | cons e es ih =>
    obtain ⟨mid, one, rest⟩ := run_cons_some.mp h
    simp only [List.mem_cons, forall_eq_or_imp] at each
    obtain ⟨inv, gained⟩ := each.1 s mid one start
    have after := ih rest each.2 inv
    rw [List.countP_cons, Nat.mul_add]
    split at gained
    · rw [if_pos ‹_›, Nat.mul_one]
      omega
    · rw [if_neg ‹_›, Nat.mul_zero]
      omega

/-- A rank that every counted step lowers by one, and only the paying steps raise, where the steps
meet the condition. -/
theorem along_spends (Inv : σ → Prop) (rank : σ → Nat) (counts pays : ε → Bool) (pay : Nat) {cond : σ → ε → Prop}
    (h : run step s es = some s') (met : Along step cond s es)
    (each : ∀ s e s', step s e = some s' → cond s e → Inv s →
      Inv s' ∧ rank s' + (if counts e then 1 else 0) ≤ rank s + (if pays e then pay else 0))
    (start : Inv s) : rank s' + es.countP counts ≤ rank s + pay * es.countP pays := by
  induction es generalizing s with
  | nil => cases h; exact Nat.le_refl _
  | cons e es ih =>
    obtain ⟨mid, one, rest⟩ := run_cons_some.mp h
    obtain ⟨inv, lower⟩ := each s e mid one met.1 start
    have after := ih rest (met.2 mid one) inv
    have price : pay * (if pays e = true then 1 else 0) = if pays e = true then pay else 0 := by
      split
      · exact Nat.mul_one pay
      · exact Nat.mul_zero pay
    rw [List.countP_cons, List.countP_cons, Nat.mul_add, price]
    omega

/-- A number that only the counted steps raise, each by one. -/
theorem run_counts (number : σ → Nat) (counts : ε → Bool) (h : run step s es = some s')
    (each : ∀ e ∈ es, ∀ s s', step s e = some s' → number s' = number s + if counts e then 1 else 0) :
    number s' = number s + es.countP counts := by
  induction es generalizing s with
  | nil => cases h; rfl
  | cons e es ih =>
    obtain ⟨mid, one, rest⟩ := run_cons_some.mp h
    simp only [List.mem_cons, forall_eq_or_imp] at each
    rw [ih rest each.2, each.1 s mid one, List.countP_cons]
    omega

end Transition
