import ArchivAgent.Interval.FirstWins
import Mathlib.Data.List.Forall2
import Mathlib.Data.List.Sort

/-!
# Sweeps that agree

Two lists that agree element for element stay so when each is sorted by its own order, and when
each is swept from its own start.
-/

namespace Interval

section Sorting
variable {α β : Type*} {R : α → β → Prop} {r : α → α → Prop} {s : β → β → Prop} [DecidableRel r] [DecidableRel s]
  (orders : ∀ a a' b b', R a b → R a' b' → (r a a' ↔ s b b'))
include orders

theorem orderedInsert_related {a : α} {b : β} {as : List α} {bs : List β} (first : R a b) (rest : List.Forall₂ R as bs) :
    List.Forall₂ R (as.orderedInsert r a) (bs.orderedInsert s b) := by
  induction rest with
  | nil => exact .cons first .nil
  | @cons a' b' as bs here later ih =>
    rw [List.orderedInsert, List.orderedInsert]
    by_cases before : r a a'
    · rw [if_pos before, if_pos ((orders a a' b b' first here).mp before)]
      exact .cons first (.cons here later)
    · rw [if_neg before, if_neg fun earlier => before ((orders a a' b b' first here).mpr earlier)]
      exact .cons here ih

theorem insertionSort_related {as : List α} {bs : List β} (related : List.Forall₂ R as bs) :
    List.Forall₂ R (as.insertionSort r) (bs.insertionSort s) := by
  induction related with
  | nil => exact .nil
  | cons first _ ih => exact orderedInsert_related orders first ih

end Sorting

section Sweeping
variable {α β γ δ : Type*} [LinearOrder γ] [LinearOrder δ] {lo hi : α → γ} {lo' hi' : β → δ} {R : α → β → Prop}

/-- The sweeps agree where one span starts before another ends, and where a span starts too early. -/
theorem firstWins_related {c : γ} {c' : δ} {as : List α} {bs : List β} (related : List.Forall₂ R as bs)
    (early : ∀ a b, R a b → (lo a < c ↔ lo' b < c'))
    (meets : ∀ a a' b b', R a b → R a' b' → (lo a' < hi a ↔ lo' b' < hi' b)) :
    List.Forall₂ R (firstWins lo hi c as) (firstWins lo' hi' c' bs) := by
  induction related generalizing c c' with
  | nil => exact .nil
  | @cons a b as bs first _ ih =>
    rw [firstWins, firstWins]
    by_cases before : lo a < c
    · rw [if_pos before, if_pos ((early a b first).mp before)]
      exact ih early
    · rw [if_neg before, if_neg fun earlier => before ((early a b first).mpr earlier)]
      exact .cons first (ih fun a' b' here => meets a a' b b' first here)

end Sweeping

end Interval
