import Mathlib.Data.List.Forall2

/-!
# Reordering that keeps each kind in order

The elements of a list have keys. A list is reordered when its elements are permuted and those
under one key stay in their order. What is read of the elements under one key is then the same.
-/

namespace Stable

variable {α β κ : Type} [DecidableEq κ]

/-- The elements are permuted, and those under one key stay in their order. -/
def Reordered (key : α → κ) (xs ys : List α) : Prop :=
  xs.Perm ys ∧ ∀ k, xs.filter (fun x => key x = k) = ys.filter (fun x => key x = k)

/-- The elements are replaced by related ones, and then reordered. -/
def Matched (R : α → α → Prop) (key : α → κ) (xs ys : List α) : Prop :=
  ∃ mid, List.Forall₂ R xs mid ∧ Reordered key mid ys

variable {R : α → α → Prop} {key : α → κ} {xs ys : List α} {g : α → Option β} {k : κ}

theorem Reordered.refl (key : α → κ) (xs : List α) : Reordered key xs xs := ⟨.refl xs, fun _ => rfl⟩

theorem Reordered.swap {x y : α} (differ : key x ≠ key y) (zs : List α) :
    Reordered key (x :: y :: zs) (y :: x :: zs) := by
  refine ⟨.swap y x zs, fun k => ?_⟩
  by_cases first : key x = k
  · have second : key y ≠ k := fun same => differ (first.trans same.symm)
    simp [first, second]
  · simp [first, List.filter_cons]

theorem Reordered.filterMap (h : Reordered key xs ys) (only : ∀ x, (g x).isSome → key x = k) :
    xs.filterMap g = ys.filterMap g := by
  have under : ∀ zs : List α, zs.filterMap g = (zs.filter fun x => key x = k).filterMap g := by
    intro zs
    rw [List.filterMap_filter]
    refine congrArg (List.filterMap · zs) (funext fun x => ?_)
    by_cases here : key x = k
    · simp [here]
    · have none : g x = none := by simpa using mt (only x) here
      simp [here, none]
  rw [under xs, under ys, h.2 k]

theorem Matched.same (key : α → κ) (h : List.Forall₂ R xs ys) : Matched R key xs ys := ⟨ys, h, .refl key ys⟩

theorem Matched.swap {x y x' y' : α} (first : R x x') (second : R y y') (differ : key x' ≠ key y')
    (h : List.Forall₂ R xs ys) : Matched R key (x :: y :: xs) (y' :: x' :: ys) :=
  ⟨x' :: y' :: ys, .cons first (.cons second h), .swap differ ys⟩

/-- What is read under one key, and reads related elements alike, is one in matched lists. -/
theorem Matched.filterMap (h : Matched R key xs ys) (alike : ∀ x ∈ xs, ∀ y ∈ ys, R x y → g x = g y)
    (only : ∀ x, (g x).isSome → key x = k) : xs.filterMap g = ys.filterMap g := by
  obtain ⟨mid, replaced, reordered⟩ := h
  rw [← reordered.filterMap only]
  have inside : ∀ y ∈ mid, y ∈ ys := fun y => reordered.1.mem_iff.mp
  clear reordered
  induction replaced with
  | nil => rfl
  | cons related _ ih =>
    simp only [List.mem_cons, forall_eq_or_imp] at alike inside
    rw [List.filterMap_cons, List.filterMap_cons, alike.1 _ inside.1 related, ih alike.2 inside.2]

end Stable
