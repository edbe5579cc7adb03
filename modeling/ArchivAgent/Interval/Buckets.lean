import Mathlib.Algebra.Order.Ring.Nat
import Mathlib.Data.List.Pairwise

/-!
# Lists sorted into buckets

Every element of a list lies in one bucket. Then the buckets have as many elements as the list, and
a relation that holds across buckets holds throughout exactly when it holds in each bucket.
-/

namespace Interval

variable {α γ : Type*} {inside : γ → α → Bool} {bs : List γ} {as : List α}

/-- Every element lies in a bucket and no two buckets share one. -/
structure Sorts (inside : γ → α → Bool) (bs : List γ) (as : List α) : Prop where
  some : ∀ a ∈ as, ∃ b ∈ bs, inside b a
  one : bs.Pairwise fun b b' => ∀ a ∈ as, inside b a → inside b' a → False

theorem Sorts.tail {a : α} (h : Sorts inside bs (a :: as)) : Sorts inside bs as :=
  ⟨fun a' member => h.some a' (List.mem_cons_of_mem a member),
    h.one.imp fun apart a' member => apart a' (List.mem_cons_of_mem a member)⟩

theorem countP_bucket {a : α} (some : ∃ b ∈ bs, inside b a)
    (one : bs.Pairwise fun b b' => inside b a → inside b' a → False) : bs.countP (inside · a) = 1 := by
  induction bs with
  | nil => simp at some
  | cons b bs ih =>
    obtain ⟨first, one⟩ := List.pairwise_cons.mp one
    by_cases here : inside b a
    · have none : bs.countP (inside · a) = 0 := by
        rw [List.countP_eq_zero]
        exact fun b' member there => first b' member here there
      rw [List.countP_cons, if_pos here, none]
    · rw [List.countP_cons, if_neg here, Nat.add_zero]
      obtain ⟨b', member, there⟩ := some
      rcases List.mem_cons.mp member with rfl | later
      · exact absurd there here
      · exact ih ⟨b', later, there⟩ one

theorem sum_filter_cons (a : α) (as : List α) (bs : List γ) :
    (bs.map fun b => ((a :: as).filter (inside b)).length).sum
      = bs.countP (inside · a) + (bs.map fun b => (as.filter (inside b)).length).sum := by
  induction bs with
  | nil => rfl
  | cons b bs ih =>
    rw [List.map_cons, List.sum_cons, ih, List.map_cons, List.sum_cons, List.countP_cons, List.filter_cons]
    by_cases here : inside b a
    · rw [if_pos here, if_pos here, List.length_cons]
      omega
    · rw [if_neg here, if_neg here]
      omega

theorem Sorts.sum_length (h : Sorts inside bs as) : (bs.map fun b => (as.filter (inside b)).length).sum = as.length := by
  induction as with
  | nil =>
    clear h
    induction bs with
    | nil => rfl
    | cons b bs ih =>
      rw [List.map_cons, List.sum_cons, ih]
      rfl
  | cons a as ih =>
    rw [sum_filter_cons, ih h.tail, countP_bucket (h.some a List.mem_cons_self)
      (h.one.imp fun apart => apart a List.mem_cons_self), List.length_cons, Nat.add_comm]

/-- What holds across buckets holds throughout when it holds in each. -/
theorem Sorts.pairwise_iff (h : Sorts inside bs as) {R : α → α → Prop} [Std.Symm R]
    (across : bs.Pairwise fun b b' => ∀ a ∈ as, ∀ a' ∈ as, inside b a → inside b' a' → R a a') :
    as.Pairwise R ↔ ∀ b ∈ bs, (as.filter (inside b)).Pairwise R := by
  refine ⟨fun all b _ => all.filter _, fun each => ?_⟩
  rw [List.pairwise_iff_forall_sublist]
  intro a a' pair
  obtain ⟨b, hb, here⟩ := h.some a (pair.subset List.mem_cons_self)
  by_cases same : inside b a'
  · have both := pair.filter (inside b)
    rw [List.filter_cons_of_pos here, List.filter_cons_of_pos same, List.filter_nil] at both
    exact List.pairwise_iff_forall_sublist.mp (each b hb) both
  · obtain ⟨b', hb', there⟩ := h.some a' (pair.subset (List.mem_cons_of_mem a List.mem_cons_self))
    have differ : b ≠ b' := fun same' => same (same' ▸ there)
    have symmetric : Std.Symm fun b b' => ∀ a ∈ as, ∀ a' ∈ as, (inside b a → inside b' a' → R a a') ∧
        (inside b' a → inside b a' → R a a') :=
      ⟨fun b b' both a ha a' ha' => (both a ha a' ha').symm⟩
    have both : bs.Pairwise fun b b' => ∀ a ∈ as, ∀ a' ∈ as, (inside b a → inside b' a' → R a a') ∧
        (inside b' a → inside b a' → R a a') := across.imp fun apart a ha a' ha' =>
      ⟨apart a ha a' ha', fun left right => symm (apart a' ha' a ha right left)⟩
    exact (both.forall hb hb' differ a (pair.subset List.mem_cons_self) a'
      (pair.subset (List.mem_cons_of_mem a List.mem_cons_self))).1 here there

theorem sum_eq_iff {f g : γ → Nat} (le : ∀ b ∈ bs, f b ≤ g b) :
    (bs.map f).sum ≤ (bs.map g).sum ∧ ((bs.map f).sum = (bs.map g).sum ↔ ∀ b ∈ bs, f b = g b) := by
  induction bs with
  | nil => simp
  | cons b bs ih =>
    simp only [List.mem_cons, forall_eq_or_imp] at le ⊢
    obtain ⟨below, same⟩ := ih le.2
    simp only [List.map_cons, List.sum_cons]
    refine ⟨by omega, ?_⟩
    rw [← same]
    omega

end Interval
