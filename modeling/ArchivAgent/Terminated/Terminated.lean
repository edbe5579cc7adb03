import Mathlib.Data.List.Basic

/-!
# Terminated strings

Strings written one after the other, each with a terminator behind it. Cut at the terminators, the
text gives the pieces the strings have between theirs, and nothing else: strings without the
terminator are their own pieces.
-/

namespace Terminated

variable {α : Type} {z : α}

def join (z : α) (ls : List (List α)) : List α := ls.flatMap (· ++ [z])

@[simp] theorem join_nil : join z [] = [] := rfl

@[simp] theorem join_cons (l : List α) (ls : List (List α)) : join z (l :: ls) = l ++ z :: join z ls := by
  simp [join]

theorem join_append (ls ms : List (List α)) : join z (ls ++ ms) = join z ls ++ join z ms := List.flatMap_append

theorem mem_join {ls : List (List α)} {a : α} (member : a ∈ join z ls) : (∃ l ∈ ls, a ∈ l) ∨ a = z := by
  obtain ⟨l, inside, member⟩ := List.mem_flatMap.mp member
  rcases List.mem_append.mp member with text | terminator
  · exact Or.inl ⟨l, inside, text⟩
  · exact Or.inr (List.mem_singleton.mp terminator)

/-- What stands before the first terminator, and what behind it. -/
theorem before_inj {a a' b b' : List α} (free : z ∉ a) (free' : z ∉ a') (same : a ++ z :: b = a' ++ z :: b') : a = a' ∧ b = b' := by
  induction a generalizing a' with
  | nil =>
    cases a' with
    | nil => exact ⟨rfl, (List.cons.inj same).2⟩
    | cons x a' =>
      obtain ⟨rfl, -⟩ := List.cons.inj same
      exact absurd List.mem_cons_self free'
  | cons x a ih =>
    cases a' with
    | nil =>
      obtain ⟨rfl, -⟩ := List.cons.inj same
      exact absurd List.mem_cons_self free
    | cons x' a' =>
      obtain ⟨rfl, rest⟩ := List.cons.inj same
      obtain ⟨rfl, behind⟩ := ih (List.not_mem_of_not_mem_cons free) (List.not_mem_of_not_mem_cons free') rest
      exact ⟨rfl, behind⟩

/-- Strings without the terminator can be read back. -/
theorem join_inj {ls ms : List (List α)} (free : ∀ l ∈ ls, z ∉ l) (free' : ∀ m ∈ ms, z ∉ m) (same : join z ls = join z ms) :
    ls = ms := by
  induction ls generalizing ms with
  | nil =>
    cases ms with
    | nil => rfl
    | cons m ms => simp at same
  | cons l ls ih =>
    cases ms with
    | nil => simp at same
    | cons m ms =>
      rw [join_cons, join_cons] at same
      simp only [List.mem_cons, forall_eq_or_imp] at free free'
      obtain ⟨rfl, rest⟩ := before_inj free.1 free'.1 same
      rw [ih free.2 free'.2 rest]

section Cut
variable [DecidableEq α]

/-- The pieces between the terminators. -/
def cut (z : α) : List α → List (List α)
  | [] => [[]]
  | a :: as =>
    if a = z then [] :: cut z as
    else match cut z as with
      | [] => [[a]]
      | l :: ls => (a :: l) :: ls

theorem cut_ne_nil (as : List α) : cut z as ≠ [] := by
  cases as with
  | nil => simp [cut]
  | cons a as =>
    unfold cut
    split
    · simp
    · split <;> simp

theorem join_cut (as : List α) : join z (cut z as) = as ++ [z] := by
  induction as with
  | nil => rfl
  | cons a as ih =>
    unfold cut
    split
    · rename_i here
      rw [join_cons, ih, here]
      rfl
    · split
      · rename_i none
        exact absurd none (cut_ne_nil as)
      · rename_i l ls pieces
        rw [pieces, join_cons] at ih
        rw [join_cons, List.cons_append, ih]
        rfl

theorem cut_free (as : List α) : ∀ l ∈ cut z as, z ∉ l := by
  induction as with
  | nil => simp [cut]
  | cons a as ih =>
    unfold cut
    split
    · simpa using ih
    · rename_i other
      split
      · simpa using fun same => other same.symm
      · rename_i l ls pieces
        rw [pieces] at ih
        simp only [List.mem_cons, forall_eq_or_imp] at ih ⊢
        refine ⟨?_, ih.2⟩
        rintro (here | later)
        · exact other here.symm
        · exact ih.1 later

theorem cut_of_free {as : List α} (free : z ∉ as) : cut z as = [as] := by
  have same : join z (cut z as) = join z [as] := by rw [join_cut, join_cons, join_nil]
  exact join_inj (cut_free as) (by simpa using free) same

/-- Two lists of strings are written the same exactly when they have the same pieces. -/
theorem join_eq_iff {ls ms : List (List α)} : join z ls = join z ms ↔ ls.flatMap (cut z) = ms.flatMap (cut z) := by
  have pieces : ∀ ls : List (List α), join z (ls.flatMap (cut z)) = join z ls := by
    intro ls
    induction ls with
    | nil => rfl
    | cons l ls ih => rw [List.flatMap_cons, join_append, join_cut, ih, join_cons, List.append_assoc]; rfl
  have free : ∀ ls : List (List α), ∀ l ∈ ls.flatMap (cut z), z ∉ l := by
    intro ls l member
    obtain ⟨m, -, member⟩ := List.mem_flatMap.mp member
    exact cut_free m l member
  rw [← pieces ls, ← pieces ms]
  exact ⟨join_inj (free ls) (free ms), congrArg (join z)⟩

theorem map_join_eq_iff {lss mss : List (List (List α))} : lss.map (join z) = mss.map (join z) ↔
    lss.map (·.flatMap (cut z)) = mss.map (·.flatMap (cut z)) := by
  induction lss generalizing mss with
  | nil => cases mss <;> simp
  | cons ls lss ih =>
    cases mss with
    | nil => simp
    | cons ms mss => rw [List.map_cons, List.map_cons, List.map_cons, List.map_cons, List.cons.injEq, List.cons.injEq, join_eq_iff, ih]

theorem flatMap_cut_of_free {ls : List (List α)} (free : ∀ l ∈ ls, z ∉ l) : ls.flatMap (cut z) = ls := by
  induction ls with
  | nil => rfl
  | cons l ls ih =>
    simp only [List.mem_cons, forall_eq_or_imp] at free
    rw [List.flatMap_cons, cut_of_free free.1, ih free.2]
    rfl

end Cut

end Terminated
