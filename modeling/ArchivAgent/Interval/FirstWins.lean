import Mathlib.Data.List.Pairwise
import Mathlib.Order.Defs.LinearOrder
import Mathlib.Tactic.Order

/-!
# First match wins

A sweep over spans sorted by start, then by end, that keeps a span when it does not start before
the end of the last kept one. The kept spans never overlap. They cover what all the spans cover
exactly when the covered points can be tiled by spans that are the shortest at their start.
-/

namespace Interval

variable {α β : Type*} [LinearOrder β] (lo hi : α → β)

def firstWins : β → List α → List α
  | _, [] => []
  | c, a :: as => if lo a < c then firstWins c as else a :: firstWins (hi a) as

def Covers (as : List α) (x : β) : Prop := ∃ a ∈ as, lo a ≤ x ∧ x < hi a

def Apart (a b : α) : Prop := hi a ≤ lo b ∨ hi b ≤ lo a

def Sorted (as : List α) : Prop := as.Pairwise fun a b => lo a < lo b ∨ lo a = lo b ∧ hi a ≤ hi b

/-- No span that starts at the same point, empty ones apart, is shorter. -/
def Shortest (as : List α) (a : α) : Prop :=
  a ∈ as ∧ lo a < hi a ∧ ∀ b ∈ as, lo b = lo a → lo b < hi b → hi a ≤ hi b

/-- The covered points are covered by shortest spans that do not overlap. -/
def Tiled (as : List α) : Prop :=
  ∃ tiles : List α, (∀ a ∈ tiles, Shortest lo hi as a) ∧ tiles.Pairwise (Apart lo hi) ∧
    ∀ x, Covers lo hi as x → Covers lo hi tiles x

variable {lo hi} {c : β} {as bs : List α}

instance : Std.Symm (Apart lo hi (α := α)) := ⟨fun _ _ => Or.symm⟩

theorem tiled_congr (same : ∀ a, a ∈ as ↔ a ∈ bs) : Tiled lo hi as ↔ Tiled lo hi bs := by
  simp only [Tiled, Shortest, Covers, same]

theorem exists_map_eq {γ : Type*} {f : α → γ} {cs : List γ} (h : ∀ c ∈ cs, ∃ a ∈ as, f a = c) :
    ∃ picked : List α, (∀ a ∈ picked, a ∈ as) ∧ picked.map f = cs := by
  induction cs with
  | nil => exact ⟨[], by simp, rfl⟩
  | cons c cs ih =>
    simp only [List.mem_cons, forall_eq_or_imp] at h
    obtain ⟨⟨a, member, rfl⟩, later⟩ := h
    obtain ⟨picked, inside, rfl⟩ := ih later
    exact ⟨a :: picked, by simpa using ⟨member, inside⟩, rfl⟩

theorem tiled_map {γ : Type*} {lo hi : γ → β} {f : α → γ} :
    Tiled lo hi (as.map f) ↔ Tiled (fun a => lo (f a)) (fun a => hi (f a)) as := by
  have covers : ∀ (bs : List α) x, Covers lo hi (bs.map f) x ↔ Covers (fun a => lo (f a)) (fun a => hi (f a)) bs x := by
    intro bs x
    simp only [Covers, List.mem_map, exists_exists_and_eq_and]
  constructor
  · rintro ⟨tiles, shortest, apart, covering⟩
    obtain ⟨picked, inside, rfl⟩ := exists_map_eq (f := f) fun c h => List.mem_map.mp (shortest c h).1
    rw [List.pairwise_map] at apart
    refine ⟨picked, fun a h => ?_, apart, fun x h => ?_⟩
    · obtain ⟨-, nonempty, least⟩ := shortest (f a) (List.mem_map_of_mem h)
      exact ⟨inside a h, nonempty, fun b hb => least (f b) (List.mem_map_of_mem hb)⟩
    · exact (covers picked x).mp (covering x ((covers as x).mpr h))
  · rintro ⟨tiles, shortest, apart, covering⟩
    refine ⟨tiles.map f, fun c h => ?_, List.pairwise_map.mpr apart, fun x h => ?_⟩
    · obtain ⟨a, ha, rfl⟩ := List.mem_map.mp h
      obtain ⟨member, nonempty, least⟩ := shortest a ha
      refine ⟨List.mem_map_of_mem member, nonempty, fun c hc => ?_⟩
      obtain ⟨b, hb, rfl⟩ := List.mem_map.mp hc
      exact least b hb
    · exact (covers tiles x).mpr (covering x ((covers as x).mp h))

theorem tiled_of_uncovered (h : ∀ x, ¬ Covers lo hi as x) : Tiled lo hi as :=
  ⟨[], by simp, .nil, fun x here => absurd here (h x)⟩

theorem firstWins_sublist (c : β) (as : List α) : (firstWins lo hi c as).Sublist as := by
  induction as generalizing c with
  | nil => exact .slnil
  | cons a as ih =>
    rw [firstWins]
    split
    · exact (ih c).cons a
    · exact (ih (hi a)).cons_cons a

section Ranged
variable (ranged : ∀ a ∈ as, lo a ≤ hi a)
include ranged

theorem firstWins_from {a : α} (h : a ∈ firstWins lo hi c as) : c ≤ lo a := by
  induction as generalizing c with
  | nil => cases h
  | cons b bs ih =>
    simp only [List.mem_cons, forall_eq_or_imp] at ranged
    rw [firstWins] at h
    split at h
    · exact ih ranged.2 h
    · rename_i open'
      rcases List.mem_cons.mp h with rfl | later
      · exact not_lt.mp open'
      · exact le_trans (le_trans (not_lt.mp open') ranged.1) (ih ranged.2 later)

theorem firstWins_ordered : (firstWins lo hi c as).Pairwise fun a b => hi a ≤ lo b := by
  induction as generalizing c with
  | nil => exact .nil
  | cons b bs ih =>
    simp only [List.mem_cons, forall_eq_or_imp] at ranged
    rw [firstWins]
    split
    · exact ih ranged.2
    · exact List.pairwise_cons.mpr ⟨fun a h => firstWins_from ranged.2 h, ih ranged.2⟩

theorem firstWins_apart {a b : α} (ha : a ∈ firstWins lo hi c as) (hb : b ∈ firstWins lo hi c as)
    (differ : a ≠ b) : Apart lo hi a b := by
  have apart : (firstWins lo hi c as).Pairwise (Apart lo hi) := (firstWins_ordered ranged).imp Or.inl
  exact apart.forall ha hb differ

theorem firstWins_skipped (sorted : Sorted lo hi as) {a : α} (member : a ∈ as) :
    a ∈ firstWins lo hi c as ∨ lo a < c ∨ ∃ g ∈ firstWins lo hi c as, lo g ≤ lo a ∧ lo a < hi g := by
  induction as generalizing c with
  | nil => cases member
  | cons b bs ih =>
    simp only [List.mem_cons, forall_eq_or_imp] at ranged
    obtain ⟨first, sorted⟩ := List.pairwise_cons.mp sorted
    rw [firstWins]
    split
    · rename_i early
      rcases List.mem_cons.mp member with rfl | later
      · exact .inr (.inl early)
      · exact ih ranged.2 sorted later
    · rcases List.mem_cons.mp member with rfl | later
      · exact .inl List.mem_cons_self
      · have after : lo b ≤ lo a := (first a later).elim le_of_lt fun h => h.1.le
        rcases ih (c := hi b) ranged.2 sorted later with kept | covered | ⟨g, kept, here⟩
        · exact .inl (List.mem_cons_of_mem b kept)
        · exact .inr (.inr ⟨b, List.mem_cons_self, after, covered⟩)
        · exact .inr (.inr ⟨g, List.mem_cons_of_mem b kept, here⟩)

/-- Of the spans with one start the sweep keeps a shortest one. -/
theorem firstWins_shortest (sorted : Sorted lo hi as) {a b : α} (kept : a ∈ firstWins lo hi c as)
    (member : b ∈ as) (same : lo b = lo a) (nonempty : lo b < hi b) : hi a ≤ hi b := by
  induction as generalizing c with
  | nil => cases member
  | cons d ds ih =>
    simp only [List.mem_cons, forall_eq_or_imp] at ranged
    obtain ⟨first, sorted⟩ := List.pairwise_cons.mp sorted
    rw [firstWins] at kept
    split at kept
    · rename_i early
      rcases List.mem_cons.mp member with rfl | later
      · have := firstWins_from ranged.2 kept
        order
      · exact ih ranged.2 sorted kept later
    · rcases List.mem_cons.mp kept with rfl | keptLater
      · rcases List.mem_cons.mp member with rfl | later
        · exact le_refl _
        · rcases first b later with h | h
          · order
          · exact h.2
      · rcases List.mem_cons.mp member with rfl | later
        · have := firstWins_from ranged.2 keptLater
          order
        · exact ih ranged.2 sorted keptLater later

theorem firstWins_eq_self (sorted : Sorted lo hi as) (start : ∀ a ∈ as, c ≤ lo a) :
    firstWins lo hi c as = as ↔ as.Pairwise (Apart lo hi) := by
  constructor
  · intro same
    have := firstWins_ordered (c := c) ranged
    rw [same] at this
    exact this.imp Or.inl
  · intro apart
    induction as generalizing c with
    | nil => rfl
    | cons b bs ih =>
      simp only [List.mem_cons, forall_eq_or_imp] at ranged start
      obtain ⟨first, sorted⟩ := List.pairwise_cons.mp sorted
      obtain ⟨clear, apart⟩ := List.pairwise_cons.mp apart
      rw [firstWins, if_neg (not_lt.mpr start.1), ih ranged.2 sorted (fun a member => ?_) apart]
      have wide := ranged.2 a member
      rcases clear a member with h | h
      · exact h
      · rcases first a member with later | ⟨same, longer⟩
        · order
        · order

end Ranged

section Tiled
variable (ranged : ∀ a ∈ as, lo a ≤ hi a) (sorted : Sorted lo hi as) (start : ∀ a ∈ as, c ≤ lo a)
include ranged sorted start

omit start in
theorem tiled_of_covers (covered : ∀ x, Covers lo hi as x → Covers lo hi (firstWins lo hi c as) x) :
    Tiled lo hi as := by
  classical
  refine ⟨(firstWins lo hi c as).filter fun a => lo a < hi a, ?_, ?_, fun x h => ?_⟩
  · intro a h
    obtain ⟨kept, nonempty⟩ := List.mem_filter.mp h
    exact ⟨(firstWins_sublist c as).subset kept, of_decide_eq_true nonempty,
      fun b member same wide => firstWins_shortest ranged sorted kept member same wide⟩
  · exact ((firstWins_ordered ranged).sublist List.filter_sublist).imp Or.inl
  · obtain ⟨a, kept, low, high⟩ := covered x h
    exact ⟨a, List.mem_filter.mpr ⟨kept, decide_eq_true (lt_of_le_of_lt low high)⟩, low, high⟩

section Tiles
variable {tiles : List α} (shortest : ∀ a ∈ tiles, Shortest lo hi as a) (apart : tiles.Pairwise (Apart lo hi))
  (covering : ∀ x, Covers lo hi as x → Covers lo hi tiles x)
include shortest apart

omit ranged sorted start shortest in
theorem tiles_unique {s t : α} (hs : s ∈ tiles) (ht : t ∈ tiles) {x : β} (inS : lo s ≤ x ∧ x < hi s)
    (inT : lo t ≤ x ∧ x < hi t) : s = t := by
  by_contra differ
  rcases apart.forall hs ht differ with h | h
  · exact absurd (lt_of_lt_of_le inS.2 (le_trans h inT.1)) (lt_irrefl x)
  · exact absurd (lt_of_lt_of_le inT.2 (le_trans h inS.1)) (lt_irrefl x)

include covering

/-- A kept span that is not empty is a tile, up to its name: the induction goes up the starts. -/
theorem kept_is_tile [WellFoundedLT β] {g : α} (kept : g ∈ firstWins lo hi c as) (nonempty : lo g < hi g) :
    ∃ t ∈ tiles, lo t = lo g ∧ hi t = hi g := by
  have member := (firstWins_sublist c as).subset kept
  induction hx : lo g using WellFoundedLT.induction generalizing g with
  | ind x ih =>
    subst hx
    obtain ⟨t, ht, low, high⟩ := covering (lo g) ⟨g, member, le_refl _, nonempty⟩
    have small := shortest t ht
    rcases eq_or_lt_of_le low with same | earlier
    · refine ⟨t, ht, same, le_antisymm (small.2.2 g member same.symm nonempty) ?_⟩
      exact firstWins_shortest ranged sorted kept small.1 same small.2.1
    · exfalso
      rcases firstWins_skipped (c := c) ranged sorted small.1 with keptT | early | ⟨g', kept', low', high'⟩
      · have differ : t ≠ g := fun h => by rw [h] at earlier; exact lt_irrefl _ earlier
        rcases firstWins_apart ranged keptT kept differ with h | h
        · order
        · order
      · have := start t small.1
        order
      · -- The span that covers the start of `t` is a tile itself, so it is `t`, which reaches past `g`.
        have wide : lo g' < hi g' := lt_of_le_of_lt low' high'
        obtain ⟨t', ht', sameLow, sameHigh⟩ := ih (lo g') (lt_of_le_of_lt low' earlier) kept' wide
          ((firstWins_sublist c as).subset kept') rfl
        have one := tiles_unique apart ht' ht (x := lo t)
          ⟨by rw [sameLow]; exact low', by rw [sameHigh]; exact high'⟩ ⟨le_refl _, small.2.1⟩
        subst one
        have differ : g' ≠ g := fun h => by rw [h] at low'; order
        rcases firstWins_apart ranged kept' kept differ with h | h
        · order
        · order

theorem covers_of_tiles [WellFoundedLT β] {x : β} (h : Covers lo hi as x) :
    Covers lo hi (firstWins lo hi c as) x := by
  obtain ⟨t, ht, low, high⟩ := covering x h
  have small := shortest t ht
  rcases firstWins_skipped (c := c) ranged sorted small.1 with kept | early | ⟨g, kept, low', high'⟩
  · exact ⟨t, kept, low, high⟩
  · exact absurd (start t small.1) (not_le.mpr early)
  · obtain ⟨t', ht', sameLow, sameHigh⟩ := kept_is_tile ranged sorted start shortest apart covering kept
      (lt_of_le_of_lt low' high')
    have one := tiles_unique apart ht' ht (x := lo t)
      ⟨by rw [sameLow]; exact low', by rw [sameHigh]; exact high'⟩ ⟨le_refl _, small.2.1⟩
    subst one
    exact ⟨g, kept, by rw [← sameLow]; exact low, by rw [← sameHigh]; exact high⟩

end Tiles

/-- The sweep covers what there is to cover exactly when it can be tiled. -/
theorem firstWins_covers_iff [WellFoundedLT β] :
    (∀ x, Covers lo hi as x → Covers lo hi (firstWins lo hi c as) x) ↔ Tiled lo hi as := by
  constructor
  · exact tiled_of_covers ranged sorted
  · rintro ⟨tiles, shortest, apart, covering⟩ x h
    exact covers_of_tiles ranged sorted start shortest apart covering h

end Tiled

end Interval
