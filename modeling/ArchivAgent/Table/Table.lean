import Mathlib.Algebra.BigOperators.Group.List.Basic
import Mathlib.Algebra.Order.BigOperators.Group.List
import Mathlib.Algebra.Order.Ring.Nat
import Mathlib.Data.List.AList

/-!
# Tables

A table has at most one row for each key. `total` adds up a weight over its rows; `first` is the
row with the least key.
-/

abbrev Table (κ ν : Type) := AList fun _ : κ => ν

namespace Table

section Totals
variable {κ ν : Type} [DecidableEq κ] {t : Table κ ν} {k : κ} {v : ν} {w : κ → ν → Nat}

def total (w : κ → ν → Nat) (t : Table κ ν) : Nat := (t.entries.map fun e => w e.1 e.2).sum

omit [DecidableEq κ] in
@[simp] theorem total_empty : total w (∅ : Table κ ν) = 0 := rfl

theorem mem_entries : (⟨k, v⟩ : Sigma fun _ : κ => ν) ∈ t.entries ↔ t.lookup k = some v :=
  (List.mem_dlookup_iff t.nodupKeys).symm

theorem not_mem_of_lookup (absent : t.lookup k = none) : k ∉ t.keys :=
  fun member => AList.lookup_eq_none.mp absent (AList.mem_keys.mpr member)

theorem erase_absent (absent : t.lookup k = none) : t.erase k = t :=
  AList.ext (List.kerase_of_notMem_keys (not_mem_of_lookup absent))

theorem entries_split (found : t.lookup k = some v) :
    t.entries.Perm (⟨k, v⟩ :: (t.erase k).entries) := by
  have member : k ∈ t.entries.keys := by
    rw [← AList.keys]
    exact AList.mem_keys.mp (AList.lookup_isSome.mp (by rw [found]; rfl))
  obtain ⟨v', before, after, -, whole, rest⟩ := List.exists_of_kerase member
  have same : v' = v := by
    have here : (⟨k, v'⟩ : Sigma fun _ : κ => ν) ∈ t.entries := by rw [whole]; simp
    exact Option.some.inj ((mem_entries.mp here).symm.trans found)
  subst same
  have erased : (t.erase k).entries = before ++ after := rest
  rw [erased, whole]
  exact List.perm_middle

theorem total_erase (found : t.lookup k = some v) : total w t = w k v + total w (t.erase k) := by
  have perm := (entries_split found).map fun e => w e.1 e.2
  rw [total, perm.sum_eq, List.map_cons, List.sum_cons, total]

theorem total_insert_erase : total w (t.insert k v) = w k v + total w (t.erase k) := by
  rw [total, AList.entries_insert, List.map_cons, List.sum_cons]
  rfl

theorem total_insert (absent : t.lookup k = none) : total w (t.insert k v) = w k v + total w t := by
  rw [total_insert_erase, erase_absent absent]

/-- Rewriting a row changes the total by that row. -/
theorem total_replace {u : ν} (found : t.lookup k = some v) :
    total w (t.insert k u) + w k v = total w t + w k u := by
  rw [total_insert_erase, total_erase found]
  omega

theorem total_insert_same {v' : ν} (found : t.lookup k = some v) (same : w k v' = w k v) :
    total w (t.insert k v') = total w t := by
  have := @total_replace _ _ _ _ _ _ w v' found
  omega

theorem le_total (found : t.lookup k = some v) : w k v ≤ total w t := by
  rw [total_erase found]
  exact Nat.le_add_right _ _

theorem lookup_of_keys (empty : t.keys = []) : t.lookup k = none := by
  refine AList.lookup_eq_none.mpr fun member => ?_
  have listed := AList.mem_keys.mp member
  rw [empty] at listed
  cases listed

theorem isSome_insert {l : κ} (present : (t.lookup l).isSome = true) : ((t.insert k v).lookup l).isSome = true := by
  by_cases same : l = k
  · rw [same, AList.lookup_insert]
    rfl
  · rw [AList.lookup_insert_ne same]
    exact present

theorem lookup_of_erase {l : κ} (found : (t.erase k).lookup l = some v) : l ≠ k ∧ t.lookup l = some v := by
  by_cases here : l = k
  · rw [here, AList.lookup_erase] at found
    cases found
  · rw [AList.lookup_erase_ne here] at found
    exact ⟨here, found⟩

theorem lookup_of_insert {l : κ} {u : ν} (found : (t.insert k u).lookup l = some v) :
    (l = k ∧ v = u) ∨ (l ≠ k ∧ t.lookup l = some v) := by
  by_cases here : l = k
  · rw [here, AList.lookup_insert] at found
    exact .inl ⟨here, (Option.some.inj found).symm⟩
  · rw [AList.lookup_insert_ne here] at found
    exact .inr ⟨here, found⟩

theorem total_eq_zero (weightless : ∀ k v, t.lookup k = some v → w k v = 0) : total w t = 0 := by
  refine List.sum_eq_zero fun x member => ?_
  obtain ⟨e, here, rfl⟩ := List.mem_map.mp member
  exact weightless e.1 e.2 (mem_entries.mp here)

theorem total_le {w' : κ → ν → Nat} (each : ∀ k v, t.lookup k = some v → w k v ≤ w' k v) : total w t ≤ total w' t :=
  List.sum_le_sum fun e member => each e.1 e.2 (mem_entries.mp member)

theorem total_toAList (rows : List (Sigma fun _ : κ => ν)) (distinct : rows.keys.Nodup) :
    total w rows.toAList = (rows.map fun e => w e.1 e.2).sum := by
  induction rows with
  | nil => rfl
  | cons e rows ih =>
    obtain ⟨k, v⟩ := e
    obtain ⟨fresh, distinct⟩ := List.nodup_cons.mp distinct
    have absent : AList.lookup k rows.toAList = none := (AList.lookup_to_alist rows).trans (List.dlookup_eq_none.mpr fresh)
    rw [AList.toAList_cons, total_insert absent, ih distinct, List.map_cons, List.sum_cons]

theorem total_congr {u : Table κ ν} (same : ∀ k, t.lookup k = u.lookup k) : total w t = total w u := by
  have perm : t.entries.Perm u.entries :=
    List.lookup_ext t.nodupKeys u.nodupKeys fun k v => by rw [show t.entries.dlookup k = u.entries.dlookup k from same k]
  exact (perm.map fun e => w e.1 e.2).sum_eq

/-- Rewriting a row, where the weights of the others stay. -/
theorem total_rewrite {w' : κ → ν → Nat} {u : ν} (found : t.lookup k = some v)
    (others : ∀ l x, l ≠ k → t.lookup l = some x → w' l x = w l x) :
    total w' (t.insert k u) + w k v = total w t + w' k u := by
  have rest : total w' (t.erase k) = total w (t.erase k) := by
    refine congrArg List.sum (List.map_congr_left fun e member => ?_)
    obtain ⟨other, there⟩ := lookup_of_erase (mem_entries.mp member)
    exact others e.1 e.2 other there
  rw [total_insert_erase, total_erase found, rest]
  omega

end Totals

/-! ### Rows that belong to rows of other tables -/

section Owners
variable {κ κ₁ κ₂ ν ν₁ ν₂ : Type} [DecidableEq κ] [DecidableEq κ₁] [DecidableEq κ₂]
variable {w : κ → ν → Nat} {w₁ : κ₁ → ν₁ → Nat} {w₂ : κ₂ → ν₂ → Nat}

/-- A table weighs at most what its owners do, when every row with a weight belongs to an owner
at least as heavy and no two rows to one owner. -/
theorem total_le_of_owned {t : Table κ ν} (owns : κ₁ ⊕ κ₂ → κ → Prop)
    (apart : ∀ o k l, owns o k → owns o l → k = l) (a : Table κ₁ ν₁) (b : Table κ₂ ν₂)
    (owned : ∀ k v, t.lookup k = some v → w k v ≠ 0 →
      (∃ i o, owns (.inl i) k ∧ a.lookup i = some o ∧ w k v ≤ w₁ i o) ∨
      ∃ j o, owns (.inr j) k ∧ b.lookup j = some o ∧ w k v ≤ w₂ j o) :
    total w t ≤ total w₁ a + total w₂ b := by
  induction t using AList.insertRec generalizing a b with
  | H0 => exact Nat.zero_le _
  | IH k v t absent ih =>
    have unread : t.lookup k = none := AList.lookup_eq_none.mpr absent
    have other : ∀ l u, t.lookup l = some u → l ≠ k := by
      rintro l u found rfl
      rw [unread] at found
      cases found
    have older : ∀ l u, t.lookup l = some u → (t.insert k v).lookup l = some u := fun l u found => by
      rw [AList.lookup_insert_ne (other l u found), found]
    rw [total_insert unread]
    by_cases weightless : w k v = 0
    · rw [weightless, Nat.zero_add]
      exact ih a b fun l u found => owned l u (older l u found)
    · rcases owned k v (AList.lookup_insert t) weightless with ⟨i, o, mine, here, le⟩ | ⟨j, o, mine, here, le⟩
      · have rest : total w t ≤ total w₁ (a.erase i) + total w₂ b := by
          refine ih _ _ fun l u found heavy => ?_
          rcases owned l u (older l u found) heavy with ⟨i', o', mine', there, le'⟩ | theirs
          · have differs : i' ≠ i := by
              rintro rfl
              exact other l u found (apart _ _ _ mine' mine)
            exact .inl ⟨i', o', mine', by rw [AList.lookup_erase_ne differs, there], le'⟩
          · exact .inr theirs
        rw [total_erase here]
        omega
      · have rest : total w t ≤ total w₁ a + total w₂ (b.erase j) := by
          refine ih _ _ fun l u found heavy => ?_
          rcases owned l u (older l u found) heavy with theirs | ⟨j', o', mine', there, le'⟩
          · exact .inl theirs
          · have differs : j' ≠ j := by
              rintro rfl
              exact other l u found (apart _ _ _ mine' mine)
            exact .inr ⟨j', o', mine', by rw [AList.lookup_erase_ne differs, there], le'⟩
        rw [total_erase here]
        omega

end Owners

/-! ### The row with the least key -/

section First
variable {ν : Type} {t : Table Nat ν} {k : Nat} {v : ν}

def first (t : Table Nat ν) : Option (Nat × ν) :=
  t.keys.min?.bind fun k => (t.lookup k).map fun v => (k, v)

theorem first_some (h : t.first = some (k, v)) :
    t.lookup k = some v ∧ ∀ l u, t.lookup l = some u → k ≤ l := by
  obtain ⟨k', least, read⟩ := Option.bind_eq_some_iff.mp h
  obtain ⟨v', found, same⟩ := Option.map_eq_some_iff.mp read
  cases same
  refine ⟨found, fun l u there => ?_⟩
  have member : l ∈ t.keys := AList.mem_keys.mp (AList.lookup_isSome.mp (by rw [there]; rfl))
  exact (List.min?_eq_some_iff.mp least).2 l member

theorem first_none (h : t.first = none) (k : Nat) : t.lookup k = none := by
  cases found : t.lookup k with
  | none => rfl
  | some v =>
    have member : k ∈ t.keys := AList.mem_keys.mp (AList.lookup_isSome.mp (by rw [found]; rfl))
    cases least : t.keys.min? with
    | none =>
      rw [List.min?_eq_none_iff.mp least] at member
      cases member
    | some l =>
      have there := AList.lookup_isSome.mpr (AList.mem_keys.mpr (List.min?_eq_some_iff.mp least).1)
      obtain ⟨u, row⟩ := Option.isSome_iff_exists.mp there
      rw [first, least, Option.bind_some, row] at h
      cases h

end First

end Table
