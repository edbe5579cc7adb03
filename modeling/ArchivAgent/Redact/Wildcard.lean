import ArchivAgent.Sampling.Policy

/-!
# What the wildcard matcher accepts

A key is an instance of a pattern when every `*` can be replaced by bytes. The loop compares before
it looks for a star, so a star of the pattern that stands at a `*` of the key is that one byte:
the keys it accepts are those with such an instance.
-/

namespace ArchivAgent.Glob
open Wire (Bytes)

inductive Instance : Bytes → Bytes → Prop
  | nil : Instance [] []
  | literal {b : UInt8} {pattern key : Bytes} : b ≠ star → Instance pattern key → Instance (b :: pattern) (b :: key)
  | wild {pattern key : Bytes} (s : Bytes) : Instance pattern key → Instance (star :: pattern) (s ++ key)

/-- An instance in which a star that stands at a star of the key is replaced by just that byte. -/
inductive Aligned : Bytes → Bytes → Prop
  | nil : Aligned [] []
  | same {b : UInt8} {pattern key : Bytes} : Aligned pattern key → Aligned (b :: pattern) (b :: key)
  | wild {pattern key : Bytes} (s : Bytes) : (s ++ key).head? ≠ some star → Aligned pattern key →
      Aligned (star :: pattern) (s ++ key)

theorem Aligned.toInstance {pattern key : Bytes} (aligned : Aligned pattern key) : Instance pattern key := by
  induction aligned with
  | nil => exact .nil
  | @same b _ _ _ ih =>
    by_cases starred : b = star
    · subst starred
      exact .wild [star] ih
    · exact .literal starred ih
  | wild s _ _ ih => exact .wild s ih

/-- Where the key has no star, every instance is aligned. -/
theorem Instance.aligned {pattern key : Bytes} (inst : Instance pattern key) (plain : star ∉ key) :
    Aligned pattern key := by
  induction inst with
  | nil => exact .nil
  | literal _ _ ih => exact .same (ih (List.not_mem_of_not_mem_cons plain))
  | @wild _ key s _ ih =>
    refine .wild s ?_ (ih fun member => plain (List.mem_append_right s member))
    intro starred
    exact plain (List.mem_of_mem_head? starred)

/-! ### Steps of an alignment -/

theorem aligned_same {b : UInt8} {pattern key : Bytes} : Aligned (b :: pattern) (b :: key) ↔ Aligned pattern key := by
  refine ⟨fun aligned => ?_, .same⟩
  generalize keyed : b :: key = whole at aligned
  cases aligned with
  | same rest =>
    cases keyed
    exact rest
  | wild s starless _ =>
    rw [← keyed] at starless
    exact absurd rfl starless

theorem not_aligned_nil {b : UInt8} {key : Bytes} : ¬ Aligned [] (b :: key) := by
  intro aligned
  cases aligned

theorem not_aligned_empty {b : UInt8} {pattern : Bytes} (literal : b ≠ star) : ¬ Aligned (b :: pattern) [] := by
  intro aligned
  generalize keyed : ([] : Bytes) = key at aligned
  cases aligned with
  | same _ => cases keyed
  | wild _ _ _ => exact literal rfl

theorem not_aligned_cons {a b : UInt8} {pattern key : Bytes} (differ : a ≠ b) (literal : a ≠ star) :
    ¬ Aligned (a :: pattern) (b :: key) := by
  intro aligned
  generalize keyed : b :: key = whole at aligned
  cases aligned with
  | same _ =>
    cases keyed
    exact differ rfl
  | wild _ _ _ => exact literal rfl

theorem aligned_wild {pattern key : Bytes} (starless : key.head? ≠ some star) :
    Aligned (star :: pattern) key ↔ ∃ i, Aligned pattern (key.drop i) := by
  constructor
  · intro aligned
    cases aligned with
    | same _ => exact absurd rfl starless
    | @wild _ key s _ rest => exact ⟨s.length, by rwa [List.drop_left]⟩
  · rintro ⟨i, rest⟩
    have whole := List.take_append_drop i key
    have taken : Aligned (star :: pattern) (key.take i ++ key.drop i) := .wild _ (by rwa [whole]) rest
    rwa [whole] at taken

/-- A star reached later takes the key no further than it does here. -/
theorem aligned_wild_later {pattern key : Bytes} {i : Nat} (starless : key.head? ≠ some star)
    (later : Aligned (star :: pattern) (key.drop i)) : Aligned (star :: pattern) key := by
  rw [aligned_wild starless]
  generalize dropped : key.drop i = whole at later
  cases later with
  | @same _ _ rest aligned => exact ⟨i + 1, by rwa [← List.drop_drop, dropped]⟩
  | @wild _ rest s _ aligned => exact ⟨i + s.length, by rwa [← List.drop_drop, dropped, List.drop_left]⟩

/-- An alignment that starts no earlier than the key's own bytes `c` is no earlier behind them. -/
theorem aligned_behind {c pattern key : Bytes} {i : Nat} (aligned : Aligned (c ++ pattern) ((c ++ key).drop i)) :
    ∃ j, Aligned pattern (key.drop j) := by
  induction c generalizing i with
  | nil => exact ⟨i, aligned⟩
  | cons b c ih =>
    cases i with
    | zero => exact @ih 0 (aligned_same.mp aligned)
    | succ i =>
      rw [List.cons_append, List.cons_append, List.drop_succ_cons] at aligned
      generalize dropped : (c ++ key).drop i = whole at aligned
      cases aligned with
      | same rest => exact @ih (i + 1) (by rwa [← List.drop_drop, dropped])
      | wild s _ rest => exact @ih (i + s.length) (by rwa [← List.drop_drop, dropped, List.drop_left])

theorem aligned_copied {c pattern key : Bytes} : Aligned (c ++ pattern) (c ++ key) ↔ Aligned pattern key := by
  induction c with
  | nil => exact Iff.rfl
  | cons b c ih => exact aligned_same.trans ih

/-! ### The loop -/

section Loop
variable {pattern key : Bytes}

theorem here_outside {p : Nat} (outside : ¬ p < pattern.length) (test : UInt8 → Run Empty Bool) :
    here pattern p test = .ok false := if_neg outside

theorem here_inside {p : Nat} (inside : p < pattern.length) (test : UInt8 → Run Empty Bool) :
    here pattern p test = test pattern[p] := by
  unfold here
  rw [if_pos inside, read_ok inside]
  rfl

/-- Since the last star the loop has compared bytes that are the same. -/
def Copied (pattern key : Bytes) (p k : Nat) (last : Option (Nat × Nat)) : Prop :=
  ∀ star ∈ last, ∃ c, pattern.drop star.1 = c ++ pattern.drop p ∧ key.drop star.2 = c ++ key.drop k

theorem copied_none (pattern key : Bytes) (p k : Nat) : Copied pattern key p k none := by simp [Copied]

def Ahead (pattern key : Bytes) (p k : Nat) (last : Option (Nat × Nat)) : Prop :=
  Aligned (pattern.drop p) (key.drop k) ∨
    ∃ star ∈ last, ∃ i, Aligned (pattern.drop star.1) ((key.drop star.2).drop i)

def Answers (pattern : Bytes) : Option Nat → Prop
  | none => False
  | some q => Aligned (pattern.drop q) []

theorem ahead_end {p k : Nat} {last : Option (Nat × Nat)} (copied : Copied pattern key p k last) (done : key.length ≤ k) :
    Ahead pattern key p k last ↔ Aligned (pattern.drop p) [] := by
  have exhausted := List.drop_eq_nil_of_le done
  unfold Ahead
  rw [exhausted]
  constructor
  · rintro (here | ⟨star, member, i, later⟩)
    · exact here
    · obtain ⟨c, patterned, keyed⟩ := copied star member
      rw [patterned, keyed, exhausted] at later
      obtain ⟨j, rest⟩ := aligned_behind later
      rwa [List.drop_nil] at rest
  · exact Or.inl

theorem ahead_same {p k : Nat} {last : Option (Nat × Nat)} (inside : p < pattern.length) (more : k < key.length)
    (same : pattern[p] = key[k]) : Ahead pattern key p k last ↔ Ahead pattern key (p + 1) (k + 1) last := by
  unfold Ahead
  rw [List.drop_eq_getElem_cons inside, List.drop_eq_getElem_cons more, same, aligned_same]

theorem ahead_star {p k : Nat} {last : Option (Nat × Nat)} (copied : Copied pattern key p k last) (inside : p < pattern.length)
    (starred : pattern[p] = star) (starless : (key.drop k).head? ≠ some star) :
    Ahead pattern key p k last ↔ Ahead pattern key (p + 1) k (some (p + 1, k)) := by
  have ahead : Ahead pattern key (p + 1) k (some (p + 1, k)) ↔ ∃ i, Aligned (pattern.drop (p + 1)) ((key.drop k).drop i) := by
    unfold Ahead
    simp only [Option.mem_def, Option.some.injEq, exists_eq_left']
    exact ⟨fun aligned => aligned.elim (fun here => ⟨0, here⟩) id, Or.inr⟩
  rw [ahead, ← aligned_wild starless, ← starred, ← List.drop_eq_getElem_cons inside]
  constructor
  · rintro (here | ⟨star, member, i, later⟩)
    · exact here
    · -- The last star is given up: what it could still reach, this one reaches.
      obtain ⟨c, patterned, keyed⟩ := copied star member
      rw [patterned, keyed] at later
      obtain ⟨j, rest⟩ := aligned_behind later
      rw [List.drop_eq_getElem_cons inside, starred] at rest ⊢
      exact aligned_wild_later starless rest
  · exact Or.inl

theorem ahead_back {p k sp sk : Nat} (copied : Copied pattern key p k (some (sp, sk)))
    (stuck : ¬ Aligned (pattern.drop p) (key.drop k)) :
    Ahead pattern key p k (some (sp, sk)) ↔ Ahead pattern key sp (sk + 1) (some (sp, sk + 1)) := by
  obtain ⟨c, patterned, keyed⟩ := copied (sp, sk) rfl
  unfold Ahead
  simp only [Option.mem_def, Option.some.injEq, exists_eq_left', stuck, false_or, List.drop_drop]
  simp only at patterned keyed
  constructor
  · rintro ⟨i, later⟩
    cases i with
    | zero =>
      rw [Nat.add_zero, patterned, keyed, aligned_copied] at later
      exact absurd later stuck
    | succ i => exact Or.inr ⟨i, by rwa [show sk + 1 + i = sk + (i + 1) by omega]⟩
  · rintro (next | ⟨i, later⟩)
    · exact ⟨1, next⟩
    · exact ⟨i + 1, by rwa [show sk + (i + 1) = sk + 1 + i by omega]⟩

theorem not_ahead_bare {p k : Nat} (stuck : ¬ Aligned (pattern.drop p) (key.drop k)) : ¬ Ahead pattern key p k none := by
  rintro (here | ⟨_, member, _⟩)
  · exact stuck here
  · exact nomatch member

theorem back_answers {n p k : Nat} {last : Option (Nat × Nat)} {answer : Option Nat} (copied : Copied pattern key p k last)
    (stuck : ¬ Aligned (pattern.drop p) (key.drop k)) (bare : last = none → answer = none)
    (held : ∀ sp sk, last = some (sp, sk) → matchLoop pattern key n sp (sk + 1) (some (sp, sk + 1)) = .ok answer)
    (ih : ∀ {p k : Nat} {last : Option (Nat × Nat)}, Copied pattern key p k last →
      matchLoop pattern key n p k last = .ok answer → (Ahead pattern key p k last ↔ Answers pattern answer)) :
    Ahead pattern key p k last ↔ Answers pattern answer := by
  cases last with
  | none =>
    cases bare rfl
    exact iff_of_false (not_ahead_bare stuck) id
  | some star =>
    obtain ⟨sp, sk⟩ := star
    refine (ahead_back copied stuck).trans (ih ?_ (held sp sk rfl))
    simp only [Copied, Option.mem_def, Option.some.injEq, forall_eq']
    exact ⟨[], rfl, rfl⟩

theorem matchLoop_answers (n : Nat) {p k : Nat} {last : Option (Nat × Nat)} {answer : Option Nat}
    (copied : Copied pattern key p k last) (ran : matchLoop pattern key n p k last = .ok answer) :
    Ahead pattern key p k last ↔ Answers pattern answer := by
  induction n generalizing p k last with
  | zero => exact nomatch ran
  | succ n ih =>
    unfold matchLoop at ran
    by_cases more : k < key.length
    swap
    · rw [if_neg more] at ran
      cases ran
      exact ahead_end copied (Nat.le_of_not_lt more)
    rw [if_pos more] at ran
    have keyed := List.drop_eq_getElem_cons more
    by_cases inside : p < pattern.length
    swap
    · rw [here_outside inside, here_outside inside] at ran
      have stuck : ¬ Aligned (pattern.drop p) (key.drop k) := by
        rw [List.drop_eq_nil_of_le (Nat.le_of_not_lt inside), keyed]
        exact not_aligned_nil
      cases last with
      | none =>
        cases ran
        exact back_answers copied stuck (fun _ => rfl) (by simp) ih
      | some star =>
        refine back_answers copied stuck (by simp) (fun sp sk held => ?_) ih
        cases held
        exact ran
    rw [here_inside inside, here_inside inside, read_ok more] at ran
    simp only [bind, Except.bind] at ran
    by_cases same : pattern[p] = key[k]
    · rw [if_pos (beq_iff_eq.mpr same)] at ran
      refine (ahead_same inside more same).trans (ih (fun star member => ?_) ran)
      obtain ⟨c, patterned, keyed⟩ := copied star member
      refine ⟨c ++ [key[k]], ?_, ?_⟩
      · rw [patterned, List.drop_eq_getElem_cons inside, same, List.append_assoc]
        rfl
      · rw [keyed, List.drop_eq_getElem_cons more, List.append_assoc]
        rfl
    rw [if_neg (by rwa [beq_iff_eq])] at ran
    by_cases starred : pattern[p] = star
    · rw [if_pos (beq_iff_eq.mpr starred)] at ran
      have starless : (key.drop k).head? ≠ some star := by
        rw [keyed, List.head?_cons, ← starred]
        exact fun met => same (Option.some.inj met).symm
      refine (ahead_star copied inside starred starless).trans (ih ?_ ran)
      simp only [Copied, Option.mem_def, Option.some.injEq, forall_eq']
      exact ⟨[], rfl, rfl⟩
    · rw [if_neg (by rwa [beq_iff_eq])] at ran
      have stuck : ¬ Aligned (pattern.drop p) (key.drop k) := by
        rw [List.drop_eq_getElem_cons inside, keyed]
        exact not_aligned_cons same starred
      cases last with
      | none =>
        cases ran
        exact back_answers copied stuck (fun _ => rfl) (by simp) ih
      | some star =>
        refine back_answers copied stuck (by simp) (fun sp sk held => ?_) ih
        cases held
        exact ran

theorem skipStars_answers (n : Nat) {p q : Nat} (inside : p ≤ pattern.length) (ran : skipStars pattern n p = .ok q) :
    Aligned (pattern.drop p) [] ↔ q = pattern.length := by
  induction n generalizing p with
  | zero => exact nomatch ran
  | succ n ih =>
    unfold skipStars at ran
    by_cases more : p < pattern.length
    · rw [here_inside more] at ran
      simp only [bind, Except.bind] at ran
      rw [List.drop_eq_getElem_cons more]
      by_cases starred : pattern[p] = star
      · rw [if_pos (beq_iff_eq.mpr starred)] at ran
        rw [starred, aligned_wild (by simp), ← ih more ran]
        simp only [List.drop_nil, exists_const]
      · rw [if_neg (by rwa [beq_iff_eq])] at ran
        cases ran
        exact iff_of_false (not_aligned_empty starred) (by omega)
    · rw [here_outside more] at ran
      cases ran
      rw [List.drop_eq_nil_of_le (Nat.le_of_not_lt more)]
      exact iff_of_true .nil (by omega)

end Loop

end ArchivAgent.Glob

namespace ArchivAgent
open Wire (Bytes)
open Glob (Instance Aligned)

/-- The matcher accepts the keys with an aligned instance. -/
theorem globMatches_aligned (pattern key : Bytes) : globMatches pattern key = true ↔ Aligned pattern key := by
  obtain ⟨same, ran⟩ := Glob.run_ok pattern key
  have matched : globMatches pattern key = same := by
    unfold globMatches
    rw [ran]
  rw [matched]
  obtain ⟨answer, answered, within⟩ := Glob.matchLoop_ok (Glob.rounds pattern key) (Nat.zero_le pattern.length)
    (Glob.remembers_none pattern 0 0) (Glob.rounds_enough pattern key)
  have ahead := Glob.matchLoop_answers _ (Glob.copied_none pattern key 0 0) answered
  have whole : Glob.Ahead pattern key 0 0 none ↔ Aligned pattern key := by
    unfold Glob.Ahead
    simp
  rw [← whole, ahead]
  unfold Glob.run at ran
  rw [answered] at ran
  cases answer with
  | none =>
    cases ran
    simp [Glob.Answers]
  | some p =>
    obtain ⟨q, skipped⟩ := Glob.skipStars_ok (pattern.length + 1) (within p rfl) (by omega)
    simp only [bind, Except.bind, skipped] at ran
    cases ran
    rw [beq_iff_eq]
    exact (Glob.skipStars_answers _ (within p rfl) skipped).symm

theorem globMatches_plain {key : Bytes} (plain : Glob.star ∉ key) (pattern : Bytes) :
    globMatches pattern key = true ↔ Instance pattern key := by
  rw [globMatches_aligned]
  exact ⟨Aligned.toInstance, fun inst => inst.aligned plain⟩

/-- Both copies of the matcher are exact on a pattern and a key, unless the key is an instance of
the pattern and no instance is aligned. -/
theorem globMatches_exact_iff (pattern key : Bytes) :
    (globMatches pattern key = true ↔ Instance pattern key) ∧ (namespaceGlobMatches pattern key = true ↔ Instance pattern key) ↔
      (Instance pattern key → Aligned pattern key) := by
  unfold namespaceGlobMatches
  rw [and_self, globMatches_aligned]
  exact ⟨fun exact' => exact'.mpr, fun aligned => ⟨Aligned.toInstance, aligned⟩⟩

/-- `*` does not match the key `*a`. -/
theorem globMatches_exact_not : ¬ ∀ pattern key : Bytes,
    (globMatches pattern key = true ↔ Instance pattern key) ∧ (namespaceGlobMatches pattern key = true ↔ Instance pattern key) := by
  intro exact'
  have matched := (exact' [Glob.star] [Glob.star, 97]).1.mpr (.wild [Glob.star, 97] .nil)
  exact absurd matched (by decide)

end ArchivAgent
