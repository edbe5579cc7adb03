import ArchivAgent.Redact.Wildcard
import Mathlib.Data.List.Basic

/-!
# The rule a record is sampled by

A rule describes a record when each condition it specifies holds of it, with `*` read as any bytes.
-/

namespace ArchivAgent
open Wire (Bytes)
open Glob (Instance)

def Rule.Describes (rule : Rule) (namespaceName : Option Bytes) (severity : Option Int) : Prop :=
  (∀ glob ∈ rule.namespaceGlob, ∃ ns ∈ namespaceName, Instance glob ns) ∧
    ∀ threshold ∈ rule.severityLte, ∃ sev ∈ severity, sev ≤ threshold

theorem ruleMatches_describes {rule : Rule} {namespaceName : Option Bytes} {severity : Option Int}
    (matched : ruleMatches rule namespaceName severity = true) : rule.Describes namespaceName severity := by
  obtain ⟨glob?, threshold?, target⟩ := rule
  unfold ruleMatches at matched
  rw [Bool.and_eq_true] at matched
  obtain ⟨named, severe⟩ := matched
  constructor
  · rintro glob rfl
    cases namespaceName with
    | none => exact absurd named Bool.false_ne_true
    | some ns => exact ⟨ns, rfl, ((globMatches_aligned glob ns).mp named).toInstance⟩
  · rintro threshold rfl
    cases severity with
    | none => exact absurd severe Bool.false_ne_true
    | some sev => exact ⟨sev, rfl, of_decide_eq_true severe⟩

/-- The rules before the one that decides were all rejected by the matcher, and without such a rule
all of them were. -/
theorem resolve_described (policy : SamplingPolicy) (namespaceName : Option Bytes) (severity : Option Int) :
    (∃ i, ∃ inside : i < policy.rules.length,
        policy.resolve namespaceName severity = policy.rules[i].target ∧
          policy.rules[i].Describes namespaceName severity ∧
            ∀ j, ∀ before : j < i, ruleMatches policy.rules[j] namespaceName severity = false) ∨
      policy.resolve namespaceName severity = policy.defaultTarget ∧
        ∀ rule ∈ policy.rules, ruleMatches rule namespaceName severity = false := by
  unfold SamplingPolicy.resolve
  cases found : policy.rules.find? (ruleMatches · namespaceName severity) with
  | none =>
    refine Or.inr ⟨rfl, fun rule member => ?_⟩
    exact Bool.eq_false_iff.mpr (List.find?_eq_none.mp found rule member)
  | some rule =>
    obtain ⟨matched, i, inside, rfl, earlier⟩ := List.find?_eq_some_iff_getElem.mp found
    refine Or.inl ⟨i, inside, rfl, ruleMatches_describes matched, fun j before => ?_⟩
    exact (Bool.not_eq_true' _).mp (earlier j before)

end ArchivAgent
