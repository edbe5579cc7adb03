import ArchivAgent.Sampling.Policy
import Mathlib.Order.WellFounded

/-!
# The wildcard matcher, pass by pass

No run of the two loops goes on for ever: whatever the two arguments hold, every pass reads inside
them, and it answers or lowers the weight of the stage.
-/

namespace ArchivAgent
open Wire (Bytes)

namespace Glob

def Stage.start : Stage := .seeking 0 0 none

/-- The loop goes on to another pass. -/
def Advances (pattern key : Bytes) (stage next : Stage) : Prop := advance pattern key stage = .ok (.inr next)

def Reaches (pattern key : Bytes) : Stage → Stage → Prop := Relation.ReflTransGen (Advances pattern key)

section Passes
variable {pattern key : Bytes}

theorem start_inside (pattern : Bytes) : Stage.start.Inside pattern :=
  ⟨Nat.zero_le _, remembers_none pattern 0 0⟩

theorem advances_inside {stage next : Stage} (inside : stage.Inside pattern)
    (moved : Advances pattern key stage next) : next.Inside pattern ∧ next.weight pattern key < stage.weight pattern key := by
  obtain ⟨same, answered⟩ | ⟨next', moved', held⟩ := @advance_ok pattern key stage inside
  · cases moved.symm.trans answered
  · cases moved.symm.trans moved'
    exact held

theorem reaches_inside {stage next : Stage} (inside : stage.Inside pattern) (reached : Reaches pattern key stage next) :
    next.Inside pattern := by
  induction reached with
  | refl => exact inside
  | tail _ moved ih => exact (advances_inside ih moved).1

/-- A run without an end would lower the weight for ever. -/
theorem advances_ends (stages : Nat → Stage) (inside : (stages 0).Inside pattern) :
    ∃ i, ¬ Advances pattern key (stages i) (stages (i + 1)) := by
  by_contra runs
  push Not at runs
  have held (i : Nat) : (stages i).Inside pattern := by
    induction i with
    | zero => exact inside
    | succ i ih => exact (advances_inside ih (runs i)).1
  obtain ⟨i, stuck⟩ := WellFounded.not_rel_apply_succ (r := (· < ·)) fun i => (stages i).weight pattern key
  exact stuck (advances_inside (held i) (runs i)).2

theorem seeking_answer {p k : Nat} {last : Option (Nat × Nat)} {same : Bool}
    (answered : advance pattern key (.seeking p k last) = .ok (.inl same)) : same = false := by
  simp only [advance] at answered
  split at answered
  swap
  · cases answered
  obtain ⟨equal, _, answered⟩ := Run.bind_ok answered
  cases equal with
  | true => cases answered
  | false =>
    obtain ⟨wild, _, answered⟩ := Run.bind_ok answered
    cases wild with
    | true => cases answered
    | false =>
      cases last with
      | none => cases answered; rfl
      | some star => cases answered

theorem closing_outcome {p : Nat} {outcome : Bool ⊕ Stage} (passed : advance pattern key (.closing p) = .ok outcome) :
    outcome = .inr (.closing (p + 1)) ∨ outcome = .inl (p == pattern.length) := by
  simp only [advance] at passed
  obtain ⟨wild, _, passed⟩ := Run.bind_ok passed
  cases wild with
  | true => cases passed; exact Or.inl rfl
  | false => cases passed; exact Or.inr rfl

theorem matchLoop_reaches (n : Nat) {p k : Nat} {last : Option (Nat × Nat)} {end' : Option Nat}
    (ran : matchLoop pattern key n p k last = .ok end') :
    (∀ q ∈ end', Reaches pattern key (.seeking p k last) (.closing q)) ∧
      (end' = none → ∃ stage, Reaches pattern key (.seeking p k last) stage ∧ advance pattern key stage = .ok (.inl false)) := by
  induction n generalizing p k last with
  | zero => cases ran
  | succ n ih =>
    rw [matchLoop_advance] at ran
    obtain ⟨outcome, passed, ran⟩ := Run.bind_ok ran
    cases outcome with
    | inl same =>
      cases ran
      rw [seeking_answer passed] at passed
      exact ⟨by simp, fun _ => ⟨_, .refl, passed⟩⟩
    | inr next =>
      cases next with
      | seeking p' k' last' =>
        obtain ⟨left, failed⟩ := ih ran
        refine ⟨fun q member => .head passed (left q member), fun ended => ?_⟩
        obtain ⟨stage, reached, answered⟩ := failed ended
        exact ⟨stage, .head passed reached, answered⟩
      | closing q =>
        cases ran
        refine ⟨?_, by simp⟩
        simp only [Option.mem_def, Option.some.injEq, forall_eq']
        exact .single passed

theorem skipStars_reaches (n : Nat) {p q : Nat} (ran : skipStars pattern n p = .ok q) :
    ∃ stage, Reaches pattern key (.closing p) stage ∧ advance pattern key stage = .ok (.inl (q == pattern.length)) := by
  induction n generalizing p with
  | zero => cases ran
  | succ n ih =>
    rw [@skipStars_advance _ key] at ran
    obtain ⟨outcome, passed, ran⟩ := Run.bind_ok ran
    obtain rfl | rfl := closing_outcome passed
    · obtain ⟨stage, reached, answered⟩ := ih ran
      exact ⟨stage, .head passed reached, answered⟩
    · cases ran
      exact ⟨_, .refl, passed⟩

theorem run_reaches {same : Bool} (ran : run pattern key = .ok same) :
    ∃ stage, Reaches pattern key .start stage ∧ advance pattern key stage = .ok (.inl same) := by
  unfold run at ran
  obtain ⟨end', looped, ran⟩ := Run.bind_ok ran
  obtain ⟨left, failed⟩ := matchLoop_reaches _ looped
  cases end' with
  | none =>
    cases ran
    exact failed rfl
  | some p =>
    obtain ⟨q, skipped, ran⟩ := Run.bind_ok ran
    cases ran
    obtain ⟨stage, reached, answered⟩ := @skipStars_reaches _ key _ _ _ skipped
    exact ⟨stage, (left p rfl).trans reached, answered⟩

end Passes

end Glob

/-- Both copies of the matcher end on every pattern and key, and read inside them at every pass. -/
theorem matches_ends (pattern key : Bytes) :
    (∀ stage, Glob.Reaches pattern key .start stage →
      (∃ same, Glob.advance pattern key stage = .ok (.inl same)) ∨
        ∃ next, Glob.advance pattern key stage = .ok (.inr next) ∧
          next.weight pattern key < stage.weight pattern key) ∧
    (∀ stages : Nat → Glob.Stage, stages 0 = .start →
      ∃ i, ¬ Glob.Advances pattern key (stages i) (stages (i + 1))) ∧
    ∃ stage same, Glob.Reaches pattern key .start stage ∧ Glob.advance pattern key stage = .ok (.inl same) ∧
      Glob.run pattern key = .ok same ∧ globMatches pattern key = same ∧ namespaceGlobMatches pattern key = same := by
  refine ⟨fun stage reached => ?_, fun stages started => ?_, ?_⟩
  · have inside := Glob.reaches_inside (Glob.start_inside pattern) reached
    obtain answered | ⟨next, moved, _, lighter⟩ := @Glob.advance_ok pattern key stage inside
    · exact Or.inl answered
    · exact Or.inr ⟨next, moved, lighter⟩
  · apply Glob.advances_ends stages
    rw [started]
    exact Glob.start_inside pattern
  · obtain ⟨same, ran⟩ := Glob.run_ok pattern key
    obtain ⟨stage, reached, answered⟩ := Glob.run_reaches ran
    refine ⟨stage, same, reached, answered, ran, ?_, ?_⟩
    · unfold globMatches
      rw [ran]
    · unfold namespaceGlobMatches globMatches
      rw [ran]

end ArchivAgent
