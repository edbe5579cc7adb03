import ArchivAgent.Redact.Lint
import Mathlib.Data.List.Basic

/-!
# What the lint's stack says

The lint sees a pattern as parentheses and unbounded quantifiers. It refuses one exactly when a
balanced stretch with such a quantifier stands at the start of the pattern or behind an opening
parenthesis, and a closing parenthesis with such a quantifier follows.
-/

namespace ArchivAgent.Lint

inductive Tok where
  | opens
  /-- A closing parenthesis, and whether an unbounded quantifier stands right behind it. -/
  | closes (repeated : Bool)
  /-- Any other unbounded quantifier. -/
  | repeats
  deriving DecidableEq, Repr

def Tok.unbounded : Tok → Bool
  | .opens => false
  | .closes repeated => repeated
  | .repeats => true

def unbounded (ts : List Tok) : Bool := ts.any Tok.unbounded

def run : List Tok → List Bool → Except String (List Bool)
  | [], frames => .ok frames
  | .opens :: ts, frames => run ts (false :: frames)
  | .closes repeated :: ts, frames =>
    let innerUnbounded := frames.head?.getD false
    if repeated && innerUnbounded then .error nestedRepetition
    else run ts (mark (innerUnbounded || repeated) frames.tail)
  | .repeats :: ts, frames => run ts (mark true frames)

inductive Balanced : List Tok → Prop
  | nil : Balanced []
  | repeats {ts : List Tok} : Balanced ts → Balanced (.repeats :: ts)
  | group {ts us : List Tok} (repeated : Bool) : Balanced ts → Balanced us →
      Balanced (.opens :: ts ++ .closes repeated :: us)

/-- A closing parenthesis with an unbounded quantifier, behind a balanced stretch that has one. -/
def ReadNested (ts : List Tok) : Prop :=
  ∃ a m b, ts = a ++ m ++ .closes true :: b ∧ Balanced m ∧ unbounded m = true ∧ (a = [] ∨ ∃ a', a = a' ++ [.opens])

theorem unbounded_append (ts us : List Tok) : unbounded (ts ++ us) = (unbounded ts || unbounded us) := List.any_append

theorem Balanced.append {ts us : List Tok} (front : Balanced ts) (back : Balanced us) : Balanced (ts ++ us) := by
  induction front with
  | nil => exact back
  | repeats _ ih => exact .repeats ih
  | @group ts vs repeated inner _ _ ih =>
    rw [List.append_assoc]
    exact .group repeated inner ih

theorem run_append (ts us : List Tok) (frames : List Bool) : run (ts ++ us) frames = (run ts frames).bind (run us) := by
  induction ts generalizing frames with
  | nil => rfl
  | cons t ts ih =>
    cases t with
    | opens => exact ih _
    | closes repeated =>
      simp only [List.cons_append, run]
      split
      · rfl
      · exact ih _
    | repeats => exact ih _

theorem run_error {ts : List Tok} {frames : List Bool} {e : String} (failed : run ts frames = .error e) : e = nestedRepetition := by
  induction ts generalizing frames with
  | nil => cases failed
  | cons t ts ih =>
    cases t with
    | opens => exact ih failed
    | closes repeated =>
      simp only [run] at failed
      split at failed
      · cases failed
        rfl
      · exact ih failed
    | repeats => exact ih failed

theorem run_closes (repeated f g : Bool) (fs : List Bool) (ts : List Tok) : run (.closes repeated :: ts) (f :: g :: fs) =
    if repeated && f then .error nestedRepetition else run ts ((g || (f || repeated)) :: fs) := rfl

theorem mark_false (frames : List Bool) : mark false frames = frames := by
  cases frames with
  | nil => rfl
  | cons f fs => simp only [mark, Bool.or_false]

theorem run_balanced {ts : List Tok} (balanced : Balanced ts) (f : Bool) (fs : List Bool) :
    run ts (f :: fs) = .error nestedRepetition ∨ run ts (f :: fs) = .ok ((f || unbounded ts) :: fs) := by
  induction balanced generalizing f fs with
  | nil => exact Or.inr (by simp [run, unbounded])
  | @repeats ts _ ih =>
    have rest := ih true fs
    have one : run (.repeats :: ts) (f :: fs) = run ts (true :: fs) := by simp [run, mark]
    rw [one]
    simpa [unbounded, Tok.unbounded] using rest
  | @group ts us repeated _ _ inner outer =>
    rw [show Tok.opens :: ts ++ .closes repeated :: us = .opens :: (ts ++ .closes repeated :: us) from rfl, run, run_append]
    rcases inner false (f :: fs) with failed | ran
    · rw [failed]
      exact Or.inl rfl
    · rw [ran, Bool.false_or, Except.bind, run_closes]
      by_cases refused : (repeated && unbounded ts) = true
      · rw [if_pos refused]
        exact Or.inl rfl
      · rw [if_neg refused]
        rcases outer (f || (unbounded ts || repeated)) fs with failed | ran
        · exact Or.inl failed
        · refine Or.inr (ran.trans ?_)
          simp [unbounded, Tok.unbounded, Bool.or_assoc]

theorem run_readNested {ts : List Tok} (nested : ReadNested ts) : run ts [false] = .error nestedRepetition := by
  obtain ⟨a, m, b, rfl, balanced, marked, start⟩ := nested
  -- Right before the closing parenthesis, the frame on top is marked.
  have refused : ∀ fs, (run m (false :: fs)).bind (run (.closes true :: b)) = .error nestedRepetition := by
    intro fs
    rcases run_balanced balanced false fs with failed | ran
    · rw [failed]
      rfl
    · rw [ran, marked]
      rfl
  rw [List.append_assoc, run_append]
  rcases start with rfl | ⟨a', rfl⟩
  · show run (m ++ _) [false] = _
    rw [run_append]
    exact refused []
  · rw [run_append]
    cases ran : run a' [false] with
    | error e =>
      rw [run_error ran]
      rfl
    | ok fs =>
      show run (m ++ _) (false :: fs) = _
      rw [run_append]
      exact refused fs

/-! ### What the frames stand for -/

/-- Each frame is a balanced stretch behind an opening parenthesis, and whether it is marked. Once
the pattern's own frame is closed, nothing is known of what came before. -/
inductive Stack : List Tok → List Bool → Prop
  | bottom {m : List Tok} : Balanced m → Stack m [unbounded m]
  | lost (ts : List Tok) : Stack ts []
  | push {ts m : List Tok} {frames : List Bool} : Stack ts frames → Balanced m →
      Stack (ts ++ .opens :: m) (unbounded m :: frames)

theorem Stack.balanced {ts m : List Tok} {frames : List Bool} (stack : Stack ts frames) (balanced : Balanced m) :
    Stack (ts ++ m) (mark (unbounded m) frames) := by
  cases stack with
  | bottom before =>
    have joined := Stack.bottom (before.append balanced)
    rwa [unbounded_append] at joined
  | lost => exact .lost _
  | push below before =>
    have joined := below.push (before.append balanced)
    rwa [unbounded_append, ← List.cons_append, ← List.append_assoc] at joined

theorem Stack.readNested {ts us : List Tok} {frames : List Bool} (stack : Stack ts frames)
    (marked : frames.head?.getD false = true) : ReadNested (ts ++ .closes true :: us) := by
  cases stack with
  | bottom balanced => exact ⟨[], ts, us, rfl, balanced, marked, Or.inl rfl⟩
  | lost => cases marked
  | @push ts m frames _ balanced =>
    refine ⟨ts ++ [.opens], m, us, ?_, balanced, marked, Or.inr ⟨ts, rfl⟩⟩
    simp only [List.append_assoc, List.cons_append, List.nil_append]

theorem Stack.closes {ts : List Tok} {frames : List Bool} (stack : Stack ts frames) (repeated : Bool) :
    Stack (ts ++ [.closes repeated]) (mark (frames.head?.getD false || repeated) frames.tail) := by
  cases stack with
  | bottom _ => exact .lost _
  | lost => exact .lost _
  | @push ts m frames below balanced =>
    have group : Balanced (.opens :: m ++ [.closes repeated]) := .group repeated balanced .nil
    have joined := below.balanced group
    rw [List.append_assoc, List.cons_append]
    simpa [unbounded, Tok.unbounded] using joined

theorem Stack.run {ts : List Tok} (us : List Tok) {frames : List Bool} (stack : Stack ts frames)
    (failed : run us frames = .error nestedRepetition) : ReadNested (ts ++ us) := by
  induction us generalizing ts frames with
  | nil => cases failed
  | cons u us ih =>
    rw [← List.singleton_append, ← List.append_assoc]
    cases u with
    | opens => exact ih (stack.push .nil) failed
    | closes repeated =>
      simp only [Lint.run] at failed
      split at failed
      · rename_i refused
        rw [Bool.and_eq_true] at refused
        obtain ⟨rfl, marked⟩ := refused
        rw [List.append_assoc]
        exact stack.readNested marked
      · exact ih (stack.closes repeated) failed
    | repeats => exact ih (stack.balanced (.repeats .nil)) failed

theorem run_error_iff (ts : List Tok) : run ts [false] = .error nestedRepetition ↔ ReadNested ts :=
  ⟨fun failed => Stack.run ts (.bottom .nil) failed, run_readNested⟩

end ArchivAgent.Lint
