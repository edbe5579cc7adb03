/-!
# Runs of a step function

A step takes a state and a label, and has no result where the label cannot happen. A run takes
its labels in order. What every step keeps, the run keeps; what the steps set or add is read off
the labels.
-/

namespace Transition

variable {σ ε γ : Type} {step : σ → ε → Option σ} {s s' : σ} {es : List ε}

def run (step : σ → ε → Option σ) (s : σ) (es : List ε) : Option σ := es.foldlM step s

@[simp] theorem run_nil : run step s [] = some s := rfl

theorem run_cons {e : ε} : run step s (e :: es) = (step s e).bind (run step · es) := by
  simp only [run, List.foldlM_cons]
  rfl

theorem run_cons_some {e : ε} : run step s (e :: es) = some s' ↔ ∃ mid, step s e = some mid ∧ run step mid es = some s' := by
  rw [run_cons, Option.bind_eq_some_iff]

theorem run_append {fs : List ε} : run step s (es ++ fs) = some s' ↔
    ∃ mid, run step s es = some mid ∧ run step mid fs = some s' := by
  rw [run, List.foldlM_append]
  exact Option.bind_eq_some_iff

theorem run_snoc {e : ε} : run step s (es ++ [e]) = some s' ↔
    ∃ mid, run step s es = some mid ∧ step mid e = some s' := by
  rw [run_append]
  refine exists_congr fun mid => and_congr_right fun _ => ?_
  rw [run_cons_some]
  exact ⟨fun ⟨_, one, last⟩ => one.trans last, fun one => ⟨s', one, rfl⟩⟩

theorem run_invariant (Inv : σ → Prop) (h : run step s es = some s')
    (keeps : ∀ e ∈ es, ∀ s s', step s e = some s' → Inv s → Inv s') (start : Inv s) : Inv s' := by
  induction es generalizing s with
  | nil => cases h; exact start
  | cons e es ih =>
    obtain ⟨mid, one, rest⟩ := run_cons_some.mp h
    simp only [List.mem_cons, forall_eq_or_imp] at keeps
    exact ih rest keeps.2 (keeps.1 s mid one start)

theorem run_last {δ : Type} (proj : σ → δ) (write : ε → Option δ) (h : run step s es = some s')
    (each : ∀ e ∈ es, ∀ s s', step s e = some s' → proj s' = (write e).getD (proj s)) :
    proj s' = ((es.filterMap write).getLast?).getD (proj s) := by
  induction es generalizing s with
  | nil => cases h; rfl
  | cons e es ih =>
    obtain ⟨mid, one, rest⟩ := run_cons_some.mp h
    simp only [List.mem_cons, forall_eq_or_imp] at each
    rw [ih rest each.2, each.1 s mid one]
    cases written : write e with
    | none => rw [List.filterMap_cons_none written]; rfl
    | some d =>
      rw [List.filterMap_cons_some written, List.getLast?_cons]
      cases (es.filterMap write).getLast? <;> rfl

theorem run_collected_of {δ : Type} (Inv : σ → Prop) (proj : σ → List δ) (write : ε → List δ) (h : run step s es = some s')
    (keeps : ∀ s e s', step s e = some s' → Inv s → Inv s')
    (each : ∀ e ∈ es, ∀ s s', Inv s → step s e = some s' → proj s' = proj s ++ write e) (start : Inv s) :
    proj s' = proj s ++ es.flatMap write := by
  induction es generalizing s with
  | nil => cases h; simp
  | cons e es ih =>
    obtain ⟨mid, one, rest⟩ := run_cons_some.mp h
    simp only [List.mem_cons, forall_eq_or_imp] at each
    rw [ih rest each.2 (keeps s e mid one start), each.1 s mid start one, List.flatMap_cons, List.append_assoc]

theorem run_collected {δ : Type} (proj : σ → List δ) (write : ε → List δ) (h : run step s es = some s')
    (each : ∀ e ∈ es, ∀ s s', step s e = some s' → proj s' = proj s ++ write e) :
    proj s' = proj s ++ es.flatMap write :=
  run_collected_of (fun _ => True) proj write h (fun _ _ _ _ _ => trivial) (fun e member s s' _ => each e member s s') trivial

/-- What the steps of a run give out, each read off the state it leads to. -/
def outputs {δ : Type} (step : σ → ε → Option σ) (out : ε → σ → Option δ) : σ → List ε → List δ
  | _, [] => []
  | s, e :: es => match step s e with
    | some mid => (out e mid).toList ++ outputs step out mid es
    | none => []

/-- What a run gives out of a queue is what it was given, in its order, up to what still waits. -/
theorem run_queue {δ : Type} (proj : σ → List δ) (write : ε → Option δ) (out : ε → σ → Option δ) (h : run step s es = some s')
    (each : ∀ e ∈ es, ∀ s s', step s e = some s' → proj s ++ (write e).toList = (out e s').toList ++ proj s') :
    proj s ++ es.filterMap write = outputs step out s es ++ proj s' := by
  induction es generalizing s with
  | nil =>
    cases h
    exact List.append_nil _
  | cons e es ih =>
    obtain ⟨mid, one, rest⟩ := run_cons_some.mp h
    simp only [List.mem_cons, forall_eq_or_imp] at each
    rw [outputs, one, List.append_assoc, ← ih rest each.2, ← List.append_assoc, ← each.1 s mid one, List.append_assoc,
      List.filterMap_cons]
    cases write e <;> rfl

theorem outputs_length {δ : Type} {out : ε → σ → Option δ} {gives : ε → Bool} (h : run step s es = some s')
    (each : ∀ e ∈ es, ∀ s s', step s e = some s' → (out e s').isSome = gives e) :
    (outputs step out s es).length = es.countP gives := by
  induction es generalizing s with
  | nil => rfl
  | cons e es ih =>
    obtain ⟨mid, one, rest⟩ := run_cons_some.mp h
    simp only [List.mem_cons, forall_eq_or_imp] at each
    rw [outputs, one, List.length_append, ih rest each.2, List.countP_cons, ← each.1 s mid one, Nat.add_comm]
    cases out e mid <;> rfl

/-! ### Runs whose steps meet a condition -/

/-- Every step of the run is taken where the condition holds. -/
def Along (step : σ → ε → Option σ) (cond : σ → ε → Prop) : σ → List ε → Prop
  | _, [] => True
  | s, e :: es => cond s e ∧ ∀ mid ∈ step s e, Along step cond mid es

instance Along.decide (step : σ → ε → Option σ) (cond : σ → ε → Prop) [∀ s e, Decidable (cond s e)] :
    (s : σ) → (es : List ε) → Decidable (Along step cond s es)
  | _, [] => isTrue trivial
  | s, e :: es =>
    have (mid : σ) : Decidable (Along step cond mid es) := Along.decide step cond mid es
    inferInstanceAs (Decidable (cond s e ∧ ∀ mid ∈ step s e, Along step cond mid es))

/-- An invariant that the steps keep where they meet the condition. -/
theorem along_invariant (Inv : σ → Prop) {cond : σ → ε → Prop} (h : run step s es = some s')
    (met : Along step cond s es) (keeps : ∀ s e s', step s e = some s' → cond s e → Inv s → Inv s')
    (start : Inv s) : Inv s' := by
  induction es generalizing s with
  | nil => cases h; exact start
  | cons e es ih =>
    obtain ⟨mid, one, rest⟩ := run_cons_some.mp h
    exact ih rest (met.2 mid one) (keeps s e mid one met.1 start)

/-- What a step does to a state is the same whichever run took the system there. -/
theorem along_of_invariant (Inv : σ → Prop) {cond : σ → ε → Prop}
    (keeps : ∀ s e s', step s e = some s' → Inv s → Inv s') (holds : ∀ s, ∀ e ∈ es, Inv s → cond s e)
    (start : Inv s) : Along step cond s es := by
  induction es generalizing s with
  | nil => trivial
  | cons e es ih =>
    simp only [List.mem_cons, forall_eq_or_imp] at holds
    exact ⟨(holds s).1 start, fun mid one => ih (fun s => (holds s).2) (keeps s e mid one start)⟩

/-- What a condition says of the label alone, it says of every label of the run. -/
theorem along_labels {cond : σ → ε → Prop} {P : ε → Prop} (h : run step s es = some s') (met : Along step cond s es)
    (each : ∀ s e s', step s e = some s' → cond s e → P e) : ∀ e ∈ es, P e := by
  induction es generalizing s with
  | nil => simp
  | cons e es ih =>
    obtain ⟨mid, one, rest⟩ := run_cons_some.mp h
    simp only [List.mem_cons, forall_eq_or_imp]
    exact ⟨each s e mid one met.1, ih rest (met.2 mid one)⟩

/-! ### Sums over a run -/

/-- What the steps of a run come to, each measured from the state before it to the one after. -/
def change (step : σ → ε → Option σ) (delta : σ → ε → σ → Int) : σ → List ε → Int
  | _, [] => 0
  | s, e :: es => match step s e with
    | some mid => delta s e mid + change step delta mid es
    | none => 0

/-- Steps that move a potential come to the difference of its ends. -/
theorem change_telescopes (Inv : σ → Prop) {delta : σ → ε → σ → Int} (potential : σ → Int) (h : run step s es = some s')
    (keeps : ∀ s e s', step s e = some s' → Inv s → Inv s')
    (each : ∀ e ∈ es, ∀ s s', Inv s → step s e = some s' → delta s e s' = potential s' - potential s) (start : Inv s) :
    change step delta s es = potential s' - potential s := by
  induction es generalizing s with
  | nil => cases h; simp [change]
  | cons e es ih =>
    obtain ⟨mid, one, rest⟩ := run_cons_some.mp h
    simp only [List.mem_cons, forall_eq_or_imp] at each
    rw [change, one]
    simp only [each.1 s mid start one, ih rest each.2 (keeps s e mid one start)]
    omega

end Transition
