import ArchivAgent.Redact.Pieces

/-!
# What the lint makes of a syntax tree

Where no class and no group name is misread, the lint sees a pattern's groups and quantifiers as
they are, but for one thing: of the quantifiers behind a group it only holds the first one against
the group's content.
-/

namespace ArchivAgent
open Wire (Bytes)
open Lint

namespace Atom

theorem ordinary_inert {b : UInt8} (ordinary : Ordinary b) : Inert b := by
  unfold Ordinary at ordinary
  unfold Inert
  simp only [List.mem_cons, List.not_mem_nil, or_false, not_or] at ordinary ⊢
  tauto

theorem lex_name {name : Bytes} (plain : ∀ b ∈ name, Ordinary b ∧ b ≠ 44 ∧ b ≠ 125) (rest : Bytes) :
    lex (123 :: (name ++ 125 :: rest)) = lex rest := by
  have read : ∀ (ns : Bytes) (k : Nat), (∀ b ∈ ns, Ordinary b ∧ b ≠ 44 ∧ b ≠ 125) →
      braceEnd (ns ++ 125 :: rest) k false = (false, 1) ∨ braceEnd (ns ++ 125 :: rest) k false = (false, k + ns.length + 1) := by
    intro ns
    induction ns with
    | nil => exact fun k _ => Or.inr rfl
    | cons n ns ih =>
      intro k plain
      obtain ⟨⟨_, notComma, notEnd⟩, plain⟩ := List.forall_mem_cons.mp plain
      rw [List.cons_append, braceEnd, if_neg notEnd, if_neg notComma]
      by_cases digit : 48 ≤ n ∧ n ≤ 57
      · rw [if_pos digit, List.length_cons, show k + (ns.length + 1) + 1 = k + 1 + ns.length + 1 by omega]
        exact ih (k + 1) plain
      · rw [if_neg digit]
        exact Or.inl rfl
  rw [lex_brace]
  rcases read name 1 plain with bad | ended
  · rw [bad]
    show lex (name ++ 125 :: rest) = _
    rw [lex_inert_append (fun b found => ordinary_inert (plain b found).1), lex_inert (by unfold Inert; decide)]
  · rw [ended]
    show lex ((name ++ 125 :: rest).drop (1 + name.length)) = _
    rw [List.append_cons, show 1 + name.length = (name ++ [125]).length by simp [Nat.add_comm], List.drop_left]

/-- The members of a class behind its first closing bracket are read as a pattern. -/
def tokens : Atom → List Tok
  | .literal _ => []
  | .escape _ _ => []
  | .bracket _ _ members => lex (Members.closing members.behind)

theorem tokens_calm {a : Atom} (wellFormed : a.WellFormed) (calm : a.Calm) : a.tokens = [] := by
  cases a with
  | literal _ => rfl
  | escape _ _ => rfl
  | bracket negated bracketFirst members =>
    exact Members.lex_calm _ _ (Nat.le_refl _) (Members.behind_wellFormed wellFormed.2) calm

theorem lex_render {a : Atom} (wellFormed : a.WellFormed) (rest : Bytes) : lex (a.render ++ rest) = a.tokens ++ lex rest := by
  cases a with
  | literal b => exact lex_inert (ordinary_inert wellFormed) rest
  | escape c name =>
    cases name with
    | none => exact lex_escape c rest
    | some name =>
      simp only [render, List.cons_append, List.append_assoc, List.nil_append]
      rw [lex_escape, lex_name (wellFormed name rfl)]
      rfl
  | bracket negated bracketFirst members =>
    rw [render, Members.behindClass_bracketed wellFormed.1 wellFormed.2]
    exact Members.lex_closing _ _ (Nat.le_refl _) (Members.behind_wellFormed wellFormed.2) rest

theorem render_unquantified {a : Atom} (wellFormed : a.WellFormed) (rest : Bytes) :
    Quantifier.Unquantified (a.render ++ rest) := by
  intro b first
  cases a with
  | literal c =>
    cases first
    simp only [WellFormed, Ordinary, List.mem_cons, List.not_mem_nil, or_false, not_or] at wellFormed
    tauto
  | escape c name =>
    cases name <;>
    · cases first
      decide
  | bracket negated bracketFirst members =>
    cases first
    decide

end Atom

namespace Opening

theorem lex_render {o : Opening} (wellFormed : o.WellFormed) (plain : o.Plain) (rest : Bytes) :
    lex (o.render ++ rest) = lex rest := by
  cases o with
  | capture => rfl
  | flagged flags =>
    simp only [render, List.cons_append, List.append_assoc, List.nil_append]
    rw [lex_inert (by unfold Inert; decide), lex_inert_append, lex_inert (by unfold Inert; decide)]
    intro b found
    have flag := wellFormed b found
    unfold Flag at flag
    unfold Inert
    simp only [List.mem_cons, List.not_mem_nil, or_false] at flag
    rcases flag with rfl | rfl | rfl | rfl | rfl | rfl | rfl <;> decide
  | named isLong name =>
    have marker : ∀ bs : Bytes, lex ((if isLong then [80] else []) ++ bs) = lex bs := by
      intro bs
      cases isLong with
      | true => exact lex_inert (by unfold Inert; decide) bs
      | false => rfl
    simp only [render, List.cons_append, List.append_assoc, List.nil_append]
    rw [lex_inert (by unfold Inert; decide), marker, lex_inert (by unfold Inert; decide), lex_inert_append,
      lex_inert (by unfold Inert; decide)]
    intro b found special
    have named := wellFormed b found
    unfold NameByte at named
    simp only [List.mem_cons, List.not_mem_nil, or_false] at special
    rcases special with rfl | rfl | rfl | rfl | rfl | rfl | rfl
    · exact absurd named (by decide)
    · exact absurd named (by decide)
    · exact absurd named (by decide)
    · exact absurd named (by decide)
    · exact plain found
    · exact absurd named (by decide)
    · exact absurd named (by decide)

end Opening

namespace Regex

/-- The tokens of a tree: what the lint reads of it if it misreads no group name. -/
def tokens : Regex → List Tok
  | .empty => []
  | .atom a quantifiers => a.tokens ++ Quantifier.tokens quantifiers
  | .flags _ => [.opens, .closes false]
  | .group _ body quantifiers =>
    .opens :: body.tokens ++ .closes (quantifiers.head?.any Quantifier.unbounded) :: Quantifier.tokens quantifiers.tail
  | .concat left right => left.tokens ++ right.tokens
  | .alternate left right => left.tokens ++ right.tokens

theorem render_unquantified {p : Regex} (wellFormed : p.WellFormed) {rest : Bytes} (unquantified : Quantifier.Unquantified rest) :
    Quantifier.Unquantified (p.render ++ rest) := by
  induction p generalizing rest with
  | empty => exact unquantified
  | atom a quantifiers =>
    rw [render, List.append_assoc]
    exact a.render_unquantified wellFormed _
  | flags bytes =>
    intro b first
    cases first
    decide
  | group opening body quantifiers _ =>
    intro b first
    cases first
    decide
  | concat left right ihLeft ihRight =>
    rw [render, List.append_assoc]
    exact ihLeft wellFormed.1 (ihRight wellFormed.2 unquantified)
  | alternate left right ihLeft ihRight =>
    rw [render, List.append_assoc]
    apply ihLeft wellFormed.1
    intro b first
    cases first
    decide

theorem lex_render {p : Regex} (wellFormed : p.WellFormed) (plain : p.Plain) {rest : Bytes}
    (unquantified : Quantifier.Unquantified rest) : lex (p.render ++ rest) = p.tokens ++ lex rest := by
  induction p generalizing rest with
  | empty => rfl
  | atom a quantifiers =>
    rw [render, List.append_assoc, a.lex_render wellFormed, Quantifier.lex_render, tokens, List.append_assoc]
  | flags bytes =>
    have inert : ∀ b ∈ bytes, Inert b := by
      intro b found
      have flag := wellFormed b found
      unfold Opening.Flag at flag
      unfold Inert
      simp only [List.mem_cons, List.not_mem_nil, or_false] at flag
      rcases flag with rfl | rfl | rfl | rfl | rfl | rfl | rfl <;> decide
    simp only [render, List.cons_append, List.append_assoc, List.nil_append]
    rw [lex_opens, lex_inert (by unfold Inert; decide), lex_inert_append inert]
    exact congrArg _ (Quantifier.lex_closes_render [] unquantified)
  | group opening body quantifiers ih =>
    have ended : Quantifier.Unquantified (41 :: (quantifiers.flatMap Quantifier.render ++ rest)) := by
      intro b first
      cases first
      decide
    simp only [render, List.cons_append, List.append_assoc]
    rw [lex_opens, opening.lex_render wellFormed.1 plain.1, ih wellFormed.2 plain.2 ended, Quantifier.lex_closes_render _ unquantified]
    simp only [tokens, List.cons_append, List.append_assoc]
  | concat left right ihLeft ihRight =>
    rw [render, List.append_assoc, ihLeft wellFormed.1 plain.1 (render_unquantified wellFormed.2 unquantified),
      ihRight wellFormed.2 plain.2 unquantified, tokens, List.append_assoc]
  | alternate left right ihLeft ihRight =>
    have bar : Quantifier.Unquantified (124 :: (right.render ++ rest)) := by
      intro b first
      cases first
      decide
    rw [render, List.append_assoc, List.cons_append, ihLeft wellFormed.1 plain.1 bar, lex_inert (by unfold Inert; decide),
      ihRight wellFormed.2 plain.2 unquantified, tokens, List.append_assoc]

theorem run_append_tokens (left right : Regex) (f : Bool) (fs : List Bool)
    (ranLeft : ∀ f, run left.tokens (f :: fs) =
      if left.firstNested then .error nestedRepetition else .ok ((f || left.hasUnbounded) :: fs))
    (ranRight : ∀ f, run right.tokens (f :: fs) =
      if right.firstNested then .error nestedRepetition else .ok ((f || right.hasUnbounded) :: fs)) :
    run (left.tokens ++ right.tokens) (f :: fs) = if left.firstNested || right.firstNested then .error nestedRepetition
      else .ok ((f || (left.hasUnbounded || right.hasUnbounded)) :: fs) := by
  rw [run_append, ranLeft]
  cases left.firstNested with
  | true => rfl
  | false => rw [if_neg (by decide), Except.bind, ranRight, Bool.false_or, Bool.or_assoc]

/-- The stack goes through a calm tree: it refuses, or marks the frame the tree stands in. -/
theorem run_tokens {p : Regex} (wellFormed : p.WellFormed) (calm : p.Calm) (f : Bool) (fs : List Bool) : run p.tokens (f :: fs) =
    if p.firstNested then .error nestedRepetition else .ok ((f || p.hasUnbounded) :: fs) := by
  induction p generalizing f fs with
  | empty =>
    rw [hasUnbounded, Bool.or_false]
    rfl
  | atom a quantifiers =>
    rw [tokens, a.tokens_calm wellFormed calm]
    exact Quantifier.run_tokens quantifiers f fs
  | flags _ => rfl
  | group opening body quantifiers ih =>
    show run (.opens :: (body.tokens ++ _)) (f :: fs) = _
    rw [run, run_append, ih wellFormed.2 calm, firstNested]
    cases body.firstNested with
    | true =>
      rw [Bool.or_true]
      rfl
    | false =>
      rw [if_neg (by decide), Except.bind, run_closes, Bool.false_or, Bool.or_false]
      by_cases refused : (quantifiers.head?.any Quantifier.unbounded && body.hasUnbounded) = true
      · rw [if_pos refused, if_pos refused]
      · rw [if_neg refused, if_neg refused, Quantifier.run_tokens, hasUnbounded]
        cases quantifiers with
        | nil => simp
        | cons q qs =>
          simp only [List.head?_cons, Option.any_some, List.tail_cons, List.any_cons]
          congr 2
          ac_rfl
  | concat left right ihLeft ihRight =>
    exact run_append_tokens left right f fs (fun f => ihLeft wellFormed.1 calm.1 f fs) (fun f => ihRight wellFormed.2 calm.2 f fs)
  | alternate left right ihLeft ihRight =>
    exact run_append_tokens left right f fs (fun f => ihLeft wellFormed.1 calm.1 f fs) (fun f => ihRight wellFormed.2 calm.2 f fs)

end Regex

/-! ### Refused and accepted -/

theorem checkNestedRepetition_ok_iff (pattern : Bytes) :
    checkNestedRepetition pattern = .ok () ↔ ¬ReadNested (lex pattern) := by
  rw [← run_error_iff, checkNestedRepetition_eq]
  cases ran : run (lex pattern) [false] with
  | error e => simp [Except.map, run_error ran]
  | ok frames => simp [Except.map]

section Trees
variable {p : Regex} (wellFormed : p.WellFormed) (plain : p.Plain)
include wellFormed plain

theorem lex_plain : lex p.render = p.tokens := by
  have ended : Quantifier.Unquantified [] := by
    intro b first
    cases first
  have read := p.lex_render wellFormed plain ended
  rwa [List.append_nil, lex_nil, List.append_nil] at read

theorem readNested_calm (calm : p.Calm) : ReadNested (lex p.render) ↔ p.firstNested = true := by
  rw [lex_plain wellFormed plain, ← run_error_iff, p.run_tokens wellFormed calm]
  cases p.firstNested with
  | true => simp
  | false => simp

end Trees

/-- The lint refuses a nested repetition if and only if it reads one: in the bytes of the pattern,
in the tokens of the tree when no name is misread, and when no class is misread either, right behind
a group. -/
theorem checkNestedRepetition_refuses_iff (p : Regex) :
    ((p.WellFormed → p.nested = true → checkNestedRepetition p.render = .error nestedRepetition) ↔
      (p.WellFormed → p.nested = true → ReadNested (lex p.render))) ∧
    (p.WellFormed → p.Plain →
      ((p.nested = true → checkNestedRepetition p.render = .error nestedRepetition) ↔
        (p.nested = true → ReadNested p.tokens))) ∧
    (p.WellFormed → p.Plain → p.Calm →
      ((p.nested = true → checkNestedRepetition p.render = .error nestedRepetition) ↔
        (p.nested = true → p.firstNested = true))) := by
  rw [checkNestedRepetition_error_iff]
  refine ⟨Iff.rfl, fun wellFormed plain => ?_, fun wellFormed plain calm => ?_⟩
  · rw [lex_plain wellFormed plain]
  · rw [readNested_calm wellFormed plain calm]

/-- `(a+)?+`: the question mark stands between the group and the plus. -/
theorem checkNestedRepetition_refuses_not :
    ¬∀ p : Regex, p.WellFormed → p.nested = true → checkNestedRepetition p.render = .error nestedRepetition := by
  intro claimed
  have refused := claimed (.group .capture (.atom (.literal 97) [⟨.plus, false⟩]) [⟨.optional, false⟩, ⟨.plus, false⟩])
    ⟨trivial, by unfold Regex.WellFormed Atom.WellFormed Atom.Ordinary; decide⟩ rfl
  exact absurd refused (by decide)

/-- A safe pattern is accepted if and only if the lint reads no nested repetition, and it reads none
when no name and no class is misread. -/
theorem checkNestedRepetition_accepts_iff (p : Regex) :
    ((p.WellFormed → p.safe = true → checkNestedRepetition p.render = .ok ()) ↔
      (p.WellFormed → p.safe = true → ¬ReadNested (lex p.render))) ∧
    (p.WellFormed → p.Plain →
      ((p.safe = true → checkNestedRepetition p.render = .ok ()) ↔ (p.safe = true → ¬ReadNested p.tokens))) ∧
    (p.WellFormed → p.Plain → p.Calm → p.safe = true → checkNestedRepetition p.render = .ok ()) := by
  rw [checkNestedRepetition_ok_iff]
  refine ⟨Iff.rfl, fun wellFormed plain => ?_, fun wellFormed plain calm safe => ?_⟩
  · rw [lex_plain wellFormed plain]
  · rw [readNested_calm wellFormed plain calm]
    intro first
    have nested := p.nested_of_firstNested first
    rw [Regex.not_nested_of_safe safe] at nested
    cases nested

/-- `([[:alpha:]+])+`: the plus inside the class is read as a quantifier. -/
def lettersOrPlus : Regex :=
  let alpha := [58, 97, 108, 112, 104, 97, 58].foldr Members.byte .nil
  .group .capture (.atom (.bracket false false (.nested false false alpha (.byte 43 .nil))) []) [⟨.plus, false⟩]

theorem checkNestedRepetition_accepts_not :
    ¬∀ p : Regex, p.WellFormed → p.safe = true → checkNestedRepetition p.render = .ok () := by
  intro claimed
  have wellFormed : lettersOrPlus.WellFormed := by
    simp [lettersOrPlus, Regex.WellFormed, Opening.WellFormed, Atom.WellFormed, Members.WellFormed, Members.Opens]
  exact absurd (claimed lettersOrPlus wellFormed rfl) (by decide)

end ArchivAgent
