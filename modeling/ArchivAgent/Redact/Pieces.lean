import ArchivAgent.Redact.Syntax

/-!
# What the lint reads of quantifiers and classes

A quantifier is read whole. A class is taken to end at its first closing bracket that is not
escaped, so that with a class inside it the rest of its members is read as pattern.
-/

namespace ArchivAgent
open Wire (Bytes)
open Lint

/-- A byte the lint goes over. -/
def Lint.Inert (b : UInt8) : Prop := b ∉ [40, 41, 42, 43, 91, 92, 123]

namespace Lint

theorem lex_inert {b : UInt8} (inert : Inert b) (rest : Bytes) : lex (b :: rest) = lex rest := by
  unfold Inert at inert
  simp only [List.mem_cons, List.not_mem_nil, or_false, not_or] at inert
  obtain ⟨not40, not41, not42, not43, not91, not92, not123⟩ := inert
  rw [lex_cons, if_neg not92, if_neg not91, if_neg not40, if_neg not41,
    if_neg (by rintro (rfl | rfl) <;> contradiction), if_neg not123]

theorem lex_inert_append {bs : Bytes} (inert : ∀ b ∈ bs, Inert b) (rest : Bytes) : lex (bs ++ rest) = lex rest := by
  induction bs with
  | nil => rfl
  | cons b bs ih =>
    rw [List.cons_append, lex_inert (inert b List.mem_cons_self), ih (fun c found => inert c (List.mem_cons_of_mem b found))]

theorem lex_escape (c : UInt8) (rest : Bytes) : lex (92 :: c :: rest) = lex rest := by
  rw [lex_cons, if_pos rfl]
  rfl

theorem lex_class (rest : Bytes) : lex (91 :: rest) = lex (behindClass rest) := by
  rw [lex_cons, if_neg (by decide), if_pos rfl]

theorem lex_opens (rest : Bytes) : lex (40 :: rest) = .opens :: lex rest := by
  rw [lex_cons, if_neg (by decide), if_neg (by decide), if_pos rfl]

theorem lex_closes (rest : Bytes) : lex (41 :: rest) = .closes (quantifier rest).1 :: lex (rest.drop (quantifier rest).2) := by
  rw [lex_cons, if_neg (by decide), if_neg (by decide), if_neg (by decide), if_pos rfl]

theorem lex_repeats {b : UInt8} (repeated : b = 42 ∨ b = 43) (rest : Bytes) : lex (b :: rest) = .repeats :: lex rest := by
  rcases repeated with rfl | rfl <;>
    rw [lex_cons, if_neg (by decide), if_neg (by decide), if_neg (by decide), if_neg (by decide), if_pos (by decide)]

theorem lex_brace (rest : Bytes) : lex (123 :: rest) =
    (if (braceEnd rest 1 false).1 then [.repeats] else []) ++ lex (rest.drop ((braceEnd rest 1 false).2 - 1)) := by
  rw [lex_cons, if_neg (by decide), if_neg (by decide), if_neg (by decide), if_neg (by decide), if_neg (by decide), if_pos rfl]

end Lint

/-! ### Quantifiers -/

namespace Digits

/-- The scan of a brace goes over the digits, and forgets a comma before them. -/
theorem braceEnd_append (n : Digits) (rest : Bytes) (k : Nat) (sawCommaLast : Bool) :
    braceEnd (n.bytes ++ rest) k sawCommaLast = braceEnd rest (k + n.bytes.length) false := by
  have passed : ∀ (ds : Bytes) (k : Nat) (sawCommaLast : Bool), (∀ b ∈ ds, 48 ≤ b ∧ b ≤ 57) → ds ≠ [] →
      braceEnd (ds ++ rest) k sawCommaLast = braceEnd rest (k + ds.length) false := by
    intro ds
    induction ds with
    | nil => exact fun _ _ _ none => absurd rfl none
    | cons d ds ih =>
      intro k sawCommaLast digits _
      have digit := digits d List.mem_cons_self
      have notEnd : d ≠ 125 := by
        rintro rfl
        exact absurd digit (by decide)
      have notComma : d ≠ 44 := by
        rintro rfl
        exact absurd digit (by decide)
      rw [List.cons_append, braceEnd, if_neg notEnd, if_neg notComma, if_pos digit]
      cases ds with
      | nil => rfl
      | cons e es =>
        rw [ih (k + 1) false (fun b found => digits b (List.mem_cons_of_mem d found)) (List.cons_ne_nil e es)]
        simp only [List.length_cons]
        congr 1
        omega
  exact passed n.bytes k sawCommaLast n.digits n.nonempty

end Digits

namespace Operator

theorem quantifier_render (op : Operator) (rest : Bytes) :
    quantifier (op.render ++ rest) = (op.unbounded, op.render.length) := by
  cases op with
  | star => rfl
  | plus => rfl
  | optional => rfl
  | exactly n =>
    simp only [render, List.cons_append, List.append_assoc, List.nil_append]
    rw [quantifier, if_neg (by decide), if_neg (by decide), if_pos rfl, n.braceEnd_append, braceEnd, if_pos rfl]
    simp only [unbounded, List.length_cons, List.length_append, List.length_nil]
    congr 1
    omega
  | atLeast n =>
    simp only [render, List.cons_append, List.append_assoc, List.nil_append]
    rw [quantifier, if_neg (by decide), if_neg (by decide), if_pos rfl, n.braceEnd_append, braceEnd, if_neg (by decide),
      if_pos rfl, braceEnd, if_pos rfl]
    simp only [unbounded, List.length_cons, List.length_append, List.length_nil]
    congr 1
    omega
  | between n m =>
    simp only [render, List.cons_append, List.append_assoc, List.nil_append]
    rw [quantifier, if_neg (by decide), if_neg (by decide), if_pos rfl, n.braceEnd_append, braceEnd, if_neg (by decide),
      if_pos rfl, m.braceEnd_append, braceEnd, if_pos rfl]
    simp only [unbounded, List.length_cons, List.length_append, List.length_nil]
    congr 1
    omega

/-- Where an operator stands behind no group, it is a token of its own if it is unbounded. -/
theorem lex_render (op : Operator) (rest : Bytes) :
    lex (op.render ++ rest) = (if op.unbounded then [.repeats] else []) ++ lex rest := by
  have braced : ∀ inner : Bytes, op.render = 123 :: inner →
      lex (op.render ++ rest) = (if op.unbounded then [.repeats] else []) ++ lex rest := by
    intro inner shape
    have read := op.quantifier_render rest
    rw [shape, List.cons_append, quantifier, if_neg (by decide), if_neg (by decide), if_pos rfl] at read
    rw [shape, List.cons_append, lex_brace, read, List.length_cons, Nat.add_sub_cancel, List.drop_left]
  cases op with
  | star => exact lex_repeats (Or.inl rfl) rest
  | plus => exact lex_repeats (Or.inr rfl) rest
  | optional => exact lex_inert (by unfold Inert; decide) rest
  | exactly n => exact braced _ rfl
  | atLeast n => exact braced _ rfl
  | between n m => exact braced _ rfl

end Operator

namespace Quantifier

theorem lex_lazy (isLazy : Bool) (rest : Bytes) : lex ((if isLazy then [63] else []) ++ rest) = lex rest := by
  cases isLazy with
  | true => exact lex_inert (by unfold Inert; decide) rest
  | false => rfl

/-- The tokens of the quantifiers behind anything but a group. -/
def tokens (quantifiers : List Quantifier) : List Tok :=
  quantifiers.flatMap fun q => if q.unbounded then [.repeats] else []

theorem lex_render (quantifiers : List Quantifier) (rest : Bytes) :
    lex (quantifiers.flatMap Quantifier.render ++ rest) = tokens quantifiers ++ lex rest := by
  induction quantifiers with
  | nil => rfl
  | cons q qs ih =>
    rw [List.flatMap_cons, render, List.append_assoc, List.append_assoc, q.operator.lex_render, lex_lazy, ih, ← List.append_assoc]
    rfl

def Unquantified (rest : Bytes) : Prop := ∀ b ∈ rest.head?, b ≠ 42 ∧ b ≠ 43 ∧ b ≠ 63 ∧ b ≠ 123

theorem quantifier_unquantified {rest : Bytes} (unquantified : Unquantified rest) : quantifier rest = (false, 0) := by
  cases rest with
  | nil => rfl
  | cons b bs =>
    obtain ⟨notStar, notPlus, notOptional, notBrace⟩ := unquantified b rfl
    rw [quantifier, if_neg (by rintro (rfl | rfl) <;> contradiction), if_neg notOptional, if_neg notBrace]

theorem lex_closes_render (quantifiers : List Quantifier) {rest : Bytes} (unquantified : Unquantified rest) :
    lex (41 :: (quantifiers.flatMap Quantifier.render ++ rest)) =
      .closes (quantifiers.head?.any Quantifier.unbounded) :: (tokens quantifiers.tail ++ lex rest) := by
  rw [lex_closes]
  cases quantifiers with
  | nil =>
    rw [List.flatMap_nil, List.nil_append, quantifier_unquantified unquantified]
    rfl
  | cons q qs =>
    rw [List.flatMap_cons, render, List.append_assoc, List.append_assoc, q.operator.quantifier_render, List.drop_left, lex_lazy,
      lex_render]
    rfl

theorem run_tokens (quantifiers : List Quantifier) (f : Bool) (fs : List Bool) :
    run (tokens quantifiers) (f :: fs) = .ok ((f || quantifiers.any Quantifier.unbounded) :: fs) := by
  induction quantifiers generalizing f with
  | nil => simp [tokens, run]
  | cons q qs ih =>
    show run ((if q.unbounded then [.repeats] else []) ++ tokens qs) (f :: fs) = _
    rw [List.any_cons]
    cases q.unbounded with
    | true =>
      show run (tokens qs) ((f || true) :: fs) = _
      rw [ih, Bool.or_assoc]
    | false =>
      rw [Bool.false_or]
      exact ih f

end Quantifier

/-! ### Classes -/

namespace Members

/-- Classes one in the other that are still open, from within the innermost. -/
def closing (ms : List Members) : Bytes := ms.flatMap fun m => m.render ++ [93]

theorem closing_append (ms ns : List Members) : closing (ms ++ ns) = closing ms ++ closing ns := List.flatMap_append

theorem closing_cons (m : Members) (ms : List Members) : closing (m :: ms) = m.render ++ 93 :: closing ms := by
  rw [closing, List.flatMap_cons, List.append_assoc]
  rfl

theorem behindMembers_byte {b : UInt8} (notEnd : b ≠ 93) (notEscape : b ≠ 92) (rest : Bytes) :
    behindMembers (b :: rest) = behindMembers rest := by
  rw [behindMembers_cons, if_neg notEnd, if_neg notEscape]

theorem behindMembers_escape (c : UInt8) (rest : Bytes) : behindMembers (92 :: c :: rest) = behindMembers rest := by
  rw [behindMembers_cons, if_neg (by decide), if_pos rfl]
  rfl

theorem behindMembers_end (rest : Bytes) : behindMembers (93 :: rest) = rest := by rw [behindMembers_cons, if_pos rfl]

/-- The lint takes the first closing bracket that is not escaped for the end of a class. -/
theorem behindMembers_render {m : Members} (wellFormed : m.WellFormed) (rest : Bytes) :
    behindMembers (m.render ++ 93 :: rest) = closing m.behind ++ rest := by
  induction m generalizing rest with
  | nil => exact behindMembers_end rest
  | byte b m ih =>
    obtain ⟨⟨_, notEscape, notEnd⟩, wellFormed⟩ := wellFormed
    rw [render, List.cons_append, behindMembers_byte notEnd notEscape]
    exact ih wellFormed rest
  | escape c m ih =>
    rw [render, List.cons_append, List.cons_append, behindMembers_escape]
    exact ih wellFormed rest
  | nested negated bracketFirst inner m ihInner _ =>
    obtain ⟨_, wellFormed, _⟩ := wellFormed
    have caret : ∀ bs : Bytes, behindMembers ((if negated then [94] else []) ++ bs) = behindMembers bs := by
      intro bs
      cases negated with
      | true => exact behindMembers_byte (by decide) (by decide) bs
      | false => rfl
    simp only [render, bracketed, List.cons_append, List.append_assoc, List.nil_append]
    rw [behindMembers_byte (by decide) (by decide), caret, behind, closing_append, closing_cons]
    cases bracketFirst with
    | true =>
      show behindMembers (93 :: (inner.render ++ 93 :: (m.render ++ 93 :: rest))) = _
      rw [behindMembers_end, if_pos rfl, closing_cons]
      simp only [closing, List.flatMap_nil, List.append_assoc, List.cons_append, List.nil_append]
    | false =>
      rw [if_neg (by decide), if_neg (by decide), List.nil_append, ihInner wellFormed]
      simp only [closing, List.flatMap_nil, List.append_assoc, List.cons_append, List.nil_append]

theorem behindClass_bracketed {negated bracketFirst : Bool} {m : Members} (opens : m.Opens negated bracketFirst)
    (wellFormed : m.WellFormed) (rest : Bytes) :
    lex (bracketed negated bracketFirst m.render ++ rest) = lex (closing m.behind ++ rest) := by
  obtain ⟨noCaret, inhabited⟩ := opens
  have members : dropIf 93 ((if bracketFirst then [93] else []) ++ (m.render ++ 93 :: rest)) = m.render ++ 93 :: rest := by
    cases bracketFirst with
    | true => rfl
    | false =>
      cases m with
      | nil => exact absurd rfl (inhabited rfl)
      | byte b m => exact if_neg wellFormed.1.2.2
      | escape c m => rfl
      | nested _ _ _ _ => rfl
  have caret : dropIf 94 ((if negated then [94] else []) ++ ((if bracketFirst then [93] else []) ++ (m.render ++ 93 :: rest))) =
      (if bracketFirst then [93] else []) ++ (m.render ++ 93 :: rest) := by
    cases negated with
    | true => rfl
    | false =>
      cases bracketFirst with
      | true => rfl
      | false =>
        cases m with
        | nil => exact absurd rfl (inhabited rfl)
        | byte b m =>
          apply if_neg
          rintro rfl
          exact noCaret rfl rfl m rfl
        | escape c m => rfl
        | nested _ _ _ _ => rfl
  simp only [bracketed, List.cons_append, List.append_assoc, List.nil_append]
  rw [lex_class, behindClass, caret, members, behindMembers_render wellFormed]

def size : Members → Nat
  | .nil => 1
  | .byte _ rest => rest.size + 1
  | .escape _ rest => rest.size + 1
  | .nested _ _ inner rest => inner.size + rest.size + 1

theorem size_pos (m : Members) : 0 < m.size := by
  cases m <;> exact Nat.succ_pos _

def sizes (ms : List Members) : Nat := (ms.map size).sum

theorem sizes_append (ms ns : List Members) : sizes (ms ++ ns) = sizes ms + sizes ns := by
  simp only [sizes, List.map_append, List.sum_append]

theorem sizes_cons (m : Members) (ms : List Members) : sizes (m :: ms) = m.size + sizes ms := by
  simp only [sizes, List.map_cons, List.sum_cons]

theorem behind_size (m : Members) : sizes m.behind ≤ m.size := by
  induction m with
  | nil => exact Nat.zero_le _
  | byte b m ih => exact Nat.le_succ_of_le ih
  | escape c m ih => exact Nat.le_succ_of_le ih
  | nested negated bracketFirst inner m ihInner _ =>
    rw [behind, sizes_append, size, sizes_cons]
    cases bracketFirst with
    | true =>
      rw [if_pos rfl, sizes_cons]
      simp only [sizes, List.map_nil, List.sum_nil]
      omega
    | false =>
      rw [if_neg (by decide)]
      simp only [sizes, List.map_nil, List.sum_nil] at ihInner ⊢
      omega

/-- What members hand down to the members within them and after them holds behind a bracket. -/
theorem behind_inherits {P : Members → Prop} (byte : ∀ b m, P (.byte b m) → P m) (escape : ∀ c m, P (.escape c m) → P m)
    (nested : ∀ n l inner m, P (.nested n l inner m) → P inner ∧ P m) {m : Members} (holds : P m) : ∀ n ∈ m.behind, P n := by
  induction m with
  | nil => simp [behind]
  | byte b m ih => exact ih (byte b m holds)
  | escape c m ih => exact ih (escape c m holds)
  | nested negated bracketFirst inner m ihInner _ =>
    obtain ⟨inside, after⟩ := nested _ _ _ _ holds
    rw [behind, List.forall_mem_append]
    refine ⟨?_, by simpa using after⟩
    cases bracketFirst with
    | true => simpa using inside
    | false => exact ihInner inside

theorem behind_wellFormed {m : Members} (wellFormed : m.WellFormed) : ∀ n ∈ m.behind, n.WellFormed :=
  behind_inherits (fun _ _ h => h.2) (fun _ _ h => h) (fun _ _ _ _ h => h.2) wellFormed

theorem behind_calm {m : Members} (calm : m.Calm) : ∀ n ∈ m.behind, n.Calm :=
  behind_inherits (fun _ _ h => h.2) (fun _ _ h => h) (fun _ _ _ _ h => h) calm

theorem closing_nil (ms : List Members) : closing (.nil :: ms) = 93 :: closing ms := rfl

theorem closing_byte (b : UInt8) (m : Members) (ms : List Members) : closing (.byte b m :: ms) = b :: closing (m :: ms) := by
  rw [closing_cons, closing_cons, render, List.cons_append]

theorem closing_escape (c : UInt8) (m : Members) (ms : List Members) :
    closing (.escape c m :: ms) = 92 :: c :: closing (m :: ms) := by
  rw [closing_cons, closing_cons, render, List.cons_append, List.cons_append]

theorem closing_nested (negated bracketFirst : Bool) (inner m : Members) (ms : List Members) :
    closing (.nested negated bracketFirst inner m :: ms) = bracketed negated bracketFirst inner.render ++ closing (m :: ms) := by
  rw [closing_cons, closing_cons, render, List.append_assoc]

theorem braceEnd_other {b : UInt8} (notEnd : b ≠ 125) (notComma : b ≠ 44) (noDigit : ¬ (48 ≤ b ∧ b ≤ 57)) (bs : Bytes)
    (k : Nat) (sawCommaLast : Bool) : braceEnd (b :: bs) k sawCommaLast = (false, 1) := by
  rw [braceEnd, if_neg notEnd, if_neg notComma, if_neg noDigit]

/-- A brace among members is no quantifier or ends among them, whatever follows. -/
theorem braceEnd_within {m : Members} (wellFormed : m.WellFormed) (ms : List Members) (k : Nat) (sawCommaLast : Bool) :
    (∀ rest, braceEnd (closing (m :: ms) ++ rest) k sawCommaLast = (false, 1)) ∨
      ∃ (unbounded : Bool) (n : Nat) (m' : Members), m'.WellFormed ∧ m'.size ≤ m.size ∧ ∀ rest,
        braceEnd (closing (m :: ms) ++ rest) k sawCommaLast = (unbounded, k + n) ∧
          (closing (m :: ms) ++ rest).drop n = closing (m' :: ms) ++ rest := by
  induction m generalizing k sawCommaLast with
  | nil => exact Or.inl fun rest => braceEnd_other (by decide) (by decide) (by decide) _ _ _
  | byte b m ih =>
    obtain ⟨-, wellFormed⟩ := wellFormed
    have further : ∀ comma : Bool, (∀ rest, braceEnd (closing (.byte b m :: ms) ++ rest) k sawCommaLast =
        braceEnd (closing (m :: ms) ++ rest) (k + 1) comma) →
        (∀ rest, braceEnd (closing (.byte b m :: ms) ++ rest) k sawCommaLast = (false, 1)) ∨
          ∃ (unbounded : Bool) (n : Nat) (m' : Members), m'.WellFormed ∧ m'.size ≤ m.size + 1 ∧ ∀ rest,
            braceEnd (closing (.byte b m :: ms) ++ rest) k sawCommaLast = (unbounded, k + n) ∧
              (closing (.byte b m :: ms) ++ rest).drop n = closing (m' :: ms) ++ rest := by
      intro comma step
      rcases ih wellFormed (k + 1) comma with none | ⟨unbounded, n, m', wellFormed', smaller, read⟩
      · exact Or.inl fun rest => (step rest).trans (none rest)
      · refine Or.inr ⟨unbounded, n + 1, m', wellFormed', Nat.le_succ_of_le smaller, fun rest => ?_⟩
        obtain ⟨ended, left⟩ := read rest
        refine ⟨(step rest).trans (ended.trans (by rw [Nat.add_assoc, Nat.add_comm 1])), ?_⟩
        rw [closing_byte, List.cons_append, List.drop_succ_cons]
        exact left
    by_cases ends : b = 125
    · refine Or.inr ⟨sawCommaLast, 1, m, wellFormed, Nat.le_succ _, fun rest => ?_⟩
      rw [closing_byte, List.cons_append, braceEnd, if_pos ends]
      exact ⟨rfl, rfl⟩
    by_cases comma : b = 44
    · apply further true
      intro rest
      rw [closing_byte, List.cons_append, braceEnd, if_neg ends, if_pos comma]
    by_cases digit : 48 ≤ b ∧ b ≤ 57
    · apply further false
      intro rest
      rw [closing_byte, List.cons_append, braceEnd, if_neg ends, if_neg comma, if_pos digit]
    · refine Or.inl fun rest => ?_
      rw [closing_byte]
      exact braceEnd_other ends comma digit _ _ _
  | escape c m _ =>
    refine Or.inl fun rest => ?_
    rw [closing_escape]
    exact braceEnd_other (by decide) (by decide) (by decide) _ _ _
  | nested negated bracketFirst inner m _ _ =>
    refine Or.inl fun rest => ?_
    rw [closing_nested]
    exact braceEnd_other (by decide) (by decide) (by decide) _ _ _

theorem braceEnd_closing {m : Members} (wellFormed : m.WellFormed) (ms : List Members) :
    ∃ (unbounded : Bool) (n : Nat) (m' : Members), m'.WellFormed ∧ m'.size ≤ m.size ∧ ∀ rest,
      braceEnd (closing (m :: ms) ++ rest) 1 false = (unbounded, 1 + n) ∧
        (closing (m :: ms) ++ rest).drop n = closing (m' :: ms) ++ rest := by
  rcases braceEnd_within wellFormed ms 1 false with none | ended
  · exact ⟨false, 0, m, wellFormed, Nat.le_refl _, fun rest => ⟨none rest, rfl⟩⟩
  · exact ended

theorem quantifier_closing {m : Members} (wellFormed : m.WellFormed) (ms : List Members) :
    ∃ (unbounded : Bool) (n : Nat) (m' : Members), m'.WellFormed ∧ m'.size ≤ m.size ∧ ∀ rest,
      quantifier (closing (m :: ms) ++ rest) = (unbounded, n) ∧ (closing (m :: ms) ++ rest).drop n = closing (m' :: ms) ++ rest := by
  have none : (∀ rest, quantifier (closing (m :: ms) ++ rest) = (false, 0)) →
      ∃ (unbounded : Bool) (n : Nat) (m' : Members), m'.WellFormed ∧ m'.size ≤ m.size ∧ ∀ rest,
        quantifier (closing (m :: ms) ++ rest) = (unbounded, n) ∧
          (closing (m :: ms) ++ rest).drop n = closing (m' :: ms) ++ rest :=
    fun read => ⟨false, 0, m, wellFormed, Nat.le_refl _, fun rest => ⟨read rest, rfl⟩⟩
  cases m with
  | nil => exact none fun rest => rfl
  | byte b m =>
    obtain ⟨-, after⟩ := wellFormed
    by_cases repeated : b = 42 ∨ b = 43
    · refine ⟨true, 1, m, after, Nat.le_succ _, fun rest => ?_⟩
      rw [closing_byte, List.cons_append, quantifier, if_pos repeated]
      exact ⟨rfl, rfl⟩
    by_cases optional : b = 63
    · refine ⟨false, 1, m, after, Nat.le_succ _, fun rest => ?_⟩
      rw [closing_byte, List.cons_append, quantifier, if_neg repeated, if_pos optional]
      exact ⟨rfl, rfl⟩
    by_cases brace : b = 123
    · obtain ⟨unbounded, n, m', wellFormed', smaller, read⟩ := braceEnd_closing after ms
      refine ⟨unbounded, 1 + n, m', wellFormed', Nat.le_succ_of_le smaller, fun rest => ?_⟩
      obtain ⟨ended, left⟩ := read rest
      rw [closing_byte, List.cons_append, quantifier, if_neg repeated, if_neg optional, if_pos brace, Nat.add_comm,
        List.drop_succ_cons]
      exact ⟨ended.trans (by rw [Nat.add_comm]), left⟩
    · apply none
      intro rest
      rw [closing_byte, List.cons_append, quantifier, if_neg repeated, if_neg optional, if_neg brace]
  | escape c m =>
    apply none
    intro rest
    rw [closing_escape]
    rfl
  | nested negated bracketFirst inner m =>
    apply none
    intro rest
    rw [closing_nested]
    rfl

theorem lex_closing (k : Nat) (ms : List Members) (enough : sizes ms ≤ k) (wellFormed : ∀ m ∈ ms, m.WellFormed)
    (rest : Bytes) : lex (closing ms ++ rest) = lex (closing ms) ++ lex rest := by
  induction k generalizing ms with
  | zero =>
    cases ms with
    | nil => rfl
    | cons m ms =>
      rw [sizes_cons] at enough
      have positive := size_pos m
      omega
  | succ k ih =>
    cases ms with
    | nil => rfl
    | cons m ms =>
      obtain ⟨wellFormed, others⟩ := List.forall_mem_cons.mp wellFormed
      rw [sizes_cons] at enough
      -- Whatever is left of the first class, it is read on in the same way.
      have next : ∀ m' : Members, m'.WellFormed → m'.size < m.size →
          lex (closing (m' :: ms) ++ rest) = lex (closing (m' :: ms)) ++ lex rest := by
        intro m' wellFormed' smaller
        exact ih (m' :: ms) (by rw [sizes_cons]; omega) (List.forall_mem_cons.mpr ⟨wellFormed', others⟩)
      cases m with
      | nil =>
        rw [size] at enough
        rw [closing_nil, List.cons_append, lex_inert (by unfold Inert; decide), lex_inert (by unfold Inert; decide)]
        exact ih ms (by omega) others
      | byte b m =>
        obtain ⟨⟨not91, not92, not93⟩, after⟩ := wellFormed
        have read := next m after (Nat.lt_succ_self _)
        rw [closing_byte, List.cons_append]
        by_cases opens : b = 40
        · rw [opens, lex_opens, lex_opens, read, List.cons_append]
        by_cases closes : b = 41
        · obtain ⟨unbounded, n, m', wellFormed', smaller, each⟩ := quantifier_closing after ms
          obtain ⟨whole, left⟩ := each rest
          obtain ⟨alone, leftAlone⟩ := each []
          rw [List.append_nil] at alone leftAlone
          rw [closes, lex_closes, whole, left, lex_closes, alone, leftAlone, List.append_nil,
            next m' wellFormed' (Nat.lt_succ_of_le smaller), List.cons_append]
        by_cases repeated : b = 42 ∨ b = 43
        · rw [lex_repeats repeated, lex_repeats repeated, read, List.cons_append]
        by_cases brace : b = 123
        · obtain ⟨unbounded, n, m', wellFormed', smaller, each⟩ := braceEnd_closing after ms
          obtain ⟨whole, left⟩ := each rest
          obtain ⟨alone, leftAlone⟩ := each []
          rw [List.append_nil] at alone leftAlone
          rw [brace, lex_brace, whole, lex_brace, alone, Nat.add_sub_cancel_left, left, leftAlone, List.append_nil,
            next m' wellFormed' (Nat.lt_succ_of_le smaller), List.append_assoc]
        · have inert : Inert b := by
            unfold Inert
            simp only [List.mem_cons, List.not_mem_nil, or_false, not_or] at repeated ⊢
            tauto
          rw [lex_inert inert, lex_inert inert, read]
      | escape c m =>
        rw [closing_escape, List.cons_append, List.cons_append, lex_escape, lex_escape]
        exact next m wellFormed (Nat.lt_succ_self _)
      | nested negated bracketFirst inner m =>
        obtain ⟨opens, inside, after⟩ := wellFormed
        have less := behind_size inner
        rw [size] at enough
        have here := ih (inner.behind ++ m :: ms) (by rw [sizes_append, sizes_cons]; omega)
          (List.forall_mem_append.mpr ⟨behind_wellFormed inside, List.forall_mem_cons.mpr ⟨after, others⟩⟩)
        rw [closing_nested, List.append_assoc, behindClass_bracketed opens inside, behindClass_bracketed opens inside,
          ← List.append_assoc, ← closing_append]
        exact here

/-- Calm members are gone over, even where the lint takes them for something behind a class. -/
theorem lex_calm (k : Nat) (ms : List Members) (enough : sizes ms ≤ k) (wellFormed : ∀ m ∈ ms, m.WellFormed)
    (calm : ∀ m ∈ ms, m.Calm) : lex (closing ms) = [] := by
  induction k generalizing ms with
  | zero =>
    cases ms with
    | nil => rfl
    | cons m ms =>
      rw [sizes_cons] at enough
      have positive := size_pos m
      omega
  | succ k ih =>
    cases ms with
    | nil => rfl
    | cons m ms =>
      obtain ⟨wellFormed, others⟩ := List.forall_mem_cons.mp wellFormed
      obtain ⟨calm, calmOthers⟩ := List.forall_mem_cons.mp calm
      rw [sizes_cons] at enough
      cases m with
      | nil =>
        rw [size] at enough
        rw [closing_nil, lex_inert (by unfold Inert; decide)]
        exact ih ms (by omega) others calmOthers
      | byte b m =>
        rw [size] at enough
        have inert : Inert b := by
          have notSpecial := calm.1
          obtain ⟨not91, not92, _⟩ := wellFormed.1
          unfold Inert
          simp only [List.mem_cons, List.not_mem_nil, or_false, not_or] at notSpecial ⊢
          tauto
        rw [closing_byte, lex_inert inert]
        exact ih (m :: ms) (by rw [sizes_cons]; omega) (List.forall_mem_cons.mpr ⟨wellFormed.2, others⟩)
          (List.forall_mem_cons.mpr ⟨calm.2, calmOthers⟩)
      | escape c m =>
        rw [size] at enough
        rw [closing_escape, lex_escape]
        exact ih (m :: ms) (by rw [sizes_cons]; omega) (List.forall_mem_cons.mpr ⟨wellFormed, others⟩)
          (List.forall_mem_cons.mpr ⟨calm, calmOthers⟩)
      | nested negated bracketFirst inner m =>
        obtain ⟨opens, inside, after⟩ := wellFormed
        obtain ⟨calmInside, calmAfter⟩ := calm
        have less := behind_size inner
        rw [size] at enough
        rw [closing_nested, behindClass_bracketed opens inside, ← closing_append]
        exact ih (inner.behind ++ m :: ms) (by rw [sizes_append, sizes_cons]; omega)
          (List.forall_mem_append.mpr ⟨behind_wellFormed inside, List.forall_mem_cons.mpr ⟨after, others⟩⟩)
          (List.forall_mem_append.mpr ⟨behind_calm calmInside, List.forall_mem_cons.mpr ⟨calmAfter, calmOthers⟩⟩)

end Members

end ArchivAgent
