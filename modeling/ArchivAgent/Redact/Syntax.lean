import ArchivAgent.Redact.Lexer

/-!
# Patterns as syntax trees

The non-verbose syntax of the `regex` crate, as far as repetition goes: a pattern is rendered to the
bytes that the lint is given. Which of two neighbours binds closer changes no operand of a
quantifier, so concatenation and alternation are not told apart further.
-/

namespace ArchivAgent
open Wire (Bytes)

structure Digits where
  bytes : Bytes
  nonempty : bytes ≠ []
  digits : ∀ b ∈ bytes, 48 ≤ b ∧ b ≤ 57

inductive Operator where
  | star
  | plus
  | optional
  | exactly (n : Digits)
  | atLeast (n : Digits)
  | between (n m : Digits)

structure Quantifier where
  operator : Operator
  isLazy : Bool

namespace Operator

def unbounded : Operator → Bool
  | .star | .plus | .atLeast _ => true
  | .optional | .exactly _ | .between _ _ => false

def render : Operator → Bytes
  | .star => [42]
  | .plus => [43]
  | .optional => [63]
  | .exactly n => 123 :: (n.bytes ++ [125])
  | .atLeast n => 123 :: (n.bytes ++ [44, 125])
  | .between n m => 123 :: (n.bytes ++ 44 :: (m.bytes ++ [125]))

end Operator

namespace Quantifier

def unbounded (q : Quantifier) : Bool := q.operator.unbounded

def render (q : Quantifier) : Bytes := q.operator.render ++ if q.isLazy then [63] else []

end Quantifier

/-- The members of a bracket class. A range is its bytes, a POSIX class is a nested class. -/
inductive Members where
  | nil
  | byte (b : UInt8) (rest : Members)
  | escape (c : UInt8) (rest : Members)
  | nested (negated bracketFirst : Bool) (inner rest : Members)

namespace Members

/-- A class around its members, with a literal closing bracket as the first member or without. -/
def bracketed (negated bracketFirst : Bool) (inner : Bytes) : Bytes :=
  91 :: ((if negated then [94] else []) ++ ((if bracketFirst then [93] else []) ++ (inner ++ [93])))

def render : Members → Bytes
  | .nil => []
  | .byte b rest => b :: rest.render
  | .escape c rest => 92 :: c :: rest.render
  | .nested negated bracketFirst inner rest => bracketed negated bracketFirst inner.render ++ rest.render

/-- What the brackets say of the members: a caret that does not negate is not the first one, and
there is one. -/
def Opens (negated bracketFirst : Bool) (members : Members) : Prop :=
  (negated = false → bracketFirst = false → ∀ rest, members ≠ .byte 94 rest) ∧
    (bracketFirst = false → members ≠ .nil)

def WellFormed : Members → Prop
  | .nil => True
  | .byte b rest => (b ≠ 91 ∧ b ≠ 92 ∧ b ≠ 93) ∧ rest.WellFormed
  | .escape _ rest => rest.WellFormed
  | .nested negated bracketFirst inner rest => Opens negated bracketFirst inner ∧ inner.WellFormed ∧ rest.WellFormed

/-- No parenthesis, no star, no plus and no opening brace. -/
def Calm : Members → Prop
  | .nil => True
  | .byte b rest => b ∉ [40, 41, 42, 43, 123] ∧ rest.Calm
  | .escape _ rest => rest.Calm
  | .nested _ _ inner rest => inner.Calm ∧ rest.Calm

/-- The members behind the first closing bracket that is not escaped, one list for each class that
is still open there. -/
def behind : Members → List Members
  | .nil => []
  | .byte _ rest => rest.behind
  | .escape _ rest => rest.behind
  | .nested _ bracketFirst inner rest => (if bracketFirst then [inner] else inner.behind) ++ [rest]

end Members

inductive Atom where
  | literal (b : UInt8)
  /-- `\c`, or `\c{name}` as in `\p{Greek}` -/
  | escape (c : UInt8) (name : Option Bytes)
  | bracket (negated bracketFirst : Bool) (members : Members)

namespace Atom

def Ordinary (b : UInt8) : Prop := b ∉ [40, 41, 42, 43, 63, 91, 92, 123, 124]

def render : Atom → Bytes
  | .literal b => [b]
  | .escape c none => [92, c]
  | .escape c (some name) => 92 :: c :: 123 :: (name ++ [125])
  | .bracket negated bracketFirst members => Members.bracketed negated bracketFirst members.render

def WellFormed : Atom → Prop
  | .literal b => Ordinary b
  | .escape _ name => ∀ ns ∈ name, ∀ b ∈ ns, Ordinary b ∧ b ≠ 44 ∧ b ≠ 125
  | .bracket negated bracketFirst members => members.Opens negated bracketFirst ∧ members.WellFormed

/-- Only calm members stand behind the first closing bracket that is not escaped. -/
def Calm : Atom → Prop
  | .literal _ => True
  | .escape _ _ => True
  | .bracket _ _ members => ∀ m ∈ members.behind, m.Calm

end Atom

inductive Opening where
  | capture
  /-- `(?flags:` -/
  | flagged (flags : Bytes)
  /-- `(?P<name>`, or `(?<name>` -/
  | named (isLong : Bool) (name : Bytes)

namespace Opening

/-- `imsuUR-` -/
def Flag (b : UInt8) : Prop := b ∈ [105, 109, 115, 117, 85, 82, 45]

/-- Letters, digits, `_`, `.` and brackets. -/
def NameByte (b : UInt8) : Prop :=
  b ∈ [95, 46, 91, 93] ∨ (48 ≤ b ∧ b ≤ 57) ∨ (65 ≤ b ∧ b ≤ 90) ∨ (97 ≤ b ∧ b ≤ 122) ∨ 128 ≤ b

def render : Opening → Bytes
  | .capture => []
  | .flagged flags => 63 :: (flags ++ [58])
  | .named isLong name => 63 :: ((if isLong then [80] else []) ++ 60 :: (name ++ [62]))

def WellFormed : Opening → Prop
  | .capture => True
  | .flagged flags => ∀ b ∈ flags, Flag b
  | .named _ name => ∀ b ∈ name, NameByte b

def Plain : Opening → Prop
  | .capture => True
  | .flagged _ => True
  | .named _ name => 91 ∉ name

end Opening

inductive Regex where
  | empty
  | atom (a : Atom) (quantifiers : List Quantifier)
  /-- `(?flags)` -/
  | flags (bytes : Bytes)
  /-- A group, with the quantifiers that follow it, the innermost first. -/
  | group (opening : Opening) (body : Regex) (quantifiers : List Quantifier)
  | concat (left right : Regex)
  | alternate (left right : Regex)

namespace Regex

def render : Regex → Bytes
  | .empty => []
  | .atom a quantifiers => a.render ++ quantifiers.flatMap Quantifier.render
  | .flags bytes => 40 :: 63 :: (bytes ++ [41])
  | .group opening body quantifiers =>
    40 :: (opening.render ++ (body.render ++ 41 :: quantifiers.flatMap Quantifier.render))
  | .concat left right => left.render ++ right.render
  | .alternate left right => left.render ++ 124 :: right.render

def WellFormed : Regex → Prop
  | .empty => True
  | .atom a _ => a.WellFormed
  | .flags bytes => ∀ b ∈ bytes, Opening.Flag b
  | .group opening body _ => opening.WellFormed ∧ body.WellFormed
  | .concat left right => left.WellFormed ∧ right.WellFormed
  | .alternate left right => left.WellFormed ∧ right.WellFormed

def Plain : Regex → Prop
  | .empty => True
  | .atom _ _ => True
  | .flags _ => True
  | .group opening body _ => opening.Plain ∧ body.Plain
  | .concat left right => left.Plain ∧ right.Plain
  | .alternate left right => left.Plain ∧ right.Plain

/-- No class holds a parenthesis, a star, a plus or an opening brace behind its first closing
bracket that is not escaped. -/
def Calm : Regex → Prop
  | .empty => True
  | .atom a _ => a.Calm
  | .flags _ => True
  | .group _ body _ => body.Calm
  | .concat left right => left.Calm ∧ right.Calm
  | .alternate left right => left.Calm ∧ right.Calm

def hasUnbounded : Regex → Bool
  | .empty => false
  | .atom _ quantifiers => quantifiers.any Quantifier.unbounded
  | .flags _ => false
  | .group _ body quantifiers => quantifiers.any Quantifier.unbounded || body.hasUnbounded
  | .concat left right => left.hasUnbounded || right.hasUnbounded
  | .alternate left right => left.hasUnbounded || right.hasUnbounded

/-- An unbounded quantifier applies to a group, quantified or not, whose content has one. -/
def nested : Regex → Bool
  | .empty => false
  | .atom _ _ => false
  | .flags _ => false
  | .group _ body quantifiers => (quantifiers.any Quantifier.unbounded && body.hasUnbounded) || body.nested
  | .concat left right => left.nested || right.nested
  | .alternate left right => left.nested || right.nested

/-- An unbounded quantifier stands right behind a group whose content has one. -/
def firstNested : Regex → Bool
  | .empty => false
  | .atom _ _ => false
  | .flags _ => false
  | .group _ body quantifiers => (quantifiers.head?.any Quantifier.unbounded && body.hasUnbounded) || body.firstNested
  | .concat left right => left.firstNested || right.firstNested
  | .alternate left right => left.firstNested || right.firstNested

/-- No unbounded quantifier has another one inside its operand. -/
def safe : Regex → Bool
  | .empty => true
  | .atom _ quantifiers => decide (quantifiers.countP Quantifier.unbounded ≤ 1)
  | .flags _ => true
  | .group _ body quantifiers =>
    decide (quantifiers.countP Quantifier.unbounded ≤ 1) && !(quantifiers.any Quantifier.unbounded && body.hasUnbounded) && body.safe
  | .concat left right => left.safe && right.safe
  | .alternate left right => left.safe && right.safe

theorem nested_of_firstNested {p : Regex} (first : p.firstNested = true) : p.nested = true := by
  induction p with
  | empty => cases first
  | atom _ _ => cases first
  | flags _ => cases first
  | group opening body quantifiers ih =>
    rw [firstNested, Bool.or_eq_true, Bool.and_eq_true] at first
    rw [nested, Bool.or_eq_true, Bool.and_eq_true]
    refine first.imp ?_ ih
    rintro ⟨headed, inside⟩
    cases quantifiers with
    | nil => cases headed
    | cons q qs => exact ⟨by rw [List.any_cons, show q.unbounded = true from headed, Bool.true_or], inside⟩
  | concat left right ihLeft ihRight =>
    rw [firstNested, Bool.or_eq_true] at first
    rw [nested, Bool.or_eq_true]
    exact first.imp ihLeft ihRight
  | alternate left right ihLeft ihRight =>
    rw [firstNested, Bool.or_eq_true] at first
    rw [nested, Bool.or_eq_true]
    exact first.imp ihLeft ihRight

theorem not_nested_of_safe {p : Regex} (safe : p.safe = true) : p.nested = false := by
  induction p with
  | empty => rfl
  | atom _ _ => rfl
  | flags _ => rfl
  | group opening body quantifiers ih =>
    simp only [Regex.safe, Bool.and_eq_true, Bool.not_eq_true'] at safe
    rw [nested, safe.1.2, ih safe.2, Bool.or_false]
  | concat left right ihLeft ihRight =>
    rw [Regex.safe, Bool.and_eq_true] at safe
    rw [nested, ihLeft safe.1, ihRight safe.2, Bool.or_false]
  | alternate left right ihLeft ihRight =>
    rw [Regex.safe, Bool.and_eq_true] at safe
    rw [nested, ihLeft safe.1, ihRight safe.2, Bool.or_false]

end Regex

end ArchivAgent
