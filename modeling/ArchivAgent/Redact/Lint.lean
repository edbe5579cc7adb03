import ArchivAgent.Wire.Varint

/-!
# The nested repetition lint

`archiv-redact/src/lint.rs`: one pass over the pattern's bytes with a stack of open groups, the
innermost first. Every round moves forward, so the pattern's length bounds the rounds.
-/

namespace ArchivAgent
open Wire (Bytes)

namespace Lint

/-- The loop of `brace_quantifier` after the brace at `pos`. -/
def braceLoop (bytes : Bytes) (pos : Nat) : Nat → Nat → Bool → Bool × Nat
  | 0, _, _ => (false, 1)
  | n + 1, j, sawCommaLast =>
    match bytes[j]? with
    | none => (false, 1)
    | some b =>
      if b = 125 then (sawCommaLast, j - pos + 1)
      else if b = 44 then braceLoop bytes pos n (j + 1) true
      else if 48 ≤ b ∧ b ≤ 57 then braceLoop bytes pos n (j + 1) false
      else (false, 1)

def braceQuantifier (bytes : Bytes) (pos : Nat) : Bool × Nat :=
  braceLoop bytes pos (bytes.length + 1) (pos + 1) false

def quantifierAt (bytes : Bytes) (pos : Nat) : Bool × Nat :=
  match bytes[pos]? with
  | some 42 | some 43 => (true, 1)
  | some 63 => (false, 1)
  | some 123 => braceQuantifier bytes pos
  | _ => (false, 0)

/-- `while i < bytes.len() && bytes[i] != b']'` -/
def skipMembers (bytes : Bytes) : Nat → Nat → Nat
  | 0, i => i
  | n + 1, i =>
    match bytes[i]? with
    | none => i
    | some b =>
      if b = 93 then i
      else if b = 92 then skipMembers bytes n (i + 2)
      else skipMembers bytes n (i + 1)

/-- The position of the bracket that ends the class opened at `i`. -/
def skipClass (bytes : Bytes) (i : Nat) : Nat :=
  let i := i + 1
  let i := if bytes[i]? = some 94 then i + 1 else i
  let i := if bytes[i]? = some 93 then i + 1 else i
  skipMembers bytes (bytes.length + 1) i

/-- `if let Some(top) = frames.last_mut() { *top |= b }` -/
def mark (b : Bool) : List Bool → List Bool
  | [] => []
  | top :: frames => (top || b) :: frames

def nestedRepetition : String :=
  "unbounded quantifier applied to a group containing an unbounded quantifier"

def loop (bytes : Bytes) : Nat → Nat → List Bool → Except String Unit
  | 0, _, _ => .ok ()
  | n + 1, i, frames =>
    match bytes[i]? with
    | none => .ok ()
    | some 92 => loop bytes n (i + 2) frames
    | some 91 => loop bytes n (skipClass bytes i + 1) frames
    | some 40 => loop bytes n (i + 1) (false :: frames)
    | some 41 =>
      let innerUnbounded := frames.head?.getD false
      let (quantUnbounded, quantLen) := quantifierAt bytes (i + 1)
      if quantUnbounded && innerUnbounded then .error nestedRepetition
      else loop bytes n (i + quantLen + 1) (mark (innerUnbounded || quantUnbounded) frames.tail)
    | some 42 | some 43 => loop bytes n (i + 1) (mark true frames)
    | some 123 =>
      let (unbounded, len) := braceQuantifier bytes i
      loop bytes n (i + (len - 1) + 1) (mark unbounded frames)
    | some _ => loop bytes n (i + 1) frames

end Lint

def checkNestedRepetition (pattern : Bytes) : Except String Unit :=
  Lint.loop pattern (pattern.length + 1) 0 [false]

end ArchivAgent
