import ArchivAgent.Redact.Tokens

/-!
# What the lint reads of a pattern

The lint moves over the bytes in a way that does not depend on its stack: `lex` is the tokens it
meets, read off what is left of the pattern.
-/

namespace ArchivAgent
open Wire (Bytes)

namespace Lint

/-- `brace_quantifier` behind the brace, with the bytes it has gone over. -/
def braceEnd : Bytes → Nat → Bool → Bool × Nat
  | [], _, _ => (false, 1)
  | b :: bs, k, sawCommaLast =>
    if b = 125 then (sawCommaLast, k + 1)
    else if b = 44 then braceEnd bs (k + 1) true
    else if 48 ≤ b ∧ b ≤ 57 then braceEnd bs (k + 1) false
    else (false, 1)

/-- `quantifier_at` -/
def quantifier : Bytes → Bool × Nat
  | [] => (false, 0)
  | b :: bs =>
    if b = 42 ∨ b = 43 then (true, 1)
    else if b = 63 then (false, 1)
    else if b = 123 then braceEnd bs 1 false
    else (false, 0)

def behindMembers : Bytes → Bytes
  | [] => []
  | [_] => []
  | b :: c :: bs => if b = 93 then c :: bs else if b = 92 then behindMembers bs else behindMembers (c :: bs)

def dropIf (b : UInt8) : Bytes → Bytes
  | [] => []
  | c :: bs => if c = b then bs else c :: bs

/-- What is left behind a class, from behind its opening bracket. -/
def behindClass (bs : Bytes) : Bytes := behindMembers (dropIf 93 (dropIf 94 bs))

def lexWithin : Nat → Bytes → List Tok
  | 0, _ => []
  | _ + 1, [] => []
  | n + 1, b :: bs =>
    if b = 92 then lexWithin n (bs.drop 1)
    else if b = 91 then lexWithin n (behindClass bs)
    else if b = 40 then .opens :: lexWithin n bs
    else if b = 41 then .closes (quantifier bs).1 :: lexWithin n (bs.drop (quantifier bs).2)
    else if b = 42 ∨ b = 43 then .repeats :: lexWithin n bs
    else if b = 123 then
      (if (braceEnd bs 1 false).1 then [.repeats] else []) ++ lexWithin n (bs.drop ((braceEnd bs 1 false).2 - 1))
    else lexWithin n bs

/-- The tokens of a pattern. Each takes at least one byte. -/
def lex (bs : Bytes) : List Tok := lexWithin bs.length bs

/-! ### The positions of the lint -/

section Positions
variable {bytes : Bytes}

theorem drop_of_getElem? {i : Nat} {b : UInt8} (here : bytes[i]? = some b) : bytes.drop i = b :: bytes.drop (i + 1) := by
  obtain ⟨inside, rfl⟩ := List.getElem?_eq_some_iff.mp here
  exact List.drop_eq_getElem_cons inside

theorem drop_of_none {i : Nat} (here : bytes[i]? = none) : bytes.drop i = [] :=
  List.drop_eq_nil_of_le (List.getElem?_eq_none_iff.mp here)

theorem drop_behind (i k : Nat) : bytes.drop (i + k + 1) = (bytes.drop (i + 1)).drop k := by
  rw [List.drop_drop, show i + 1 + k = i + k + 1 by omega]

theorem braceLoop_end (pos n j : Nat) (sawCommaLast : Bool) (past : pos < j) (enough : bytes.length < j + n) :
    braceLoop bytes pos n j sawCommaLast = braceEnd (bytes.drop j) (j - pos) sawCommaLast := by
  induction n generalizing j sawCommaLast with
  | zero =>
    rw [List.drop_eq_nil_of_le (by omega)]
    rfl
  | succ n ih =>
    unfold braceLoop
    cases here : bytes[j]? with
    | none =>
      rw [drop_of_none here]
      rfl
    | some b =>
      rw [drop_of_getElem? here, braceEnd, show j - pos + 1 = j + 1 - pos by omega, ih (j + 1) true (by omega) (by omega),
        ih (j + 1) false (by omega) (by omega)]

theorem braceQuantifier_end (pos : Nat) : braceQuantifier bytes pos = braceEnd (bytes.drop (pos + 1)) 1 false := by
  unfold braceQuantifier
  rw [braceLoop_end pos _ _ _ (by omega) (by omega), show pos + 1 - pos = 1 by omega]

theorem quantifierAt_eq (pos : Nat) : quantifierAt bytes pos = quantifier (bytes.drop pos) := by
  unfold quantifierAt
  cases here : bytes[pos]? with
  | none =>
    rw [drop_of_none here]
    rfl
  | some b =>
    rw [drop_of_getElem? here, quantifier, braceQuantifier_end]
    split
    · rename_i h
      cases h
      rfl
    · rename_i h
      cases h
      rfl
    · rename_i h
      cases h
      rfl
    · rename_i h
      cases h
      rfl
    · simp_all

theorem behindMembers_cons (b : UInt8) (bs : Bytes) : behindMembers (b :: bs) =
    if b = 93 then bs else if b = 92 then behindMembers (bs.drop 1) else behindMembers bs := by
  cases bs with
  | nil => simp [behindMembers]
  | cons c bs => rfl

theorem skipMembers_behind (n i : Nat) (enough : bytes.length < i + n) :
    bytes.drop (skipMembers bytes n i + 1) = behindMembers (bytes.drop i) := by
  induction n generalizing i with
  | zero =>
    have stopped : skipMembers bytes 0 i = i := rfl
    rw [stopped, List.drop_eq_nil_of_le (by omega), List.drop_eq_nil_of_le (by omega)]
    rfl
  | succ n ih =>
    unfold skipMembers
    cases here : bytes[i]? with
    | none =>
      rw [drop_of_none here]
      exact List.drop_eq_nil_of_le (Nat.le_succ_of_le (List.getElem?_eq_none_iff.mp here))
    | some b =>
      rw [drop_of_getElem? here, behindMembers_cons]
      simp only
      split
      · rfl
      split
      · rw [ih (i + 2) (by omega), List.drop_drop]
      · exact ih (i + 1) (by omega)

theorem dropIf_eq (b : UInt8) (i : Nat) :
    bytes.drop (if bytes[i]? = some b then i + 1 else i) = dropIf b (bytes.drop i) := by
  cases here : bytes[i]? with
  | none =>
    rw [drop_of_none here]
    simpa [dropIf] using List.getElem?_eq_none_iff.mp here
  | some c =>
    rw [drop_of_getElem? here, dropIf]
    by_cases same : c = b
    · simp [same]
    · simp [same, drop_of_getElem? here]

theorem skipClass_behind (i : Nat) : bytes.drop (skipClass bytes i + 1) = behindClass (bytes.drop (i + 1)) := by
  unfold skipClass behindClass
  simp only
  rw [skipMembers_behind _ _ (by omega), dropIf_eq, dropIf_eq]

/-- The lint runs its stack over the tokens. -/
theorem loop_lex (n i : Nat) (frames : List Bool) :
    loop bytes n i frames = (run (lexWithin n (bytes.drop i)) frames).map fun _ => () := by
  induction n generalizing i frames with
  | zero => rfl
  | succ n ih =>
    unfold loop
    cases here : bytes[i]? with
    | none =>
      rw [drop_of_none here]
      rfl
    | some b =>
      rw [drop_of_getElem? here, lexWithin]
      split
      · rename_i h
        cases h
      · rename_i h
        cases h
        rw [ih, if_pos rfl, List.drop_drop]
      · rename_i h
        cases h
        rw [ih, if_neg (by decide), if_pos rfl, skipClass_behind]
      · rename_i h
        cases h
        rw [ih, if_neg (by decide), if_neg (by decide), if_pos rfl]
        rfl
      · rename_i h
        cases h
        rw [quantifierAt_eq, if_neg (by decide), if_neg (by decide), if_neg (by decide), if_pos rfl]
        simp only [ih, run, drop_behind]
        split <;> rfl
      · rename_i h
        cases h
        rw [ih]
        rfl
      · rename_i h
        cases h
        rw [ih]
        rfl
      · rename_i h
        cases h
        rw [braceQuantifier_end, if_neg (by decide), if_neg (by decide), if_neg (by decide), if_neg (by decide),
          if_neg (by decide), if_pos rfl]
        simp only [ih, drop_behind]
        cases (braceEnd (bytes.drop (i + 1)) 1 false).1 with
        | true => rfl
        | false =>
          rw [mark_false]
          rfl
      · rw [ih]
        simp_all

end Positions

/-! ### Reading on -/

theorem behindMembers_length (bs : Bytes) : (behindMembers bs).length ≤ bs.length := by
  induction bs using behindMembers.induct with
  | case1 => exact Nat.le_refl _
  | case2 _ => exact Nat.zero_le _
  | case3 _ _ => simp [behindMembers]
  | case4 c bs _ ih =>
    rw [behindMembers, if_neg (by decide), if_pos rfl]
    exact Nat.le_trans ih (by simp only [List.length_cons]; omega)
  | case5 b c bs notEnd notEscape ih =>
    rw [behindMembers, if_neg notEnd, if_neg notEscape]
    exact Nat.le_trans ih (Nat.le_succ _)

theorem dropIf_length (b : UInt8) (bs : Bytes) : (dropIf b bs).length ≤ bs.length := by
  cases bs with
  | nil => exact Nat.le_refl _
  | cons c bs =>
    rw [dropIf]
    split
    · exact Nat.le_succ _
    · exact Nat.le_refl _

theorem behindClass_length (bs : Bytes) : (behindClass bs).length ≤ bs.length :=
  (behindMembers_length _).trans ((dropIf_length _ _).trans (dropIf_length _ _))

theorem lexWithin_enough {n m : Nat} {bs : Bytes} (hn : bs.length ≤ n) (hm : bs.length ≤ m) :
    lexWithin n bs = lexWithin m bs := by
  induction n generalizing m bs with
  | zero =>
    obtain rfl := List.length_eq_zero_iff.mp (Nat.le_zero.mp hn)
    cases m <;> rfl
  | succ n ih =>
    cases bs with
    | nil => cases m <;> rfl
    | cons b bs =>
      rw [List.length_cons] at hn hm
      obtain ⟨m, rfl⟩ : ∃ k, m = k + 1 := ⟨m - 1, by omega⟩
      have shorter : ∀ k, lexWithin n (bs.drop k) = lexWithin m (bs.drop k) :=
        fun k => ih (by rw [List.length_drop]; omega) (by rw [List.length_drop]; omega)
      have whole := shorter 0
      have behind := behindClass_length bs
      rw [List.drop_zero] at whole
      rw [lexWithin, lexWithin, shorter, shorter, shorter, whole, ih (m := m) (by omega) (by omega)]

theorem lex_cons (b : UInt8) (bs : Bytes) : lex (b :: bs) =
    if b = 92 then lex (bs.drop 1)
    else if b = 91 then lex (behindClass bs)
    else if b = 40 then .opens :: lex bs
    else if b = 41 then .closes (quantifier bs).1 :: lex (bs.drop (quantifier bs).2)
    else if b = 42 ∨ b = 43 then .repeats :: lex bs
    else if b = 123 then (if (braceEnd bs 1 false).1 then [.repeats] else []) ++ lex (bs.drop ((braceEnd bs 1 false).2 - 1))
    else lex bs := by
  have within : ∀ cs : Bytes, cs.length ≤ bs.length → lexWithin bs.length cs = lex cs :=
    fun cs short => lexWithin_enough short (Nat.le_refl _)
  have dropped : ∀ k, lexWithin bs.length (bs.drop k) = lex (bs.drop k) :=
    fun k => within _ (by rw [List.length_drop]; omega)
  show lexWithin (bs.length + 1) (b :: bs) = _
  rw [lexWithin, dropped, dropped, dropped, within _ (behindClass_length bs), within bs (Nat.le_refl _)]

@[simp] theorem lex_nil : lex [] = [] := rfl

end Lint

open Lint in
/-- The lint refuses what reads as a nested repetition, and nothing else. -/
theorem checkNestedRepetition_eq (pattern : Wire.Bytes) :
    checkNestedRepetition pattern = (run (lex pattern) [false]).map fun _ => () := by
  unfold checkNestedRepetition
  rw [loop_lex, List.drop_zero, lexWithin_enough (Nat.le_succ _) (Nat.le_refl _), lex]

open Lint in
theorem checkNestedRepetition_error_iff (pattern : Wire.Bytes) :
    checkNestedRepetition pattern = .error nestedRepetition ↔ ReadNested (lex pattern) := by
  rw [← run_error_iff, checkNestedRepetition_eq]
  cases run (lex pattern) [false] with
  | error e => simp [Except.map]
  | ok frames => simp [Except.map]

end ArchivAgent
