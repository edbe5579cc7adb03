import ArchivAgent.Wire.Varint
import ArchivAgent.Outcome

/-!
# The wildcard matcher

The two-pointer loop of `archiv-redact/src/glob.rs`, written out again in
`archiv-sampling/src/policy.rs`. Every indexed read is checked.
-/

namespace ArchivAgent
open Wire (Bytes)

namespace Glob

def star : UInt8 := 42

def read (bs : Bytes) (i : Nat) : Run Empty UInt8 :=
  match bs[i]? with
  | some b => .ok b
  | none => .error .panic

/-- `p < pattern.len() && test(pattern[p])` -/
def here (pattern : Bytes) (p : Nat) (test : UInt8 → Run Empty Bool) : Run Empty Bool :=
  if p < pattern.length then do test (← read pattern p) else .ok false

/-- The remembered pair is the pattern position after the last star and the key position it stands at. -/
def matchLoop (pattern key : Bytes) : Nat → Nat → Nat → Option (Nat × Nat) → Run Empty (Option Nat)
  | 0, _, _, _ => .error .diverge
  | n + 1, p, k, last =>
    if k < key.length then do
      let same ← here pattern p fun b => do .ok (b == (← read key k))
      if same then matchLoop pattern key n (p + 1) (k + 1) last
      else
        let wild ← here pattern p fun b => .ok (b == star)
        if wild then matchLoop pattern key n (p + 1) k (some (p + 1, k))
        else match last with
          | some (sp, sk) => matchLoop pattern key n sp (sk + 1) (some (sp, sk + 1))
          | none => .ok none
    else .ok (some p)

def skipStars (pattern : Bytes) : Nat → Nat → Run Empty Nat
  | 0, _ => .error .diverge
  | n + 1, p => do
    let wild ← here pattern p fun b => .ok (b == star)
    if wild then skipStars pattern n (p + 1) else .ok p

/-- A star is set or moved at most `pattern.len() + key.len()` times, and between two such rounds
the pattern position only grows. -/
def rounds (pattern key : Bytes) : Nat := (pattern.length + key.length + 1) * (pattern.length + 2)

def run (pattern key : Bytes) : Run Empty Bool := do
  match ← matchLoop pattern key (rounds pattern key) 0 0 none with
  | none => .ok false
  | some p =>
    let p ← skipStars pattern (pattern.length + 1) p
    .ok (p == pattern.length)

/-! ### The loops end -/

section Loops
variable {pattern key : Bytes}

theorem read_ok {bs : Bytes} {i : Nat} (h : i < bs.length) : read bs i = .ok bs[i] := by
  unfold read
  rw [List.getElem?_eq_getElem h]

theorem here_ok {test : UInt8 → Run Empty Bool} (total : ∀ b, ∃ same, test b = .ok same) (p : Nat) :
    ∃ same, here pattern p test = .ok same ∧ (same = true → p < pattern.length) := by
  unfold here
  by_cases inside : p < pattern.length
  · obtain ⟨same, tested⟩ := total pattern[p]
    rw [if_pos inside, read_ok inside]
    exact ⟨same, tested, fun _ => inside⟩
  · rw [if_neg inside]
    exact ⟨false, rfl, Bool.noConfusion⟩

/-- How often the last star can still be set or moved. -/
def room (pattern key : Bytes) : Option (Nat × Nat) → Nat
  | none => pattern.length + key.length + 1
  | some (sp, sk) => (pattern.length - sp) + (key.length - sk)

def Remembers (pattern : Bytes) (p k : Nat) (last : Option (Nat × Nat)) : Prop :=
  ∀ star ∈ last, star.1 ≤ pattern.length ∧ star.1 ≤ p ∧ star.2 ≤ k

/-- Where `matches` stands: in its first loop, or past it among the trailing stars. -/
inductive Stage where
  | seeking (p k : Nat) (last : Option (Nat × Nat))
  | closing (p : Nat)
deriving DecidableEq, Repr

/-- One pass of the loop the stage is in: the answer, or the stage it leaves. -/
def advance (pattern key : Bytes) : Stage → Run Empty (Bool ⊕ Stage)
  | .seeking p k last =>
    if k < key.length then do
      let same ← here pattern p fun b => do .ok (b == (← read key k))
      if same then .ok (.inr (.seeking (p + 1) (k + 1) last))
      else
        let wild ← here pattern p fun b => .ok (b == star)
        if wild then .ok (.inr (.seeking (p + 1) k (some (p + 1, k))))
        else match last with
          | some (sp, sk) => .ok (.inr (.seeking sp (sk + 1) (some (sp, sk + 1))))
          | none => .ok (.inl false)
    else .ok (.inr (.closing p))
  | .closing p => do
    let wild ← here pattern p fun b => .ok (b == star)
    if wild then .ok (.inr (.closing (p + 1))) else .ok (.inl (p == pattern.length))

def Stage.Inside (pattern : Bytes) : Stage → Prop
  | .seeking p k last => p ≤ pattern.length ∧ Remembers pattern p k last
  | .closing p => p ≤ pattern.length

/-- A backtrack moves both positions back, and yet it takes from `room`; between two such passes
the pattern ahead gets shorter. -/
def Stage.weight (pattern key : Bytes) : Stage → Nat
  | .seeking p _ last => room pattern key last * (pattern.length + 1) + (pattern.length - p) + (pattern.length + 1)
  | .closing p => pattern.length - p

/-- A pass reads inside both arguments, and it answers or moves to a lighter stage. -/
theorem advance_ok {stage : Stage} (inside : stage.Inside pattern) :
    (∃ same, advance pattern key stage = .ok (.inl same)) ∨
      ∃ next, advance pattern key stage = .ok (.inr next) ∧ next.Inside pattern ∧
        next.weight pattern key < stage.weight pattern key := by
  cases stage with
  | seeking p k last =>
    obtain ⟨within, remembers⟩ := inside
    simp only [advance]
    by_cases more : k < key.length
    swap
    · rw [if_neg more]
      refine Or.inr ⟨.closing p, rfl, within, ?_⟩
      simp only [Stage.weight]
      omega
    rw [if_pos more]
    obtain ⟨same, tested, inPattern⟩ := @here_ok pattern
      (fun b => do .ok (b == (← read key k))) (fun b => ⟨b == key[k], by rw [read_ok more]; rfl⟩) p
    rw [tested]
    simp only [bind, Except.bind]
    cases same with
    | true =>
      -- Both positions move on, and the pattern is shorter ahead.
      have := inPattern rfl
      refine Or.inr ⟨_, rfl, ⟨by omega, fun star member => ?_⟩, ?_⟩
      · have := remembers star member
        omega
      · simp only [Stage.weight]
        omega
    | false =>
      obtain ⟨wild, starred, inPattern⟩ := @here_ok pattern (fun b => .ok (b == star)) (fun b => ⟨_, rfl⟩) p
      simp only [Bool.false_eq_true, ↓reduceIte]
      rw [starred]
      cases wild with
      | true =>
        -- A new star stands behind the last one.
        have := inPattern rfl
        have less : room pattern key (some (p + 1, k)) + 1 ≤ room pattern key last := by
          cases last with
          | none => simp only [room]; omega
          | some star =>
            have := remembers star rfl
            simp only [room]
            omega
        have := Nat.mul_le_mul_right (pattern.length + 1) less
        rw [Nat.add_mul] at this
        refine Or.inr ⟨_, rfl, ⟨by omega, ?_⟩, ?_⟩
        · simp only [Remembers, Option.mem_def, Option.some.injEq, forall_eq']
          omega
        · simp only [Stage.weight]
          omega
      | false =>
        cases last with
        | none => exact Or.inl ⟨false, rfl⟩
        | some star =>
          -- The last star takes one more byte.
          obtain ⟨sp, sk⟩ := star
          have held := remembers (sp, sk) rfl
          simp only at held
          have less : room pattern key (some (sp, sk + 1)) + 1 ≤ room pattern key (some (sp, sk)) := by
            simp only [room]
            omega
          have := Nat.mul_le_mul_right (pattern.length + 1) less
          rw [Nat.add_mul] at this
          refine Or.inr ⟨_, rfl, ⟨held.1, ?_⟩, ?_⟩
          · simp only [Remembers, Option.mem_def, Option.some.injEq, forall_eq']
            omega
          · simp only [Stage.weight]
            omega
  | closing p =>
    simp only [advance]
    obtain ⟨wild, starred, inPattern⟩ := @here_ok pattern (fun b => .ok (b == star)) (fun b => ⟨_, rfl⟩) p
    rw [starred]
    cases wild with
    | true =>
      have := inPattern rfl
      refine Or.inr ⟨_, rfl, this, ?_⟩
      simp only [Stage.weight]
      omega
    | false => exact Or.inl ⟨_, rfl⟩

theorem matchLoop_advance (n p k : Nat) (last : Option (Nat × Nat)) :
    matchLoop pattern key (n + 1) p k last = (do
      match ← advance pattern key (.seeking p k last) with
      | .inr (.seeking p k last) => matchLoop pattern key n p k last
      | .inr (.closing p) => .ok (some p)
      | .inl _ => .ok none) := by
  conv_lhs => unfold matchLoop
  simp only [advance]
  by_cases more : k < key.length
  swap
  · rw [if_neg more, if_neg more]
    rfl
  rw [if_pos more, if_pos more]
  cases here pattern p fun b => do .ok (b == (← read key k)) with
  | error e => rfl
  | ok same =>
    cases same with
    | true => rfl
    | false =>
      cases here pattern p fun b => .ok (b == star) with
      | error e => rfl
      | ok wild =>
        cases wild with
        | true => rfl
        | false => cases last <;> rfl

theorem matchLoop_ok (n : Nat) {p k : Nat} {last : Option (Nat × Nat)} (inside : p ≤ pattern.length)
    (remembers : Remembers pattern p k last)
    (enough : room pattern key last * (pattern.length + 1) + (pattern.length - p) + 1 ≤ n) :
    ∃ end', matchLoop pattern key n p k last = .ok end' ∧ ∀ q ∈ end', q ≤ pattern.length := by
  induction n generalizing p k last with
  | zero => omega
  | succ n ih =>
    rw [matchLoop_advance]
    obtain ⟨same, answered⟩ | ⟨next, moved, kept, lighter⟩ := @advance_ok pattern key (.seeking p k last) ⟨inside, remembers⟩
    · rw [answered]
      exact ⟨none, rfl, by simp⟩
    rw [moved]
    cases next with
    | seeking p k last =>
      simp only [Stage.weight] at lighter
      exact ih kept.1 kept.2 (by omega)
    | closing p => exact ⟨some p, rfl, by simpa [Stage.Inside] using kept⟩

theorem skipStars_advance (n p : Nat) :
    skipStars pattern (n + 1) p = (do
      match ← advance pattern key (.closing p) with
      | .inr (.closing p) => skipStars pattern n p
      | _ => .ok p) := by
  conv_lhs => unfold skipStars
  simp only [advance]
  cases here pattern p fun b => .ok (b == star) with
  | error e => rfl
  | ok wild => cases wild <;> rfl

theorem skipStars_ok (n : Nat) {p : Nat} (inside : p ≤ pattern.length) (enough : pattern.length - p + 1 ≤ n) :
    ∃ q, skipStars pattern n p = .ok q := by
  induction n generalizing p with
  | zero => omega
  | succ n ih =>
    rw [@skipStars_advance _ []]
    obtain ⟨same, answered⟩ | ⟨next, moved, kept, lighter⟩ := @advance_ok pattern [] (.closing p) inside
    · rw [answered]
      exact ⟨p, rfl⟩
    rw [moved]
    cases next with
    | seeking p' k last => exact ⟨p, rfl⟩
    | closing p' =>
      simp only [Stage.weight] at lighter
      exact ih kept (by omega)

theorem rounds_enough (pattern key : Bytes) :
    room pattern key none * (pattern.length + 1) + (pattern.length - 0) + 1 ≤ rounds pattern key := by
  show (pattern.length + key.length + 1) * (pattern.length + 1) + (pattern.length - 0) + 1 ≤ _
  unfold rounds
  have grown := Nat.mul_succ (pattern.length + key.length + 1) (pattern.length + 1)
  rw [show pattern.length + 2 = (pattern.length + 1).succ by omega, grown]
  generalize (pattern.length + key.length + 1) * (pattern.length + 1) = most
  omega

theorem remembers_none (pattern : Bytes) (p k : Nat) : Remembers pattern p k none := by simp [Remembers]

/-- The matcher ends, and reads inside its two arguments. -/
theorem run_ok (pattern key : Bytes) : ∃ same, run pattern key = .ok same := by
  obtain ⟨end', ended, inside⟩ :=
    matchLoop_ok _ (Nat.zero_le _) (remembers_none pattern 0 0) (rounds_enough pattern key)
  unfold run
  rw [ended]
  cases end' with
  | none => exact ⟨false, rfl⟩
  | some p =>
    obtain ⟨q, skipped⟩ := skipStars_ok (pattern.length + 1) (inside p rfl) (by omega)
    simp only [bind, Except.bind, skipped]
    exact ⟨_, rfl⟩

end Loops

end Glob

/-- `glob::matches` -/
def globMatches (pattern key : Bytes) : Bool :=
  match Glob.run pattern key with
  | .ok b => b
  | .error _ => false

end ArchivAgent
