import ArchivAgent.Config.Config
import ArchivAgent.Interval.Related
import ArchivAgent.Redact.Spans
import ArchivAgent.Redact.Wildcard

/-!
# What the redaction rules ask for

The configuration read as it is written: rule by rule, every match in a string the rule names is
replaced by its mask. The compiled engine finds its rules by their index in a set of patterns and
their masks by an id, and comes to the same.
-/

namespace ArchivAgent
open Wire

instance (pattern key : Bytes) : Decidable (Glob.Aligned pattern key) := decidable_of_iff _ (globMatches_aligned pattern key)

/-- A configured field names a string: the body, or an attribute whose key is aligned with its glob. -/
def namesString (field : Bytes) : Option Bytes → Bool
  | none => field == bodySelector
  | some key => attributesPrefix.isPrefixOf field && decide (Glob.Aligned (field.drop attributesPrefix.length) key)

def RegexRuleConfig.selects (rule : RegexRuleConfig) (key : Option Bytes) : Bool := rule.fields.any (namesString · key)

/-- What the rules find in a string, with their masks. An empty string is not searched. -/
def RedactionConfig.findings (regex : RegexCrate) (redaction : RedactionConfig) (key : Option Bytes) (text : Bytes) :
    List (Range × Bytes) :=
  if text.isEmpty then []
  else redaction.regexRules.flatMap fun rule =>
    if rule.selects key then (regex.findIter rule.pattern text).map fun m => (m, rule.mask) else []

def FindingLe (a b : Range × Bytes) : Prop := a.1.start < b.1.start ∨ a.1.start = b.1.start ∧ a.1.stop ≤ b.1.stop

instance : DecidableRel FindingLe := fun _ _ => inferInstanceAs (Decidable (_ ∨ _))

/-- A string from a place on, with findings replaced by their masks. -/
def substitute (text : Bytes) : Nat → List (Range × Bytes) → Bytes
  | start, [] => slice text start text.length
  | start, f :: rest => slice text start f.1.start ++ f.2 ++ substitute text f.1.stop rest

/-- Sorted by start and end, a finding counts when it does not start before the end of the last one that did. -/
def RedactionConfig.redacted (regex : RegexCrate) (redaction : RedactionConfig) (key : Option Bytes) (text : Bytes) : Bytes :=
  substitute text 0 (Interval.firstWins (·.1.start) (·.1.stop) 0 ((redaction.findings regex key text).insertionSort FindingLe))

/-- A set reports the patterns that match in their order. -/
def RegexCrate.Ascending (regex : RegexCrate) : Prop := ∀ patterns field, (regex.setMatches patterns field).Pairwise (· < ·)

/-! ### Selectors -/

def FieldSelector.selects : FieldSelector → Option Bytes → Bool
  | .body, none => true
  | .attrs glob, some key => globMatches glob key
  | _, _ => false

theorem applies_any (rule : CompiledRule) (key : Option Bytes) : rule.applies key = rule.fields.any (·.selects key) := by
  cases key with
  | none =>
    rw [CompiledRule.applies, CompiledRule.appliesToBody, List.contains_eq_any_beq]
    refine congrArg (List.any _) (funext fun sel => ?_)
    cases sel <;> rfl
  | some key =>
    rw [CompiledRule.applies, CompiledRule.appliesToAttr]
    refine congrArg (List.any _) (funext fun sel => ?_)
    cases sel <;> rfl

theorem parse_selects {field : Bytes} {sel : FieldSelector} (parsed : FieldSelector.parse field = some sel)
    (key : Option Bytes) : sel.selects key = namesString field key := by
  unfold FieldSelector.parse at parsed
  split at parsed
  · rename_i body
    cases parsed
    subst body
    cases key with
    | none => rfl
    | some key => rw [namesString, show attributesPrefix.isPrefixOf bodySelector = false by decide]; rfl
  · rename_i other
    split at parsed
    · rename_i attrs
      simp only at parsed
      split at parsed
      · cases parsed
      · cases parsed
        cases key with
        | none => exact (beq_eq_false_iff_ne.mpr other).symm
        | some key =>
          rw [namesString, attrs, Bool.true_and, FieldSelector.selects, Bool.eq_iff_iff, decide_eq_true_iff]
          exact globMatches_aligned _ key
    · cases parsed

theorem parseFields_any {rule : RegexRuleConfig} {fields : List Bytes} {sels : List FieldSelector}
    (parsed : rule.parseFields fields = .ok sels) (key : Option Bytes) :
    sels.any (·.selects key) = fields.any (namesString · key) := by
  induction fields generalizing sels with
  | nil =>
    cases parsed
    rfl
  | cons f fields ih =>
    rw [RegexRuleConfig.parseFields] at parsed
    cases one : FieldSelector.parse f with
    | none =>
      rw [one] at parsed
      cases parsed
    | some sel =>
      rw [one] at parsed
      cases rest : rule.parseFields fields with
      | error e =>
        rw [rest] at parsed
        cases parsed
      | ok out =>
        rw [rest] at parsed
        cases parsed
        rw [List.any_cons, List.any_cons, parse_selects one, ih rest]

/-! ### The compiled rules -/

structure RegexRuleConfig.Specified (rule : RegexRuleConfig) (spec : RuleSpec) : Prop where
  pattern : spec.pattern = rule.pattern
  mask : spec.mask = rule.mask
  fields : ∀ key, spec.fields.any (·.selects key) = rule.selects key

theorem intoRuleSpec_ok {rule : RegexRuleConfig} {spec : RuleSpec} (made : rule.intoRuleSpec = .ok spec) :
    rule.Specified spec := by
  unfold RegexRuleConfig.intoRuleSpec RegexRuleConfig.parseSelectors at made
  split at made
  · cases made
  · cases parsed : rule.parseFields rule.fields with
    | error e =>
      rw [parsed] at made
      cases made
    | ok sels =>
      rw [parsed] at made
      cases made
      exact ⟨rfl, rfl, parseFields_any parsed⟩

theorem intoRuleSpecs_ok {redaction : RedactionConfig} {specs : List RuleSpec} (made : redaction.intoRuleSpecs = .ok specs) :
    List.Forall₂ RegexRuleConfig.Specified redaction.regexRules specs := by
  unfold RedactionConfig.intoRuleSpecs at made
  generalize redaction.regexRules = rules at made
  induction rules generalizing specs with
  | nil =>
    cases made
    exact .nil
  | cons rule rules ih =>
    rw [List.mapM_cons] at made
    cases one : rule.intoRuleSpec with
    | error e =>
      rw [one] at made
      cases made
    | ok spec =>
      rw [one] at made
      cases rest : rules.mapM RegexRuleConfig.intoRuleSpec with
      | error e =>
        rw [rest] at made
        cases made
      | ok out =>
        rw [rest] at made
        cases made
        exact .cons (intoRuleSpec_ok one) (ih rest)

structure RegexRuleConfig.Compiled (masks : List Bytes) (rule : RegexRuleConfig) (compiled : CompiledRule) : Prop where
  pattern : compiled.regex = rule.pattern
  mask : masks[compiled.mask]? = some rule.mask
  fields : ∀ key, compiled.applies key = rule.selects key

namespace RedactEngine

theorem maskFor_finds {masks : List Bytes} (mask : Bytes) (room : masks.length < 2 ^ 32) :
    ∃ more, (maskFor masks mask).2 = masks ++ more ∧ more.length ≤ 1 ∧
      (maskFor masks mask).2[(maskFor masks mask).1]? = some mask := by
  unfold maskFor
  split
  · rename_i i found
    obtain ⟨inside, same, -⟩ := List.findIdx?_eq_some_iff_getElem.mp found
    refine ⟨[], (List.append_nil _).symm, Nat.zero_le 1, ?_⟩
    rw [Nat.mod_eq_of_lt (Nat.lt_trans inside room), List.getElem?_eq_getElem inside, eq_of_beq same]
  · refine ⟨[mask], rfl, Nat.le_refl 1, ?_⟩
    rw [Nat.mod_eq_of_lt room]
    exact List.getElem?_concat_length ..

theorem addRules_compiled {configured : List RegexRuleConfig} {specs : List RuleSpec}
    (specified : List.Forall₂ RegexRuleConfig.Specified configured specs) (rules : List CompiledRule) (masks : List Bytes)
    (room : masks.length + specs.length ≤ 2 ^ 32) :
    ∃ added more, addRules specs rules masks = (rules ++ added, masks ++ more) ∧
      List.Forall₂ (RegexRuleConfig.Compiled (masks ++ more)) configured added := by
  induction specified generalizing rules masks with
  | nil => exact ⟨[], [], by rw [addRules, List.append_nil, List.append_nil], .nil⟩
  | @cons rule spec configured specs one _ ih =>
    rw [List.length_cons] at room
    obtain ⟨new, grown, few, found⟩ := maskFor_finds spec.mask (by omega : masks.length < 2 ^ 32)
    obtain ⟨added, more, whole, compiled⟩ := ih (rules ++ [⟨spec.name, spec.pattern, (maskFor masks spec.mask).1, spec.fields⟩])
      (maskFor masks spec.mask).2 (by rw [grown, List.length_append]; omega)
    refine ⟨⟨spec.name, spec.pattern, (maskFor masks spec.mask).1, spec.fields⟩ :: added, new ++ more, ?_,
      .cons ⟨one.pattern, ?_, fun key => ?_⟩ ?_⟩
    · rw [← List.append_assoc, ← grown]
      exact whole.trans (by rw [List.append_assoc, grown]; rfl)
    · rw [← List.append_assoc, ← grown, List.getElem?_append_left (List.getElem?_eq_some_iff.mp found).1, found, one.mask]
    · rw [applies_any]
      exact one.fields key
    · rw [← List.append_assoc, ← grown]
      exact compiled

theorem compile_compiled {regex : RegexCrate} {configured : List RegexRuleConfig} {specs : List RuleSpec}
    {limits : CompileLimits} {engine : RedactEngine} (compiled : compile regex specs limits = .ok engine)
    (specified : List.Forall₂ RegexRuleConfig.Specified configured specs) (few : configured.length ≤ 2 ^ 32) :
    List.Forall₂ (RegexRuleConfig.Compiled engine.masks) configured engine.rules := by
  unfold compile at compiled
  cases checked : checkSpecs regex limits specs with
  | error e =>
    rw [checked] at compiled
    cases compiled
  | ok _ =>
    rw [checked] at compiled
    simp only [bind, Except.bind] at compiled
    split at compiled
    · cases compiled
    · cases compiled
      obtain ⟨added, more, whole, each⟩ := addRules_compiled specified [] [] (by
        rw [List.length_nil, Nat.zero_add, ← specified.length_eq]
        exact few)
      rw [whole]
      exact each

end RedactEngine

/-! ### Through the set -/

theorem flatMap_filter_idle {α β : Type} {test : α → Bool} {f : α → List β} {as : List α}
    (idle : ∀ a ∈ as, test a = false → f a = []) : (as.filter test).flatMap f = as.flatMap f := by
  induction as with
  | nil => rfl
  | cons a as ih =>
    simp only [List.mem_cons, forall_eq_or_imp] at idle
    rw [List.filter_cons, List.flatMap_cons]
    cases tested : test a with
    | true => rw [if_pos rfl, List.flatMap_cons, ih idle.2]
    | false => rw [if_neg Bool.false_ne_true, ih idle.2, idle.1 tested, List.nil_append]

theorem flatMap_range {α β : Type} (as : List α) (f : α → List β) :
    (List.range as.length).flatMap (fun i => (as[i]?.map f).getD []) = as.flatMap f := by
  induction as with
  | nil => rfl
  | cons a as ih =>
    rw [List.length_cons, List.range_succ_eq_map, List.flatMap_cons, List.flatMap_cons, List.flatMap_map, ← ih]
    rfl

/-- Going through the indices of what is used, in their order, is going through all. -/
theorem flatMap_used {α β : Type} {as : List α} {used : α → Bool} {f : α → List β} {indices : List Nat}
    (ascending : indices.Pairwise (· < ·)) (exact : ∀ i, i ∈ indices ↔ ∃ a, as[i]? = some a ∧ used a = true)
    (idle : ∀ a ∈ as, used a = false → f a = []) :
    indices.flatMap (fun i => (as[i]?.map f).getD []) = as.flatMap f := by
  have all : indices = (List.range as.length).filter fun i => (as[i]?.map used).getD false := by
    refine List.Pairwise.eq_of_mem_iff ascending (List.pairwise_lt_range.filter _) fun i => ?_
    rw [exact i, List.mem_filter, List.mem_range]
    constructor
    · rintro ⟨a, here, uses⟩
      exact ⟨(List.getElem?_eq_some_iff.mp here).1, by rw [here]; exact uses⟩
    · rintro ⟨inside, uses⟩
      rw [List.getElem?_eq_getElem inside] at uses ⊢
      exact ⟨_, rfl, uses⟩
  rw [all, flatMap_filter_idle, flatMap_range]
  intro i inside unused
  rw [List.getElem?_eq_getElem (List.mem_range.mp inside)] at unused ⊢
  exact idle _ (List.getElem_mem _) unused

def FoundAt (masks : List Bytes) (base : Nat) (s : Redaction) (f : Range × Bytes) : Prop :=
  s.target = ⟨base + f.1.start, base + f.1.stop⟩ ∧ masks[s.mask]? = some f.2

section Findings
variable {regex : RegexCrate} {engine : RedactEngine} {redaction : RedactionConfig}

theorem redactField_rules (lawful : regex.Lawful) (ascending : regex.Ascending) (formed : engine.WellFormed) (field : Bytes)
    (base : Nat) (key : Option Bytes) :
    RedactStage.redactField regex engine field base key = if field.isEmpty then [] else engine.rules.flatMap fun rule =>
      if rule.applies key then (regex.findIter rule.regex field).map (spanOf base rule.mask) else [] := by
  unfold RedactStage.redactField
  split
  · rfl
  · have indexed := @flatMap_used _ _ engine.rules (fun rule => !(regex.findIter rule.regex field).isEmpty)
      (fun rule => if rule.applies key then (regex.findIter rule.regex field).map (spanOf base rule.mask) else [])
      _ (ascending engine.prefilter field)
    rw [← indexed]
    · refine congrArg (List.flatMap · _) (funext fun i => ?_)
      cases engine.rules[i]? <;> rfl
    · intro i
      rw [lawful.set_exact, ← formed.patterns]
      constructor
      · rintro ⟨p, here, matched⟩
        rw [List.getElem?_map] at here
        obtain ⟨rule, found, rfl⟩ := Option.map_eq_some_iff.mp here
        exact ⟨rule, found, by simpa using matched⟩
      · rintro ⟨rule, found, matched⟩
        exact ⟨rule.regex, by rw [List.getElem?_map, found]; rfl, by simpa using matched⟩
    · intro rule _ unmatched
      have none : regex.findIter rule.regex field = [] := by simpa using unmatched
      rw [none, List.map_nil, ite_self]

/-- The spans of a string are what the configured rules find in it, in their order and with their masks. -/
theorem redactField_findings (lawful : regex.Lawful) (ascending : regex.Ascending) (formed : engine.WellFormed)
    (compiled : List.Forall₂ (RegexRuleConfig.Compiled engine.masks) redaction.regexRules engine.rules) (field : Bytes)
    (base : Nat) (key : Option Bytes) :
    List.Forall₂ (FoundAt engine.masks base) (RedactStage.redactField regex engine field base key)
      (redaction.findings regex key field) := by
  rw [redactField_rules lawful ascending formed, RedactionConfig.findings]
  split
  · exact .nil
  · refine List.rel_flatMap compiled.flip fun rule configured one => ?_
    rw [one.fields, one.pattern]
    split
    · rw [List.forall₂_map_left_iff, List.forall₂_map_right_iff, List.forall₂_same]
      exact fun m _ => ⟨rfl, one.mask⟩
    · exact .nil

theorem findings_inside (lawful : regex.Lawful) {key : Option Bytes} {text : Bytes} {f : Range × Bytes}
    (found : f ∈ redaction.findings regex key text) : f.1.start ≤ f.1.stop ∧ f.1.stop ≤ text.length := by
  unfold RedactionConfig.findings at found
  split at found
  · cases found
  · obtain ⟨rule, -, found⟩ := List.mem_flatMap.mp found
    split at found
    · obtain ⟨m, reported, rfl⟩ := List.mem_map.mp found
      exact lawful.in_bounds _ _ m reported
    · cases found

end Findings

end ArchivAgent
