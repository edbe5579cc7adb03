import ArchivAgent.Ingest.Reading
import ArchivAgent.Redact.Engine

/-!
# The spans the redaction stage pushes

A compiled engine keeps its patterns and its rules in step and only names masks it has. With a
lawful regex crate the spans of a view are exactly the matches of the rules that select it.
-/

namespace ArchivAgent
open Wire

/-! ### Compiled engines -/

structure RedactEngine.WellFormed (engine : RedactEngine) : Prop where
  patterns : engine.rules.map (·.regex) = engine.prefilter
  masks : ∀ rule ∈ engine.rules, rule.mask < engine.masks.length

namespace RedactEngine

/-- Cutting an index to 32 bits leaves it in the table. -/
theorem maskFor_spec (masks : List Bytes) (mask : Bytes) :
    (maskFor masks mask).1 < (maskFor masks mask).2.length ∧ masks.length ≤ (maskFor masks mask).2.length := by
  unfold maskFor
  split
  · rename_i i found
    have := (List.findIdx?_eq_some_iff_getElem.mp found).1
    exact ⟨Nat.lt_of_le_of_lt (Nat.mod_le _ _) this, Nat.le_refl _⟩
  · simp only [List.length_append, List.length_singleton]
    exact ⟨Nat.lt_succ_of_le (Nat.mod_le _ _), Nat.le_succ _⟩

theorem addRules_spec (specs : List RuleSpec) (rules : List CompiledRule) (masks : List Bytes)
    (held : ∀ rule ∈ rules, rule.mask < masks.length) :
    (addRules specs rules masks).1.map (·.regex) = rules.map (·.regex) ++ specs.map (·.pattern) ∧
      ∀ rule ∈ (addRules specs rules masks).1, rule.mask < (addRules specs rules masks).2.length := by
  induction specs generalizing rules masks with
  | nil => exact ⟨by simp [addRules], held⟩
  | cons spec specs ih =>
    obtain ⟨inTable, grown⟩ := maskFor_spec masks spec.mask
    have next := ih (rules ++ [⟨spec.name, spec.pattern, (maskFor masks spec.mask).1, spec.fields⟩])
      (maskFor masks spec.mask).2 (by
        simp only [List.mem_append, List.mem_singleton]
        rintro rule (old | rfl)
        · exact Nat.lt_of_lt_of_le (held rule old) grown
        · exact inTable)
    rw [addRules]
    refine ⟨by rw [next.1]; simp, next.2⟩

theorem compile_wellFormed {regex : RegexCrate} {specs : List RuleSpec} {limits : CompileLimits}
    {engine : RedactEngine} (h : compile regex specs limits = .ok engine) : engine.WellFormed := by
  unfold compile at h
  cases checked : checkSpecs regex limits specs with
  | error e => rw [checked] at h; cases h
  | ok _ =>
    rw [checked] at h
    simp only [bind, Except.bind] at h
    split at h
    · cases h
    · cases h
      obtain ⟨patterns, masks⟩ := addRules_spec specs [] [] (by simp)
      exact ⟨by simpa using patterns, masks⟩

end RedactEngine

/-! ### The spans of one view -/

/-- A match in a text, as the span the stage pushes for it. -/
def spanOf (base : Nat) (mask : MaskId) (m : Range) : Redaction := ⟨⟨base + m.start, base + m.stop⟩, mask⟩

namespace RedactStage
variable {regex : RegexCrate} {engine : RedactEngine} {raw : Bytes}

theorem mem_redactField (lawful : regex.Lawful) (formed : engine.WellFormed) {field : Bytes} {base : Nat}
    {key : Option Bytes} {s : Redaction} :
    s ∈ redactField regex engine field base key ↔
      field ≠ [] ∧ ∃ rule ∈ engine.rules, rule.applies key ∧
        ∃ m ∈ regex.findIter rule.regex field, s = spanOf base rule.mask m := by
  have pattern : ∀ (i : Nat) (rule : CompiledRule), engine.rules[i]? = some rule → engine.prefilter[i]? = some rule.regex := by
    intro i rule h
    rw [← formed.patterns, List.getElem?_map, h]
    rfl
  unfold redactField
  by_cases empty : field = []
  · simp [empty]
  simp only [List.isEmpty_iff, empty, ↓reduceIte, List.mem_flatMap, not_false_eq_true, true_and, ne_eq]
  constructor
  · rintro ⟨i, -, h⟩
    cases hr : engine.rules[i]? with
    | none => rw [hr] at h; cases h
    | some rule =>
      rw [hr] at h
      simp only at h
      split at h
      · rename_i applied
        obtain ⟨m, found, rfl⟩ := List.mem_map.mp h
        exact ⟨rule, List.mem_of_getElem? hr, applied, m, found, rfl⟩
      · cases h
  · rintro ⟨rule, member, selects, m, found, rfl⟩
    obtain ⟨i, hr⟩ := List.getElem?_of_mem member
    refine ⟨i, (lawful.set_exact _ _ i).mpr ⟨_, pattern i rule hr, List.ne_nil_of_mem found⟩, ?_⟩
    simp only [hr, selects, ↓reduceIte]
    exact List.mem_map.mpr ⟨m, found, rfl⟩

theorem redactField_inside (lawful : regex.Lawful) (formed : engine.WellFormed) {field : Bytes} {base : Nat}
    {key : Option Bytes} {s : Redaction} (h : s ∈ redactField regex engine field base key) :
    field ≠ [] ∧ base ≤ s.target.start ∧ s.target.start ≤ s.target.stop ∧
      s.target.stop ≤ base + field.length ∧ s.mask < engine.masks.length := by
  obtain ⟨nonempty, rule, member, -, m, found, rfl⟩ := (mem_redactField lawful formed).mp h
  obtain ⟨ordered, inside⟩ := lawful.in_bounds _ _ m found
  exact ⟨nonempty, Nat.le_add_right _ _, Nat.add_le_add_left ordered _, Nat.add_le_add_left inside _,
    formed.masks rule member⟩

/-! ### The spans of a record -/

def recordSpans (regex : RegexCrate) (engine : RedactEngine) (r : Record) : List Redaction :=
  redactField regex engine r.body.bytes r.body.pos none
    ++ r.attrs.flatMap fun a => redactField regex engine a.value.bytes a.value.pos (some a.key.bytes)

theorem redactRecord_eq {r : Record} (held : r.In raw) :
    redactRecord regex engine raw r.view = recordSpans regex engine r := by
  have attrs : (r.view.attrs.flatMap (redactAttr regex engine raw))
      = r.attrs.flatMap fun a => redactField regex engine a.value.bytes a.value.pos (some a.key.bytes) := by
    simp only [Record.view, List.flatMap_map]
    rw [List.flatMap_def, List.flatMap_def]
    refine congrArg List.flatten (List.map_congr_left fun a member => ?_)
    have key : a.view.key.get raw = some a.key.bytes := (held.attrs a member).key.get
    have value : a.view.value.get raw = some a.value.bytes := (held.attrs a member).value.get
    simp only [redactAttr, key, value]
    rfl
  have body : r.view.body.get raw = some r.body.bytes := held.body.get
  simp only [redactRecord, body, attrs]
  rfl

theorem spans_from (rs : List Record) (start : Nat) :
    ∀ p ∈ spans regex engine raw start (rs.map Record.view), start ≤ p.1 := by
  induction rs generalizing start with
  | nil => simp [spans]
  | cons r rs ih =>
    simp only [List.map_cons, spans, List.mem_append, List.mem_map]
    rintro p (⟨s, -, rfl⟩ | h)
    · exact Nat.le_refl _
    · exact Nat.le_of_succ_le (ih (start + 1) p h)

theorem spans_filter {rs : List Record} (held : ∀ r ∈ rs, r.In raw) (start i : Nat) :
    ((spans regex engine raw start (rs.map Record.view)).filter (·.1 == start + i)).map (·.2)
      = (rs[i]?.map (recordSpans regex engine)).getD [] := by
  induction rs generalizing start i with
  | nil => simp [spans]
  | cons r rs ih =>
    simp only [List.mem_cons, forall_eq_or_imp] at held
    simp only [List.map_cons, spans, List.filter_append, List.map_append, redactRecord_eq held.1]
    cases i with
    | zero =>
      have none : (spans regex engine raw (start + 1) (rs.map Record.view)).filter (·.1 == start) = [] := by
        rw [List.filter_eq_nil_iff]
        intro p h
        have := spans_from rs (start + 1) p h
        simp only [beq_iff_eq]
        omega
      have all : ((recordSpans regex engine r).map fun s => (start, s)).filter (·.1 == start)
          = (recordSpans regex engine r).map fun s => (start, s) := by
        rw [List.filter_eq_self]
        simp
      simp [none, all, Function.comp_def]
    | succ i =>
      have none : ((recordSpans regex engine r).map fun s => (start, s)).filter (·.1 == start + (i + 1)) = [] := by
        rw [List.filter_eq_nil_iff]
        simp
      have rest := ih held.2 (start + 1) i
      rw [show start + 1 + i = start + (i + 1) by omega] at rest
      simp [none, rest]

end RedactStage

end ArchivAgent
