import ArchivAgent.Agent.Pipeline
import ArchivAgent.Terminated.Terminated

/-!
# The policy fingerprint

`policy_fingerprint` of `archiv-config/src/lib.rs`. The bytes it hashes are terminated strings,
with an absent condition written as an empty one: two policies with the same bytes can differ in
just that, or in where a string with a NUL byte ends.
-/

namespace ArchivAgent
open Wire (Bytes)
open Terminated

/-- `u16::to_le_bytes` -/
def toLeBytes (n : Nat) : Bytes := [UInt8.ofNat n, UInt8.ofNat (n / 256)]

namespace SamplingRule

def stream (r : SamplingRule) : Bytes :=
  r.selector.namespaceName.getD [] ++ [0] ++ (r.selector.severityLte.getD [] ++ [0]) ++ toLeBytes r.target

def filled (r : SamplingRule) : SamplingRule where
  selector := ⟨some (r.selector.namespaceName.getD []), some (r.selector.severityLte.getD [])⟩
  target := r.target

/-- The strings of a rule as they are written. The second byte of a target ends it. -/
def strings (r : SamplingRule) : List Bytes :=
  [r.selector.namespaceName.getD [], r.selector.severityLte.getD [], [UInt8.ofNat r.target]]

def texts (r : SamplingRule) : List Bytes := r.selector.namespaceName.toList ++ r.selector.severityLte.toList

end SamplingRule

namespace RegexRuleConfig

def stream (r : RegexRuleConfig) : Bytes :=
  [r.name, r.pattern, r.mask].flatMap (· ++ [0]) ++ r.fields.flatMap (· ++ [0]) ++ [0xFE]

def texts (r : RegexRuleConfig) : List Bytes := r.name :: r.pattern :: r.mask :: r.fields

end RegexRuleConfig

namespace AgentConfig

/-- What the fingerprint hashes. -/
def policyStream (cfg : AgentConfig) : Bytes :=
  toLeBytes cfg.sampling.defaultTarget ++ cfg.sampling.rules.flatMap SamplingRule.stream ++ [0xFF]
    ++ cfg.redaction.regexRules.flatMap RegexRuleConfig.stream

def policyFingerprint (xxh64 : Xxh64) (cfg : AgentConfig) : Nat := xxh64 cfg.policyStream 0

/-- The target a namespace and a severity resolve to, when the rules compile. -/
def resolve (cfg : AgentConfig) (namespaceName : Option Bytes) (severity : Option Int) : Option Nat :=
  (cfg.sampling.rules.mapM Pipeline.compileRule).toOption.map fun rules =>
    SamplingPolicy.resolve ⟨rules, cfg.sampling.defaultTarget % 256⟩ namespaceName severity

def texts (cfg : AgentConfig) : List Bytes :=
  cfg.sampling.rules.flatMap SamplingRule.texts ++ cfg.redaction.regexRules.flatMap RegexRuleConfig.texts

/-- The policy with every absent condition read as an empty one. -/
def filled (cfg : AgentConfig) : Nat × List SamplingRule × List RegexRuleConfig :=
  (cfg.sampling.defaultTarget, cfg.sampling.rules.map SamplingRule.filled, cfg.redaction.regexRules)

/-- The strings of the policy cut at their NUL bytes: those of the rules in one list, and those of
each redaction rule. -/
def pieces (cfg : AgentConfig) : Nat × List Bytes × List (List Bytes) :=
  (cfg.sampling.defaultTarget, (cfg.sampling.rules.flatMap SamplingRule.strings).flatMap (cut 0),
    cfg.redaction.regexRules.map fun r => r.texts.flatMap (cut 0))

structure Alike (cfg cfg' : AgentConfig) : Prop where
  resolve : ∀ namespaceName severity, cfg.resolve namespaceName severity = cfg'.resolve namespaceName severity
  redaction : cfg.redaction.regexRules.map (fun r => (r.pattern, r.mask, r.fields))
    = cfg'.redaction.regexRules.map fun r => (r.pattern, r.mask, r.fields)

/-- The bytes of a `String`. -/
def Utf8 (bs : Bytes) : Prop := ∃ cs : List Char, bs = cs.flatMap String.utf8EncodeChar

def Written (cfg : AgentConfig) : Prop := ∀ s ∈ cfg.texts, Utf8 s

def NulFree (cfg : AgentConfig) : Prop := ∀ s ∈ cfg.texts, 0 ∉ s

/-! ### Bytes that no string has -/

theorem utf8_below {bs : Bytes} (utf8 : Utf8 bs) : ∀ b ∈ bs, b.toNat < 0xF8 := by
  obtain ⟨cs, rfl⟩ := utf8
  intro b member
  obtain ⟨c, -, member⟩ := List.mem_flatMap.mp member
  unfold String.utf8EncodeChar at member
  simp only at member
  split at member
  · rw [List.mem_singleton] at member
    rw [member, UInt8.toNat_ofNat']
    omega
  split at member
  · simp only [List.mem_cons, List.not_mem_nil, or_false] at member
    rcases member with rfl | rfl <;> rw [UInt8.toNat_ofNat'] <;> omega
  split at member
  · simp only [List.mem_cons, List.not_mem_nil, or_false] at member
    rcases member with rfl | rfl | rfl <;> rw [UInt8.toNat_ofNat'] <;> omega
  · simp only [List.mem_cons, List.not_mem_nil, or_false] at member
    rcases member with rfl | rfl | rfl | rfl <;> rw [UInt8.toNat_ofNat'] <;> omega

structure TargetsInRange (cfg : AgentConfig) : Prop where
  default : cfg.sampling.defaultTarget ≤ 100
  rules : ∀ r ∈ cfg.sampling.rules, r.target ≤ 100

theorem validateTargets_ok {i : Nat} {rules : List SamplingRule} (valid : validateTargets i rules = .ok ()) :
    ∀ r ∈ rules, r.target ≤ 100 := by
  induction rules generalizing i with
  | nil => simp
  | cons rule rules ih =>
    unfold validateTargets at valid
    split at valid
    · cases valid
    · simp only [List.mem_cons, forall_eq_or_imp]
      exact ⟨by omega, ih valid⟩

theorem validate_targets {cfg : AgentConfig} (valid : cfg.validate = .ok ()) : cfg.TargetsInRange := by
  unfold validate at valid
  by_cases tooHigh : 100 < cfg.sampling.defaultTarget
  · rw [if_pos tooHigh] at valid
    cases valid
  rw [if_neg tooHigh] at valid
  cases targets : validateTargets 0 cfg.sampling.rules with
  | error e =>
    simp only [targets, bind, Except.bind] at valid
    cases valid
  | ok _ => exact ⟨by omega, validateTargets_ok targets⟩

/-! ### The stream as terminated strings -/

section Stream
variable {cfg cfg' : AgentConfig}

theorem rules_stream (inRange : cfg.TargetsInRange) :
    cfg.sampling.rules.flatMap SamplingRule.stream = join 0 (cfg.sampling.rules.flatMap SamplingRule.strings) := by
  have each : ∀ r ∈ cfg.sampling.rules, r.stream = join 0 r.strings := by
    intro r member
    have := inRange.rules r member
    have high : r.target / 256 = 0 := by omega
    simp [SamplingRule.stream, SamplingRule.strings, toLeBytes, high]
  generalize cfg.sampling.rules = rules at each
  induction rules with
  | nil => rfl
  | cons r rules ih =>
    simp only [List.mem_cons, forall_eq_or_imp] at each
    rw [List.flatMap_cons, List.flatMap_cons, join_append, each.1, ih each.2]

theorem redaction_stream (rules : List RegexRuleConfig) :
    rules.flatMap RegexRuleConfig.stream = join 0xFE ((rules.map RegexRuleConfig.texts).map (join 0)) := by
  induction rules with
  | nil => rfl
  | cons r rules ih =>
    have one : r.stream = join 0 r.texts ++ [0xFE] := by
      simp [RegexRuleConfig.stream, RegexRuleConfig.texts, join]
    rw [List.flatMap_cons, List.map_cons, List.map_cons, join_cons, ih, one, List.append_assoc]
    rfl

/-- No string of a policy has a byte that separates its parts. -/
theorem texts_above (written : cfg.Written) {bss : List Bytes} (some : ∀ bs ∈ bss, bs ∈ cfg.texts) {b : UInt8}
    (high : 0xF8 ≤ b.toNat) : b ∉ join 0 bss := by
  intro member
  rcases mem_join member with ⟨bs, inside, member⟩ | rfl
  · have := utf8_below (written bs (some bs inside)) b member
    omega
  · exact absurd high (by decide)

theorem strings_above (inRange : cfg.TargetsInRange) (written : cfg.Written) :
    (0xFF : UInt8) ∉ join 0 (cfg.sampling.rules.flatMap SamplingRule.strings) := by
  intro member
  rcases mem_join member with ⟨bs, inside, member⟩ | same
  · obtain ⟨r, rule, inside⟩ := List.mem_flatMap.mp inside
    have low := inRange.rules r rule
    have text : ∀ t ∈ r.texts, (0xFF : UInt8) ∉ t := by
      intro t mine member
      have := utf8_below (written t (List.mem_append_left _ (List.mem_flatMap.mpr ⟨r, rule, mine⟩))) _ member
      exact absurd this (by decide)
    have getD : ∀ o : Option Bytes, (∀ t ∈ o.toList, t ∈ r.texts) → (0xFF : UInt8) ∉ o.getD [] := by
      intro o mine
      cases o with
      | none => simp
      | some t => exact text t (mine t (by simp))
    simp only [SamplingRule.strings, List.mem_cons, List.not_mem_nil, or_false] at inside
    rcases inside with rfl | rfl | rfl
    · exact getD _ (fun t mine => List.mem_append_left _ mine) member
    · exact getD _ (fun t mine => List.mem_append_right _ mine) member
    · rw [List.mem_singleton] at member
      have same := congrArg UInt8.toNat member
      rw [UInt8.toNat_ofNat'] at same
      simp at same
      omega
  · cases same

theorem policyStream_eq_iff (inRange : cfg.TargetsInRange) (inRange' : cfg'.TargetsInRange) (written : cfg.Written)
    (written' : cfg'.Written) : cfg.policyStream = cfg'.policyStream ↔ cfg.pieces = cfg'.pieces := by
  have section' : ∀ {cfg : AgentConfig}, cfg.TargetsInRange → cfg.policyStream = UInt8.ofNat cfg.sampling.defaultTarget
      :: UInt8.ofNat (cfg.sampling.defaultTarget / 256) :: (join 0 (cfg.sampling.rules.flatMap SamplingRule.strings)
        ++ 0xFF :: join 0xFE ((cfg.redaction.regexRules.map RegexRuleConfig.texts).map (join 0))) := by
    intro cfg inRange
    rw [policyStream, rules_stream inRange, redaction_stream]
    simp only [toLeBytes, List.append_assoc, List.cons_append, List.nil_append]
  have redacted : ∀ {cfg : AgentConfig}, cfg.Written →
      ∀ l ∈ (cfg.redaction.regexRules.map RegexRuleConfig.texts).map (join 0), (0xFE : UInt8) ∉ l := by
    intro cfg written l member
    obtain ⟨ts, inner, rfl⟩ := List.mem_map.mp member
    obtain ⟨r, rule, rfl⟩ := List.mem_map.mp inner
    refine texts_above written (fun bs inside => ?_) (by decide)
    exact List.mem_append_right _ (List.mem_flatMap.mpr ⟨r, rule, inside⟩)
  rw [section' inRange, section' inRange', pieces, pieces, Prod.mk.injEq, Prod.mk.injEq, List.cons.injEq, List.cons.injEq]
  have cutMap : ∀ rules : List RegexRuleConfig, rules.map (fun r => r.texts.flatMap (cut 0))
      = (rules.map RegexRuleConfig.texts).map (·.flatMap (cut 0)) := fun rules => by rw [List.map_map]; rfl
  rw [cutMap, cutMap, ← map_join_eq_iff, ← join_eq_iff]
  constructor
  · rintro ⟨low, -, rest⟩
    have same := congrArg UInt8.toNat low
    rw [UInt8.toNat_ofNat', UInt8.toNat_ofNat'] at same
    have := inRange.default
    have := inRange'.default
    obtain ⟨rules, redaction⟩ := before_inj (strings_above inRange written) (strings_above inRange' written') rest
    exact ⟨by omega, rules, join_inj (redacted written) (redacted written') redaction⟩
  · rintro ⟨default, rules, redaction⟩
    rw [default, rules, redaction]
    exact ⟨rfl, rfl, rfl⟩

/-! ### Strings without NUL bytes -/

theorem target_pieces {t t' : Nat} (small : t ≤ 100) (small' : t' ≤ 100) {rest rest' : List Bytes}
    (same : cut 0 [UInt8.ofNat t] ++ rest = cut 0 [UInt8.ofNat t'] ++ rest') : t = t' ∧ rest = rest' := by
  have pieces : ∀ t ≤ 100, cut 0 [UInt8.ofNat t] = if t = 0 then [[], []] else [[UInt8.ofNat t]] := by
    intro t small
    split
    · rename_i zero
      rw [zero]
      rfl
    · apply cut_of_free
      rw [List.mem_singleton]
      intro zero
      have same := congrArg UInt8.toNat zero
      rw [UInt8.toNat_ofNat'] at same
      simp at same
      omega
  rw [pieces t small, pieces t' small'] at same
  split at same <;> split at same
  · exact ⟨by omega, by simpa using same⟩
  · simp at same
  · simp at same
  · simp only [List.cons_append, List.nil_append, List.cons.injEq, and_true] at same
    have low := congrArg UInt8.toNat same.1
    rw [UInt8.toNat_ofNat', UInt8.toNat_ofNat'] at low
    exact ⟨by omega, same.2⟩

theorem rule_pieces {r : SamplingRule} (free : ∀ s ∈ r.texts, 0 ∉ s) : r.strings.flatMap (cut 0) =
    r.selector.namespaceName.getD [] :: r.selector.severityLte.getD [] :: cut 0 [UInt8.ofNat r.target] := by
  have getD : ∀ o : Option Bytes, (∀ t ∈ o.toList, t ∈ r.texts) → 0 ∉ o.getD [] := by
    intro o mine
    cases o with
    | none => simp
    | some t => exact free t (mine t (by simp))
  have ns := getD r.selector.namespaceName fun t mine => List.mem_append_left _ mine
  have severity := getD r.selector.severityLte fun t mine => List.mem_append_right _ mine
  rw [SamplingRule.strings, List.flatMap_cons, List.flatMap_cons, List.flatMap_cons, cut_of_free ns, cut_of_free severity]
  simp

/-- Rules without NUL bytes have the same pieces when they are the same but for what is absent. -/
theorem rules_pieces {rules rules' : List SamplingRule} (small : ∀ r ∈ rules, r.target ≤ 100) (small' : ∀ r ∈ rules', r.target ≤ 100)
    (free : ∀ r ∈ rules, ∀ s ∈ r.texts, 0 ∉ s) (free' : ∀ r ∈ rules', ∀ s ∈ r.texts, 0 ∉ s)
    (same : (rules.flatMap SamplingRule.strings).flatMap (cut 0) = (rules'.flatMap SamplingRule.strings).flatMap (cut 0)) :
    rules.map SamplingRule.filled = rules'.map SamplingRule.filled := by
  induction rules generalizing rules' with
  | nil =>
    cases rules' with
    | nil => rfl
    | cons r' rules' =>
      rw [List.flatMap_cons, List.flatMap_append, rule_pieces (free' r' List.mem_cons_self)] at same
      cases same
  | cons r rules ih =>
    simp only [List.mem_cons, forall_eq_or_imp] at small free
    rw [List.flatMap_cons, List.flatMap_append, rule_pieces free.1] at same
    cases rules' with
    | nil => cases same
    | cons r' rules' =>
      simp only [List.mem_cons, forall_eq_or_imp] at small' free'
      rw [List.flatMap_cons, List.flatMap_append, rule_pieces free'.1] at same
      simp only [List.cons_append, List.cons.injEq] at same
      obtain ⟨ns, severity, rest⟩ := same
      obtain ⟨target, rest⟩ := target_pieces small.1 small'.1 rest
      rw [List.map_cons, List.map_cons, ih small.2 small'.2 free.2 free'.2 rest]
      simp only [SamplingRule.filled, ns, severity, target]

theorem pieces_eq_iff (inRange : cfg.TargetsInRange) (inRange' : cfg'.TargetsInRange) (free : cfg.NulFree) (free' : cfg'.NulFree) :
    cfg.pieces = cfg'.pieces ↔ cfg.filled = cfg'.filled := by
  have sampling : ∀ {cfg : AgentConfig}, cfg.NulFree → ∀ r ∈ cfg.sampling.rules, ∀ s ∈ r.texts, 0 ∉ s :=
    fun free r rule s text => free s (List.mem_append_left _ (List.mem_flatMap.mpr ⟨r, rule, text⟩))
  have redaction : ∀ {cfg : AgentConfig}, cfg.NulFree → (cfg.redaction.regexRules.map fun r => r.texts.flatMap (cut 0))
      = cfg.redaction.regexRules.map RegexRuleConfig.texts := by
    intro cfg free
    refine List.map_congr_left fun r rule => flatMap_cut_of_free fun s text => ?_
    exact free s (List.mem_append_right _ (List.mem_flatMap.mpr ⟨r, rule, text⟩))
  have texts : ∀ rules rules' : List RegexRuleConfig, rules.map RegexRuleConfig.texts = rules'.map RegexRuleConfig.texts ↔
      rules = rules' := by
    intro rules rules'
    refine (List.map_injective_iff.mpr fun r r' same => ?_).eq_iff
    obtain ⟨name, pattern, mask, fields⟩ := r
    simp only [RegexRuleConfig.texts, List.cons.injEq] at same
    obtain ⟨rfl, rfl, rfl, rfl⟩ := same
    rfl
  rw [pieces, pieces, filled, filled, Prod.mk.injEq, Prod.mk.injEq, Prod.mk.injEq, Prod.mk.injEq, redaction free, redaction free', texts]
  refine and_congr_right fun _ => and_congr_left fun _ => ?_
  refine ⟨rules_pieces inRange.rules inRange'.rules (sampling free) (sampling free'), fun same => ?_⟩
  have strings : ∀ rules : List SamplingRule, rules.flatMap SamplingRule.strings
      = (rules.map SamplingRule.filled).flatMap SamplingRule.strings := by
    intro rules
    rw [List.flatMap_map]
    rfl
  rw [strings, same, ← strings]

end Stream

end AgentConfig

open AgentConfig

/-- The one is absent and the other is empty. -/
def Blurred (c c' : Option Bytes) : Prop := c = none ∧ c' = some [] ∨ c = some [] ∧ c' = none

/-- No rule leaves out a condition that the rule at its place in the other policy has as an empty one. -/
structure AgentConfig.Distinct (cfg cfg' : AgentConfig) : Prop where
  namespaceName : ∀ (i : Nat) r r', cfg.sampling.rules[i]? = some r → cfg'.sampling.rules[i]? = some r' →
    ¬ Blurred r.selector.namespaceName r'.selector.namespaceName
  severityLte : ∀ (i : Nat) r r', cfg.sampling.rules[i]? = some r → cfg'.sampling.rules[i]? = some r' →
    ¬ Blurred r.selector.severityLte r'.selector.severityLte

theorem eq_of_getD {c c' : Option Bytes} (same : c.getD [] = c'.getD []) (distinct : ¬ Blurred c c') : c = c' := by
  cases c with
  | none =>
    cases c' with
    | none => rfl
    | some s =>
      obtain rfl : [] = s := same
      exact absurd (.inl ⟨rfl, rfl⟩) distinct
  | some s =>
    cases c' with
    | none =>
      obtain rfl : s = [] := same
      exact absurd (.inr ⟨rfl, rfl⟩) distinct
    | some s' => exact congrArg some same

theorem AgentConfig.Distinct.rules_eq {cfg cfg' : AgentConfig} (distinct : cfg.Distinct cfg')
    (same : cfg.sampling.rules.map SamplingRule.filled = cfg'.sampling.rules.map SamplingRule.filled) :
    cfg.sampling.rules = cfg'.sampling.rules := by
  have length := congrArg List.length same
  rw [List.length_map, List.length_map] at length
  refine List.ext_getElem length fun i inside inside' => ?_
  have here := List.getElem?_eq_getElem inside
  have here' := List.getElem?_eq_getElem inside'
  have filled := congrArg (·[i]?) same
  simp only [List.getElem?_map, here, here', Option.map_some, Option.some.injEq] at filled
  have ns := distinct.namespaceName i _ _ here here'
  have severity := distinct.severityLte i _ _ here here'
  generalize cfg.sampling.rules[i] = r at filled ns severity
  generalize cfg'.sampling.rules[i] = r' at filled ns severity
  obtain ⟨⟨c, d⟩, target⟩ := r
  obtain ⟨⟨c', d'⟩, target'⟩ := r'
  simp only [SamplingRule.filled, SamplingRule.mk.injEq, SamplingMatch.mk.injEq, Option.some.injEq] at filled
  obtain ⟨⟨names, severities⟩, rfl⟩ := filled
  obtain rfl := eq_of_getD names ns
  obtain rfl := eq_of_getD severities severity
  rfl

/-- Policies without NUL bytes, in which no absent condition stands against an empty one, govern
alike when they have the same fingerprint bytes. -/
theorem policyStream_separates {cfg cfg' : AgentConfig} (valid : cfg.validate = .ok ()) (valid' : cfg'.validate = .ok ())
    (written : cfg.Written) (written' : cfg'.Written) (free : cfg.NulFree) (free' : cfg'.NulFree) (distinct : cfg.Distinct cfg')
    (same : cfg.policyStream = cfg'.policyStream) : cfg.Alike cfg' := by
  have inRange := validate_targets valid
  have inRange' := validate_targets valid'
  have pieces := (policyStream_eq_iff inRange inRange' written written').mp same
  have filled := (pieces_eq_iff inRange inRange' free free').mp pieces
  rw [AgentConfig.filled, AgentConfig.filled, Prod.mk.injEq, Prod.mk.injEq] at filled
  obtain ⟨default, rules, redaction⟩ := filled
  refine ⟨fun namespaceName severity => ?_, by rw [redaction]⟩
  unfold AgentConfig.resolve
  rw [distinct.rules_eq rules, default]

def AgentConfig.droppingIn (namespaceName : Option Bytes) : AgentConfig where
  sampling := ⟨100, [⟨⟨namespaceName, none⟩, 0⟩]⟩

theorem AgentConfig.droppingIn_written {namespaceName : Option Bytes} (utf8 : ∀ ns ∈ namespaceName, Utf8 ns) :
    (AgentConfig.droppingIn namespaceName).Written := by
  intro s text
  exact utf8 s (by simpa [AgentConfig.texts, droppingIn, SamplingRule.texts] using text)

/-- The policy of the namespace `a`, over two ports. -/
theorem policyStream_separates_dropping :
    (droppingIn (some [97])).Alike { droppingIn (some [97]) with ingest := { httpEndpoint := "0.0.0.0:80" } } := by
  have written : (droppingIn (some [97])).Written := droppingIn_written (by
    rintro _ ⟨⟩
    exact ⟨['a'], by decide⟩)
  have free : (droppingIn (some [97])).NulFree := by
    intro s text
    obtain rfl : s = [97] := by simpa [texts, droppingIn, SamplingRule.texts] using text
    decide
  refine @policyStream_separates (droppingIn (some [97])) { droppingIn (some [97]) with ingest := { httpEndpoint := "0.0.0.0:80" } }
    rfl rfl written written free free ⟨?_, ?_⟩ rfl
  · rintro (_ | i) r r' ⟨⟩ ⟨⟩ (⟨⟨⟩, -⟩ | ⟨⟨⟩, -⟩)
  · rintro (_ | i) r r' ⟨⟩ ⟨⟩ (⟨-, ⟨⟩⟩ | ⟨⟨⟩, -⟩)

/-- A rule for every namespace and one for the empty namespace have the same fingerprint. -/
theorem policyStream_separates_not : ¬ ∀ cfg cfg' : AgentConfig, cfg.validate = .ok () → cfg'.validate = .ok () →
    cfg.Written → cfg'.Written → cfg.policyStream = cfg'.policyStream → cfg.Alike cfg' := by
  intro separates
  have alike := separates (droppingIn none) (droppingIn (some [])) rfl rfl (droppingIn_written (by simp))
    (droppingIn_written (by rintro _ ⟨⟩; exact ⟨[], rfl⟩)) rfl
  exact absurd (alike.resolve none none) (by decide)

end ArchivAgent
