import ArchivAgent.Agent.Governing

/-!
# What the exporter accepts

A payload the walker accepted is assembled exactly when the assembly has nothing to do or every
value of every kept record reads to its end; otherwise the request goes out as it came in.
-/

namespace ArchivAgent
open Wire

/-- The assembly has nothing to do, or it can read whatever it has to. -/
def Acceptable (d : Decisions) (rs : List Record) : Prop :=
  (d.anyDropped = false ∧ d.redactions = []) ∨
    ∀ i r, rs[i]? = some r → d.samplingVerdict i = .keep → r.Complete

theorem process_assembles_iff {crates : Crates} (lawful : crates.regex.Lawful) {config : AgentConfig}
    {p : Pipeline} (built : Pipeline.fromConfig crates config = .ok p) {raw : Bytes} {views : List RecordView}
    (parsed : parseExportLogsRequest raw [] = .ok views) (breaker : CircuitBreaker.Inner) (now : Nat)
    (fault : Option StageFault) :
    ∃ rs g out after, records raw = some rs ∧ views = rs.map Record.view ∧
      p.govern crates breaker now fault raw = .ok g ∧
      p.process crates breaker now fault raw = .ok (out, after) ∧
      ((∃ payload, assemble g.env p.masks = .ok payload) ↔ Acceptable g.env.decisions rs) ∧
      (out.stats.assembleBypassed = false ↔ Acceptable g.env.decisions rs) := by
  obtain ⟨rs, found, rfl⟩ := parseExportLogsRequest_ok.mp parsed
  have held := records_in found
  have formed := Pipeline.fromConfig_wellFormed built
  obtain ⟨g, governed, governs, -⟩ := (@govern_ok crates p) found breaker now fault
  have whole : (assembleCells g.env p.masks).isSome ↔ Acceptable g.env.decisions rs :=
    assembleCells_isSome (governs.known held lawful formed) (governs.request ▸ found)
      (by rw [governs.views, List.length_map])
  have processed := governs.process_ok held lawful formed governed
  cases written : assembleCells g.env p.masks with
  | some cells =>
    rw [written] at processed whole
    obtain ⟨payload, same, -, -, done⟩ := processed
    refine ⟨rs, g, _, _, found, rfl, governed, done, ?_, ?_⟩
    · rw [← whole]
      simp [same]
    · rw [← whole]
      simp [governs.assembleBypassed]
  | none =>
    rw [written] at processed whole
    obtain ⟨⟨e, failed⟩, done⟩ := processed
    refine ⟨rs, g, _, _, found, rfl, governed, done, ?_, ?_⟩
    · rw [← whole]
      simp [failed]
    · rw [← whole]
      simp

/-- One record whose body is the string `ab` and a byte that starts no field. -/
def tailed : Bytes := [0x0A, 11, 0x12, 9, 0x12, 7, 0x2A, 5, 0x0A, 2, 97, 98, 0xFF]

def maskAb : Pipeline where
  redact := ⟨[[97, 98]], [⟨[97, 98], [97, 98], 0, [.body]⟩], [[42]]⟩
  masks := [[42]]
  policy := ⟨[], 100⟩
  maxBodyBytes := 4 * 1024 * 1024
  redactBreaker := .withDefaults

theorem process_assembles_iff_tailed : ∃ rs g out after, records tailed = some rs ∧
      [RecordView.mk ⟨10, 12⟩ none [] none none none] = rs.map Record.view ∧
      maskAb.govern .literal .closed 0 none tailed = .ok g ∧
      maskAb.process .literal .closed 0 none tailed = .ok (out, after) ∧
      ((∃ payload, assemble g.env maskAb.masks = .ok payload) ↔ Acceptable g.env.decisions rs) ∧
      (out.stats.assembleBypassed = false ↔ Acceptable g.env.decisions rs) :=
  @process_assembles_iff _ RegexCrate.literal_lawful (.masking [([97, 98], [42])]) _ rfl _ _ rfl .closed 0 none

/-- The string is found and masked, but the value does not read to its end: the request goes out
with the string in it. -/
theorem process_accepts_not : ¬ ∀ (crates : Crates), crates.regex.Lawful → ∀ config p,
    Pipeline.fromConfig crates config = .ok p → ∀ raw views, parseExportLogsRequest raw [] = .ok views →
    ∀ breaker now fault out after, p.process crates breaker now fault raw = .ok (out, after) →
      out.stats.assembleBypassed = false := by
  intro accepts
  have := accepts .literal RegexCrate.literal_lawful (.masking [([97, 98], [42])]) maskAb rfl tailed _ rfl
    .closed 0 none _ _ rfl
  exact absurd this (by decide)

end ArchivAgent
