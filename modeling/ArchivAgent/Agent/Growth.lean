import ArchivAgent.Agent.Accounting
import ArchivAgent.Agent.Policy

/-!
# How much longer a payload gets

What is rewritten is as long as it was, but for the masks. A mask can be longer than what it stands
for, and the header of each message around it can then need more bytes for the length.
-/

namespace ArchivAgent
open Wire

/-- What a mask adds one message further out: a header grows only around a text that grows. -/
def deepened (k : Nat) : Nat := if k = 0 then 0 else k + 9

/-- A text becomes no longer than it was, but for `k` bytes for each mask. -/
def Lengthens (raw : Bytes) (masks : MaskTable) (k : Nat) (editor : Editor) : Prop :=
  ∀ t i c, editor t i = some c → (render raw masks (c.1.cells t)).length < 2 ^ 64 →
    (render raw masks (c.1.cells t)).length ≤ t.bytes.length + k * (c.1.cells t).countP Cell.isMask

def Level.Lengthens (raw : Bytes) (masks : MaskTable) (k : Nat) (level : Level) : Prop :=
  ∀ n editor, level n = some editor → ArchivAgent.Lengthens raw masks k editor

theorem slice_length_le (raw : Bytes) (a b : Nat) : (slice raw a b).length ≤ b - a := by
  simp only [slice, List.length_drop, List.length_take]
  omega

theorem le_deepened (k : Nat) : k ≤ deepened k := by
  unfold deepened
  split <;> omega

section Messages
variable {raw : Bytes} {masks : MaskTable} {level : Level} {k i : Nat}

theorem Lengthens.mono {editor : Editor} {j : Nat} (h : Lengthens raw masks j editor) (le : j ≤ k) :
    Lengthens raw masks k editor := fun t i c changed fits =>
  Nat.le_trans (h t i c changed fits) (Nat.add_le_add_left (Nat.mul_le_mul_right _ le) _)

theorem Edit.keep_length (q : Nat × Field) : (render raw masks ((Edit.keep q).cells raw masks)).length ≤ q.2.size := by
  rw [Edit.cells, render_rawCells]
  have := slice_length_le raw q.1 (q.1 + q.2.size)
  omega

theorem header_length {f : Field} (formed : f.WellFormed) (two : f.wire = 2) {n : Nat} (fits : n < 2 ^ 64) :
    (header (f.number % 2 ^ 32) n).length ≤ f.tagBytes.length + f.lenBytes.length + 9 ∧
      (n ≤ f.body.length → (header (f.number % 2 ^ 32) n).length ≤ f.tagBytes.length + f.lenBytes.length) := by
  have tag : (put (8 * (f.number % 2 ^ 32) + 2)).length ≤ f.tagBytes.length := by
    refine Nat.le_trans (put_mono ?_) (put_shortest formed.1)
    have := Nat.mod_le f.number (2 ^ 32)
    unfold Field.number Field.wire at *
    omega
  have extent := formed.2
  rw [two] at extent
  obtain ⟨⟨len, j⟩, read, rest⟩ := Option.bind_eq_some_iff.mp extent
  have same : f.body.length ≤ len ∧ f.lenBytes.length = j := by
    simp only [Option.ite_none_right_eq_some, Option.some.injEq, Prod.mk.injEq] at rest
    obtain ⟨-, rfl, body⟩ := rest
    exact ⟨body ▸ Nat.mod_le _ _, rfl⟩
  obtain ⟨long, rfl⟩ := same
  have old := Nat.le_trans (put_mono long) (put_shortest read)
  have positive := (varint_length read).1
  have new : (put n).length ≤ 10 := put_length_le (by decide) (Nat.lt_trans fits (by decide))
  rw [header, List.length_append]
  refine ⟨by omega, fun shorter => ?_⟩
  have := put_mono shorter
  omega

theorem editOne_lengthens (lengthens : level.Lengthens raw masks k) {q : Nat × Field} (formed : q.2.WellFormed)
    {e : Edit × Nat} (one : editOne level q i = some e) (fits : (render raw masks (e.1.cells raw masks)).length < 2 ^ 64) :
    (render raw masks (e.1.cells raw masks)).length ≤ q.2.size + deepened k * (e.1.cells raw masks).countP Cell.isMask := by
  rcases editOne_cases (e := e.1) (j := e.2) one with ⟨same, -, -⟩ | ⟨editor, c, two, found, changed, same⟩
  · rw [same]
    exact Nat.le_trans (Edit.keep_length q) (Nat.le_add_right _ _)
  rw [same, masks_edit]
  rw [same] at fits
  have child := lengthens _ _ found _ _ _ changed
  cases c with
  | unchanged => exact Nat.le_trans (Edit.keep_length q) (Nat.le_add_right _ _)
  | dropped => exact Nat.zero_le _
  | rebuilt content =>
    simp only [Change.edit, Edit.cells, render_append, render_litCells, List.length_append] at fits ⊢
    simp only [Change.cells] at child ⊢
    have inside := child (by omega)
    obtain ⟨grown, kept⟩ := header_length (n := (render raw masks content).length) formed two (by omega)
    rw [size_eq]
    have body : (payload q).bytes.length = q.2.body.length := rfl
    rw [body] at inside
    unfold deepened
    by_cases none : k = 0 ∨ content.countP Cell.isMask = 0
    · -- nothing was added inside, and the header is no longer than it was
      have nothing : k * content.countP Cell.isMask = 0 := Nat.mul_eq_zero.mpr none
      have := kept (by omega)
      omega
    · obtain ⟨some, masked⟩ := not_or.mp none
      rw [if_neg some, Nat.add_mul]
      omega

theorem editFields_lengthens (lengthens : level.Lengthens raw masks k) {qs : List (Nat × Field)}
    (formed : ∀ q ∈ qs, q.2.WellFormed) {es : List Edit × Nat} (edited : editFields level qs i = some es)
    (fits : (render raw masks (es.1.flatMap (Edit.cells raw masks))).length < 2 ^ 64) :
    (render raw masks (es.1.flatMap (Edit.cells raw masks))).length ≤
      (qs.map fun q => q.2.size).sum + deepened k * (es.1.flatMap (Edit.cells raw masks)).countP Cell.isMask := by
  induction qs generalizing i es with
  | nil =>
    cases edited
    exact Nat.le_refl 0
  | cons q qs ih =>
    obtain ⟨e, one, rest⟩ := Option.bind_eq_some_iff.mp edited
    obtain ⟨es', more, rfl⟩ := Option.map_eq_some_iff.mp rest
    simp only [List.flatMap_cons, render_append, List.length_append, List.countP_append, List.map_cons, List.sum_cons] at fits ⊢
    have first := editOne_lengthens lengthens (formed q List.mem_cons_self) one (by omega)
    have others := ih (fun q' there => formed q' (List.mem_cons_of_mem q there)) more (by omega)
    rw [Nat.mul_add]
    omega

theorem Level.Lengthens.message (lengthens : level.Lengthens raw masks k) :
    ArchivAgent.Lengthens raw masks (deepened k) (editMessage raw masks level) := by
  intro t i c changed fits
  obtain ⟨fs, read, settled⟩ := Option.bind_eq_some_iff.mp changed
  obtain ⟨es, edited, rfl⟩ := Option.map_eq_some_iff.mp settled
  obtain ⟨whole, formed⟩ := fields_iff.mp read
  simp only at fits ⊢
  rw [(@settle_cells _ _ _ _ es.2 _ _ es.1) read edited] at fits ⊢
  have located : ∀ q ∈ locate t.pos fs, q.2.WellFormed := fun q member =>
    formed _ (locate_map_snd t.pos fs ▸ List.mem_map_of_mem member)
  have length : ((locate t.pos fs).map fun q => q.2.size).sum = t.bytes.length := by
    have sizes : (locate t.pos fs).map (fun q => q.2.size) = fs.map Field.size := by
      conv_rhs => rw [← locate_map_snd t.pos fs, List.map_map]
      rfl
    rw [sizes, whole, List.length_flatMap]
    rfl
  rw [← length]
  exact editFields_lengthens lengthens located edited fits

end Messages

/-! ### Strings -/

/-- No mask is more than `k` bytes longer than what it stands for. -/
def Decisions.Modest (d : Decisions) (masks : MaskTable) (k : Nat) : Prop :=
  ∀ r ∈ d.redactions, ∀ mask, masks.bytes r.redaction.mask = some mask → mask.length ≤ r.redaction.target.len + k

theorem spliceBytes_length {raw : Bytes} {masks : MaskTable} {k start stop : Nat} {spans : List Redaction}
    (ordered : spans.Pairwise fun a b => a.target.stop ≤ b.target.start) (low : start ≤ stop)
    (inside : ∀ r ∈ spans, r.target.start ≤ r.target.stop ∧ start ≤ r.target.start ∧ r.target.stop ≤ stop)
    (modest : ∀ r ∈ spans, ∀ mask, masks.bytes r.mask = some mask → mask.length ≤ r.target.len + k) :
    (spliceBytes raw masks start stop spans).length ≤ (stop - start) + k * spans.length := by
  induction spans generalizing start with
  | nil => exact Nat.le_trans (slice_length_le raw start stop) (Nat.le_add_right _ _)
  | cons r spans ih =>
    obtain ⟨after, ordered⟩ := List.pairwise_cons.mp ordered
    simp only [List.mem_cons, forall_eq_or_imp] at inside modest
    obtain ⟨⟨ranged, first, last⟩, others⟩ := inside
    have rest := ih ordered last (fun s member => ⟨(others s member).1, after s member, (others s member).2.2⟩) modest.2
    have before := slice_length_le raw start r.target.start
    have masked : ((masks.bytes r.mask).getD []).length ≤ (r.target.stop - r.target.start) + k := by
      cases known : masks.bytes r.mask with
      | none => exact Nat.zero_le _
      | some mask => exact modest.1 mask known
    rw [spliceBytes, List.length_append, List.length_append, List.length_cons, Nat.mul_succ]
    omega

section Levels
variable {env : Envelope} {masks : MaskTable} {k : Nat}

theorem scalarEditor_lengthens (ranged : env.decisions.Ranged) (modest : env.decisions.Modest masks k) :
    Lengthens env.raw masks k (scalarEditor env masks) := by
  intro t i c changed _
  rw [(scalarEditor_written ranged changed).2, (scalarEditor_render changed).1, governText]
  have stands : t.range.start ≤ t.range.stop := Nat.le_add_right _ _
  have each : ∀ r ∈ keptSpans env i t.range, ∀ mask, masks.bytes r.mask = some mask → mask.length ≤ r.target.len + k := by
    intro r member mask known
    obtain ⟨s, pushed, -, rfl⟩ := mem_redactionsFor.mp (mem_spansWithin.mp (mem_keptSpans member)).1
    exact modest s pushed mask known
  have spliced := @spliceBytes_length env.raw masks k _ _ _ (keptSpans_ordered ranged) stands (keptSpans_inside ranged) each
  simp only [Text.range] at spliced ⊢
  omega

theorem only_lengthens {raw : Bytes} {n : Nat} {editor : Editor} (h : Lengthens raw masks k editor) :
    (only n editor).Lengthens raw masks k := by
  intro m editor' found
  obtain ⟨-, same⟩ := Option.ite_none_right_eq_some.mp found
  cases same
  exact h

theorem recordEditor_lengthens (ranged : env.decisions.Ranged) (modest : env.decisions.Modest masks k) :
    Lengthens env.raw masks (deepened (deepened (deepened k))) (recordEditor env masks) := by
  have anyValue : Lengthens env.raw masks (deepened k) (anyValueEditor env masks) :=
    (only_lengthens (scalarEditor_lengthens ranged modest)).message
  have keyValue : Lengthens env.raw masks (deepened (deepened k)) (keyValueEditor env masks) :=
    (only_lengthens anyValue).message
  have level : (recordLevel env masks).Lengthens env.raw masks (deepened (deepened k)) := by
    intro n editor found
    unfold recordLevel at found
    split at found
    · cases found
      -- the body is one message less deep than an attribute
      exact anyValue.mono (le_deepened _)
    · split at found
      · cases found
        exact keyValue
      · cases found
  intro t i c changed fits
  unfold recordEditor at changed
  split at changed
  · cases changed
    exact Nat.zero_le _
  · obtain ⟨c', edited, rfl⟩ := Option.map_eq_some_iff.mp changed
    exact level.message t i c' edited fits

theorem requestEditor_lengthens (ranged : env.decisions.Ranged) (modest : env.decisions.Modest masks k) :
    Lengthens env.raw masks (if k = 0 then 0 else k + 54) (requestEditor env masks) := by
  have scope : Lengthens env.raw masks _ (scopeEditor env masks) :=
    (only_lengthens (recordEditor_lengthens ranged modest)).message
  have resource : Lengthens env.raw masks _ (resourceEditor env masks) := (only_lengthens scope).message
  have request : Lengthens env.raw masks _ (requestEditor env masks) := (only_lengthens resource).message
  refine request.mono ?_
  unfold deepened
  by_cases none : k = 0
  · subst none
    exact Nat.le_refl 0
  · simp only [none, ↓reduceIte, Nat.add_eq_zero_iff, false_and, Nat.add_assoc, Nat.le_refl]

theorem assembleCells_length (ranged : env.decisions.Ranged) (modest : env.decisions.Modest masks k) {cells : List Cell}
    (written : assembleCells env masks = some cells) (fits : (render env.raw masks cells).length < 2 ^ 64) :
    (render env.raw masks cells).length ≤ env.raw.length + (if k = 0 then 0 else k + 54) * cells.countP Cell.isMask := by
  rcases assembleCells_cases written with ⟨-, rfl⟩ | ⟨c, edited, rfl⟩
  · rw [render_rawCells]
    have := slice_length_le env.raw 0 env.raw.length
    omega
  · exact requestEditor_lengthens ranged modest _ _ _ edited fits

end Levels

/-! ### The payload of a request -/

section Payload
variable {crates : Crates} {config : AgentConfig} {p : Pipeline} {k : Nat}

def AgentConfig.Modest (crates : Crates) (config : AgentConfig) (k : Nat) : Prop :=
  ∀ rule ∈ config.redaction.regexRules, ∀ field, ∀ m ∈ crates.regex.findIter rule.pattern field, rule.mask.length ≤ m.len + k

theorem governs_modest (lawful : crates.regex.Lawful) (built : Pipeline.fromConfig crates config = .ok p)
    (few : config.redaction.regexRules.length ≤ 2 ^ 32) (modest : config.Modest crates k) {raw : Bytes} {rs : List Record}
    (held : ∀ r ∈ rs, r.In raw) {g : Governed} (governs : Governs crates p raw rs g) : g.env.decisions.Modest p.masks k := by
  intro s pushed mask known
  have formed := Pipeline.fromConfig_wellFormed built
  have compiled := fromConfig_compiled built few
  have here : s.redaction ∈ g.env.decisions.redactionsFor s.record := mem_redactionsFor.mpr ⟨s, pushed, rfl, rfl⟩
  rw [governs.redactionsFor held] at here
  split at here
  · cases here
  cases found : rs[s.record]? with
  | none =>
    rw [found] at here
    cases here
  | some r =>
    rw [found] at here
    obtain ⟨key, w, string, scanned⟩ := mem_recordSpans.mp here
    obtain ⟨-, rule, member, -, m, matched, same⟩ := (RedactStage.mem_redactField lawful formed.engine).mp scanned
    obtain ⟨⟨at', inEngine⟩, rfl⟩ := List.get_of_mem member
    have inConfig : at' < config.redaction.regexRules.length := compiled.length_eq ▸ inEngine
    have meant := compiled.get inConfig inEngine
    rw [same] at known ⊢
    have own := meant.mask
    rw [← formed.masks] at own
    have agree := Option.some.inj (own.symm.trans known)
    rw [meant.pattern] at matched
    have short := modest _ (List.get_mem _ ⟨at', inConfig⟩) _ m matched
    rw [← agree]
    simp only [spanOf, Range.len] at short ⊢
    omega

theorem masks_counted (lawful : crates.regex.Lawful) (formed : p.WellFormed) {raw : Bytes} {rs : List Record}
    (parsed : records raw = some rs) {g : Governed} (governs : Governs crates p raw rs g) :
    keptTotal g.env 0 rs ≤ g.stats.redactions := by
  have held := records_in parsed
  rw [governs.counted, Decisions.redactionTotal]
  cases bypassed : g.stats.redactBypassed with
  | true =>
    have clean : g.env.decisions.redactions = [] := by rw [governs.redactions, bypassed]; rfl
    rw [keptTotal_clean clean]
    exact Nat.zero_le _
  | false =>
    have ran := governs.redactions
    rw [bypassed] at ran
    have total := @spans_length raw rs crates.regex p.redact held 0
    rw [ran]
    simp only [Bool.false_eq_true, ↓reduceIte, List.length_map, total]
    have given : ∀ k r, rs[k]? = some r → g.env.decisions.samplingVerdict (0 + k) = p.sampleVerdict crates r.view raw ∧
        g.env.decisions.redactionsFor (0 + k) = RedactStage.recordSpans crates.regex p.redact r := by
      intro k r here
      rw [Nat.zero_add, governs.redactionsFor held, bypassed, here]
      exact ⟨governs.verdict here, rfl⟩
    exact (keptTotal_spans (governs.ranged held lawful formed) given fun r member =>
      recordSpans_sorts lawful formed.engine (records_viewed parsed member)).1

theorem process_unread {raw : Bytes} (unread : records raw = none) {breaker after : CircuitBreaker.Inner} {now : Nat}
    {fault : Option StageFault} {out : Processed} (processed : p.process crates breaker now fault raw = .ok (out, after)) :
    out.stats.bytesOut = out.stats.bytesIn := by
  obtain ⟨after', ran⟩ := (@redactGuarded_ok crates p raw) breaker now fault [] []
  unfold Pipeline.process Pipeline.govern at processed
  rw [parse_failed unread] at processed
  simp only [bind, Except.bind, Decisions.setSampling, List.map_nil, ran, RedactStage.spans, ite_self] at processed
  split at processed
  · rename_i payload assembled
    cases processed
    unfold assemble at assembled
    split at assembled
    · cases assembled
      rfl
    · rename_i busy
      exact absurd rfl busy
  · cases processed
    rfl
  · cases processed
  · cases processed

/-- The payload is longer than the request by at most what its masks and the headers around them add. -/
theorem process_growth (lawful : crates.regex.Lawful) (built : Pipeline.fromConfig crates config = .ok p)
    (few : config.redaction.regexRules.length ≤ 2 ^ 32) (modest : config.Modest crates k) {raw : Bytes}
    {breaker after : CircuitBreaker.Inner} {now : Nat} {fault : Option StageFault} {out : Processed}
    (processed : p.process crates breaker now fault raw = .ok (out, after)) (fits : out.output.contiguous.length < 2 ^ 64) :
    out.stats.bytesOut ≤ out.stats.bytesIn + (if k = 0 then 0 else k + 54) * out.stats.redactions := by
  cases parsed : records raw with
  | none => exact Nat.le_trans (Nat.le_of_eq (process_unread parsed processed)) (Nat.le_add_right _ _)
  | some rs =>
    have held := records_in parsed
    have formed := Pipeline.fromConfig_wellFormed built
    obtain ⟨g, governed, governs, -⟩ := (@govern_ok crates p) parsed breaker now fault
    have done := governs.process_ok held lawful formed governed
    cases written : assembleCells g.env p.masks with
    | none =>
      rw [written] at done
      rw [done.2] at processed
      cases processed
      exact Nat.le_trans (Nat.le_of_eq governs.bytesIn.symm) (Nat.le_add_right _ _)
    | some cells =>
      rw [written] at done
      obtain ⟨payload, -, bytes, len, done⟩ := done
      rw [done] at processed
      cases processed
      obtain rfl := governs.request
      have ranged := governs.ranged held lawful formed
      have spans := governs_modest lawful built few modest held governs
      have masked := (assembleCells_masks ranged parsed written).trans_le (masks_counted lawful formed parsed governs)
      have bound := assembleCells_length ranged spans written (bytes ▸ fits)
      simp only [len, bytes, governs.bytesIn]
      exact Nat.le_trans bound (Nat.add_le_add_left (Nat.mul_le_mul_left _ masked) _)

theorem process_growth_alphabet :
    alphabetOut.stats.bytesOut ≤ alphabetOut.stats.bytesIn + (if (1 : Nat) = 0 then 0 else 1 + 54) * alphabetOut.stats.redactions :=
  @process_growth .literal (.masking [([97, 98], [42]), ([98, 99], [42])]) maskAbBc 1 RegexCrate.literal_lawful rfl (by decide)
    (by
      intro rule member field m _
      have one : rule.mask.length = 1 := by
        rcases List.mem_cons.mp member with rfl | later
        · rfl
        · rcases List.mem_cons.mp later with rfl | none
          · rfl
          · cases none
      rw [one]
      exact Nat.le_add_left 1 m.len)
    alphabet .closed .closed 0 none alphabetOut (by decide +kernel) (by decide)

end Payload

end ArchivAgent
