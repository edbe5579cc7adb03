import ArchivAgent.Redact.Engine

/-!
# Literal patterns

On a pattern without metacharacters the `regex` crate reports the leftmost occurrences that do not
overlap, and the empty pattern matches at every position. Such a crate is lawful, so what is
proved of every lawful crate can be run.
-/

namespace ArchivAgent
open Wire (Bytes Range)

/-- The occurrences in the rest of a field from `pos` on, the first `skip` positions left out. -/
def literalRanges (pattern : Bytes) : Bytes → Nat → Nat → List Range
  | [], pos, skip => if skip = 0 ∧ pattern = [] then [⟨pos, pos⟩] else []
  | b :: rest, pos, skip =>
    if skip = 0 ∧ pattern.isPrefixOf (b :: rest) then
      ⟨pos, pos + pattern.length⟩ :: literalRanges pattern rest (pos + 1) (pattern.length - 1)
    else literalRanges pattern rest (pos + 1) (skip - 1)

def RegexCrate.literal : RegexCrate where
  build _ _ := .ok ()
  buildSet _ _ := .ok ()
  findIter pattern field := literalRanges pattern field 0 0
  setMatches patterns field := (List.range patterns.length).filter fun i =>
    (patterns[i]?.map fun pattern => !(literalRanges pattern field 0 0).isEmpty).getD false

theorem literalRanges_from (pattern rest : Bytes) (pos skip : Nat) :
    ∀ m ∈ literalRanges pattern rest pos skip,
      pos + skip ≤ m.start ∧ m.start ≤ m.stop ∧ m.stop ≤ pos + rest.length := by
  induction rest generalizing pos skip with
  | nil =>
    intro m h
    rw [literalRanges] at h
    split at h
    · rename_i here
      obtain rfl := List.mem_singleton.mp h
      simp [here.1]
    · cases h
  | cons b rest ih =>
    intro m h
    rw [literalRanges] at h
    simp only [List.length_cons]
    split at h
    · rename_i here
      have fits : pattern.length ≤ rest.length + 1 := by
        have := (List.isPrefixOf_iff_prefix.mp here.2).length_le
        simpa using this
      rcases List.mem_cons.mp h with rfl | later
      · simp only
        omega
      · have := ih (pos + 1) (pattern.length - 1) m later
        omega
    · have := ih (pos + 1) (skip - 1) m h
      omega

theorem literalRanges_ordered (pattern rest : Bytes) (pos skip : Nat) :
    (literalRanges pattern rest pos skip).Pairwise fun a b => a.stop ≤ b.start := by
  induction rest generalizing pos skip with
  | nil =>
    rw [literalRanges]
    split
    · exact List.pairwise_singleton _ _
    · exact .nil
  | cons b rest ih =>
    rw [literalRanges]
    split
    · refine List.pairwise_cons.mpr ⟨fun m h => ?_, ih _ _⟩
      have := literalRanges_from pattern rest (pos + 1) (pattern.length - 1) m h
      simp only
      omega
    · exact ih _ _

theorem RegexCrate.literal_lawful : RegexCrate.literal.Lawful where
  in_bounds pattern field m h := by
    have := literalRanges_from pattern field 0 0 m h
    omega
  ordered pattern field := literalRanges_ordered pattern field 0 0
  set_exact patterns field i := by
    simp only [literal, List.mem_filter, List.mem_range]
    constructor
    · rintro ⟨-, found⟩
      cases h : patterns[i]? with
      | none => simp [h] at found
      | some pattern => exact ⟨pattern, rfl, by simpa [h] using found⟩
    · rintro ⟨pattern, h, found⟩
      exact ⟨(List.getElem?_eq_some_iff.mp h).1, by simpa [h] using found⟩

end ArchivAgent
