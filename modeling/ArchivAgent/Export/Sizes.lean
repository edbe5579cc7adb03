import ArchivAgent.Export.Building
import ArchivAgent.Export.Rewriting
import Mathlib.Algebra.BigOperators.Group.List.Basic

/-!
# Sizes and what is written

A length is computed three times: by `varint_len` before anything is written, by `put_varint` as it
writes, and by the receiver's cursor. The sizes of a tree are computed bottom-up from the first and
then written by the second.
-/

namespace ArchivAgent
open Wire (Bytes Range At)

/-! ### One number -/

/-- The source counts leading zeros and rounds the division up. -/
theorem varintLen_clz {v : Nat} (fits : v < 2 ^ 64) :
    varintLen v = (64 - (BitVec.ofNat 64 (v ||| 1)).clz.toNat + 6) / 7 := by
  have low : v ||| 1 < 2 ^ 64 := Nat.or_lt_two_pow fits (by decide)
  have exact : (BitVec.ofNat 64 (v ||| 1)).toNat = v ||| 1 := by
    rw [BitVec.toNat_ofNat, Nat.mod_eq_of_lt low]
  have positive : v ||| 1 ≠ 0 := by
    have := @Nat.right_le_or v 1
    omega
  have nonzero : BitVec.ofNat 64 (v ||| 1) ≠ 0#64 := by
    intro zero
    rw [zero] at exact
    exact positive exact.symm
  have below := BitVec.two_pow_sub_clz_le_toNat_of_ne_zero (by decide) nonzero
  have above := BitVec.toNat_lt_two_pow_sub_clz (x := BitVec.ofNat 64 (v ||| 1))
  rw [exact] at below above
  generalize (BitVec.ofNat 64 (v ||| 1)).clz.toNat = zeros at below above
  have few : zeros < 64 := by
    by_contra all
    rw [Nat.sub_eq_zero_of_le (Nat.le_of_not_lt all), Nat.pow_zero] at above
    omega
  have bits : Nat.log2 (v ||| 1) = 63 - zeros := by
    apply (Nat.log2_eq_iff positive).mpr
    rw [show 63 - zeros + 1 = 64 - zeros by omega]
    exact ⟨below, above⟩
  rw [varintLen, bits]
  omega

theorem putVarint_length (v : Nat) : (putVarint v).length = varintLen v := by
  rw [putVarint_eq, varintLen_eq]

/-- The cursor reads back what was written, and stops where it ends. -/
theorem varint_putVarint {v : Nat} (fits : v < 2 ^ 64) {c : WireCursor} {rest : Bytes} (sees : Sees c (putVarint v ++ rest)) :
    c.varint = .ok (v, { c with pos := c.pos + varintLen v }) := by
  have read := WireCursor.varint_meets sees
  rw [putVarint_eq, Wire.varint_put v rest (by omega)] at read
  obtain ⟨r, ran, rfl⟩ := read
  rw [ran, varintLen_eq, Nat.mod_eq_of_lt fits]

/-! ### Trees that keep count -/

def Assembler.written (a : Assembler) : Bytes := a.chunks.flatten ++ a.scratch

/-- The call writes `n` bytes and counts them, unless a range lies outside the request. -/
def Grows (n : Nat) (a : Assembler) (r : Run AssembleError Assembler) : Prop :=
  r = .error .panic ∨ ∃ a', r = .ok a' ∧ a'.written.length = a.written.length + n ∧ a'.len = a.len + n

def partLen (masks : MaskTable) : Part → Nat
  | .raw r => r.len
  | .mask m => ((masks.bytes m).getD []).length

def Part.Known (masks : MaskTable) : Part → Prop
  | .raw _ => True
  | .mask m => (masks.bytes m).isSome

mutual

/-- Every size in the tree is the length of what is below it. -/
def Seg.Fits (masks : MaskTable) : Seg → Prop
  | .verbatim _ => True
  | .nested _ size segs => size = segsEncodedLen segs ∧ SegsFit masks segs
  | .scalar _ size parts => size = (parts.map (partLen masks)).sum ∧ ∀ part ∈ parts, part.Known masks

def SegsFit (masks : MaskTable) : List Seg → Prop
  | [] => True
  | seg :: segs => seg.Fits masks ∧ SegsFit masks segs

end

mutual

/-- Every header of the tree announces what its payload is written as. -/
def Seg.Headed (masks : MaskTable) : Seg → Prop
  | .verbatim _ => True
  | .nested _ size segs => (∀ a, Grows size a (emitSegs masks segs a)) ∧ SegsHeaded masks segs
  | .scalar _ size parts => ∀ a, Grows size a (emitParts masks parts a)

def SegsHeaded (masks : MaskTable) : List Seg → Prop
  | [] => True
  | seg :: segs => seg.Headed masks ∧ SegsHeaded masks segs

end

section Sizes
variable {masks : MaskTable}

theorem segsFit_iff {segs : List Seg} : SegsFit masks segs ↔ ∀ seg ∈ segs, seg.Fits masks := by
  induction segs with
  | nil => simp [SegsFit]
  | cons seg segs ih => simp only [SegsFit, ih, List.mem_cons, forall_eq_or_imp]

/-! ### What the builders count -/

theorem spliceSpans_counts {spans : List Redaction} {s s' : ScalarState}
    (counted : s.size = (s.parts.map (partLen masks)).sum) (known : ∀ part ∈ s.parts, part.Known masks)
    (spliced : spliceSpans masks spans s = .ok s') :
    s'.size = (s'.parts.map (partLen masks)).sum ∧ ∀ part ∈ s'.parts, part.Known masks := by
  induction spans generalizing s with
  | nil => cases spliced; exact ⟨counted, known⟩
  | cons r spans ih =>
    simp only [spliceSpans] at spliced
    split at spliced
    · cases spliced
    rename_i mask found
    -- The bytes up to the span are copied where there are any, and then comes the mask.
    refine ih ?_ ?_ spliced
    · split
      · simp only [List.map_append, List.sum_append, List.map_cons, List.map_nil, List.sum_cons, List.sum_nil, partLen, found,
          Option.getD_some, Range.len, counted]
        omega
      · simp only [List.map_append, List.sum_append, List.map_cons, List.map_nil, List.sum_cons, List.sum_nil, partLen, found,
          Option.getD_some, counted]
        omega
    · have masked : (Part.mask r.mask).Known masks := by simp [Part.Known, found]
      have copied : (Part.raw ⟨s.cursor, r.target.start⟩).Known masks := trivial
      split
      · simp only [List.mem_append, List.mem_singleton, or_imp, forall_and, forall_eq]
        exact ⟨⟨known, copied⟩, masked⟩
      · simp only [List.mem_append, List.mem_singleton, or_imp, forall_and, forall_eq]
        exact ⟨known, masked⟩

theorem buildScalar_fits {env : Envelope} {field idx : Nat} {window : Range} {seg : Seg}
    (built : buildScalar field window idx env masks = .ok (some seg)) : seg.Fits masks := by
  unfold buildScalar at built
  simp only at built
  split at built
  · cases built
  obtain ⟨s, spliced, built⟩ := Run.bind_ok built
  obtain ⟨counted, known⟩ := spliceSpans_counts rfl (by simp) spliced
  split at built <;> cases built
  · refine ⟨?_, ?_⟩
    · simp only [List.map_append, List.sum_append, List.map_cons, List.map_nil, List.sum_cons, List.sum_nil, partLen, Range.len,
        counted]
      omega
    · simpa [or_imp, forall_and, Part.Known] using known
  · exact ⟨counted, known⟩

theorem built_fits (env : Envelope) (masks : MaskTable) : Built env masks (Seg.Fits masks) where
  verbatim _ := trivial
  nested _ _ below := ⟨rfl, segsFit_iff.mpr below⟩
  scalar _ _ _ _ string := buildScalar_fits string

/-! ### What emission writes -/

theorem Grows.bind {m n : Nat} {a : Assembler} {r : Run AssembleError Assembler} {f : Assembler → Run AssembleError Assembler}
    (first : Grows m a r) (rest : ∀ a', Grows n a' (f a')) : Grows (m + n) a (r >>= f) := by
  obtain rfl | ⟨a', rfl, wrote, counted⟩ := first
  · exact Or.inl rfl
  · obtain failed | ⟨b, ran, wrote', counted'⟩ := rest a'
    · exact Or.inl failed
    · exact Or.inr ⟨b, ran, by omega, by omega⟩

theorem Grows.ok {n : Nat} {a a' : Assembler} (wrote : a'.written.length = a.written.length + n)
    (counted : a'.len = a.len + n) : Grows n a (.ok a') := Or.inr ⟨a', rfl, wrote, counted⟩

theorem pushChunk_grows (chunk : Bytes) (n : Nat) (a : Assembler) (exact : chunk.length = n) :
    Grows n a (.ok { ({ a with len := a.len + n } : Assembler).flushScratch with
      chunks := ({ a with len := a.len + n } : Assembler).flushScratch.chunks ++ [chunk] }) := by
  apply Grows.ok
  · unfold Assembler.flushScratch
    split
    · rename_i empty
      have bare : a.scratch = [] := List.isEmpty_iff.mp empty
      simp [Assembler.written, bare, exact]
    · simp only [Assembler.written, List.flatten_append, List.flatten_singleton, List.length_append, List.append_nil, exact]
  · unfold Assembler.flushScratch
    split <;> rfl

theorem pushRaw_grows (r : Range) (a : Assembler) : Grows r.len a (a.pushRaw r) := by
  unfold Assembler.pushRaw
  split
  · rename_i empty
    have none : r.len = 0 := Nat.sub_eq_zero_of_le empty
    exact Grows.ok (by omega) (by omega)
  split
  · exact Or.inl rfl
  · rename_i inside
    apply pushChunk_grows
    rw [flushScratch_raw]
    exact length_slice (Nat.le_of_not_lt inside)

theorem pushMask_grows (mask : Bytes) (a : Assembler) : Grows mask.length a (.ok (a.pushMask mask)) :=
  pushChunk_grows mask _ a rfl

theorem pushHeader_grows (field size : Nat) (a : Assembler) : Grows (headerLen field size) a (.ok (a.pushHeader field size)) := by
  apply Grows.ok
  · simp only [Assembler.pushHeader, Assembler.written, List.length_append, putVarint_length, headerLen]
    omega
  · rfl

theorem emitParts_grows {parts : List Part} (known : ∀ part ∈ parts, part.Known masks) (a : Assembler) :
    Grows (parts.map (partLen masks)).sum a (emitParts masks parts a) := by
  induction parts generalizing a with
  | nil => exact Grows.ok rfl rfl
  | cons part parts ih =>
    simp only [List.mem_cons, forall_eq_or_imp] at known
    rw [List.map_cons, List.sum_cons]
    cases part with
    | raw r => exact (pushRaw_grows r a).bind (ih known.2)
    | mask m =>
      obtain ⟨mask, found⟩ := Option.isSome_iff_exists.mp known.1
      simp only [emitParts, partLen, found, Option.getD_some]
      exact (pushMask_grows mask a).bind (f := emitParts masks parts) (ih known.2)

mutual

theorem emitSeg_grows {seg : Seg} (fits : seg.Fits masks) (a : Assembler) :
    Grows (segEncodedLen seg) a (emitSeg masks seg a) := by
  cases seg with
  | verbatim r => exact pushRaw_grows r a
  | nested field size segs =>
    obtain ⟨rfl, below⟩ := fits
    exact (pushHeader_grows field _ a).bind (f := emitSegs masks segs) (emitSegs_grows below)
  | scalar field size parts =>
    obtain ⟨rfl, known⟩ := fits
    exact (pushHeader_grows field _ a).bind (f := emitParts masks parts) (emitParts_grows known)

theorem emitSegs_grows {segs : List Seg} (fit : SegsFit masks segs) (a : Assembler) :
    Grows (segsEncodedLen segs) a (emitSegs masks segs a) := by
  cases segs with
  | nil => exact Grows.ok rfl rfl
  | cons seg segs =>
    rw [segsEncodedLen, List.map_cons, List.sum_cons]
    exact (emitSeg_grows fit.1 a).bind (emitSegs_grows fit.2)

end

mutual

theorem headed_of_fits {seg : Seg} (fits : seg.Fits masks) : seg.Headed masks := by
  cases seg with
  | verbatim r => trivial
  | nested field size segs =>
    obtain ⟨rfl, below⟩ := fits
    exact ⟨emitSegs_grows below, segsHeaded_of_fit below⟩
  | scalar field size parts =>
    obtain ⟨rfl, known⟩ := fits
    exact emitParts_grows known

theorem segsHeaded_of_fit {segs : List Seg} (fit : SegsFit masks segs) : SegsHeaded masks segs := by
  cases segs with
  | nil => trivial
  | cons seg segs => exact ⟨headed_of_fits fit.1, segsHeaded_of_fit fit.2⟩

end

/-- With spans that are ranges, emission comes to an end: nothing it slices lies outside the request. -/
theorem emitSegs_returns {env : Envelope} {recIdx : Nat} {r : List Seg × Nat} (ranged : env.decisions.Ranged)
    (built : buildRequest env.raw env masks recIdx = .ok r) :
    ∃ a, emitSegs masks r.1 { raw := env.raw } = .ok a ∧ a.written.length = segsEncodedLen r.1 := by
  obtain ⟨c, -, -, sound, -⟩ := ((@buildRequest_meets _ masks) ranged recIdx).of_ok built
  obtain ⟨a, emitted, wrote⟩ := emitSegs_ok sound (⟨rfl, rfl, rfl⟩ : Wrote env.raw [] { raw := env.raw })
  refine ⟨a, emitted, ?_⟩
  rw [Assembler.written, wrote.bytes, List.nil_append, segsEncodedLen_eq sound]

end Sizes

/-- One length for the formula, the writer and the reader; so a tree is written as what its sizes say. -/
theorem sizes_agree :
    (∀ v < 2 ^ 64, varintLen v = (64 - (BitVec.ofNat 64 (v ||| 1)).clz.toNat + 6) / 7 ∧
      (putVarint v).length = varintLen v ∧
      ∀ before rest : Bytes,
        (WireCursor.new (before ++ putVarint v ++ rest) ⟨before.length, (before ++ putVarint v ++ rest).length⟩).varint
          = .ok (v, ⟨before ++ putVarint v ++ rest, before.length + varintLen v, (before ++ putVarint v ++ rest).length⟩)) ∧
    ∀ (buf : Bytes) (env : Envelope) (masks : MaskTable) (recIdx : Nat) (segs : List Seg) (n : Nat),
      buildRequest buf env masks recIdx = .ok (segs, n) →
        SegsHeaded masks segs ∧ (∀ a, Grows (segsEncodedLen segs) a (emitSegs masks segs a)) ∧
        (buf = env.raw → env.decisions.Ranged →
          ∃ a, emitSegs masks segs { raw := env.raw } = .ok a ∧ a.written.length = segsEncodedLen segs) := by
  refine ⟨fun v fits => ⟨varintLen_clz fits, putVarint_length v, fun before rest => ?_⟩, ?_⟩
  · have sees : Sees (WireCursor.new (before ++ putVarint v ++ rest) ⟨before.length, (before ++ putVarint v ++ rest).length⟩)
        (putVarint v ++ rest) := by
      refine ⟨⟨before, [], by simp [WireCursor.new], rfl⟩, ?_⟩
      simp only [WireCursor.new, List.length_append]
      omega
    exact varint_putVarint fits sees
  · intro buf env masks recIdx segs n built
    have fit : SegsFit masks segs := segsFit_iff.mpr (buildRequest_each (built_fits env masks) built)
    refine ⟨segsHeaded_of_fit fit, emitSegs_grows fit, ?_⟩
    rintro rfl ranged
    exact emitSegs_returns ranged built

end ArchivAgent
