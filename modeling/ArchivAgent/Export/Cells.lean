import ArchivAgent.Export.Assemble
import ArchivAgent.Wire.Field

/-!
# What the assembler writes

A segment tree is flattened into cells that remember where each byte comes from: a byte of the
request, a byte of a rewritten header, or a whole mask. A tree is `Sound` when its ranges lie in
the request and its sizes are the sizes of what it writes; `assemble` emits a sound tree as the
bytes of its cells.
-/

namespace ArchivAgent
open Wire

inductive Cell where
  | raw (index : Nat)
  | lit (b : UInt8)
  | mask (m : MaskId)
  deriving DecidableEq, Repr

def Cell.isMask : Cell → Bool
  | .mask _ => true
  | _ => false

def rawCells (start stop : Nat) : List Cell := (List.range' start (stop - start)).map .raw

def litCells (bs : Bytes) : List Cell := bs.map .lit

def Cell.bytes (raw : Bytes) (masks : MaskTable) : Cell → Bytes
  | .raw i => raw[i]?.toList
  | .lit b => [b]
  | .mask m => (masks.bytes m).getD []

def render (raw : Bytes) (masks : MaskTable) (cells : List Cell) : Bytes :=
  cells.flatMap (Cell.bytes raw masks)

def header (field size : Nat) : Bytes := put (8 * field + 2) ++ put size

def Part.cells : Part → List Cell
  | .raw r => rawCells r.start r.stop
  | .mask m => [.mask m]

mutual

def Seg.cells : Seg → List Cell
  | .verbatim r => rawCells r.start r.stop
  | .nested field size segs => litCells (header field size) ++ segsCells segs
  | .scalar field size parts => litCells (header field size) ++ parts.flatMap Part.cells

def segsCells : List Seg → List Cell
  | [] => []
  | seg :: segs => seg.cells ++ segsCells segs

end

theorem segsCells_eq (segs : List Seg) : segsCells segs = segs.flatMap Seg.cells := by
  induction segs with
  | nil => rfl
  | cons seg segs ih => rw [segsCells, ih, List.flatMap_cons]

section Cells
variable {raw : Bytes} {masks : MaskTable}

@[simp] theorem render_nil : render raw masks [] = [] := rfl

@[simp] theorem render_append (as bs : List Cell) :
    render raw masks (as ++ bs) = render raw masks as ++ render raw masks bs := List.flatMap_append

@[simp] theorem render_litCells (bs : Bytes) : render raw masks (litCells bs) = bs := by
  simp only [render, litCells, List.flatMap_map, Cell.bytes, List.flatMap_singleton']

theorem rawCells_empty {start stop : Nat} (h : stop ≤ start) : rawCells start stop = [] := by
  rw [rawCells, Nat.sub_eq_zero_of_le h]; rfl

theorem rawCells_append {a b c : Nat} (hab : a ≤ b) (hbc : b ≤ c) :
    rawCells a b ++ rawCells b c = rawCells a c := by
  have split := List.range'_append_1 (s := a) (m := b - a) (n := c - b)
  rw [show a + (b - a) = b by omega, show b - a + (c - b) = c - a by omega] at split
  rw [rawCells, rawCells, rawCells, ← split, List.map_append]

theorem mem_rawCells {x a b : Nat} : Cell.raw x ∈ rawCells a b ↔ a ≤ x ∧ x < b := by
  simp only [rawCells, List.mem_map, List.mem_range'_1, Cell.raw.injEq, exists_eq_right]
  omega

theorem raw_litCells {x : Nat} {bs : Bytes} : Cell.raw x ∉ litCells bs := by simp [litCells]

@[simp] theorem masks_rawCells (a b : Nat) : (rawCells a b).countP Cell.isMask = 0 := by
  simp [rawCells, List.countP_map, Function.comp_def, Cell.isMask]

@[simp] theorem masks_litCells (bs : Bytes) : (litCells bs).countP Cell.isMask = 0 := by
  simp [litCells, List.countP_map, Function.comp_def, Cell.isMask]

theorem flatMap_indices (n a : Nat) :
    (List.range' a n).flatMap (fun i => raw[i]?.toList) = (raw.drop a).take n := by
  induction n generalizing a with
  | zero => simp
  | succ n ih =>
    rw [List.range'_succ, List.flatMap_cons, ih]
    by_cases here : a < raw.length
    · rw [List.getElem?_eq_getElem here, List.drop_eq_getElem_cons here]
      rfl
    · simp [List.getElem?_eq_none (Nat.le_of_not_lt here), List.drop_eq_nil_of_le (Nat.le_of_not_lt here),
        List.drop_eq_nil_of_le (Nat.le_succ_of_le (Nat.le_of_not_lt here))]

theorem render_rawCells (a b : Nat) : render raw masks (rawCells a b) = slice raw a b := by
  rw [render, rawCells, List.flatMap_map, slice, List.drop_take]
  exact flatMap_indices (b - a) a

theorem render_text {t : Text} (h : t.In raw) :
    render raw masks (rawCells t.range.start t.range.stop) = t.bytes := by
  rw [render_rawCells]
  exact At.slice h

end Cells

/-! ### The writer's numbers -/

theorem putVarintLoop_eq (n v : Nat) (h : v < n) : putVarintLoop n v = put v := by
  induction n generalizing v with
  | zero => omega
  | succ n ih =>
    have low : v &&& 0x7F = v % 128 := Nat.and_two_pow_sub_one_eq_mod v 7
    have shift : v >>> 7 = v / 128 := Nat.shiftRight_eq_div_pow v 7
    simp only [putVarintLoop, low, shift]
    by_cases small : v < 128
    · rw [if_pos (by omega), put_lt small, Nat.mod_eq_of_lt small]
    · have more : UInt8.ofNat (v % 128) ||| 0x80 = UInt8.ofNat (v % 128 + 128) := by
        have table : ∀ i : Fin 128, UInt8.ofNat i.val ||| 0x80 = UInt8.ofNat (i.val + 128) := by decide +kernel
        exact table ⟨v % 128, Nat.mod_lt _ (by decide)⟩
      rw [if_neg (by omega), put_ge (by omega), more, ih (v / 128) (by omega)]

theorem putVarint_eq (v : Nat) : putVarint v = put v := putVarintLoop_eq _ v (Nat.lt_succ_self v)

theorem tag_eq (field : Nat) : field <<< 3 ||| 2 = 8 * field + 2 := by
  rw [Nat.shiftLeft_eq, Nat.mul_comm]
  exact (Nat.two_pow_add_eq_or_of_lt (i := 3) (by decide) field).symm

/-- Setting the lowest bit leaves the bit length of every number but zero alone. -/
theorem varintLen_eq (v : Nat) : varintLen v = (put v).length := by
  have same : Nat.log2 (v ||| 1) = Nat.log2 v := by
    by_cases h0 : v = 0
    · subst h0; rfl
    · have half : (v ||| 1) / 2 = v / 2 := by
        have := Nat.or_div_two_pow (a := v) (b := 1) (n := 1)
        simpa using this
      by_cases h1 : v = 1
      · subst h1; rfl
      · have large : v ||| 1 ≥ 2 := Nat.le_trans (by omega) Nat.left_le_or
        rw [Nat.log2_def (v ||| 1), Nat.log2_def v, if_pos (by omega), if_pos (by omega), half]
  rw [varintLen, put_length, same]
  omega

theorem headerLen_eq (field size : Nat) : headerLen field size = (header field size).length := by
  rw [headerLen, header, List.length_append, tag_eq, varintLen_eq, varintLen_eq]

/-! ### Sound trees -/

def Part.Sound (raw : Bytes) (masks : MaskTable) : Part → Prop
  | .raw r => r.stop ≤ raw.length
  | .mask m => (masks.bytes m).isSome

mutual

def Seg.Sound (raw : Bytes) (masks : MaskTable) : Seg → Prop
  | .verbatim r => r.stop ≤ raw.length
  | .nested _ size segs => size = (render raw masks (segsCells segs)).length ∧ SegsSound raw masks segs
  | .scalar _ size parts =>
    size = (render raw masks (parts.flatMap Part.cells)).length ∧ ∀ part ∈ parts, part.Sound raw masks

def SegsSound (raw : Bytes) (masks : MaskTable) : List Seg → Prop
  | [] => True
  | seg :: segs => seg.Sound raw masks ∧ SegsSound raw masks segs

end

section Sound
variable {raw : Bytes} {masks : MaskTable}

theorem segsSound_append {as bs : List Seg} :
    SegsSound raw masks (as ++ bs) ↔ SegsSound raw masks as ∧ SegsSound raw masks bs := by
  induction as with
  | nil => simp [SegsSound]
  | cons seg as ih => simp only [List.cons_append, SegsSound, ih, and_assoc]

theorem segsSound_singleton {seg : Seg} : SegsSound raw masks [seg] ↔ seg.Sound raw masks := by
  simp [SegsSound]

theorem length_slice {a b : Nat} (hb : b ≤ raw.length) : (slice raw a b).length = b - a := by
  rw [slice, List.length_drop, List.length_take]; omega

theorem segEncodedLen_eq {seg : Seg} (sound : seg.Sound raw masks) :
    segEncodedLen seg = (render raw masks seg.cells).length := by
  cases seg with
  | verbatim r => rw [Seg.cells, render_rawCells, length_slice sound]; rfl
  | nested field size segs =>
    rw [Seg.cells, render_append, render_litCells, List.length_append, ← sound.1, ← headerLen_eq]; rfl
  | scalar field size parts =>
    rw [Seg.cells, render_append, render_litCells, List.length_append, ← sound.1, ← headerLen_eq]; rfl

theorem segsEncodedLen_eq {segs : List Seg} (sound : SegsSound raw masks segs) :
    segsEncodedLen segs = (render raw masks (segsCells segs)).length := by
  induction segs with
  | nil => rfl
  | cons seg segs ih =>
    rw [segsCells, render_append, List.length_append, ← ih sound.2, ← segEncodedLen_eq sound.1]
    simp [segsEncodedLen]

/-! ### Emission -/

/-- The assembler holds `bs`, partly in its chunks and partly in its scratch buffer. -/
structure Wrote (raw bs : Bytes) (a : Assembler) : Prop where
  raw : a.raw = raw
  bytes : a.chunks.flatten ++ a.scratch = bs
  len : a.len = bs.length

variable {bs : Bytes} {a : Assembler}

theorem flushScratch_raw (a : Assembler) : a.flushScratch.raw = a.raw := by
  unfold Assembler.flushScratch
  split <;> rfl

theorem Wrote.flushScratch (h : Wrote raw bs a) :
    Wrote raw bs a.flushScratch ∧ a.flushScratch.scratch = [] := by
  unfold Assembler.flushScratch
  split
  · rename_i empty
    exact ⟨h, List.isEmpty_iff.mp empty⟩
  · refine ⟨⟨h.raw, ?_, h.len⟩, rfl⟩
    simpa only [List.flatten_append, List.flatten_singleton, List.append_nil] using h.bytes

theorem Wrote.chunk (h : Wrote raw bs a) (chunk : Bytes) :
    Wrote raw (bs ++ chunk)
      { ({ a with len := a.len + chunk.length } : Assembler).flushScratch with
        chunks := ({ a with len := a.len + chunk.length } : Assembler).flushScratch.chunks ++ [chunk] } := by
  have flushed : ({ a with len := a.len + chunk.length } : Assembler).flushScratch
      = { a.flushScratch with len := a.len + chunk.length } := by
    unfold Assembler.flushScratch
    simp only
    split <;> rfl
  obtain ⟨⟨sameRaw, same, -⟩, empty⟩ := h.flushScratch
  rw [flushed]
  refine ⟨sameRaw, ?_, by simp [h.len]⟩
  rw [empty, List.append_nil] at same
  simp [same, empty]

theorem Wrote.pushRaw (h : Wrote raw bs a) {r : Range} (inside : r.stop ≤ raw.length) :
    ∃ a', a.pushRaw r = .ok a' ∧ Wrote raw (bs ++ render raw masks (rawCells r.start r.stop)) a' := by
  obtain rfl : a.raw = raw := h.raw
  unfold Assembler.pushRaw
  by_cases empty : r.stop ≤ r.start
  · rw [if_pos empty, rawCells_empty empty, render_nil, List.append_nil]
    exact ⟨a, rfl, h⟩
  · rw [if_neg empty, if_neg (Nat.not_lt.mpr inside), render_rawCells]
    have chunk := h.chunk (slice a.raw r.start r.stop)
    rw [length_slice inside] at chunk
    have same : slice ({ a with len := a.len + r.len } : Assembler).flushScratch.raw r.start r.stop
        = slice a.raw r.start r.stop := by rw [flushScratch_raw]
    refine ⟨_, rfl, ?_⟩
    rw [same]
    exact chunk

theorem Wrote.pushHeader (h : Wrote raw bs a) (field size : Nat) :
    Wrote raw (bs ++ header field size) (a.pushHeader field size) := by
  refine ⟨h.raw, ?_, ?_⟩
  · rw [Assembler.pushHeader, putVarint_eq, putVarint_eq, tag_eq, header, ← h.bytes]
    simp only [List.append_assoc]
  · rw [Assembler.pushHeader, headerLen_eq, List.length_append, h.len]

theorem emitParts_ok {parts : List Part} (sound : ∀ part ∈ parts, part.Sound raw masks)
    (h : Wrote raw bs a) :
    ∃ a', emitParts masks parts a = .ok a' ∧
      Wrote raw (bs ++ render raw masks (parts.flatMap Part.cells)) a' := by
  induction parts generalizing a bs with
  | nil => exact ⟨a, rfl, by simpa using h⟩
  | cons part parts ih =>
    simp only [List.mem_cons, forall_eq_or_imp] at sound
    rw [List.flatMap_cons, render_append, ← List.append_assoc]
    cases part with
    | raw r =>
      obtain ⟨a', same, h'⟩ := (@Wrote.pushRaw _ masks) h sound.1
      rw [emitParts, same]
      exact ih sound.2 h'
    | mask m =>
      obtain ⟨mask, known⟩ := Option.isSome_iff_exists.mp sound.1
      simp only [emitParts, known]
      apply ih sound.2
      have shown : render raw masks (Part.cells (.mask m)) = mask := by
        simp only [Part.cells, render, List.flatMap_singleton, Cell.bytes, known, Option.getD_some]
      rw [shown]
      exact h.chunk mask

mutual

theorem emitSeg_ok {seg : Seg} {bs : Bytes} {a : Assembler} (sound : seg.Sound raw masks) (h : Wrote raw bs a) :
    ∃ a', emitSeg masks seg a = .ok a' ∧ Wrote raw (bs ++ render raw masks seg.cells) a' := by
  cases seg with
  | verbatim r => exact h.pushRaw sound
  | nested field size segs =>
    rw [Seg.cells, render_append, render_litCells, ← List.append_assoc]
    exact emitSegs_ok sound.2 (h.pushHeader field size)
  | scalar field size parts =>
    rw [Seg.cells, render_append, render_litCells, ← List.append_assoc]
    exact emitParts_ok sound.2 (h.pushHeader field size)

theorem emitSegs_ok {segs : List Seg} {bs : Bytes} {a : Assembler} (sound : SegsSound raw masks segs)
    (h : Wrote raw bs a) :
    ∃ a', emitSegs masks segs a = .ok a' ∧ Wrote raw (bs ++ render raw masks (segsCells segs)) a' := by
  cases segs with
  | nil => exact ⟨a, rfl, by simpa [segsCells] using h⟩
  | cons seg segs =>
    obtain ⟨a', same, h'⟩ := emitSeg_ok sound.1 h
    rw [segsCells, render_append, ← List.append_assoc, emitSegs, same]
    exact emitSegs_ok sound.2 h'

end

end Sound

end ArchivAgent
