import ArchivAgent.Spool.Spool

/-!
# What `open` recovers

`open_ok`: one entry for each published file, with its length; the bytes counted are the sum of
the entries; the next number is above every entry; and only stray files are gone.
-/

namespace ArchivAgent.Spool
open Wire (Bytes)

/-- The entries are published files, and the count and the next number fit them. -/
structure Recovered.Sound (r : Recovered) : Prop where
  total : r.totalBytes = r.pending.total fun _ len => len
  small : r.totalBytes < 2 ^ 64
  below : ∀ seq len, r.pending.lookup seq = some len → seq < 2 ^ 64 ∧ ∃ m, r.maxSeq = some m ∧ seq ≤ m
  reached : ∀ m, r.maxSeq = some m → ∃ len, r.pending.lookup m = some len

theorem recoverEntry_ok {io : OpenIo} {r r' : Recovered} {file : Bytes × Bytes} (h : recoverEntry io r file = .ok r') :
    (tmpSuffix <:+ file.1 ∧ r' = if io.removes file.1 then { r with files := r.files.erase file.1 } else r) ∨
    (¬ tmpSuffix <:+ file.1 ∧ parseSeq file.1 = none ∧ r' = r) ∨
    ∃ seq, seq < 2 ^ 64 ∧ file.1 = otlpName seq ∧ r.totalBytes + file.2.length < 2 ^ 64 ∧ r' = { r with
      pending := r.pending.insert seq file.2.length
      totalBytes := r.totalBytes + file.2.length
      maxSeq := some (match r.maxSeq with
        | none => seq
        | some m => max m seq) } := by
  unfold recoverEntry at h
  split at h
  · cases h
  · split at h
    · rename_i stray
      cases h
      exact .inl ⟨stray, rfl⟩
    · rename_i kept
      split at h
      · rename_i other
        cases h
        exact .inr (.inl ⟨kept, other, rfl⟩)
      · rename_i seq parsed
        obtain ⟨small, named⟩ := parseSeq_iff.mp parsed
        split at h
        · cases h
        · split at h
          · cases h
          · cases h
            exact .inr (.inr ⟨seq, small, named, by omega, rfl⟩)

theorem Recovered.Sound.insert {r : Recovered} (sound : r.Sound) {seq len : Nat} (small : seq < 2 ^ 64)
    (fresh : r.pending.lookup seq = none) (fits : r.totalBytes + len < 2 ^ 64) :
    Recovered.Sound { r with
      pending := r.pending.insert seq len
      totalBytes := r.totalBytes + len
      maxSeq := some (match r.maxSeq with
        | none => seq
        | some m => max m seq) } where
  total := by
    rw [Table.total_insert fresh, sound.total]
    exact Nat.add_comm _ _
  small := fits
  below q l found := by
    by_cases here : q = seq
    · subst here
      refine ⟨small, _, rfl, ?_⟩
      cases r.maxSeq with
      | none => exact Nat.le_refl _
      | some m => exact Nat.le_max_right _ _
    · rw [AList.lookup_insert_ne here] at found
      obtain ⟨bounded, m, highest, le⟩ := sound.below q l found
      refine ⟨bounded, _, rfl, ?_⟩
      rw [highest]
      exact Nat.le_trans le (Nat.le_max_left _ _)
  reached m highest := by
    by_cases here : m = seq
    · exact ⟨len, by rw [here]; exact AList.lookup_insert _⟩
    · have old : r.maxSeq = some m := by
        cases before : r.maxSeq with
        | none =>
          rw [before] at highest
          exact absurd (Option.some.inj highest).symm here
        | some n =>
          rw [before] at highest
          have largest : max n seq = m := Option.some.inj highest
          rw [show n = m by omega]
      obtain ⟨l, found⟩ := sound.reached m old
      exact ⟨l, by rw [AList.lookup_insert_ne here]; exact found⟩

def Swept (files files' : Files) : Prop :=
  ∀ name, files'.lookup name = files.lookup name ∨ (tmpSuffix <:+ name ∧ files'.lookup name = none)

theorem Swept.refl (files : Files) : Swept files files := fun _ => .inl rfl

theorem Swept.trans {a b c : Files} (first : Swept a b) (second : Swept b c) : Swept a c := by
  intro name
  rcases second name with same | ⟨stray, gone⟩
  · rw [same]
    exact first name
  · exact .inr ⟨stray, gone⟩

theorem Swept.erase {files : Files} {name : Bytes} (stray : tmpSuffix <:+ name) : Swept files (files.erase name) := by
  intro other
  by_cases here : other = name
  · subst here
    exact .inr ⟨stray, AList.lookup_erase _ _⟩
  · exact .inl (AList.lookup_erase_ne here)

theorem Swept.otlp {files files' : Files} (swept : Swept files files') (seq : Nat) :
    files'.lookup (otlpName seq) = files.lookup (otlpName seq) := by
  rcases swept (otlpName seq) with same | ⟨stray, -⟩
  · exact same
  · exact absurd stray (otlpName_not_tmp seq)

section Scan
variable {io : OpenIo} {r r' : Recovered} {entries : List (Bytes × Bytes)}

theorem recoverEntries_ok (distinct : (entries.map (·.1)).Nodup)
    (fresh : ∀ e ∈ entries, ∀ seq, e.1 = otlpName seq → r.pending.lookup seq = none) (sound : r.Sound)
    (h : entries.foldlM (recoverEntry io) r = .ok r') :
    r'.Sound ∧ Swept r.files r'.files ∧
      ∀ seq len, r'.pending.lookup seq = some len ↔ r.pending.lookup seq = some len ∨
        (seq < 2 ^ 64 ∧ ∃ e ∈ entries, e.1 = otlpName seq ∧ e.2.length = len) := by
  induction entries generalizing r with
  | nil =>
    cases h
    exact ⟨sound, .refl _, by simp⟩
  | cons e entries ih =>
    rw [List.map_cons, List.nodup_cons] at distinct
    obtain ⟨absent, distinct⟩ := distinct
    simp only [List.mem_cons, forall_eq_or_imp] at fresh
    obtain ⟨freshHere, fresh⟩ := fresh
    rw [List.foldlM_cons] at h
    cases one : recoverEntry io r e with
    | error stop => rw [one] at h; cases h
    | ok mid =>
      rw [one] at h
      rcases recoverEntry_ok one with ⟨stray, rfl⟩ | ⟨-, other, rfl⟩ | ⟨seq, small, named, fits, rfl⟩
      · have notOtlp : ∀ seq, e.1 ≠ otlpName seq := fun seq same => otlpName_not_tmp seq (same ▸ stray)
        have skipped : ∀ seq len, (∃ f ∈ e :: entries, f.1 = otlpName seq ∧ f.2.length = len) ↔
            ∃ f ∈ entries, f.1 = otlpName seq ∧ f.2.length = len := by
          intro seq len
          rw [List.exists_mem_cons_iff]
          exact ⟨fun h => h.resolve_left fun here => notOtlp seq here.1, .inr⟩
        simp only [skipped]
        by_cases removed : io.removes e.1 = true
        · rw [if_pos removed] at h
          obtain ⟨sound', swept, lookups⟩ := ih distinct (r := { r with files := r.files.erase e.1 }) fresh
            ⟨sound.total, sound.small, sound.below, sound.reached⟩ h
          exact ⟨sound', (Swept.erase stray).trans swept, lookups⟩
        · rw [if_neg removed] at h
          exact ih distinct fresh sound h
      · obtain ⟨sound', swept, lookups⟩ := ih distinct fresh sound h
        refine ⟨sound', swept, fun seq len => (lookups seq len).trans (or_congr Iff.rfl (and_congr_right fun small => ?_))⟩
        rw [List.exists_mem_cons_iff]
        refine ⟨.inr, fun h => h.resolve_left fun here => ?_⟩
        rw [parseSeq_iff.mpr ⟨small, here.1⟩] at other
        cases other
      · have freshSeq := freshHere seq named
        have later : ∀ f ∈ entries, ∀ q, f.1 = otlpName q →
            (r.pending.insert seq e.2.length).lookup q = none := by
          intro f member q namedQ
          by_cases same : q = seq
          · subst same
            exact absurd (List.mem_map.mpr ⟨f, member, namedQ.trans named.symm⟩) absent
          · rw [AList.lookup_insert_ne same]
            exact fresh f member q namedQ
        obtain ⟨sound', swept, lookups⟩ := ih distinct later (sound.insert small freshSeq fits) h
        refine ⟨sound', swept, fun q len => (lookups q len).trans ?_⟩
        rw [List.exists_mem_cons_iff]
        by_cases same : q = seq
        · subst same
          rw [AList.lookup_insert, freshSeq]
          constructor
          · rintro (here | ⟨bounded, found⟩)
            · exact .inr ⟨small, .inl ⟨named, Option.some.inj here⟩⟩
            · exact .inr ⟨bounded, .inr found⟩
          · rintro (none | ⟨-, ⟨-, length⟩ | ⟨f, member, namedF, -⟩⟩)
            · cases none
            · exact .inl (congrArg some length)
            · exact absurd (List.mem_map.mpr ⟨f, member, namedF.trans named.symm⟩) absent
        · rw [AList.lookup_insert_ne same]
          refine or_congr Iff.rfl (and_congr_right fun bounded => ⟨.inr, fun h => h.resolve_left fun here => ?_⟩)
          exact same (otlpName_injective bounded small (here.1.symm.trans named))

end Scan

/-- What a directory's spool holds. -/
structure Recovers (files : Files) (sp : Spool) : Prop where
  pending : ∀ seq len, sp.state.pending.lookup seq = some len ↔
    seq < 2 ^ 64 ∧ ∃ content, files.lookup (otlpName seq) = some content ∧ content.length = len
  total : sp.state.totalBytes = sp.state.pending.total fun _ len => len
  small : sp.state.totalBytes < 2 ^ 64
  below : ∀ seq len, sp.state.pending.lookup seq = some len → seq < sp.state.nextSeq
  /-- The next number is 0 or one above an entry. -/
  reached : sp.state.nextSeq = 0 ∨ ∃ m len, sp.state.nextSeq = m + 1 ∧ sp.state.pending.lookup m = some len
  bounded : sp.state.nextSeq < 2 ^ 64

theorem open_ok {io : OpenIo} {files files' : Files} {maxBytes : Nat} {sp : Spool}
    (h : Spool.open io files maxBytes = .ok (sp, files')) :
    sp.maxBytes = maxBytes ∧ Swept files files' ∧ Recovers files sp := by
  unfold Spool.open at h
  split at h
  · cases h
  · cases scanned : (files.entries.map fun e => (e.1, e.2)).foldlM (recoverEntry io) { files } with
    | error stop => rw [scanned] at h; cases h
    | ok r =>
      rw [scanned] at h
      have distinct : ((files.entries.map fun e => (e.1, e.2)).map (·.1)).Nodup := by
        rw [List.map_map]
        exact files.nodupKeys
      have start : Recovered.Sound { files } :=
        ⟨rfl, Nat.two_pow_pos 64, fun _ _ found => (nomatch found), fun _ highest => (nomatch highest)⟩
      obtain ⟨sound, swept, lookups⟩ := recoverEntries_ok distinct (fun _ _ _ _ => rfl) start scanned
      have pending : ∀ seq len, r.pending.lookup seq = some len ↔
          seq < 2 ^ 64 ∧ ∃ content, files.lookup (otlpName seq) = some content ∧ content.length = len := by
        intro seq len
        rw [lookups, or_iff_right (by rintro found; cases found)]
        refine and_congr_right fun _ => ?_
        constructor
        · rintro ⟨e, member, named, length⟩
          obtain ⟨⟨name, content⟩, inside, rfl⟩ := List.mem_map.mp member
          exact ⟨content, Table.mem_entries.mp (named ▸ inside), length⟩
        · rintro ⟨content, found, length⟩
          exact ⟨_, List.mem_map.mpr ⟨_, Table.mem_entries.mpr found, rfl⟩, rfl, length⟩
      simp only [bind, Except.bind] at h
      cases highest : r.maxSeq with
      | none =>
        rw [highest] at h
        cases h
        refine ⟨rfl, swept, pending, sound.total, sound.small, fun seq len found => ?_, .inl rfl,
          Nat.two_pow_pos 64⟩
        obtain ⟨-, m, some, -⟩ := sound.below seq len found
        rw [highest] at some
        cases some
      | some m =>
        rw [highest] at h
        simp only at h
        split at h
        · cases h
        · cases h
          refine ⟨rfl, swept, pending, sound.total, sound.small, fun seq len found => ?_, .inr ?_, by
            simp only
            omega⟩
          · obtain ⟨-, n, some, le⟩ := sound.below seq len found
            rw [highest] at some
            cases some
            exact Nat.lt_succ_of_le le
          · obtain ⟨len, found⟩ := sound.reached m highest
            exact ⟨m, len, rfl, found⟩

theorem open_empty {io : OpenIo} {maxBytes : Nat} {sp : Spool} {files' : Files}
    (opened : Spool.open io ∅ maxBytes = .ok (sp, files')) :
    sp = ⟨maxBytes, 0, 0, ∅⟩ ∧ files' = ∅ := by
  unfold Spool.open at opened
  split at opened <;> cases opened
  exact ⟨rfl, rfl⟩

end ArchivAgent.Spool
