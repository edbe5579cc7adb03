import ArchivAgent.Spool.Accounting

/-!
# What the spool's files take

`Owned`: every file that holds bytes belongs to an entry or to a push in flight, and holds no
more than was counted for it. A push that fails with bytes in its stray file, and a delivery that
leaves the file behind, both give the bytes back and keep the file.
-/

namespace ArchivAgent.Spool
open Wire (Bytes)

def Push.file (p : Push) : Bytes := if p.phase = .renamed then otlpName p.seq else tmpName p.seq

namespace World

def diskBytes (s : World) : Nat := s.files.total fun _ content => content.length

/-- How much a file holds, a missing one nothing. -/
def size (s : World) (name : Bytes) : Nat := ((s.files.lookup name).getD []).length

/-- Bytes are given back only where no file holds them any more. -/
def Tidy (s : World) : Event → Prop
  | .release id => ∀ p ∈ s.pushes.lookup id, s.size (tmpName p.seq) = 0
  | .settle id => ∀ d ∈ s.drains.lookup id, (s.state.pending.lookup d.seq).isSome → s.size (otlpName d.seq) = 0
  | _ => True

instance (s : World) (e : Event) : Decidable (s.Tidy e) :=
  match e with
  | .release id => inferInstanceAs (Decidable (∀ p ∈ s.pushes.lookup id, s.size (tmpName p.seq) = 0))
  | .settle id => inferInstanceAs (Decidable (∀ d ∈ s.drains.lookup id,
      (s.state.pending.lookup d.seq).isSome → s.size (otlpName d.seq) = 0))
  | .push .. | .create _ | .write .. | .sync _ | .rename _ | .fail .. | .publish _ | .select _ | .read _ | .unreadable _
  | .forward _ | .refuse _ | .remove _ | .removeFailed _ => isTrue trivial

/-- What a file with bytes belongs to. -/
def OwnedFile (s : World) (name content : Bytes) : Prop :=
  (∃ seq len, name = otlpName seq ∧ s.state.pending.lookup seq = some len ∧ content.length ≤ len) ∨
  ∃ id p, name = p.file ∧ s.pushes.lookup id = some p ∧ content.length ≤ p.payload.length

def Owned (s : World) : Prop :=
  ∀ name content, s.files.lookup name = some content → content ≠ [] → s.OwnedFile name content

section Owned
variable {limit : Nat} {s s' : World} {id : Nat} {p : Push} {name content : Bytes}

theorem size_zero (empty : s.size name = 0) (found : s.files.lookup name = some content) : content = [] := by
  rw [size, found, Option.getD_some] at empty
  exact List.length_eq_zero_iff.mp empty

/-- A push that moves on keeps the files it owned, its own file aside. -/
theorem OwnedFile.setPush (owned : s.OwnedFile name content) (here : s.pushes.lookup id = some p) (files : Files)
    (phase : PushPhase) (kept : name = p.file → name = Push.file { p with phase }) :
    ({ s with files }.setPush id p phase).OwnedFile name content := by
  rcases owned with entry | ⟨i, q, mine, found, short⟩
  · exact .inl entry
  · refine .inr ?_
    by_cases same : i = id
    · subst same
      cases found.symm.trans here
      exact ⟨i, { p with phase }, kept mine, AList.lookup_insert _, short⟩
    · exact ⟨i, q, mine, (AList.lookup_insert_ne same).trans found, short⟩

theorem file_unrenamed (other : p.phase ≠ .renamed) : p.file = tmpName p.seq := if_neg other

theorem Owned.wrote (owned : s.Owned) (here : s.pushes.lookup id = some p) (before : p.phase ≠ .renamed)
    {phase : PushPhase} (after : phase ≠ .renamed) (short : content.length ≤ p.payload.length) :
    ({ s with files := s.files.insert (tmpName p.seq) content }.setPush id p phase).Owned := by
  intro name c found heavy
  have file : Push.file { p with phase } = tmpName p.seq := if_neg after
  rcases Table.lookup_of_insert found with ⟨rfl, rfl⟩ | ⟨-, found⟩
  · exact .inr ⟨id, { p with phase }, file.symm, AList.lookup_insert _, short⟩
  · exact (owned name c found heavy).setPush here _ _ fun mine => by rw [mine, file_unrenamed before, file]

theorem Owned.moved (owned : s.Owned) (here : s.pushes.lookup id = some p) (before : p.phase ≠ .renamed)
    {phase : PushPhase} (after : phase ≠ .renamed) : (s.setPush id p phase).Owned := by
  intro name c found heavy
  exact (owned name c found heavy).setPush here s.files _ fun mine => by
    rw [mine, file_unrenamed before]
    exact (if_neg after).symm

theorem tmp_of_file (books : Accounted limit s) (here : s.pushes.lookup id = some p) {i : Nat} {q : Push}
    (found : s.pushes.lookup i = some q) (same : tmpName p.seq = q.file) : i = id := by
  rw [Push.file] at same
  split at same
  · exact absurd same (tmpName_ne_otlpName _ _)
  · have bound := books.range
    have equal := tmpName_injective (Nat.lt_trans (books.pushBelow id p here) bound)
      (Nat.lt_trans (books.pushBelow i q found) bound) same
    exact books.pushApart i id q p found here equal.symm

theorem Owned.rename (owned : s.Owned) (books : Accounted limit s) (here : s.pushes.lookup id = some p)
    (phase : p.phase = .synced) (held : s.files.lookup (tmpName p.seq) = some content) :
    ((s.renameTmp p content).setPush id p .renamed).Owned := by
  intro name c found heavy
  have before : p.phase ≠ .renamed := by
    rw [phase]
    nofun
  rcases Table.lookup_of_insert found with ⟨rfl, rfl⟩ | ⟨-, found⟩
  · have short : c.length ≤ p.payload.length := by
      rcases owned _ _ held heavy with ⟨seq, len, named, -⟩ | ⟨i, q, named, found, short⟩
      · exact absurd named (tmpName_ne_otlpName _ _)
      · cases tmp_of_file books here found named
        cases found.symm.trans here
        exact short
    exact .inr ⟨id, { p with phase := .renamed }, (if_pos rfl).symm, AList.lookup_insert _, short⟩
  · obtain ⟨other, found⟩ := Table.lookup_of_erase found
    exact (owned name c found heavy).setPush here _ _ fun mine => absurd (mine.trans (file_unrenamed before)) other

theorem Owned.publish (owned : s.Owned) (books : Accounted limit s) (here : s.pushes.lookup id = some p)
    (phase : p.phase = .renamed) : (s.published id p).Owned := by
  intro name c found heavy
  rcases owned name c found heavy with ⟨seq, len, named, entry, short⟩ | ⟨i, q, named, there, short⟩
  · have other : seq ≠ p.seq := by
      rintro rfl
      rw [books.unpublished id p here] at entry
      cases entry
    exact .inl ⟨seq, len, named, (AList.lookup_insert_ne other).trans entry, short⟩
  · by_cases same : i = id
    · subst same
      cases there.symm.trans here
      exact .inl ⟨p.seq, p.payload.length, named.trans (if_pos phase), AList.lookup_insert _, short⟩
    · exact .inr ⟨i, q, named, (AList.lookup_erase_ne same).trans there, short⟩

theorem Owned.release (owned : s.Owned) (here : s.pushes.lookup id = some p) {e : IoError}
    (phase : p.phase = .failed e) (tidy : s.size (tmpName p.seq) = 0) : (s.released id p).Owned := by
  intro name c found heavy
  rcases owned name c found heavy with entry | ⟨i, q, named, there, short⟩
  · exact .inl entry
  · have other : i ≠ id := by
      rintro rfl
      cases there.symm.trans here
      have file : p.file = tmpName p.seq := file_unrenamed (by rw [phase]; nofun)
      exact heavy (size_zero tidy (named.trans file ▸ found))
    exact .inr ⟨i, q, named, (AList.lookup_erase_ne other).trans there, short⟩

theorem Owned.settle (owned : s.Owned) {d : Drain}
    (tidy : (s.state.pending.lookup d.seq).isSome → s.size (otlpName d.seq) = 0) : (s.settled id d).Owned := by
  intro name c found heavy
  rcases owned name c found heavy with ⟨seq, len, named, entry, short⟩ | push
  · refine .inl ⟨seq, len, named, ?_, short⟩
    simp only [settled, State.settle]
    split
    · rename_i present
      have other : seq ≠ d.seq := by
        rintro rfl
        exact heavy (size_zero (tidy present) (named ▸ found))
      exact (AList.lookup_erase_ne other).trans entry
    · exact entry
  · exact .inr push

theorem step_owned {e : Event} (h : s.step e = some s') (tidy : s.Tidy e) (books : Accounted limit s) (owned : s.Owned) :
    s'.Owned := by
  cases step_cases h with
  | reserve fresh ok =>
    obtain ⟨-, -, -, rfl⟩ := State.reserve_ok ok
    intro name c found heavy
    rcases owned name c found heavy with entry | ⟨i, q, named, there, short⟩
    · exact .inl entry
    · refine .inr ⟨i, q, named, (AList.lookup_insert_ne ?_).trans there, short⟩
      rintro rfl
      rw [fresh] at there
      cases there
  | create here phase => exact owned.wrote here (by rw [phase]; nofun) nofun (Nat.zero_le _)
  | write here phase => exact owned.wrote here (by rw [phase]; nofun) nofun (List.length_take_le' _ _)
  | sync here phase => exact owned.moved here (by rw [phase]; nofun) nofun
  | rename here phase held => exact owned.rename books here phase held
  | fail here unfinished => exact owned.moved here unfinished nofun
  | publish here phase => exact owned.publish books here phase
  | release here phase => exact owned.release here phase (tidy _ here)
  | remove => exact fun name c found => owned name c (Table.lookup_of_erase found).2
  | settle here => exact owned.settle (tidy _ here)
  | refuse | select | idle | read | unreadable | forward | retry | removeFailed => exact owned

theorem Owned.bounded (owned : s.Owned) (books : Accounted limit s) : s.diskBytes ≤ s.state.totalBytes := by
  rw [books.total]
  refine Table.total_le_of_owned (fun o name => match o with
    | .inl seq => name = otlpName seq
    | .inr id => ∃ p, s.pushes.lookup id = some p ∧ name = p.file) ?_ _ _ ?_
  · intro o k l first second
    cases o with
    | inl seq => exact first.trans second.symm
    | inr id =>
      obtain ⟨p, here, rfl⟩ := first
      obtain ⟨q, there, rfl⟩ := second
      cases here.symm.trans there
      rfl
  · intro name c found heavy
    rcases owned name c found (fun empty => heavy (by rw [empty]; rfl)) with ⟨seq, len, named, entry, short⟩ |
      ⟨id, p, named, here, short⟩
    · exact .inl ⟨seq, len, named, entry, short⟩
    · exact .inr ⟨id, p, ⟨p, here, named⟩, here, short⟩

end Owned

/-! ### The cap -/

theorem spool_bounded {io : OpenIo} {maxBytes : Nat} {sp : Spool} {files' : Files}
    (opened : Spool.open io ∅ maxBytes = .ok (sp, files')) {es : List Event} {s : World}
    (ran : (start sp files').run es = some s) (tidy : Transition.Along step Tidy (start sp files') es) :
    s.diskBytes ≤ maxBytes := by
  have books := start_accounted opened
  obtain ⟨rfl, rfl⟩ := open_empty opened
  rw [Nat.max_eq_left (Nat.zero_le _)] at books
  have kept := Transition.along_invariant (fun s => Accounted maxBytes s ∧ s.Owned) ran tidy
    (fun s e s' one tidy kept => ⟨step_accounted one kept.1, step_owned one tidy kept.1 kept.2⟩)
    ⟨books, fun name c found => nomatch found⟩
  exact Nat.le_trans (kept.2.bounded kept.1) kept.1.bounded

/-- A push fails before it has written, another is delivered and its file removed. -/
def tidyRun : List Event :=
  [.push 0 [7], .create 0, .fail 0 [], .release 0, .push 1 [8, 9], .create 1, .write 1 2, .sync 1, .rename 1, .publish 1,
    .select 0, .read 0, .forward 0, .remove 0, .settle 0, .push 2 [5, 6], .create 2, .write 2 1]

theorem spool_bounded_tidy : ∃ s, (start ⟨2, 0, 0, ∅⟩ ∅).run tidyRun = some s ∧ s.diskBytes ≤ 2 := by
  obtain ⟨s, ran⟩ := Option.isSome_iff_exists.mp
    (show ((start ⟨2, 0, 0, ∅⟩ ∅).run tidyRun).isSome = true by decide +kernel)
  have tidy : Transition.Along step Tidy (start ⟨2, 0, 0, ∅⟩ ∅) tidyRun := by decide +kernel
  exact ⟨s, ran, spool_bounded (show Spool.open {} ∅ 2 = .ok (⟨2, 0, 0, ∅⟩, ∅) from rfl) ran tidy⟩

/-- A push fails after it has written: its two bytes stay in the stray file, and the next push
is let in beside them. -/
theorem spool_bounded_not : ¬ ∀ io maxBytes sp files', Spool.open io ∅ maxBytes = .ok (sp, files') →
    ∀ es s, (start sp files').run es = some s → s.diskBytes ≤ maxBytes := by
  intro claimed
  obtain ⟨s, ran, size⟩ := Option.map_eq_some_iff.mp
    (show ((start ⟨2, 0, 0, ∅⟩ ∅).run [.push 0 [7, 8], .create 0, .write 0 2, .fail 0 [], .release 0, .push 1 [8, 9],
      .create 1, .write 1 2]).map diskBytes = some 4 by decide +kernel)
  have bounded := claimed {} 2 ⟨2, 0, 0, ∅⟩ ∅ rfl _ s ran
  rw [size] at bounded
  exact absurd bounded (by decide)

end World

end ArchivAgent.Spool
