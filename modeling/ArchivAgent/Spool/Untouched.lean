import ArchivAgent.Spool.Order

/-!
# What the spool leaves alone

A directory that held anything at all, any number of drainers, and restarts at any moment. Files
that are not the spool's stay as they are. An entry goes only after its bytes have been answered
with a 2xx, and no entry appears but a push's payload.
-/

namespace ArchivAgent.Spool
open Wire (Bytes)

/-- Neither a stray file nor an entry. -/
def Foreign (name : Bytes) : Prop := ¬ tmpSuffix <:+ name ∧ parseSeq name = none

theorem Foreign.ne_tmpName {name : Bytes} (foreign : Foreign name) (seq : Nat) : name ≠ tmpName seq := by
  rintro rfl
  exact foreign.1 (tmpName_suffix seq)

theorem Foreign.ne_otlpName {name : Bytes} (foreign : Foreign name) {seq : Nat} (small : seq < 2 ^ 64) : name ≠ otlpName seq := by
  intro same
  have read := parseSeq_iff.mpr ⟨small, same⟩
  rw [foreign.2] at read
  cases read

theorem World.foreign_step {limit : Nat} {w w' : World} {e : Event} (h : w.step e = some w') (books : w.Accounted limit)
    {name : Bytes} (foreign : Foreign name) : w'.files.lookup name = w.files.lookup name := by
  cases step_cases h with
  | create | write => exact AList.lookup_insert_ne (foreign.ne_tmpName _)
  | @rename id p content here =>
    refine (AList.lookup_insert_ne (foreign.ne_otlpName (books.push_lt here))).trans ?_
    exact AList.lookup_erase_ne (foreign.ne_tmpName _)
  | @remove id d bytes content here =>
    exact AList.lookup_erase_ne (foreign.ne_otlpName (Nat.lt_trans (books.drainBelow id d here) books.range))
  | _ => rfl

namespace Life

theorem Leaves.lookup {files left : Files} (leaves : Leaves files left) {name : Bytes} (plain : ¬ tmpSuffix <:+ name) :
    left.lookup name = files.lookup name := by
  by_cases here : name ∈ files.keys ++ left.keys
  · exact leaves name here plain
  · rw [List.mem_append, not_or] at here
    rw [AList.lookup_eq_none.mpr (fun member => here.1 (AList.mem_keys.mp member)),
      AList.lookup_eq_none.mpr (fun member => here.2 (AList.mem_keys.mp member))]

/-- An entry that the directory held at the start, with its bytes, and no drain has sent them. -/
structure Waiting (s : Life) (seq : Nat) (content : Bytes) : Prop where
  present : s.world.Present seq
  file : s.world.files.lookup (otlpName seq) = some content
  owned : s.owner seq = some seq
  drains : ∀ id d, s.world.drains.lookup id = some d → d.seq = seq → d.sent = none ∧ ∀ bytes ∈ d.bytes, bytes = content

section Calls
variable {limit seq : Nat} {content : Bytes} {s : Life} {world : World} {e : Event}

theorem Waiting.call (waiting : s.Waiting seq content) (books : s.world.Accounted limit) (h : s.world.step e = some world) :
    Entry.delivered seq content ∈ (s.record e).log ∨ Waiting { s.record e with world } seq content := by
  have small := Nat.lt_trans (waiting.present.below books) books.range
  by_cases sends : ∃ id d, e = .forward id ∧ s.world.drains.lookup id = some d ∧ d.seq = seq
  · obtain ⟨id, d, rfl, here, rfl⟩ := sends
    cases World.step_cases h with
    | @forward _ d' bytes there phase =>
      cases here.symm.trans there
      have read : d.bytes = some bytes := by rw [Drain.bytes, phase]
      obtain rfl := (waiting.drains id d here rfl).2 bytes read
      exact .inl (forward_logged here read waiting.owned)
  · right
    have present : world.Present seq := by
      rcases World.present_step h books waiting.present with still | ⟨id, d, here, same, sent⟩
      · exact still
      · rw [(waiting.drains id d here same).1] at sent
        cases sent
    refine ⟨present, ?_, (record_owner s e (waiting.present.below books)).trans waiting.owned, fun id d found same => ?_⟩
    · obtain ⟨content', found⟩ := Option.isSome_iff_exists.mp present.2
      rcases World.file_of_step h books small found with old | ⟨id, p, -, here, -, same, -⟩
      · obtain rfl := Option.some.inj (waiting.file.symm.trans old)
        exact found
      · -- a push has no entry before it publishes
        have listed := waiting.present.1
        rw [← same, books.unpublished id p here] at listed
        cases listed
    · rcases World.drains_of_step h found with ⟨d', here, seq', reads, sent⟩ | ⟨-, -, phase⟩
      · obtain ⟨unsent, whole⟩ := waiting.drains id d' here (seq'.trans same)
        constructor
        · refine Option.not_isSome_iff_eq_none.mp fun some => ?_
          rcases sent some with before | ⟨begins, -⟩
          · rw [unsent] at before
            cases before
          · exact sends ⟨id, d', begins, here, seq'.trans same⟩
        · intro bytes read
          rcases reads bytes read with before | held
          · exact whole bytes before
          · rw [same, waiting.file] at held
            exact (Option.some.inj held).symm
      · rw [Drain.sent, Drain.bytes, phase]
        exact ⟨rfl, fun _ none => by cases none⟩

theorem Waiting.restart (waiting : s.Waiting seq content) (small : seq < 2 ^ 64) {io : OpenIo} {left files : Files} {maxBytes : Nat}
    {sp : Spool} (leaves : Leaves s.world.files left) (opened : Spool.open io left maxBytes = .ok (sp, files)) :
    Waiting { s with world := .start sp files } seq content := by
  obtain ⟨-, swept, recovers⟩ := open_ok opened
  have there := (leaves.otlp seq).trans waiting.file
  have entry := (recovers.pending seq content.length).mpr ⟨small, content, there, rfl⟩
  have file := (swept.otlp seq).trans there
  exact ⟨⟨Option.isSome_iff_exists.mpr ⟨_, entry⟩, Option.isSome_iff_exists.mpr ⟨content, file⟩⟩, file, waiting.owned,
    fun _ _ found => (by cases found)⟩

end Calls

/-! ### Every run -/

structure Keeps (dir : Files) (s : Life) : Prop where
  books : ∃ limit, s.world.Accounted limit
  held : s.world.Held
  push : ∀ id p, s.world.pushes.lookup id = some p → ∃ t, Entry.started t p.payload ∈ s.log
  foreign : ∀ name, Foreign name → s.world.files.lookup name = dir.lookup name
  entry : ∀ seq content, seq < 2 ^ 64 → dir.lookup (otlpName seq) = some content →
    Entry.delivered seq content ∈ s.log ∨ s.Waiting seq content
  own : ∀ seq content, seq < 2 ^ 64 → s.world.files.lookup (otlpName seq) = some content →
    dir.lookup (otlpName seq) = some content ∨ ∃ t, Entry.started t content ∈ s.log

section Runs
variable {dir : Files} {s s' : Life} {e : LifeEvent}

theorem Keeps.call {e : Event} {world : World} (keeps : s.Keeps dir) (h : s.world.step e = some world) :
    Keeps dir { s.record e with world } := by
  obtain ⟨limit, books⟩ := keeps.books
  refine ⟨⟨limit, World.step_accounted h books⟩, World.step_held h books keeps.held, fun id p found => ?_,
    fun name foreign => (World.foreign_step h books foreign).trans (keeps.foreign name foreign),
    fun seq content small found => ?_, fun seq content small found => ?_⟩
  · rcases push_of_step h found with ⟨q, here, -, same⟩ | ⟨-, -, -, logged⟩
    · obtain ⟨t, started⟩ := keeps.push id q here
      exact ⟨t, mem_record (same ▸ started)⟩
    · exact ⟨s.tickets, List.mem_append_right _ (logged ▸ List.mem_singleton_self _)⟩
  · rcases keeps.entry seq content small found with delivered | waiting
    · exact .inl (mem_record delivered)
    · exact waiting.call books h
  · rcases World.file_of_step h books small found with old | ⟨id, p, -, here, phase, rfl, stray⟩
    · exact (keeps.own seq content small old).imp_right fun ⟨t, started⟩ => ⟨t, mem_record started⟩
    · have stored := keeps.held.stored id p here
      rw [Push.Stored, phase] at stored
      obtain rfl := Option.some.inj (stray.symm.trans stored)
      obtain ⟨t, started⟩ := keeps.push id p here
      exact .inr ⟨t, mem_record started⟩

theorem Keeps.restart (keeps : s.Keeps dir) {io : OpenIo} {left files : Files} {maxBytes : Nat} {sp : Spool}
    (leaves : Leaves s.world.files left) (opened : Spool.open io left maxBytes = .ok (sp, files)) :
    Keeps dir { s with world := .start sp files } := by
  obtain ⟨-, swept, -⟩ := open_ok opened
  refine ⟨⟨_, World.start_accounted opened⟩, World.start_held sp files, fun _ _ found => (by cases found),
    fun name foreign => ?_, fun seq content small found => ?_, fun seq content small found => ?_⟩
  · rw [← keeps.foreign name foreign, ← leaves.lookup foreign.1]
    exact (swept name).resolve_right fun stray => foreign.1 stray.1
  · exact (keeps.entry seq content small found).imp_right fun waiting => waiting.restart small leaves opened
  · refine keeps.own seq content small ?_
    rw [← leaves.otlp, ← swept.otlp]
    exact found

theorem start_keeps {io : OpenIo} {maxBytes : Nat} {sp : Spool} {files : Files} (opened : Spool.open io dir maxBytes = .ok (sp, files)) :
    (start sp files).Keeps dir := by
  obtain ⟨-, swept, recovers⟩ := open_ok opened
  refine ⟨⟨_, World.start_accounted opened⟩, World.start_held sp files, fun _ _ found => (by cases found),
    fun name foreign => (swept name).resolve_right fun stray => foreign.1 stray.1, fun seq content small found => .inr ?_,
    fun seq content small found => .inl ((swept.otlp seq).symm.trans found)⟩
  have entry := (recovers.pending seq content.length).mpr ⟨small, content, found, rfl⟩
  have file := (swept.otlp seq).trans found
  refine ⟨⟨Option.isSome_iff_exists.mpr ⟨_, entry⟩, Option.isSome_iff_exists.mpr ⟨content, file⟩⟩, file, ?_,
    fun _ _ found => (by cases found)⟩
  exact congrArg (Option.map fun _ => seq) entry

theorem step_keeps (h : s.step e = some s') (keeps : s.Keeps dir) : s'.Keeps dir := by
  cases step_cases h with
  | call one => exact keeps.call one
  | restart leaves opened => exact keeps.restart leaves opened

end Runs

/-- A file that is not stray stays until it has been delivered, and a new one is the payload of a push. -/
structure Untouched (dir : Files) (s : Life) : Prop where
  kept : ∀ name content, ¬ tmpSuffix <:+ name → dir.lookup name = some content →
    s.world.files.lookup name = some content ∨ ∃ seq, parseSeq name = some seq ∧ Entry.delivered seq content ∈ s.log
  own : ∀ name content, ¬ tmpSuffix <:+ name → s.world.files.lookup name = some content →
    dir.lookup name = some content ∨ ∃ seq t, parseSeq name = some seq ∧ Entry.started t content ∈ s.log

theorem directory_untouched {io : OpenIo} {dir : Files} {maxBytes : Nat} {sp : Spool} {files : Files}
    (opened : Spool.open io dir maxBytes = .ok (sp, files)) {es : List LifeEvent} {s : Life}
    (ran : (start sp files).run es = some s) : s.Untouched dir := by
  have keeps := Transition.run_invariant (Keeps dir) ran (fun _ _ _ _ one => step_keeps one) (start_keeps opened)
  refine ⟨fun name content plain found => ?_, fun name content plain found => ?_⟩
  · cases named : parseSeq name with
    | none =>
      rw [keeps.foreign name ⟨plain, named⟩]
      exact .inl found
    | some seq =>
      obtain ⟨small, rfl⟩ := parseSeq_iff.mp named
      rcases keeps.entry seq content small found with delivered | waiting
      · exact .inr ⟨seq, rfl, delivered⟩
      · exact .inl waiting.file
  · cases named : parseSeq name with
    | none =>
      rw [keeps.foreign name ⟨plain, named⟩] at found
      exact .inl found
    | some seq =>
      obtain ⟨small, rfl⟩ := parseSeq_iff.mp named
      exact (keeps.own seq content small found).imp_right fun ⟨t, started⟩ => ⟨seq, t, rfl, started⟩

/-- An entry, and a file of someone else. -/
def sharedFiles : Files := ((∅ : Files).insert (otlpName 0) [7]).insert [110] [1]

/-- The entry is delivered and removed, a push comes, and the process ends before it is told. -/
def sharedRun : List LifeEvent :=
  ([.select 0, .read 0, .forward 0, .remove 0, .settle 0, .push 0 [8], .create 0, .write 0 1, .sync 0, .rename 0].map LifeEvent.call) ++
  [.restart {} (((∅ : Files).insert [110] [1]).insert (otlpName 1) [8]) 10]

theorem directory_untouched_shared : ∃ s, (start ⟨10, 1, 1, (∅ : Table Nat Nat).insert 0 1⟩ sharedFiles).run sharedRun = some s ∧
    s.world.files.lookup [110] = some [1] ∧ s.log = [.delivered 0 [7], .settled 0, .started 1 [8]] ∧ s.Untouched sharedFiles := by
  obtain ⟨s, ran, told⟩ := Option.map_eq_some_iff.mp
    (show ((start ⟨10, 1, 1, (∅ : Table Nat Nat).insert 0 1⟩ sharedFiles).run sharedRun).map
        (fun s => (s.world.files.lookup [110], s.log)) =
      some (some [1], [.delivered 0 [7], .settled 0, .started 1 [8]]) by decide +kernel)
  exact ⟨s, ran, congrArg Prod.fst told, congrArg Prod.snd told,
    directory_untouched (show Spool.open {} sharedFiles 10 = .ok (⟨10, 1, 1, (∅ : Table Nat Nat).insert 0 1⟩, sharedFiles) from rfl) ran⟩

end Life

end ArchivAgent.Spool
