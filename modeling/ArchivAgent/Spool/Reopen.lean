import ArchivAgent.Spool.Sole

/-!
# Orderly restarts

Where no removal has failed, the published files are those of the entries, and a process that has
come to rest leaves a directory whose spool is the one it had.
-/

namespace ArchivAgent.Spool
open Wire (Bytes)

/-! ### When `open` succeeds -/

def otlpBytes (files : Files) : Nat :=
  Table.total (fun name content => if (parseSeq name).isSome then content.length else 0) files

/-- The directory and its entries can be read; a stray file may stay. -/
def OpenIo.Readable (io : OpenIo) : Prop :=
  io.listing = none ∧ (∀ name, io.entry name = none) ∧ ∀ name, io.metadata name = none

theorem recoverEntries_total {io : OpenIo} (readable : io.Readable) {entries : List (Bytes × Bytes)} {r : Recovered}
    (fits : r.totalBytes + (entries.map fun e => if (parseSeq e.1).isSome then e.2.length else 0).sum < 2 ^ 64) :
    ∃ r', entries.foldlM (recoverEntry io) r = .ok r' := by
  induction entries generalizing r with
  | nil => exact ⟨r, rfl⟩
  | cons e entries ih =>
    rw [List.map_cons, List.sum_cons] at fits
    rw [List.foldlM_cons]
    have next : ∀ r', recoverEntry io r e = .ok r' →
        r'.totalBytes ≤ r.totalBytes + (if (parseSeq e.1).isSome then e.2.length else 0) →
        ∃ r'', (recoverEntry io r e >>= entries.foldlM (recoverEntry io)) = .ok r'' := by
      intro r' read grown
      rw [read]
      exact ih (by omega)
    by_cases stray : tmpSuffix <:+ e.1
    · refine next (if io.removes e.1 then { r with files := r.files.erase e.1 } else r) ?_ ?_
      · simp only [recoverEntry, readable.2.1, if_pos stray]
      · split <;> exact Nat.le_add_right _ _
    · cases parsed : parseSeq e.1 with
      | none =>
        refine next r ?_ (Nat.le_add_right _ _)
        simp only [recoverEntry, readable.2.1, if_neg stray, parsed]
      | some seq =>
        rw [parsed, Option.isSome_some, if_pos rfl] at fits
        have small : ¬ 2 ^ 64 ≤ r.totalBytes + e.2.length := by omega
        obtain ⟨r', read, total⟩ : ∃ r', recoverEntry io r e = .ok r' ∧ r'.totalBytes = r.totalBytes + e.2.length := by
          simp only [recoverEntry, readable.2.1, if_neg stray, parsed, readable.2.2, if_neg small]
          exact ⟨_, rfl, rfl⟩
        refine next r' read ?_
        rw [parsed]
        exact total.le

theorem open_total {io : OpenIo} (readable : io.Readable) {files : Files} (maxBytes : Nat) (fits : otlpBytes files < 2 ^ 64)
    (below : ∀ seq content, files.lookup (otlpName seq) = some content → seq < 2 ^ 64 → seq + 1 < 2 ^ 64) :
    ∃ sp files', Spool.open io files maxBytes = .ok (sp, files') := by
  have summed : (0 : Nat) + ((files.entries.map fun e => (e.1, e.2)).map
      fun e => if (parseSeq e.1).isSome then e.2.length else 0).sum < 2 ^ 64 := by
    rw [Nat.zero_add, List.map_map]
    exact fits
  obtain ⟨r, scanned⟩ := recoverEntries_total readable (r := { files }) summed
  have distinct : ((files.entries.map fun e => (e.1, e.2)).map (·.1)).Nodup := by
    rw [List.map_map]
    exact files.nodupKeys
  have start : Recovered.Sound { files } :=
    ⟨rfl, Nat.two_pow_pos 64, fun _ _ found => (nomatch found), fun _ highest => (nomatch highest)⟩
  obtain ⟨sound, -, lookups⟩ := recoverEntries_ok distinct (fun _ _ _ _ => rfl) start scanned
  cases highest : r.maxSeq with
  | none =>
    refine ⟨⟨maxBytes, 0, r.totalBytes, r.pending⟩, r.files, ?_⟩
    simp only [Spool.open, readable.1, scanned, bind, Except.bind, highest]
  | some m =>
    obtain ⟨len, found⟩ := sound.reached m highest
    have next : ¬ 2 ^ 64 ≤ m + 1 := by
      rcases (lookups m len).mp found with none | ⟨small, e, member, named, -⟩
      · cases none
      · obtain ⟨⟨name, content⟩, inside, rfl⟩ := List.mem_map.mp member
        have there := below m content (Table.mem_entries.mp (named ▸ inside)) small
        omega
    refine ⟨⟨maxBytes, m + 1, r.totalBytes, r.pending⟩, r.files, ?_⟩
    simp only [Spool.open, readable.1, scanned, bind, Except.bind, highest, if_neg next]

/-! ### Every published file is listed -/

namespace World

/-- A published file is that of an entry, or of a push that is about to list it. -/
structure Filed (w : World) : Prop where
  listed : ∀ seq content, seq < 2 ^ 64 → w.files.lookup (otlpName seq) = some content →
    (w.state.pending.lookup seq).isSome = true ∨ ∃ id p, w.pushes.lookup id = some p ∧ p.phase = .renamed ∧ p.seq = seq
  removed : ∀ d bytes, w.drains.lookup DrainLoop.call = some d → d.phase = .removed bytes →
    w.files.lookup (otlpName d.seq) = none

theorem start_filed {io : OpenIo} {files files' : Files} {maxBytes : Nat} {sp : Spool}
    (opened : Spool.open io files maxBytes = .ok (sp, files')) : (start sp files').Filed := by
  obtain ⟨-, swept, recovers⟩ := open_ok opened
  refine ⟨fun seq content small found => .inl ?_, fun d bytes found => by cases found⟩
  have there := (recovers.pending seq content.length).mpr ⟨small, content, (swept.otlp seq).symm.trans found, rfl⟩
  exact Option.isSome_iff_exists.mpr ⟨_, there⟩

section Steps
variable {backlog : Nat × Bytes → Prop} {limit : Nat} {w w' : World} {e : Event}

/-- A push that has renamed its file lists it in its next step. -/
theorem renamed_step (h : w.step e = some w') {id : Nat} {p : Push} (here : w.pushes.lookup id = some p)
    (phase : p.phase = .renamed) :
    w'.pushes.lookup id = some p ∨ (w'.state.pending.lookup p.seq).isSome = true := by
  by_cases mine : e.pushId = some id
  · cases step_cases h with
    | reserve fresh =>
      cases mine
      rw [fresh] at here
      cases here
    | refuse fresh =>
      cases mine
      rw [fresh] at here
      cases here
    | create there was | write there was | sync there was | rename there was | release there was =>
      cases mine
      cases here.symm.trans there
      rw [phase] at was
      cases was
    | fail there unfinished =>
      cases mine
      cases here.symm.trans there
      exact absurd phase unfinished
    | publish there was =>
      cases mine
      cases here.symm.trans there
      exact .inr ((congrArg Option.isSome (AList.lookup_insert _)).trans rfl)
    | _ => cases mine
  · exact .inl ((pushes_frame h mine).trans here)

theorem Filed.push (filed : w.Filed) (h : w.step e = some w') (mine : e.pushId.isSome = true) (books : Accounted limit w)
    (beside : Beside w w') (sole : w.Sole backlog) : w'.Filed := by
  refine ⟨fun seq content small found => ?_, fun d bytes here phase => ?_⟩
  · rcases file_of_step h books small found with old | ⟨id, p, rfl, here, -, rfl, -⟩
    · rcases filed.listed seq content small old with listed | ⟨id, p, here, phase, rfl⟩
      · obtain ⟨len, entry⟩ := Option.isSome_iff_exists.mp listed
        exact .inl (Option.isSome_iff_exists.mpr ⟨len, beside.lookup entry⟩)
      · rcases renamed_step h here phase with still | listed
        · exact .inr ⟨id, p, still, phase, rfl⟩
        · exact .inl listed
    · cases step_cases h with
      | rename there was held =>
        cases here.symm.trans there
        exact .inr ⟨id, _, AList.lookup_insert _, rfl, rfl⟩
  · rw [beside.drains] at here
    rw [beside.files d.seq d.len (sole.listed d here)]
    exact filed.removed d bytes here phase

theorem Filed.goes (filed : w.Filed) (goes : DrainLoop.Goes w e w') (removes : ∀ id, e ≠ .removeFailed id) : w'.Filed := by
  cases goes with
  | select fresh oldest =>
    refine ⟨filed.listed, fun d bytes here phase => ?_⟩
    rw [show AList.lookup _ _ = _ from AList.lookup_insert _] at here
    cases here
    cases phase
  | read there was =>
    refine ⟨filed.listed, fun d bytes here phase => ?_⟩
    rw [lookup_call] at here
    cases here
    cases phase
  | forward there was =>
    refine ⟨filed.listed, fun d bytes here phase => ?_⟩
    cases (AList.lookup_insert _).symm.trans here
    cases phase
  | remove there was =>
    refine ⟨fun seq content small found => filed.listed seq content small (Table.lookup_of_erase found).2,
      fun d bytes here phase => ?_⟩
    rw [lookup_call] at here
    cases here
    exact AList.lookup_erase _ _
  | removeFailed => exact absurd rfl (removes _)

theorem Filed.ends (filed : w.Filed) {outcome : DrainOutcome} (ends : DrainLoop.Ends w e outcome w')
    (sole : w.Sole backlog) : w'.Filed := by
  have free := ends.free
  refine ⟨?_, fun d bytes here => by rw [free] at here; cases here⟩
  cases ends with
  | idle | unreadable | refuse => exact filed.listed
  | @settle d bytes here phase =>
    intro seq content small found
    refine (filed.listed seq content small found).imp_left fun listed => ?_
    have apart : seq ≠ d.seq := by
      rintro rfl
      cases (filed.removed d bytes here phase).symm.trans found
    simp only [settled, State.settle, sole.listed d here, Option.isSome_some, if_true]
    rw [AList.lookup_erase_ne apart]
    exact listed

end Steps

/-! ### At rest -/

structure Reopens (w : World) (sp : Spool) (files : Files) : Prop where
  waits : ∀ x, (start sp files).Waits x ↔ w.Waits x
  entries : ∀ seq, sp.state.pending.lookup seq = w.state.pending.lookup seq
  totalBytes : sp.state.totalBytes = w.state.totalBytes
  next : sp.state.nextSeq ≤ w.state.nextSeq

section Rest
variable {backlog : Nat × Bytes → Prop} {limit : Nat} {w : World}

theorem rest_entry (sole : w.Sole backlog) (books : Accounted limit w) (filed : w.Filed) (pushes : w.pushes.keys = [])
    (drains : w.drains.lookup DrainLoop.call = none) (seq len : Nat) : w.state.pending.lookup seq = some len ↔
      seq < 2 ^ 64 ∧ ∃ content, w.files.lookup (otlpName seq) = some content ∧ content.length = len := by
  have held : ∀ l, w.state.pending.lookup seq = some l →
      ∃ content, w.files.lookup (otlpName seq) = some content ∧ content.length = l := by
    intro l entry
    obtain ⟨content, waits⟩ := (sole.backed seq l entry).resolve_left (not_sent drains seq)
    exact ⟨content, waits.2.1, Option.some.inj (waits.1.symm.trans entry)⟩
  constructor
  · exact fun entry => ⟨Nat.lt_trans (books.entryBelow seq len entry) books.range, held len entry⟩
  · rintro ⟨small, content, there, rfl⟩
    rcases filed.listed seq content small there with listed | ⟨id, p, here, -⟩
    · obtain ⟨l, entry⟩ := Option.isSome_iff_exists.mp listed
      obtain ⟨content', there', rfl⟩ := held l entry
      cases there.symm.trans there'
      exact entry
    · rw [Table.lookup_of_keys pushes] at here
      cases here

def NamesFile : Nat ⊕ Nat → Bytes → Prop
  | .inl seq, name => seq < 2 ^ 64 ∧ name = otlpName seq
  | .inr _, _ => False

theorem rest_bytes (sole : w.Sole backlog) (books : Accounted limit w) (filed : w.Filed) (pushes : w.pushes.keys = [])
    (drains : w.drains.lookup DrainLoop.call = none) : otlpBytes w.files ≤ w.state.totalBytes := by
  have owned := @Table.total_le_of_owned _ _ _ _ _ _ _ _ _
    (fun name content => if (parseSeq name).isSome then content.length else 0) (fun _ len => len) (fun _ _ => 0)
    w.files NamesFile
    (fun o k l => by
      cases o with
      | inl seq => exact fun a b => a.2.trans b.2.symm
      | inr _ => exact fun a => a.elim)
    w.state.pending (∅ : Table Nat Nat) (fun name content found heavy => by
      cases parsed : parseSeq name with
      | none =>
        rw [parsed] at heavy
        exact absurd rfl heavy
      | some seq =>
        obtain ⟨small, rfl⟩ := parseSeq_iff.mp parsed
        have entry := (rest_entry sole books filed pushes drains seq content.length).mpr ⟨small, content, found, rfl⟩
        exact .inl ⟨seq, content.length, ⟨small, rfl⟩, entry, Nat.le_refl _⟩)
  have total := books.total
  rw [Table.total_empty, Nat.add_zero] at owned
  exact Nat.le_trans owned (total ▸ Nat.le_add_right _ _)

theorem rest_reopens (sole : w.Sole backlog) (books : Accounted limit w) (filed : w.Filed) (pushes : w.pushes.keys = [])
    (drains : w.drains.lookup DrainLoop.call = none) (small : limit < 2 ^ 64) {io : OpenIo} (readable : io.Readable)
    (maxBytes : Nat) : ∃ sp files, Spool.open io w.files maxBytes = .ok (sp, files) ∧ w.Reopens sp files := by
  have entry := rest_entry sole books filed pushes drains
  have bytes := rest_bytes sole books filed pushes drains
  have bounded := books.bounded
  obtain ⟨sp, files, opened⟩ := @open_total io readable w.files maxBytes (by omega) fun seq content found less => by
    have below := books.entryBelow seq content.length ((entry seq _).mpr ⟨less, content, found, rfl⟩)
    have range := books.range
    omega
  obtain ⟨-, swept, recovers⟩ := open_ok opened
  have same : ∀ seq, sp.state.pending.lookup seq = w.state.pending.lookup seq := by
    intro seq
    exact Option.ext fun len => (recovers.pending seq len).trans (entry seq len).symm
  have reserved : w.reservedBytes = 0 := Table.total_eq_zero fun id p found => by
    rw [Table.lookup_of_keys pushes] at found
    cases found
  have unsent : ∀ seq, ¬ (start sp files).Sent seq := by
    rintro seq ⟨d, found, -⟩
    cases found
  refine ⟨sp, files, opened, fun x => ?_, same, ?_, ?_⟩
  · rw [Waits, Waits]
    refine and_congr ?_ (and_congr ?_ (iff_of_true (unsent _) (not_sent drains _)))
    · rw [show (start sp files).state.pending.lookup x.1 = _ from same x.1]
    · rw [show (start sp files).files.lookup (otlpName x.1) = _ from swept.otlp x.1]
  · rw [recovers.total, books.total, reserved, Nat.add_zero]
    exact Table.total_congr same
  · rcases recovers.reached with zero | ⟨m, len, next, found⟩
    · rw [zero]
      exact Nat.zero_le _
    · rw [next]
      exact books.entryBelow m len ((same m).symm.trans found)

end Rest

end World

/-- A file that has been sent could not be removed. -/
def LoopEvent.leavesFile : LoopEvent → Bool
  | .drain (.removeFailed _) _ => true
  | _ => false

namespace DrainLoop

section Runs
variable {backlog : Nat × Bytes → Prop} {s s' : DrainLoop} {e : LoopEvent}

theorem step_filed (h : s.step e = some s') (removes : e.leavesFile = false) (sound : s.Sound backlog)
    (filed : s.world.Filed) : s'.world.Filed := by
  obtain ⟨limit, books⟩ := sound.books
  cases step_cases h with
  | push mine one => exact filed.push one mine books (World.step_beside one mine books sound.held) sound.sole
  | goes draining one goes =>
    refine filed.goes goes ?_
    rintro id rfl
    cases removes
  | ends draining one ends =>
    rw [answered_world]
    exact filed.ends ends sound.sole
  | wake | shutdown => exact filed

end Runs

/-- A process that has come to rest, with every removal done, is taken up where it was left. -/
theorem reopens_same {io : OpenIo} {files files' : Files} {maxBytes : Nat} {sp : Spool} (cap : maxBytes < 2 ^ 64)
    (opened : Spool.open io files maxBytes = .ok (sp, files')) {es : List LoopEvent} {s : DrainLoop}
    (ran : (start sp files').run es = some s) (removes : ∀ e ∈ es, e.leavesFile = false)
    (pushes : s.world.pushes.keys = []) (rest : s.phase ≠ .draining) {again : OpenIo} (readable : again.Readable)
    (newMax : Nat) : ∃ sp' left, Spool.open again s.world.files newMax = .ok (sp', left) ∧ s.world.Reopens sp' left := by
  have start := start_sound opened
  obtain ⟨sound, filed⟩ := Transition.run_invariant (fun s => Sound (World.Backlog sp files') s ∧ s.world.Filed) ran
    (fun e member s s' one kept => ⟨step_sound one kept.1, step_filed one (removes e member) kept.1 kept.2⟩)
    ⟨start, World.start_filed opened⟩
  have books := run_world (World.Accounted (max maxBytes sp.state.totalBytes))
    (fun _ _ _ one books => World.step_accounted one books) ran (World.start_accounted opened)
  have small := (open_ok opened).2.2.small
  exact World.rest_reopens sound.sole books filed pushes (sound.resting rest) (by omega) readable newMax

theorem reopens_same_resent : ∃ s sp' left, (DrainLoop.start ⟨10, 0, 0, ∅⟩ ∅).run refused = some s ∧
    Spool.open {} s.world.files 10 = .ok (sp', left) ∧ s.world.Reopens sp' left := by
  obtain ⟨s, ran, found⟩ := Option.map_eq_some_iff.mp
    (show ((DrainLoop.start ⟨10, 0, 0, ∅⟩ ∅).run refused).map (fun s => (s.world.pushes.keys, s.phase)) =
      some ([], .waiting 1249) by decide +kernel)
  have waiting : s.phase = .waiting 1249 := congrArg Prod.snd found
  obtain ⟨sp', left, opened, reopens⟩ := @reopens_same {} ∅ ∅ 10 _ (by decide) rfl refused s ran
    (by decide) (congrArg Prod.fst found) (by rw [waiting]; nofun) {} ⟨rfl, fun _ => rfl, fun _ => rfl⟩ 10
  exact ⟨s, sp', left, ran, opened, reopens⟩

end DrainLoop

end ArchivAgent.Spool
