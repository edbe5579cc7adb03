import ArchivAgent.Spool.Life

/-!
# Oldest first

Of two pushes of which one had returned before the other began, the first is delivered first,
across restarts too: its entry stays, under the smaller number, until it has been delivered.
-/

namespace ArchivAgent.Spool
open Wire (Bytes)

/-! ### Logs -/

def Delivered (log : List Entry) (t : Nat) : Prop := ∃ bytes, Entry.delivered t bytes ∈ log

/-- The first push had returned when the second began. -/
def AckedBefore (log : List Entry) (a b : Nat) : Prop :=
  ∃ (i j : Nat) (payload : Bytes), i < j ∧ log[i]? = some (Entry.acked a) ∧ log[j]? = some (Entry.started b payload)

/-- Every delivery comes after one of each push that had returned before its own began. -/
def InOrder (log : List Entry) : Prop :=
  ∀ (i j k a b : Nat) (payload bytes : Bytes), i < j → log[i]? = some (Entry.acked a) → log[j]? = some (Entry.started b payload) →
    log[k]? = some (Entry.delivered b bytes) → ∃ (l : Nat) (bytes' : Bytes), l < k ∧ log[l]? = some (Entry.delivered a bytes')

section Logs
variable {log : List Entry} {x : Entry} {a b t : Nat}

theorem Delivered.append (delivered : Delivered log t) (new : List Entry) : Delivered (log ++ new) t :=
  delivered.imp fun _ => List.mem_append_left _

theorem getElem?_snoc {i : Nat} {y : Entry} (found : (log ++ [x])[i]? = some y) :
    (i < log.length ∧ log[i]? = some y) ∨ (i = log.length ∧ y = x) := by
  rcases Nat.lt_or_ge i log.length with old | new
  · rw [List.getElem?_append_left old] at found
    exact .inl ⟨old, found⟩
  · rw [List.getElem?_append_right new, List.getElem?_singleton] at found
    split at found
    · exact .inr ⟨by omega, (Option.some.inj found).symm⟩
    · cases found

theorem ackedBefore_snoc (before : AckedBefore (log ++ [x]) a b) :
    AckedBefore log a b ∨ (Entry.acked a ∈ log ∧ ∃ payload, x = Entry.started b payload) := by
  obtain ⟨i, j, payload, less, acked, started⟩ := before
  rcases getElem?_snoc started with ⟨old, started⟩ | ⟨new, same⟩
  · rcases getElem?_snoc acked with ⟨-, acked⟩ | ⟨last, -⟩
    · exact .inl ⟨i, j, payload, less, acked, started⟩
    · omega
  · rcases getElem?_snoc acked with ⟨-, acked⟩ | ⟨last, -⟩
    · exact .inr ⟨List.mem_of_getElem? acked, payload, same.symm⟩
    · omega

theorem InOrder.snoc (inOrder : InOrder log) (fresh : ∀ b payload, x = Entry.started b payload → ¬ Delivered log b)
    (due : ∀ b bytes, x = Entry.delivered b bytes → ∀ a, AckedBefore log a b → Delivered log a) : InOrder (log ++ [x]) := by
  intro i j k a b payload bytes less acked started delivered
  have earlier : ∀ l bytes', l < k → log[l]? = some (Entry.delivered a bytes') →
      ∃ l bytes', l < k ∧ (log ++ [x])[l]? = some (Entry.delivered a bytes') := fun l bytes' before found =>
    ⟨l, bytes', before, by rw [List.getElem?_append_left (List.getElem?_eq_some_iff.mp found).1]; exact found⟩
  rcases getElem?_snoc started with ⟨old, started⟩ | ⟨-, same⟩
  · rcases getElem?_snoc acked with ⟨-, acked⟩ | ⟨last, -⟩
    · rcases getElem?_snoc delivered with ⟨-, delivered⟩ | ⟨last, same⟩
      · obtain ⟨l, bytes', before, found⟩ := inOrder i j k a b payload bytes less acked started delivered
        exact earlier l bytes' before found
      · obtain ⟨bytes', member⟩ := due b bytes same.symm a ⟨i, j, payload, less, acked, started⟩
        obtain ⟨l, found⟩ := List.mem_iff_getElem?.mp member
        exact earlier l bytes' (last ▸ (List.getElem?_eq_some_iff.mp found).1) found
    · omega
  · rcases getElem?_snoc delivered with ⟨-, delivered⟩ | ⟨-, other⟩
    · exact absurd ⟨bytes, List.mem_of_getElem? delivered⟩ (fresh b payload same.symm)
    · rw [← same] at other
      cases other

end Logs

namespace Life

theorem entries_cases (s : Life) (e : Event) : s.entries e = [] ∨ ∃ x, s.entries e = [x] := by
  have toList : ∀ o : Option Entry, o.toList = [] ∨ ∃ x, o.toList = [x] := fun o => by
    cases o with
    | none => exact .inl rfl
    | some x => exact .inr ⟨x, rfl⟩
  cases e with
  | push id payload =>
    rw [entries]
    split
    · exact .inr ⟨_, rfl⟩
    · exact .inl rfl
  | publish | forward | settle => exact toList _
  | _ => exact .inl rfl

/-- Every payload that a process has acknowledged or may find has its push and its place. -/
structure Fifo (s : Life) : Prop where
  books : ∃ limit, s.world.Accounted limit
  held : s.world.Held
  ticketed : s.Ticketed
  push : ∀ id p, s.world.pushes.lookup id = some p → ∃ t, s.owner p.seq = some t ∧ Entry.started t p.payload ∈ s.log
  file : ∀ seq content, seq < 2 ^ 64 → s.world.files.lookup (otlpName seq) = some content →
    ∃ t, s.owner seq = some t ∧ Entry.started t content ∈ s.log
  vacant : ∀ seq, s.world.state.nextSeq ≤ seq → seq < 2 ^ 64 → s.world.files.lookup (otlpName seq) = none
  unrenamed : ∀ id p, s.world.pushes.lookup id = some p → p.phase ≠ .renamed → s.world.files.lookup (otlpName p.seq) = none
  entry : ∀ seq len, s.world.state.pending.lookup seq = some len → (s.owner seq).isSome = true
  kept : ∀ a, Entry.acked a ∈ s.log → Delivered s.log a ∨ ∃ seq, s.owner seq = some a ∧ s.world.Present seq
  order : ∀ seq b, s.owner seq = some b → ∀ a, AckedBefore s.log a b →
    Delivered s.log a ∨ ∃ seq' < seq, s.owner seq' = some a ∧ s.world.Present seq'
  drain : ∀ id d, s.world.drains.lookup id = some d → ∃ b, s.owner d.seq = some b ∧
    (∀ a, AckedBefore s.log a b → Delivered s.log a) ∧ (d.sent.isSome = true → Delivered s.log b) ∧
    ∀ bytes ∈ d.bytes, Entry.started b bytes ∈ s.log
  inOrder : InOrder s.log
  whole : ∀ t bytes, Entry.delivered t bytes ∈ s.log → Entry.started t bytes ∈ s.log

section Calls
variable {s : Life} {world : World} {e : Event}

theorem acked_of_entries {a : Nat} (member : Entry.acked a ∈ s.entries e) :
    ∃ id p, e = .publish id ∧ s.world.pushes.lookup id = some p ∧ s.owner p.seq = some a := by
  cases e with
  | push id payload =>
    rw [entries] at member
    split at member <;> simp at member
  | publish id =>
    simp only [entries, Option.mem_toList, Option.bind_eq_some_iff, Option.map_eq_some_iff] at member
    obtain ⟨p, here, t, owned, same⟩ := member
    cases same
    exact ⟨id, p, rfl, here, owned⟩
  | forward | settle =>
    simp only [entries, Option.mem_toList, Option.bind_eq_some_iff, Option.map_eq_some_iff] at member
    simp at member
  | _ => cases member

theorem delivered_of_entries {b : Nat} {bytes : Bytes} (member : Entry.delivered b bytes ∈ s.entries e) :
    ∃ id d, e = .forward id ∧ s.world.drains.lookup id = some d ∧ d.bytes = some bytes ∧ s.owner d.seq = some b := by
  cases e with
  | push id payload =>
    rw [entries] at member
    split at member <;> simp at member
  | forward id =>
    simp only [entries, Option.mem_toList, Option.bind_eq_some_iff, Option.map_eq_some_iff] at member
    obtain ⟨d, here, read, whole, t, owned, same⟩ := member
    cases same
    exact ⟨id, d, rfl, here, whole, owned⟩
  | publish | settle =>
    simp only [entries, Option.mem_toList, Option.bind_eq_some_iff, Option.map_eq_some_iff] at member
    simp at member
  | _ => cases member

theorem forward_logged {id t : Nat} {d : Drain} {bytes : Bytes} (here : s.world.drains.lookup id = some d)
    (read : d.bytes = some bytes) (owned : s.owner d.seq = some t) :
    Entry.delivered t bytes ∈ (s.record (.forward id)).log := by
  apply List.mem_append_right _
  simp only [entries, here, read, owned, Option.bind_some, Option.map_some, Option.toList_some, List.mem_singleton]

theorem ackedBefore_record {a b : Nat} (before : AckedBefore (s.record e).log a b) :
    AckedBefore s.log a b ∨ (Entry.acked a ∈ s.log ∧ s.reserves e = true ∧ b = s.tickets) := by
  rcases entries_cases s e with none | ⟨x, one⟩
  · rw [record, none, List.append_nil] at before
    exact .inl before
  · have logs : (s.record e).log = s.log ++ [x] := by rw [record, one]
    rw [logs] at before
    refine (ackedBefore_snoc before).imp_right fun begins => ⟨begins.1, ?_⟩
    obtain ⟨payload, same⟩ := begins.2
    rcases ticket_of_entries s e x (by rw [one]; exact List.mem_singleton_self x) with ⟨takes, ticket, -⟩ | ⟨-, -, -, other⟩
    · rw [same] at ticket
      exact ⟨takes, ticket⟩
    · exact absurd same (other b payload)

theorem Fifo.present_call (fifo : s.Fifo) (h : s.world.step e = some world) {seq a : Nat} (owned : s.owner seq = some a)
    (present : s.world.Present seq) :
    Delivered (s.record e).log a ∨ ((s.record e).owner seq = some a ∧ world.Present seq) := by
  obtain ⟨limit, books⟩ := fifo.books
  rcases World.present_step h books present with still | ⟨id, d, here, same, sent⟩
  · exact .inr ⟨(record_owner s e (present.below books)).trans owned, still⟩
  · obtain ⟨b, mine, -, delivered, -⟩ := fifo.drain id d here
    rw [same, owned] at mine
    cases mine
    exact .inl ((delivered sent).append _)

theorem Fifo.push_call (fifo : s.Fifo) (h : s.world.step e = some world) {id : Nat} {p : Push}
    (found : world.pushes.lookup id = some p) :
    ∃ t, (s.record e).owner p.seq = some t ∧ Entry.started t p.payload ∈ (s.record e).log := by
  obtain ⟨limit, books⟩ := fifo.books
  rcases push_of_step h found with ⟨q, here, seq, payload⟩ | ⟨seq, -, takes, logged⟩
  · obtain ⟨t, owned, started⟩ := fifo.push id q here
    rw [← seq, ← payload]
    exact ⟨t, (record_owner s e (books.pushBelow id q here)).trans owned, mem_record started⟩
  · refine ⟨s.tickets, ?_, List.mem_append_right _ (logged ▸ List.mem_singleton_self _)⟩
    rw [seq]
    simp only [record, takes, if_true]
    exact Function.update_self _ _ _

theorem Fifo.file_below (fifo : s.Fifo) {seq : Nat} {content : Bytes} (small : seq < 2 ^ 64)
    (found : s.world.files.lookup (otlpName seq) = some content) : seq < s.world.state.nextSeq := by
  refine Nat.lt_of_not_le fun above => ?_
  rw [fifo.vacant seq above small] at found
  cases found

theorem Fifo.file_call (fifo : s.Fifo) (h : s.world.step e = some world) {seq : Nat} {content : Bytes} (small : seq < 2 ^ 64)
    (found : world.files.lookup (otlpName seq) = some content) :
    ∃ t, (s.record e).owner seq = some t ∧ Entry.started t content ∈ (s.record e).log := by
  obtain ⟨limit, books⟩ := fifo.books
  rcases World.file_of_step h books small found with old | ⟨id, p, rfl, here, phase, rfl, stray⟩
  · obtain ⟨t, owned, started⟩ := fifo.file seq content small old
    exact ⟨t, (record_owner s e (fifo.file_below small old)).trans owned, mem_record started⟩
  · have stored := fifo.held.stored id p here
    rw [Push.Stored, phase] at stored
    obtain rfl := Option.some.inj (stray.symm.trans stored)
    obtain ⟨t, owned, started⟩ := fifo.push id p here
    exact ⟨t, owned, mem_record started⟩

theorem Fifo.vacant_call (fifo : s.Fifo) (h : s.world.step e = some world) {seq : Nat}
    (above : world.state.nextSeq ≤ seq) (small : seq < 2 ^ 64) : world.files.lookup (otlpName seq) = none := by
  obtain ⟨limit, books⟩ := fifo.books
  have above := Nat.le_trans (World.nextSeq_mono h) above
  cases found : world.files.lookup (otlpName seq) with
  | none => rfl
  | some content =>
    rcases World.file_of_step h books small found with old | ⟨id, p, -, here, -, same, -⟩
    · exact absurd (fifo.file_below small old) (Nat.not_lt.mpr above)
    · exact absurd (same ▸ books.pushBelow id p here) (Nat.not_lt.mpr above)

theorem Fifo.unrenamed_call (fifo : s.Fifo) (h : s.world.step e = some world) {id : Nat} {p : Push}
    (found : world.pushes.lookup id = some p) (phase : p.phase ≠ .renamed) : world.files.lookup (otlpName p.seq) = none := by
  obtain ⟨limit, books⟩ := fifo.books
  have after := World.step_accounted h books
  have small := after.push_lt found
  cases present : world.files.lookup (otlpName p.seq) with
  | none => rfl
  | some content =>
    rcases World.unrenamed_of_step h found phase with ⟨q, here, seq, before, other⟩ | next
    · rcases World.file_of_step h books small present with old | ⟨i, r, rfl, there, -, same, -⟩
      · rw [← seq, fifo.unrenamed id q here before] at old
        cases old
      · exact absurd (congrArg Event.rename (books.pushApart i id r q there here (same.trans seq.symm))) other
    · have old := fifo.vacant p.seq (Nat.le_of_eq next.symm) small
      rcases World.file_of_step h books small present with found | ⟨i, r, -, there, -, same, -⟩
      · rw [old] at found
        cases found
      · exact absurd (books.pushBelow i r there) (Nat.not_lt.mpr (Nat.le_of_eq (next.symm.trans same.symm)))

theorem Fifo.kept_call (fifo : s.Fifo) (h : s.world.step e = some world) {a : Nat}
    (member : Entry.acked a ∈ (s.record e).log) :
    Delivered (s.record e).log a ∨ ∃ seq, (s.record e).owner seq = some a ∧ world.Present seq := by
  obtain ⟨limit, books⟩ := fifo.books
  rcases List.mem_append.mp member with old | new
  · rcases fifo.kept a old with delivered | ⟨seq, owned, present⟩
    · exact .inl (delivered.append _)
    · exact (fifo.present_call h owned present).imp_right fun there => ⟨seq, there⟩
  · obtain ⟨id, p, rfl, here, owned⟩ := acked_of_entries new
    refine .inr ⟨p.seq, owned, ?_⟩
    cases World.step_cases h with
    | publish there phase =>
      cases here.symm.trans there
      have stored := fifo.held.stored id _ here
      rw [Push.Stored, phase] at stored
      exact ⟨by rw [World.published, State.publish, AList.lookup_insert]; rfl, by rw [World.published, stored]; rfl⟩

theorem Fifo.order_call (fifo : s.Fifo) (h : s.world.step e = some world) {seq a b : Nat}
    (owned : (s.record e).owner seq = some b) (before : AckedBefore (s.record e).log a b) :
    Delivered (s.record e).log a ∨ ∃ seq' < seq, (s.record e).owner seq' = some a ∧ world.Present seq' := by
  obtain ⟨limit, books⟩ := fifo.books
  rcases owner_of_record owned with ⟨old, -⟩ | ⟨takes, rfl, rfl⟩
  · rcases ackedBefore_record before with before | ⟨-, -, rfl⟩
    · rcases fifo.order seq b old a before with delivered | ⟨seq', less, owned', present⟩
      · exact .inl (delivered.append _)
      · exact (fifo.present_call h owned' present).imp_right fun there => ⟨seq', less, there⟩
    · exact absurd (fifo.ticketed.below seq _ old) (Nat.lt_irrefl _)
  · have acked : Entry.acked a ∈ s.log := by
      rcases ackedBefore_record before with ⟨i, j, payload, -, -, started⟩ | ⟨acked, -, -⟩
      · exact absurd (fifo.ticketed.logged _ (List.mem_of_getElem? started)) (Nat.lt_irrefl _)
      · exact acked
    rcases fifo.kept a acked with delivered | ⟨seq', owned', present⟩
    · exact .inl (delivered.append _)
    · exact (fifo.present_call h owned' present).imp_right fun there => ⟨seq', present.below books, there⟩

theorem Fifo.drain_call (fifo : s.Fifo) (h : s.world.step e = some world) {id : Nat} {d : Drain}
    (found : world.drains.lookup id = some d) : ∃ b, (s.record e).owner d.seq = some b ∧
      (∀ a, AckedBefore (s.record e).log a b → Delivered (s.record e).log a) ∧
      (d.sent.isSome = true → Delivered (s.record e).log b) ∧
      ∀ bytes ∈ d.bytes, Entry.started b bytes ∈ (s.record e).log := by
  obtain ⟨limit, books⟩ := fifo.books
  have older : ∀ {seq a b}, s.owner seq = some b → AckedBefore (s.record e).log a b → AckedBefore s.log a b := by
    intro seq a b owned before
    rcases ackedBefore_record before with before | ⟨-, -, rfl⟩
    · exact before
    · exact absurd (fifo.ticketed.below seq _ owned) (Nat.lt_irrefl _)
  rcases World.drains_of_step h found with ⟨d', here, seq, reads, sends⟩ | ⟨rfl, oldest, phase⟩
  · obtain ⟨b, owned, due, delivered, whole⟩ := fifo.drain id d' here
    have below := books.drainBelow id d' here
    refine ⟨b, ?_, fun a before => (due a (older owned before)).append _, fun sent => ?_, fun bytes read => ?_⟩
    · rw [← seq]
      exact (record_owner s e below).trans owned
    · rcases sends sent with before | ⟨rfl, now⟩
      · exact (delivered before).append _
      · obtain ⟨bytes, some⟩ := Option.isSome_iff_exists.mp sent
        exact ⟨bytes, forward_logged here (now.symm.trans some) owned⟩
    · rcases reads bytes read with before | now
      · exact mem_record (whole bytes before)
      · rw [seq] at owned
        obtain ⟨t, mine, started⟩ := fifo.file d.seq bytes (Nat.lt_trans (seq ▸ below) books.range) now
        cases mine.symm.trans owned
        exact mem_record started
  · obtain ⟨entry, least⟩ := Table.first_some oldest
    obtain ⟨b, owned⟩ := Option.isSome_iff_exists.mp (fifo.entry d.seq d.len entry)
    refine ⟨b, (record_owner s _ (books.entryBelow _ _ entry)).trans owned, fun a before => ?_, fun sent => ?_,
      fun bytes read => ?_⟩
    · rcases fifo.order d.seq b owned a (older owned before) with delivered | ⟨seq', less, -, present⟩
      · exact delivered.append _
      · obtain ⟨len, there⟩ := Option.isSome_iff_exists.mp present.1
        exact absurd (least seq' len there) (Nat.not_le.mpr less)
    · rw [Drain.sent, phase] at sent
      cases sent
    · rw [Drain.bytes, phase] at read
      cases read

theorem Fifo.inOrder_call (fifo : s.Fifo) : InOrder (s.record e).log := by
  rcases entries_cases s e with none | ⟨x, one⟩
  · rw [record, none, List.append_nil]
    exact fifo.inOrder
  · have mine : x ∈ s.entries e := one ▸ List.mem_singleton_self x
    rw [record, one]
    refine fifo.inOrder.snoc (fun b payload same sent => ?_) fun b bytes same a before => ?_
    · obtain ⟨bytes, sent⟩ := sent
      rcases ticket_of_entries s e x mine with ⟨-, ticket, -⟩ | ⟨-, -, -, other⟩
      · rw [same] at ticket
        exact absurd (fifo.ticketed.logged _ sent) (Nat.not_lt.mpr (Nat.le_of_eq ticket.symm))
      · exact other b payload same
    · obtain ⟨id, d, -, here, -, owned⟩ := delivered_of_entries (same ▸ mine)
      obtain ⟨b', owned', due, -⟩ := fifo.drain id d here
      cases owned.symm.trans owned'
      exact due a before

theorem Fifo.whole_call (fifo : s.Fifo) {t : Nat} {bytes : Bytes} (member : Entry.delivered t bytes ∈ (s.record e).log) :
    Entry.started t bytes ∈ (s.record e).log := by
  rcases List.mem_append.mp member with old | new
  · exact mem_record (fifo.whole t bytes old)
  · obtain ⟨id, d, -, here, read, owned⟩ := delivered_of_entries new
    obtain ⟨b, owned', -, -, whole⟩ := fifo.drain id d here
    cases owned.symm.trans owned'
    exact mem_record (whole bytes read)

theorem Fifo.call (fifo : s.Fifo) (h : s.world.step e = some world) : Fifo { s.record e with world } where
  books := fifo.books.imp fun _ books => World.step_accounted h books
  held := fifo.books.elim fun _ books => World.step_held h books fifo.held
  ticketed := ⟨(fifo.ticketed.record e).below, (fifo.ticketed.record e).apart, (fifo.ticketed.record e).logged⟩
  push _ _ found := fifo.push_call h found
  file _ _ small found := fifo.file_call h small found
  vacant _ above small := fifo.vacant_call h above small
  unrenamed _ _ found phase := fifo.unrenamed_call h found phase
  entry seq len found := by
    obtain ⟨limit, books⟩ := fifo.books
    rcases World.entry_of_step h found with old | ⟨id, p, -, here, -, same⟩
    · rw [record_owner s e (books.entryBelow seq len old)]
      exact fifo.entry seq len old
    · obtain ⟨t, owned, -⟩ := fifo.push id p here
      rw [← same, record_owner s e (books.pushBelow id p here), owned]
      rfl
  kept _ member := fifo.kept_call h member
  order _ _ owned _ before := fifo.order_call h owned before
  drain _ _ found := fifo.drain_call h found
  inOrder := fifo.inOrder_call
  whole _ _ member := fifo.whole_call member

end Calls

/-! ### Restarts -/

theorem Fifo.restart {s : Life} (fifo : s.Fifo) {io : OpenIo} {left files : Files} {maxBytes : Nat} {sp : Spool}
    (leaves : Leaves s.world.files left) (opened : Spool.open io left maxBytes = .ok (sp, files)) :
    Fifo { s with world := .start sp files } := by
  obtain ⟨limit, books⟩ := fifo.books
  obtain ⟨-, swept, recovers⟩ := open_ok opened
  have same : ∀ seq, files.lookup (otlpName seq) = s.world.files.lookup (otlpName seq) := fun seq =>
    (swept.otlp seq).trans (leaves.otlp seq)
  have present : ∀ seq, s.world.Present seq → (World.start sp files).Present seq := by
    intro seq present
    have small := Nat.lt_trans (present.below books) books.range
    obtain ⟨content, found⟩ := Option.isSome_iff_exists.mp present.2
    have entry := (recovers.pending seq content.length).mpr ⟨small, content, (leaves.otlp seq).trans found, rfl⟩
    exact ⟨Option.isSome_iff_exists.mpr ⟨_, entry⟩, Option.isSome_iff_exists.mpr ⟨content, (same seq).trans found⟩⟩
  refine ⟨⟨_, World.start_accounted opened⟩, World.start_held sp files,
    ⟨fifo.ticketed.below, fifo.ticketed.apart, fifo.ticketed.logged⟩, fun _ _ found => (nomatch found),
    fun seq content small found => ?_, fun seq above small => ?_, fun _ _ found => (nomatch found), fun seq len entry => ?_,
    fun a member => ?_, fun seq b owned a before => ?_, fun _ _ found => (nomatch found), fifo.inOrder, fifo.whole⟩
  · exact fifo.file seq content small ((same seq).symm.trans found)
  · apply (swept.otlp seq).trans
    cases found : left.lookup (otlpName seq) with
    | none => rfl
    | some content =>
      have entry := (recovers.pending seq content.length).mpr ⟨small, content, found, rfl⟩
      exact absurd (recovers.below seq _ entry) (Nat.not_lt.mpr above)
  · obtain ⟨small, content, found, -⟩ := (recovers.pending seq len).mp entry
    obtain ⟨t, owned, -⟩ := fifo.file seq content small ((leaves.otlp seq).symm.trans found)
    exact Option.isSome_iff_exists.mpr ⟨t, owned⟩
  · exact (fifo.kept a member).imp_right fun ⟨seq, owned, there⟩ => ⟨seq, owned, present seq there⟩
  · exact (fifo.order seq b owned a before).imp_right fun ⟨seq', less, owned', there⟩ =>
      ⟨seq', less, owned', present seq' there⟩

theorem start_fifo {io : OpenIo} {maxBytes : Nat} {sp : Spool} {files : Files}
    (opened : Spool.open io ∅ maxBytes = .ok (sp, files)) : (start sp files).Fifo := by
  have books := World.start_accounted opened
  obtain ⟨rfl, rfl⟩ := open_empty opened
  exact {
    books := ⟨_, books⟩
    held := World.start_held _ _
    ticketed := ⟨fun _ _ owned => (nomatch owned), fun _ _ _ owned => (nomatch owned), fun _ member => (nomatch member)⟩
    push := fun _ _ found => (nomatch found)
    file := fun _ _ _ found => (nomatch found)
    vacant := fun _ _ _ => rfl
    unrenamed := fun _ _ found => (nomatch found)
    entry := fun _ _ found => (nomatch found)
    kept := fun _ member => (nomatch member)
    order := fun _ _ owned => (nomatch owned)
    drain := fun _ _ found => (nomatch found)
    inOrder := fun _ _ _ _ _ _ _ _ found => (nomatch found)
    whole := fun _ _ member => (nomatch member) }

theorem step_fifo {s s' : Life} {e : LifeEvent} (h : s.step e = some s') (fifo : s.Fifo) : s'.Fifo := by
  cases step_cases h with
  | call one => exact fifo.call one
  | restart leaves opened => exact fifo.restart leaves opened

/-! ### The order -/

structure OldestFirst (s : Life) : Prop where
  inOrder : InOrder s.log
  whole : ∀ t bytes, Entry.delivered t bytes ∈ s.log → Entry.started t bytes ∈ s.log
  /-- No rename meets a published file. -/
  vacant : ∀ id s', s.step (.call (.rename id)) = some s' →
    ∃ p, s.world.pushes.lookup id = some p ∧ s.world.files.lookup (otlpName p.seq) = none

theorem drains_oldest_first {io : OpenIo} {maxBytes : Nat} {sp : Spool} {files : Files}
    (opened : Spool.open io ∅ maxBytes = .ok (sp, files)) {es : List LifeEvent} {s : Life}
    (ran : (start sp files).run es = some s) : s.OldestFirst := by
  have fifo : s.Fifo :=
    Transition.run_invariant Fifo ran (fun _ _ _ _ one => step_fifo one) (start_fifo opened)
  refine ⟨fifo.inOrder, fifo.whole, fun id s' renames => ?_⟩
  obtain ⟨world, one, -⟩ := Option.map_eq_some_iff.mp renames
  cases World.step_cases one with
  | @rename id p content here phase => exact ⟨p, here, fifo.unrenamed id p here (by rw [phase]; nofun)⟩

/-- Two pushes, a file that cannot be read, a crash, and two deliveries. -/
def twoPushes : List LifeEvent :=
  ([.push 0 [7], .create 0, .write 0 1, .sync 0, .rename 0, .publish 0, .push 1 [8], .create 1, .write 1 1, .sync 1, .rename 1,
    .publish 1, .select 0, .unreadable 0, .select 0, .read 0].map LifeEvent.call) ++
  [.restart {} (((∅ : Files).insert (otlpName 0) [7]).insert (otlpName 1) [8]) 10] ++
  ([.select 0, .read 0, .forward 0, .remove 0, .settle 0, .select 0, .read 0, .forward 0].map LifeEvent.call)

theorem drains_oldest_first_restarted : ∃ s, (start ⟨10, 0, 0, ∅⟩ ∅).run twoPushes = some s ∧
    s.log = [.started 0 [7], .acked 0, .started 1 [8], .acked 1, .delivered 0 [7], .settled 0, .delivered 1 [8]] ∧
    s.OldestFirst := by
  obtain ⟨s, ran, logged⟩ := Option.map_eq_some_iff.mp
    (show ((start ⟨10, 0, 0, ∅⟩ ∅).run twoPushes).map log = some [.started 0 [7], .acked 0, .started 1 [8], .acked 1,
      .delivered 0 [7], .settled 0, .delivered 1 [8]] by decide +kernel)
  exact ⟨s, ran, logged, drains_oldest_first (show Spool.open {} ∅ 10 = .ok (⟨10, 0, 0, ∅⟩, ∅) from rfl) ran⟩

end Life

end ArchivAgent.Spool
