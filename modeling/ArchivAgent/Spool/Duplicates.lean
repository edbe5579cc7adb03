import Mathlib.Data.Finset.Card
import ArchivAgent.Spool.Order
import ArchivAgent.Transition.Rank

/-!
# At least once

One drainer, and restarts at any moment. Every acknowledged payload has been delivered or waits in
its file. A payload is sent again only where an earlier delivery left its file there: the removal
failed, or the process ended first. Each such failure and each restart pays for one duplicate.
-/

namespace ArchivAgent.Spool
open Wire (Bytes)

def Entry.delivery : Entry → Option Nat
  | .delivered t _ => some t
  | _ => none

/-- The destination has answered, and the file has not been removed yet. -/
def Drain.unremoved (d : Drain) : Bool :=
  match d.phase with
  | .forwarded _ => true
  | _ => false

/-- What may leave the file of a delivered payload behind. -/
def LifeEvent.leavesFile : LifeEvent → Bool
  | .call (.removeFailed _) | .restart .. => true
  | .call _ => false

namespace Life

def deliveredTickets (s : Life) : List Nat := s.log.filterMap Entry.delivery

def Single (s : Life) : LifeEvent → Prop
  | .call (.select _) => s.world.drains.keys = []
  | _ => True

instance (s : Life) (e : LifeEvent) : Decidable (s.Single e) :=
  match e with
  | .call (.select _) => inferInstanceAs (Decidable (s.world.drains.keys = []))
  | .restart .. | .call (.push ..) | .call (.create _) | .call (.write ..) | .call (.sync _) | .call (.rename _) | .call (.fail ..)
  | .call (.publish _) | .call (.release _) | .call (.read _) | .call (.unreadable _) | .call (.forward _) | .call (.refuse _)
  | .call (.remove _) | .call (.removeFailed _) | .call (.settle _) => isTrue trivial

/-- A delivered payload with its file still there, which no drain is about to remove. -/
structure Doubtful (s : Life) (t : Nat) : Prop where
  delivered : t ∈ s.deliveredTickets
  left : ∃ seq < 2 ^ 64, s.owner seq = some t ∧ (s.world.files.lookup (otlpName seq)).isSome = true ∧
    ∀ id d, s.world.drains.lookup id = some d → d.seq = seq → d.unremoved = false

noncomputable def doubtful (s : Life) : Finset Nat :=
  @Finset.filter _ s.Doubtful (Classical.decPred s.Doubtful) s.deliveredTickets.toFinset

def duplicates (s : Life) : Nat := s.deliveredTickets.length - s.deliveredTickets.toFinset.card

noncomputable def exposure (s : Life) : Nat := s.duplicates + s.doubtful.card

theorem mem_doubtful {s : Life} {t : Nat} : t ∈ s.doubtful ↔ s.Doubtful t := by
  simp only [doubtful, Finset.mem_filter, List.mem_toFinset]
  exact ⟨fun both => both.2, fun doubt => ⟨doubt.delivered, doubt⟩⟩

/-- What the drainer knows of its file, and the pushes of theirs. -/
structure Careful (s : Life) : Prop where
  fifo : s.Fifo
  alone : ∀ id id' d d', s.world.drains.lookup id = some d → s.world.drains.lookup id' = some d' → id = id'
  reading : ∀ id d bytes, s.world.drains.lookup id = some d → d.phase = .read bytes →
    (s.world.files.lookup (otlpName d.seq)).isSome = true
  fresh : ∀ id p t, s.world.pushes.lookup id = some p → s.owner p.seq = some t → t ∉ s.deliveredTickets

end Life

namespace World

section Steps
variable {limit : Nat} {s s' : World} {e : Event}

theorem unremoved_step (h : s.step e = some s') {id : Nat} {d : Drain} (found : s.drains.lookup id = some d)
    (sent : d.unremoved = true) : s'.drains.lookup id = some d ∨ e = .remove id ∨ e = .removeFailed id := by
  have other : ∀ i d', s.drains.lookup i = some d' → d'.unremoved = false → id ≠ i := by
    rintro i d' here unsent rfl
    cases here.symm.trans found
    rw [sent] at unsent
    cases unsent
  cases step_cases h with
  | @select i seq len fresh =>
    refine .inl ((AList.lookup_insert_ne ?_).trans found)
    rintro rfl
    rw [fresh] at found
    cases found
  | read here phase | forward here phase =>
    exact .inl ((AList.lookup_insert_ne (other _ _ here (by rw [Drain.unremoved, phase]))).trans found)
  | unreadable here phase | retry here phase | settle here phase =>
    exact .inl ((AList.lookup_erase_ne (other _ _ here (by rw [Drain.unremoved, phase]))).trans found)
  | @remove i d' bytes content =>
    by_cases same : id = i
    · exact .inr (.inl (same ▸ rfl))
    · exact .inl ((AList.lookup_insert_ne same).trans found)
  | @removeFailed i d' bytes =>
    by_cases same : id = i
    · exact .inr (.inr (same ▸ rfl))
    · exact .inl ((AList.lookup_insert_ne same).trans found)
  | _ => exact .inl found

theorem alone_step (h : s.step e = some s') (single : ∀ id, e = .select id → s.drains.keys = [])
    (alone : ∀ id id' d d', s.drains.lookup id = some d → s.drains.lookup id' = some d' → id = id') {id id' : Nat}
    {d d' : Drain} (found : s'.drains.lookup id = some d) (found' : s'.drains.lookup id' = some d') : id = id' := by
  rcases drains_of_step h found with ⟨d₀, here, -⟩ | ⟨begins, -⟩
  · rcases drains_of_step h found' with ⟨d₁, here', -⟩ | ⟨begins', -⟩
    · exact alone id id' d₀ d₁ here here'
    · rw [Table.lookup_of_keys (single id' begins')] at here
      cases here
  · rcases drains_of_step h found' with ⟨d₁, here', -⟩ | ⟨begins', -⟩
    · rw [Table.lookup_of_keys (single id begins)] at here'
      cases here'
    · exact Event.select.inj (begins.symm.trans begins')

/-- With no other drain about, a file that has been read stays until it is sent. -/
theorem reading_step (h : s.step e = some s')
    (alone : ∀ id id' d d', s.drains.lookup id = some d → s.drains.lookup id' = some d' → id = id')
    (reading : ∀ id d bytes, s.drains.lookup id = some d → d.phase = .read bytes → (s.files.lookup (otlpName d.seq)).isSome = true)
    {id : Nat} {d : Drain} {bytes : Bytes} (found : s'.drains.lookup id = some d) (phase : d.phase = .read bytes) :
    (s'.files.lookup (otlpName d.seq)).isSome = true := by
  cases step_cases h with
  | create | write => exact Table.isSome_insert (reading id d bytes found phase)
  | @rename i p content =>
    refine Table.isSome_insert ?_
    rw [AList.lookup_erase_ne fun same => tmpName_ne_otlpName _ _ same.symm]
    exact reading id d bytes found phase
  | select =>
    rcases Table.lookup_of_insert found with ⟨-, rfl⟩ | ⟨-, found⟩
    · cases phase
    · exact reading id d bytes found phase
  | @read i d' content here selected held =>
    rcases Table.lookup_of_insert found with ⟨-, rfl⟩ | ⟨-, found⟩
    · exact Option.isSome_iff_exists.mpr ⟨content, held⟩
    · exact reading id d bytes found phase
  | forward | removeFailed =>
    rcases Table.lookup_of_insert found with ⟨-, rfl⟩ | ⟨-, found⟩
    · cases phase
    · exact reading id d bytes found phase
  | @remove i d' content _ here =>
    rcases Table.lookup_of_insert found with ⟨-, rfl⟩ | ⟨other, found⟩
    · cases phase
    · exact absurd (alone id i d d' found here) other
  | unreadable | retry | settle => exact reading id d bytes (Table.lookup_of_erase found).2 phase
  | _ => exact reading id d bytes found phase

end Steps

end World

namespace Life

section Calls
variable {s : Life} {world : World} {e : Event}

theorem mem_deliveredTickets {t : Nat} : t ∈ s.deliveredTickets ↔ Delivered s.log t := by
  rw [deliveredTickets, List.mem_filterMap, Delivered]
  constructor
  · rintro ⟨x, member, here⟩
    cases x with
    | delivered t' bytes =>
      cases here
      exact ⟨bytes, member⟩
    | started | acked | settled => cases here
  · rintro ⟨bytes, member⟩
    exact ⟨.delivered t bytes, member, rfl⟩

theorem deliveredTickets_call (s : Life) (e : Event) (h : s.world.step e = some world) :
    deliveredTickets { s.record e with world } = s.deliveredTickets ∨
      ∃ id d bytes t, e = .forward id ∧ s.world.drains.lookup id = some d ∧ d.phase = .read bytes ∧ s.owner d.seq = some t ∧
        deliveredTickets { s.record e with world } = s.deliveredTickets ++ [t] := by
  have logged : deliveredTickets { s.record e with world } = s.deliveredTickets ++ (s.entries e).filterMap Entry.delivery :=
    List.filterMap_append
  rcases entries_cases s e with none | ⟨x, one⟩
  · exact .inl (logged.trans (by rw [none, List.filterMap_nil, List.append_nil]))
  cases delivers : x.delivery with
  | none => exact .inl (logged.trans (by rw [one, List.filterMap_cons_none delivers, List.filterMap_nil, List.append_nil]))
  | some t =>
    cases x with
    | delivered t' bytes =>
      cases delivers
      obtain ⟨id, d, rfl, here, -, owned⟩ := delivered_of_entries (one ▸ List.mem_singleton_self _)
      cases World.step_cases h with
      | forward there phase =>
        cases here.symm.trans there
        exact .inr ⟨id, d, _, t, rfl, here, phase, owned, logged.trans (by rw [one]; rfl)⟩
    | started | acked | settled => cases delivers

/-- A doubtful payload was in doubt, unless its file is left behind just now. -/
theorem Careful.doubtful_call (careful : s.Careful) (h : s.world.step e = some world) {t : Nat}
    (doubt : Doubtful { s.record e with world } t) (old : t ∈ s.deliveredTickets) :
    s.Doubtful t ∨ ∃ id d, e = .removeFailed id ∧ s.world.drains.lookup id = some d ∧ s.owner d.seq = some t := by
  obtain ⟨limit, books⟩ := careful.fifo.books
  obtain ⟨seq, small, owned, present, idle⟩ := doubt.left
  have mine : s.owner seq = some t := by
    rcases owner_of_record owned with ⟨mine, -⟩ | ⟨-, -, rfl⟩
    · exact mine
    · obtain ⟨bytes, member⟩ := mem_deliveredTickets.mp old
      exact absurd (careful.fifo.ticketed.logged _ member) (Nat.lt_irrefl _)
  obtain ⟨content, found⟩ := Option.isSome_iff_exists.mp present
  rcases World.file_of_step h books small found with file | ⟨id, p, -, here, -, rfl, -⟩
  · by_cases sent : ∃ id d, s.world.drains.lookup id = some d ∧ d.seq = seq ∧ d.unremoved = true
    · obtain ⟨id, d, here, rfl, unremoved⟩ := sent
      rcases World.unremoved_step h here unremoved with still | rfl | rfl
      · have removed := idle id d still rfl
        rw [unremoved] at removed
        cases removed
      · cases World.step_cases h with
        | remove there =>
          cases here.symm.trans there
          have gone : (s.world.files.erase (otlpName d.seq)).lookup (otlpName d.seq) = none := AList.lookup_erase _ _
          cases gone.symm.trans found
      · exact .inr ⟨id, d, rfl, here, mine⟩
    · refine .inl ⟨old, seq, small, mine, Option.isSome_iff_exists.mpr ⟨content, file⟩, fun id d here same => ?_⟩
      exact Bool.eq_false_iff.mpr fun unremoved => sent ⟨id, d, here, same, unremoved⟩
  · exact absurd old (careful.fresh id p t here mine)

/-- A delivery of a payload that was delivered before settles a doubt. -/
theorem Careful.doubtful_forward (careful : s.Careful) {id t : Nat} {d : Drain} {bytes : Bytes}
    (h : s.world.step (.forward id) = some world) (here : s.world.drains.lookup id = some d) (phase : d.phase = .read bytes)
    (owned : s.owner d.seq = some t) :
    ¬ Doubtful { s.record (.forward id) with world } t ∧ (t ∈ s.deliveredTickets → s.Doubtful t) := by
  obtain ⟨limit, books⟩ := careful.fifo.books
  constructor
  · rintro ⟨-, seq, -, mine, -, idle⟩
    obtain rfl := careful.fifo.ticketed.apart seq d.seq t mine owned
    cases World.step_cases h with
    | forward there read =>
      cases here.symm.trans there
      have removed := idle id _ (AList.lookup_insert _) rfl
      cases removed
  · refine fun old => ⟨old, d.seq, Nat.lt_trans (books.drainBelow id d here) books.range, owned,
      careful.reading id d bytes here phase, fun id' d' found same => ?_⟩
    obtain rfl := careful.alone id id' d d' here found
    cases here.symm.trans found
    rw [Drain.unremoved, phase]

theorem Careful.exposure_call (careful : s.Careful) (h : s.world.step e = some world) :
    exposure { s.record e with world } ≤ s.exposure + if (LifeEvent.call e).leavesFile then 1 else 0 := by
  rcases deliveredTickets_call s e h with same | ⟨id, d, bytes, t, rfl, here, phase, owned, sent⟩
  · have duplicates : duplicates { s.record e with world } = s.duplicates := by rw [Life.duplicates, same, Life.duplicates]
    rw [exposure, exposure, duplicates, Nat.add_assoc]
    refine Nat.add_le_add_left ?_ _
    have older : ∀ t, Doubtful { s.record e with world } t → t ∈ s.deliveredTickets := fun t doubt => same ▸ doubt.delivered
    by_cases fails : ∃ id d t, e = .removeFailed id ∧ s.world.drains.lookup id = some d ∧ s.owner d.seq = some t
    · obtain ⟨id, d, t, rfl, here, owned⟩ := fails
      have within : doubtful { s.record (.removeFailed id) with world } ⊆ insert t s.doubtful := by
        intro t' member
        have doubt := mem_doubtful.mp member
        rcases careful.doubtful_call h doubt (older t' doubt) with before | ⟨id', d', again, there, mine⟩
        · exact Finset.mem_insert_of_mem (mem_doubtful.mpr before)
        · cases again
          cases here.symm.trans there
          cases owned.symm.trans mine
          exact Finset.mem_insert_self _ _
      exact (Finset.card_le_card within).trans (Finset.card_insert_le _ _)
    · refine (Finset.card_le_card fun t member => ?_).trans (Nat.le_add_right _ _)
      have doubt := mem_doubtful.mp member
      rcases careful.doubtful_call h doubt (older t doubt) with before | ⟨id, d, failed⟩
      · exact mem_doubtful.mpr before
      · exact absurd ⟨id, d, t, failed⟩ fails
  · obtain ⟨settled, doubted⟩ := careful.doubtful_forward h here phase owned
    have within : doubtful { s.record (.forward id) with world } ⊆ s.doubtful.erase t := by
      intro t' member
      have doubt := mem_doubtful.mp member
      have other : t' ≠ t := by
        rintro rfl
        exact settled doubt
      have old : t' ∈ s.deliveredTickets := by
        have member := doubt.delivered
        rw [sent] at member
        exact (List.mem_append.mp member).resolve_right fun new => other (List.mem_singleton.mp new)
      rcases careful.doubtful_call h doubt old with before | ⟨_, _, again, -⟩
      · exact Finset.mem_erase.mpr ⟨other, mem_doubtful.mpr before⟩
      · cases again
    have fewer := Finset.card_le_card within
    have long := List.toFinset_card_le s.deliveredTickets
    rw [exposure, exposure, duplicates, duplicates, sent, List.toFinset_append, List.length_append, List.length_singleton,
      List.toFinset_cons, List.toFinset_nil, insert_empty_eq, Finset.union_singleton]
    by_cases old : t ∈ s.deliveredTickets
    · have mine := mem_doubtful.mpr (doubted old)
      have lost := Finset.card_erase_of_mem mine
      have some := Finset.card_pos.mpr ⟨t, mine⟩
      rw [Finset.insert_eq_of_mem (List.mem_toFinset.mpr old)]
      omega
    · have new := Finset.card_insert_of_notMem (mt List.mem_toFinset.mp old)
      have erased := Finset.card_erase_le (s := s.doubtful) (a := t)
      omega

theorem Careful.fresh_call (careful : s.Careful) (h : s.world.step e = some world) {id t : Nat} {p : Push}
    (found : world.pushes.lookup id = some p) (owned : (s.record e).owner p.seq = some t) :
    t ∉ deliveredTickets { s.record e with world } := by
  obtain ⟨limit, books⟩ := careful.fifo.books
  have unlogged : s.tickets ∉ s.deliveredTickets := by
    intro member
    obtain ⟨bytes, logged⟩ := mem_deliveredTickets.mp member
    exact absurd (careful.fifo.ticketed.logged _ logged) (Nat.lt_irrefl _)
  have before : t ∉ s.deliveredTickets := by
    rcases owner_of_record owned with ⟨old, other⟩ | ⟨-, -, rfl⟩
    · rcases push_of_step h found with ⟨q, here, seq, -⟩ | ⟨next, -, takes, -⟩
      · exact careful.fresh id q t here (seq ▸ old)
      · exact absurd next (other takes)
    · exact unlogged
  rcases deliveredTickets_call s e h with same | ⟨i, d, bytes, t', rfl, here, -, mine, sent⟩
  · rw [same]
    exact before
  · rw [sent, List.mem_append, List.mem_singleton]
    rintro (old | rfl)
    · exact before old
    · have seq := careful.fifo.ticketed.apart _ _ _ mine owned
      rcases push_of_step h found with ⟨q, there, same, -⟩ | ⟨-, -, takes, -⟩
      · exact books.drainApart i d id q here there (seq.trans same.symm)
      · cases takes

theorem Careful.call (careful : s.Careful) (h : s.world.step e = some world) (single : s.Single (.call e)) :
    Careful { s.record e with world } where
  fifo := careful.fifo.call h
  alone _ _ _ _ found found' := World.alone_step h (by
    rintro id rfl
    exact single) careful.alone found found'
  reading _ _ _ found phase := World.reading_step h careful.alone careful.reading found phase
  fresh _ _ _ found owned := careful.fresh_call h found owned

end Calls

/-! ### Restarts -/

section Restarts
variable {s : Life} {io : OpenIo} {left files : Files} {maxBytes : Nat} {sp : Spool}

theorem Careful.restart (careful : s.Careful) (leaves : Leaves s.world.files left)
    (opened : Spool.open io left maxBytes = .ok (sp, files)) : Careful { s with world := .start sp files } where
  fifo := careful.fifo.restart leaves opened
  alone _ _ _ _ found := nomatch found
  reading _ _ _ found := nomatch found
  fresh _ _ _ found := nomatch found

/-- The process may have ended between the answer and the removal. -/
theorem Careful.exposure_restart (careful : s.Careful) (leaves : Leaves s.world.files left)
    (opened : Spool.open io left maxBytes = .ok (sp, files)) :
    exposure { s with world := .start sp files } ≤ s.exposure + 1 := by
  obtain ⟨-, swept, -⟩ := open_ok opened
  refine (Nat.add_le_add_left ?_ s.duplicates).trans (Nat.le_of_eq (Nat.add_assoc ..).symm)
  have before : ∀ t, Doubtful { s with world := .start sp files } t → s.Doubtful t ∨
      ∃ id d, s.world.drains.lookup id = some d ∧ d.unremoved = true ∧ s.owner d.seq = some t := by
    rintro t ⟨delivered, seq, small, owned, present, -⟩
    have file : (s.world.files.lookup (otlpName seq)).isSome = true := by
      rw [← leaves.otlp seq, ← swept.otlp seq]
      exact present
    by_cases sent : ∃ id d, s.world.drains.lookup id = some d ∧ d.seq = seq ∧ d.unremoved = true
    · obtain ⟨id, d, here, rfl, unremoved⟩ := sent
      exact .inr ⟨id, d, here, unremoved, owned⟩
    · exact .inl ⟨delivered, seq, small, owned, file, fun id d here same =>
        Bool.eq_false_iff.mpr fun unremoved => sent ⟨id, d, here, same, unremoved⟩⟩
  by_cases sends : ∃ id d t, s.world.drains.lookup id = some d ∧ d.unremoved = true ∧ s.owner d.seq = some t
  · obtain ⟨id, d, t, here, -, owned⟩ := sends
    have within : doubtful { s with world := .start sp files } ⊆ insert t s.doubtful := by
      intro t' member
      rcases before t' (mem_doubtful.mp member) with old | ⟨id', d', there, -, mine⟩
      · exact Finset.mem_insert_of_mem (mem_doubtful.mpr old)
      · obtain rfl := careful.alone id id' d d' here there
        cases here.symm.trans there
        cases owned.symm.trans mine
        exact Finset.mem_insert_self _ _
    exact (Finset.card_le_card within).trans (Finset.card_insert_le _ _)
  · refine (Finset.card_le_card fun t member => ?_).trans (Nat.le_add_right _ _)
    rcases before t (mem_doubtful.mp member) with old | ⟨id, d, sent⟩
    · exact mem_doubtful.mpr old
    · exact absurd ⟨id, d, t, sent⟩ sends

theorem start_careful (opened : Spool.open io ∅ maxBytes = .ok (sp, files)) : (start sp files).Careful where
  fifo := start_fifo opened
  alone _ _ _ _ found := nomatch found
  reading _ _ _ found := nomatch found
  fresh _ _ _ found := nomatch found

theorem start_exposure (sp : Spool) (files : Files) : (start sp files).exposure = 0 := by
  have none : (start sp files).doubtful = ∅ := Finset.eq_empty_of_forall_notMem fun t member => by
    cases (mem_doubtful.mp member).delivered
  rw [exposure, none]
  rfl

theorem step_careful {s' : Life} {e : LifeEvent} (h : s.step e = some s') (single : s.Single e) (careful : s.Careful) :
    s'.Careful ∧ s'.exposure ≤ s.exposure + if e.leavesFile then 1 else 0 := by
  cases step_cases h with
  | call one => exact ⟨careful.call one single, careful.exposure_call one⟩
  | restart leaves opened => exact ⟨careful.restart leaves opened, careful.exposure_restart leaves opened⟩

end Restarts

/-! ### Every run -/

/-- No acknowledged payload is lost, and the deliveries are at most one for each payload delivered,
one for each removal that failed and one for each restart. -/
structure AtLeastOnce (s : Life) (es : List LifeEvent) : Prop where
  kept : ∀ t, Entry.acked t ∈ s.log → (∃ payload, Entry.started t payload ∈ s.log ∧ Entry.delivered t payload ∈ s.log) ∨
    ∃ seq payload, s.owner seq = some t ∧ Entry.started t payload ∈ s.log ∧
      (s.world.state.pending.lookup seq).isSome = true ∧ s.world.files.lookup (otlpName seq) = some payload
  paid : s.deliveredTickets.length ≤ s.deliveredTickets.toFinset.card + es.countP LifeEvent.leavesFile

theorem delivered_at_least_once {io : OpenIo} {maxBytes : Nat} {sp : Spool} {files : Files}
    (opened : Spool.open io ∅ maxBytes = .ok (sp, files)) {es : List LifeEvent} {s : Life}
    (ran : (start sp files).run es = some s) (single : Transition.Along step Single (start sp files) es) : s.AtLeastOnce es := by
  have careful : s.Careful := Transition.along_invariant Careful ran single
    (fun _ _ _ one single careful => (step_careful one single careful).1) (start_careful opened)
  refine ⟨fun t acked => ?_, ?_⟩
  · obtain ⟨limit, books⟩ := careful.fifo.books
    rcases careful.fifo.kept t acked with ⟨payload, delivered⟩ | ⟨seq, owned, present⟩
    · exact .inl ⟨payload, careful.fifo.whole t payload delivered, delivered⟩
    · obtain ⟨content, file⟩ := Option.isSome_iff_exists.mp present.2
      obtain ⟨t', mine, started⟩ := careful.fifo.file seq content (Nat.lt_trans (present.below books) books.range) file
      cases owned.symm.trans mine
      exact .inr ⟨seq, content, owned, started, present.1, file⟩
  · have spent := Transition.along_spends Careful exposure (fun _ => false) LifeEvent.leavesFile 1 ran single
      (fun _ _ _ one single careful => step_careful one single careful) (start_careful opened)
    rw [start_exposure, exposure, duplicates] at spent
    omega

/-- The process ends after the answer, and the next one sends the file again. -/
def answeredTwice : List LifeEvent :=
  ([.push 0 [7], .create 0, .write 0 1, .sync 0, .rename 0, .publish 0, .select 0, .read 0, .forward 0].map LifeEvent.call) ++
  [.restart {} ((∅ : Files).insert (otlpName 0) [7]) 10] ++
  ([.select 0, .read 0, .forward 0, .remove 0, .settle 0].map LifeEvent.call)

theorem delivered_at_least_once_twice : ∃ s, (start ⟨10, 0, 0, ∅⟩ ∅).run answeredTwice = some s ∧
    s.deliveredTickets = [0, 0] ∧ s.AtLeastOnce answeredTwice := by
  obtain ⟨s, ran, sent⟩ := Option.map_eq_some_iff.mp
    (show ((start ⟨10, 0, 0, ∅⟩ ∅).run answeredTwice).map deliveredTickets = some [0, 0] by decide +kernel)
  exact ⟨s, ran, sent, delivered_at_least_once (show Spool.open {} ∅ 10 = .ok (⟨10, 0, 0, ∅⟩, ∅) from rfl) ran (by decide +kernel)⟩

end Life

end ArchivAgent.Spool
