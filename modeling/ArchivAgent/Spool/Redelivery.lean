import ArchivAgent.Spool.Order

/-!
# Redelivery

One drainer, and restarts between its calls. A payload for which `drain_once` has returned
`Delivered` is sent again only when its file could not be removed and a later process finds it.
-/

namespace ArchivAgent.Spool
open Wire (Bytes)

namespace Life

/-- One drain at a time, and none and no push in flight at a restart. -/
def Orderly (s : Life) : LifeEvent → Prop
  | .call (.select _) => s.world.drains.keys = []
  | .call _ => True
  | .restart .. => s.world.pushes.keys = [] ∧ s.world.drains.keys = []

/-- A restart finds no file of a payload that `drain_once` has returned `Delivered` for. -/
def Clean (s : Life) : LifeEvent → Prop
  | .call _ => True
  | .restart _ left _ => ∀ name ∈ left.keys, ∀ seq ∈ parseSeq name, ∀ t ∈ s.owner seq, Entry.settled t ∉ s.log

instance (s : Life) (e : LifeEvent) : Decidable (s.Orderly e) :=
  match e with
  | .call (.select _) => inferInstanceAs (Decidable (s.world.drains.keys = []))
  | .restart .. => inferInstanceAs (Decidable (s.world.pushes.keys = [] ∧ s.world.drains.keys = []))
  | .call (.push ..) | .call (.create _) | .call (.write ..) | .call (.sync _) | .call (.rename _) | .call (.fail ..)
  | .call (.publish _) | .call (.release _) | .call (.read _) | .call (.unreadable _) | .call (.forward _) | .call (.refuse _)
  | .call (.remove _) | .call (.removeFailed _) | .call (.settle _) => isTrue trivial

instance (s : Life) (e : LifeEvent) : Decidable (s.Clean e) :=
  match e with
  | .call _ => isTrue trivial
  | .restart _ left _ =>
    inferInstanceAs (Decidable (∀ name ∈ left.keys, ∀ seq ∈ parseSeq name, ∀ t ∈ s.owner seq, Entry.settled t ∉ s.log))

/-- No payload that `drain_once` has returned `Delivered` for has been sent since, nor is about to be. -/
structure SentOnce (s : Life) : Prop where
  owned : ∀ id d, s.world.drains.lookup id = some d → (s.owner d.seq).isSome = true
  sending : ∀ id d bytes t, s.world.drains.lookup id = some d → d.phase = .read bytes → s.owner d.seq = some t →
    Entry.settled t ∉ s.log
  sent : ∀ (i j t : Nat) (bytes : Bytes), s.log[i]? = some (.settled t) → s.log[j]? = some (.delivered t bytes) → j < i

/-! ### Owners -/

/-- All that a call may work on has an owner. -/
structure Owns (s : Life) : Prop where
  push : ∀ id p, s.world.pushes.lookup id = some p → (s.owner p.seq).isSome = true
  file : ∀ seq content, seq < 2 ^ 64 → s.world.files.lookup (otlpName seq) = some content → (s.owner seq).isSome = true
  entry : ∀ seq len, s.world.state.pending.lookup seq = some len → (s.owner seq).isSome = true
  drain : ∀ id d, s.world.drains.lookup id = some d → (s.owner d.seq).isSome = true

/-- The payloads settled are in no call's hands. -/
structure Spent (s : Life) : Prop where
  books : ∃ limit, s.world.Accounted limit
  ticketed : s.Ticketed
  owns : s.Owns
  alone : ∀ id id' d d', s.world.drains.lookup id = some d → s.world.drains.lookup id' = some d' → id = id'
  gone : ∀ seq t, s.owner seq = some t → Entry.settled t ∈ s.log → s.world.state.pending.lookup seq = none ∧
    (∀ id p, s.world.pushes.lookup id = some p → p.seq ≠ seq) ∧ ∀ id d, s.world.drains.lookup id = some d → d.seq ≠ seq
  sent : ∀ (i j t : Nat) (bytes : Bytes), s.log[i]? = some (.settled t) → s.log[j]? = some (.delivered t bytes) → j < i

section Calls
variable {limit : Nat} {s : Life} {world : World} {e : Event}

theorem isSome_record {seq : Nat} (owned : (s.owner seq).isSome = true) : ((s.record e).owner seq).isSome = true := by
  rw [record]
  simp only
  split
  · by_cases same : seq = s.world.state.nextSeq
    · rw [same, Function.update_self]
      rfl
    · rw [Function.update_of_ne same]
      exact owned
  · exact owned

theorem settled_of_entries {t : Nat} (member : Entry.settled t ∈ s.entries e) :
    ∃ id d, e = .settle id ∧ s.world.drains.lookup id = some d ∧ s.owner d.seq = some t := by
  cases e with
  | push id payload =>
    rw [entries] at member
    split at member <;> simp at member
  | settle id =>
    simp only [entries, Option.mem_toList, Option.bind_eq_some_iff, Option.map_eq_some_iff] at member
    obtain ⟨d, here, t, owned, same⟩ := member
    cases same
    exact ⟨id, d, rfl, here, owned⟩
  | publish | forward =>
    simp only [entries, Option.mem_toList, Option.bind_eq_some_iff, Option.map_eq_some_iff] at member
    simp at member
  | _ => cases member

theorem Owns.call (owns : s.Owns) (books : s.world.Accounted limit) (h : s.world.step e = some world) :
    Owns { s.record e with world } where
  push id p found := by
    rcases push_of_step h found with ⟨q, here, seq, -⟩ | ⟨seq, -, takes, -⟩
    · exact isSome_record (seq ▸ owns.push id q here)
    · show ((s.record e).owner p.seq).isSome = true
      rw [seq]
      simp only [record, takes, if_true, Function.update_self]
      rfl
  file seq content small found := by
    rcases World.file_of_step h books small found with old | ⟨id, p, -, here, -, same, -⟩
    · exact isSome_record (owns.file seq content small old)
    · exact isSome_record (same ▸ owns.push id p here)
  entry seq len found := by
    rcases World.entry_of_step h found with old | ⟨id, p, -, here, -, same⟩
    · exact isSome_record (owns.entry seq len old)
    · exact isSome_record (same ▸ owns.push id p here)
  drain id d found := by
    rcases World.drains_of_step h found with ⟨d', here, seq, -⟩ | ⟨-, oldest, -⟩
    · exact isSome_record (seq ▸ owns.drain id d' here)
    · exact isSome_record (owns.entry d.seq d.len (Table.first_some oldest).1)

theorem Spent.alone_call (spent : s.Spent) (h : s.world.step e = some world) (orderly : s.Orderly (.call e))
    {id id' : Nat} {d d' : Drain} (found : world.drains.lookup id = some d) (found' : world.drains.lookup id' = some d') :
    id = id' := by
  have start : e ≠ .select id ∧ e ≠ .select id' ∨ s.world.drains.keys = [] := by
    cases e with
    | select i => exact .inr orderly
    | _ => exact .inl ⟨nofun, nofun⟩
  rcases World.drains_of_step h found with ⟨d₀, here, -⟩ | ⟨begins, -⟩
  · rcases World.drains_of_step h found' with ⟨d₁, here', -⟩ | ⟨begins', -⟩
    · exact spent.alone id id' d₀ d₁ here here'
    · rcases start with other | empty
      · exact absurd begins' other.2
      · rw [Table.lookup_of_keys empty] at here
        cases here
  · rcases World.drains_of_step h found' with ⟨d₁, here', -⟩ | ⟨begins', -⟩
    · rcases start with other | empty
      · exact absurd begins other.1
      · rw [Table.lookup_of_keys empty] at here'
        cases here'
    · exact Event.select.inj (begins.symm.trans begins')

theorem Spent.gone_call (spent : s.Spent) (h : s.world.step e = some world) {seq t : Nat}
    (owned : (s.record e).owner seq = some t) (settled : Entry.settled t ∈ (s.record e).log) :
    world.state.pending.lookup seq = none ∧ (∀ id p, world.pushes.lookup id = some p → p.seq ≠ seq) ∧
      ∀ id d, world.drains.lookup id = some d → d.seq ≠ seq := by
  obtain ⟨limit, books⟩ := spent.books
  have older : s.owner seq = some t ∧ (s.reserves e = true → seq ≠ s.world.state.nextSeq) := by
    rcases owner_of_record owned with old | ⟨-, -, rfl⟩
    · exact old
    · rcases List.mem_append.mp settled with before | now
      · exact absurd (spent.ticketed.logged _ before) (Nat.lt_irrefl _)
      · obtain ⟨id, d, -, -, mine⟩ := settled_of_entries now
        exact absurd (spent.ticketed.below _ _ mine) (Nat.lt_irrefl _)
  obtain ⟨old, other⟩ := older
  rcases List.mem_append.mp settled with before | now
  · obtain ⟨entry, pushes, drains⟩ := spent.gone seq t old before
    refine ⟨?_, fun id p found same => ?_, fun id d found same => ?_⟩
    · cases found : world.state.pending.lookup seq with
      | none => rfl
      | some len =>
        rcases World.entry_of_step h found with there | ⟨id, p, -, here, -, same⟩
        · rw [entry] at there
          cases there
        · exact absurd same (pushes id p here)
    · rcases push_of_step h found with ⟨q, here, alike, -⟩ | ⟨next, -, takes, -⟩
      · exact pushes id q here (alike.trans same)
      · exact other takes (same.symm.trans next)
    · rcases World.drains_of_step h found with ⟨d', here, alike, -⟩ | ⟨-, oldest, -⟩
      · exact drains id d' here (alike.trans same)
      · have there := (Table.first_some oldest).1
        rw [same, entry] at there
        cases there
  · obtain ⟨id, d, rfl, here, mine⟩ := settled_of_entries now
    obtain rfl := spent.ticketed.apart seq d.seq t old mine
    cases World.step_cases h with
    | settle there phase =>
      cases here.symm.trans there
      refine ⟨?_, fun id' p found same => books.drainApart id d id' p here found same.symm, fun id' d' found => ?_⟩
      · simp only [World.settled, State.settle]
        split
        · exact AList.lookup_erase _ _
        · rename_i absent
          exact Option.not_isSome_iff_eq_none.mp absent
      · obtain ⟨apart, found⟩ := Table.lookup_of_erase found
        exact absurd (spent.alone id' id d' d found here) apart

theorem Spent.sent_call (spent : s.Spent) {i j t : Nat} {bytes : Bytes}
    (settled : (s.record e).log[i]? = some (.settled t)) (delivered : (s.record e).log[j]? = some (.delivered t bytes)) :
    j < i := by
  rcases entries_cases s e with none | ⟨x, one⟩
  · rw [record, none, List.append_nil] at settled delivered
    exact spent.sent i j t bytes settled delivered
  · have mine : x ∈ s.entries e := one ▸ List.mem_singleton_self x
    rw [record, one] at settled delivered
    rcases getElem?_snoc settled with ⟨-, before⟩ | ⟨last, same⟩
    · rcases getElem?_snoc delivered with ⟨-, delivered⟩ | ⟨-, same⟩
      · exact spent.sent i j t bytes before delivered
      · obtain ⟨id, d, -, here, -, owned⟩ := delivered_of_entries (same ▸ mine)
        exact absurd rfl ((spent.gone d.seq t owned (List.mem_of_getElem? before)).2.2 id d here)
    · rcases getElem?_snoc delivered with ⟨less, -⟩ | ⟨-, same'⟩
      · exact last ▸ less
      · rw [← same] at same'
        cases same'

theorem Spent.call (spent : s.Spent) (h : s.world.step e = some world) (orderly : s.Orderly (.call e)) :
    Spent { s.record e with world } where
  books := spent.books.imp fun _ books => World.step_accounted h books
  ticketed := ⟨(spent.ticketed.record e).below, (spent.ticketed.record e).apart, (spent.ticketed.record e).logged⟩
  owns := spent.books.elim fun _ books => spent.owns.call books h
  alone _ _ _ _ found found' := spent.alone_call h orderly found found'
  gone _ _ owned settled := spent.gone_call h owned settled
  sent _ _ _ _ settled delivered := spent.sent_call settled delivered

end Calls

/-! ### Restarts -/

theorem Spent.restart {s : Life} (spent : s.Spent) {io : OpenIo} {left files : Files} {maxBytes : Nat} {sp : Spool}
    (leaves : Leaves s.world.files left) (opened : Spool.open io left maxBytes = .ok (sp, files))
    (clean : s.Clean (.restart io left maxBytes)) : Spent { s with world := .start sp files } := by
  obtain ⟨-, swept, recovers⟩ := open_ok opened
  have file : ∀ seq content, seq < 2 ^ 64 → left.lookup (otlpName seq) = some content → (s.owner seq).isSome = true :=
    fun seq content small found => spent.owns.file seq content small ((leaves.otlp seq).symm.trans found)
  exact {
    books := ⟨_, World.start_accounted opened⟩
    ticketed := ⟨spent.ticketed.below, spent.ticketed.apart, spent.ticketed.logged⟩
    owns := {
      push := fun _ _ found => (nomatch found)
      file := fun seq content small found => file seq content small ((swept.otlp seq).symm.trans found)
      entry := fun seq len found => by
        obtain ⟨small, content, there, -⟩ := (recovers.pending seq len).mp found
        exact file seq content small there
      drain := fun _ _ found => (nomatch found) }
    alone := fun _ _ _ _ found => (nomatch found)
    gone := fun seq t owned settled => by
      refine ⟨?_, fun _ _ found => (nomatch found), fun _ _ found => (nomatch found)⟩
      cases found : sp.state.pending.lookup seq with
      | none => exact found
      | some len =>
        obtain ⟨small, content, there, -⟩ := (recovers.pending seq len).mp found
        have name : otlpName seq ∈ left.keys :=
          AList.mem_keys.mp (AList.lookup_isSome.mp (by rw [there]; rfl))
        exact absurd settled (clean _ name seq (parseSeq_iff.mpr ⟨small, rfl⟩) t owned)
    sent := spent.sent }

theorem start_spent {io : OpenIo} {files files' : Files} {maxBytes : Nat} {sp : Spool}
    (opened : Spool.open io files maxBytes = .ok (sp, files')) : (start sp files').Spent := by
  obtain ⟨-, swept, recovers⟩ := open_ok opened
  have owner : ∀ seq t, (start sp files').owner seq = some t → t = seq ∧ seq < sp.state.nextSeq := by
    intro seq t owned
    obtain ⟨len, entry, rfl⟩ := Option.map_eq_some_iff.mp owned
    exact ⟨rfl, recovers.below _ len entry⟩
  have entry : ∀ seq len, sp.state.pending.lookup seq = some len → ((start sp files').owner seq).isSome = true := by
    intro seq len found
    exact Option.isSome_iff_exists.mpr ⟨seq, Option.map_eq_some_iff.mpr ⟨len, found, rfl⟩⟩
  exact {
    books := ⟨_, World.start_accounted opened⟩
    ticketed := {
      below := fun seq t owned => (owner seq t owned).1 ▸ (owner seq t owned).2
      apart := fun seq seq' t owned owned' => (owner seq t owned).1.symm.trans (owner seq' t owned').1
      logged := fun _ member => (nomatch member) }
    owns := {
      push := fun _ _ found => (nomatch found)
      file := fun seq content small found =>
        entry seq content.length ((recovers.pending seq _).mpr ⟨small, content, (swept.otlp seq).symm.trans found, rfl⟩)
      entry
      drain := fun _ _ found => (nomatch found) }
    alone := fun _ _ _ _ found => (nomatch found)
    gone := fun _ _ _ settled => (nomatch settled)
    sent := fun _ _ _ _ found => (nomatch found) }

theorem step_spent {s s' : Life} {e : LifeEvent} (h : s.step e = some s') (met : s.Orderly e ∧ s.Clean e) (spent : s.Spent) :
    s'.Spent := by
  cases step_cases h with
  | call one => exact spent.call one met.1
  | restart leaves opened => exact spent.restart leaves opened met.2

theorem Spent.sentOnce {s : Life} (spent : s.Spent) : s.SentOnce where
  owned := spent.owns.drain
  sending id d _ t here _ owned settled := (spent.gone d.seq t owned settled).2.2 id d here rfl
  sent := spent.sent

/-! ### Once -/

theorem settled_not_resent {io : OpenIo} {files files' : Files} {maxBytes : Nat} {sp : Spool}
    (opened : Spool.open io files maxBytes = .ok (sp, files')) {es : List LifeEvent} {s : Life}
    (ran : (start sp files').run es = some s)
    (met : Transition.Along step (fun s e => s.Orderly e ∧ s.Clean e) (start sp files') es) : s.SentOnce :=
  (Transition.along_invariant Spent ran met (fun _ _ _ one met => step_spent one met) (start_spent opened)).sentOnce

def pushed (id : Nat) (payload : Bytes) : List LifeEvent :=
  [.push id payload, .create id, .write id payload.length, .sync id, .rename id, .publish id].map LifeEvent.call

/-- A delivery, a file that cannot be removed, and one that is delivered before the restart. -/
def deliveries : List LifeEvent :=
  pushed 0 [7] ++ pushed 1 [8] ++
  ([.select 0, .read 0, .forward 0, .remove 0, .settle 0, .select 0, .read 0, .refuse 0].map LifeEvent.call) ++
  [.restart {} ((∅ : Files).insert (otlpName 1) [8]) 10] ++
  ([.select 0, .read 0, .forward 0, .removeFailed 0, .settle 0].map LifeEvent.call)

theorem settled_not_resent_restarted : ∃ s, (start ⟨10, 0, 0, ∅⟩ ∅).run deliveries = some s ∧
    Entry.settled 0 ∈ s.log ∧ Entry.settled 1 ∈ s.log ∧ s.SentOnce := by
  obtain ⟨s, ran, logged⟩ := Option.map_eq_some_iff.mp
    (show ((start ⟨10, 0, 0, ∅⟩ ∅).run deliveries).map (fun s => decide (Entry.settled 0 ∈ s.log ∧ Entry.settled 1 ∈ s.log)) =
      some true by decide +kernel)
  have settled := of_decide_eq_true logged
  have met : Transition.Along step (fun s e => s.Orderly e ∧ s.Clean e) (start ⟨10, 0, 0, ∅⟩ ∅) deliveries := by decide +kernel
  exact ⟨s, ran, settled.1, settled.2,
    settled_not_resent (show Spool.open {} ∅ 10 = .ok (⟨10, 0, 0, ∅⟩, ∅) from rfl) ran met⟩

/-- Delivered, with its file left there; the next process finds the file and sends it again. -/
def leftBehind : List LifeEvent :=
  pushed 0 [7] ++ ([.select 0, .read 0, .forward 0, .removeFailed 0, .settle 0].map LifeEvent.call) ++
  [.restart {} ((∅ : Files).insert (otlpName 0) [7]) 10] ++ ([.select 0, .read 0, .forward 0].map LifeEvent.call)

theorem settled_not_resent_not : ¬ ∀ io files maxBytes sp files', Spool.open io files maxBytes = .ok (sp, files') →
    ∀ es s, (start sp files').run es = some s → Transition.Along step Orderly (start sp files') es → s.SentOnce := by
  intro claimed
  obtain ⟨s, ran, logged⟩ := Option.map_eq_some_iff.mp
    (show ((start ⟨10, 0, 0, ∅⟩ ∅).run leftBehind).map log = some [.started 0 [7], .acked 0, .delivered 0 [7], .settled 0,
      .delivered 0 [7]] by decide +kernel)
  have once := claimed {} ∅ 10 ⟨10, 0, 0, ∅⟩ ∅ rfl leftBehind s ran (by decide +kernel)
  have before := once.sent 3 4 0 [7] (by rw [logged]; rfl) (by rw [logged]; rfl)
  exact absurd before (by decide)

end Life

end ArchivAgent.Spool
