import ArchivAgent.Spool.Held

/-!
# Restarts

A spool over any number of processes. A restart drops the calls in flight and reopens what is on
disk; a rename or a removal that has returned is there, and of the stray files anything may be.
Every push gets a ticket when it reserves; `owner` is the push that was last given a number. The
log is what the calls did, in order.
-/

namespace ArchivAgent.Spool
open Wire (Bytes)

inductive Entry where
  | started (ticket : Nat) (payload : Bytes)
  /-- `push` returned `Ok`. -/
  | acked (ticket : Nat)
  /-- The destination answered these bytes with a 2xx. -/
  | delivered (ticket : Nat) (bytes : Bytes)
  /-- `drain_once` returned `Delivered`. -/
  | settled (ticket : Nat)
  deriving DecidableEq, Repr

def Entry.ticket : Entry → Nat
  | .started t _ | .acked t | .delivered t _ | .settled t => t

structure Life where
  world : World
  owner : Nat → Option Nat
  /-- The next ticket. -/
  tickets : Nat
  log : List Entry := []

inductive LifeEvent where
  | call (e : Event)
  | restart (io : OpenIo) (left : Files) (maxBytes : Nat)

namespace Life

def entries (s : Life) : Event → List Entry
  | .push _ payload =>
    match s.world.state.reserve s.world.maxBytes payload.length with
    | .ok _ => [.started s.tickets payload]
    | .error _ => []
  | .publish id => ((s.world.pushes.lookup id).bind fun p => (s.owner p.seq).map .acked).toList
  | .forward id =>
    ((s.world.drains.lookup id).bind fun d => d.bytes.bind fun bytes =>
      (s.owner d.seq).map fun t => .delivered t bytes).toList
  | .settle id => ((s.world.drains.lookup id).bind fun d => (s.owner d.seq).map .settled).toList
  | _ => []

/-- A reservation takes a ticket. -/
def reserves (s : Life) : Event → Bool
  | .push _ payload => (s.world.state.reserve s.world.maxBytes payload.length).isOk
  | _ => false

def record (s : Life) (e : Event) : Life :=
  { s with
    log := s.log ++ s.entries e
    owner := if s.reserves e then Function.update s.owner s.world.state.nextSeq (some s.tickets) else s.owner
    tickets := if s.reserves e then s.tickets + 1 else s.tickets }

/-- The directory a process leaves, but for stray files. -/
def Leaves (files left : Files) : Prop :=
  ∀ name ∈ files.keys ++ left.keys, ¬ tmpSuffix <:+ name → left.lookup name = files.lookup name

instance (files left : Files) : Decidable (Leaves files left) :=
  inferInstanceAs (Decidable (∀ name ∈ files.keys ++ left.keys, ¬ tmpSuffix <:+ name → left.lookup name = files.lookup name))

def step (s : Life) : LifeEvent → Option Life
  | .call e => (s.world.step e).map fun world => { s.record e with world }
  | .restart io left maxBytes =>
    if Leaves s.world.files left then
      match Spool.open io left maxBytes with
      | .ok (sp, files) => some { s with world := .start sp files }
      | .error _ => none
    else none

def run (s : Life) (es : List LifeEvent) : Option Life := Transition.run step s es

/-- The spool of a directory; each file in it has the ticket of its number. -/
def start (sp : Spool) (files : Files) : Life where
  world := .start sp files
  owner seq := (sp.state.pending.lookup seq).map fun _ => seq
  tickets := sp.state.nextSeq

/-! ### What a step does -/

inductive Step (s : Life) : LifeEvent → Life → Prop where
  | call {e world} (one : s.world.step e = some world) : Step s (.call e) { s.record e with world }
  | restart {io left maxBytes sp files} (leaves : Leaves s.world.files left)
      (opened : Spool.open io left maxBytes = .ok (sp, files)) :
      Step s (.restart io left maxBytes) { s with world := .start sp files }

theorem step_cases {s s' : Life} {e : LifeEvent} (h : s.step e = some s') : Step s e s' := by
  cases e with
  | call e =>
    obtain ⟨world, one, rfl⟩ := Option.map_eq_some_iff.mp h
    exact .call one
  | restart io left maxBytes =>
    simp only [step] at h
    split at h
    · split at h <;> cases h
      exact .restart ‹_› ‹_›
    · cases h

theorem Leaves.otlp {files left : Files} (leaves : Leaves files left) (seq : Nat) :
    left.lookup (otlpName seq) = files.lookup (otlpName seq) := by
  by_cases here : otlpName seq ∈ files.keys ++ left.keys
  · exact leaves _ here (otlpName_not_tmp seq)
  · rw [List.mem_append, not_or] at here
    rw [AList.lookup_eq_none.mpr (fun member => here.1 (AList.mem_keys.mp member)),
      AList.lookup_eq_none.mpr (fun member => here.2 (AList.mem_keys.mp member))]

end Life

namespace World

section Steps
variable {limit : Nat} {s s' : World} {e : Event}

/-- A drain in flight was, and has read or sent more, or it begins with the oldest entry. -/
def ComesTo (s : World) (e : Event) (id : Nat) (d : Drain) : Prop :=
  (∃ d', s.drains.lookup id = some d' ∧ d'.seq = d.seq ∧
    (∀ bytes ∈ d.bytes, bytes ∈ d'.bytes ∨ s.files.lookup (otlpName d.seq) = some bytes) ∧
    (d.sent.isSome = true → d'.sent.isSome = true ∨ (e = .forward id ∧ d.sent = d'.bytes))) ∨
  (e = .select id ∧ s.state.oldest = some (d.seq, d.len) ∧ d.phase = .selected)

theorem drains_of_step (h : s.step e = some s') {id : Nat} {d : Drain} (found : s'.drains.lookup id = some d) :
    s.ComesTo e id d := by
  have same : s.drains.lookup id = some d → s.ComesTo e id d := fun old =>
    .inl ⟨d, old, rfl, fun _ read => .inl read, fun sent => .inl sent⟩
  cases step_cases h with
  | select fresh oldest =>
    rcases Table.lookup_of_insert found with ⟨rfl, rfl⟩ | ⟨-, found⟩
    · exact .inr ⟨rfl, oldest, rfl⟩
    · exact same found
  | @read i d' bytes here phase held =>
    rcases Table.lookup_of_insert found with ⟨rfl, rfl⟩ | ⟨-, found⟩
    · refine .inl ⟨d', here, rfl, fun b read => .inr ?_, fun sent => nomatch sent⟩
      cases read
      exact held
    · exact same found
  | @forward i d' bytes here phase =>
    rcases Table.lookup_of_insert found with ⟨rfl, rfl⟩ | ⟨-, found⟩
    · refine .inl ⟨d', here, rfl, fun b read => .inl ?_, fun _ => .inr ⟨rfl, ?_⟩⟩
      · cases read
        rw [Drain.bytes, phase]
        rfl
      · rw [Drain.bytes, phase]
        rfl
    · exact same found
  | @remove i d' bytes content here phase held =>
    rcases Table.lookup_of_insert found with ⟨rfl, rfl⟩ | ⟨-, found⟩
    · refine .inl ⟨d', here, rfl, fun b read => .inl ?_, fun _ => .inl (by rw [Drain.sent, phase]; rfl)⟩
      cases read
      rw [Drain.bytes, phase]
      rfl
    · exact same found
  | @removeFailed i d' bytes here phase =>
    rcases Table.lookup_of_insert found with ⟨rfl, rfl⟩ | ⟨-, found⟩
    · refine .inl ⟨d', here, rfl, fun b read => .inl ?_, fun _ => .inl (by rw [Drain.sent, phase]; rfl)⟩
      cases read
      rw [Drain.bytes, phase]
      rfl
    · exact same found
  | unreadable | retry | settle => exact same (Table.lookup_of_erase found).2
  | _ => exact same found

def Present (s : World) (seq : Nat) : Prop :=
  (s.state.pending.lookup seq).isSome = true ∧ (s.files.lookup (otlpName seq)).isSome = true

theorem Present.below (books : Accounted limit s) {seq : Nat} (present : s.Present seq) : seq < s.state.nextSeq := by
  obtain ⟨len, entry⟩ := Option.isSome_iff_exists.mp present.1
  exact books.entryBelow seq len entry

theorem present_step (h : s.step e = some s') (books : Accounted limit s) {seq : Nat} (present : s.Present seq) :
    s'.Present seq ∨ ∃ id d, s.drains.lookup id = some d ∧ d.seq = seq ∧ d.sent.isSome = true := by
  have small := Nat.lt_trans (present.below books) books.range
  cases step_cases h with
  | reserve fresh ok =>
    obtain ⟨-, -, -, rfl⟩ := State.reserve_ok ok
    exact .inl present
  | create | write => exact .inl ⟨present.1, Table.isSome_insert present.2⟩
  | @rename id p content here phase held =>
    refine .inl ⟨present.1, Table.isSome_insert ?_⟩
    rw [AList.lookup_erase_ne fun same => tmpName_ne_otlpName _ _ same.symm]
    exact present.2
  | publish => exact .inl ⟨Table.isSome_insert present.1, present.2⟩
  | @remove id d bytes content here phase held =>
    by_cases same : d.seq = seq
    · exact .inr ⟨id, d, here, same, by rw [Drain.sent, phase]; rfl⟩
    · refine .inl ⟨present.1, ?_⟩
      have below := Nat.lt_trans (books.drainBelow id d here) books.range
      exact (congrArg Option.isSome (AList.lookup_erase_ne fun equal =>
        same (otlpName_injective small below equal).symm)).trans present.2
  | @settle id d bytes here phase =>
    by_cases same : d.seq = seq
    · exact .inr ⟨id, d, here, same, by rw [Drain.sent, phase]; rfl⟩
    · refine .inl ⟨?_, present.2⟩
      simp only [settled, State.settle]
      split
      · exact (congrArg Option.isSome (AList.lookup_erase_ne (Ne.symm same))).trans present.1
      · exact present.1
  | _ => exact .inl present

theorem file_of_step (h : s.step e = some s') (books : Accounted limit s) {seq : Nat} (small : seq < 2 ^ 64) {content : Bytes}
    (found : s'.files.lookup (otlpName seq) = some content) : s.files.lookup (otlpName seq) = some content ∨
      ∃ id p, e = .rename id ∧ s.pushes.lookup id = some p ∧ p.phase = .synced ∧ p.seq = seq ∧
        s.files.lookup (tmpName seq) = some content := by
  cases step_cases h with
  | create | write =>
    exact .inl ((AList.lookup_insert_ne fun same => tmpName_ne_otlpName _ _ same.symm).symm.trans found)
  | @rename id p content' here phase held =>
    rcases Table.lookup_of_insert found with ⟨same, rfl⟩ | ⟨-, found⟩
    · have mine := otlpName_injective small (books.push_lt here) same
      exact .inr ⟨id, p, rfl, here, phase, mine.symm, mine ▸ held⟩
    · exact .inl (Table.lookup_of_erase found).2
  | remove => exact .inl (Table.lookup_of_erase found).2
  | _ => exact .inl found

theorem unrenamed_of_step (h : s.step e = some s') {id : Nat} {p : Push} (found : s'.pushes.lookup id = some p)
    (phase : p.phase ≠ .renamed) : (∃ q, s.pushes.lookup id = some q ∧ q.seq = p.seq ∧ q.phase ≠ .renamed ∧ e ≠ .rename id) ∨
      p.seq = s.state.nextSeq := by
  cases step_cases h with
  | reserve =>
    rcases Table.lookup_of_insert found with ⟨-, rfl⟩ | ⟨-, found⟩
    · exact .inr rfl
    · exact .inl ⟨p, found, rfl, phase, nofun⟩
  | create here before | write here before | sync here before =>
    rcases Table.lookup_of_insert found with ⟨rfl, rfl⟩ | ⟨-, found⟩
    · exact .inl ⟨_, here, rfl, before ▸ nofun, nofun⟩
    · exact .inl ⟨p, found, rfl, phase, nofun⟩
  | fail here before =>
    rcases Table.lookup_of_insert found with ⟨rfl, rfl⟩ | ⟨-, found⟩
    · exact .inl ⟨_, here, rfl, before, nofun⟩
    · exact .inl ⟨p, found, rfl, phase, nofun⟩
  | rename =>
    rcases Table.lookup_of_insert found with ⟨-, rfl⟩ | ⟨other, found⟩
    · exact absurd rfl phase
    · exact .inl ⟨p, found, rfl, phase, fun same => other (Event.rename.inj same).symm⟩
  | publish | release => exact .inl ⟨p, (Table.lookup_of_erase found).2, rfl, phase, nofun⟩
  | _ => exact .inl ⟨p, found, rfl, phase, nofun⟩

theorem entry_of_step (h : s.step e = some s') {seq len : Nat} (found : s'.state.pending.lookup seq = some len) :
    s.state.pending.lookup seq = some len ∨
      ∃ id p, e = .publish id ∧ s.pushes.lookup id = some p ∧ p.phase = .renamed ∧ p.seq = seq := by
  cases step_cases h with
  | reserve fresh ok =>
    obtain ⟨-, -, -, rfl⟩ := State.reserve_ok ok
    exact .inl found
  | @publish id p here phase =>
    rcases Table.lookup_of_insert found with ⟨same, -⟩ | ⟨-, found⟩
    · exact .inr ⟨id, p, rfl, here, phase, same.symm⟩
    · exact .inl found
  | settle =>
    simp only [settled, State.settle] at found
    split at found
    · exact .inl (Table.lookup_of_erase found).2
    · exact .inl found
  | _ => exact .inl found

end Steps

end World

namespace Life

section Records
variable {limit : Nat} {s : Life} {world : World} {e : Event}

theorem push_of_step (h : s.world.step e = some world) {id : Nat} {p : Push} (found : world.pushes.lookup id = some p) :
    (∃ q, s.world.pushes.lookup id = some q ∧ q.seq = p.seq ∧ q.payload = p.payload) ∨
      (p.seq = s.world.state.nextSeq ∧ p.phase = .reserved ∧ s.reserves e = true ∧
        s.entries e = [.started s.tickets p.payload]) := by
  refine (World.pushes_of_step h found).imp_right fun ⟨next, phase, _, called, ok⟩ => ⟨next, phase, called ▸ ok, ?_⟩
  rw [called, entries]
  cases result : s.world.state.reserve s.world.maxBytes p.payload.length with
  | ok r => rfl
  | error stop =>
    rw [result] at ok
    cases ok

theorem record_owner (s : Life) (e : Event) {seq : Nat} (below : seq < s.world.state.nextSeq) :
    (s.record e).owner seq = s.owner seq := by
  rw [record]
  simp only
  split
  · exact Function.update_of_ne (Nat.ne_of_lt below) _ _
  · rfl

theorem owner_of_record {seq t : Nat} (owned : (s.record e).owner seq = some t) :
    (s.owner seq = some t ∧ (s.reserves e = true → seq ≠ s.world.state.nextSeq)) ∨
      (s.reserves e = true ∧ seq = s.world.state.nextSeq ∧ t = s.tickets) := by
  rw [record] at owned
  simp only at owned
  split at owned
  · rename_i takes
    by_cases same : seq = s.world.state.nextSeq
    · rw [same, Function.update_self] at owned
      exact .inr ⟨takes, same, (Option.some.inj owned).symm⟩
    · rw [Function.update_of_ne same] at owned
      exact .inl ⟨owned, fun _ => same⟩
  · rename_i idle
    exact .inl ⟨owned, fun takes => absurd takes idle⟩

theorem record_tickets (s : Life) (e : Event) : s.tickets ≤ (s.record e).tickets := by
  rw [record]
  simp only
  split <;> omega

theorem mem_record {x : Entry} (member : x ∈ s.log) : x ∈ (s.record e).log := List.mem_append_left _ member

/-- Every owner's ticket has been given out. -/
structure Ticketed (s : Life) : Prop where
  below : ∀ seq t, s.owner seq = some t → t < s.tickets
  apart : ∀ seq seq' t, s.owner seq = some t → s.owner seq' = some t → seq = seq'
  logged : ∀ x ∈ s.log, x.ticket < s.tickets

theorem ticket_of_entries (s : Life) (e : Event) : ∀ x ∈ s.entries e,
    (s.reserves e = true ∧ x.ticket = s.tickets ∧ ∃ payload, x = .started s.tickets payload) ∨
      (s.reserves e = false ∧ ∃ seq, s.owner seq = some x.ticket ∧ ∀ t payload, x ≠ .started t payload) := by
  intro x member
  cases e with
  | push id payload =>
    rw [entries] at member
    rw [reserves]
    split at member
    · rename_i r ok
      rw [List.mem_singleton.mp member, ok]
      exact .inl ⟨rfl, rfl, payload, rfl⟩
    · cases member
  | publish id | settle id =>
    simp only [entries, Option.mem_toList, Option.bind_eq_some_iff, Option.map_eq_some_iff] at member
    obtain ⟨q, -, t, owned, rfl⟩ := member
    exact .inr ⟨rfl, q.seq, owned, nofun⟩
  | forward id =>
    simp only [entries, Option.mem_toList, Option.bind_eq_some_iff, Option.map_eq_some_iff] at member
    obtain ⟨d, -, bytes, -, t, owned, rfl⟩ := member
    exact .inr ⟨rfl, d.seq, owned, nofun⟩
  | _ => cases member

theorem Ticketed.record (ticketed : s.Ticketed) (e : Event) : (s.record e).Ticketed where
  below seq t owned := by
    rcases owner_of_record owned with ⟨old, -⟩ | ⟨takes, -, rfl⟩
    · exact Nat.lt_of_lt_of_le (ticketed.below seq t old) (record_tickets s e)
    · simp only [Life.record, takes, if_true]
      exact Nat.lt_succ_self _
  apart seq seq' t owned owned' := by
    rcases owner_of_record owned with ⟨old, -⟩ | ⟨-, rfl, rfl⟩
    · rcases owner_of_record owned' with ⟨old', -⟩ | ⟨-, rfl, rfl⟩
      · exact ticketed.apart seq seq' t old old'
      · exact absurd (ticketed.below _ _ old) (Nat.lt_irrefl _)
    · rcases owner_of_record owned' with ⟨old', -⟩ | ⟨-, rfl, -⟩
      · exact absurd (ticketed.below _ _ old') (Nat.lt_irrefl _)
      · rfl
  logged x member := by
    rcases List.mem_append.mp member with old | new
    · exact Nat.lt_of_lt_of_le (ticketed.logged x old) (record_tickets s e)
    · rcases ticket_of_entries s e x new with ⟨takes, ticket, -⟩ | ⟨-, seq, owned, -⟩
      · rw [ticket]
        simp only [Life.record, takes, if_true]
        exact Nat.lt_succ_self _
      · exact Nat.lt_of_lt_of_le (ticketed.below seq _ owned) (record_tickets s e)

end Records

end Life

end ArchivAgent.Spool
