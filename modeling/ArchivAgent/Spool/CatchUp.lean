import ArchivAgent.Spool.Pace
import ArchivAgent.Spool.Sole

/-!
# Catching up

While no call fails, whatever waits is delivered: an entry has before it those that are not newer
and the pushes that may still publish an older one, and each of them takes the loop one round.
-/

namespace ArchivAgent.Spool
open Wire (Bytes)

def LoopEvent.ofLoop : LoopEvent → Bool
  | .drain .. | .wake => true
  | .push _ | .shutdown => false

namespace World

/-- The entries that are not newer than `q`, and the pushes that may publish one. -/
def ahead (w : World) (q : Nat) : Nat :=
  w.state.pending.total (fun seq _ => if seq ≤ q then 1 else 0) + w.pushes.total fun _ p => if p.seq < q then 1 else 0

section Ahead
variable {limit : Nat} {w w' : World} {e : Event} {q : Nat}

theorem ahead_setPush {id : Nat} {p : Push} (here : w.pushes.lookup id = some p) (files : Files) (phase : PushPhase) :
    ({ w with files }.setPush id p phase).ahead q = w.ahead q := by
  rw [ahead, ahead]
  exact congrArg (_ + ·) (Table.total_insert_same here rfl)

/-- A push puts nothing before an entry that it did not have before. -/
theorem step_ahead (h : w.step e = some w') (mine : e.pushId.isSome = true) (books : Accounted limit w) {len : Nat}
    (entry : w.state.pending.lookup q = some len) : w'.ahead q ≤ w.ahead q := by
  cases step_cases h with
  | @reserve id payload seq state fresh ok =>
    obtain ⟨-, -, -, rfl⟩ := State.reserve_ok ok
    have newer : ¬ w.state.nextSeq < q := Nat.not_lt.mpr (Nat.le_of_lt (books.entryBelow q len entry))
    rw [ahead, ahead, reserved, Table.total_insert fresh]
    simp only [if_neg newer]
    omega
  | refuse => exact Nat.le_refl _
  | create here | write here | rename here => exact Nat.le_of_eq (ahead_setPush here _ _)
  | sync here | fail here => exact Nat.le_of_eq (ahead_setPush here w.files _)
  | @publish id p here phase =>
    have apart : p.seq ≠ q := by
      rintro rfl
      rw [books.unpublished id p here] at entry
      cases entry
    have alike : (if p.seq ≤ q then 1 else 0) = if p.seq < q then 1 else 0 :=
      if_congr (by omega) rfl rfl
    have before : w.pushes.total (fun _ p => if p.seq < q then 1 else 0) =
        (if p.seq < q then 1 else 0) + Table.total (fun _ p => if p.seq < q then 1 else 0) (w.pushes.erase id) :=
      Table.total_erase here
    rw [ahead, ahead, before]
    simp only [published, State.publish, Table.total_insert (books.unpublished id p here), alike]
    omega
  | @release id p e here phase =>
    have before : w.pushes.total (fun _ p => if p.seq < q then 1 else 0) =
        (if p.seq < q then 1 else 0) + Table.total (fun _ p => if p.seq < q then 1 else 0) (w.pushes.erase id) :=
      Table.total_erase here
    rw [ahead, ahead, before]
    simp only [released, State.release]
    omega
  | _ => cases mine

theorem settled_ahead {d : Drain} (entry : w.state.pending.lookup d.seq = some d.len) :
    (w.settled DrainLoop.call d).ahead q + (if d.seq ≤ q then 1 else 0) = w.ahead q := by
  have before : w.state.pending.total (fun seq _ => if seq ≤ q then 1 else 0) =
      (if d.seq ≤ q then 1 else 0) + Table.total (fun seq _ => if seq ≤ q then 1 else 0) (w.state.pending.erase d.seq) :=
    Table.total_erase entry
  rw [ahead, ahead, before]
  simp only [settled, State.settle, entry, Option.isSome_some, if_true]
  omega

end Ahead

end World

def DrainPhase.stepsLeft : DrainPhase → Nat
  | .selected => 4
  | .read _ => 3
  | .forwarded _ => 2
  | .removed _ => 1

theorem DrainPhase.stepsLeft_le (phase : DrainPhase) : phase.stepsLeft ≤ 6 := by
  cases phase <;> exact Nat.le_of_ble_eq_true rfl

namespace DrainLoop

def stepsLeft (s : DrainLoop) : Nat :=
  match s.phase with
  | .waiting _ | .stopped => 6
  | .draining => match s.world.drains.lookup call with
    | none => 5
    | some d => d.phase.stepsLeft

/-- A round for an entry newer than `q` does not bring it nearer. -/
def aside (s : DrainLoop) (q : Nat) : Nat :=
  match s.current with
  | some seq => if q < seq then 6 else 0
  | none => 0

/-- The steps of the loop after which `q` has been sent. -/
def rank (q : Nat) (s : DrainLoop) : Nat := 6 * s.world.ahead q + s.stepsLeft + s.aside q

section Steps
variable {backlog : Nat × Bytes → Prop} {s s' : DrainLoop} {e : LoopEvent} {q : Nat} {content : Bytes}

theorem rank_le : s.rank q ≤ 6 * (s.world.ahead q + 2) := by
  have left : s.stepsLeft ≤ 6 := by
    rw [stepsLeft]
    split
    · exact Nat.le_refl _
    · exact Nat.le_refl _
    · split
      · decide
      · exact DrainPhase.stepsLeft_le _
  have beside : s.aside q ≤ 6 := by
    rw [aside]
    split
    · split <;> decide
    · decide
  rw [rank]
  omega

theorem aside_none (free : s.world.drains.lookup call = none) : s.aside q = 0 := by
  rw [aside, current, free]
  rfl

theorem rank_call {world : World} {d : Drain} (draining : s.phase = .draining) (here : world.drains.lookup call = some d) :
    rank q { s with world } = 6 * world.ahead q + d.phase.stepsLeft + if q < d.seq then 6 else 0 := by
  simp only [rank, stepsLeft, draining, aside, current, here, Option.map_some]

theorem goes_rank {ev : Event} {world : World} (draining : s.phase = .draining) (goes : Goes s.world ev world)
    {len : Nat} (entry : s.world.state.pending.lookup q = some len) : rank q { s with world } + 1 ≤ s.rank q := by
  have same : world.ahead q = s.world.ahead q := by cases goes <;> rfl
  cases goes with
  | @select seq len fresh oldest =>
    have least : seq ≤ q := (Table.first_some oldest).2 q _ entry
    have before : s.rank q = 6 * s.world.ahead q + 5 := by
      rw [rank, aside_none fresh]
      simp only [stepsLeft, draining, fresh, Nat.add_zero]
    rw [before, rank_call draining (AList.lookup_insert _), if_neg (Nat.not_lt.mpr least), same]
    exact Nat.le_refl _
  | read here phase | forward here phase | remove here phase | removeFailed here phase =>
    have before : s.rank q = _ := rank_call draining here
    rw [before, rank_call draining (AList.lookup_insert _), phase, same]
    simp only [DrainPhase.stepsLeft]
    omega

theorem settle_rank (subsecNanos : Nat) {d : Drain} {bytes : Bytes} (draining : s.phase = .draining)
    (here : s.world.drains.lookup call = some d) (phase : d.phase = .removed bytes)
    (listed : s.world.state.pending.lookup d.seq = some d.len) :
    (s.answered subsecNanos .delivered (s.world.settled call d)).rank q + 1 ≤ s.rank q := by
  have settled := World.settled_ahead (q := q) listed
  have free : (s.answered subsecNanos .delivered (s.world.settled call d)).world.drains.lookup call = none :=
    AList.lookup_erase _ _
  have before : s.rank q = _ := rank_call draining here
  rw [before, phase, rank, aside_none free, answered_world]
  show 6 * _ + 6 + 0 + 1 ≤ 6 * _ + 1 + _
  by_cases older : d.seq ≤ q
  · rw [if_pos older] at settled
    rw [if_neg (Nat.not_lt.mpr older)]
    omega
  · rw [if_neg older] at settled
    rw [if_pos (Nat.lt_of_not_le older)]
    omega

/-- A step that does not fail lowers the rank if it is the loop's, and raises it in no case. -/
theorem step_rank (h : s.step e = some s') (sound : s.Sound backlog) (waits : s.world.Waits (q, content))
    (up : e.fails = false) : s'.rank q + (if e.ofLoop then 1 else 0) ≤ s.rank q := by
  obtain ⟨limit, books⟩ := sound.books
  cases step_cases h with
  | @push ev world mine one =>
    have fewer : world.ahead q ≤ s.world.ahead q := World.step_ahead one mine books waits.1
    have same := (World.step_beside one mine books sound.held).drains
    simp only [rank, stepsLeft, aside, current, same]
    show 6 * world.ahead q + _ + _ + 0 ≤ _
    omega
  | goes draining one goes => exact goes_rank draining goes waits.1
  | ends draining one ends =>
    cases ends with
    | idle fresh empty =>
      have none := Table.first_none empty q
      rw [waits.1] at none
      cases none
    | unreadable | refuse => cases up
    | settle here phase => exact settle_rank _ draining here phase (sound.sole.listed _ here)
  | wake waiting =>
    have free := sound.resting (by rw [waiting]; nofun)
    simp only [rank, stepsLeft, waiting, free, aside, current]
    show _ + 5 + _ + 1 ≤ _ + 6 + _
    omega
  | shutdown waiting =>
    simp only [rank, stepsLeft, waiting, aside, current]
    exact Nat.le_refl _

theorem waits_or_delivered (h : s.step e = some s') (sound : s.Sound backlog) (waits : s.world.Waits (q, content)) :
    (q, content) ∈ s'.world.delivered ∨ s'.world.Waits (q, content) := by
  have acked : ∀ x ∈ s.world.acked, x ∈ s'.world.acked := by
    rcases world_of_step h with same | ⟨ev, one⟩
    · rw [same]
      exact fun _ member => member
    · exact World.acked_mono one
  have held := (sound.sole.conserved (q, content)).mpr (.inr waits)
  exact ((step_sound h sound).sole.conserved (q, content)).mp (held.imp_right (acked _))

/-- The loop can always go on, and its call need not fail. -/
theorem Sound.ready (sound : s.Sound backlog) (running : s.phase ≠ .stopped) :
    ∃ e s', LoopEvent.ofLoop e = true ∧ e.fails = false ∧ s.step e = some s' := by
  cases phase : s.phase with
  | stopped => exact absurd phase running
  | waiting wait => exact ⟨.wake, { s with phase := .draining, slept := s.slept + wait }, rfl, rfl, by simp only [step, phase]⟩
  | draining =>
    have drain : ∀ ev world, ev.drainId = some call → s.world.step ev = some world → (LoopEvent.drain ev 0).fails = false →
        ∃ e s', LoopEvent.ofLoop e = true ∧ e.fails = false ∧ s.step e = some s' := by
      intro ev world mine one up
      exact ⟨.drain ev 0, _, rfl, up, by rw [step, if_pos ⟨mine, phase⟩, one]; rfl⟩
    cases here : s.world.drains.lookup call with
    | none =>
      cases oldest : s.world.state.oldest with
      | none => exact drain (.select call) _ rfl (by simp only [World.step, here, oldest]; rfl) rfl
      | some entry => exact drain (.select call) _ rfl (by simp only [World.step, here, oldest]; rfl) rfl
    | some d =>
      cases at' : d.phase with
      | selected =>
        have unsent : ¬ s.world.Sent d.seq := by
          rw [World.sent_iff here, Drain.sent, at']
          rintro ⟨-, sent⟩
          cases sent
        obtain ⟨content, waits⟩ := (sound.sole.backed d.seq d.len (sound.sole.listed d here)).resolve_left unsent
        exact drain (.read call) (s.world.setDrain call d (.read content)) rfl
          (by simp only [World.step, here, waits.2.1, bind, Option.bind, at', if_true]) rfl
      | read bytes =>
        exact drain (.forward call) (s.world.delivers call d bytes) rfl
          (by simp only [World.step, here, bind, Option.bind, at']) rfl
      | forwarded bytes =>
        exact drain (.removeFailed call) (s.world.setDrain call d (.removed bytes)) rfl
          (by simp only [World.step, here, bind, Option.bind, at']) rfl
      | removed bytes =>
        exact drain (.settle call) (s.world.settled call d) rfl
          (by simp only [World.step, here, bind, Option.bind, at']) rfl

end Steps

/-- While no call fails, what waits is delivered within the rounds of what is ahead of it, whatever
the pushes do; and until it is stopped the loop can always take a step that does not fail. -/
theorem backlog_delivered {io : OpenIo} {files files' : Files} {maxBytes : Nat} {sp : Spool}
    (opened : Spool.open io files maxBytes = .ok (sp, files')) {es : List LoopEvent} {s : DrainLoop}
    (ran : (start sp files').run es = some s) :
    (s.phase ≠ .stopped → ∃ e s', LoopEvent.ofLoop e = true ∧ e.fails = false ∧ s.step e = some s') ∧
      ∀ more s' q content, s.run more = some s' → s.world.Waits (q, content) → (∀ e ∈ more, e.fails = false) →
        6 * (s.world.ahead q + 2) < more.countP LoopEvent.ofLoop → (q, content) ∈ s'.world.delivered := by
  have sound := run_sound ran (start_sound opened)
  refine ⟨sound.ready, fun more s' q content after waits up enough => ?_⟩
  refine Transition.run_reaches (fun s => s.Sound (World.Backlog sp files') ∧ s.world.Waits (q, content))
    (fun s => (q, content) ∈ s.world.delivered) (rank q) LoopEvent.ofLoop after (fun s e s' one sent => ?_)
    (fun e member s s' one inv unsent => ?_) ⟨sound, waits⟩ (Nat.lt_of_le_of_lt rank_le enough)
  · rcases world_of_step one with same | ⟨ev, one⟩
    · rw [same]
      exact sent
    · exact World.delivered_mono one _ sent
  · refine (waits_or_delivered one inv.1 inv.2).imp_right fun waits => ⟨⟨step_sound one inv.1, waits⟩, ?_⟩
    exact step_rank one inv.1 inv.2 (up e member)

def caughtUp : List LoopEvent := resent ++ (List.replicate 7 [.wake, .drain (.select call) 0]).flatten

theorem backlog_delivered_refused : ∃ s s', (start ⟨10, 0, 0, ∅⟩ ∅).run refused = some s ∧ s.run caughtUp = some s' ∧
    s.world.Waits (0, [7]) ∧ (∃ e s', LoopEvent.ofLoop e = true ∧ e.fails = false ∧ s.step e = some s') ∧
      (0, [7]) ∈ s'.world.delivered := by
  obtain ⟨s, ran⟩ := Option.isSome_iff_exists.mp (show ((start ⟨10, 0, 0, ∅⟩ ∅).run refused).isSome = true by decide +kernel)
  have there : ∀ {α : Type} (f : DrainLoop → α) (v : α), ((start ⟨10, 0, 0, ∅⟩ ∅).run refused).map f = some v → f s = v := by
    intro α f v same
    rw [ran] at same
    exact Option.some.inj same
  have entry := there (fun s => s.world.state.pending.lookup 0) (some 1) (by decide +kernel)
  have file := there (fun s => s.world.files.lookup (otlpName 0)) (some [7]) (by decide +kernel)
  have free := there (fun s => s.world.drains.lookup call) none (by decide +kernel)
  have waiting := there (·.phase) (.waiting 1249) (by decide +kernel)
  have ahead := there (·.world.ahead 0) 1 (by decide +kernel)
  obtain ⟨s', after⟩ := Option.isSome_iff_exists.mp (there (fun s => (s.run caughtUp).isSome) true (by decide +kernel))
  have delivers := backlog_delivered (show Spool.open {} ∅ 10 = .ok (⟨10, 0, 0, ∅⟩, ∅) from rfl) ran
  have waits : s.world.Waits (0, [7]) := by
    refine ⟨entry, file, ?_⟩
    rintro ⟨d, here, -⟩
    rw [free] at here
    cases here
  refine ⟨s, s', ran, after, waits, delivers.1 (by rw [waiting]; nofun), ?_⟩
  exact delivers.2 caughtUp s' 0 [7] after waits (by decide) (by rw [ahead]; decide)

end DrainLoop

end ArchivAgent.Spool
